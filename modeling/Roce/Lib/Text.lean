import Mathlib.Data.List.TakeWhile

/-! # Fronts and lines of a text

A scanner takes the longest front of the characters that it knows, or everything up to a
delimiter. -/

namespace Roce.Text

variable {α : Type u} {p : α → Bool}

/-- No character that `p` holds of comes first. -/
def Stops (p : α → Bool) (text : List α) : Prop := ∀ c ∈ text.head?, p c = false

theorem stops_nil : Stops p [] := fun _ hc => absurd hc (Option.not_mem_none _)

theorem stops_cons (h : p c = false) (text : List α) : Stops p (c :: text) := by
  rintro _ hc
  cases hc
  exact h

/-- The front is everything that is taken. -/
theorem takeWhile_front (hfront : ∀ c ∈ front, p c = true) (hrest : Stops p rest) :
    (front ++ rest).takeWhile p = front := by
  rw [List.takeWhile_append_of_pos hfront]
  cases rest with
  | nil => rw [List.takeWhile_nil, List.append_nil]
  | cons c rest =>
    rw [List.takeWhile_cons_of_neg (Bool.eq_false_iff.mp (hrest c rfl)), List.append_nil]

theorem Stops.dropWhile_eq (h : Stops p text) : text.dropWhile p = text := by
  cases text with
  | nil => rfl
  | cons c text => exact List.dropWhile_cons_of_neg (Bool.eq_false_iff.mp (h c rfl))

theorem dropWhile_front (hfront : ∀ c ∈ front, p c = true) (hrest : Stops p rest) :
    (front ++ rest).dropWhile p = rest := by
  rw [List.dropWhile_append_of_pos hfront, hrest.dropWhile_eq]

/-- A text has one longest front. -/
theorem front_unique (hfront : ∀ c ∈ front, p c = true) (hrest : Stops p rest)
    (hfront' : ∀ c ∈ front', p c = true) (hrest' : Stops p rest')
    (h : front ++ rest = front' ++ rest') : front = front' ∧ rest = rest' := by
  constructor
  · rw [← takeWhile_front hfront hrest, h, takeWhile_front hfront' hrest']
  · rw [← dropWhile_front hfront hrest, h, dropWhile_front hfront' hrest']

theorem stops_dropWhile (p : α → Bool) (text : List α) : Stops p (text.dropWhile p) := by
  intro c hc
  have hhead := List.head?_dropWhile_not p text
  rw [hc] at hhead
  simpa using hhead

/-! ## Lines -/

section

variable [DecidableEq α]

/-- `std::getline`, which fails at the end of the stream. -/
def getline (delim : α) : List α → Option (List α × List α)
  | [] => none
  | is => some (is.takeWhile (· ≠ delim), (is.dropWhile (· ≠ delim)).tail)

theorem getline_of_ne_nil {is : List α} (h : is ≠ []) (delim : α) :
    getline delim is = some (is.takeWhile (· ≠ delim), (is.dropWhile (· ≠ delim)).tail) := by
  cases is with
  | nil => exact absurd rfl h
  | cons => rfl

theorem ne_of_mem_line {line : List α} (h : delim ∉ line) :
    ∀ c ∈ line, decide (c ≠ delim) = true := by
  rintro c hc
  exact decide_eq_true fun heq => h (heq ▸ hc)

/-- A line with its delimiter. -/
theorem getline_delim {line : List α} (h : delim ∉ line) (rest : List α) :
    getline delim (line ++ delim :: rest) = some (line, rest) := by
  have hstops : Stops (fun c => decide (c ≠ delim)) (delim :: rest) := stops_cons (by simp) rest
  rw [getline_of_ne_nil (by simp), takeWhile_front (ne_of_mem_line h) hstops,
    dropWhile_front (ne_of_mem_line h) hstops, List.tail_cons]

/-- The last line may come without one. -/
theorem getline_end {line : List α} (h : delim ∉ line) (hne : line ≠ []) :
    getline delim line = some (line, []) := by
  have hfront := ne_of_mem_line h
  rw [getline_of_ne_nil hne, List.takeWhile_eq_self_iff.mpr hfront,
    List.dropWhile_eq_nil_iff.mpr hfront, List.tail_nil]

theorem getline_cases {is : List α} (h : getline delim is = some (line, is')) :
    delim ∉ line ∧ (is = line ++ delim :: is' ∨ is = line ∧ is' = []) := by
  cases is with
  | nil => cases h
  | cons c cs =>
    have hsplit : line ++ (c :: cs).dropWhile (· ≠ delim) = c :: cs := by
      cases h
      exact List.takeWhile_append_dropWhile
    have hstops := stops_dropWhile (fun x => decide (x ≠ delim)) (c :: cs)
    constructor
    · intro hmem
      cases h
      simpa using List.mem_takeWhile_imp hmem
    · have htail : is' = ((c :: cs).dropWhile (· ≠ delim)).tail := by
        cases h
        rfl
      cases hdrop : (c :: cs).dropWhile (· ≠ delim) with
      | nil =>
        rw [hdrop] at hsplit htail
        exact .inr ⟨by rw [← hsplit, List.append_nil], htail⟩
      | cons d rest =>
        rw [hdrop] at hsplit htail hstops
        have hd : d = delim := by simpa using hstops d rfl
        rw [List.tail_cons] at htail
        exact .inl (by rw [← hsplit, hd, htail])

/-- `getline` makes progress. -/
theorem length_getline {is is' : List α} (h : getline delim is = some (line, is')) :
    is'.length < is.length := by
  have hne : is ≠ [] := by
    rintro rfl
    cases h
  obtain ⟨-, rfl | ⟨-, rfl⟩⟩ := getline_cases h
  · simp only [List.length_append, List.length_cons]
    omega
  · exact List.length_pos_iff.mpr hne

/-- `file.readlines()`: the lines, each with its delimiter. -/
def readlines (delim : α) : List α → List (List α)
  | [] => []
  | c :: cs =>
    if c = delim then [c] :: readlines delim cs
    else match readlines delim cs with
      | [] => [[c]]
      | line :: lines => (c :: line) :: lines

/-- No character is lost. -/
theorem flatten_readlines (delim : α) (text : List α) : (readlines delim text).flatten = text := by
  induction text with
  | nil => rfl
  | cons c text ih =>
    rw [readlines]
    split
    next => rw [List.flatten_cons, ih, List.singleton_append]
    next =>
      cases hlines : readlines delim text with
      | nil => rw [← ih, hlines]; rfl
      | cons line lines => rw [← ih, hlines]; rfl

theorem readlines_delim {line : List α} (h : delim ∉ line) (rest : List α) :
    readlines delim (line ++ delim :: rest) = (line ++ [delim]) :: readlines delim rest := by
  induction line with
  | nil => exact if_pos rfl
  | cons c line ih =>
    obtain ⟨hc, hline⟩ := List.ne_and_not_mem_of_not_mem_cons h
    rw [List.cons_append, readlines, if_neg (Ne.symm hc), ih hline]
    rfl

/-- Texts that are lines are read as they are. -/
theorem readlines_flatMap {l : List β} {f : β → List α}
    (h : ∀ b ∈ l, ∃ line, delim ∉ line ∧ f b = line ++ [delim]) :
    readlines delim (l.flatMap f) = l.map f := by
  induction l with
  | nil => rfl
  | cons b l ih =>
    obtain ⟨⟨line, hline, hf⟩, h⟩ := List.forall_mem_cons.mp h
    rw [List.flatMap_cons, List.map_cons, hf, List.append_assoc, List.singleton_append,
      readlines_delim hline, ih h]

/-- The first line ends with the delimiter, or is the last one. -/
theorem readlines_cases {text : List α} (h : readlines delim text = line :: lines) :
    (∃ front, delim ∉ front ∧ line = front ++ [delim]) ∨ lines = [] := by
  induction text generalizing line lines with
  | nil => cases h
  | cons c text ih =>
    rw [readlines] at h
    split at h
    next hc =>
      cases h
      exact .inl ⟨[], List.not_mem_nil, hc ▸ rfl⟩
    next hc =>
      cases hlines : readlines delim text with
      | nil =>
        rw [hlines] at h
        cases h
        exact .inr rfl
      | cons line' lines' =>
        rw [hlines] at h
        cases h
        refine (ih hlines).imp_left ?_
        rintro ⟨front, hfront, rfl⟩
        exact ⟨c :: front, List.not_mem_cons_of_ne_of_not_mem (Ne.symm hc) hfront, rfl⟩

end

end Roce.Text
