import Roce.Lib.Text
import Roce.Lib.Word
import Roce.Network.Topology

/-! # The parser of `Ranges`

A selector of nodes is parsed with `std::getline` and the extraction of an `unsigned int` from a
stream. A string is the list of its characters. -/

namespace Roce

open Text

/-- `std::invalid_argument`. -/
structure InvalidArgument where
  what : String
  deriving DecidableEq, Repr

/-- Neither of two computations throws. -/
theorem bind_eq_ok {x : Except ε α} {f : α → Except ε β} (h : x >>= f = .ok b) :
    ∃ a, x = .ok a ∧ f a = .ok b := by
  cases x with
  | error => cases h
  | ok a => exact ⟨a, rfl, h⟩

/-! ## The streams -/

/-- `std::isspace`, in the locale "C". -/
def isSpace (c : Char) : Bool := c = ' ' || ('\t' ≤ c && c ≤ '\r')

/-- The sign that `std::num_get` accepts, and what comes after it. -/
def extractSign : List Char → Bool × List Char
  | '-' :: is => (true, is)
  | '+' :: is => (false, is)
  | is => (false, is)

/-- `std::istream >> unsigned int`: the number and what is left. A negative number wraps around; the
extraction fails without digits, and where the digits overflow. -/
def extractIndex (is : List Char) : Option (Nat × List Char) :=
  let (negative, is) := extractSign (is.dropWhile isSpace)
  let digits := is.takeWhile Char.isDigit
  let n := Nat.ofDigitChars 10 digits 0
  if digits = [] ∨ 2 ^ 32 ≤ n then none
  else some (if negative then sub32 0 n else n, is.dropWhile Char.isDigit)

/-! ## The parser -/

namespace Ranges

def invalidRangeExpression (expr : List Char) : InvalidArgument :=
  ⟨"Invalid range expression: " ++ String.ofList expr⟩

/-- The part of `ParseNext` after `getline`. -/
def parseExpr (expr : List Char) : Except InvalidArgument Element :=
  match extractIndex expr with
  | none => throw (invalidRangeExpression expr)
  | some (first, []) => return .index first
  | some (first, next :: is) =>
    if next ≠ '-' then throw (invalidRangeExpression expr)
    else
      match extractIndex is with
      | none => throw (invalidRangeExpression expr)
      | some (last, _) => return .range first last

/-- The loop over `ParseNext`, which ends when `peek` reaches the end of the stream. -/
def parseElements (is : List Char) : Except InvalidArgument (List Element) :=
  match _h : getline ',' is with
  | none => throw ⟨"Cannot parse range element"⟩
  | some (expr, is') => do
    let element ← parseExpr expr
    if is' = [] then return [element] else return element :: (← parseElements is')
termination_by is.length
decreasing_by exact length_getline _h

theorem parseElements_eq (h : getline ',' is = some (expr, is')) : parseElements is = do
    let element ← parseExpr expr
    if is' = [] then return [element] else return element :: (← parseElements is') := by
  rw [parseElements]
  split
  next hnone =>
    rw [h] at hnone
    cases hnone
  next hsome =>
    rw [h] at hsome
    cases hsome
    rfl

theorem exists_getline (h : parseElements is = .ok es) :
    ∃ expr is', getline ',' is = some (expr, is') := by
  rw [parseElements] at h
  split at h
  · cases h
  next expr is' hline => exact ⟨expr, is', hline⟩

/-- `Ranges::Ranges`. -/
def parse (expr : List Char) : Except InvalidArgument Ranges :=
  if expr = ['*'] then return { wildcard := true }
  else return { elements := ← parseElements expr }

/-! ## The grammar -/

/-- A decimal number of digits that fits in an `unsigned int`. -/
structure IsNumber (text : List Char) (n : Nat) : Prop where
  ne_nil : text ≠ []
  digits : ∀ c ∈ text, c.isDigit = true
  value : Nat.ofDigitChars 10 text 0 = n
  lt : n < 2 ^ 32

/-- `x` or `x-y`. -/
inductive Element.WrittenAs : Element → List Char → Prop
  | index : IsNumber text n → WrittenAs (.index n) text
  | range : IsNumber text first → IsNumber text' last →
    WrittenAs (.range first last) (text ++ '-' :: text')

/-- The comma-separated elements. -/
inductive ElementsWrittenAs : List Element → List Char → Prop
  | last : element.WrittenAs text → ElementsWrittenAs [element] text
  | more : element.WrittenAs text → ElementsWrittenAs es rest →
    ElementsWrittenAs (element :: es) (text ++ ',' :: rest)

/-- What the documentation of `Ranges` says. -/
inductive WrittenAs : Ranges → List Char → Prop
  | wildcard : WrittenAs { wildcard := true } ['*']
  | elements : ElementsWrittenAs es text → WrittenAs { elements := es } text

/-! ## What is accepted -/

inductive Sign where
  | plus
  | minus
  deriving DecidableEq, Repr

def Sign.text : Option Sign → List Char
  | none => []
  | some plus => ['+']
  | some minus => ['-']

theorem Sign.text_inj {sign sign' : Option Sign} (h : text sign = text sign') : sign = sign' := by
  rcases sign with _ | _ | _ <;> rcases sign' with _ | _ | _ <;> first | rfl | cases h

/-- A number that can be extracted. -/
structure Numeral where
  blanks : List Char
  sign : Option Sign
  digits : List Char
  blank : ∀ c ∈ blanks, isSpace c = true
  ne_nil : digits ≠ []
  digit : ∀ c ∈ digits, c.isDigit = true
  lt : Nat.ofDigitChars 10 digits 0 < 2 ^ 32

namespace Numeral

variable (k : Numeral)

def text : List Char := k.blanks ++ (Sign.text k.sign ++ k.digits)

def value : Nat :=
  if k.sign = some .minus then sub32 0 (Nat.ofDigitChars 10 k.digits 0)
  else Nat.ofDigitChars 10 k.digits 0

/-- Only digits are written. -/
def Plain : Prop := k.blanks = [] ∧ k.sign = none

end Numeral

theorem not_isSpace_of_isDigit {c : Char} (h : c.isDigit = true) : isSpace c = false := by
  apply Bool.eq_false_iff.mpr
  intro hspace
  simp only [isSpace, Bool.or_eq_true, Bool.and_eq_true, decide_eq_true_eq] at hspace
  rcases hspace with rfl | ⟨-, hle⟩
  · exact absurd h (by decide)
  · simp only [Char.isDigit, Bool.and_eq_true, decide_eq_true_eq, ge_iff_le,
      UInt32.le_iff_toNat_le] at h
    rw [Char.le_def, UInt32.le_iff_toNat_le] at hle
    exact absurd (h.1.trans hle) (by decide)

theorem stops_digits {digits : List Char} (hne : digits ≠ [])
    (hdigits : ∀ c ∈ digits, c.isDigit = true) (rest : List Char) :
    Stops isSpace (digits ++ rest) := by
  obtain ⟨d, ds, rfl⟩ := List.exists_cons_of_ne_nil hne
  exact stops_cons (not_isSpace_of_isDigit (hdigits d List.mem_cons_self)) _

/-- A sign is taken off the digits. -/
theorem extractSign_text (sign : Option Sign) {digits : List Char} (hne : digits ≠ [])
    (hdigits : ∀ c ∈ digits, c.isDigit = true) (rest : List Char) :
    extractSign (Sign.text sign ++ (digits ++ rest)) =
      (decide (sign = some .minus), digits ++ rest) := by
  obtain ⟨d, ds, rfl⟩ := List.exists_cons_of_ne_nil hne
  have hd := hdigits d List.mem_cons_self
  cases sign with
  | some sign => cases sign <;> rfl
  | none =>
    have hplus : d ≠ '+' := by rintro rfl; exact absurd hd (by decide)
    have hminus : d ≠ '-' := by rintro rfl; exact absurd hd (by decide)
    simp [Sign.text, extractSign, hplus, hminus]

theorem exists_sign (is : List Char) : ∃ sign,
    is = Sign.text sign ++ (extractSign is).2 ∧
      (extractSign is).1 = decide (sign = some .minus) := by
  unfold extractSign
  split
  · exact ⟨some .minus, rfl, rfl⟩
  · exact ⟨some .plus, rfl, rfl⟩
  · exact ⟨none, rfl, rfl⟩

namespace Numeral

variable {k k' : Numeral} {rest rest' : List Char}

/-- What comes after the blanks. -/
theorem stops_sign (k : Numeral) (rest : List Char) :
    Stops isSpace (Sign.text k.sign ++ (k.digits ++ rest)) := by
  cases hsign : k.sign with
  | none => exact stops_digits k.ne_nil k.digit rest
  | some sign => cases sign <;> exact stops_cons (by decide) _

theorem text_append (k : Numeral) (rest : List Char) :
    k.text ++ rest = k.blanks ++ (Sign.text k.sign ++ (k.digits ++ rest)) := by
  simp [text]

/-- A number is extracted up to its last digit. -/
theorem extractIndex_text (k : Numeral) (hrest : Stops Char.isDigit rest) :
    extractIndex (k.text ++ rest) = some (k.value, rest) := by
  have hn : ¬(k.digits = [] ∨ 2 ^ 32 ≤ Nat.ofDigitChars 10 k.digits 0) :=
    not_or.mpr ⟨k.ne_nil, Nat.not_le.mpr k.lt⟩
  rw [extractIndex, text_append, dropWhile_front k.blank (k.stops_sign rest),
    extractSign_text k.sign k.ne_nil k.digit]
  dsimp only
  rw [takeWhile_front k.digit hrest, dropWhile_front k.digit hrest, if_neg hn, value]
  simp only [decide_eq_true_eq]

/-- Whatever is extracted is a number. -/
theorem exists_text (h : extractIndex is = some (n, rest)) :
    ∃ k : Numeral, k.text ++ rest = is ∧ k.value = n ∧ Stops Char.isDigit rest := by
  obtain ⟨sign, hsign, hneg⟩ := exists_sign (is.dropWhile isSpace)
  rw [extractIndex] at h
  dsimp only at h
  split at h
  · cases h
  next hn =>
    obtain ⟨hne, hlt⟩ := not_or.mp hn
    cases h
    refine ⟨⟨is.takeWhile isSpace, sign, _, fun c hc => List.mem_takeWhile_imp hc, hne,
      fun c hc => List.mem_takeWhile_imp hc, Nat.lt_of_not_le hlt⟩, ?_, ?_, stops_dropWhile _ _⟩
    · rw [text_append]
      dsimp only
      rw [List.takeWhile_append_dropWhile, ← hsign, List.takeWhile_append_dropWhile]
    · rw [value, hneg]
      simp only [decide_eq_true_eq]

theorem comma_not_mem (k : Numeral) : ',' ∉ k.text := by
  intro h
  rcases List.mem_append.mp h with h | h
  · exact absurd (k.blank _ h) (by decide)
  rcases List.mem_append.mp h with h | h
  · cases hsign : k.sign with
    | none =>
      rw [hsign] at h
      cases h
    | some sign =>
      rw [hsign] at h
      cases sign <;> exact absurd h (by decide)
  · exact absurd (k.digit _ h) (by decide)

/-- A text starts with one number at most. -/
theorem text_unique (hrest : Stops Char.isDigit rest) (hrest' : Stops Char.isDigit rest')
    (h : k.text ++ rest = k'.text ++ rest') : k = k' ∧ rest = rest' := by
  rw [text_append, text_append] at h
  obtain ⟨hblanks, h⟩ := front_unique k.blank (k.stops_sign rest) k'.blank (k'.stops_sign rest') h
  have hextract := congrArg extractSign h
  rw [extractSign_text _ k.ne_nil k.digit, extractSign_text _ k'.ne_nil k'.digit] at hextract
  have hafter : k.digits ++ rest = k'.digits ++ rest' := congrArg Prod.snd hextract
  obtain ⟨hdigits, hr⟩ := front_unique k.digit hrest k'.digit hrest' hafter
  rw [hafter, List.append_left_inj] at h
  refine ⟨?_, hr⟩
  cases k
  cases k'
  cases hblanks
  cases hdigits
  cases Sign.text_inj h
  rfl

end Numeral

/-- An element that is accepted. What comes after the last number of a range is not looked at. -/
inductive Piece where
  | index (k : Numeral)
  | range (first last : Numeral) (tail : List Char) (stops : Stops Char.isDigit tail)
    (comma : ',' ∉ tail)

namespace Piece

def text : Piece → List Char
  | index k => k.text
  | range first last tail _ _ => first.text ++ '-' :: (last.text ++ tail)

def element : Piece → Element
  | index k => .index k.value
  | range first last _ _ _ => .range first.value last.value

def Plain : Piece → Prop
  | index k => k.Plain
  | range first last tail _ _ => first.Plain ∧ last.Plain ∧ tail = []

theorem parseExpr_text (p : Piece) : parseExpr p.text = .ok p.element := by
  cases p with
  | index k =>
    have hextract := k.extractIndex_text stops_nil
    rw [List.append_nil] at hextract
    rw [parseExpr, text, hextract]
    rfl
  | range first last tail stops =>
    have hfirst : extractIndex (first.text ++ '-' :: (last.text ++ tail)) = _ :=
      first.extractIndex_text (stops_cons (by decide) _)
    rw [parseExpr, text, hfirst]
    dsimp only
    rw [last.extractIndex_text stops]
    rfl

theorem exists_text (h : parseExpr expr = .ok e) (hcomma : ',' ∉ expr) :
    ∃ p : Piece, p.text = expr ∧ p.element = e := by
  unfold parseExpr at h
  split at h
  · cases h
  next first hextract =>
    obtain ⟨k, htext, hvalue, -⟩ := Numeral.exists_text hextract
    cases h
    exact ⟨.index k, by rw [← htext, List.append_nil]; rfl, by rw [← hvalue]; rfl⟩
  next first next is hextract =>
    obtain ⟨k, htext, hvalue, -⟩ := Numeral.exists_text hextract
    split at h
    · cases h
    next hnext =>
      split at h
      · cases h
      next last tail hlast =>
        obtain ⟨l, hltext, hlvalue, hstops⟩ := Numeral.exists_text hlast
        cases h
        have hexpr : k.text ++ '-' :: (l.text ++ tail) = expr := by
          rw [hltext, ← not_not.mp hnext, htext]
        refine ⟨.range k l tail hstops fun hmem => hcomma ?_, hexpr, ?_⟩
        swap
        · rw [← hvalue, ← hlvalue]
          rfl
        rw [← hexpr]
        simp [hmem]

theorem text_unique {p q : Piece} (h : p.text = q.text) : p = q := by
  have hdash : ∀ is, Stops Char.isDigit ('-' :: is) := stops_cons (by decide)
  cases p with
  | index k =>
    cases q with
    | index k' =>
      have happend : k.text ++ [] = k'.text ++ [] := congrArg (· ++ []) h
      rw [(Numeral.text_unique stops_nil stops_nil happend).1]
    | range first last tail =>
      have hk := Numeral.text_unique stops_nil (hdash _) ((List.append_nil _).trans h)
      cases hk.2
  | range first last tail stops =>
    cases q with
    | index k' =>
      have hk := Numeral.text_unique (hdash _) stops_nil (h.trans (List.append_nil _).symm)
      cases hk.2
    | range first' last' tail' stops' =>
      obtain ⟨rfl, hrest⟩ := Numeral.text_unique (hdash _) (hdash _) h
      obtain ⟨rfl, rfl⟩ := Numeral.text_unique stops stops' (List.cons.inj hrest).2
      rfl

theorem text_ne_nil (p : Piece) : p.text ≠ [] := by
  cases p with
  | index k =>
    intro h
    exact k.ne_nil (List.append_eq_nil_iff.mp (List.append_eq_nil_iff.mp h).2).2
  | range => simp [text]

theorem comma_not_mem (p : Piece) : ',' ∉ p.text := by
  cases p with
  | index k => exact k.comma_not_mem
  | range first last tail _ comma => simp [text, first.comma_not_mem, last.comma_not_mem, comma]

end Piece

/-- A selector that is accepted. It may end with a comma. -/
inductive Listing where
  | last (p : Piece) (comma : Bool)
  | more (p : Piece) (rest : Listing)

namespace Listing

def text : Listing → List Char
  | last p comma => p.text ++ if comma then [','] else []
  | more p rest => p.text ++ ',' :: rest.text

def elements : Listing → List Element
  | last p _ => [p.element]
  | more p rest => p.element :: rest.elements

def Plain : Listing → Prop
  | last p comma => p.Plain ∧ comma = false
  | more p rest => p.Plain ∧ rest.Plain

theorem text_ne_nil (w : Listing) : w.text ≠ [] := by
  cases w with
  | last p => exact fun h => p.text_ne_nil (List.append_eq_nil_iff.mp h).1
  | more p => exact fun h => p.text_ne_nil (List.append_eq_nil_iff.mp h).1

theorem getline_last (p : Piece) (comma : Bool) :
    getline ',' (last p comma).text = some (p.text, []) := by
  cases comma with
  | true => exact getline_delim p.comma_not_mem []
  | false =>
    rw [text, if_neg Bool.false_ne_true, List.append_nil]
    exact getline_end p.comma_not_mem p.text_ne_nil

theorem getline_more (p : Piece) (rest : Listing) :
    getline ',' (more p rest).text = some (p.text, rest.text) :=
  getline_delim p.comma_not_mem rest.text

theorem parseElements_text (w : Listing) : parseElements w.text = .ok w.elements := by
  induction w with
  | last p comma =>
    rw [parseElements_eq (getline_last p comma), p.parseExpr_text]
    rfl
  | more p rest ih =>
    rw [parseElements_eq (getline_more p rest), p.parseExpr_text, ih]
    exact if_neg rest.text_ne_nil

theorem exists_text {is : List Char} (h : parseElements is = .ok es) :
    ∃ w : Listing, w.text = is ∧ w.elements = es := by
  induction hlen : is.length using Nat.strong_induction_on generalizing is es with
  | _ n ih =>
    subst hlen
    obtain ⟨expr, is', hline⟩ := exists_getline h
    rw [parseElements_eq hline] at h
    obtain ⟨element, hexpr, h⟩ := bind_eq_ok h
    obtain ⟨hcomma, his⟩ := getline_cases hline
    obtain ⟨p, rfl, rfl⟩ := Piece.exists_text hexpr hcomma
    split at h
    next hend =>
      cases h
      subst hend
      rcases his with rfl | ⟨rfl, -⟩
      · exact ⟨.last p true, rfl, rfl⟩
      · exact ⟨.last p false, List.append_nil _, rfl⟩
    next hmore =>
      obtain ⟨es', hes, h⟩ := bind_eq_ok h
      cases h
      obtain ⟨w, rfl, rfl⟩ := ih _ (length_getline hline) hes rfl
      obtain rfl := his.resolve_right fun hend => hmore hend.2
      exact ⟨.more p w, rfl, rfl⟩

theorem text_unique {w w' : Listing} (h : w.text = w'.text) : w = w' := by
  have hline := congrArg (getline ',') h
  induction w generalizing w' with
  | last p comma =>
    cases w' with
    | last p' comma' =>
      rw [getline_last, getline_last, Option.some_inj, Prod.mk_inj] at hline
      obtain rfl := Piece.text_unique hline.1
      cases comma <;> cases comma' <;> simp [text] at h ⊢
    | more p' rest' =>
      rw [getline_last, getline_more, Option.some_inj, Prod.mk_inj] at hline
      exact absurd hline.2.symm rest'.text_ne_nil
  | more p rest ih =>
    cases w' with
    | last p' comma' =>
      rw [getline_last, getline_more, Option.some_inj, Prod.mk_inj] at hline
      exact absurd hline.2 rest.text_ne_nil
    | more p' rest' =>
      rw [getline_more, getline_more, Option.some_inj, Prod.mk_inj] at hline
      obtain rfl := Piece.text_unique hline.1
      rw [ih hline.2 (congrArg (getline ',') hline.2)]

end Listing

/-! ## What is accepted and written plainly -/

theorem isNumber_iff : IsNumber text n ↔ ∃ k : Numeral, k.Plain ∧ k.text = text ∧ k.value = n := by
  constructor
  · rintro ⟨hne, hdigits, hvalue, hlt⟩
    refine ⟨⟨[], none, text, fun _ hc => absurd hc List.not_mem_nil, hne, hdigits, hvalue ▸ hlt⟩,
      ⟨rfl, rfl⟩, rfl, hvalue⟩
  · rintro ⟨⟨_, _, digits, _, hne, hdigits, hlt⟩, ⟨rfl, rfl⟩, rfl, rfl⟩
    exact ⟨hne, hdigits, rfl, hlt⟩

theorem writtenAs_iff {e : Element} :
    e.WrittenAs text ↔ ∃ p : Piece, p.Plain ∧ p.text = text ∧ p.element = e := by
  constructor
  · intro h
    cases h with
    | index hn =>
      obtain ⟨k, hplain, rfl, rfl⟩ := isNumber_iff.mp hn
      exact ⟨.index k, hplain, rfl, rfl⟩
    | range hfirst hlast =>
      obtain ⟨k, hplain, rfl, rfl⟩ := isNumber_iff.mp hfirst
      obtain ⟨l, hplain', rfl, rfl⟩ := isNumber_iff.mp hlast
      refine ⟨.range k l [] stops_nil List.not_mem_nil, ⟨hplain, hplain', rfl⟩, ?_, rfl⟩
      rw [Piece.text, List.append_nil]
  · rintro ⟨p, hplain, rfl, rfl⟩
    cases p with
    | index k => exact .index (isNumber_iff.mpr ⟨k, hplain, rfl, rfl⟩)
    | range first last tail =>
      obtain ⟨hfirst, hlast, rfl⟩ := hplain
      rw [Piece.text, List.append_nil]
      exact .range (isNumber_iff.mpr ⟨first, hfirst, rfl, rfl⟩)
        (isNumber_iff.mpr ⟨last, hlast, rfl, rfl⟩)

theorem elementsWrittenAs_iff :
    ElementsWrittenAs es text ↔ ∃ w : Listing, w.Plain ∧ w.text = text ∧ w.elements = es := by
  constructor
  · intro h
    induction h with
    | last h =>
      obtain ⟨p, hplain, rfl, rfl⟩ := writtenAs_iff.mp h
      exact ⟨.last p false, ⟨hplain, rfl⟩, List.append_nil _, rfl⟩
    | more h _ ih =>
      obtain ⟨p, hplain, rfl, rfl⟩ := writtenAs_iff.mp h
      obtain ⟨w, hplain', rfl, rfl⟩ := ih
      exact ⟨.more p w, ⟨hplain, hplain'⟩, rfl, rfl⟩
  · rintro ⟨w, hplain, rfl, rfl⟩
    induction w with
    | last p comma =>
      obtain ⟨hp, rfl⟩ := hplain
      rw [Listing.text, if_neg Bool.false_ne_true, List.append_nil]
      exact .last (writtenAs_iff.mpr ⟨p, hp, rfl, rfl⟩)
    | more p rest ih => exact .more (writtenAs_iff.mpr ⟨p, hplain.1, rfl, rfl⟩) (ih hplain.2)

theorem Listing.text_ne_wildcard (w : Listing) : w.text ≠ ['*'] := by
  intro h
  have hline : getline ',' ['*'] = some (['*'], []) := by decide
  have hparse := w.parseElements_text
  rw [h, parseElements_eq hline] at hparse
  cases hparse

/-- **What the parser accepts**: the wildcard, and the listings, which may have blanks and a sign
before a number, anything after a range and a comma at the end. -/
theorem parse_eq_ok_iff : parse expr = .ok r ↔ expr = ['*'] ∧ r = { wildcard := true } ∨
    ∃ w : Listing, w.text = expr ∧ r = { elements := w.elements } := by
  unfold parse
  split
  next hwild =>
    subst hwild
    constructor
    · intro h
      cases h
      exact .inl ⟨rfl, rfl⟩
    · rintro (⟨-, rfl⟩ | ⟨w, htext, -⟩)
      · rfl
      · exact absurd htext w.text_ne_wildcard
  next hwild =>
    constructor
    · intro h
      obtain ⟨es, hes, h⟩ := bind_eq_ok h
      cases h
      obtain ⟨w, htext, rfl⟩ := Listing.exists_text hes
      exact .inr ⟨w, htext, rfl⟩
    · rintro (⟨hexpr, -⟩ | ⟨w, rfl, rfl⟩)
      · exact absurd hexpr hwild
      · rw [w.parseElements_text]
        rfl

theorem writtenAs_iff_listing : WrittenAs r expr ↔ expr = ['*'] ∧ r = { wildcard := true } ∨
    ∃ w : Listing, w.Plain ∧ w.text = expr ∧ r = { elements := w.elements } := by
  constructor
  · intro h
    cases h with
    | wildcard => exact .inl ⟨rfl, rfl⟩
    | elements h =>
      obtain ⟨w, hplain, htext, rfl⟩ := elementsWrittenAs_iff.mp h
      exact .inr ⟨w, hplain, htext, rfl⟩
  · rintro (⟨rfl, rfl⟩ | ⟨w, hplain, htext, rfl⟩)
    · exact .wildcard
    · exact .elements (elementsWrittenAs_iff.mpr ⟨w, hplain, htext, rfl⟩)

/-- What is written as documented is parsed. -/
theorem parse_of_writtenAs (h : WrittenAs r expr) : parse expr = .ok r := by
  refine parse_eq_ok_iff.mpr ((writtenAs_iff_listing.mp h).imp_right ?_)
  rintro ⟨w, -, htext, hr⟩
  exact ⟨w, htext, hr⟩

/-- A listing with a deviation is not written as documented. -/
theorem Listing.plain_of_writtenAs (w : Listing) (h : WrittenAs r w.text) : w.Plain := by
  rcases writtenAs_iff_listing.mp h with ⟨hwild, -⟩ | ⟨w', hplain, htext, -⟩
  · exact absurd hwild w.text_ne_wildcard
  · exact text_unique htext ▸ hplain

/-- **When the parser keeps to its grammar**: on the selectors without these deviations, and on all
that it rejects. -/
theorem parse_iff_writtenAs_iff (expr : List Char) :
    (∀ r, parse expr = .ok r ↔ WrittenAs r expr) ↔ ∀ w : Listing, w.text = expr → w.Plain := by
  constructor
  · rintro h w rfl
    exact w.plain_of_writtenAs ((h _).mp (parse_eq_ok_iff.mpr (.inr ⟨w, rfl, rfl⟩)))
  · refine fun h r => ⟨fun hparse => ?_, parse_of_writtenAs⟩
    refine writtenAs_iff_listing.mpr ((parse_eq_ok_iff.mp hparse).imp_right ?_)
    rintro ⟨w, htext, hr⟩
    exact ⟨w, h w htext, htext, hr⟩

/-- A negative number is accepted, as a large one. -/
theorem not_parse_iff_writtenAs : ¬∀ expr r, parse expr = .ok r ↔ WrittenAs r expr := by
  intro h
  let one : Numeral := ⟨[], some .minus, ['1'], by simp, by decide, by simp, by decide⟩
  let w : Listing := .last (.index one) false
  have hparse : parse w.text = .ok { elements := [.index 4294967295] } :=
    parse_eq_ok_iff.mpr (.inr ⟨w, rfl, rfl⟩)
  have hplain := w.plain_of_writtenAs ((h _ _).mp hparse)
  cases hplain.1.2

end Ranges
end Roce
