import Mathlib.Data.List.DropRight
import Roce.Network.Ranges

/-! # The traffic file

The generator writes an estimate of the number of flows, then the flows, and at the end their number
over the estimate. -/

namespace Roce

/-! ## Files -/

/-- A file that is open for writing. -/
structure OutFile where
  content : List Char
  pos : Nat

namespace OutFile

/-- `open(output, "w")` -/
def openW : OutFile := { content := [], pos := 0 }

/-- What is written replaces what is there. -/
def write (ofile : OutFile) (text : List Char) : OutFile where
  content := ofile.content.take ofile.pos ++ text ++ ofile.content.drop (ofile.pos + text.length)
  pos := ofile.pos + text.length

def seek (ofile : OutFile) (pos : Nat) : OutFile := { ofile with pos := pos }

end OutFile

/-! ## The generator -/

/-- `"%d" % n` -/
def formatD (n : Nat) : List Char := Nat.toDigits 10 n

/-- What `%.9f` makes of a time, digits around a point. -/
structure Seconds where
  text : List Char
  fixed : ∀ c ∈ text, c.isDigit ∨ c = '.'

structure GeneratedFlow where
  src : Nat
  dst : Nat
  size : Nat
  t : Seconds

/-- `"%d %d 3 100 %d %.9f\n"%(src, dst, size, t * 1e-9)` -/
def GeneratedFlow.line (flow : GeneratedFlow) : List Char :=
  formatD flow.src ++ [' '] ++ formatD flow.dst ++ " 3 100 ".toList ++ formatD flow.size ++ [' '] ++
    flow.t.text ++ ['\n']

/-- A flow is counted and written. -/
def writeFlow (s : OutFile × Nat) (flow : GeneratedFlow) : OutFile × Nat :=
  (s.1.write flow.line, s.2 + 1)

/-- The output of `main`, for the flows that its loop generates. -/
def trafficFile (nFlowEstimate : Nat) (flows : List GeneratedFlow) : List Char :=
  let ofile := OutFile.openW.write (formatD nFlowEstimate ++ " \n".toList)
  let (ofile, nFlow) := flows.foldl writeFlow (ofile, 0)
  ((ofile.seek 0).write (formatD nFlow)).content

/-! ## Its reader -/

/-- `int(line)`, of a number without a sign. -/
def parseInt (line : List Char) : Option Nat :=
  let digits := (line.dropWhile isSpace).rdropWhile isSpace
  if digits ≠ [] ∧ digits.all Char.isDigit then some (Nat.ofDigitChars 10 digits 0) else none

/-- "The first line is the number of flows. Each line after that is a flow". -/
def Consistent (file : List Char) (flows : List GeneratedFlow) : Prop :=
  ∃ header, Text.readlines '\n' file = header :: flows.map GeneratedFlow.line ∧
    parseInt header = some flows.length

/-! ## Digits -/

/-- How many digits a number has. -/
def numDigits (n : Nat) : Nat := (formatD n).length

theorem isDigit_formatD (h : c ∈ formatD n) : c.isDigit = true :=
  Nat.isDigit_of_mem_toDigits (by decide) (by decide) h

theorem ofDigitChars_lt {digits : List Char} (h : ∀ c ∈ digits, c.isDigit = true) :
    Nat.ofDigitChars 10 digits 0 < 10 ^ digits.length := by
  induction digits with
  | nil => simp
  | cons c digits ih =>
    obtain ⟨hc, hdigits⟩ := List.forall_mem_cons.mp h
    have := ih hdigits
    have hc : c.toNat - '0'.toNat < 10 := by
      have hle := (Char.isDigit_iff_toNat.mp hc).2
      have hnine : '9'.toNat = '0'.toNat + 9 := rfl
      omega
    rw [Nat.ofDigitChars_cons, Nat.ofDigitChars_eq_ofDigitChars_zero, Nat.mul_zero, Nat.zero_add,
      List.length_cons, Nat.pow_succ]
    calc 10 ^ digits.length * (c.toNat - '0'.toNat) + Nat.ofDigitChars 10 digits 0
      _ < 10 ^ digits.length * (c.toNat - '0'.toNat) + 10 ^ digits.length := by omega
      _ = 10 ^ digits.length * (c.toNat - '0'.toNat + 1) := by rw [Nat.mul_succ]
      _ ≤ 10 ^ digits.length * 10 := Nat.mul_le_mul_left _ hc

/-- The digits of a number from the second on. -/
theorem ofDigitChars_drop_formatD (n : Nat) :
    Nat.ofDigitChars 10 ((formatD n).drop 1) 0 = n % 10 ^ (numDigits n - 1) := by
  cases hdigits : formatD n with
  | nil => exact absurd hdigits Nat.toDigits_ne_nil
  | cons c digits =>
    have hvalue : Nat.ofDigitChars 10 (c :: digits) 0 = n :=
      hdigits ▸ Nat.ofDigitChars_ten_toDigits
    have hlt : Nat.ofDigitChars 10 digits 0 < 10 ^ digits.length :=
      ofDigitChars_lt fun d hd => isDigit_formatD (hdigits ▸ List.mem_cons_of_mem c hd)
    have hlen : numDigits n - 1 = digits.length := by rw [numDigits, hdigits]; rfl
    rw [Nat.ofDigitChars_cons, Nat.ofDigitChars_eq_ofDigitChars_zero] at hvalue
    rw [hlen, ← hvalue, Nat.mul_add_mod, Nat.mod_eq_of_lt hlt]
    rfl

/-- White space after the digits is stripped. -/
theorem parseInt_digits (h : ∀ c ∈ digits, c.isDigit = true) (hne : digits ≠ [])
    (hspaces : ∀ c ∈ spaces, isSpace c = true) :
    parseInt (digits ++ spaces) = some (Nat.ofDigitChars 10 digits 0) := by
  have hleft : (digits ++ spaces).dropWhile isSpace = digits ++ spaces :=
    (Ranges.stops_digits hne h spaces).dropWhile_eq
  have hstops : Text.Stops isSpace digits.reverse := by
    have := Ranges.stops_digits (mt List.reverse_eq_nil_iff.mp hne)
      (fun c hc => h c (List.mem_reverse.mp hc)) []
    rwa [List.append_nil] at this
  have hright : (digits ++ spaces).rdropWhile isSpace = digits := by
    rw [List.rdropWhile, List.reverse_append,
      Text.dropWhile_front (fun c hc => hspaces c (List.mem_reverse.mp hc)) hstops,
      List.reverse_reverse]
  have hdigits : digits.all Char.isDigit = true := List.all_eq_true.mpr h
  simp only [parseInt, hleft, hright, if_pos (And.intro hne hdigits)]

/-! ## What is written -/

/-- At the end of the file a text is appended. -/
theorem OutFile.write_end {ofile : OutFile} (h : ofile.pos = ofile.content.length)
    (text : List Char) :
    ofile.write text = ⟨ofile.content ++ text, (ofile.content ++ text).length⟩ := by
  rw [write, h, List.take_length, List.drop_of_length_le (Nat.le_add_right _ _), List.append_nil,
    List.length_append]

theorem foldl_writeFlow (flows : List GeneratedFlow) (content : List Char) (n : Nat) :
    flows.foldl writeFlow (⟨content, content.length⟩, n) =
      (⟨content ++ flows.flatMap GeneratedFlow.line,
        (content ++ flows.flatMap GeneratedFlow.line).length⟩, n + flows.length) := by
  induction flows generalizing content n with
  | nil => simp
  | cons flow flows ih =>
    rw [List.foldl_cons, writeFlow, OutFile.write_end rfl, ih, List.flatMap_cons, List.append_assoc,
      List.length_cons, Nat.add_right_comm, Nat.add_assoc]

/-- The file: the number of flows, over the front of the estimate and the flows. -/
theorem trafficFile_eq (nFlowEstimate : Nat) (flows : List GeneratedFlow) :
    trafficFile nFlowEstimate flows = formatD flows.length ++
      (formatD nFlowEstimate ++ ' ' :: '\n' :: flows.flatMap GeneratedFlow.line).drop
        (numDigits flows.length) := by
  have hopen : OutFile.openW.write (formatD nFlowEstimate ++ " \n".toList) =
      ⟨formatD nFlowEstimate ++ [' ', '\n'], (formatD nFlowEstimate ++ [' ', '\n']).length⟩ :=
    OutFile.write_end rfl _
  rw [trafficFile, hopen, foldl_writeFlow]
  simp [OutFile.seek, OutFile.write, numDigits]

/-! ## When the header is the number of flows -/

theorem newline_not_mem_digits {digits : List Char} (h : ∀ c ∈ digits, c.isDigit = true) :
    '\n' ∉ digits := fun hmem => absurd (h _ hmem) (by decide)

theorem newline_not_mem_formatD (n : Nat) : '\n' ∉ formatD n :=
  newline_not_mem_digits fun _ => isDigit_formatD

/-- A flow is one line. -/
theorem GeneratedFlow.exists_line (flow : GeneratedFlow) :
    ∃ line, '\n' ∉ line ∧ flow.line = line ++ ['\n'] := by
  have htime : '\n' ∉ flow.t.text := fun hmem => absurd (flow.t.fixed _ hmem) (by decide)
  refine ⟨_, ?_, rfl⟩
  simp [newline_not_mem_formatD, htime]

theorem readlines_flows (flows : List GeneratedFlow) :
    Text.readlines '\n' (flows.flatMap GeneratedFlow.line) = flows.map GeneratedFlow.line :=
  Text.readlines_flatMap fun flow _ => flow.exists_line

/-- A header with its newline before the flows. -/
theorem consistent_iff_parseInt (h : '\n' ∉ header) :
    Consistent (header ++ '\n' :: flows.flatMap GeneratedFlow.line) flows ↔
      parseInt (header ++ ['\n']) = some flows.length := by
  rw [Consistent, Text.readlines_delim h, readlines_flows]
  constructor
  · rintro ⟨_, hlines, hparse⟩
    cases hlines
    exact hparse
  · exact fun hparse => ⟨_, rfl, hparse⟩

/-- A number that is not longer than the estimate leaves the last digits of it. -/
theorem consistent_iff_of_le (h : numDigits flows.length ≤ numDigits est) :
    Consistent (trafficFile est flows) flows ↔
      Nat.ofDigitChars 10
        (formatD flows.length ++ (formatD est).drop (numDigits flows.length)) 0 = flows.length := by
  have hdigits : ∀ c ∈ formatD flows.length ++ (formatD est).drop (numDigits flows.length),
      c.isDigit = true := by
    intro c hc
    rcases List.mem_append.mp hc with hc | hc
    · exact isDigit_formatD hc
    · exact isDigit_formatD (List.mem_of_mem_drop hc)
  have hne : formatD flows.length ++ (formatD est).drop (numDigits flows.length) ≠ [] :=
    List.append_ne_nil_of_left_ne_nil Nat.toDigits_ne_nil _
  have hfile : trafficFile est flows =
      (formatD flows.length ++ (formatD est).drop (numDigits flows.length) ++ [' ']) ++
        '\n' :: flows.flatMap GeneratedFlow.line := by
    rw [trafficFile_eq, List.drop_append_of_le_length h]
    simp
  have hline : '\n' ∉
      formatD flows.length ++ (formatD est).drop (numDigits flows.length) ++ [' '] := by
    rw [List.mem_append, not_or]
    exact ⟨newline_not_mem_digits hdigits, by decide⟩
  rw [hfile, consistent_iff_parseInt hline, List.append_assoc,
    parseInt_digits hdigits hne (by simp [isSpace]), Option.some_inj]

/-- One digit more takes the place of the space. -/
theorem consistent_of_eq (h : numDigits flows.length = numDigits est + 1) :
    Consistent (trafficFile est flows) flows := by
  have hfile : trafficFile est flows =
      formatD flows.length ++ '\n' :: flows.flatMap GeneratedFlow.line := by
    rw [trafficFile_eq, h, numDigits, List.drop_append]
    simp
  rw [hfile, consistent_iff_parseInt (newline_not_mem_formatD _),
    parseInt_digits (fun c => isDigit_formatD) Nat.toDigits_ne_nil (by simp [isSpace])]
  exact congrArg _ Nat.ofDigitChars_ten_toDigits

/-- Two digits more run into the flows. -/
theorem not_consistent_of_lt (h : numDigits est + 1 < numDigits flows.length) :
    ¬Consistent (trafficFile est flows) flows := by
  rintro ⟨header, hlines, -⟩
  have hflows : flows ≠ [] := by
    rintro rfl
    exact absurd h (by simp [numDigits, formatD])
  obtain ⟨front, -, rfl⟩ | hnil := Text.readlines_cases hlines
  swap
  · exact hflows (List.map_eq_nil_iff.mp hnil)
  have hfile := Text.flatten_readlines '\n' (trafficFile est flows)
  have hdrop : (formatD est ++ ' ' :: '\n' :: flows.flatMap GeneratedFlow.line).drop
      (numDigits flows.length) =
      (flows.flatMap GeneratedFlow.line).drop (numDigits flows.length - (numDigits est + 2)) := by
    have hhead : formatD est ++ ' ' :: '\n' :: flows.flatMap GeneratedFlow.line =
        (formatD est ++ [' ', '\n']) ++ flows.flatMap GeneratedFlow.line := by simp
    have hlen : (formatD est ++ [' ', '\n']).length = numDigits est + 2 := List.length_append
    rw [hhead, List.drop_append, List.drop_of_length_le (by omega), hlen, List.nil_append]
  rw [hlines, trafficFile_eq, hdrop, List.flatten_cons, ← List.flatMap_def, List.append_assoc,
    List.singleton_append] at hfile
  -- What is left after the digits is too short for a newline and all the flows.
  have hle := (List.drop_sublist (numDigits flows.length - (numDigits est + 2))
    (flows.flatMap GeneratedFlow.line)).length_le
  obtain ⟨rest, hdigits, hrest⟩ | ⟨rest, -, hrest⟩ := List.append_eq_append_iff.mp hfile
  · cases rest with
    | nil =>
      have := congrArg List.length hrest
      rw [List.length_cons, List.nil_append] at this
      omega
    | cons c rest =>
      obtain ⟨rfl, -⟩ := List.cons.inj hrest
      exact newline_not_mem_formatD _ (hdigits ▸ List.mem_append_right _ List.mem_cons_self)
  · have := congrArg List.length hrest
    rw [List.length_append, List.length_cons] at this
    omega

theorem numDigits_pos (n : Nat) : 0 < numDigits n := Nat.length_toDigits_pos

theorem numDigits_zero : numDigits 0 = 1 := rfl

/-- The last digits of a longer estimate only do no harm as zeros behind the number zero. -/
theorem consistent_iff_of_lt (h : numDigits flows.length < numDigits est) :
    Consistent (trafficFile est flows) flows ↔
      flows = [] ∧ est % 10 ^ (numDigits est - 1) = 0 := by
  have hvalue : Nat.ofDigitChars 10 (formatD flows.length) 0 = flows.length :=
    Nat.ofDigitChars_ten_toDigits
  rw [consistent_iff_of_le h.le, Nat.ofDigitChars_append, hvalue,
    Nat.ofDigitChars_eq_ofDigitChars_zero]
  constructor
  · intro heq
    have hnil : flows = [] := by
      by_contra hne
      have hcount := List.length_pos_iff.mpr hne
      have hleft : 0 < ((formatD est).drop (numDigits flows.length)).length :=
        List.length_drop ▸ Nat.sub_pos_of_lt h
      have hten := Nat.mul_le_mul_right flows.length (Nat.le_self_pow hleft.ne' 10)
      omega
    subst hnil
    rw [List.length_nil, numDigits_zero, ofDigitChars_drop_formatD, Nat.mul_zero,
      Nat.zero_add] at heq
    exact ⟨rfl, heq⟩
  · rintro ⟨rfl, hzero⟩
    rw [List.length_nil, numDigits_zero, ofDigitChars_drop_formatD, hzero, Nat.mul_zero]

/-- **When the file is consistent**: for a number of flows with as many digits as the estimate or
one more, or for no flow over an estimate of one digit and zeros. -/
theorem consistent_trafficFile_iff (nFlowEstimate : Nat) (flows : List GeneratedFlow) :
    Consistent (trafficFile nFlowEstimate flows) flows ↔
      numDigits flows.length = numDigits nFlowEstimate ∨
        numDigits flows.length = numDigits nFlowEstimate + 1 ∨
        flows = [] ∧ nFlowEstimate % 10 ^ (numDigits nFlowEstimate - 1) = 0 := by
  rcases Nat.lt_trichotomy (numDigits flows.length) (numDigits nFlowEstimate) with hlt | heq | hgt
  · rw [consistent_iff_of_lt hlt, or_iff_right hlt.ne, or_iff_right (by omega)]
  · have hdrop : (formatD nFlowEstimate).drop (numDigits flows.length) = [] :=
      List.drop_of_length_le heq.ge
    rw [consistent_iff_of_le heq.le, hdrop, List.append_nil]
    exact iff_of_true Nat.ofDigitChars_ten_toDigits (.inl heq)
  · rcases Nat.lt_or_eq_of_le hgt with hgt | heq
    · refine iff_of_false (not_consistent_of_lt hgt) ?_
      rintro (heq | heq | ⟨rfl, -⟩)
      · omega
      · omega
      · have hpos := numDigits_pos nFlowEstimate
        rw [List.length_nil, numDigits_zero] at hgt
        omega
    · exact iff_of_true (consistent_of_eq heq.symm) (.inr (.inl heq.symm))

/-- One flow over an estimate of ten: the header is still 10. -/
theorem not_consistent_trafficFile :
    ¬∀ nFlowEstimate flows, Consistent (trafficFile nFlowEstimate flows) flows := by
  intro h
  let t : Seconds := ⟨"2.000000000".toList, by simp⟩
  let flow : GeneratedFlow := { src := 0, dst := 1, size := 1000, t := t }
  exact absurd ((consistent_iff_of_le (by decide)).mp (h 10 [flow])) (by decide)

end Roce
