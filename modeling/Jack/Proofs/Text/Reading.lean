import Mathlib.Data.List.TakeDrop
import Mathlib.Data.List.TakeWhile
import Jack.Text.Numeral

/-!
# Reading text back

A number is read back from its digits, the words of a text from the first separator between them,
and its lines from the line feeds that end them.
-/

namespace Jack.Text

/-! ## Numbers -/

theorem digitValue?_of_isDigit {c : Char} (h : c.isDigit = true) :
    digitValue? c = some (c.toNat - '0'.toNat) := by
  have hrange := Char.isDigit_iff_toNat.1 h
  exact if_pos ⟨hrange.1, hrange.2⟩

/-- Digits are read as the number that they write. -/
theorem digitsOnto?_of_isDigit (cs : List Char) : ∀ value, (∀ c ∈ cs, c.isDigit = true) →
    digitsOnto? value cs = some (Nat.ofDigitChars 10 cs value) := by
  induction cs with
  | nil => exact fun value _ => rfl
  | cons c cs ih =>
    intro value h
    rw [digitsOnto?, digitValue?_of_isDigit (h c (List.mem_cons_self ..)), Nat.ofDigitChars_cons]
    exact ih _ fun d hd => h d (List.mem_cons_of_mem _ hd)

theorem isDigit_of_mem_repr {n : Nat} {c : Char} (h : c ∈ n.repr.toList) : c.isDigit = true := by
  rw [Nat.toList_repr] at h
  exact Nat.isDigit_of_mem_toDigits (by decide) (by decide) h

theorem digits?_repr (n : Nat) : digits? n.repr.toList = some n := by
  have hvalue : digitsOnto? 0 n.repr.toList = some n := by
    rw [digitsOnto?_of_isDigit _ 0 fun c hc => isDigit_of_mem_repr hc, Nat.toList_repr,
      Nat.ofDigitChars_ten_toDigits]
  unfold digits?
  -- No number is written without a digit.
  split
  · next hnil =>
    rw [Nat.toList_repr] at hnil
    exact absurd hnil Nat.toDigits_ne_nil
  · exact hvalue

/-- What is read as a number is made of digits. -/
theorem isDigit_of_digitsOnto? {cs : List Char} : ∀ {value n}, digitsOnto? value cs = some n →
    ∀ c ∈ cs, c.isDigit = true := by
  induction cs with
  | nil => exact fun _ => List.forall_mem_nil _
  | cons c cs ih =>
    intro value n h
    rw [digitsOnto?] at h
    split at h
    · next d hd =>
      have hc : c.isDigit = true := by
        unfold digitValue? at hd
        split at hd
        · next hrange => exact Char.isDigit_iff_toNat.2 ⟨hrange.1, hrange.2⟩
        · cases hd
      exact List.forall_mem_cons.2 ⟨hc, ih h⟩
    · cases h

theorem digits?_eq_some_iff {cs : List Char} {n : Nat} :
    digits? cs = some n ↔
      cs ≠ [] ∧ (∀ c ∈ cs, c.isDigit = true) ∧ n = Nat.ofDigitChars 10 cs 0 := by
  cases cs with
  | nil => exact ⟨nofun, fun h => absurd rfl h.1⟩
  | cons c cs =>
    show digitsOnto? 0 (c :: cs) = some n ↔ _
    constructor
    · intro h
      have hdigits := isDigit_of_digitsOnto? h
      rw [digitsOnto?_of_isDigit _ 0 hdigits] at h
      exact ⟨List.cons_ne_nil _ _, hdigits, (Option.some.inj h).symm⟩
    · rintro ⟨-, hdigits, rfl⟩
      exact digitsOnto?_of_isDigit _ 0 hdigits

/-- A text that writes a natural number: an optional plus sign, and then one or more ASCII digits,
of which any may be leading zeros. -/
def IsNumeral (s : String) (n : Nat) : Prop :=
  ∃ sign digits, s.toList = sign ++ digits ∧ (sign = [] ∨ sign = ['+']) ∧ digits ≠ [] ∧
    (∀ c ∈ digits, c.isDigit = true) ∧ n = Nat.ofDigitChars 10 digits 0

/-- The numerals, and nothing else, are read as the numbers that they write. -/
theorem natural?_eq_some_iff {s : String} {n : Nat} : natural? s = some n ↔ IsNumeral s n := by
  unfold natural?
  split
  · next cs hplus =>
    rw [digits?_eq_some_iff]
    constructor
    · exact fun h => ⟨['+'], cs, hplus, .inr rfl, h⟩
    · rintro ⟨_, digits, hs, rfl | rfl, hne, hdigits, hn⟩
      · -- A plus sign is no digit.
        rw [hplus, List.nil_append] at hs
        cases hdigits '+' (hs ▸ List.mem_cons_self ..)
      · rw [hplus] at hs
        rw [(List.cons.inj hs).2]
        exact ⟨hne, hdigits, hn⟩
  · next hplus =>
    rw [digits?_eq_some_iff]
    constructor
    · exact fun h => ⟨[], s.toList, rfl, .inl rfl, h⟩
    · rintro ⟨_, digits, hs, rfl | rfl, hne, hdigits, hn⟩
      · rw [hs]
        exact ⟨hne, hdigits, hn⟩
      · exact (hplus digits hs).elim

theorem natural?_repr (n : Nat) : natural? n.repr = some n := by
  unfold natural?
  split
  · next cs hplus =>
    have hmem : '+' ∈ n.repr.toList := hplus ▸ List.mem_cons_self ..
    cases isDigit_of_mem_repr hmem
  · exact digits?_repr n

/-- Of the integers only those that are not negative are read back. -/
theorem natural?_int_repr {v : Int} {n : Nat} : natural? v.repr = some n ↔ v = n := by
  cases v with
  | ofNat m =>
    rw [show (Int.ofNat m).repr = m.repr from rfl, natural?_repr, Option.some.injEq]
    exact Int.ofNat_inj.symm
  | negSucc m =>
    have hminus : (Int.negSucc m).repr.toList = '-' :: (m + 1).repr.toList := by
      show ("-" ++ (m + 1).repr).toList = _
      rw [String.toList_append]
      rfl
    have hnone : natural? (Int.negSucc m).repr = none := by
      rw [natural?, hminus]
      rfl
    rw [hnone]
    exact ⟨nofun, nofun⟩

/-! ## Words -/

/-- What stands in front of the first separator, and the separator with all after it. -/
theorem span_append {separator : Char} {word : List Char} (h : separator ∉ word)
    (rest : List Char) :
    (word ++ separator :: rest).span (· != separator) = (word, separator :: rest) := by
  have hword : ∀ c ∈ word, (c != separator) = true := fun c hc =>
    bne_iff_ne.2 fun heq => h (heq ▸ hc)
  rw [List.span_eq_takeWhile_dropWhile, List.takeWhile_append_of_pos hword,
    List.dropWhile_append_of_pos hword]
  simp

theorem span_of_notMem {separator : Char} {word : List Char} (h : separator ∉ word) :
    word.span (· != separator) = (word, []) := by
  have hword : ∀ c ∈ word, (c != separator) = true := fun c hc =>
    bne_iff_ne.2 fun heq => h (heq ▸ hc)
  rw [List.span_eq_takeWhile_dropWhile, List.takeWhile_eq_self_iff.2 hword,
    List.dropWhile_eq_nil_iff.2 hword]

/-! ## Lines -/

/-- A text that is written in one line. -/
def OneLine (s : String) : Prop := '\n' ∉ s.toList

instance (s : String) : Decidable (OneLine s) := inferInstanceAs (Decidable (_ ∉ _))

theorem oneLine_append {s t : String} : OneLine (s ++ t) ↔ OneLine s ∧ OneLine t := by
  simp only [OneLine, String.toList_append, List.mem_append, not_or]

theorem oneLine_repr (n : Nat) : OneLine n.repr := fun h => by
  cases isDigit_of_mem_repr h

/-- Lines one after the other, each ended by a line feed. -/
def joinLines (lines : List String) : String := String.join (lines.map (· ++ "\n"))

theorem joinLines_append (lines lines' : List String) :
    joinLines (lines ++ lines') = joinLines lines ++ joinLines lines' := by
  rw [joinLines, List.map_append, String.join_append]
  rfl

theorem toList_joinLines (lines : List String) :
    (joinLines lines).toList = lines.flatMap fun line => line.toList ++ ['\n'] := by
  rw [joinLines, String.toList_join, List.flatMap_map]
  simp only [String.toList_append]
  rfl

/-- Divides characters behind every line feed. After the last one there must be nothing. -/
def divide? : List Char → Option (List (List Char))
  | [] => some []
  | c :: rest =>
    if c = '\n' then (divide? rest).map ([] :: ·)
    else
      match divide? rest with
      | some (line :: lines) => some ((c :: line) :: lines)
      | _ => none

/-- The lines of a text, if each of them is ended by a line feed. -/
def lines? (s : String) : Option (List String) := (divide? s.toList).map (·.map String.ofList)

theorem divide?_append {line : List Char} (h : '\n' ∉ line) (rest : List Char) :
    divide? (line ++ '\n' :: rest) = (divide? rest).map (line :: ·) := by
  induction line with
  | nil => rw [List.nil_append, divide?, if_pos rfl]
  | cons c line ih =>
    rw [List.mem_cons, not_or] at h
    rw [List.cons_append, divide?, if_neg (Ne.symm h.1), ih h.2]
    cases divide? rest <;> rfl

theorem divide?_flatMap {lines : List String} (h : ∀ line ∈ lines, OneLine line) :
    divide? (lines.flatMap fun line => line.toList ++ ['\n']) = some (lines.map String.toList) := by
  induction lines with
  | nil => rfl
  | cons line lines ih =>
    rw [List.flatMap_cons, List.append_assoc, List.singleton_append,
      divide?_append (h line (List.mem_cons_self ..)),
      ih fun line' hmem => h line' (List.mem_cons_of_mem _ hmem)]
    rfl

/-- Lines that are written one after the other are told apart again. -/
theorem lines?_joinLines {lines : List String} (h : ∀ line ∈ lines, OneLine line) :
    lines? (joinLines lines) = some lines := by
  rw [lines?, toList_joinLines, divide?_flatMap h, Option.map_some, List.map_map]
  simp only [Function.comp_def, String.ofList_toList, List.map_id']

end Jack.Text
