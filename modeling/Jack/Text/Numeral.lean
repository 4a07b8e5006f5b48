/-!
# Decimal numerals

The value of a natural number written in ASCII digits, with an optional plus sign.
-/

namespace Jack.Text

/-- The value of an ASCII digit. -/
def digitValue? (c : Char) : Option Nat :=
  if '0' ≤ c ∧ c ≤ '9' then some (c.toNat - '0'.toNat) else none

/-- Reads digits, most significant first, onto the value of the digits before them. -/
def digitsOnto? (value : Nat) : List Char → Option Nat
  | [] => some value
  | c :: rest =>
    match digitValue? c with
    | some d => digitsOnto? (10 * value + d) rest
    | none => none

/-- Reads one or more digits. -/
def digits? : List Char → Option Nat
  | [] => none
  | cs => digitsOnto? 0 cs

/-- Reads one or more digits after an optional plus sign. Leading zeros are allowed. -/
def natural? (s : String) : Option Nat :=
  match s.toList with
  | '+' :: cs => digits? cs
  | cs => digits? cs

end Jack.Text
