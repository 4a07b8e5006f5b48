/-!
# Padding

The analyzer writes one space on each side of a token's text. Only a matched pair of spaces is
padding: a text with a space on one side keeps it.
-/

namespace Jack

/-- Writes one space on each side. -/
def pad (s : String) : String := " " ++ s ++ " "

/-- Removes one space from each side if there is one on both sides. -/
def unpad (s : String) : String :=
  match s.toList with
  | ' ' :: inner => if inner.getLast? = some ' ' then String.ofList inner.dropLast else s
  | _ => s

/-- Stripping undoes padding, also for texts that have spaces of their own. -/
@[simp] theorem unpad_pad (s : String) : unpad (pad s) = s := by
  have h : (pad s).toList = ' ' :: (s.toList ++ [' ']) := by
    simp [pad]
  simp [unpad, h]

/-- A lone space is no pair. -/
example : unpad " " = " " := by decide

end Jack
