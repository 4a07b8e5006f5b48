import Jack.Tree.Basic
import Jack.Tree.Position

/-!
# Faults

Why a tree cannot be compiled. All faults but the end of the tree name the node at which they were
noticed.
-/

namespace Jack

/-- Why a tree cannot be compiled. -/
inductive Fault where
  /-- A node is not what its place asks for. -/
  | mismatch (expected found : String) (pos : Position)
  /-- There is no node where one is needed. -/
  | endOfTree (expected : String)
  /-- A variable is declared neither in the subroutine nor in the class. -/
  | unresolved (name : String) (pos : Position)
  /-- A constant is too large for the VM, or no number at all. -/
  | constantRange (value : String) (pos : Position)
  /-- There are more variables of a kind, or more arguments, than can be numbered. -/
  | limit (what : String) (pos : Position)
deriving DecidableEq, Repr, Inhabited

namespace Fault

/-- The text shown to a user. -/
def message : Fault → String
  | mismatch expected found pos =>
    "at " ++ pos.text ++ ": expected " ++ expected ++ ", found " ++ found
  | endOfTree expected => "unexpected end of tree, expected " ++ expected
  | unresolved name pos => "at " ++ pos.text ++ ": unresolved symbol '" ++ name ++ "'"
  | constantRange value pos => "at " ++ pos.text ++ ": constant '" ++ value ++ "' is out of range"
  | limit what pos => "at " ++ pos.text ++ ": too many " ++ what

/-- The node at which the fault was noticed. -/
def pos? : Fault → Option Position
  | mismatch _ _ pos | unresolved _ pos | constantRange _ pos | limit _ pos => some pos
  | endOfTree _ => none

end Fault

/-- A production as messages show it. -/
def Production.describe (p : Production) : String := "<" ++ p.name ++ ">"

/-- A node as messages show it: a production by its name and a token by its text. -/
def Entry.describe : Entry → String
  | production k => k.describe
  | token _ s => "'" ++ s ++ "'"

end Jack
