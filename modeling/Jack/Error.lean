import Jack.Compiler.Fault
import Jack.Tree.Error

/-!
# Errors

What can go wrong on the way from the text of a tree to code.
-/

namespace Jack

/-- An error of the tree or of its compilation. -/
inductive Error where
  | tree (error : TreeError)
  | compilation (fault : Fault)
deriving DecidableEq, Repr, Inhabited

namespace Error

/-- The text shown to a user. -/
def message : Error → String
  | tree error => error.message
  | compilation fault => fault.message

/-- The node that the error names. -/
def pos? : Error → Option Position
  | tree _ => none
  | compilation fault => fault.pos?

def isTree : Error → Bool
  | tree _ => true
  | compilation _ => false

def isCompilation : Error → Bool
  | tree _ => false
  | compilation _ => true

end Error

end Jack
