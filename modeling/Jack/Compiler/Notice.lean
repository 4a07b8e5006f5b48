import Jack.Lexicon.Declaration
import Jack.Compiler.Fault

/-!
# Notices

What is reported while compilation goes on. A notice never changes the outcome.
-/

namespace Jack

/-- How much attention a notice asks for. -/
inductive Severity where
  | debug
  | warning
deriving DecidableEq, Repr, Inhabited

/-- Something worth reporting. -/
inductive Notice where
  | classStarted (name : String)
  | subroutineStarted (kind : SubroutineKind) (className name : String) (locals : Nat)
  | classFinished (name : String) (instructions : Nat)
  /-- A name was declared again; its first declaration stays. -/
  | duplicateIgnored (className : String) (kind : Storage) (name : String)
  | voidReturnsValue (className subroutine : String)
  | returnsNoValue (className subroutine : String)
  /-- A class of a batch was given up. -/
  | classFailed (index : Nat) (fault : Fault)
deriving DecidableEq, Repr, Inhabited

namespace Notice

def severity : Notice → Severity
  | classStarted .. | subroutineStarted .. | classFinished .. => .debug
  | duplicateIgnored .. | voidReturnsValue .. | returnsNoValue .. | classFailed .. => .warning

/-- The text shown to a user. -/
def message : Notice → String
  | classStarted name => "compiling class " ++ name
  | subroutineStarted kind className name locals =>
    "compiling " ++ kind.keyword ++ " " ++ className ++ "." ++ name ++ " (" ++ locals.repr ++
      " locals)"
  | classFinished name instructions =>
    "compiled class " ++ name ++ " (" ++ instructions.repr ++ " instructions)"
  | duplicateIgnored className kind name =>
    className ++ ": ignoring duplicate " ++ kind.name ++ " '" ++ name ++
      "', first definition wins"
  | voidReturnsValue className subroutine =>
    className ++ "." ++ subroutine ++ ": void subroutine returns a value"
  | returnsNoValue className subroutine =>
    className ++ "." ++ subroutine ++ ": non-void subroutine returns no value"
  | classFailed index fault =>
    "class #" ++ index.repr ++ " failed to compile: " ++ fault.message

end Notice

end Jack
