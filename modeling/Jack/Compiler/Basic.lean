import Jack.Compiler.Notice
import Jack.Tree.Cursor
import Jack.Vm.Code
import Jack.Vm.Label

/-!
# Reading and emitting

A compiler reads the entries of a tree with one entry of lookahead and emits instructions. It
never goes back. When it fails it keeps its state, since the label ids that were taken stay taken.

Every step is one of the few operations here: to read the current entry if it is suitable, to look
at it, to pass it, to emit, to take a label id, to report, or to fail.
-/

namespace Jack

/-- What a compiler reads from and writes to. -/
structure CompilerState where
  cursor : Cursor
  labels : Vm.LabelSupply
  code : Vm.Code := {}
  notices : Array Notice := #[]
deriving Inhabited

/-- A step of a compilation. -/
abbrev Compiler := EStateM Fault CompilerState

namespace Compiler

/-- The current entry, unless the end of the tree is reached. -/
def current? : Compiler (Option Entry) := do
  return (← get).cursor.current?

/-- The position of the current entry. -/
def position : Compiler Position := do
  return (← get).cursor.position

/-- Passes the current entry. -/
def advance : Compiler Unit :=
  modify fun s => { s with cursor := s.cursor.advance }

/-- Fails because the current entry is not what is expected, or because there is none. -/
def mismatch {α : Type} (expected : String) : Compiler α := do
  match ← current? with
  | some entry => throw (.mismatch expected entry.describe (← position))
  | none => throw (.endOfTree expected)

/-- Looks at the current entry. -/
def peek? {α : Type} (select : Entry → Option α) : Compiler (Option α) := do
  return (← current?).bind select

/-- Passes the current entry if it is suitable and fails otherwise. -/
def read {α : Type} (expected : String) (select : Entry → Option α) : Compiler α := do
  match ← peek? select with
  | some a => advance; return a
  | none => mismatch expected

/-- Appends an instruction to the code. -/
def emit (instruction : Vm.Instruction) : Compiler Unit :=
  modify fun s => { s with code := s.code.emit instruction }

/-- Appends instructions to the code. -/
def emitAll : List Vm.Instruction → Compiler Unit
  | [] => pure ()
  | instruction :: rest => do emit instruction; emitAll rest

/-- Takes a label id. -/
def takeLabel : Compiler Vm.LabelId :=
  modifyGet fun s => (s.labels.peek, { s with labels := s.labels.advance })

/-- Reports something. -/
def note (notice : Notice) : Compiler Unit :=
  modify fun s => { s with notices := s.notices.push notice }

/-! ## Entries of one kind -/

/-- The marker of a production. -/
def marker (p : Production) : Compiler Unit :=
  read p.describe fun entry => if entry = .production p then some () else none

/-- A fixed word or symbol. Any token with its text is accepted. -/
def word (text : String) : Compiler Unit :=
  read ("'" ++ text ++ "'") fun entry => if entry.text = text then some () else none

/-- The text of an identifier. -/
def identifier : Compiler String :=
  read "identifier" fun
    | .token .identifier text => some text
    | _ => none

/-- A type: a keyword or the name of a class. -/
def type : Compiler String :=
  read "type" fun
    | .token .keyword text | .token .identifier text => some text
    | _ => none

/-- A keyword with a meaning. -/
def keyword {α : Type} (expected : String) (meaning? : String → Option α) : Compiler α :=
  read expected fun
    | .token .keyword text => meaning? text
    | _ => none

/-- Whether the current entry is the marker of a production. -/
def atProduction (p : Production) : Compiler Bool := do
  return (← current?) = some (.production p)

/-- Whether the current entry is a symbol. -/
def atSymbol (text : String) : Compiler Bool := do
  return (← current?) = some (.token .symbol text)

/-- Passes the current entry if it is the given one, and tells whether it was. -/
def accept (entry : Entry) : Compiler Bool := do
  if (← current?) = some entry then
    advance
    return true
  else
    return false

/-- A comma symbol. -/
def comma : Entry := .token .symbol ","

end Compiler

end Jack
