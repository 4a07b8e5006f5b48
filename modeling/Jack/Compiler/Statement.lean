import Jack.Lexicon.Punctuation
import Jack.Compiler.Expression

/-!
# Statements

The marker of a statement says which one it is. Between statements the stack is empty. An `if` or
`while` takes its label id as soon as its marker is passed, so ids follow the order of the markers.
-/

namespace Jack.Compiler

open Vm (Instruction)

/-- `(condition)` -/
def condition (expression : Compiler Unit) : Compiler Unit := do
  word "("
  expression
  word ")"

/-- `{ statements }`, given the compiler of the statements after their marker. -/
def block (statementList : Compiler Unit) : Compiler Unit := do
  word openBrace
  marker .statements
  statementList
  word closeBrace

/-- `let name = value;` or `let name[index] = value;` -/
def letStatement (scope : Scope) (expression : Compiler Unit) : Compiler Unit := do
  marker .letStatement
  word "let"
  let pos ← position
  let name ← identifier
  let target ← resolve scope name pos
  if ← accept (.token .symbol "[") then
    elementAddress target expression
    word "="
    expression
    word ";"
    -- The address is below the value on the stack.
    emitAll storeElement
  else
    word "="
    expression
    word ";"
    emit target.pop

/-- `if (condition) { ... }`, possibly with `else { ... }`. -/
def ifStatement (expression statementList : Compiler Unit) : Compiler Unit := do
  marker .ifStatement
  let labels := Vm.IfLabels.ofId (← takeLabel)
  word "if"
  condition expression
  emitAll [.ifGoto labels.onTrue, .goto labels.onFalse, .label labels.onTrue]
  block statementList
  if ← accept (.token .keyword "else") then
    emitAll [.goto labels.done, .label labels.onFalse]
    block statementList
    emit (.label labels.done)
  else
    emit (.label labels.onFalse)

/-- `while (condition) { ... }` -/
def whileStatement (expression statementList : Compiler Unit) : Compiler Unit := do
  marker .whileStatement
  let labels := Vm.WhileLabels.ofId (← takeLabel)
  word "while"
  emit (.label labels.condition)
  condition expression
  emitAll [.arithmetic .not, .ifGoto labels.done]
  block statementList
  emitAll [.goto labels.condition, .label labels.done]

/-- `do call;`, where the call stands alone or as an expression. -/
def doStatement (scope : Scope) (expression : Compiler Unit) (arguments : Compiler Nat) :
    Compiler Unit := do
  marker .doStatement
  word "do"
  if ← atProduction .expression then
    expression
  else
    let name ← identifier
    if ← atCall then call scope name arguments else mismatch "'(' or '.'"
  word ";"
  emit discard

/-- `return;` or `return value;`. The declared type decides what is returned: a void subroutine
returns zero and drops a value that is written nevertheless. -/
def returnStatement (scope : Scope) (expression : Compiler Unit) : Compiler Unit := do
  marker .returnStatement
  word "return"
  let hasValue ← atProduction .expression
  if hasValue then expression
  if scope.signature.isVoid then
    if hasValue then
      note (.voidReturnsValue scope.className scope.signature.name)
      emit discard
    emit (.push .constant 0)
  else if !hasValue then
    note (.returnsNoValue scope.className scope.signature.name)
  word ";"
  emit .ret

/-- The production that an entry marks. -/
def production? : Entry → Option Production
  | .production p => some p
  | .token _ _ => none

/-- Statements up to the first entry that is none. Each takes at least one of the entries that are
left, whose number bounds the recursion. -/
def statementList (scope : Scope) : (bound : Nat) → Compiler Unit
  | 0 => pure ()
  | bound + 1 => do
    match ← peek? production? with
    | some .letStatement =>
      letStatement scope (expression scope bound)
      statementList scope bound
    | some .ifStatement =>
      ifStatement (expression scope bound) (statementList scope bound)
      statementList scope bound
    | some .whileStatement =>
      whileStatement (expression scope bound) (statementList scope bound)
      statementList scope bound
    | some .doStatement =>
      doStatement scope (expression scope bound) (arguments scope bound 0)
      statementList scope bound
    | some .returnStatement =>
      returnStatement scope (expression scope bound)
      statementList scope bound
    -- Whatever else comes next belongs to the surrounding construct.
    | _ => pure ()

/-- A list of statements with its marker. -/
def statements (scope : Scope) (bound : Nat) : Compiler Unit := do
  marker .statements
  statementList scope bound

end Jack.Compiler
