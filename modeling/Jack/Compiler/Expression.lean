import Jack.Text.Numeral
import Jack.Compiler.Basic
import Jack.Compiler.Idiom

/-!
# Expressions

A term is known by the entry after its marker, and an identifier by the entry after it. Operators
are applied from left to right, without precedence. An expression leaves one value on the stack.

The recursion is bounded by the number of entries that are left: each term, operator and argument
takes at least one. A bound of zero therefore means that nothing is left to read.
-/

namespace Jack.Compiler

open Vm (Instruction)

/-- The cell of a variable. -/
def resolve (scope : Scope) (name : String) (pos : Position) : Compiler Slot :=
  match scope.lookup? name with
  | some symbol => pure symbol.slot
  | none => throw (.unresolved name pos)

/-- Fails because a call has too many arguments. -/
def tooManyArguments {α : Type} : Compiler α := do
  throw (.limit "arguments in one call" (← position))

/-- The number of arguments with one more. -/
def oneMore (args : Nat) : Compiler Nat :=
  if args = argumentLimit then tooManyArguments else pure (args + 1)

/-- An integer constant, already passed. -/
def integerTerm (text : String) (pos : Position) : Compiler Unit :=
  match (Text.natural? text).filter (· ≤ maxConstant) with
  | some n => emit (.push .constant n)
  | none => throw (.constantRange text pos)

/-- A string constant, already passed. -/
def stringTerm (text : String) (pos : Position) : Compiler Unit :=
  match stringInstructions text with
  | .ok instructions => emitAll instructions
  | .error offending => throw (.constantRange offending pos)

/-- The address of an array element, after the opening bracket: the index, then the base. -/
def elementAddress (base : Slot) (expression : Compiler Unit) : Compiler Unit := do
  expression
  word "]"
  emit base.push
  emit (.arithmetic .add)

/-- Arguments in parentheses. The result is their number. -/
def parenthesized (arguments : Compiler Nat) : Compiler Nat := do
  word "("
  marker .expressionList
  let args ← arguments
  word ")"
  return args

/-- The rest of a call after its first identifier. A plain name is a method of the current object.
A variable in front of the dot is the receiver, and its declared type is the class. Any other name
in front of the dot is a class. -/
def call (scope : Scope) (name : String) (arguments : Compiler Nat) : Compiler Unit := do
  if ← atSymbol "(" then
    emit pushThis
    let args ← oneMore (← parenthesized arguments)
    emit (.call (scope.qualify name) args)
  else
    word "."
    let method ← identifier
    match scope.lookup? name with
    | some receiver =>
      emit receiver.slot.push
      let args ← oneMore (← parenthesized arguments)
      emit (.call (receiver.declaredType ++ "." ++ method) args)
    | none =>
      let args ← parenthesized arguments
      emit (.call (name ++ "." ++ method) args)

/-- Whether the current entry goes on with a call after its first identifier. -/
def atCall : Compiler Bool := do
  if ← atSymbol "(" then return true else atSymbol "."

/-- A term that begins with an identifier, already passed. -/
def nameTerm (scope : Scope) (name : String) (pos : Position) (expression : Compiler Unit)
    (arguments : Compiler Nat) : Compiler Unit := do
  if ← atCall then
    call scope name arguments
  else if ← accept (.token .symbol "[") then
    -- The base has to be known before the index is read.
    let base ← resolve scope name pos
    elementAddress base expression
    emitAll fetchElement
  else
    let slot ← resolve scope name pos
    emit slot.push

/-- A term after its marker, given the compilers of what it may contain. -/
def termBody (scope : Scope) (term expression : Compiler Unit) (arguments : Compiler Nat) :
    Compiler Unit := do
  let pos ← position
  match ← current? with
  | some (.token .symbol text) =>
    if text = "(" then
      advance
      expression
      word ")"
    else
      -- A symbol that is no operator is reported here, before it is passed.
      match UnaryOp.ofSymbol? text with
      | some op =>
        advance
        term
        emit op.instruction
      | none => mismatch "term"
  | some (.token .keyword _) =>
    let constant ← keyword "keyword constant" KeywordConstant.ofKeyword?
    emitAll constant.instructions
  | some (.token .integerConstant text) =>
    -- A constant that does not fit is reported at its own position, which is passed by then.
    advance
    integerTerm text pos
  | some (.token .stringConstant text) =>
    advance
    stringTerm text pos
  | some (.token .identifier name) =>
    advance
    nameTerm scope name pos expression arguments
  | _ => mismatch "term"

/-- An expression, given the compilers of its first term and of what follows it. -/
def expressionOf (term operators : Compiler Unit) : Compiler Unit := do
  marker .expression
  term
  operators

/-- The binary operator that an entry writes. -/
def binaryOp? : Entry → Option BinaryOp
  | .token .symbol text => BinaryOp.ofSymbol? text
  | _ => none

mutual

/-- One term. -/
def term (scope : Scope) : (bound : Nat) → Compiler Unit
  | 0 => marker .term
  | bound + 1 => do
    marker .term
    termBody scope (term scope bound) (expressionOf (term scope bound) (operators scope bound))
      (arguments scope bound 0)

/-- Operators, each with a term after it. -/
def operators (scope : Scope) : (bound : Nat) → Compiler Unit
  | 0 => pure ()
  | bound + 1 => do
    match ← peek? binaryOp? with
    | some op =>
      advance
      term scope bound
      emit op.instruction
      operators scope bound
    | none => pure ()

/-- Arguments after the `args` that were read before, with a comma between any two and possibly
one after the last. The result is their number. -/
def arguments (scope : Scope) : (bound : Nat) → (args : Nat) → Compiler Nat
  | 0, args => pure args
  | bound + 1, args => do
    if ← atProduction .expression then
      expressionOf (term scope bound) (operators scope bound)
      -- The limit counts only once the argument is complete, so a fault inside it comes first.
      let args ← oneMore args
      if ← accept comma then arguments scope bound args else pure args
    else
      pure args

end

/-- One expression. -/
def expression (scope : Scope) (bound : Nat) : Compiler Unit :=
  expressionOf (term scope bound) (operators scope bound)

end Jack.Compiler
