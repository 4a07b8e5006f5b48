import Jack.Compiler.Statement

/-!
# Declarations

Declarations fill symbol tables. Those of the class are read before its subroutines, and those of
a subroutine before its statements, so that all statements of a subroutine see the same scope. A
name that is declared again is reported and keeps its first declaration.

As for statements, the number of entries that are left bounds every repetition.
-/

namespace Jack.Compiler

/-- Defines a name in the table of its scope. -/
def define (className : String) (table : SymbolTable) (name declaredType : String)
    (kind : Storage) (pos : Position) : Compiler SymbolTable :=
  match table.define name declaredType kind with
  | .ok table => pure table
  | .error .full => throw (.limit (kind.name ++ " variables") pos)
  | .error .duplicate => do
    note (.duplicateIgnored className kind name)
    return table

/-- An identifier, defined as a variable of the given type. -/
def declareName (className : String) (kind : Storage) (declaredType : String)
    (table : SymbolTable) : Compiler SymbolTable := do
  let pos ← position
  let name ← identifier
  define className table name declaredType kind pos

/-- Variables of one type, with a comma between any two. -/
def declareNames (className : String) (kind : Storage) (declaredType : String) :
    (bound : Nat) → SymbolTable → Compiler SymbolTable
  | 0, table => declareName className kind declaredType table
  | bound + 1, table => do
    let table ← declareName className kind declaredType table
    if ← accept comma then declareNames className kind declaredType bound table else pure table

/-- `type name, name, ...;` -/
def declareTyped (className : String) (kind : Storage) (bound : Nat)
    (table : SymbolTable) : Compiler SymbolTable := do
  let declaredType ← type
  let table ← declareNames className kind declaredType bound table
  word ";"
  return table

/-- Class variable declarations, as many as there are. -/
def classVarDecs (className : String) :
    (bound : Nat) → SymbolTable → Compiler SymbolTable
  | 0, table => pure table
  | bound + 1, table => do
    if ← atProduction .classVarDec then
      advance
      let kind ← keyword "'static' or 'field'" Storage.ofClassKeyword?
      let table ← declareTyped className kind bound table
      classVarDecs className bound table
    else
      pure table

/-- Declarations of local variables, as many as there are. -/
def varDecs (className : String) : (bound : Nat) → SymbolTable → Compiler SymbolTable
  | 0, table => pure table
  | bound + 1, table => do
    if ← atProduction .varDec then
      advance
      word "var"
      let table ← declareTyped className .localVar bound table
      varDecs className bound table
    else
      pure table

/-- Parameters, with a comma between any two. -/
def parameters (className : String) : (bound : Nat) → SymbolTable → Compiler SymbolTable
  | 0, table => parameter table
  | bound + 1, table => do
    let table ← parameter table
    if ← accept comma then parameters className bound table else pure table
where
  /-- A type and a name. -/
  parameter (table : SymbolTable) : Compiler SymbolTable := do
    let declaredType ← type
    declareName className .argument declaredType table

/-- The parameter list of a subroutine. The receiver of a method is its first argument. -/
def parameterList (className : String) (kind : SubroutineKind) (bound : Nat) :
    Compiler SymbolTable := do
  marker .parameterList
  -- The receiver has no node of its own, so a fault about it names the node after the marker.
  let pos ← position
  let table ←
    if kind = .method then define className .empty "this" className .argument pos
    else pure .empty
  if ← atSymbol ")" then pure table else parameters className bound table

/-- One subroutine. -/
def subroutineDec (className : String) (classTable : SymbolTable) (bound : Nat) :
    Compiler Unit := do
  marker .subroutineDec
  let kind ← keyword "'constructor', 'function' or 'method'" SubroutineKind.ofKeyword?
  let returnType ← type
  let name ← identifier
  word "("
  let table ← parameterList className kind bound
  word ")"
  marker .subroutineBody
  word openBrace
  let table ← varDecs className bound table
  let scope : Scope :=
    { className, classTable, signature := { kind, returnType, name }, subroutineTable := table }
  let locals := table.count .localVar
  note (.subroutineStarted kind className name locals)
  emit (.function (scope.qualify name) locals)
  emitAll (kind.prologue (classTable.count .field))
  statements scope bound
  word closeBrace

/-- Subroutines, as many as there are. -/
def subroutineDecs (className : String) (classTable : SymbolTable) :
    (bound : Nat) → Compiler Unit
  | 0 => pure ()
  | bound + 1 => do
    if ← atProduction .subroutineDec then
      subroutineDec className classTable bound
      subroutineDecs className classTable bound
    else
      pure ()

/-- A whole class, after which the tree ends. The result is its name. -/
def classDec (bound : Nat) : Compiler String := do
  marker .classDec
  word "class"
  let name ← identifier
  note (.classStarted name)
  word openBrace
  let table ← classVarDecs name bound .empty
  subroutineDecs name table bound
  word closeBrace
  match ← current? with
  | some _ => mismatch "end of tree"
  | none => return name

end Jack.Compiler
