import Mathlib.Data.List.Forall2
import Jack.Compiler.Fault
import Jack.Proofs.Grammar.Basic
import Jack.Proofs.Vm.Structured
import Jack.Text.Numeral

/-!
# The translation of a class

A class is translated construct by construct, by recursion over its syntax, or it has a first
fault. Positions and label ids are handed down: a construct is told the index of its first entry
and the supply that it takes its ids from.
-/

namespace Jack.Vm.LabelSupply

/-- The supply once its next `n` ids are handed out. -/
def skip (supply : LabelSupply) (n : Nat) : LabelSupply :=
  { supply with taken := supply.taken + n }

@[simp] theorem skip_zero (supply : LabelSupply) : supply.skip 0 = supply := rfl

@[simp] theorem skip_skip (supply : LabelSupply) (m n : Nat) :
    (supply.skip m).skip n = supply.skip (m + n) := by
  simp only [skip, Nat.add_assoc]

theorem advance_eq_skip (supply : LabelSupply) : supply.advance = supply.skip 1 := rfl

@[simp] theorem taken_skip (supply : LabelSupply) (n : Nat) :
    (supply.skip n).taken = supply.taken + n := rfl

@[simp] theorem ids_skip (supply : LabelSupply) (n : Nat) : (supply.skip n).ids = supply.ids := rfl

end Jack.Vm.LabelSupply

namespace Jack.Grammar

open Vm

/-! ## Expressions -/

def slotOf (scope : Scope) (name : String) (pos : Nat) : Except Fault Slot :=
  match scope.lookup? name with
  | some symbol => .ok symbol.slot
  | none => .error (.unresolved name (.ofIndex pos))

def tooManyArguments {α : Type} (pos : Nat) : Except Fault α :=
  .error (.limit "arguments in one call" (.ofIndex pos))

def integerOperand (text : String) (pos : Nat) : Except Fault Operand :=
  match (Text.natural? text).filter (· ≤ maxConstant) with
  | some n => .ok (.push .constant n)
  | none => .error (.constantRange text (.ofIndex pos))

/-- Adds one character to a string. -/
def appendChar (pos : Nat) (string : Operand) (c : Char) : Except Fault Operand :=
  if c.toNat > maxConstant then .error (.constantRange (String.singleton c) (.ofIndex pos))
  else .ok (.call Os.appendChar [string, .push .constant c.toNat])

/-- A new string, to which all characters are added. -/
def stringOperand (text : String) (pos : Nat) : Except Fault Operand :=
  if text.length > maxConstant then .error (.constantRange text (.ofIndex pos))
  else text.toList.foldlM (appendChar pos) (.call Os.newString [.push .constant text.length])

def constantOperand : KeywordConstant → Operand
  | .true => .unary .not (.push .constant 0)
  | .false | .null => .push .constant 0
  | .this => .push .pointer 0

def slotOperand (slot : Slot) : Operand := .push slot.segment slot.index

/-- The index comes before the base. -/
def elementAddress (base : Slot) (index : Operand) : Operand :=
  .binary .add index (slotOperand base)

/-- A call with a receiver, which counts as an argument. -/
def boundCall (name : String) (receiver : Operand) (stop : Nat) (arguments : List Operand) :
    Except Fault Operand :=
  if arguments.length = argumentLimit then tooManyArguments stop
  else .ok (.call name (receiver :: arguments))

/-- A plain name is a method of the current object. A variable in front of the dot is the receiver,
and any other name there is a class. The call ends in front of entry `stop`. -/
def callOperand (scope : Scope) (callee : Callee) (stop : Nat)
    (arguments : Except Fault (List Operand)) : Except Fault Operand := do
  let arguments ← arguments
  match callee with
  | .own name => boundCall (scope.qualify name) (.push .pointer 0) stop arguments
  | .qualified receiver method =>
    match scope.lookup? receiver with
    | some symbol =>
      boundCall (symbol.declaredType ++ "." ++ method) (slotOperand symbol.slot) stop arguments
    | none => return .call (receiver ++ "." ++ method) arguments

mutual

def Term.translate (scope : Scope) (pos : Nat) : Term → Except Fault Operand
  | .integer text => integerOperand text (pos + 1)
  | .string text => stringOperand text (pos + 1)
  | .constant value => return constantOperand value
  | .variable name => return slotOperand (← slotOf scope name (pos + 1))
  | .element name index => do
    -- The name is looked up first, but its value comes after the index.
    let base ← slotOf scope name (pos + 1)
    let index ← index.translate scope (pos + 3)
    return .fetch (elementAddress base index)
  | .group inner => inner.translate scope (pos + 2)
  | .unary op operand => return .unary op (← operand.translate scope (pos + 2))
  | .call callee arguments =>
    let start := pos + 1 + calleeSize callee
    callOperand scope callee (start + argumentsSize arguments + 1)
      (translateArguments scope start 0 arguments)

def Expression.translate (scope : Scope) (pos : Nat) : Expression → Except Fault Operand
  | .mk first operations => do
    let first' ← first.translate scope (pos + 1)
    translateOperations scope (pos + 1 + first.size) first' operations

/-- Applies operators to the value of what stands to the left of them. -/
def translateOperations (scope : Scope) (pos : Nat) (left : Operand) :
    List (BinaryOp × Term) → Except Fault Operand
  | [] => return left
  | (op, term) :: rest => do
    let right ← term.translate scope (pos + 1)
    translateOperations scope (pos + 1 + term.size) (.binary op left right) rest

/-- Arguments after `args` others. -/
def translateArguments (scope : Scope) (pos args : Nat) :
    List Expression → Except Fault (List Operand)
  | [] => return []
  | e :: rest => do
    let first ← e.translate scope pos
    -- The argument that is one too many is translated before it is refused.
    if args = argumentLimit then tooManyArguments (pos + e.size)
    else return first :: (← translateArguments scope (pos + e.size + 1) (args + 1) rest)

end

/-! ## Statements -/

def leaveWith (scope : Scope) (value : Option Operand) : Command :=
  if scope.signature.isVoid then .leaveVoid value else .leave value

mutual

def Statement.translate (scope : Scope) (labels : LabelSupply) (pos : Nat) :
    Statement → Except Fault Command
  | .assign name value => do
    let target ← slotOf scope name (pos + 2)
    return .store target (← value.translate scope (pos + 4))
  | .assignElement name index value => do
    let base ← slotOf scope name (pos + 2)
    let index' ← index.translate scope (pos + 4)
    return .storeElement (elementAddress base index')
      (← value.translate scope (pos + 4 + index.size + 2))
  | .ifThen condition onTrue => do
    let condition' ← condition.translate scope (pos + 3)
    let onTrue' ← translateStatements scope labels.advance (pos + 3 + condition.size + 3) onTrue
    return .ifThen labels.peek condition' onTrue'
  | .ifElse condition onTrue onFalse => do
    let condition' ← condition.translate scope (pos + 3)
    let start := pos + 3 + condition.size + 3
    let onTrue' ← translateStatements scope labels.advance start onTrue
    -- The first block has taken its ids by now.
    let onFalse' ← translateStatements scope (labels.advance.skip (branchesIn onTrue))
      (start + statementsSize onTrue + 4) onFalse
    return .ifElse labels.peek condition' onTrue' onFalse'
  | .loop condition body => do
    let condition' ← condition.translate scope (pos + 3)
    let body' ← translateStatements scope labels.advance (pos + 3 + condition.size + 3) body
    return .loop labels.peek condition' body'
  | .doCall callee arguments =>
    let start := pos + 2 + calleeSize callee
    return .drop (← callOperand scope callee (start + argumentsSize arguments + 1)
      (translateArguments scope start 0 arguments))
  | .doExpression value => return .drop (← value.translate scope (pos + 2))
  | .returnNothing => return leaveWith scope none
  | .returnValue value => return leaveWith scope (some (← value.translate scope (pos + 2)))

def translateStatements (scope : Scope) (labels : LabelSupply) (pos : Nat) :
    List Statement → Except Fault (List Command)
  | [] => return []
  | s :: rest => do
    let first ← s.translate scope labels pos
    return first :: (← translateStatements scope (labels.skip s.branches) (pos + s.size) rest)

end

/-! ## Declarations -/

/-- A name that is declared again keeps its first declaration. -/
def declare (kind : Storage) (declaredType name : String) (pos : Nat) (table : SymbolTable) :
    Except Fault SymbolTable :=
  match table.define name declaredType kind with
  | .ok table => .ok table
  | .error .duplicate => .ok table
  | .error .full => .error (.limit (kind.name ++ " variables") (.ofIndex pos))

def declareNames (kind : Storage) (declaredType : String) (pos : Nat) :
    List String → SymbolTable → Except Fault SymbolTable
  | [], table => .ok table
  | name :: rest, table => do
    declareNames kind declaredType (pos + 2) rest (← declare kind declaredType name pos table)

def Variables.size (vs : Variables) : Nat := (written vs.lexemes).length

/-- Variables of one type, which stands at entry `pos`. -/
def Variables.declare (kind : Storage) (pos : Nat) (vs : Variables) (table : SymbolTable) :
    Except Fault SymbolTable :=
  declareNames kind vs.declaredType (pos + 1) vs.names table

def declareClassVariables (pos : Nat) :
    List ClassVariables → SymbolTable → Except Fault SymbolTable
  | [], table => .ok table
  | vs :: rest, table => do
    declareClassVariables (pos + 2 + vs.declared.size) rest
      (← vs.declared.declare vs.kind (pos + 2) table)

def declareLocals (pos : Nat) : List Variables → SymbolTable → Except Fault SymbolTable
  | [], table => .ok table
  | vs :: rest, table => do
    declareLocals (pos + 2 + vs.size) rest (← vs.declare .localVar (pos + 2) table)

def declareParameters (pos : Nat) :
    List (String × String) → SymbolTable → Except Fault SymbolTable
  | [], table => .ok table
  | (declaredType, name) :: rest, table => do
    declareParameters (pos + 3) rest (← declare .argument declaredType name (pos + 1) table)

/-- The receiver of a method is its first argument. -/
def receiver (className : String) (pos : Nat) (kind : SubroutineKind) : Except Fault SymbolTable :=
  if kind = .method then declare .argument className "this" pos .empty else .ok .empty

namespace Subroutine

def parametersSize (s : Subroutine) : Nat :=
  (written (separated parameterLexemes s.parameters)).length

def localsSize (s : Subroutine) : Nat := (written (s.locals.flatMap localLexemes)).length

def size (s : Subroutine) : Nat := (written s.lexemes).length

/-- What the statements of a subroutine see. -/
def scope (className : String) (classTable : SymbolTable) (pos : Nat) (s : Subroutine) :
    Except Fault Scope := do
  let table ← receiver className (pos + 6) s.signature.kind
  let table ← declareParameters (pos + 6) s.parameters table
  let table ← declareLocals (pos + 6 + s.parametersSize + 3) s.locals table
  return { className, classTable, signature := s.signature, subroutineTable := table }

def translate (className : String) (classTable : SymbolTable) (labels : LabelSupply) (pos : Nat)
    (s : Subroutine) : Except Fault Routine := do
  let scope ← s.scope className classTable pos
  let start := pos + 6 + s.parametersSize + 3 + s.localsSize + 1
  let body ← translateStatements scope labels start s.body
  return {
    name := scope.qualify s.signature.name
    locals := scope.subroutineTable.count .localVar
    commands := prologue (classTable.count .field) s.signature.kind ++ body }

end Subroutine

def translateSubroutines (className : String) (classTable : SymbolTable) (labels : LabelSupply)
    (pos : Nat) : List Subroutine → Except Fault (List Routine)
  | [] => return []
  | s :: rest => do
    let first ← s.translate className classTable labels pos
    return first :: (← translateSubroutines className classTable (labels.skip (branchesIn s.body))
      (pos + s.size) rest)

def Class.variablesSize (c : Class) : Nat :=
  (written (c.declarations.flatMap ClassVariables.lexemes)).length

/-- The routines of a class, or its first fault. -/
def Class.translate (labels : LabelSupply) (c : Class) : Except Fault (List Routine) := do
  let table ← declareClassVariables 4 c.declarations .empty
  translateSubroutines c.name table labels (4 + c.variablesSize) c.subroutines

/-- The instructions of routines one after the other. -/
def routinesCode (rs : List Routine) : List Instruction := rs.flatMap Routine.code

/-- The code that adds characters to a string, or the first character that is out of range. -/
theorem appendChars_eq (cs : List Char) (pos : Nat) (string : Operand) :
    cs.foldlM (appendChar pos) string =
      match cs.find? fun c => c.toNat > maxConstant with
      | some c => .error (.constantRange (String.singleton c) (.ofIndex pos))
      | none => .ok (cs.foldl
          (fun o c => .call Os.appendChar [o, .push .constant c.toNat]) string) := by
  induction cs generalizing string with
  | nil => rfl
  | cons c cs ih =>
    rw [List.foldlM_cons, List.find?_cons, appendChar]
    by_cases hc : c.toNat > maxConstant
    · simp only [hc, if_true, decide_true]
      rfl
    · simp only [hc, if_false, decide_false, List.foldl_cons]
      exact ih _

/-! ## Translations that succeed -/

variable {α β : Type} {t : Except Fault α}

theorem bind_eq_ok {g : α → Except Fault β} {b : β} (h : t >>= g = .ok b) :
    ∃ a, t = .ok a ∧ g a = .ok b := by
  cases t with
  | ok a => exact ⟨a, rfl, h⟩
  | error f => cases h

theorem map_eq_ok {g : α → β} {b : β} (h : g <$> t = .ok b) : ∃ a, t = .ok a ∧ b = g a := by
  cases t with
  | ok a =>
    cases h
    exact ⟨a, rfl, rfl⟩
  | error f => cases h

section

variable {scope : Scope} {labels : LabelSupply} {pos : Nat} {cmd : Command}

theorem slotOf_eq_ok {name : String} {slot : Slot} (h : slotOf scope name pos = .ok slot) :
    ∃ symbol, scope.lookup? name = some symbol ∧ slot = symbol.slot := by
  unfold slotOf at h
  split at h
  · next symbol hsymbol =>
    cases h
    exact ⟨symbol, hsymbol, rfl⟩
  · cases h

theorem boundCall_eq_ok {name : String} {receiver : Operand} {stop : Nat} {os : List Operand}
    {o : Operand} (h : boundCall name receiver stop os = .ok o) :
    o = .call name (receiver :: os) := by
  unfold boundCall at h
  split at h
  · cases h
  · cases h
    rfl

/-- Every argument has one operand. -/
theorem length_translateArguments (arguments : List Expression) : ∀ {pos args os},
    translateArguments scope pos args arguments = .ok os → arguments.length = os.length := by
  induction arguments with
  | nil =>
    intro pos args os h
    cases h
    rfl
  | cons e rest ih =>
    intro pos args os h
    obtain ⟨o, ho, h⟩ := bind_eq_ok h
    split at h
    · cases h
    · obtain ⟨os', hos', rfl⟩ := map_eq_ok h
      rw [List.length_cons, List.length_cons, ih hos']

theorem Statement.translate_assign {name : String} {value : Expression}
    (h : (assign name value).translate scope labels pos = .ok cmd) :
    ∃ target v, slotOf scope name (pos + 2) = .ok target ∧ value.translate scope (pos + 4) = .ok v ∧
      cmd = .store target v := by
  obtain ⟨target, htarget, h⟩ := bind_eq_ok h
  obtain ⟨v, hv, rfl⟩ := map_eq_ok h
  exact ⟨target, v, htarget, hv, rfl⟩

theorem Statement.translate_assignElement {name : String} {index value : Expression}
    (h : (assignElement name index value).translate scope labels pos = .ok cmd) :
    ∃ base i v, slotOf scope name (pos + 2) = .ok base ∧
      index.translate scope (pos + 4) = .ok i ∧
      value.translate scope (pos + 4 + index.size + 2) = .ok v ∧
      cmd = .storeElement (elementAddress base i) v := by
  obtain ⟨base, hbase, h⟩ := bind_eq_ok h
  obtain ⟨i, hi, h⟩ := bind_eq_ok h
  obtain ⟨v, hv, rfl⟩ := map_eq_ok h
  exact ⟨base, i, v, hbase, hi, hv, rfl⟩

theorem Statement.translate_ifThen {condition : Expression} {onTrue : List Statement}
    (h : (ifThen condition onTrue).translate scope labels pos = .ok cmd) :
    ∃ o cmds pos', condition.translate scope (pos + 3) = .ok o ∧
      translateStatements scope labels.advance pos' onTrue = .ok cmds ∧
      cmd = .ifThen labels.peek o cmds := by
  obtain ⟨o, ho, h⟩ := bind_eq_ok h
  obtain ⟨cmds, hcmds, rfl⟩ := map_eq_ok h
  exact ⟨o, cmds, _, ho, hcmds, rfl⟩

theorem Statement.translate_ifElse {condition : Expression} {onTrue onFalse : List Statement}
    (h : (ifElse condition onTrue onFalse).translate scope labels pos = .ok cmd) :
    ∃ o cmds cmds' pos' pos'', condition.translate scope (pos + 3) = .ok o ∧
      translateStatements scope labels.advance pos' onTrue = .ok cmds ∧
      translateStatements scope (labels.advance.skip (branchesIn onTrue)) pos'' onFalse =
        .ok cmds' ∧
      cmd = .ifElse labels.peek o cmds cmds' := by
  obtain ⟨o, ho, h⟩ := bind_eq_ok h
  obtain ⟨cmds, hcmds, h⟩ := bind_eq_ok h
  obtain ⟨cmds', hcmds', rfl⟩ := map_eq_ok h
  exact ⟨o, cmds, cmds', _, _, ho, hcmds, hcmds', rfl⟩

theorem Statement.translate_loop {condition : Expression} {body : List Statement}
    (h : (loop condition body).translate scope labels pos = .ok cmd) :
    ∃ o cmds pos', condition.translate scope (pos + 3) = .ok o ∧
      translateStatements scope labels.advance pos' body = .ok cmds ∧
      cmd = .loop labels.peek o cmds := by
  obtain ⟨o, ho, h⟩ := bind_eq_ok h
  obtain ⟨cmds, hcmds, rfl⟩ := map_eq_ok h
  exact ⟨o, cmds, _, ho, hcmds, rfl⟩

theorem Statement.translate_doCall {callee : Callee} {arguments : List Expression}
    (h : (doCall callee arguments).translate scope labels pos = .ok cmd) :
    ∃ o stop, callOperand scope callee stop
        (translateArguments scope (pos + 2 + calleeSize callee) 0 arguments) = .ok o ∧
      cmd = .drop o := by
  obtain ⟨o, ho, rfl⟩ := map_eq_ok h
  exact ⟨o, _, ho, rfl⟩

theorem Statement.translate_doExpression {value : Expression}
    (h : (doExpression value).translate scope labels pos = .ok cmd) :
    ∃ o, value.translate scope (pos + 2) = .ok o ∧ cmd = .drop o :=
  map_eq_ok h

theorem Statement.translate_returnValue {value : Expression}
    (h : (returnValue value).translate scope labels pos = .ok cmd) :
    ∃ o, value.translate scope (pos + 2) = .ok o ∧ cmd = leaveWith scope (some o) :=
  map_eq_ok h

theorem translateStatements_cons {s : Statement} {rest : List Statement} {cmds : List Command}
    (h : translateStatements scope labels pos (s :: rest) = .ok cmds) :
    ∃ cmd cmds', s.translate scope labels pos = .ok cmd ∧
      translateStatements scope (labels.skip s.branches) (pos + s.size) rest = .ok cmds' ∧
      cmds = cmd :: cmds' := by
  obtain ⟨cmd, hcmd, h⟩ := bind_eq_ok h
  obtain ⟨cmds', hcmds', rfl⟩ := map_eq_ok h
  exact ⟨cmd, cmds', hcmd, hcmds', rfl⟩

theorem translateSubroutines_cons {className : String} {classTable : SymbolTable} {s : Subroutine}
    {rest : List Subroutine} {rs : List Routine}
    (h : translateSubroutines className classTable labels pos (s :: rest) = .ok rs) :
    ∃ r rs', s.translate className classTable labels pos = .ok r ∧
      translateSubroutines className classTable (labels.skip (branchesIn s.body)) (pos + s.size)
        rest = .ok rs' ∧
      rs = r :: rs' := by
  obtain ⟨r, hr, h⟩ := bind_eq_ok h
  obtain ⟨rs', hrs', rfl⟩ := map_eq_ok h
  exact ⟨r, rs', hr, hrs', rfl⟩

/-- Every subroutine has one routine. -/
theorem forall₂_translateSubroutines {className : String} {classTable : SymbolTable}
    (ss : List Subroutine) : ∀ {labels pos rs},
    translateSubroutines className classTable labels pos ss = .ok rs →
    List.Forall₂ (fun s r => ∃ labels pos,
      Subroutine.translate className classTable labels pos s = .ok r) ss rs := by
  induction ss with
  | nil =>
    intro labels pos rs h
    cases h
    exact .nil
  | cons s ss ih =>
    intro labels pos rs h
    obtain ⟨r, rs', hr, hrs', rfl⟩ := translateSubroutines_cons h
    exact .cons ⟨labels, pos, hr⟩ (ih hrs')

theorem Subroutine.scope_ok {className : String} {classTable : SymbolTable} {s : Subroutine}
    (h : s.scope className classTable pos = .ok scope) :
    ∃ table table' table'', receiver className (pos + 6) s.signature.kind = .ok table ∧
      declareParameters (pos + 6) s.parameters table = .ok table' ∧
      declareLocals (pos + 6 + s.parametersSize + 3) s.locals table' = .ok table'' ∧
      scope = ⟨className, classTable, s.signature, table''⟩ := by
  obtain ⟨table, htable, h⟩ := bind_eq_ok h
  obtain ⟨table', htable', h⟩ := bind_eq_ok h
  obtain ⟨table'', htable'', rfl⟩ := map_eq_ok h
  exact ⟨table, table', table'', htable, htable', htable'', rfl⟩

theorem Subroutine.translate_scope {className : String} {classTable : SymbolTable}
    {s : Subroutine} {r : Routine}
    (h : s.translate className classTable labels pos = .ok r) :
    ∃ scope cmds pos', s.scope className classTable pos = .ok scope ∧
      translateStatements scope labels pos' s.body = .ok cmds ∧
      r = ⟨scope.qualify s.signature.name, scope.subroutineTable.count .localVar,
        prologue (classTable.count .field) s.signature.kind ++ cmds⟩ := by
  obtain ⟨scope, hscope, h⟩ := bind_eq_ok h
  obtain ⟨cmds, hcmds, rfl⟩ := map_eq_ok h
  exact ⟨scope, cmds, _, hscope, hcmds, rfl⟩

theorem Subroutine.translate_ok {className : String} {classTable : SymbolTable} {s : Subroutine}
    {r : Routine} (h : s.translate className classTable labels pos = .ok r) :
    ∃ scope cmds pos', scope.signature = s.signature ∧
      translateStatements scope labels pos' s.body = .ok cmds ∧
      r = ⟨scope.qualify s.signature.name, scope.subroutineTable.count .localVar,
        prologue (classTable.count .field) s.signature.kind ++ cmds⟩ := by
  obtain ⟨scope, cmds, pos', hscope, hcmds, hr⟩ := Subroutine.translate_scope h
  obtain ⟨_, _, _, -, -, -, rfl⟩ := Subroutine.scope_ok hscope
  exact ⟨_, cmds, pos', rfl, hcmds, hr⟩

end

end Jack.Grammar
