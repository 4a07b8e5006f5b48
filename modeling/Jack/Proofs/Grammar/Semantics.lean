import Jack.Proofs.Grammar.Translation
import Jack.Proofs.Vm.Evaluation

/-!
# What expressions and statements mean

The value of an expression and the course of a list of statements, without any code. Names are
looked up in a scope, and what called functions do is given. Expressions are evaluated in any state
with a memory in it, and statements are executed in a memory.
-/

namespace Jack.Vm.Memory

/-- The value of a variable. Fields belong to the current object. -/
def valueOf (m : Memory) (symbol : Symbol) : Word :=
  match symbol.kind with
  | .static => m.statics symbol.index
  | .field => m.heap (m.this + .ofNat 16 symbol.index)
  | .argument => m.arguments symbol.index
  | .localVar => m.locals symbol.index

/-- Changes the value of a variable. -/
def assign (m : Memory) (symbol : Symbol) (w : Word) : Memory :=
  match symbol.kind with
  | .static => { m with statics := Function.update m.statics symbol.index w }
  | .field => m.store (m.this + .ofNat 16 symbol.index) w
  | .argument => { m with arguments := Function.update m.arguments symbol.index w }
  | .localVar => { m with locals := Function.update m.locals symbol.index w }

theorem read?_slot (m : Memory) (symbol : Symbol) :
    m.read? symbol.slot.segment symbol.slot.index = some (m.valueOf symbol) := by
  rcases symbol with ⟨name, declaredType, kind, index⟩
  cases kind <;> rfl

theorem write?_slot (m : Memory) (symbol : Symbol) (w : Word) :
    m.write? symbol.slot.segment symbol.slot.index w = some (m.assign symbol w) := by
  rcases symbol with ⟨name, declaredType, kind, index⟩
  cases kind <;> rfl

end Jack.Vm.Memory

namespace Jack.Grammar

open Vm (Word Memory Calls World)

/-! ## Expressions -/

section

variable {σ : Type} (world : World σ) (scope : Scope)

def constantValue (m : Memory) : KeywordConstant → Word
  | .true => .ofBool true
  | .false | .null => 0
  | .this => m.this

/-- A new string, to which all characters are added by calls. -/
def stringValue (text : String) (s : σ) : Word × σ :=
  text.toList.foldl
    (fun r c => world.perform Os.appendChar [r.1, .ofNat 16 c.toNat] r.2)
    (world.perform Os.newString [.ofNat 16 text.length] s)

mutual

/-- The value of a term and the state after it, unless a name is unknown or a numeral is none. -/
def Term.eval : Term → σ → Option (Word × σ)
  | .integer text, s => (Text.natural? text).map fun n => (.ofNat 16 n, s)
  | .string text, s => some (stringValue world text s)
  | .constant value, s => some (constantValue (world.memory s) value, s)
  | .variable name, s =>
    (scope.lookup? name).map fun symbol => ((world.memory s).valueOf symbol, s)
  | .element name index, s => do
    let symbol ← scope.lookup? name
    let (i, s) ← index.eval s
    -- The array is looked at only now, since computing the index may have changed it.
    let m := world.memory s
    return (m.heap (i + m.valueOf symbol), s)
  | .group inner, s => inner.eval s
  | .unary op operand, s => do
    let (x, s) ← operand.eval s
    return (op.apply x, s)
  | .call (.own name) arguments, s => do
    let (xs, s') ← evalArguments arguments s
    return world.perform (scope.qualify name) ((world.memory s).this :: xs) s'
  | .call (.qualified receiver method) arguments, s => do
    let (xs, s') ← evalArguments arguments s
    match scope.lookup? receiver with
    | some symbol =>
      -- The receiver is looked at before the arguments are computed.
      return world.perform (symbol.declaredType ++ "." ++ method)
        ((world.memory s).valueOf symbol :: xs) s'
    | none => return world.perform (receiver ++ "." ++ method) xs s'

def Expression.eval : Expression → σ → Option (Word × σ)
  | .mk first operations, s => do
    let (x, s) ← first.eval s
    evalOperations x operations s

/-- Operators are applied from left to right, without precedence. -/
def evalOperations (x : Word) :
    List (BinaryOp × Term) → σ → Option (Word × σ)
  | [], s => some (x, s)
  | (op, term) :: rest, s => do
    let (y, s) ← term.eval s
    let (z, s) := op.apply world x y s
    evalOperations z rest s

/-- The values of arguments, computed from first to last. -/
def evalArguments : List Expression → σ → Option (List Word × σ)
  | [], s => some ([], s)
  | e :: rest, s => do
    let (x, s) ← e.eval s
    let (xs, s) ← evalArguments rest s
    return (x :: xs, s)

end

end

/-! ## Statements -/

/-- How statements end. -/
inductive Ending where
  | next (memory : Memory)
  /-- The return statement is known by the number of those before it in the source. There is no
  value if it is a bare one in a subroutine that owes a value. -/
  | returned (site : Nat) (value : Option Word) (memory : Memory)

/-- The same end, told with so many return statements in front. -/
def Ending.after (returns : Nat) : Ending → Ending
  | next m => next m
  | returned site value m => returned (returns + site) value m

mutual

/-- The number of return statements. -/
def Statement.returns : Statement → Nat
  | .ifThen _ onTrue => returnsIn onTrue
  | .ifElse _ onTrue onFalse => returnsIn onTrue + returnsIn onFalse
  | .loop _ body => returnsIn body
  | .returnNothing | .returnValue _ => 1
  | .assign .. | .assignElement .. | .doCall .. | .doExpression _ => 0

def returnsIn : List Statement → Nat
  | [] => 0
  | s :: rest => s.returns + returnsIn rest

end

variable (calls : Calls) (scope : Scope)

mutual

/-- A statement is executed to its end. An `if` takes every value but zero for true. A `while` goes
on only as long as all bits of the value are set. -/
inductive Statement.Executes : Statement → Memory → Ending → Prop
  | assign {name value symbol m w m'} (hname : scope.lookup? name = some symbol)
    (hvalue : value.eval calls.world scope m = some (w, m')) :
    Statement.Executes (.assign name value) m (.next (m'.assign symbol w))
  /-- The index comes first, then the array, then the value. -/
  | assignElement {name index value symbol m i m₁ w m₂} (hname : scope.lookup? name = some symbol)
    (hindex : index.eval calls.world scope m = some (i, m₁))
    (hvalue : value.eval calls.world scope m₁ = some (w, m₂)) :
    Statement.Executes (.assignElement name index value) m
      (.next (m₂.store (i + m₁.valueOf symbol) w))
  | ifThen_true {condition onTrue m w m₁ ending}
    (hcondition : condition.eval calls.world scope m = some (w, m₁)) (hw : w ≠ 0)
    (honTrue : ExecutesAll onTrue m₁ ending) :
    Statement.Executes (.ifThen condition onTrue) m ending
  | ifThen_false {condition onTrue m m₁}
    (hcondition : condition.eval calls.world scope m = some (0, m₁)) :
    Statement.Executes (.ifThen condition onTrue) m (.next m₁)
  | ifElse_true {condition onTrue onFalse m w m₁ ending}
    (hcondition : condition.eval calls.world scope m = some (w, m₁)) (hw : w ≠ 0)
    (honTrue : ExecutesAll onTrue m₁ ending) :
    Statement.Executes (.ifElse condition onTrue onFalse) m ending
  | ifElse_false {condition onTrue onFalse m m₁ ending}
    (hcondition : condition.eval calls.world scope m = some (0, m₁))
    (honFalse : ExecutesAll onFalse m₁ ending) :
    Statement.Executes (.ifElse condition onTrue onFalse) m (ending.after (returnsIn onTrue))
  | loop_done {condition body m w m₁}
    (hcondition : condition.eval calls.world scope m = some (w, m₁))
    (hw : w ≠ .ofBool true) : Statement.Executes (.loop condition body) m (.next m₁)
  | loop_again {condition body m m₁ m₂ ending}
    (hcondition : condition.eval calls.world scope m = some (.ofBool true, m₁))
    (hbody : ExecutesAll body m₁ (.next m₂))
    (hloop : Statement.Executes (.loop condition body) m₂ ending) :
    Statement.Executes (.loop condition body) m ending
  | loop_return {condition body m m₁ site value m₂}
    (hcondition : condition.eval calls.world scope m = some (.ofBool true, m₁))
    (hbody : ExecutesAll body m₁ (.returned site value m₂)) :
    Statement.Executes (.loop condition body) m (.returned site value m₂)
  | doCall {callee arguments m w m'}
    (hcall : (Term.call callee arguments).eval calls.world scope m = some (w, m')) :
    Statement.Executes (.doCall callee arguments) m (.next m')
  | doExpression {value m w m'} (hvalue : value.eval calls.world scope m = some (w, m')) :
    Statement.Executes (.doExpression value) m (.next m')
  | returnNothing {m} :
    Statement.Executes .returnNothing m
      (.returned 0 (if scope.signature.isVoid then some 0 else none) m)
  /-- A void subroutine returns zero whatever is written. -/
  | returnValue {value m w m'} (hvalue : value.eval calls.world scope m = some (w, m')) :
    Statement.Executes (.returnValue value) m
      (.returned 0 (some (if scope.signature.isVoid then 0 else w)) m')

/-- Statements are executed one after the other, up to the first that returns. -/
inductive ExecutesAll : List Statement → Memory → Ending → Prop
  | nil {m} : ExecutesAll [] m (.next m)
  | cons {s rest m m' ending} (hs : Statement.Executes s m (.next m'))
    (hrest : ExecutesAll rest m' ending) : ExecutesAll (s :: rest) m (ending.after s.returns)
  | stop {s rest m site value m'} (hs : Statement.Executes s m (.returned site value m')) :
    ExecutesAll (s :: rest) m (.returned site value m')

end

end Jack.Grammar
