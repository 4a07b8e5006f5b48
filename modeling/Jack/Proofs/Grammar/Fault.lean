import Jack.Proofs.Grammar.Translation

/-!
# The faults of a translation

A translation may meet a name that is unknown, a constant that is out of range or a limit. Whatever
the class is, it never blames the shape of a tree.
-/

namespace Jack

/-- Whether a fault blames the shape of the tree. -/
def Fault.isStructural : Fault → Bool
  | mismatch .. | endOfTree _ => true
  | unresolved .. | constantRange .. | limit .. => false

end Jack

namespace Jack.Grammar

open Vm

variable {α β : Type} {t : Except Fault α}

/-- A fault does not blame the shape of the tree. -/
structure WellShaped (t : Except Fault α) : Prop where
  not_structural : ∀ f, t = .error f → f.isStructural = false

theorem wellShaped_ok (a : α) : WellShaped (.ok a) := by
  constructor
  intro f h
  cases h

theorem wellShaped_error {f : Fault} (h : f.isStructural = false) :
    WellShaped (.error f : Except Fault α) := by
  constructor
  intro f' h'
  cases h'
  exact h

theorem WellShaped.bind {g : α → Except Fault β} (h : WellShaped t) (hg : ∀ a, WellShaped (g a)) :
    WellShaped (t >>= g) := by
  cases t with
  | ok a => exact hg a
  | error f => exact wellShaped_error (h.not_structural f rfl)

theorem WellShaped.map {g : α → β} (h : WellShaped t) : WellShaped (g <$> t) := by
  rw [← bind_pure_comp]
  exact h.bind fun a => wellShaped_ok (g a)

theorem wellShaped_slotOf (scope : Scope) (name : String) (pos : Nat) :
    WellShaped (slotOf scope name pos) := by
  unfold slotOf
  split
  · exact wellShaped_ok _
  · exact wellShaped_error rfl

theorem wellShaped_integerOperand (text : String) (pos : Nat) :
    WellShaped (integerOperand text pos) := by
  unfold integerOperand
  split
  · exact wellShaped_ok _
  · exact wellShaped_error rfl

theorem wellShaped_stringOperand (text : String) (pos : Nat) :
    WellShaped (stringOperand text pos) := by
  rw [stringOperand]
  split
  · exact wellShaped_error rfl
  · -- The only fault of the characters is that one of them is out of range.
    rw [appendChars_eq]
    split
    · exact wellShaped_error rfl
    · exact wellShaped_ok _

theorem wellShaped_boundCall (name : String) (receiver : Vm.Operand) (stop : Nat)
    (arguments : List Vm.Operand) : WellShaped (boundCall name receiver stop arguments) := by
  rw [boundCall]
  split
  · exact wellShaped_error rfl
  · exact wellShaped_ok _

theorem wellShaped_callOperand (scope : Scope) (callee : Callee) (stop : Nat)
    {arguments : Except Fault (List Vm.Operand)} (h : WellShaped arguments) :
    WellShaped (callOperand scope callee stop arguments) := by
  refine h.bind fun arguments => ?_
  cases callee with
  | own name => exact wellShaped_boundCall ..
  | qualified receiver method =>
    dsimp only
    split
    · exact wellShaped_boundCall ..
    · exact wellShaped_ok _

mutual

theorem Term.wellShaped (scope : Scope) : (t : Term) → ∀ pos, WellShaped (t.translate scope pos)
  | .integer text, pos => wellShaped_integerOperand text (pos + 1)
  | .string text, pos => wellShaped_stringOperand text (pos + 1)
  | .constant value, _ => wellShaped_ok (constantOperand value)
  | .variable name, pos => (wellShaped_slotOf scope name (pos + 1)).map
  | .element name index, pos =>
    (wellShaped_slotOf scope name (pos + 1)).bind fun _ =>
      (index.wellShaped scope (pos + 3)).bind fun _ => wellShaped_ok _
  | .group inner, pos => inner.wellShaped scope (pos + 2)
  | .unary _ operand, pos => (operand.wellShaped scope (pos + 2)).map
  | .call callee arguments, _ =>
    wellShaped_callOperand scope callee _ (wellShaped_arguments scope arguments _ 0)

theorem Expression.wellShaped (scope : Scope) :
    (e : Expression) → ∀ pos, WellShaped (e.translate scope pos)
  | .mk first operations, pos =>
    (first.wellShaped scope (pos + 1)).bind fun left =>
      wellShaped_operations scope operations _ left

theorem wellShaped_operations (scope : Scope) : (operations : List (BinaryOp × Term)) →
    ∀ pos left, WellShaped (translateOperations scope pos left operations)
  | [], _, left => wellShaped_ok left
  | (_, term) :: rest, pos, _ =>
    (term.wellShaped scope (pos + 1)).bind fun _ => wellShaped_operations scope rest _ _

theorem wellShaped_arguments (scope : Scope) : (arguments : List Expression) →
    ∀ pos args, WellShaped (translateArguments scope pos args arguments)
  | [], _, _ => wellShaped_ok []
  | e :: rest, pos, args => by
    refine (e.wellShaped scope pos).bind fun first => ?_
    split
    · exact wellShaped_error rfl
    · exact (wellShaped_arguments scope rest _ _).map

end

mutual

theorem Statement.wellShaped (scope : Scope) :
    (s : Statement) → ∀ labels pos, WellShaped (s.translate scope labels pos)
  | .assign name value, _, pos =>
    (wellShaped_slotOf scope name (pos + 2)).bind fun _ => (value.wellShaped scope _).map
  | .assignElement name index value, _, pos =>
    (wellShaped_slotOf scope name (pos + 2)).bind fun _ =>
      (index.wellShaped scope _).bind fun _ => (value.wellShaped scope _).map
  | .ifThen condition onTrue, _, _ =>
    (condition.wellShaped scope _).bind fun _ => (wellShaped_statements scope onTrue _ _).map
  | .ifElse condition onTrue onFalse, _, _ =>
    (condition.wellShaped scope _).bind fun _ =>
      (wellShaped_statements scope onTrue _ _).bind fun _ =>
        (wellShaped_statements scope onFalse _ _).map
  | .loop condition body, _, _ =>
    (condition.wellShaped scope _).bind fun _ => (wellShaped_statements scope body _ _).map
  | .doCall callee arguments, _, _ =>
    (wellShaped_callOperand scope callee _ (wellShaped_arguments scope arguments _ 0)).map
  | .doExpression value, _, _ => (value.wellShaped scope _).map
  | .returnNothing, _, _ => wellShaped_ok _
  | .returnValue value, _, _ => (value.wellShaped scope _).map

theorem wellShaped_statements (scope : Scope) : (body : List Statement) →
    ∀ labels pos, WellShaped (translateStatements scope labels pos body)
  | [], _, _ => wellShaped_ok []
  | s :: rest, labels, pos =>
    (s.wellShaped scope labels pos).bind fun _ => (wellShaped_statements scope rest _ _).map

end

theorem wellShaped_declare (kind : Storage) (declaredType name : String) (pos : Nat)
    (table : SymbolTable) : WellShaped (declare kind declaredType name pos table) := by
  unfold declare
  split
  · exact wellShaped_ok _
  · exact wellShaped_ok _
  · exact wellShaped_error rfl

theorem wellShaped_declareNames (kind : Storage) (declaredType : String) (names : List String)
    (pos : Nat) (table : SymbolTable) :
    WellShaped (declareNames kind declaredType pos names table) := by
  induction names generalizing pos table with
  | nil => exact wellShaped_ok table
  | cons name rest ih => exact (wellShaped_declare ..).bind fun table => ih _ table

theorem wellShaped_classVariables (vss : List ClassVariables) (pos : Nat) (table : SymbolTable) :
    WellShaped (declareClassVariables pos vss table) := by
  induction vss generalizing pos table with
  | nil => exact wellShaped_ok table
  | cons vs rest ih => exact (wellShaped_declareNames ..).bind fun table => ih _ table

theorem wellShaped_locals (vss : List Variables) (pos : Nat) (table : SymbolTable) :
    WellShaped (declareLocals pos vss table) := by
  induction vss generalizing pos table with
  | nil => exact wellShaped_ok table
  | cons vs rest ih => exact (wellShaped_declareNames ..).bind fun table => ih _ table

theorem wellShaped_parameters (ps : List (String × String)) (pos : Nat) (table : SymbolTable) :
    WellShaped (declareParameters pos ps table) := by
  induction ps generalizing pos table with
  | nil => exact wellShaped_ok table
  | cons p rest ih => exact (wellShaped_declare ..).bind fun table => ih _ table

theorem Subroutine.wellShaped (s : Subroutine) (className : String) (classTable : SymbolTable)
    (labels : Vm.LabelSupply) (pos : Nat) :
    WellShaped (s.translate className classTable labels pos) := by
  have hreceiver : WellShaped (receiver className (pos + 6) s.signature.kind) := by
    rw [receiver]
    split
    · exact wellShaped_declare ..
    · exact wellShaped_ok _
  have hscope : WellShaped (s.scope className classTable pos) :=
    hreceiver.bind fun _ => (wellShaped_parameters ..).bind fun _ => (wellShaped_locals ..).map
  exact hscope.bind fun scope => (wellShaped_statements scope s.body _ _).map

theorem wellShaped_subroutines (className : String) (classTable : SymbolTable)
    (ss : List Subroutine) (labels : Vm.LabelSupply) (pos : Nat) :
    WellShaped (translateSubroutines className classTable labels pos ss) := by
  induction ss generalizing labels pos with
  | nil => exact wellShaped_ok []
  | cons s rest ih => exact (s.wellShaped ..).bind fun _ => (ih _ _).map

theorem Class.wellShaped (c : Class) (labels : Vm.LabelSupply) : WellShaped (c.translate labels) :=
  (wellShaped_classVariables ..).bind fun _ => wellShaped_subroutines ..

end Jack.Grammar
