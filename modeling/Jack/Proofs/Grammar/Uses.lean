import Jack.Proofs.Grammar.Translation
import Jack.Proofs.Vm.Access

/-!
# The variables that statements use

A statement uses its variables in the order in which its code accesses them: an array is read after
the index, and a variable is written after the value is computed.
-/

namespace Jack.Grammar

open Vm

section

variable (symbol? : String → Option Symbol)

/-- The name in front of the dot is read if it is a variable. -/
def receiverUses : Callee → List Use
  | .own _ => []
  | .qualified receiver _ => if (symbol? receiver).isSome then [.read receiver] else []

mutual

def Term.uses : Term → List Use
  | .integer _ | .string _ | .constant _ => []
  | .variable name => [.read name]
  | .element name index => index.uses ++ [.read name]
  | .group inner => inner.uses
  | .unary _ operand => operand.uses
  | .call callee arguments => receiverUses symbol? callee ++ argumentsUses arguments

def Expression.uses : Expression → List Use
  | .mk first operations => first.uses ++ operationsUses operations

def operationsUses : List (BinaryOp × Term) → List Use
  | [] => []
  | (_, term) :: rest => term.uses ++ operationsUses rest

def argumentsUses : List Expression → List Use
  | [] => []
  | e :: rest => e.uses ++ argumentsUses rest

end

mutual

def Statement.uses : Statement → List Use
  | .assign name value => value.uses symbol? ++ [.write name]
  | .assignElement name index value =>
    index.uses symbol? ++ [.read name] ++ value.uses symbol?
  | .ifThen condition onTrue => condition.uses symbol? ++ statementsUses onTrue
  | .ifElse condition onTrue onFalse =>
    condition.uses symbol? ++ statementsUses onTrue ++ statementsUses onFalse
  | .loop condition body => condition.uses symbol? ++ statementsUses body
  | .doCall callee arguments => receiverUses symbol? callee ++ argumentsUses symbol? arguments
  | .doExpression value => value.uses symbol?
  | .returnNothing => []
  | .returnValue value => value.uses symbol?

def statementsUses : List Statement → List Use
  | [] => []
  | s :: rest => s.uses ++ statementsUses rest

end

end

/-! ## The translation of expressions -/

variable {scope : Scope} {pos : Nat}

/-- Code of the scope whose constants can all be pushed. -/
abbrev Reaches (scope : Scope) (uses : List Use) (is : List Instruction) : Prop :=
  Follows maxConstant scope.lookup? uses is

theorem reaches_slotOperand {name : String} {slot : Slot} (h : slotOf scope name pos = .ok slot) :
    Reaches scope [.read name] (slotOperand slot).code := by
  obtain ⟨symbol, hsymbol, rfl⟩ := slotOf_eq_ok h
  exact .access (by rw [Use.instruction?, hsymbol]; rfl) .nil

theorem reaches_write {name : String} {slot : Slot} (h : slotOf scope name pos = .ok slot) :
    Reaches scope [.write name] [slot.pop] := by
  obtain ⟨symbol, hsymbol, rfl⟩ := slotOf_eq_ok h
  exact .access (by rw [Use.instruction?, hsymbol]; rfl) .nil

theorem auxiliary_constantOperand (value : KeywordConstant) :
    ∀ i ∈ (constantOperand value).code, i.Auxiliary maxConstant := by
  cases value <;> simp [constantOperand, Operand.code, UnaryOp.instruction, Instruction.Auxiliary,
    scratch]

theorem auxiliary_integerOperand {text : String} {o : Operand}
    (h : integerOperand text pos = .ok o) : ∀ i ∈ o.code, i.Auxiliary maxConstant := by
  unfold integerOperand at h
  split at h
  · next n hn =>
    cases h
    have hle : n ≤ maxConstant := of_decide_eq_true (Option.filter_eq_some_iff.1 hn).2
    simpa [Operand.code, Instruction.Auxiliary] using hle
  · cases h

/-- Every character is checked before its code is pushed. -/
theorem auxiliary_appendChars (cs : List Char) : ∀ {string o : Operand},
    (∀ i ∈ string.code, i.Auxiliary maxConstant) → cs.foldlM (appendChar pos) string = .ok o →
    ∀ i ∈ o.code, i.Auxiliary maxConstant := by
  induction cs with
  | nil =>
    intro string o hstring h
    cases h
    exact hstring
  | cons c cs ih =>
    intro string o hstring h
    obtain ⟨string', hstring', h⟩ := bind_eq_ok h
    apply ih _ h
    unfold appendChar at hstring'
    split at hstring'
    · cases hstring'
    · next hc =>
      cases hstring'
      have hle : c.toNat ≤ maxConstant := Nat.le_of_not_lt hc
      intro i hi
      simp only [Operand.code, operandsCode, List.mem_append, List.mem_singleton,
        List.append_nil] at hi
      rcases hi with (hi | rfl) | rfl
      · exact hstring i hi
      · exact hle
      · trivial

theorem auxiliary_stringOperand {text : String} {o : Operand}
    (h : stringOperand text pos = .ok o) : ∀ i ∈ o.code, i.Auxiliary maxConstant := by
  unfold stringOperand at h
  split at h
  · cases h
  · next hlength =>
    have hle : text.length ≤ maxConstant := Nat.le_of_not_lt hlength
    refine auxiliary_appendChars text.toList ?_ h
    simpa [Operand.code, operandsCode, Instruction.Auxiliary] using hle

theorem auxiliary_binary (op : BinaryOp) : ∀ i ∈ [op.instruction], i.Auxiliary maxConstant := by
  cases op <;> simp [BinaryOp.instruction, Instruction.Auxiliary]

theorem auxiliary_unary (op : UnaryOp) : ∀ i ∈ [op.instruction], i.Auxiliary maxConstant := by
  cases op <;> simp [UnaryOp.instruction, Instruction.Auxiliary]

/-- The base is read after the index. -/
theorem reaches_elementAddress {name : String} {base : Slot} {index : Operand} {uses : List Use}
    (hbase : slotOf scope name pos = .ok base) (hindex : Reaches scope uses index.code) :
    Reaches scope (uses ++ [.read name]) (elementAddress base index).code :=
  (hindex.append (reaches_slotOperand hbase)).before _ (auxiliary_binary .add)

theorem reaches_callOperand {callee : Callee} {stop : Nat} {os : Except Fault (List Operand)}
    {o : Operand} {uses : List Use}
    (hos : ∀ {os'}, os = .ok os' → Reaches scope uses (operandsCode os'))
    (h : callOperand scope callee stop os = .ok o) :
    Reaches scope (receiverUses scope.lookup? callee ++ uses) o.code := by
  obtain ⟨os', hos', h⟩ := bind_eq_ok h
  have harguments := hos hos'
  cases callee with
  | own name =>
    rw [boundCall_eq_ok h]
    have hthis := harguments.after [pushThis] (by simp [pushThis, Instruction.Auxiliary,
      scratch])
    exact hthis.before _ (by simp [Instruction.Auxiliary])
  | qualified receiver method =>
    dsimp only at h
    cases hsymbol : scope.lookup? receiver with
    | some symbol =>
      rw [hsymbol] at h
      rw [boundCall_eq_ok h, receiverUses, hsymbol]
      have hreceiver : slotOf scope receiver stop = .ok symbol.slot := by rw [slotOf, hsymbol]
      exact ((reaches_slotOperand hreceiver).append harguments).before _
        (by simp [Instruction.Auxiliary])
    | none =>
      rw [hsymbol] at h
      cases h
      rw [receiverUses, hsymbol]
      exact harguments.before _ (by simp [Instruction.Auxiliary])

mutual

theorem Term.reaches : (t : Term) → ∀ {pos o}, t.translate scope pos = .ok o →
    Reaches scope (t.uses scope.lookup?) o.code
  | .integer text, pos, o, h => .of_auxiliary (auxiliary_integerOperand h)
  | .string text, pos, o, h => .of_auxiliary (auxiliary_stringOperand h)
  | .constant value, pos, o, h => by
    cases h
    exact .of_auxiliary (auxiliary_constantOperand value)
  | .variable name, pos, o, h => by
    obtain ⟨slot, hslot, rfl⟩ := map_eq_ok h
    exact reaches_slotOperand hslot
  | .element name index, pos, o, h => by
    obtain ⟨slot, hslot, h⟩ := bind_eq_ok h
    obtain ⟨i, hi, rfl⟩ := map_eq_ok h
    exact (reaches_elementAddress hslot (index.reaches hi)).before fetchElement
      (by simp [fetchElement, Instruction.Auxiliary, scratch])
  | .group inner, pos, o, h => inner.reaches h
  | .unary op operand, pos, o, h => by
    obtain ⟨o', ho', rfl⟩ := map_eq_ok h
    exact (operand.reaches ho').before _ (auxiliary_unary op)
  | .call callee arguments, pos, o, h =>
    reaches_callOperand (fun hos => reaches_translateArguments arguments hos) h

theorem Expression.reaches : (e : Expression) → ∀ {pos o}, e.translate scope pos = .ok o →
    Reaches scope (e.uses scope.lookup?) o.code
  | .mk first operations, pos, o, h => by
    obtain ⟨left, hleft, h⟩ := bind_eq_ok h
    exact reaches_translateOperations operations (first.reaches hleft) h

/-- What stands to the left of the operators is computed first. -/
theorem reaches_translateOperations : (operations : List (BinaryOp × Term)) →
    ∀ {pos left o uses}, Reaches scope uses left.code →
    translateOperations scope pos left operations = .ok o →
    Reaches scope (uses ++ operationsUses scope.lookup? operations) o.code
  | [], pos, left, o, uses, hleft, h => by
    cases h
    rw [operationsUses, List.append_nil]
    exact hleft
  | (op, term) :: rest, pos, left, o, uses, hleft, h => by
    obtain ⟨right, hright, h⟩ := bind_eq_ok h
    have hbinary : Reaches scope _ (Operand.binary op left right).code :=
      (hleft.append (term.reaches hright)).before _ (auxiliary_binary op)
    rw [operationsUses, ← List.append_assoc]
    exact reaches_translateOperations rest hbinary h

theorem reaches_translateArguments : (arguments : List Expression) → ∀ {pos args os},
    translateArguments scope pos args arguments = .ok os →
    Reaches scope (argumentsUses scope.lookup? arguments) (operandsCode os)
  | [], pos, args, os, h => by
    cases h
    exact .nil
  | e :: rest, pos, args, os, h => by
    obtain ⟨o, ho, h⟩ := bind_eq_ok h
    split at h
    · cases h
    · obtain ⟨os', hos', rfl⟩ := map_eq_ok h
      exact (e.reaches ho).append (reaches_translateArguments rest hos')

end

/-! ## The translation of statements -/

variable {labels : LabelSupply}

theorem reaches_leaveWith {value : Option Operand} {uses : List Use}
    (h : ∀ o, value = some o → Reaches scope uses o.code) (hnone : value = none → uses = []) :
    Reaches scope uses (leaveWith scope value).code := by
  unfold leaveWith
  cases value with
  | none =>
    rw [hnone rfl]
    split <;> exact .of_auxiliary (by simp [Command.code, Instruction.Auxiliary])
  | some o =>
    split <;> exact (h o rfl).before _ (by simp [discard, Instruction.Auxiliary, scratch])

mutual

theorem Statement.reaches : (s : Statement) → ∀ {labels pos cmd},
    s.translate scope labels pos = .ok cmd → Reaches scope (s.uses scope.lookup?) cmd.code
  | .assign name value, labels, pos, cmd, h => by
    obtain ⟨target, v, htarget, hv, rfl⟩ := Statement.translate_assign h
    exact (value.reaches hv).append (reaches_write htarget)
  | .assignElement name index value, labels, pos, cmd, h => by
    obtain ⟨base, i, v, hbase, hi, hv, rfl⟩ := Statement.translate_assignElement h
    have haddress := reaches_elementAddress hbase (index.reaches hi)
    exact (haddress.append (value.reaches hv)).before storeElement
      (by simp [storeElement, Instruction.Auxiliary, scratch])
  | .ifThen condition onTrue, labels, pos, cmd, h => by
    obtain ⟨o, cmds, pos', ho, hcmds, rfl⟩ := Statement.translate_ifThen h
    let names := IfLabels.ofId labels.peek
    have hcondition := (condition.reaches ho).before
      [.ifGoto names.onTrue, .goto names.onFalse, .label names.onTrue]
      (by simp [Instruction.Auxiliary])
    have hblock := hcondition.append (reaches_translateStatements onTrue hcmds)
    exact hblock.before [.label names.onFalse] (by simp [Instruction.Auxiliary])
  | .ifElse condition onTrue onFalse, labels, pos, cmd, h => by
    obtain ⟨o, cmds, cmds', pos', pos'', ho, hcmds, hcmds', rfl⟩ := Statement.translate_ifElse h
    let names := IfLabels.ofId labels.peek
    have hcondition := (condition.reaches ho).before
      [.ifGoto names.onTrue, .goto names.onFalse, .label names.onTrue]
      (by simp [Instruction.Auxiliary])
    have hblock := (hcondition.append (reaches_translateStatements onTrue hcmds)).before
      [.goto names.done, .label names.onFalse] (by simp [Instruction.Auxiliary])
    have hblocks := hblock.append (reaches_translateStatements onFalse hcmds')
    exact hblocks.before [.label names.done] (by simp [Instruction.Auxiliary])
  | .loop condition body, labels, pos, cmd, h => by
    obtain ⟨o, cmds, pos', ho, hcmds, rfl⟩ := Statement.translate_loop h
    let names := WhileLabels.ofId labels.peek
    have hentry := (condition.reaches ho).after [.label names.condition]
      (by simp [Instruction.Auxiliary])
    have hcondition := hentry.before [.arithmetic .not, .ifGoto names.done]
      (by simp [Instruction.Auxiliary])
    have hblock := hcondition.append (reaches_translateStatements body hcmds)
    exact hblock.before [.goto names.condition, .label names.done]
      (by simp [Instruction.Auxiliary])
  | .doCall callee arguments, labels, pos, cmd, h => by
    obtain ⟨o, stop, ho, rfl⟩ := Statement.translate_doCall h
    have hcall := reaches_callOperand (fun hos => reaches_translateArguments arguments hos) ho
    exact hcall.before [discard] (by simp [discard, Instruction.Auxiliary, scratch])
  | .doExpression value, labels, pos, cmd, h => by
    obtain ⟨o, ho, rfl⟩ := Statement.translate_doExpression h
    exact (value.reaches ho).before [discard]
      (by simp [discard, Instruction.Auxiliary, scratch])
  | .returnNothing, labels, pos, cmd, h => by
    cases h
    exact reaches_leaveWith nofun fun _ => rfl
  | .returnValue value, labels, pos, cmd, h => by
    obtain ⟨o, ho, rfl⟩ := Statement.translate_returnValue h
    exact reaches_leaveWith (fun o' ho' => Option.some.inj ho' ▸ value.reaches ho) nofun

theorem reaches_translateStatements : (body : List Statement) → ∀ {labels pos cmds},
    translateStatements scope labels pos body = .ok cmds →
    Reaches scope (statementsUses scope.lookup? body) (commandsCode cmds)
  | [], labels, pos, cmds, h => by
    cases h
    exact .nil
  | s :: rest, labels, pos, cmds, h => by
    obtain ⟨cmd, cmds', hcmd, hcmds', rfl⟩ := translateStatements_cons h
    exact (s.reaches hcmd).append (reaches_translateStatements rest hcmds')

end

end Jack.Grammar
