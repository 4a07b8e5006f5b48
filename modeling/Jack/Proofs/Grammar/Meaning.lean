import Jack.Proofs.Grammar.Semantics

/-!
# The translation keeps the meaning

An operand that an expression is translated to has the value of the expression. The machine, run on
the code of translated statements, ends as the statements do.
-/

namespace Jack.Grammar

open Vm

variable {σ : Type} {world : World σ} {scope : Scope}

/-! ## Expressions -/

theorem eval_slotOperand (symbol : Symbol) (s : σ) :
    (slotOperand symbol.slot).eval world s = some ((world.memory s).valueOf symbol, s) := by
  rw [slotOperand, Operand.eval, Vm.Memory.read?_slot]
  rfl

theorem eval_constantOperand (value : KeywordConstant) (s : σ) :
    (constantOperand value).eval world s = some (constantValue (world.memory s) value, s) := by
  cases value <;> rfl

theorem eval_integerOperand {text : String} {pos : Nat} {o : Operand}
    (h : integerOperand text pos = .ok o) (s : σ) :
    o.eval world s = (Text.natural? text).map fun n => (.ofNat 16 n, s) := by
  unfold integerOperand at h
  split at h
  · next n hn =>
    cases h
    rw [(Option.filter_eq_some_iff.1 hn).1]
    rfl
  · cases h

theorem eval_stringOperand {text : String} {pos : Nat} {o : Operand}
    (h : stringOperand text pos = .ok o) (s : σ) :
    o.eval world s = some (stringValue world text s) := by
  have hchars (cs : List Char) : ∀ {string : Operand} {r : Word × σ},
      string.eval world s = some r →
      (cs.foldl (fun o c => .call Os.appendChar [o, .push .constant c.toNat]) string).eval world s =
        some (cs.foldl
          (fun r c => world.perform Os.appendChar [r.1, .ofNat 16 c.toNat] r.2) r) := by
    induction cs with
    | nil => exact fun h => h
    | cons c cs ih =>
      intro string r hstring
      apply ih
      simp only [Operand.eval, evalOperands, hstring]
      rfl
  rw [stringOperand, appendChars_eq] at h
  split at h
  · cases h
  · split at h
    · cases h
    · cases h
      exact hchars text.toList rfl

theorem eval_elementAddress (symbol : Symbol) (index : Operand) (s : σ) :
    (elementAddress symbol.slot index).eval world s =
      (index.eval world s).map fun r => (r.1 + (world.memory r.2).valueOf symbol, r.2) := by
  rw [elementAddress, Operand.eval]
  cases index.eval world s with
  | none => rfl
  | some r =>
    show ((slotOperand symbol.slot).eval world r.2 >>= _) = _
    rw [eval_slotOperand]
    rfl

/-- A call has its meaning as soon as its arguments have theirs. -/
theorem eval_callOperand {callee : Callee} {arguments : List Expression} {stop : Nat}
    {os : Except Fault (List Operand)} {o : Operand}
    (harguments : ∀ {os'}, os = .ok os' →
      ∀ s, evalOperands world os' s = evalArguments world scope arguments s)
    (h : callOperand scope callee stop os = .ok o) (s : σ) :
    o.eval world s = (Term.call callee arguments).eval world scope s := by
  obtain ⟨os', hos', h⟩ := bind_eq_ok h
  have heval := harguments hos'
  cases callee with
  | own name =>
    rw [boundCall_eq_ok h, Operand.eval, evalOperands, Term.eval, ← heval]
    show (evalOperands world os' s >>= _) >>= _ = _
    cases evalOperands world os' s with
    | none => rfl
    | some r => rfl
  | qualified receiver method =>
    rw [Term.eval, ← heval]
    dsimp only at h
    cases hsymbol : scope.lookup? receiver with
    | some symbol =>
      -- The receiver is pushed first, in the memory that the arguments start with.
      rw [hsymbol] at h
      rw [boundCall_eq_ok h, Operand.eval, evalOperands, eval_slotOperand]
      show (evalOperands world os' s >>= _) >>= _ = _
      cases evalOperands world os' s with
      | none => rfl
      | some r => rfl
    | none =>
      rw [hsymbol] at h
      cases h
      rw [Operand.eval]

mutual

theorem Term.eval_translate : (t : Term) → ∀ {pos o}, t.translate scope pos = .ok o →
    ∀ s, o.eval world s = t.eval world scope s
  | .integer text, pos, o, h, s => eval_integerOperand h s
  | .string text, pos, o, h, s => eval_stringOperand h s
  | .constant value, pos, o, h, s => by
    cases h
    exact eval_constantOperand value s
  | .variable name, pos, o, h, s => by
    obtain ⟨slot, hslot, rfl⟩ := map_eq_ok h
    obtain ⟨symbol, hsymbol, rfl⟩ := slotOf_eq_ok hslot
    rw [eval_slotOperand, Term.eval, hsymbol]
    rfl
  | .element name index, pos, o, h, s => by
    obtain ⟨slot, hslot, h⟩ := bind_eq_ok h
    obtain ⟨i, hi, rfl⟩ := map_eq_ok h
    obtain ⟨symbol, hsymbol, rfl⟩ := slotOf_eq_ok hslot
    -- Both read the array after the index, so the memory is the same.
    rw [Operand.eval, Term.eval, hsymbol, eval_elementAddress, index.eval_translate hi]
    cases index.eval world scope s with
    | none => rfl
    | some r => rfl
  | .group inner, pos, o, h, s => inner.eval_translate h s
  | .unary op operand, pos, o, h, s => by
    obtain ⟨o', ho', rfl⟩ := map_eq_ok h
    rw [Operand.eval, operand.eval_translate ho', Term.eval]
  | .call callee arguments, pos, o, h, s =>
    eval_callOperand (fun hos => eval_translateArguments arguments hos) h s

theorem Expression.eval_translate : (e : Expression) → ∀ {pos o}, e.translate scope pos = .ok o →
    ∀ s, o.eval world s = e.eval world scope s
  | .mk first operations, pos, o, h, s => by
    obtain ⟨left, hleft, h⟩ := bind_eq_ok h
    rw [eval_translateOperations operations h, first.eval_translate hleft, Expression.eval]
    rfl

theorem eval_translateOperations : (operations : List (BinaryOp × Term)) → ∀ {pos left o},
    translateOperations scope pos left operations = .ok o →
    ∀ s, o.eval world s = (left.eval world s).bind fun r =>
      evalOperations world scope r.1 operations r.2
  | [], pos, left, o, h, s => by
    cases h
    exact (Option.bind_fun_some (left.eval world s)).symm
  | (op, term) :: rest, pos, left, o, h, s => by
    obtain ⟨right, hright, h⟩ := bind_eq_ok h
    rw [eval_translateOperations rest h, Operand.eval]
    cases left.eval world s with
    | none => rfl
    | some r =>
      show ((right.eval world r.2 >>= _).bind _) = (term.eval world scope r.2 >>= _)
      rw [term.eval_translate hright]
      cases term.eval world scope r.2 with
      | none => rfl
      | some r => rfl

theorem eval_translateArguments : (arguments : List Expression) → ∀ {pos args os},
    translateArguments scope pos args arguments = .ok os →
    ∀ s, evalOperands world os s = evalArguments world scope arguments s
  | [], pos, args, os, h, s => by
    cases h
    rfl
  | e :: rest, pos, args, os, h, s => by
    obtain ⟨o, ho, h⟩ := bind_eq_ok h
    split at h
    · cases h
    · obtain ⟨os', hos', rfl⟩ := map_eq_ok h
      rw [evalOperands, evalArguments, e.eval_translate ho]
      cases e.eval world scope s with
      | none => rfl
      | some r =>
        show (evalOperands world os' r.2 >>= _) = (evalArguments world scope rest r.2 >>= _)
        rw [eval_translateArguments rest hos']

end

end Jack.Grammar
