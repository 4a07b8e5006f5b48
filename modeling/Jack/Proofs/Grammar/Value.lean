import Jack.Proofs.Grammar.Meaning

/-!
# Translated expressions have a value

Computing the value of an expression only fails on unknown names and on numerals that are none.
An expression that is translated has neither, so it has a value in every memory.
-/

namespace Jack.Grammar

open Vm (World Operand)

variable {σ : Type} {world : World σ} {scope : Scope}

theorem exists_natural_of_integerOperand {text : String} {pos : Nat} {o : Operand}
    (h : integerOperand text pos = .ok o) : ∃ n, Text.natural? text = some n := by
  unfold integerOperand at h
  split at h
  · next n hn => exact ⟨n, (Option.filter_eq_some_iff.1 hn).1⟩
  · cases h

mutual

theorem Term.exists_eval : (t : Term) → ∀ {pos o}, t.translate scope pos = .ok o →
    ∀ s, ∃ w s', t.eval world scope s = some (w, s')
  | .integer text, pos, o, h, s => by
    obtain ⟨n, hn⟩ := exists_natural_of_integerOperand h
    exact ⟨.ofNat 16 n, s, by rw [Term.eval, hn]; rfl⟩
  | .string text, pos, o, h, s => ⟨_, _, by rw [Term.eval]⟩
  | .constant value, pos, o, h, s => ⟨_, _, by rw [Term.eval]⟩
  | .variable name, pos, o, h, s => by
    obtain ⟨slot, hslot, -⟩ := map_eq_ok h
    obtain ⟨symbol, hsymbol, -⟩ := slotOf_eq_ok hslot
    exact ⟨(world.memory s).valueOf symbol, s, by rw [Term.eval, hsymbol]; rfl⟩
  | .element name index, pos, o, h, s => by
    obtain ⟨slot, hslot, h⟩ := bind_eq_ok h
    obtain ⟨i, hi, -⟩ := map_eq_ok h
    obtain ⟨symbol, hsymbol, -⟩ := slotOf_eq_ok hslot
    obtain ⟨w, s', heval⟩ := index.exists_eval hi s
    refine ⟨(world.memory s').heap (w + (world.memory s').valueOf symbol), s', ?_⟩
    rw [Term.eval, hsymbol, heval]
    rfl
  | .group inner, pos, o, h, s => by
    rw [Term.eval]
    exact inner.exists_eval h s
  | .unary op operand, pos, o, h, s => by
    obtain ⟨o', ho', -⟩ := map_eq_ok h
    obtain ⟨w, s', heval⟩ := operand.exists_eval ho' s
    exact ⟨op.apply w, s', by rw [Term.eval, heval]; rfl⟩
  | .call callee arguments, pos, o, h, s => by
    obtain ⟨os, hos, -⟩ := bind_eq_ok h
    obtain ⟨xs, s', heval⟩ := exists_evalArguments arguments hos s
    cases callee with
    | own name =>
      rw [Term.eval, heval]
      exact ⟨_, _, rfl⟩
    | qualified receiver method =>
      rw [Term.eval, heval]
      cases hsymbol : scope.lookup? receiver with
      | some symbol => exact ⟨_, _, rfl⟩
      | none => exact ⟨_, _, rfl⟩

theorem Expression.exists_eval : (e : Expression) → ∀ {pos o}, e.translate scope pos = .ok o →
    ∀ s, ∃ w s', e.eval world scope s = some (w, s')
  | .mk first operations, pos, o, h, s => by
    obtain ⟨left, hleft, h⟩ := bind_eq_ok h
    obtain ⟨w, s₁, hfirst⟩ := first.exists_eval hleft s
    obtain ⟨w', s', hoperations⟩ := exists_evalOperations operations h w s₁
    exact ⟨w', s', by rw [Expression.eval, hfirst]; exact hoperations⟩

theorem exists_evalOperations : (operations : List (BinaryOp × Term)) → ∀ {pos left o},
    translateOperations scope pos left operations = .ok o →
    ∀ x s, ∃ w s', evalOperations world scope x operations s = some (w, s')
  | [], pos, left, o, h, x, s => ⟨x, s, by rw [evalOperations]⟩
  | (op, term) :: rest, pos, left, o, h, x, s => by
    obtain ⟨right, hright, h⟩ := bind_eq_ok h
    obtain ⟨y, s₁, hterm⟩ := term.exists_eval hright s
    obtain ⟨w, s', hrest⟩ :=
      exists_evalOperations rest h (op.apply world x y s₁).1 (op.apply world x y s₁).2
    exact ⟨w, s', by rw [evalOperations, hterm]; exact hrest⟩

theorem exists_evalArguments : (arguments : List Expression) → ∀ {pos args os},
    translateArguments scope pos args arguments = .ok os →
    ∀ s, ∃ ws s', evalArguments world scope arguments s = some (ws, s')
  | [], pos, args, os, h, s => ⟨[], s, by rw [evalArguments]⟩
  | e :: rest, pos, args, os, h, s => by
    obtain ⟨o, ho, h⟩ := bind_eq_ok h
    split at h
    · cases h
    · obtain ⟨os', hos', -⟩ := map_eq_ok h
      obtain ⟨w, s₁, he⟩ := e.exists_eval ho s
      obtain ⟨ws, s', hrest⟩ := exists_evalArguments rest hos' s₁
      refine ⟨w :: ws, s', ?_⟩
      rw [evalArguments, he]
      show (evalArguments world scope rest s₁ >>= _) = _
      rw [hrest]
      rfl

end

end Jack.Grammar
