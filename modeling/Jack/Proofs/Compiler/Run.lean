import Jack.Compiler.ClassCode
import Jack.Proofs.Grammar.Translation

/-!
# Runs of the compiler

What each step of the compiler does to a state whose entries are known. The longer steps are
compared with a translation: a step meets a translation if both fail with the same fault, or both
succeed with related results.
-/

namespace Jack.Vm.Code

/-- Appends instructions. -/
def extend (code : Code) (is : List Instruction) : Code := ⟨code.instructions ++ is.toArray⟩

@[simp] theorem extend_nil (code : Code) : code.extend [] = code := by
  simp only [extend, Array.append_empty]

@[simp] theorem extend_extend (code : Code) (is js : List Instruction) :
    (code.extend is).extend js = code.extend (is ++ js) := by
  simp only [extend, Array.append_assoc, List.append_toArray]

theorem emit_eq_extend (code : Code) (i : Instruction) : code.emit i = code.extend [i] := by
  simp only [emit, extend, Array.push_eq_append]

@[simp] theorem toList_extend (code : Code) (is : List Instruction) :
    (code.extend is).toList = code.toList ++ is := by
  simp only [toList, extend, Array.toList_append]

end Jack.Vm.Code

namespace Jack.Compiler

open Grammar (Lexeme)
open Vm (Instruction LabelSupply)

variable {α β γ δ : Type} {es : List Entry} {n : Nat} {l : LabelSupply} {c : Vm.Code}
  {ns : Array Notice}

/-! ## One step -/

@[simp] theorem run_pure (a : α) (s : CompilerState) : (pure a : Compiler α).run s = .ok a s := rfl

@[simp] theorem run_throw (f : Fault) (s : CompilerState) :
    (throw f : Compiler α).run s = .error f s := rfl

@[simp] theorem run_current? :
    current?.run ⟨⟨es, n⟩, l, c, ns⟩ = .ok es.head? ⟨⟨es, n⟩, l, c, ns⟩ := rfl

@[simp] theorem run_position :
    position.run ⟨⟨es, n⟩, l, c, ns⟩ = .ok (.ofIndex n) ⟨⟨es, n⟩, l, c, ns⟩ := rfl

@[simp] theorem run_advance (e : Entry) :
    advance.run ⟨⟨e :: es, n⟩, l, c, ns⟩ = .ok () ⟨⟨es, n + 1⟩, l, c, ns⟩ := rfl

@[simp] theorem run_peek? (select : Entry → Option α) :
    (peek? select).run ⟨⟨es, n⟩, l, c, ns⟩ = .ok (es.head?.bind select) ⟨⟨es, n⟩, l, c, ns⟩ := rfl

theorem run_read {expected : String} {select : Entry → Option α} {e : Entry} {a : α}
    (h : select e = some a) :
    (read expected select).run ⟨⟨e :: es, n⟩, l, c, ns⟩ = .ok a ⟨⟨es, n + 1⟩, l, c, ns⟩ := by
  simp only [read, EStateM.run_bind, run_peek?, List.head?_cons, Option.bind_some, h, run_advance,
    run_pure]

@[simp] theorem run_emit (i : Instruction) :
    (emit i).run ⟨⟨es, n⟩, l, c, ns⟩ = .ok () ⟨⟨es, n⟩, l, c.extend [i], ns⟩ :=
  congrArg (fun c => EStateM.Result.ok () (CompilerState.mk ⟨es, n⟩ l c ns))
    (Vm.Code.emit_eq_extend c i)

@[simp] theorem run_emitAll (is : List Instruction) :
    (emitAll is).run ⟨⟨es, n⟩, l, c, ns⟩ = .ok () ⟨⟨es, n⟩, l, c.extend is, ns⟩ := by
  induction is generalizing c with
  | nil => rw [Vm.Code.extend_nil]; rfl
  | cons i is ih =>
    simp only [emitAll, EStateM.run_bind, run_emit, ih, Vm.Code.extend_extend,
      List.singleton_append]

@[simp] theorem run_takeLabel :
    takeLabel.run ⟨⟨es, n⟩, l, c, ns⟩ = .ok l.peek ⟨⟨es, n⟩, l.advance, c, ns⟩ := rfl

@[simp] theorem run_note (notice : Notice) :
    (note notice).run ⟨⟨es, n⟩, l, c, ns⟩ = .ok () ⟨⟨es, n⟩, l, c, ns.push notice⟩ := rfl

@[simp] theorem run_marker (p : Production) :
    (marker p).run ⟨⟨.production p :: es, n⟩, l, c, ns⟩ = .ok () ⟨⟨es, n + 1⟩, l, c, ns⟩ :=
  run_read (if_pos rfl)

@[simp] theorem run_word (kind : TokenKind) (text : String) :
    (word text).run ⟨⟨.token kind text :: es, n⟩, l, c, ns⟩ = .ok () ⟨⟨es, n + 1⟩, l, c, ns⟩ :=
  run_read (if_pos rfl)

@[simp] theorem run_identifier (text : String) :
    identifier.run ⟨⟨.token .identifier text :: es, n⟩, l, c, ns⟩ =
      .ok text ⟨⟨es, n + 1⟩, l, c, ns⟩ :=
  run_read rfl

@[simp] theorem run_type (text : String) :
    type.run ⟨⟨.token (Lexeme.typeKind text) text :: es, n⟩, l, c, ns⟩ =
      .ok text ⟨⟨es, n + 1⟩, l, c, ns⟩ := by
  rcases Lexeme.typeKind_eq text with h | h
  · rw [h]; exact run_read rfl
  · rw [h]; exact run_read rfl

theorem run_keyword {expected text : String} {meaning? : String → Option α} {a : α}
    (h : meaning? text = some a) :
    (keyword expected meaning?).run ⟨⟨.token .keyword text :: es, n⟩, l, c, ns⟩ =
      .ok a ⟨⟨es, n + 1⟩, l, c, ns⟩ :=
  run_read h

@[simp] theorem run_atProduction (p : Production) :
    (atProduction p).run ⟨⟨es, n⟩, l, c, ns⟩ =
      .ok (decide (es.head? = some (.production p))) ⟨⟨es, n⟩, l, c, ns⟩ := rfl

@[simp] theorem run_atSymbol (text : String) :
    (atSymbol text).run ⟨⟨es, n⟩, l, c, ns⟩ =
      .ok (decide (es.head? = some (.token .symbol text))) ⟨⟨es, n⟩, l, c, ns⟩ := rfl

@[simp] theorem run_accept_self (e : Entry) :
    (accept e).run ⟨⟨e :: es, n⟩, l, c, ns⟩ = .ok true ⟨⟨es, n + 1⟩, l, c, ns⟩ := by
  simp only [accept, EStateM.run_bind, run_current?, List.head?_cons, if_true, run_advance,
    run_pure]

theorem run_accept_of_ne {e : Entry} (h : es.head? ≠ some e) :
    (accept e).run ⟨⟨es, n⟩, l, c, ns⟩ = .ok false ⟨⟨es, n⟩, l, c, ns⟩ := by
  simp only [accept, EStateM.run_bind, run_current?, h, if_false, run_pure]

theorem run_atCall :
    atCall.run ⟨⟨es, n⟩, l, c, ns⟩ =
      .ok (decide (es.head? = some (.token .symbol "(") ∨ es.head? = some (.token .symbol ".")))
        ⟨⟨es, n⟩, l, c, ns⟩ := by
  by_cases h : es.head? = some (.token .symbol "(")
  · simp only [atCall, EStateM.run_bind, run_atSymbol, h, decide_true, if_true, run_pure, true_or]
  · simp only [atCall, EStateM.run_bind, run_atSymbol, h, decide_false, Bool.false_eq_true,
      if_false, false_or]

/-! ## Steps and translations -/

/-- The step and the translation fail with the same fault, or both succeed with results that `Q`
relates. -/
def Meets (t : Except Fault β) (r : EStateM.Result Fault CompilerState α)
    (Q : β → α → CompilerState → Prop) : Prop :=
  match t, r with
  | .ok b, .ok a s => Q b a s
  | .error f, .error f' _ => f' = f
  | _, _ => False

theorem Meets.ok_or_error {t : Except Fault β} {r : EStateM.Result Fault CompilerState α}
    {Q : β → α → CompilerState → Prop} (h : Meets t r Q) :
    (∃ b a s, t = .ok b ∧ r = .ok a s ∧ Q b a s) ∨ ∃ f s, t = .error f ∧ r = .error f s := by
  match t, r, h with
  | .ok b, .ok a s, h => exact .inl ⟨b, a, s, rfl, rfl, h⟩
  | .error f, .error _ s, rfl => exact .inr ⟨f, s, rfl, rfl⟩

theorem Meets.bind {t : Except Fault β} {t' : β → Except Fault δ} {m : Compiler α}
    {k : α → Compiler γ} {s : CompilerState} {Q : β → α → CompilerState → Prop}
    {R : δ → γ → CompilerState → Prop} (h : Meets t (m.run s) Q)
    (hk : ∀ b a s', Q b a s' → Meets (t' b) ((k a).run s') R) :
    Meets (t >>= t') ((m >>= k).run s) R := by
  rw [EStateM.run_bind]
  cases t with
  | ok b =>
    cases hr : m.run s with
    | ok a s' =>
      rw [hr] at h
      exact hk b a s' h
    | error f s' =>
      rw [hr] at h
      exact h.elim
  | error f =>
    cases hr : m.run s with
    | ok a s' =>
      rw [hr] at h
      exact h.elim
    | error f' s' =>
      rw [hr] at h
      exact h

theorem Meets.map {t : Except Fault β} {g : β → δ} {r : EStateM.Result Fault CompilerState α}
    {Q : β → α → CompilerState → Prop} {R : δ → α → CompilerState → Prop} (h : Meets t r Q)
    (hQ : ∀ b a s, Q b a s → R (g b) a s) : Meets (t >>= fun b => pure (g b)) r R := by
  cases t with
  | ok b =>
    cases r with
    | ok a s => exact hQ b a s h
    | error f s => exact h.elim
  | error f =>
    cases r with
    | ok a s => exact h.elim
    | error f' s => exact h

/-- A step without a counterpart in the translation. -/
theorem Meets.step {t : Except Fault δ} {m : Compiler α} {k : α → Compiler γ}
    {s s' : CompilerState} {a : α} {R : δ → γ → CompilerState → Prop}
    (h : m.run s = .ok a s') (hk : Meets t ((k a).run s') R) : Meets t ((m >>= k).run s) R := by
  rw [EStateM.run_bind, h]
  exact hk

/-- What follows a step whose result is that of the whole translation. -/
theorem Meets.last {t : Except Fault δ} {m : Compiler α} {k : α → Compiler γ}
    {s : CompilerState} {Q : δ → α → CompilerState → Prop} {R : δ → γ → CompilerState → Prop}
    (h : Meets t (m.run s) Q) (hk : ∀ b a s', Q b a s' → Meets (.ok b) ((k a).run s') R) :
    Meets t ((m >>= k).run s) R := by
  rw [← bind_pure t]
  exact h.bind hk

end Jack.Compiler

namespace Jack

open Vm (LabelSupply)

/-! ## Whole compilations -/

/-- The state in which a compilation begins. -/
def CompilerState.start (labels : LabelSupply) (entries : List Entry) : CompilerState :=
  { cursor := { rest := entries }, labels }

variable {labels : LabelSupply} {entries : List Entry}

theorem compileEntries_of_ok {name : String} {s : CompilerState}
    (h : (Compiler.classDec entries.length).run (.start labels entries) = .ok name s) :
    compileEntries labels entries = ⟨.ok ⟨name, s.code⟩, s.labels, s.notices⟩ := by
  unfold compileEntries
  rw [show (Compiler.classDec entries.length).run { cursor := { rest := entries }, labels } = _
    from h]

theorem compileEntries_of_error {fault : Fault} {s : CompilerState}
    (h : (Compiler.classDec entries.length).run (.start labels entries) = .error fault s) :
    compileEntries labels entries = ⟨.error fault, s.labels, s.notices⟩ := by
  unfold compileEntries
  rw [show (Compiler.classDec entries.length).run { cursor := { rest := entries }, labels } = _
    from h]

/-- A compilation that succeeds is a run that succeeds. -/
theorem exists_run_of_compileEntries {unit : ClassCode}
    (h : (compileEntries labels entries).result = .ok unit) :
    ∃ name s, (Compiler.classDec entries.length).run (.start labels entries) = .ok name s ∧
      unit = ⟨name, s.code⟩ ∧ (compileEntries labels entries).labels = s.labels := by
  cases hrun : (Compiler.classDec entries.length).run (.start labels entries) with
  | ok name s =>
    rw [compileEntries_of_ok hrun] at h ⊢
    cases h
    exact ⟨name, s, rfl, rfl, rfl⟩
  | error fault s =>
    rw [compileEntries_of_error hrun] at h
    cases h

end Jack
