import Jack.Proofs.Compiler.Run

/-!
# What a run that succeeds has read

A run that succeeds has passed some entries, taken some label ids and emitted some code. A property
of these three and of the result is established step by step. On its way the run has come to every
term among the entries, and what was emitted there is part of the code. If the term is exchanged for
another one, then only this part changes.
-/

namespace Jack

/-- The same state in front of other entries and behind other code. -/
def CompilerState.facing (s : CompilerState) (rest : List Entry) (code : Vm.Code) : CompilerState :=
  { s with cursor := { s.cursor with rest }, code }

end Jack

namespace Jack.Compiler

open Grammar (Lexeme)
open Vm (Instruction LabelSupply)

variable {α β : Type} {m : Compiler α} {f : α → Compiler β} {es : List Entry} {l : LabelSupply}

theorem run_bind_eq_ok {s s'' : CompilerState} {b : β} (h : (m >>= f).run s = .ok b s'') :
    ∃ a s', m.run s = .ok a s' ∧ (f a).run s' = .ok b s'' := by
  rw [EStateM.run_bind] at h
  cases hm : m.run s with
  | ok a s' =>
    rw [hm] at h
    exact ⟨a, s', rfl, h⟩
  | error fault s' =>
    rw [hm] at h
    cases h

/-! ## Runs on the way -/

/-- A run of a compiler comes to a run of another one: right away, within the first of two steps, or
after it. -/
inductive Visits {β : Type} (goal : Compiler β) (t : CompilerState) :
    {α : Type} → Compiler α → CompilerState → Prop where
  | here : Visits goal t goal t
  | first {α γ : Type} {m : Compiler α} {f : α → Compiler γ} {s : CompilerState} :
    Visits goal t m s → Visits goal t (m >>= f) s
  | next {α γ : Type} {m : Compiler α} {f : α → Compiler γ} {s s' : CompilerState} {a : α} :
    m.run s = .ok a s' → Visits goal t (f a) s' → Visits goal t (m >>= f) s

/-- A fault on the way is that of the whole run. -/
theorem Visits.error {goal : Compiler β} {s t t' : CompilerState} {fault : Fault}
    (h : Visits goal t m s) (hgoal : goal.run t = .error fault t') :
    m.run s = .error fault t' := by
  induction h with
  | here => exact hgoal
  | first _ ih => rw [EStateM.run_bind, ih]
  | next hrun _ ih =>
    rw [EStateM.run_bind, hrun]
    exact ih

/-- A condition that holds decides where the run goes. -/
theorem Visits.of_pos {goal : Compiler β} {m' : Compiler α} {s t : CompilerState} {p : Prop}
    [Decidable p] (hp : p) (h : Visits goal t m s) : Visits goal t (if p then m else m') s := by
  rwa [if_pos hp]

/-! ## Terms that are exchanged -/

section

variable {s s' s'' : CompilerState} {a : α} {b : β} {used used' : List Entry}
  {is is' : List Instruction} {i : Nat}

theorem head?_take_append {rest : List Entry} {e : Entry} (hi : used[i]? = some e)
    (hes : es.head? = some e) : (used.take i ++ es).head? = (used ++ rest).head? := by
  cases used with
  | nil => cases hi
  | cons first used =>
    cases i with
    | zero =>
      cases hi
      exact hes
    | succ i => rfl

/-- A run from one state to another, which passes some entries and emits some code, is settled by
these entries and the next one: it does the same whatever comes behind, and whatever was emitted
before. -/
def Settled (m : Compiler α) (s : CompilerState) (a : α) (s' : CompilerState)
    (used : List Entry) (is : List Instruction) : Prop :=
  ∀ rest c, rest.head? = s'.cursor.rest.head? →
    m.run (s.facing (used ++ rest) c) = .ok a (s'.facing rest (c.extend is))

theorem Settled.bind (h : Settled m s a s' used is) (hf : Settled (f a) s' b s'' used' is')
    (hrest : s'.cursor.rest = used' ++ s''.cursor.rest) :
    Settled (m >>= f) s b s'' (used ++ used') (is ++ is') := by
  intro rest c hhead
  have hhead' : (used' ++ rest).head? = s'.cursor.rest.head? := by
    rw [hrest, List.head?_append, List.head?_append, hhead]
  rw [List.append_assoc, EStateM.run_bind, h (used' ++ rest) c hhead', ← Vm.Code.extend_extend]
  exact hf rest (c.extend is) hhead

/-- A run emits part of its code at a term, the one with this index among the entries. Whatever
stands in the place of the term and behind it, the run comes to it in the same state. And if the
term there leads to where it led before, with other code, then the whole run leads to where it led
before, with the other code in the place of what the term emitted. -/
def EmitsTerm (m : Compiler α) (s : CompilerState) (a : α) (s' : CompilerState)
    (used : List Entry) (is : List Instruction) (i : Nat) : Prop :=
  ∃ scope bound t t' before during after, is = before ++ during ++ after ∧
    t.cursor = ⟨s.cursor.rest.drop i, s.cursor.passed + i⟩ ∧ t.code = s.code.extend before ∧
    (term scope (bound + 1)).run t = .ok () t' ∧ t'.code = s.code.extend (before ++ during) ∧
    ∀ es c, es.head? = some (.production .term) →
      Visits (term scope (bound + 1)) (t.facing es (c.extend before)) m
        (s.facing (used.take i ++ es) c) ∧
      ∀ during', (term scope (bound + 1)).run (t.facing es (c.extend before)) =
          .ok () (t'.facing t'.cursor.rest (c.extend (before ++ during'))) →
        m.run (s.facing (used.take i ++ es) c) =
          .ok a (s'.facing s'.cursor.rest (c.extend (before ++ during' ++ after)))

theorem emitsTerm_self {scope : Scope} {bound : Nat}
    (hrun : (term scope (bound + 1)).run s = .ok () s') (hcode : s'.code = s.code.extend is) :
    EmitsTerm (term scope (bound + 1)) s () s' used is 0 := by
  refine ⟨scope, bound, s, s', [], is, [], (List.append_nil is).symm, rfl, ?_, hrun, hcode, ?_⟩
  · exact (Vm.Code.extend_nil s.code).symm
  · intro es c _
    rw [Vm.Code.extend_nil]
    refine ⟨.here, fun during' hother => ?_⟩
    rw [List.append_nil]
    exact hother

/-- What follows does not look at what the term has emitted. -/
theorem EmitsTerm.first (h : EmitsTerm m s a s' used is i)
    (hf : Settled (f a) s' b s'' used' is') (hrest : s'.cursor.rest = used' ++ s''.cursor.rest)
    (hi : i ≤ used.length) : EmitsTerm (m >>= f) s b s'' (used ++ used') (is ++ is') i := by
  obtain ⟨scope, bound, t, t', before, during, after, rfl, hcursor, hcode, hrun, hcode', hother⟩ := h
  refine ⟨scope, bound, t, t', before, during, after ++ is', ?_, hcursor, hcode, hrun, hcode', ?_⟩
  · rw [List.append_assoc]
  · intro es c hes
    obtain ⟨hvisits, hleads⟩ := hother es c hes
    rw [List.take_append_of_le_length hi]
    refine ⟨hvisits.first, fun during' hterm => ?_⟩
    have hm := hleads during' hterm
    have hlast := hf s''.cursor.rest (c.extend (before ++ during' ++ after)) rfl
    rw [hrest] at hm
    rw [Vm.Code.extend_extend] at hlast
    rw [EStateM.run_bind, hm, ← List.append_assoc]
    exact hlast

/-- What comes before does not look behind the marker of the term. -/
theorem EmitsTerm.next (hm : Settled m s a s' used is) (hcode : s'.code = s.code.extend is)
    (hrest : s.cursor.rest = used ++ s'.cursor.rest)
    (hpassed : s'.cursor.passed = s.cursor.passed + used.length)
    (hrest' : s'.cursor.rest = used' ++ s''.cursor.rest)
    (hi : used'[i]? = some (.production .term)) (h : EmitsTerm (f a) s' b s'' used' is' i) :
    EmitsTerm (m >>= f) s b s'' (used ++ used') (is ++ is') (used.length + i) := by
  obtain ⟨scope, bound, t, t', before, during, after, rfl, hcursor, ht, hrun, ht', hother⟩ := h
  refine ⟨scope, bound, t, t', is ++ before, during, after, ?_, ?_, ?_, hrun, ?_, ?_⟩
  · simp only [List.append_assoc]
  · rw [hcursor, hrest, hpassed, List.drop_length_add_append, Nat.add_assoc]
  · rw [ht, hcode, Vm.Code.extend_extend]
  · rw [ht', hcode, Vm.Code.extend_extend, List.append_assoc]
  · intro es c hes
    obtain ⟨hvisits, hleads⟩ := hother es (c.extend is) hes
    -- The first step passes the same entries and then has the same entry in front of it.
    have hfirst : m.run (s.facing ((used ++ used').take (used.length + i) ++ es) c) =
        .ok a (s'.facing (used'.take i ++ es) (c.extend is)) := by
      rw [List.take_length_add_append, List.append_assoc]
      apply hm
      rw [hrest']
      exact head?_take_append hi hes
    simp only [Vm.Code.extend_extend, ← List.append_assoc] at hvisits hleads
    refine ⟨.next hfirst hvisits, fun during' hterm => ?_⟩
    rw [EStateM.run_bind, hfirst]
    exact hleads during' hterm

end

/-! ## Readings -/

/-- What can be said about the entries passed, the number of ids taken, the code and the result. -/
abbrev Reading (α : Type) := List Entry → Nat → List Instruction → α → Prop

variable {Q : Reading α} {R : Reading β}

/-- Wherever the compiler succeeds on the entries, the property holds. The run is settled by what it
has passed and the next entry, and it has come to each term that it has passed. -/
def Yields (m : Compiler α) (es : List Entry) (l : LabelSupply) (Q : Reading α) : Prop :=
  ∀ n c ns a s, m.run ⟨⟨es, n⟩, l, c, ns⟩ = .ok a s →
    ∃ used rest k is ns', es = used ++ rest ∧
      s = ⟨⟨rest, n + used.length⟩, l.skip k, c.extend is, ns'⟩ ∧ Q used k is a ∧
      Settled m ⟨⟨es, n⟩, l, c, ns⟩ a s used is ∧
      ∀ i, used[i]? = some (.production .term) →
        EmitsTerm m ⟨⟨es, n⟩, l, c, ns⟩ a s used is i

theorem Yields.ok (h : Yields m es l Q) {n : Nat} {c : Vm.Code} {ns : Array Notice} {a : α}
    {s : CompilerState} (hrun : m.run ⟨⟨es, n⟩, l, c, ns⟩ = .ok a s) :
    ∃ used rest k is ns', es = used ++ rest ∧
      s = ⟨⟨rest, n + used.length⟩, l.skip k, c.extend is, ns'⟩ ∧ Q used k is a := by
  obtain ⟨used, rest, k, is, ns', hes, hs, hQ, -⟩ := h n c ns a s hrun
  exact ⟨used, rest, k, is, ns', hes, hs, hQ⟩

theorem Yields.bind (h : Yields m es l Q)
    (hf : ∀ used rest k is a, es = used ++ rest → Q used k is a →
      Yields (f a) rest (l.skip k) fun used' k' is' b => R (used ++ used') (k + k') (is ++ is') b) :
    Yields (m >>= f) es l R := by
  intro n c ns b s hrun
  obtain ⟨a, s', hm, hrun⟩ := run_bind_eq_ok hrun
  obtain ⟨used, rest, k, is, ns', rfl, rfl, hQ, hsettled, hterms⟩ := h n c ns a s' hm
  obtain ⟨used', rest', k', is', ns'', rfl, rfl, hR, hsettled', hterms'⟩ :=
    hf used rest k is a rfl hQ _ _ _ b s hrun
  refine ⟨used ++ used', rest', k + k', is ++ is', ns'', (List.append_assoc ..).symm, ?_, hR,
    hsettled.bind hsettled' rfl, ?_⟩
  · rw [LabelSupply.skip_skip, Vm.Code.extend_extend, List.length_append, Nat.add_assoc]
  · intro i hi
    by_cases hlt : i < used.length
    · rw [List.getElem?_append_left hlt] at hi
      exact (hterms i hi).first hsettled' rfl (Nat.le_of_lt hlt)
    · -- The term is one of those that the second step passes.
      obtain ⟨j, rfl⟩ : ∃ j, i = used.length + j := ⟨i - used.length, by omega⟩
      rw [List.getElem?_append_right (Nat.le_add_right ..), Nat.add_sub_cancel_left] at hi
      exact .next hsettled rfl rfl rfl rfl hi (hterms' j hi)

theorem Yields.mono {Q' : Reading α} (h : Yields m es l Q)
    (hQ : ∀ used k is a, Q used k is a → Q' used k is a) : Yields m es l Q' := by
  intro n c ns a s hrun
  obtain ⟨used, rest, k, is, ns', hes, hs, h, hterms⟩ := h n c ns a s hrun
  exact ⟨used, rest, k, is, ns', hes, hs, hQ _ _ _ _ h, hterms⟩

/-- A step that passes no entry, and whose result, ids and code are known. It looks at no more than
the next entry. -/
theorem yields_of_run {a : α} {k : Nat} {is : List Instruction}
    (hm : ∀ n ns, ∃ ns', ∀ es' c, es'.head? = es.head? → m.run ⟨⟨es', n⟩, l, c, ns⟩ =
      .ok a ⟨⟨es', n⟩, l.skip k, c.extend is, ns'⟩) (h : Q [] k is a) : Yields m es l Q := by
  intro n c ns a' s hrun
  obtain ⟨ns', hm⟩ := hm n ns
  rw [hm es c rfl] at hrun
  cases hrun
  exact ⟨[], es, k, is, ns', rfl, rfl, h, hm, nofun⟩

theorem yields_pure {a : α} (h : Q [] 0 [] a) : Yields (pure a) es l Q :=
  yields_of_run (fun n ns => ⟨ns, fun es' c _ => by rw [Vm.Code.extend_nil]; rfl⟩) h

theorem yields_throw {fault : Fault} : Yields (throw fault : Compiler α) es l Q := by
  intro n c ns a s hrun
  cases hrun

theorem yields_mismatch {expected : String} : Yields (mismatch expected : Compiler α) es l Q := by
  intro n c ns a s hrun
  cases es <;> cases hrun

/-- A step that passes no entry is followed by another one. -/
theorem Yields.after {a : α} {k : Nat} {is : List Instruction}
    (hm : ∀ n ns, ∃ ns', ∀ es' c, es'.head? = es.head? → m.run ⟨⟨es', n⟩, l, c, ns⟩ =
      .ok a ⟨⟨es', n⟩, l.skip k, c.extend is, ns'⟩)
    (hf : Yields (f a) es (l.skip k) fun used k' is' b => R used (k + k') (is ++ is') b) :
    Yields (m >>= f) es l R := by
  refine Yields.bind (Q := fun used k' is' a' => used = [] ∧ k' = k ∧ is' = is ∧ a' = a)
    (yields_of_run hm ⟨rfl, rfl, rfl, rfl⟩) ?_
  rintro _ rest _ _ _ hes ⟨rfl, rfl, rfl, rfl⟩
  obtain rfl : es = rest := hes
  exact hf

/-- A step that takes no id either. -/
theorem Yields.emitting {a : α} {is : List Instruction}
    (hm : ∀ n ns, ∃ ns', ∀ es' c, es'.head? = es.head? →
      m.run ⟨⟨es', n⟩, l, c, ns⟩ = .ok a ⟨⟨es', n⟩, l, c.extend is, ns'⟩)
    (hf : Yields (f a) es l fun used k is' b => R used k (is ++ is') b) :
    Yields (m >>= f) es l R := by
  refine Yields.after (k := 0) hm (hf.mono fun used k is' b hR => ?_)
  rwa [Nat.zero_add]

/-! ## Looking without passing -/

/-- In front of this entry the step leaves every state as it is. -/
def Looks (m : Compiler α) (e? : Option Entry) (a : α) : Prop :=
  ∀ es n l c ns, es.head? = e? → m.run ⟨⟨es, n⟩, l, c, ns⟩ = .ok a ⟨⟨es, n⟩, l, c, ns⟩

theorem Looks.then {a : α} (h : Looks m es.head? a) (hf : Yields (f a) es l R) :
    Yields (m >>= f) es l R :=
  Yields.emitting (fun n ns => ⟨ns, fun es' c hes => by rw [h _ _ _ _ _ hes, Vm.Code.extend_nil]⟩) hf

section

variable {e? : Option Entry}

theorem looks_current? : Looks current? e? e? := by
  rintro es n l c ns rfl
  rfl

theorem looks_peek? (select : Entry → Option α) : Looks (peek? select) e? (e?.bind select) := by
  rintro es n l c ns rfl
  rfl

theorem looks_atProduction (p : Production) :
    Looks (atProduction p) e? (decide (e? = some (.production p))) := by
  rintro es n l c ns rfl
  rfl

theorem looks_atSymbol (text : String) :
    Looks (atSymbol text) e? (decide (e? = some (.token .symbol text))) := by
  rintro es n l c ns rfl
  rfl

theorem looks_atCall : Looks atCall e?
    (decide (e? = some (.token .symbol "(") ∨ e? = some (.token .symbol "."))) := by
  rintro es n l c ns rfl
  exact run_atCall

end

theorem yields_position {f : Position → Compiler β} (hf : ∀ pos, Yields (f pos) es l R) :
    Yields (position >>= f) es l R := by
  have hposition : Yields position es l fun used k is _ => used = [] ∧ k = 0 ∧ is = [] := by
    intro n c ns pos s hrun
    cases hrun
    refine ⟨[], es, 0, [], ns, rfl, by rw [Vm.Code.extend_nil]; rfl, ⟨rfl, rfl, rfl⟩, ?_, nofun⟩
    intro rest c _
    rw [Vm.Code.extend_nil]
    rfl
  refine hposition.bind ?_
  rintro _ rest _ _ pos hes ⟨rfl, rfl, rfl⟩
  obtain rfl : es = rest := hes
  refine (hf pos).mono fun used k is b hR => ?_
  rwa [Nat.zero_add]

/-! ## Passing one entry -/

/-- A step that passes one entry, which is no marker of a term, and does nothing else. -/
theorem Yields.passing {e : Entry} (he : e ≠ .production .term) {a : α}
    (hm : ∀ es n c ns, m.run ⟨⟨e :: es, n⟩, l, c, ns⟩ = .ok a ⟨⟨es, n + 1⟩, l, c, ns⟩)
    (hf : Yields (f a) es l fun used k is b => R (e :: used) k is b) :
    Yields (m >>= f) (e :: es) l R := by
  have hstep : Yields m (e :: es) l fun used k is a' => used = [e] ∧ k = 0 ∧ is = [] ∧ a' = a := by
    intro n c ns a' s hrun
    rw [hm] at hrun
    cases hrun
    refine ⟨[e], es, 0, [], ns, rfl, by rw [Vm.Code.extend_nil]; rfl, ⟨rfl, rfl, rfl, rfl⟩, ?_, ?_⟩
    · intro rest c _
      rw [Vm.Code.extend_nil]
      exact hm rest n c ns
    · intro i hi
      cases i with
      | zero => exact absurd (Option.some.inj hi) he
      | succ i => cases hi
  refine hstep.bind ?_
  rintro _ rest _ _ _ hes ⟨rfl, rfl, rfl, rfl⟩
  obtain rfl : es = rest := List.tail_eq_of_cons_eq hes
  refine hf.mono fun used k is b hR => ?_
  rwa [Nat.zero_add]

theorem yields_read {expected : String} {select : Entry → Option α}
    (hterm : select (.production .term) = none)
    (hf : ∀ e rest a, es = e :: rest → select e = some a →
      Yields (f a) rest l fun used k is b => R (e :: used) k is b) :
    Yields (read expected select >>= f) es l R := by
  cases es with
  | nil =>
    intro n c ns b s hrun
    obtain ⟨a, s', hread, -⟩ := run_bind_eq_ok hrun
    cases hread
  | cons e rest =>
    cases he : select e with
    | none =>
      intro n c ns b s hrun
      obtain ⟨a, s', hread, -⟩ := run_bind_eq_ok hrun
      simp only [read, EStateM.run_bind, run_peek?, List.head?_cons, Option.bind_some, he] at hread
      cases hread
    | some a =>
      have hne : e ≠ .production .term := by
        rintro rfl
        cases hterm.symm.trans he
      exact Yields.passing hne (fun _ _ _ _ => run_read he) (hf e rest a rfl he)

theorem yields_advance {f : Unit → Compiler β} {e : Entry} (he : e ≠ .production .term)
    (hf : Yields (f ()) es l fun used k is b => R (e :: used) k is b) :
    Yields (advance >>= f) (e :: es) l R :=
  Yields.passing he (fun _ _ _ _ => rfl) hf

theorem yields_marker {p : Production} {f : Unit → Compiler β} (hp : p ≠ .term)
    (hf : ∀ rest, es = .production p :: rest →
      Yields (f ()) rest l fun used k is b => R (.production p :: used) k is b) :
    Yields (marker p >>= f) es l R := by
  have hterm : Entry.production .term ≠ .production p := fun h => hp (Entry.production.inj h).symm
  refine yields_read (if_neg hterm) fun e rest a hes he => ?_
  split at he
  · next h =>
    subst h
    exact hf rest hes
  · cases he

/-- Any token with the text is read as the word. -/
theorem yields_word {text : String} {f : Unit → Compiler β} (htext : text ≠ "")
    (hf : ∀ rest kind, es = .token kind text :: rest →
      Yields (f ()) rest l fun used k is b => R (.token kind text :: used) k is b) :
    Yields (word text >>= f) es l R := by
  have hterm : (Entry.production .term).text ≠ text := htext.symm
  refine yields_read (if_neg hterm) fun e rest a hes he => ?_
  split at he
  · next h =>
    cases e with
    | production p => exact absurd h.symm htext
    | token kind text' =>
      obtain rfl : text' = text := h
      exact hf rest kind hes
  · cases he

theorem yields_identifier {f : String → Compiler β}
    (hf : ∀ rest name, es = .token .identifier name :: rest →
      Yields (f name) rest l fun used k is b => R (.token .identifier name :: used) k is b) :
    Yields (identifier >>= f) es l R := by
  refine yields_read rfl fun e rest name hes he => ?_
  split at he
  · cases he
    exact hf rest _ hes
  · cases he

theorem yields_type {f : String → Compiler β}
    (hf : ∀ e rest name, es = e :: rest → (Lexeme.type name).Reads [e] →
      Yields (f name) rest l fun used k is b => R (e :: used) k is b) :
    Yields (type >>= f) es l R := by
  refine yields_read rfl fun e rest name hes he => ?_
  split at he
  · cases he
    exact hf _ rest _ hes (.inl rfl)
  · cases he
    exact hf _ rest _ hes (.inr rfl)
  · cases he

theorem yields_keyword {expected : String} {meaning? : String → Option α}
    (hf : ∀ rest text a, es = .token .keyword text :: rest → meaning? text = some a →
      Yields (f a) rest l fun used k is b => R (.token .keyword text :: used) k is b) :
    Yields (keyword expected meaning? >>= f) es l R := by
  refine yields_read rfl fun e rest a hes he => ?_
  split at he
  · exact hf rest _ a hes he
  · cases he

theorem yields_accept {kind : TokenKind} {text : String} {f : Bool → Compiler β}
    (htrue : ∀ rest, es = .token kind text :: rest →
      Yields (f true) rest l fun used k is b => R (.token kind text :: used) k is b)
    (hfalse : Yields (f false) es l R) : Yields (accept (.token kind text) >>= f) es l R := by
  by_cases h : es.head? = some (.token kind text)
  · obtain ⟨rest, rfl⟩ := List.head?_eq_some_iff.1 h
    exact Yields.passing (by rintro ⟨⟩) (fun _ _ _ _ => run_accept_self _) (htrue rest rfl)
  · have hlooks : Looks (accept (.token kind text)) es.head? false := by
      intro es' n l c ns hes'
      exact run_accept_of_ne (hes' ▸ h)
    exact hlooks.then hfalse

theorem head?_of_run_marker {p : Production} {n : Nat} {c : Vm.Code} {ns : Array Notice} {u : Unit}
    {s : CompilerState} (h : (marker p).run ⟨⟨es, n⟩, l, c, ns⟩ = .ok u s) :
    es.head? = some (.production p) := by
  rcases es with _ | ⟨e, rest⟩
  · cases h
  · by_cases he : e = .production p
    · exact congrArg some he
    · simp only [marker, read, EStateM.run_bind, run_peek?, List.head?_cons, Option.bind_some,
        if_neg he] at h
      cases h

/-- A term is passed by the compiler of terms. -/
theorem yields_term {scope : Scope} {bound : Nat} {Q : Reading Unit}
    (hbody : ∀ rest, es = .production .term :: rest →
      Yields (termBody scope (term scope bound) (expression scope bound) (arguments scope bound 0))
        rest l fun used k is a => Q (.production .term :: used) k is a) :
    Yields (term scope (bound + 1)) es l Q := by
  intro n c ns a s hrun
  obtain ⟨u, s', hmarker, hrun'⟩ := run_bind_eq_ok hrun
  obtain ⟨rest, rfl⟩ := List.head?_eq_some_iff.1 (head?_of_run_marker hmarker)
  rw [run_marker] at hmarker
  cases hmarker
  obtain ⟨used, rest', k, is, ns', rfl, rfl, hQ, hsettled, hterms⟩ :=
    hbody rest rfl _ _ _ a s hrun'
  have hfirst : Settled (marker .term) ⟨⟨.production .term :: (used ++ rest'), n⟩, l, c, ns⟩ ()
      ⟨⟨used ++ rest', n + 1⟩, l, c, ns⟩ [.production .term] [] := by
    intro rest c' _
    rw [Vm.Code.extend_nil]
    exact run_marker .term
  refine ⟨.production .term :: used, rest', k, is, ns', rfl, ?_, hQ, hfirst.bind hsettled rfl, ?_⟩
  · rw [List.length_cons, Nat.add_assoc, Nat.add_comm 1]
  · intro i hi
    cases i with
    | zero =>
      -- It is this term itself.
      exact emitsTerm_self hrun rfl
    | succ i =>
      have hcode : c = c.extend [] := (Vm.Code.extend_nil c).symm
      have hi : used[i]? = some (.production .term) := hi
      have hlater := EmitsTerm.next (f := fun _ => termBody scope (term scope bound)
        (expression scope bound) (arguments scope bound 0)) hfirst hcode rfl rfl rfl hi (hterms i hi)
      rw [Nat.add_comm i]
      exact hlater

/-! ## Emitting, taking ids and reporting -/

theorem yields_emitAll {is : List Instruction} {f : Unit → Compiler β}
    (hf : Yields (f ()) es l fun used k is' b => R used k (is ++ is') b) :
    Yields (emitAll is >>= f) es l R :=
  Yields.emitting (fun _ ns => ⟨ns, fun _ _ _ => run_emitAll is⟩) hf

theorem yields_emit {i : Instruction} {f : Unit → Compiler β}
    (hf : Yields (f ()) es l fun used k is b => R used k (i :: is) b) :
    Yields (emit i >>= f) es l R :=
  Yields.emitting (fun _ ns => ⟨ns, fun _ _ _ => run_emit i⟩) hf

theorem yields_takeLabel {f : Vm.LabelId → Compiler β}
    (hf : Yields (f l.peek) es l.advance fun used k is b => R used (k + 1) is b) :
    Yields (takeLabel >>= f) es l R := by
  have hm (n : Nat) (ns : Array Notice) : ∃ ns', ∀ es' c, es'.head? = es.head? →
      takeLabel.run ⟨⟨es', n⟩, l, c, ns⟩ =
        .ok l.peek ⟨⟨es', n⟩, l.skip 1, c.extend [], ns'⟩ :=
    ⟨ns, fun es' c _ => by rw [Vm.Code.extend_nil]; rfl⟩
  refine Yields.after hm (hf.mono fun used k is b hR => ?_)
  rwa [Nat.add_comm]

theorem yields_note {notice : Notice} {f : Unit → Compiler β} (hf : Yields (f ()) es l R) :
    Yields (note notice >>= f) es l R :=
  Yields.emitting
    (fun n ns => ⟨ns.push notice, fun es' c _ => by rw [Vm.Code.extend_nil]; rfl⟩) hf

/-! A step at the end of a compiler is followed by nothing. -/

theorem Yields.last (h : Yields (m >>= pure) es l Q) : Yields m es l Q := by
  rwa [bind_pure] at h

end Jack.Compiler
