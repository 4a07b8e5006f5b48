import Jack.Compiler.ClassCode
import Jack.Proofs.Grammar.Branches
import Jack.Proofs.Vm.Relabel

/-!
# Two runs side by side

The same entries are compiled twice, with label ids from two supplies. Step by step the two runs
pass the same entries, report the same and emit the same code up to label names. The number of ids
that are taken is always the number of `if` and `while` markers that are passed.
-/

namespace Jack

/-- The fault names the entry with the given index, or the end if it names none. A position keeps
the low 32 bits of an index, which are the index itself unless the tree has more entries. -/
def Fault.At (fault : Fault) (entries : List Entry) (index : Nat) : Prop :=
  match fault.pos? with
  | some pos => pos = .ofIndex index ∧ index ≤ entries.length
  | none => index = entries.length

/-- Two compilations of the same entries. -/
structure Comparison where
  entries : List Entry
  labels : Vm.LabelSupply
  labels' : Vm.LabelSupply

namespace Comparison

variable (w : Comparison)

/-- Between the two indices no id is taken. -/
structure Quiet (m n : Nat) : Prop where
  le : m ≤ n
  count : branchCount (w.entries.take m) = branchCount (w.entries.take n)

/-- The states of the two compilations when `n` entries are passed. -/
structure Alike (n : Nat) (s s' : CompilerState) : Prop where
  cursor : s.cursor = ⟨w.entries.drop n, n⟩
  cursor' : s'.cursor = ⟨w.entries.drop n, n⟩
  le : n ≤ w.entries.length
  labels : s.labels = w.labels.skip (branchCount (w.entries.take n))
  labels' : s'.labels = w.labels'.skip (branchCount (w.entries.take n))
  notices : s'.notices = s.notices
  code : Vm.CodeRelabelled w.labels.upcoming w.labels'.upcoming s.code.toList s'.code.toList

/-- Both runs succeed with one result, or they fail with one fault. -/
inductive Coincide {α : Type} (Q : Nat → α → Prop) :
    EStateM.Result Fault CompilerState α → EStateM.Result Fault CompilerState α → Prop where
  | ok {n : Nat} {a : α} {s s' : CompilerState} :
    w.Alike n s s' → Q n a → Coincide Q (.ok a s) (.ok a s')
  | error {n m : Nat} {fault : Fault} {s s' : CompilerState} :
    w.Alike n s s' → fault.At w.entries m → w.Quiet m n →
      Coincide Q (.error fault s) (.error fault s')

/-- Wherever the two runs stand alike with `n` entries passed, they go on alike. What is said of the
end is said of the number of entries that are passed by then, and of the result. -/
def Parallel {α : Type} (n : Nat) (m m' : Compiler α) (Q : Nat → α → Prop) : Prop :=
  ∀ s s', w.Alike n s s' → w.Coincide Q (m.run s) (m'.run s')

/-- The two runs of one compiler go on alike from everywhere. -/
def Uniform {α : Type} (m : Compiler α) : Prop := ∀ n, w.Parallel n m m fun _ _ => True

variable {w} {α β : Type} {n : Nat} {m m' : Compiler α} {f f' : α → Compiler β}
  {Q : Nat → α → Prop} {R : Nat → β → Prop}

theorem quiet_refl (n : Nat) : w.Quiet n n := ⟨Nat.le_refl n, rfl⟩

theorem Quiet.trans {i j k : Nat} (h : w.Quiet i j) (h' : w.Quiet j k) : w.Quiet i k :=
  ⟨Nat.le_trans h.le h'.le, h.count.trans h'.count⟩

theorem quiet_succ {e : Entry} (he : w.entries[n]? = some e) (hlabel : e.takesLabel = false) :
    w.Quiet n (n + 1) := by
  refine ⟨Nat.le_succ n, ?_⟩
  rw [branchCount_take_succ he, hlabel]
  rfl

/-! ## Sequences -/

theorem Parallel.bind (h : w.Parallel n m m' Q)
    (hf : ∀ n' a, Q n' a → w.Parallel n' (f a) (f' a) R) :
    w.Parallel n (m >>= f) (m' >>= f') R := by
  intro s s' hs
  have hfirst := h s s' hs
  rw [EStateM.run_bind, EStateM.run_bind]
  generalize m.run s = r at hfirst
  generalize m'.run s' = r' at hfirst
  cases hfirst with
  | ok hs' hQ => exact hf _ _ hQ _ _ hs'
  | error hs' hat hquiet => exact .error hs' hat hquiet

theorem Parallel.mono {Q' : Nat → α → Prop} (h : w.Parallel n m m' Q)
    (hQ : ∀ n' a, Q n' a → Q' n' a) : w.Parallel n m m' Q' := by
  intro s s' hs
  have hrun := h s s' hs
  generalize m.run s = r at hrun
  generalize m'.run s' = r' at hrun
  cases hrun with
  | ok hs' h => exact .ok hs' (hQ _ _ h)
  | error hs' hat hquiet => exact .error hs' hat hquiet

theorem Parallel.top (h : w.Parallel n m m' Q) : w.Parallel n m m' fun _ _ => True :=
  h.mono fun _ _ _ => trivial

theorem Uniform.bind (h : w.Uniform m) (hf : ∀ a, w.Uniform (f a)) : w.Uniform (m >>= f) :=
  fun n => (h n).bind fun n' a _ => hf a n'

/-- What follows does the same from everywhere. -/
theorem Parallel.then (h : w.Parallel n m m' Q) (hf : ∀ a, w.Uniform (f a)) :
    w.Parallel n (m >>= f) (m' >>= f) fun _ _ => True :=
  h.bind fun n' a _ => hf a n'

theorem parallel_pure {a : α} (h : Q n a) : w.Parallel n (pure a) (pure a) Q :=
  fun _ _ hs => .ok hs h

theorem uniform_pure (a : α) : w.Uniform (pure a : Compiler α) := fun _ => parallel_pure trivial

/-- A fault may name an entry that is already passed. -/
theorem parallel_throw {fault : Fault} {i : Nat} (hpos : fault.pos? = some (.ofIndex i))
    (hi : w.Quiet i n) : w.Parallel n (throw fault : Compiler α) (throw fault) Q := by
  intro s s' hs
  have hat : fault.At w.entries i := by
    unfold Fault.At
    rw [hpos]
    exact ⟨rfl, Nat.le_trans hi.le hs.le⟩
  exact .error hs hat hi

open Compiler

/-! ## Looking at the current entry -/

/-- The step looks at the current entry and leaves every state as it is. -/
theorem parallel_look (look : Option Entry → α)
    (hlook : ∀ s, m.run s = .ok (look s.cursor.current?) s) :
    w.Parallel n m m fun n' a => n' = n ∧ a = look w.entries[n]? := by
  intro s s' hs
  have hcurrent : s.cursor.current? = w.entries[n]? := by rw [hs.cursor]; exact List.head?_drop
  have hcurrent' : s'.cursor.current? = w.entries[n]? := by rw [hs.cursor']; exact List.head?_drop
  rw [hlook s, hlook s', hcurrent, hcurrent']
  exact .ok hs ⟨rfl, rfl⟩

theorem parallel_current? :
    w.Parallel n current? current? fun n' e => n' = n ∧ e = w.entries[n]? :=
  parallel_look id fun _ => rfl

theorem parallel_peek? (select : Entry → Option α) :
    w.Parallel n (peek? select) (peek? select) fun n' a =>
      n' = n ∧ a = w.entries[n]?.bind select :=
  parallel_look (Option.bind · select) fun _ => rfl

theorem parallel_atProduction (p : Production) :
    w.Parallel n (atProduction p) (atProduction p) fun n' b =>
      n' = n ∧ b = decide (w.entries[n]? = some (.production p)) :=
  parallel_look (fun e => decide (e = some (.production p))) fun _ => rfl

theorem parallel_atSymbol (text : String) :
    w.Parallel n (atSymbol text) (atSymbol text) fun n' _ => n' = n :=
  (parallel_look (fun e => decide (e = some (.token .symbol text))) fun _ => rfl).mono
    fun _ _ h => h.1

theorem parallel_atCall : w.Parallel n atCall atCall fun n' _ => n' = n := by
  apply (parallel_atSymbol "(").bind
  rintro _ isOwn rfl
  cases isOwn with
  | true => exact parallel_pure rfl
  | false => exact parallel_atSymbol "."

theorem parallel_position :
    w.Parallel n position position fun n' pos => n' = n ∧ pos = .ofIndex n := by
  intro s s' hs
  have hposition : s.cursor.position = .ofIndex n := by rw [hs.cursor]; rfl
  have hposition' : s'.cursor.position = .ofIndex n := by rw [hs.cursor']; rfl
  show w.Coincide _ (.ok s.cursor.position s) (.ok s'.cursor.position s')
  rw [hposition, hposition']
  exact .ok hs ⟨rfl, rfl⟩

theorem parallel_mismatch (expected : String) :
    w.Parallel n (mismatch expected : Compiler α) (mismatch expected) Q := by
  apply parallel_current?.bind
  rintro n _ ⟨rfl, rfl⟩
  cases he : w.entries[n]? with
  | some e =>
    apply parallel_position.bind
    rintro n _ ⟨rfl, rfl⟩
    exact parallel_throw rfl (quiet_refl n)
  | none =>
    intro s s' hs
    have hend : n = w.entries.length :=
      Nat.le_antisymm hs.le (List.getElem?_eq_none_iff.1 he)
    exact .error hs hend (quiet_refl n)

/-! ## Passing entries -/

theorem advance_drop {e : Entry} (he : w.entries[n]? = some e) :
    (⟨w.entries.drop n, n⟩ : Cursor).advance = ⟨w.entries.drop (n + 1), n + 1⟩ := by
  obtain ⟨hn, rfl⟩ := List.getElem?_eq_some_iff.1 he
  rw [List.drop_eq_getElem_cons hn]
  rfl

theorem parallel_advance {e : Entry} (he : w.entries[n]? = some e)
    (hlabel : e.takesLabel = false) :
    w.Parallel n advance advance fun n' _ => w.Quiet n n' := by
  intro s s' hs
  have hn : n < w.entries.length := (List.getElem?_eq_some_iff.1 he).1
  have hquiet := quiet_succ he hlabel
  have hcursor : s.cursor.advance = ⟨w.entries.drop (n + 1), n + 1⟩ := by
    rw [hs.cursor, advance_drop he]
  have hcursor' : s'.cursor.advance = ⟨w.entries.drop (n + 1), n + 1⟩ := by
    rw [hs.cursor', advance_drop he]
  exact .ok ⟨hcursor, hcursor', hn, hquiet.count ▸ hs.labels, hquiet.count ▸ hs.labels',
    hs.notices, hs.code⟩ hquiet

theorem parallel_read (expected : String) {select : Entry → Option α}
    (hselect : ∀ e a, select e = some a → e.takesLabel = false) :
    w.Parallel n (read expected select) (read expected select) fun n' _ => w.Quiet n n' := by
  apply (parallel_peek? select).bind
  rintro n _ ⟨rfl, rfl⟩
  cases he : w.entries[n]? with
  | none => exact parallel_mismatch expected
  | some e =>
    rw [Option.bind_some]
    cases ha : select e with
    | none => exact parallel_mismatch expected
    | some a =>
      apply (parallel_advance he (hselect e a ha)).bind
      intro n' _ hquiet
      exact parallel_pure hquiet

theorem uniform_read (expected : String) {select : Entry → Option α}
    (hselect : ∀ e a, select e = some a → e.takesLabel = false) :
    w.Uniform (read expected select) := fun _ => (parallel_read expected hselect).top

theorem uniform_marker {p : Production} (hp : (Entry.production p).takesLabel = false) :
    w.Uniform (marker p) := by
  apply uniform_read
  intro e a he
  split at he
  · next h => rw [h, hp]
  · cases he

theorem uniform_word {text : String} (htext : text ≠ "") : w.Uniform (word text) := by
  apply uniform_read
  intro e a he
  split at he
  · next h =>
    cases e with
    | production p => exact absurd h.symm htext
    | token kind text => rfl
  · cases he

theorem parallel_identifier : w.Parallel n identifier identifier fun n' _ => w.Quiet n n' := by
  apply parallel_read
  intro e a he
  cases e with
  | production p => cases he
  | token kind text => rfl

theorem uniform_identifier : w.Uniform identifier := fun _ => parallel_identifier.top

theorem uniform_type : w.Uniform type := by
  apply uniform_read
  intro e a he
  cases e with
  | production p => cases he
  | token kind text => rfl

theorem uniform_keyword (expected : String) (meaning? : String → Option α) :
    w.Uniform (keyword expected meaning?) := by
  apply uniform_read
  intro e a he
  cases e with
  | production p => cases he
  | token kind text => rfl

theorem parallel_accept {e : Entry} (hlabel : e.takesLabel = false) :
    w.Parallel n (accept e) (accept e) fun n' _ => w.Quiet n n' := by
  apply parallel_current?.bind
  rintro n _ ⟨rfl, rfl⟩
  by_cases he : w.entries[n]? = some e
  · rw [if_pos he]
    apply (parallel_advance he hlabel).bind
    intro n' _ hquiet
    exact parallel_pure hquiet
  · rw [if_neg he]
    exact parallel_pure (quiet_refl n)

theorem uniform_accept {e : Entry} (hlabel : e.takesLabel = false) : w.Uniform (accept e) :=
  fun _ => (parallel_accept hlabel).top

/-! ## Output -/

theorem uniform_note (notice : Notice) : w.Uniform (note notice) := by
  intro n s s' hs
  have hnotices : s'.notices.push notice = s.notices.push notice := by rw [hs.notices]
  exact .ok ⟨hs.cursor, hs.cursor', hs.le, hs.labels, hs.labels', hnotices, hs.code⟩ trivial

theorem parallel_emit {i i' : Vm.Instruction}
    (h : i.Relabelled w.labels.upcoming w.labels'.upcoming i') :
    w.Parallel n (emit i) (emit i') fun n' _ => n' = n := by
  intro s s' hs
  have hcode : Vm.CodeRelabelled w.labels.upcoming w.labels'.upcoming (s.code.emit i).toList
      (s'.code.emit i').toList := by
    rw [Vm.Code.toList_emit, Vm.Code.toList_emit]
    exact hs.code.append (.cons h .nil)
  exact .ok ⟨hs.cursor, hs.cursor', hs.le, hs.labels, hs.labels', hs.notices, hcode⟩ rfl

theorem parallel_emitAll {is is' : List Vm.Instruction}
    (h : Vm.CodeRelabelled w.labels.upcoming w.labels'.upcoming is is') :
    w.Parallel n (emitAll is) (emitAll is') fun n' _ => n' = n := by
  induction h with
  | nil => exact parallel_pure rfl
  | cons hi _ ih =>
    apply (parallel_emit hi).bind
    rintro _ _ rfl
    exact ih

/-- An instruction without a label name is emitted in both runs. -/
theorem uniform_emit {i : Vm.Instruction} (h : i.isControl = false) : w.Uniform (emit i) :=
  fun _ => (parallel_emit (.same h)).top

theorem uniform_emitAll {is : List Vm.Instruction} (h : ∀ i ∈ is, i.isControl = false) :
    w.Uniform (emitAll is) :=
  fun _ => (parallel_emitAll (Vm.codeRelabelled_same h)).top

/-! ## Label ids -/

theorem parallel_marker_of_ne {p : Production} (he : w.entries[n]? ≠ some (.production p))
    {Q : Nat → Unit → Prop} : w.Parallel n (marker p) (marker p) Q := by
  apply (parallel_peek? _).bind
  rintro n _ ⟨rfl, rfl⟩
  cases hentry : w.entries[n]? with
  | none => exact parallel_mismatch _
  | some e =>
    have hne : e ≠ .production p := fun h => he (by rw [hentry, h])
    rw [Option.bind_some, if_neg hne]
    exact parallel_mismatch _

theorem run_marker_takeLabel {p : Production} {s : CompilerState}
    (h : s.cursor.current? = some (.production p)) (f : Vm.LabelId → Compiler β) :
    (do marker p; let id ← takeLabel; f id : Compiler β).run s =
      (f s.labels.peek).run
        { s with cursor := s.cursor.advance, labels := s.labels.advance } := by
  have hmarker : (marker p).run s = .ok () { s with cursor := s.cursor.advance } := by
    have hpeek : ∀ select : Entry → Option Unit,
        (peek? select).run s = .ok (s.cursor.current?.bind select) s := fun _ => rfl
    rw [marker, Compiler.read, EStateM.run_bind, hpeek, h, Option.bind_some, if_pos rfl]
    rfl
  rw [EStateM.run_bind, hmarker]
  rfl

/-- The marker of an `if` or `while` and its id go together: what follows is given the same id of
the two supplies. -/
theorem parallel_branch {p : Production} (hp : (Entry.production p).takesLabel = true)
    {f : Vm.LabelId → Compiler β}
    (hf : ∀ n k, w.Parallel n (f (w.labels.upcoming k)) (f (w.labels'.upcoming k)) R) :
    w.Parallel n (do marker p; let id ← takeLabel; f id) (do marker p; let id ← takeLabel; f id)
      R := by
  by_cases he : w.entries[n]? = some (.production p)
  · intro s s' hs
    have hcurrent : s.cursor.current? = some (.production p) := by
      rw [hs.cursor, ← he]
      exact List.head?_drop
    have hcurrent' : s'.cursor.current? = some (.production p) := by
      rw [hs.cursor', ← he]
      exact List.head?_drop
    have hn : n < w.entries.length := (List.getElem?_eq_some_iff.1 he).1
    -- The marker is one more entry that takes an id, and one more id is taken.
    have hcount : branchCount (w.entries.take (n + 1)) = branchCount (w.entries.take n) + 1 := by
      rw [branchCount_take_succ he, hp]
      rfl
    rw [run_marker_takeLabel hcurrent, run_marker_takeLabel hcurrent', hs.labels, hs.labels']
    apply hf (n + 1) (branchCount (w.entries.take n))
    refine ⟨?_, ?_, hn, ?_, ?_, hs.notices, hs.code⟩
    · rw [hs.cursor, advance_drop he]
    · rw [hs.cursor', advance_drop he]
    · rw [hcount]
      rfl
    · rw [hcount]
      rfl
  · exact (parallel_marker_of_ne (Q := fun _ _ => False) he).bind fun _ _ h => h.elim

end Comparison

end Jack
