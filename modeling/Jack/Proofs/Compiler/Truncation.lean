import Jack.Proofs.Compiler.Local
import Jack.Proofs.Grammar.Terms

/-!
# Trees that end too early

A compiler is run on some entries and on the first of them only. As long as there are entries left
for the second run, both do the same. Where they end, a look at the next entry finds nothing, and
from then on the second run may have come apart from the first. It still reads nothing any more, so
that it fails where an entry is needed.
-/

namespace Jack

open Compiler
open Grammar (LeadsCall)

/-- Entries, of which only the first ones are kept. -/
structure Cut where
  kept : List Entry
  lost : List Entry

namespace Cut

def whole (w : Cut) : List Entry := w.kept ++ w.lost

/-- The entries kept, which end or go on with the others. -/
def fork (w : Cut) : Fork := ⟨w.kept, [], w.lost⟩

/-- Why the entries kept need not compile. Either they end where one more is needed, or the last one
follows the marker of a term, is taken for an unknown variable and was the beginning of a call. -/
inductive Excuses (w : Cut) : Fault → Prop where
  | endOfTree (expected : String) : Excuses w (.endOfTree expected)
  | unresolved {n : Nat} {name : String} {e : Entry} :
    n + 2 = w.kept.length → w.whole[n]? = some (.production .term) →
      w.whole[n + 1]? = some (.token .identifier name) → w.whole[n + 2]? = some e →
      e.ContinuesCall → Excuses w (.unresolved name (.ofIndex (n + 1)))

abbrev Result (α : Type) := EStateM.Result Fault CompilerState α

/-- How a run on the entries kept from an index on compares with a run on all entries, of which
nothing may be known. Only where the entries kept end may the two come apart. Nothing is said if the
run on all entries fails. -/
inductive Follows (w : Cut) {α : Type} (apart : Prop) (n : Nat) (Q : Nat → α → Prop) :
    Result α → Option (Result α) → Prop where
  | along {n' : Nat} {a : α} {t : CompilerState} : n ≤ n' → w.fork.At n' t → Q n' a →
    Follows w apart n Q (.ok a t) (some (.ok a (w.fork.twin t)))
  | apart {n' : Nat} {a : α} {t : CompilerState} {r' : Option (Result α)} : apart →
    n' = w.kept.length → n ≤ n' → w.fork.At n' t → Q n' a → Follows w apart n Q (.ok a t) r'
  | excused {fault : Fault} {t : CompilerState} {r' : Option (Result α)} : w.Excuses fault →
    Follows w apart n Q (.error fault t) r'
  | failed {r : Result α} {fault : Fault} {t : CompilerState} :
    Follows w apart n Q r (some (.error fault t))

/-- A run on all entries beside one that begins at an index of the entries kept: it begins at the
same index, or the two runs have come apart. -/
inductive Beside (w : Cut) {α : Type} (apart : Prop) (n : Nat) (m' : Compiler α)
    (s : CompilerState) : Option (Result α) → Prop where
  | along : Beside w apart n m' s (some (m'.run (w.fork.twin s)))
  | apart : apart → n = w.kept.length → Beside w apart n m' s none

/-- What the first compiler does on the entries kept compares with what the second does on all
entries. They may be `apart` before, and `apart'` afterwards. -/
def Truncates (w : Cut) {α : Type} (apart apart' : Prop) (n : Nat) (m m' : Compiler α)
    (Q : Nat → α → Prop) : Prop :=
  ∀ s, w.fork.At n s → ∀ r', w.Beside apart n m' s r' → w.Follows apart' n Q (m.run s) r'

variable {w : Cut} {α β : Type} {apart apart' apart'' : Prop} {m m' : Compiler α}
  {f f' : α → Compiler β} {n n₀ : Nat} {Q R : Nat → α → Prop} {S : Nat → β → Prop}
  {s : CompilerState} {e : Entry} {r : Result α} {r' : Option (Result α)}

theorem entries_fork (w : Cut) : w.fork.entries = w.kept := List.append_nil _

theorem le_of_at (h : w.fork.At n s) : n ≤ w.kept.length := by
  rw [← entries_fork]
  exact h.le

theorem current?_of_at (h : w.fork.At n s) : s.cursor.current? = w.kept[n]? := by
  rw [h.current?, entries_fork]

theorem current?_twin_of_at (h : w.fork.At n s) (hn : n < w.kept.length) :
    (w.fork.twin s).cursor.current? = w.kept[n]? := by
  rw [h.current?_twin hn, entries_fork]

theorem lt_of_getElem? (he : w.kept[n]? = some e) : n < w.kept.length :=
  (List.getElem?_eq_some_iff.1 he).1

/-! ## Rules -/

/-- What is said without knowing the other run holds beside every run. -/
theorem Follows.any (h : w.Follows apart n Q r none) : w.Follows apart n Q r r' := by
  cases h with
  | apart ha hend hle ht hQ => exact .apart ha hend hle ht hQ
  | excused hfault => exact .excused hfault

theorem Follows.mono (h : w.Follows apart n Q r r') (hn : n₀ ≤ n) (ha : apart → apart')
    (hQ : ∀ n' a, n ≤ n' → Q n' a → R n' a) : w.Follows apart' n₀ R r r' := by
  cases h with
  | along hle ht hQ' => exact .along (Nat.le_trans hn hle) ht (hQ _ _ hle hQ')
  | apart ha' hend hle ht hQ' =>
    exact .apart (ha ha') hend (Nat.le_trans hn hle) ht (hQ _ _ hle hQ')
  | excused hfault => exact .excused hfault
  | failed => exact .failed

theorem Truncates.mono (h : w.Truncates apart apart' n m m' Q)
    (hQ : ∀ n' a, n ≤ n' → Q n' a → R n' a) : w.Truncates apart apart' n m m' R :=
  fun s hs r' hr' => (h s hs r' hr').mono (Nat.le_refl n) id hQ

/-- Runs that may have come apart need not have done so. -/
theorem Truncates.aligned (h : w.Truncates True apart' n m m' Q) :
    w.Truncates False apart' n m m' Q := by
  rintro s hs _ (_ | _)
  · exact h s hs _ .along
  · contradiction

theorem Truncates.bind (h : w.Truncates apart apart' n m m' Q)
    (hf : ∀ n' a, n ≤ n' → Q n' a → w.Truncates apart' apart'' n' (f a) (f' a) S) :
    w.Truncates apart apart'' n (m >>= f) (m' >>= f') S := by
  intro s hs r' hr'
  rw [EStateM.run_bind]
  cases hr' with
  | along =>
    have hm := h s hs _ .along
    rw [EStateM.run_bind]
    generalize m.run s = r at hm ⊢
    generalize m'.run (w.fork.twin s) = r' at hm ⊢
    cases hm with
    | along hle ht hQ => exact (hf _ _ hle hQ _ ht _ .along).mono hle id fun _ _ _ => id
    | apart ha hend hle ht hQ =>
      exact ((hf _ _ hle hQ _ ht none (.apart ha hend)).mono hle id fun _ _ _ => id).any
    | excused hfault => exact .excused hfault
    | failed => exact .failed
  | apart ha hend =>
    have hm := h s hs none (.apart ha hend)
    generalize m.run s = r at hm ⊢
    cases hm with
    | apart ha' hend' hle ht hQ =>
      exact (hf _ _ hle hQ _ ht none (.apart ha' hend')).mono hle id fun _ _ _ => id
    | excused hfault => exact .excused hfault

theorem truncates_pure {a : α} (ha : apart → apart') (h : Q n a) :
    w.Truncates apart apart' n (pure a) (pure a) Q := by
  intro s hs r' hr'
  cases hr' with
  | along => exact .along (Nat.le_refl n) hs h
  | apart happart hend => exact .apart (ha happart) hend (Nat.le_refl n) hs h

/-- The compiler fails from every state. -/
def Fails (m : Compiler α) : Prop := ∀ s, ∃ fault t, m.run s = .error fault t

theorem Fails.bind (h : Fails m) : Fails (m >>= f) := by
  intro s
  obtain ⟨fault, t, hrun⟩ := h s
  exact ⟨fault, t, by rw [EStateM.run_bind, hrun]⟩

theorem fails_bind (hf : ∀ a, Fails (f a)) : Fails (m >>= f) := by
  intro s
  rw [EStateM.run_bind]
  cases m.run s with
  | ok a t => exact hf a t
  | error fault t => exact ⟨fault, t, rfl⟩

theorem truncates_of_fails (h : Fails m') : w.Truncates False apart n m m' Q := by
  rintro s hs _ (_ | _)
  · obtain ⟨fault, t, hrun⟩ := h (w.fork.twin s)
    rw [hrun]
    exact .failed
  · contradiction

theorem truncates_throw {fault fault' : Fault} :
    w.Truncates False apart n (throw fault : Compiler α) (throw fault') Q :=
  truncates_of_fails fun s => ⟨fault', s, rfl⟩

/-- Where entries are left the runs have not come apart. -/
theorem Truncates.of_lt (hn : n < w.kept.length) (h : w.Truncates False apart' n m m' Q) :
    w.Truncates apart apart' n m m' Q := by
  rintro s hs _ (_ | ⟨-, hend⟩)
  · exact h s hs _ .along
  · omega

/-- Where no entries are left nothing has to be known of the second compiler. -/
theorem Truncates.stop (hn : w.kept.length ≤ n) (h : w.Truncates True apart n m m Q) :
    w.Truncates True apart n m m' Q := by
  intro s hs r' _
  have hend : n = w.kept.length := Nat.le_antisymm (le_of_at hs) hn
  exact (h s hs none (.apart trivial hend)).any

theorem truncates_position {f f' : Position → Compiler α}
    (h : w.Truncates apart apart' n (f (.ofIndex n)) (f' (.ofIndex n)) Q) :
    w.Truncates apart apart' n (position >>= f) (position >>= f') Q := by
  intro s hs r' hr'
  have hposition : (w.fork.twin s).cursor.position = .ofIndex n := by
    rw [← hs.position]
    rfl
  have hf : w.Follows apart' n Q ((f s.cursor.position).run s) r' := by
    rw [hs.position]
    cases hr' with
    | along =>
      apply h s hs
      rw [← hposition]
      exact .along
    | apart ha hend => exact h s hs none (.apart ha hend)
  exact hf

/-! ## Looking at the current entry -/

theorem truncates_look (look : Option Entry → α)
    (hlook : ∀ s, m.run s = .ok (look s.cursor.current?) s) :
    w.Truncates True True n m m fun n' a => n' = n ∧ a = look w.kept[n]? := by
  intro s hs r' hr'
  rw [hlook s, current?_of_at hs]
  by_cases hn : n < w.kept.length
  · cases hr' with
    | along =>
      rw [hlook (w.fork.twin s), current?_twin_of_at hs hn]
      exact .along (Nat.le_refl n) hs ⟨rfl, rfl⟩
    | apart _ hend => omega
  · -- Here the run on all entries may see one.
    have hle := le_of_at hs
    exact .apart trivial (by omega) (Nat.le_refl n) hs ⟨rfl, rfl⟩

theorem truncates_current? :
    w.Truncates True True n current? current? fun n' e? => n' = n ∧ e? = w.kept[n]? :=
  truncates_look id fun _ => rfl

theorem truncates_peek? (select : Entry → Option α) :
    w.Truncates True True n (peek? select) (peek? select) fun n' a =>
      n' = n ∧ a = w.kept[n]?.bind select :=
  truncates_look (Option.bind · select) fun _ => rfl

theorem truncates_atProduction (p : Production) :
    w.Truncates True True n (atProduction p) (atProduction p) fun n' b =>
      n' = n ∧ b = decide (w.kept[n]? = some (.production p)) :=
  truncates_look (fun e => decide (e = some (.production p))) fun _ => rfl

theorem truncates_atSymbol (text : String) :
    w.Truncates True True n (atSymbol text) (atSymbol text) fun n' _ => n' = n :=
  (truncates_look (fun e => decide (e = some (.token .symbol text))) fun _ => rfl).mono
    fun _ _ _ h => h.1

theorem truncates_atCall : w.Truncates True True n atCall atCall fun n' _ => n' = n := by
  apply (truncates_atSymbol "(").bind
  rintro _ isOwn _ rfl
  cases isOwn with
  | true => exact truncates_pure id rfl
  | false => exact truncates_atSymbol "."

theorem run_mismatch (expected : String) (s : CompilerState) :
    (mismatch expected : Compiler α).run s = .error (match s.cursor.current? with
      | some e => .mismatch expected e.describe s.cursor.position
      | none => .endOfTree expected) s := by
  show ((match s.cursor.current? with
    | some e => do throw (.mismatch expected e.describe (← position))
    | none => throw (.endOfTree expected)) : Compiler α).run s = _
  cases s.cursor.current? <;> rfl

/-- Whatever is expected, nothing is there where the entries kept end. -/
theorem truncates_mismatch (expected : String) :
    w.Truncates True apart n (mismatch expected : Compiler α) (mismatch expected) Q := by
  rintro s hs _ (_ | ⟨-, hend⟩)
  · rw [run_mismatch expected (w.fork.twin s)]
    exact .failed
  · have hcurrent : s.cursor.current? = none := by
      rw [current?_of_at hs, hend]
      exact List.getElem?_eq_none (Nat.le_refl _)
    rw [run_mismatch, hcurrent]
    exact .excused (.endOfTree expected)

/-! ## Passing entries -/

theorem truncates_advance (he : w.kept[n]? = some e) :
    w.Truncates apart apart' n advance advance fun n' _ => n' = n + 1 := by
  have hn := lt_of_getElem? he
  apply Truncates.of_lt hn
  rintro s hs _ (_ | _)
  · have hpass := hs.pass (entries_fork w ▸ hn)
    have htwin : advance.run (w.fork.twin s) = .ok () (w.fork.twin (Fork.pass s)) :=
      congrArg (EStateM.Result.ok ()) (hs.twin_pass hn).symm
    rw [htwin]
    exact .along (Nat.le_succ n) hpass rfl
  · contradiction

/-- An entry is read only where there is one, and so the runs have not come apart afterwards. -/
theorem truncates_read (expected : String) (select : Entry → Option α) :
    w.Truncates True apart n (read expected select) (read expected select) fun n' a =>
      n' = n + 1 ∧ ∃ e, w.kept[n]? = some e ∧ select e = some a := by
  apply (truncates_peek? select).bind
  rintro n a? _ ⟨rfl, ha⟩
  cases a? with
  | none => exact truncates_mismatch expected
  | some a =>
    obtain ⟨e, he, hselect⟩ := Option.bind_eq_some_iff.1 ha.symm
    have hadvance : w.Truncates True False n advance advance fun n' _ => n' = n + 1 :=
      truncates_advance he
    apply hadvance.bind
    rintro _ _ _ rfl
    exact truncates_pure False.elim ⟨rfl, e, he, hselect⟩

theorem truncates_marker (p : Production) :
    w.Truncates True apart n (marker p) (marker p) fun n' _ =>
      n' = n + 1 ∧ w.kept[n]? = some (.production p) := by
  refine (truncates_read _ _).mono ?_
  rintro _ _ _ ⟨rfl, e, he, hselect⟩
  split at hselect
  · next h => exact ⟨rfl, h ▸ he⟩
  · cases hselect

theorem truncates_word (text : String) :
    w.Truncates True apart n (word text) (word text) fun n' _ => n' = n + 1 :=
  (truncates_read _ _).mono fun _ _ _ h => h.1

theorem truncates_identifier :
    w.Truncates True apart n identifier identifier fun n' _ => n' = n + 1 :=
  (truncates_read _ _).mono fun _ _ _ h => h.1

theorem truncates_accept (e : Entry) :
    w.Truncates True True n (accept e) (accept e) fun n' _ => n ≤ n' := by
  apply truncates_current?.bind
  rintro n _ _ ⟨rfl, rfl⟩
  split
  · next he =>
    have hadvance : w.Truncates True True n advance advance fun n' _ => n' = n + 1 :=
      truncates_advance he
    apply hadvance.bind
    rintro _ _ _ rfl
    exact truncates_pure id (Nat.le_succ n)
  · exact truncates_pure id (Nat.le_refl n)

/-! ## Output -/

/-- A step that neither looks at entries nor passes one. -/
theorem truncates_silent (ha : apart → apart') (h : ∀ s, ∃ a t, m.run s = .ok a t ∧
      t.cursor = s.cursor ∧ m.run (w.fork.twin s) = .ok a (w.fork.twin t)) :
    w.Truncates apart apart' n m m fun n' _ => n' = n := by
  intro s hs r' hr'
  obtain ⟨a, t, hrun, hcursor, htwin⟩ := h s
  have ht : w.fork.At n t := ⟨hcursor.trans hs.cursor, hs.le⟩
  rw [hrun]
  cases hr' with
  | along =>
    rw [htwin]
    exact .along (Nat.le_refl n) ht rfl
  | apart happart hend => exact .apart (ha happart) hend (Nat.le_refl n) ht rfl

theorem truncates_emit (ha : apart → apart') (i : Vm.Instruction) :
    w.Truncates apart apart' n (emit i) (emit i) fun n' _ => n' = n :=
  truncates_silent ha fun _ => ⟨(), _, rfl, rfl, rfl⟩

theorem truncates_note (ha : apart → apart') (notice : Notice) :
    w.Truncates apart apart' n (note notice) (note notice) fun n' _ => n' = n :=
  truncates_silent ha fun _ => ⟨(), _, rfl, rfl, rfl⟩

theorem truncates_takeLabel : w.Truncates True True n takeLabel takeLabel fun n' _ => n' = n :=
  truncates_silent id fun _ => ⟨_, _, rfl, rfl, rfl⟩

theorem truncates_emitAll (ha : apart → apart') (is : List Vm.Instruction) :
    w.Truncates apart apart' n (emitAll is) (emitAll is) fun n' _ => n' = n := by
  induction is generalizing apart with
  | nil => exact truncates_pure ha rfl
  | cons i is ih =>
    apply (truncates_emit ha i).bind
    rintro _ _ _ rfl
    exact ih id

/-! ## Everywhere -/

/-- What happens from wherever at least `d` entries are passed. At least `e` are passed then. -/
def TruncatesFrom {α : Type} (w : Cut) (d e : Nat) (m m' : Compiler α) : Prop :=
  ∀ n, d ≤ n → w.Truncates True True n m m' fun n' _ => e ≤ n'

variable {d e g : Nat}

theorem TruncatesFrom.bind (h : w.TruncatesFrom d e m m')
    (hf : ∀ a, w.TruncatesFrom e g (f a) (f' a)) : w.TruncatesFrom d g (m >>= f) (m' >>= f') :=
  fun n hn => (h n hn).bind fun n' a _ hn' => hf a n' hn'

theorem Truncates.ge (h : w.Truncates apart apart' n m m' Q) (hn : d ≤ n) :
    w.Truncates apart apart' n m m' fun n' _ => d ≤ n' :=
  h.mono fun _ _ hle _ => Nat.le_trans hn hle

/-- What follows may be compared from everywhere. -/
theorem Truncates.then (h : w.Truncates apart True n m m' Q) (hn : d ≤ n)
    (hf : ∀ a, w.TruncatesFrom d e (f a) (f' a)) :
    w.Truncates apart True n (m >>= f) (m' >>= f') fun n' _ => e ≤ n' :=
  h.bind fun n' a hle _ => hf a n' (Nat.le_trans hn hle)

theorem truncatesFrom_of {Q : Nat → Nat → α → Prop}
    (h : ∀ n, w.Truncates True True n m m' (Q n)) : w.TruncatesFrom d d m m' :=
  fun n hn => (h n).ge hn

theorem TruncatesFrom.weaken (h : w.TruncatesFrom d e m m') (hg : g ≤ e) :
    w.TruncatesFrom d g m m' :=
  fun n hn => (h n hn).mono fun _ _ _ he => Nat.le_trans hg he

theorem TruncatesFrom.steady (h : w.TruncatesFrom d (d + 1) m m') : w.TruncatesFrom d d m m' :=
  h.weaken (Nat.le_succ d)

theorem TruncatesFrom.stop (hd : w.kept.length ≤ d) (h : w.TruncatesFrom d e m m) :
    w.TruncatesFrom d e m m' :=
  fun n hn => (h n hn).stop (Nat.le_trans hd hn)

theorem truncatesFrom_pure (a : α) : w.TruncatesFrom d d (pure a) (pure a) :=
  fun _ hn => truncates_pure id hn

theorem truncatesFrom_mismatch (expected : String) :
    w.TruncatesFrom d e (mismatch expected : Compiler α) (mismatch expected) :=
  fun _ _ => truncates_mismatch expected

theorem truncatesFrom_read (expected : String) (select : Entry → Option α) :
    w.TruncatesFrom d (d + 1) (read expected select) (read expected select) := by
  intro n hn
  refine (truncates_read expected select).mono ?_
  rintro _ _ _ ⟨rfl, -⟩
  exact Nat.succ_le_succ hn

theorem truncatesFrom_marker (p : Production) :
    w.TruncatesFrom d (d + 1) (marker p) (marker p) := truncatesFrom_read _ _

theorem truncatesFrom_word (text : String) : w.TruncatesFrom d d (word text) (word text) :=
  (truncatesFrom_read _ _).steady

theorem truncatesFrom_identifier : w.TruncatesFrom d d identifier identifier :=
  (truncatesFrom_read _ _).steady

theorem truncatesFrom_type : w.TruncatesFrom d d type type := (truncatesFrom_read _ _).steady

theorem truncatesFrom_keyword (expected : String) (meaning? : String → Option α) :
    w.TruncatesFrom d d (keyword expected meaning?) (keyword expected meaning?) :=
  (truncatesFrom_read _ _).steady

theorem truncatesFrom_emit (i : Vm.Instruction) : w.TruncatesFrom d d (emit i) (emit i) :=
  truncatesFrom_of fun _ => truncates_emit id i

theorem truncatesFrom_emitAll (is : List Vm.Instruction) :
    w.TruncatesFrom d d (emitAll is) (emitAll is) :=
  truncatesFrom_of fun _ => truncates_emitAll id is

theorem truncatesFrom_takeLabel : w.TruncatesFrom d d takeLabel takeLabel :=
  truncatesFrom_of fun _ => truncates_takeLabel

theorem truncatesFrom_note (notice : Notice) : w.TruncatesFrom d d (note notice) (note notice) :=
  truncatesFrom_of fun _ => truncates_note id notice

theorem truncatesFrom_peek? (select : Entry → Option α) :
    w.TruncatesFrom d d (peek? select) (peek? select) :=
  truncatesFrom_of fun _ => truncates_peek? select

theorem truncatesFrom_atProduction (p : Production) :
    w.TruncatesFrom d d (atProduction p) (atProduction p) :=
  truncatesFrom_of fun _ => truncates_atProduction p

theorem truncatesFrom_atSymbol (text : String) :
    w.TruncatesFrom d d (atSymbol text) (atSymbol text) :=
  truncatesFrom_of fun _ => truncates_atSymbol text

theorem truncatesFrom_atCall : w.TruncatesFrom d d atCall atCall :=
  truncatesFrom_of fun _ => truncates_atCall

theorem truncatesFrom_accept (e : Entry) : w.TruncatesFrom d d (accept e) (accept e) :=
  truncatesFrom_of fun _ => truncates_accept e

end Cut

end Jack
