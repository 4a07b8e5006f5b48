import Jack.Proofs.Compiler.Run
import Jack.Proofs.Vm.Relabel

/-!
# Compilers in lockstep

Two compilers are in lockstep as long as the entries they see are the same. They may begin at
different positions, be bounded differently, and go on to different entries once the common ones are
passed. Then whatever one of them does before it looks past the common entries the other does too.
-/

namespace Jack.Vm

theorem LabelSupply.skip_injective {labels : LabelSupply} {j k : Nat}
    (h : labels.skip j = labels.skip k) : j = k := by
  have htaken := congrArg LabelSupply.taken h
  rwa [taken_skip, taken_skip, Nat.add_right_inj] at htaken

theorem LabelSupply.upcoming_skip {labels labels' : LabelSupply}
    (h : labels'.upcoming = labels.upcoming) (k : Nat) :
    (labels'.skip k).upcoming = (labels.skip k).upcoming := by
  funext j
  show labels'.ids (labels'.taken + k + j) = labels.ids (labels.taken + k + j)
  rw [Nat.add_assoc, Nat.add_assoc]
  exact congrFun h (k + j)

theorem Code.extend_injective {code : Code} {is js : List Instruction}
    (h : code.extend is = code.extend js) : is = js := by
  have hlist := congrArg Code.toList h
  rwa [toList_extend, toList_extend, List.append_right_inj] at hlist

end Jack.Vm

namespace Jack.Cursor

variable {c c' c'' : Cursor}

/-- One cursor comes from another by passing entries. -/
def Passes (c c' : Cursor) : Prop :=
  ∃ used, c.rest = used ++ c'.rest ∧ c'.passed = c.passed + used.length

theorem passes_refl (c : Cursor) : c.Passes c := ⟨[], rfl, rfl⟩

theorem Passes.trans (h : c.Passes c') (h' : c'.Passes c'') : c.Passes c'' := by
  obtain ⟨used, hrest, hpassed⟩ := h
  obtain ⟨used', hrest', hpassed'⟩ := h'
  refine ⟨used ++ used', ?_, ?_⟩
  · rw [hrest, hrest', List.append_assoc]
  · rw [hpassed', hpassed, List.length_append, Nat.add_assoc]

theorem Passes.le (h : c.Passes c') : c.passed ≤ c'.passed := by
  obtain ⟨used, -, hpassed⟩ := h
  rw [hpassed]
  exact Nat.le_add_right ..

theorem passes_advance (c : Cursor) : c.Passes c.advance := by
  obtain ⟨_ | ⟨e, es⟩, n⟩ := c
  · exact passes_refl _
  · exact ⟨[e], rfl, rfl⟩

end Jack.Cursor

namespace Jack.Compiler

open Vm (Instruction)

variable {α β : Type} {m m' : Compiler α} {f f' : α → Compiler β}

/-- A compiler never goes back. -/
def Forward (m : Compiler α) : Prop :=
  ∀ s, match m.run s with
    | .ok _ s' | .error _ s' => s.cursor.Passes s'.cursor

/-- Two compilers that take the same steps. Of the common entries, `d` are passed before at least
and `e` afterwards. Where all common entries are passed already, nothing is said of the second
compiler. The positions they know are the same if they are `aligned`. -/
inductive Lockstep (limit : Nat) (aligned : Prop) :
    Nat → Nat → {α : Type} → Compiler α → Compiler α → Prop where
  | pure {d α} (a : α) : Lockstep limit aligned d d (pure a) (pure a)
  | bind {d e g α β} {m m' : Compiler α} {f f' : α → Compiler β} :
    Lockstep limit aligned d e m m' → (∀ a, Lockstep limit aligned e g (f a) (f' a)) →
      Lockstep limit aligned d g (m >>= f) (m' >>= f')
  | throw {d e α} {fault fault' : Fault} : (aligned → fault = fault') →
      Lockstep limit aligned d e (throw fault : Compiler α) (throw fault')
  | position {d e α} {f f' : Position → Compiler α} :
    (∀ pos pos', (aligned → pos = pos') → Lockstep limit aligned d e (f pos) (f' pos')) →
      Lockstep limit aligned d e (position >>= f) (position >>= f')
  | current {d} : Lockstep limit aligned d d current? current?
  | advance {d} : Lockstep limit aligned d (d + 1) advance advance
  | emit {d} (i : Instruction) : Lockstep limit aligned d d (emit i) (emit i)
  | takeLabel {d} : Lockstep limit aligned d d takeLabel takeLabel
  | note {d} (notice : Notice) : Lockstep limit aligned d d (note notice) (note notice)
  | stop {d e α} {m m' : Compiler α} : limit ≤ d → Forward m → Lockstep limit aligned d e m m'
  | weaken {d d' e e' α} {m m' : Compiler α} : Lockstep limit aligned d e m m' → d ≤ d' →
      e' ≤ e → Lockstep limit aligned d' e' m m'

/-! ## Forward compilers -/

theorem Forward.bind (h : Forward m) (hf : ∀ a, Forward (f a)) : Forward (m >>= f) := by
  intro s
  have hm := h s
  rw [EStateM.run_bind]
  cases hrun : m.run s with
  | ok a t =>
    rw [hrun] at hm
    have hfa := hf a t
    dsimp only
    split
    · next h' =>
      rw [h'] at hfa
      exact hm.trans hfa
    · next h' =>
      rw [h'] at hfa
      exact hm.trans hfa
  | error fault t =>
    rw [hrun] at hm
    exact hm

theorem forward_advance : Forward advance := fun s => s.cursor.passes_advance

theorem Forward.passes {a : α} {es rest : List Entry} {n n' : Nat} {l l' : Vm.LabelSupply}
    {c c' : Vm.Code} {ns ns' : Array Notice} (h : Forward m)
    (hrun : m.run ⟨⟨es, n⟩, l, c, ns⟩ = .ok a ⟨⟨rest, n'⟩, l', c', ns'⟩) :
    ∃ used, es = used ++ rest ∧ n' = n + used.length := by
  have hs := h ⟨⟨es, n⟩, l, c, ns⟩
  rw [hrun] at hs
  exact hs

variable {limit d e : Nat} {aligned : Prop}

theorem Lockstep.forward (h : Lockstep limit aligned d e m m') : Forward m := by
  induction h with
  | pure a => exact fun s => s.cursor.passes_refl
  | bind _ _ ihm ihf => exact ihm.bind ihf
  | throw _ => exact fun s => s.cursor.passes_refl
  | @position d e α f f' _ ih =>
    have hposition : Forward Compiler.position := fun s => s.cursor.passes_refl
    exact hposition.bind fun pos => ih pos pos fun _ => rfl
  | current => exact fun s => s.cursor.passes_refl
  | advance => exact forward_advance
  | emit i => exact fun s => s.cursor.passes_refl
  | takeLabel => exact fun s => s.cursor.passes_refl
  | note notice => exact fun s => s.cursor.passes_refl
  | stop _ hm => exact hm
  | weaken _ _ _ ih => exact ih

end Jack.Compiler

namespace Jack

open Compiler
open Vm (Instruction LabelSupply)

/-- Two compilations whose next entries are the same. -/
structure Overlap where
  common : List Entry
  /-- The entries after the common ones. -/
  tail : List Entry
  tail' : List Entry
  /-- The index of the first common entry. -/
  offset : Nat
  offset' : Nat
  labels : LabelSupply
  labels' : LabelSupply
  code : Vm.Code
  code' : Vm.Code
  upcoming_eq : labels'.upcoming = labels.upcoming

namespace Overlap

variable {w : Overlap}

/-- The states of the two compilations when `n` of the common entries are passed. The same number of
ids has been taken, and the same code has been emitted. -/
structure Alike (w : Overlap) (n : Nat) (s s' : CompilerState) : Prop where
  cursor : s.cursor = ⟨w.common.drop n ++ w.tail, w.offset + n⟩
  cursor' : s'.cursor = ⟨w.common.drop n ++ w.tail', w.offset' + n⟩
  le : n ≤ w.common.length
  output : ∃ k is, s.labels = w.labels.skip k ∧ s'.labels = w.labels'.skip k ∧
    s.code = w.code.extend is ∧ s'.code = w.code'.extend is

/-- Both runs succeed with one result or both fail, unless the first has passed all common
entries. -/
inductive Coincide (w : Overlap) {α : Type} (e : Nat) :
    EStateM.Result Fault CompilerState α → EStateM.Result Fault CompilerState α → Prop where
  | ok {n : Nat} {a : α} {s s' : CompilerState} :
    e ≤ n → w.Alike n s s' → Coincide w e (.ok a s) (.ok a s')
  | error {fault fault' : Fault} {s s' : CompilerState} :
    (w.offset = w.offset' → fault = fault') → Coincide w e (.error fault s) (.error fault' s')
  | pastOk {a : α} {s : CompilerState} {r' : EStateM.Result Fault CompilerState α} :
    w.offset + w.common.length ≤ s.cursor.passed → Coincide w e (.ok a s) r'
  | pastError {fault : Fault} {s : CompilerState} {r' : EStateM.Result Fault CompilerState α} :
    w.offset + w.common.length ≤ s.cursor.passed → Coincide w e (.error fault s) r'

variable {α β : Type} {m m' : Compiler α} {f f' : α → Compiler β} {d e n : Nat}
  {s s' : CompilerState}

theorem Alike.passed (h : w.Alike n s s') : s.cursor.passed = w.offset + n := by rw [h.cursor]

/-- As long as not all common entries are passed, both runs see the same one. -/
theorem Alike.current? (h : w.Alike n s s') (hn : n < w.common.length) :
    s.cursor.current? = some w.common[n] ∧ s'.cursor.current? = some w.common[n] := by
  rw [h.cursor, h.cursor', List.drop_eq_getElem_cons hn]
  exact ⟨rfl, rfl⟩

theorem Alike.advance (h : w.Alike n s s') (hn : n < w.common.length) :
    w.Alike (n + 1) { s with cursor := s.cursor.advance }
      { s' with cursor := s'.cursor.advance } := by
  refine ⟨?_, ?_, hn, h.output⟩
  · show s.cursor.advance = _
    rw [h.cursor, List.drop_eq_getElem_cons hn]
    rfl
  · show s'.cursor.advance = _
    rw [h.cursor', List.drop_eq_getElem_cons hn]
    rfl

theorem Coincide.weaken {e' : Nat} {r r' : EStateM.Result Fault CompilerState α}
    (h : w.Coincide e r r') (he : e' ≤ e) : w.Coincide e' r r' := by
  cases h with
  | ok hn ht => exact .ok (Nat.le_trans he hn) ht
  | error hfault => exact .error hfault
  | pastOk hpast => exact .pastOk hpast
  | pastError hpast => exact .pastError hpast

/-- A run that has passed all common entries does not come back. -/
theorem coincide_of_past {r' : EStateM.Result Fault CompilerState α} (hm : Forward m)
    (hs : w.offset + w.common.length ≤ s.cursor.passed) : w.Coincide e (m.run s) r' := by
  have hforward := hm s
  cases hrun : m.run s with
  | ok a t =>
    rw [hrun] at hforward
    exact .pastOk (Nat.le_trans hs hforward.le)
  | error fault t =>
    rw [hrun] at hforward
    exact .pastError (Nat.le_trans hs hforward.le)

theorem coincide_bind {g : Nat}
    (hm : w.Coincide e (m.run s) (m'.run s')) (hforward : ∀ a, Forward (f a))
    (hf : ∀ a {n t t'}, e ≤ n → w.Alike n t t' → w.Coincide g ((f a).run t) ((f' a).run t')) :
    w.Coincide g ((m >>= f).run s) ((m' >>= f').run s') := by
  rw [EStateM.run_bind, EStateM.run_bind]
  generalize m.run s = r at hm
  generalize m'.run s' = r' at hm
  cases hm with
  | ok hn ht => exact hf _ hn ht
  | error hfault => exact .error hfault
  | pastOk hpast => exact coincide_of_past (hforward _) hpast
  | pastError hpast => exact .pastError hpast

/-- Compilers in lockstep run alike, until the first has passed all common entries. -/
theorem coincide (h : Lockstep w.common.length (w.offset = w.offset') d e m m') :
    ∀ {n s s'}, d ≤ n → w.Alike n s s' → w.Coincide e (m.run s) (m'.run s') := by
  induction h with
  | pure a => exact fun hn hs => .ok hn hs
  | bind _ hf ihm ihf =>
    exact fun hn hs => coincide_bind (ihm hn hs) (fun a => (hf a).forward) ihf
  | throw hfault => exact fun _ _ => .error hfault
  | @position d e α f f' _ ih =>
    intro n s s' hn hs
    have hpos : w.offset = w.offset' → s.cursor.position = s'.cursor.position := by
      intro hoffset
      rw [hs.cursor, hs.cursor', hoffset]
      rfl
    exact ih s.cursor.position s'.cursor.position hpos hn hs
  | @current d =>
    intro n s s' hn hs
    by_cases hlt : n < w.common.length
    · obtain ⟨hcurrent, hcurrent'⟩ := hs.current? hlt
      show w.Coincide d (.ok s.cursor.current? s) (.ok s'.cursor.current? s')
      rw [hcurrent, hcurrent']
      exact .ok hn hs
    · -- The first run looks past the common entries.
      have hpassed := hs.passed
      exact .pastOk (by omega)
  | @advance d =>
    intro n s s' hn hs
    by_cases hlt : n < w.common.length
    · exact .ok (Nat.succ_le_succ hn) (hs.advance hlt)
    · have hpassed := hs.passed
      exact coincide_of_past forward_advance (by omega)
  | emit i =>
    intro n s s' hn hs
    obtain ⟨k, is, hlabels, hlabels', hcode, hcode'⟩ := hs.output
    refine .ok hn ⟨hs.cursor, hs.cursor', hs.le, k, is ++ [i], hlabels, hlabels', ?_, ?_⟩
    · show s.code.emit i = _
      rw [hcode, Vm.Code.emit_eq_extend, Vm.Code.extend_extend]
    · show s'.code.emit i = _
      rw [hcode', Vm.Code.emit_eq_extend, Vm.Code.extend_extend]
  | @takeLabel d =>
    intro n s s' hn hs
    obtain ⟨k, is, hlabels, hlabels', hcode, hcode'⟩ := hs.output
    have hpeek : s'.labels.peek = s.labels.peek := by
      rw [hlabels, hlabels']
      exact congrFun w.upcoming_eq k
    show w.Coincide d (.ok s.labels.peek { s with labels := s.labels.advance })
      (.ok s'.labels.peek { s' with labels := s'.labels.advance })
    rw [hpeek]
    refine .ok hn ⟨hs.cursor, hs.cursor', hs.le, k + 1, is, ?_, ?_, hcode, hcode'⟩
    · show s.labels.advance = _
      rw [hlabels]
      rfl
    · show s'.labels.advance = _
      rw [hlabels']
      rfl
  | note notice =>
    intro n s s' hn hs
    exact .ok hn ⟨hs.cursor, hs.cursor', hs.le, hs.output⟩
  | stop hlimit hm =>
    intro n s s' hn hs
    have hpassed := hs.passed
    exact coincide_of_past hm (by omega)
  | weaken _ hd he ih =>
    intro n s s' hn hs
    exact (ih (Nat.le_trans hd hn) hs).weaken he

end Overlap

namespace Compiler

variable {α : Type} {m m' : Compiler α} {a : α} {used rest : List Entry} {entry : Entry}
  {n n' k e : Nat} {labels labels' : LabelSupply} {code : Vm.Code} {is : List Instruction}
  {notices notices₁ : Array Notice}

/-- A run that ends before an entry is repeated by every compiler in lockstep, wherever it begins,
whatever comes after that entry, and whichever supply the same ids are taken from. -/
theorem Lockstep.run_ok (h : Lockstep (used.length + 1) (n = n') 0 e m m')
    (hrun : m.run ⟨⟨used ++ entry :: rest, n⟩, labels, code, notices⟩ =
      .ok a ⟨⟨entry :: rest, n + used.length⟩, labels.skip k, code.extend is, notices₁⟩)
    (hlabels : labels'.upcoming = labels.upcoming) (rest' : List Entry) (code' : Vm.Code)
    (notices' : Array Notice) :
    ∃ notices₂, m'.run ⟨⟨used ++ entry :: rest', n'⟩, labels', code', notices'⟩ =
      .ok a ⟨⟨entry :: rest', n' + used.length⟩, labels'.skip k, code'.extend is, notices₂⟩ := by
  let w : Overlap := ⟨used ++ [entry], rest, rest', n, n', labels, labels', code, code', hlabels⟩
  have hlength : w.common.length = used.length + 1 := List.length_append
  have hstart : w.Alike 0 ⟨⟨used ++ entry :: rest, n⟩, labels, code, notices⟩
      ⟨⟨used ++ entry :: rest', n'⟩, labels', code', notices'⟩ := by
    refine ⟨?_, ?_, Nat.zero_le _, 0, [], rfl, rfl, ?_, ?_⟩
    · simp [w]
    · simp [w]
    · exact (Vm.Code.extend_nil code).symm
    · exact (Vm.Code.extend_nil code').symm
  have hcoincide := w.coincide (hlength ▸ h) (Nat.le_refl 0) hstart
  rw [hrun] at hcoincide
  generalize m'.run _ = r' at hcoincide
  cases hcoincide with
  | pastOk hpast =>
    have hpast : n + w.common.length ≤ n + used.length := hpast
    omega
  | @ok i _ _ s' hi halike =>
    -- Both runs have passed `used`, and so the first tells what the second has done.
    have hpassed : n + used.length = n + i := halike.passed
    obtain rfl : i = used.length := by omega
    obtain ⟨k', is', hskip, hskip', hextend, hextend'⟩ := halike.output
    obtain rfl : k = k' := LabelSupply.skip_injective hskip
    obtain rfl : is = is' := Vm.Code.extend_injective hextend
    have hcursor' := halike.cursor'
    obtain ⟨cursor', supply', result', notices₂⟩ := s'
    obtain rfl : cursor' = _ := hcursor'
    obtain rfl : supply' = labels'.skip k := hskip'
    obtain rfl : result' = code'.extend is := hextend'
    refine ⟨notices₂, ?_⟩
    simp [w]

end Compiler

end Jack
