import Jack.Proofs.Compiler.Lockstep.Procedure
import Jack.Proofs.Compiler.Supplies
import Jack.Proofs.Grammar.Boundary

/-!
# Subroutine after subroutine

The subroutines of a class are compiled one by one. What one of them compiles to depends on the name
of the class, on its variables and on the ids that are left, and on nothing else that comes before or
after it.
-/

namespace Jack.Compiler

open Grammar
open Vm (Instruction LabelSupply)

theorem branchCount_append (es es' : List Entry) :
    branchCount (es ++ es') = branchCount es + branchCount es' := by
  rw [branchCount, branchMarkers_append, List.length_append]
  rfl

variable {className : String} {table : SymbolTable} {labels labels' : LabelSupply}
  {used es es' rest : List Entry} {is : List Instruction} {bound n : Nat} {c : Vm.Code}
  {ns : Array Notice} {s s' : CompilerState}

/-! ## One subroutine -/

theorem run_word_eq_ok {text : String} (h : (word text).run s = .ok () s') :
    ∃ e rest n l c ns, s = ⟨⟨e :: rest, n⟩, l, c, ns⟩ ∧ e.text = text ∧
      s' = ⟨⟨rest, n + 1⟩, l, c, ns⟩ := by
  obtain ⟨⟨_ | ⟨e, rest⟩, n⟩, l, c, ns⟩ := s
  · cases h
  · by_cases htext : e.text = text
    · rw [word, run_read (if_pos htext)] at h
      cases h
      exact ⟨e, rest, n, l, c, ns, rfl, htext, rfl⟩
    · simp only [word, read, EStateM.run_bind, run_peek?, List.head?_cons, Option.bind_some,
        if_neg htext] at h
      cases h

/-- The entries are one subroutine, which compiles to the code wherever it stands, as long as the
next ids are those of the supply. -/
structure RoutineAt (className : String) (table : SymbolTable) (labels : LabelSupply)
    (used : List Entry) (is : List Instruction) : Prop where
  isRoutine : IsRoutine used
  run : ∀ labels' bound rest n c ns, labels'.upcoming = labels.upcoming →
    used.length ≤ bound + 1 → ∃ ns',
      (subroutineDec className table bound).run ⟨⟨used ++ rest, n⟩, labels', c, ns⟩ =
        .ok () ⟨⟨rest, n + used.length⟩, labels'.skip (branchCount used), c.extend is, ns'⟩

/-- What one run does with a subroutine, every run does. -/
theorem routineAt_of_run (hes : es.length ≤ bound + 1)
    (h : (subroutineDec className table bound).run ⟨⟨es, n⟩, labels, c, ns⟩ = .ok () s) :
    ∃ used rest is ns', es = used ++ rest ∧ RoutineAt className table labels used is ∧
      s = ⟨⟨rest, n + used.length⟩, labels.skip (branchCount used), c.extend is, ns'⟩ := by
  obtain ⟨used, rest, k, is, ns', rfl, rfl, routine, r, hspells, rfl, hr, rfl⟩ :=
    (subroutineDec_yields hes).ok h
  rw [routine.branches_eq hspells (hr 0)] at h ⊢
  refine ⟨used, rest, _, ns', rfl, ⟨routine.isRoutine hspells, ?_⟩, rfl⟩
  intro labels' bound' rest' n' c' ns'' hlabels hbound
  -- The run ends with the last brace, so that no entry after the subroutine is looked at.
  rw [subroutineDec_eq] at h ⊢
  obtain ⟨⟨⟩, s₁, hstart, hword⟩ := run_bind_eq_ok h
  obtain ⟨brace, rest₁, n₁, l₁, c₁, ns₁, rfl, hbrace, hs⟩ := run_word_eq_ok hword
  have hself : Lockstep 0 True 0 1 (subroutineStart className table bound)
      (subroutineStart className table bound) :=
    lockstep_subroutineStart table (Nat.zero_le _) (Nat.zero_le _)
  obtain ⟨before, hbefore, hn₁⟩ := hself.forward.passes hstart
  injection hs with hcursor hl₁ hc₁ hns₁
  injection hcursor with hrest
  subst hrest hl₁ hc₁ hn₁
  have happend : used ++ rest = before ++ [brace] ++ rest := by
    rw [hbefore, List.append_assoc, List.singleton_append]
  have hused : used = before ++ [brace] := List.append_cancel_right happend
  have hlength : before.length + 1 = used.length := by
    rw [hused, List.length_append, List.length_singleton]
  rw [List.length_append] at hes
  have hlockstep : Lockstep (before.length + 1) (n = n') 0 1 (subroutineStart className table bound)
      (subroutineStart className table bound') :=
    lockstep_subroutineStart table (by omega) (by omega)
  have hentries (tail : List Entry) : used ++ tail = before ++ brace :: tail := by
    rw [hused, List.append_assoc, List.singleton_append]
  rw [hentries] at hstart ⊢
  obtain ⟨ns₂, hrun⟩ := hlockstep.run_ok hstart hlabels rest' c' ns''
  refine ⟨ns₂, ?_⟩
  rw [EStateM.run_bind, hrun]
  show (word closeBrace).run _ = _
  rw [word, run_read (if_pos hbrace), Nat.add_assoc, hlength]

/-! ## Subroutines in a row -/

theorem run_subroutineDecs_succ :
    (subroutineDecs className table (bound + 1)).run ⟨⟨es, n⟩, labels, c, ns⟩ =
      if es.head? = some routineMarker then
        (subroutineDec className table bound >>= fun _ => subroutineDecs className table bound).run
          ⟨⟨es, n⟩, labels, c, ns⟩
      else .ok () ⟨⟨es, n⟩, labels, c, ns⟩ := by
  rw [subroutineDecs, EStateM.run_bind, run_atProduction]
  by_cases h : es.head? = some routineMarker
  · rw [if_pos h, show decide (es.head? = some (.production .subroutineDec)) = true from
      decide_eq_true h]
    rfl
  · rw [if_neg h, show decide (es.head? = some (.production .subroutineDec)) = false from
      decide_eq_false h]
    rfl

/-- The entries are subroutines, each of which goes on with the ids that those before it leave. -/
inductive Routines (className : String) (table : SymbolTable) :
    LabelSupply → List Entry → List Instruction → Prop where
  | nil {labels : LabelSupply} : Routines className table labels [] []
  | cons {labels : LabelSupply} {used es : List Entry} {is is' : List Instruction} :
    RoutineAt className table labels used is →
      Routines className table (labels.skip (branchCount used)) es is' →
      Routines className table labels (used ++ es) (is ++ is')

theorem RoutineAt.congr (h : RoutineAt className table labels used is)
    (hlabels : labels'.upcoming = labels.upcoming) : RoutineAt className table labels' used is :=
  ⟨h.isRoutine, fun _ _ _ _ _ _ hlabels' hbound => h.run _ _ _ _ _ _ (hlabels'.trans hlabels) hbound⟩

theorem Routines.congr (h : Routines className table labels es is) :
    ∀ {labels'}, labels'.upcoming = labels.upcoming → Routines className table labels' es is := by
  induction h with
  | nil => exact fun _ => .nil
  | cons hroutine _ ih =>
    intro labels' hlabels
    exact .cons (hroutine.congr hlabels) (ih (LabelSupply.upcoming_skip hlabels _))

theorem Routines.head?_eq (h : Routines className table labels es is) (hne : es ≠ []) :
    es.head? = some routineMarker := by
  cases h with
  | nil => exact absurd rfl hne
  | cons hroutine _ =>
    obtain ⟨tail, rfl, -⟩ := hroutine.isRoutine
    rfl

theorem Routines.append {is' : List Instruction} (h : Routines className table labels es is)
    (h' : Routines className table (labels.skip (branchCount es)) es' is') :
    Routines className table labels (es ++ es') (is ++ is') := by
  induction h with
  | nil => exact h'
  | cons hroutine _ ih =>
    rw [branchCount_append, ← LabelSupply.skip_skip] at h'
    rw [List.append_assoc, List.append_assoc]
    exact .cons hroutine (ih h')

/-- A row of subroutines is divided where one of them begins. -/
theorem Routines.split {all : List Entry} (h : Routines className table labels all is) :
    ∀ {es es'}, all = es ++ es' → (es' ≠ [] → es'.head? = some routineMarker) →
      ∃ is₁ is₂, is = is₁ ++ is₂ ∧ Routines className table labels es is₁ ∧
        Routines className table (labels.skip (branchCount es)) es' is₂ := by
  induction h with
  | nil =>
    intro es es' hall _
    obtain ⟨rfl, rfl⟩ := List.append_eq_nil_iff.1 hall.symm
    exact ⟨[], [], rfl, .nil, .nil⟩
  | @cons labels used rest is is' hroutine hrest ih =>
    intro es es' hall hes'
    by_cases hes : es = []
    · subst hes
      rw [List.nil_append] at hall
      exact ⟨[], is ++ is', rfl, .nil, hall ▸ .cons hroutine hrest⟩
    obtain ⟨tail, rfl, htail⟩ := hroutine.isRoutine
    rcases List.append_eq_append_iff.1 hall with ⟨middle, rfl, rfl⟩ | ⟨middle, hused, rfl⟩
    · obtain ⟨is₁, is₂, rfl, h₁, h₂⟩ := ih rfl hes'
      rw [branchCount_append, ← LabelSupply.skip_skip]
      exact ⟨is ++ is₁, is₂, (List.append_assoc ..).symm, .cons hroutine h₁, h₂⟩
    · -- The division would be within the first subroutine, where no other one begins.
      obtain rfl : middle = [] := by
        by_contra hmiddle
        obtain ⟨e, es, rfl⟩ := List.exists_cons_of_ne_nil hes
        obtain ⟨-, rfl⟩ := List.cons.inj hused
        obtain ⟨e', middle, rfl⟩ := List.exists_cons_of_ne_nil hmiddle
        obtain rfl : e' = routineMarker := Option.some.inj (hes' (List.cons_ne_nil _ _))
        exact htail (List.mem_append_right _ (List.mem_cons_self ..))
      rw [List.append_nil] at hused
      rw [← hused]
      exact ⟨is, is', rfl, by simpa using Routines.cons hroutine .nil, hrest⟩

theorem routines_of_run (bound : Nat) : ∀ {es n labels c ns s}, es.length ≤ bound →
    (subroutineDecs className table bound).run ⟨⟨es, n⟩, labels, c, ns⟩ = .ok () s →
    ∃ used rest is ns', es = used ++ rest ∧ Routines className table labels used is ∧
      s = ⟨⟨rest, n + used.length⟩, labels.skip (branchCount used), c.extend is, ns'⟩ := by
  induction bound with
  | zero =>
    intro es n labels c ns s _ h
    cases h
    exact ⟨[], es, [], ns, rfl, .nil, by rw [Vm.Code.extend_nil]; rfl⟩
  | succ bound ih =>
    intro es n labels c ns s hes h
    rw [run_subroutineDecs_succ] at h
    split at h
    · obtain ⟨⟨⟩, s₁, hfirst, hmore⟩ := run_bind_eq_ok h
      obtain ⟨used, rest, is, ns₁, rfl, hroutine, rfl⟩ := routineAt_of_run hes hfirst
      have hpos : 0 < used.length := by
        obtain ⟨tail, rfl, -⟩ := hroutine.isRoutine
        exact Nat.succ_pos _
      rw [List.length_append] at hes
      obtain ⟨used', rest', is', ns₂, rfl, hroutines, rfl⟩ := ih (by omega) hmore
      refine ⟨used ++ used', rest', is ++ is', ns₂, ?_, .cons hroutine hroutines, ?_⟩
      · rw [List.append_assoc]
      · rw [List.length_append, branchCount_append, LabelSupply.skip_skip, Vm.Code.extend_extend,
          Nat.add_assoc]
    · cases h
      exact ⟨[], es, [], ns, rfl, .nil, by rw [Vm.Code.extend_nil]; rfl⟩

/-- Subroutines are compiled in any class with the same name and variables, whatever comes after
them. -/
theorem Routines.run (h : Routines className table labels es is) : ∀ labels' bound rest n c ns,
    labels'.upcoming = labels.upcoming → es.length ≤ bound → rest.head? ≠ some routineMarker →
    ∃ ns', (subroutineDecs className table bound).run ⟨⟨es ++ rest, n⟩, labels', c, ns⟩ =
      .ok () ⟨⟨rest, n + es.length⟩, labels'.skip (branchCount es), c.extend is, ns'⟩ := by
  induction h with
  | nil =>
    intro labels' bound rest n c ns _ _ hrest
    refine ⟨ns, ?_⟩
    rw [Vm.Code.extend_nil]
    cases bound with
    | zero => rfl
    | succ bound =>
      rw [run_subroutineDecs_succ, List.nil_append, if_neg hrest]
      rfl
  | @cons labels used es is is' hroutine _ ih =>
    intro labels' bound rest n c ns hlabels hbound hrest
    obtain ⟨tail, hused, -⟩ := hroutine.isRoutine
    rw [List.length_append, hused, List.length_cons] at hbound
    obtain ⟨bound, rfl⟩ : ∃ b, bound = b + 1 := ⟨bound - 1, by omega⟩
    have hused_le : used.length ≤ bound + 1 := by rw [hused, List.length_cons]; omega
    obtain ⟨ns₁, hfirst⟩ := hroutine.run labels' bound (es ++ rest) n c ns hlabels hused_le
    obtain ⟨ns₂, hmore⟩ := ih (labels'.skip (branchCount used)) bound rest
      (n + used.length) (c.extend is) ns₁ (LabelSupply.upcoming_skip hlabels _) (by omega) hrest
    refine ⟨ns₂, ?_⟩
    have hhead : (used ++ (es ++ rest)).head? = some routineMarker := by rw [hused]; rfl
    rw [run_subroutineDecs_succ, List.append_assoc, if_pos hhead, EStateM.run_bind, hfirst]
    dsimp only
    rw [hmore, List.length_append, branchCount_append, LabelSupply.skip_skip,
      Vm.Code.extend_extend, Nat.add_assoc]

/-! ## The class around them -/

/-- Whatever is passed in front of the subroutines, none of them begins there. -/
theorem classStart_yields : Yields (classStart bound) es labels fun used k is _ =>
    k = 0 ∧ is = [] ∧ routineMarker ∉ used := by
  refine yields_marker (by decide) fun es₁ _ => yields_word (by decide) fun es₂ kind _ => ?_
  refine yields_identifier fun es₃ name _ => yields_note ?_
  refine yields_word (by decide) fun es₄ brace _ => (classVarDecs_yields bound).bind ?_
  rintro used rest _ _ table - ⟨rfl, rfl, vss, hspells, -⟩
  have hvss : Entry.production .subroutineDec ∉ used := by
    intro hmem
    obtain ⟨vs, -, hvs⟩ := List.mem_flatMap.1 (hspells.marker_mem hmem)
    exact vs.notMem_lexemes hvs
  exact yields_pure ⟨rfl, rfl, by simp [routineMarker, hvss]⟩

theorem uniform_classStart {w : Comparison} (bound : Nat) : w.Uniform (classStart bound) :=
  (Comparison.uniform_marker rfl).bind fun _ => (Comparison.uniform_word (by decide)).bind fun _ =>
    Comparison.uniform_identifier.bind fun name => (Comparison.uniform_note _).bind fun _ =>
      (Comparison.uniform_word (by decide)).bind fun _ =>
        (Comparison.uniform_classVarDecs bound _).bind fun _ => Comparison.uniform_pure _

/-- Nothing in front of the subroutines takes an id. -/
theorem run_classStart_supply {a : String × SymbolTable} {ns' : Array Notice}
    (h : (classStart bound).run ⟨⟨es, 0⟩, labels, {}, #[]⟩ = .ok a ⟨⟨rest, n⟩, labels, {}, ns'⟩)
    (labels' : LabelSupply) :
    (classStart bound).run ⟨⟨es, 0⟩, labels', {}, #[]⟩ = .ok a ⟨⟨rest, n⟩, labels', {}, ns'⟩ := by
  let w : Comparison := ⟨es, labels, labels'⟩
  have hcoincide : w.Coincide (fun _ _ => True)
      ((classStart bound).run ⟨⟨es, 0⟩, labels, {}, #[]⟩)
      ((classStart bound).run ⟨⟨es, 0⟩, labels', {}, #[]⟩) :=
    uniform_classStart bound 0 _ _ w.alike_start
  rw [h] at hcoincide
  generalize (classStart bound).run ⟨⟨es, 0⟩, labels', {}, #[]⟩ = r' at hcoincide ⊢
  cases hcoincide with
  | @ok m _ _ s' halike _ =>
    obtain ⟨hcursor, hcursor', -, hlabels, hlabels', hnotices, hcode⟩ := halike
    have hzero : 0 = branchCount (w.entries.take m) := LabelSupply.skip_injective hlabels
    have hempty : s'.code = {} := Vm.Code.toList_injective (List.forall₂_nil_left_iff.1 hcode)
    rw [← hzero, LabelSupply.skip_zero] at hlabels'
    obtain ⟨cursor', supply', result', notices''⟩ := s'
    obtain rfl : supply' = labels' := hlabels'
    obtain rfl : result' = {} := hempty
    obtain rfl : notices'' = ns' := hnotices
    obtain rfl : cursor' = ⟨rest, n⟩ := hcursor'.trans hcursor.symm
    rfl

/-- The entries begin a class with the given name and variables. -/
def Opens (head : List Entry) (name : String) (table : SymbolTable) : Prop :=
  ∀ bound rest n labels c ns, head.length < bound → ∃ ns',
    (classStart bound).run ⟨⟨head ++ routineMarker :: rest, n⟩, labels, c, ns⟩ =
      .ok (name, table) ⟨⟨routineMarker :: rest, n + head.length⟩, labels, c, ns'⟩

theorem opens_of_run {head : List Entry} {name : String} {ns' : Array Notice}
    (hbound : head.length < bound)
    (h : (classStart bound).run ⟨⟨head ++ routineMarker :: rest, 0⟩, labels, {}, #[]⟩ =
      .ok (name, table) ⟨⟨routineMarker :: rest, head.length⟩, labels, {}, ns'⟩) :
    Opens head name table := by
  intro bound' rest' n' labels' c' ns'' hbound'
  have hlockstep : Lockstep (head.length + 1) (0 = n') 0 0 (classStart bound) (classStart bound') :=
    lockstep_classStart (by omega) (by omega)
  have hrun : (classStart bound).run ⟨⟨head ++ routineMarker :: rest, 0⟩, labels', {}, #[]⟩ =
      .ok (name, table) ⟨⟨routineMarker :: rest, 0 + head.length⟩, labels'.skip 0,
        Vm.Code.extend {} [], ns'⟩ := by
    rw [Nat.zero_add, LabelSupply.skip_zero, Vm.Code.extend_nil, run_classStart_supply h labels']
  obtain ⟨ns₂, hrun'⟩ := hlockstep.run_ok hrun rfl rest' c' ns''
  rw [LabelSupply.skip_zero, Vm.Code.extend_nil] at hrun'
  exact ⟨ns₂, hrun'⟩

theorem Opens.unique {head : List Entry} {name name' : String} {table table' : SymbolTable}
    (h : Opens head name table) (h' : Opens head name' table') : name = name' ∧ table = table' := by
  obtain ⟨ns, hrun⟩ := h (head.length + 1) [] 0 (.sequential 0) {} #[] (Nat.lt_succ_self _)
  obtain ⟨ns', hrun'⟩ := h' (head.length + 1) [] 0 (.sequential 0) {} #[] (Nat.lt_succ_self _)
  rw [hrun] at hrun'
  injection hrun' with hresult
  exact Prod.mk.inj hresult

/-- From its subroutines on, a class is a row of them and a brace. -/
theorem classRest_ok {name name' : String} (hes : es.length ≤ bound)
    (h : (classRest name table bound).run ⟨⟨es, n⟩, labels, c, ns⟩ = .ok name' s) :
    ∃ used close is, es = used ++ [close] ∧ close.text = closeBrace ∧
      Routines name table labels used is ∧ name' = name ∧ s.code = c.extend is := by
  obtain ⟨⟨⟩, s₁, hrow, hend⟩ := run_bind_eq_ok h
  obtain ⟨used, rest, is, ns₁, rfl, hroutines, rfl⟩ := routines_of_run bound hes hrow
  obtain ⟨⟨⟩, s₂, hword, hend⟩ := run_bind_eq_ok hend
  obtain ⟨close, rest', n₁, l₁, c₁, ns₂, hs₁, hclose, rfl⟩ := run_word_eq_ok hword
  injection hs₁ with hcursor _ hcode
  injection hcursor with hrest
  subst hrest hcode
  rw [EStateM.run_bind, run_current?] at hend
  cases rest' with
  | nil =>
    cases hend
    exact ⟨used, close, is, rfl, hclose, hroutines, rfl, rfl⟩
  | cons e rest' => cases hend

theorem Routines.run_classRest {name : String} {close : Entry}
    (h : Routines name table labels es is) (hclose : close.text = closeBrace) (bound n : Nat)
    (c : Vm.Code) (ns : Array Notice) (hbound : es.length ≤ bound) :
    ∃ s, (classRest name table bound).run ⟨⟨es ++ [close], n⟩, labels, c, ns⟩ = .ok name s ∧
      s.code = c.extend is := by
  have hne : [close].head? ≠ some routineMarker := by
    intro hmarker
    obtain rfl := Option.some.inj hmarker
    exact absurd hclose (by decide)
  obtain ⟨ns', hrow⟩ := h.run labels bound [close] n c ns rfl hbound hne
  refine ⟨⟨⟨[], n + es.length + 1⟩, labels.skip (branchCount es), c.extend is, ns'⟩, ?_, rfl⟩
  rw [classRest, EStateM.run_bind, hrow]
  dsimp only
  rw [EStateM.run_bind, word, run_read (if_pos hclose)]
  rfl

/-- A list is divided in only one way in front of its first marker. -/
theorem eq_of_append_eq {head head' : List Entry} (h : head ++ es = head' ++ es')
    (hhead : routineMarker ∉ head) (hhead' : routineMarker ∉ head')
    (hes : es.head? = some routineMarker) (hes' : es'.head? = some routineMarker) :
    head = head' ∧ es = es' := by
  rcases List.append_eq_append_iff.1 h with ⟨middle, rfl, rfl⟩ | ⟨middle, rfl, rfl⟩
  · cases middle with
    | nil => exact ⟨(List.append_nil head).symm, rfl⟩
    | cons e middle =>
      obtain rfl : e = routineMarker := Option.some.inj hes
      exact absurd (List.mem_append_right _ (List.mem_cons_self ..)) hhead'
  · cases middle with
    | nil => exact ⟨List.append_nil head', rfl⟩
    | cons e middle =>
      obtain rfl : e = routineMarker := Option.some.inj hes'
      exact absurd (List.mem_append_right _ (List.mem_cons_self ..)) hhead

end Jack.Compiler

namespace Jack

open Compiler

variable {labels : Vm.LabelSupply} {head es : List Entry} {close : Entry} {unit : ClassCode}

/-- A class that compiles has been opened by what comes before its first subroutine, and the rest is
a row of subroutines and a brace. -/
theorem compileEntries_divides (hhead : routineMarker ∉ head)
    (hes : es.head? = some routineMarker)
    (h : (compileEntries labels (head ++ es ++ [close])).result = .ok unit) :
    close.text = closeBrace ∧ ∃ table, Opens head unit.className table ∧
      Routines unit.className table labels es unit.code.toList := by
  obtain ⟨tail, rfl⟩ := List.head?_eq_some_iff.1 hes
  generalize hall : head ++ routineMarker :: tail ++ [close] = entries at h
  obtain ⟨name, s, hr, rfl, -⟩ := exists_run_of_compileEntries h
  rw [classDec_eq] at hr
  obtain ⟨⟨name', table⟩, s₁, hstart, hrest⟩ := run_bind_eq_ok hr
  obtain ⟨used, rest, _, _, ns', hentries, rfl, rfl, rfl, hused⟩ :=
    classStart_yields.ok hstart
  have hle : rest.length ≤ entries.length := by
    rw [hentries, List.length_append]
    exact Nat.le_add_left ..
  obtain ⟨row, close', is, rfl, hclose, hroutines, rfl, hcode⟩ := classRest_ok hle hrest
  -- The first marker of a subroutine ends what comes before.
  have hsame : head ++ routineMarker :: tail ++ [close] = used ++ row ++ [close'] := by
    rw [hall, hentries, List.append_assoc]
  obtain ⟨hdivision, hlast⟩ := List.append_inj' hsame rfl
  obtain rfl : close = close' := List.singleton_injective hlast
  have hrow : row.head? = some routineMarker := by
    apply hroutines.head?_eq
    rintro rfl
    rw [List.append_nil] at hdivision
    exact hused (hdivision ▸ List.mem_append_right _ (List.mem_cons_self ..))
  obtain ⟨rfl, rfl⟩ := eq_of_append_eq hdivision hhead hused hes hrow
  have hbound : head.length < entries.length := by
    rw [← hall, List.length_append, List.length_append, List.length_cons]
    omega
  have hopens : Opens head name table := by
    rw [List.cons_append] at hentries
    generalize entries.length = bound at hstart hbound
    rw [hentries, Nat.zero_add, List.cons_append] at hstart
    exact opens_of_run hbound hstart
  have hlist : s.code.toList = is := by
    rw [hcode, Vm.Code.extend_nil, Vm.Code.toList_extend]
    rfl
  refine ⟨hclose, table, hopens, ?_⟩
  rw [hlist]
  exact hroutines

/-- Conversely, what begins a class, subroutines that compile with its name and variables, and a
brace are a class. -/
theorem compileEntries_of_routines {table : SymbolTable} (hes : es.head? = some routineMarker)
    (hclose : close.text = closeBrace) (hopens : Opens head unit.className table)
    (hroutines : Routines unit.className table labels es unit.code.toList) :
    (compileEntries labels (head ++ es ++ [close])).result = .ok unit := by
  obtain ⟨tail, rfl⟩ := List.head?_eq_some_iff.1 hes
  have hentries : head ++ routineMarker :: tail ++ [close] =
      head ++ routineMarker :: (tail ++ [close]) := by
    rw [List.append_assoc, List.cons_append]
  rw [hentries]
  have hlength : (head ++ routineMarker :: (tail ++ [close])).length =
      head.length + (tail.length + 1 + 1) := by
    rw [List.length_append, List.length_cons, List.length_append, List.length_singleton]
  unfold compileEntries
  generalize (head ++ routineMarker :: (tail ++ [close])).length = bound at hlength ⊢
  obtain ⟨ns, hstart⟩ := hopens bound (tail ++ [close]) 0 labels {} #[] (by omega)
  obtain ⟨s, hrest, hcode⟩ := hroutines.run_classRest hclose bound (0 + head.length) {} ns
    (by rw [List.length_cons]; omega)
  have hrun : (classDec bound).run
      { cursor := { rest := head ++ routineMarker :: (tail ++ [close]) }, labels } =
      .ok unit.className s := by
    rw [classDec_eq, EStateM.run_bind, hstart]
    exact hrest
  have hunit : s.code = unit.code := by
    apply Vm.Code.toList_injective
    rw [hcode, Vm.Code.toList_extend]
    rfl
  rw [hrun]
  show Except.ok (⟨unit.className, s.code⟩ : ClassCode) = _
  rw [hunit]

end Jack
