import Jack.Proofs.Compiler.Soundness
import Jack.Proofs.Compiler.Uniform

/-!
# Label supplies

The label supply of a compilation decides the label names and nothing else, and how many ids are
taken from it depends on the tree alone.
-/

namespace Jack

open Grammar
open Vm (CodeRelabelled LabelSupply Routine routinesBranches)

namespace Comparison

variable {w : Comparison}

/-- The outcomes of the two compilations of all entries. -/
inductive Agree (w : Comparison) : Outcome → Outcome → Prop where
  | ok {name : String} {code code' : Vm.Code} {notices : Array Notice} :
    CodeRelabelled w.labels.upcoming w.labels'.upcoming code.toList code'.toList →
      Agree w ⟨.ok ⟨name, code⟩, w.labels.skip (branchCount w.entries), notices⟩
        ⟨.ok ⟨name, code'⟩, w.labels'.skip (branchCount w.entries), notices⟩
  | error {fault : Fault} {index : Nat} {notices : Array Notice} :
    fault.At w.entries index →
      Agree w ⟨.error fault, w.labels.skip (branchCount (w.entries.take index)), notices⟩
        ⟨.error fault, w.labels'.skip (branchCount (w.entries.take index)), notices⟩

theorem alike_start (w : Comparison) :
    w.Alike 0 { cursor := { rest := w.entries }, labels := w.labels }
      { cursor := { rest := w.entries }, labels := w.labels' } :=
  ⟨rfl, rfl, Nat.zero_le _, rfl, rfl, rfl, .nil⟩

theorem agree (w : Comparison) :
    w.Agree (compileEntries w.labels w.entries) (compileEntries w.labels' w.entries) := by
  have hrun := parallel_classDec w.entries.length _ _ w.alike_start
  unfold compileEntries
  generalize (Compiler.classDec w.entries.length).run _ = r at hrun ⊢
  generalize (Compiler.classDec w.entries.length).run _ = r' at hrun ⊢
  cases hrun with
  | @ok n name s s' hs hn =>
    have hall : w.entries.take n = w.entries := List.take_of_length_le (Nat.le_of_eq hn.symm)
    dsimp only
    rw [hs.labels, hs.labels', hs.notices, hall]
    exact .ok hs.code
  | @error n m fault s s' hs hat hquiet =>
    -- The entries passed after the one that the fault names take no id.
    dsimp only
    rw [hs.labels, hs.labels', hs.notices, ← hquiet.count]
    exact .error hat

theorem Agree.labels {outcome outcome' : Outcome} (h : w.Agree outcome outcome') :
    ∃ k, outcome.labels = w.labels.skip k := by
  cases h with
  | ok => exact ⟨_, rfl⟩
  | error => exact ⟨_, rfl⟩

theorem Agree.result {outcome outcome' : Outcome} {unit : ClassCode} (h : w.Agree outcome outcome')
    (hresult : outcome.result = .ok unit) :
    ∃ code', outcome'.result = .ok ⟨unit.className, code'⟩ ∧
      CodeRelabelled w.labels.upcoming w.labels'.upcoming unit.code.toList code'.toList := by
  cases h with
  | ok hcode =>
    cases hresult
    exact ⟨_, rfl, hcode⟩
  | error => cases hresult

end Comparison

variable {entries : List Entry} {name : String} {rs : List Routine}

/-- Whatever becomes of the entries, ids are only taken. -/
theorem compileEntries_labels (labels : LabelSupply) (entries : List Entry) :
    ∃ k, (compileEntries labels entries).labels = labels.skip k :=
  (Comparison.agree ⟨entries, labels, labels⟩).labels

theorem idsOf_sequential (n : Nat) : idsOf (.sequential 0) n = List.range' 0 n := by
  show (List.range' 0 n).map (fun k => 0 + k) = _
  simp only [Nat.zero_add, List.map_id']

theorem upcoming_sequential : (LabelSupply.sequential 0).upcoming = id := by
  funext k
  show 0 + (0 + k) = k
  rw [Nat.zero_add, Nat.zero_add]

/-- Code whose ids count the statements becomes the code of any supply by taking the ids from
there. -/
theorem compileEntries_relabel (labels : LabelSupply)
    (h : (compileEntries (.sequential 0) entries).result = .ok (.ofRoutines name rs)) :
    (compileEntries labels entries).result =
      .ok (.ofRoutines name (rs.map (Routine.relabel labels.upcoming))) := by
  obtain ⟨code', hresult, hcode⟩ := (Comparison.agree ⟨entries, .sequential 0, labels⟩).result h
  -- Both lists are the same code with other ids, and there is only one such list.
  rw [upcoming_sequential] at hcode
  have hroutines := codeRelabelled_routinesCode id labels.upcoming rs
  rw [routinesCode_relabel_id] at hroutines
  have hlist : code'.toList = routinesCode (rs.map (Routine.relabel labels.upcoming)) :=
    hcode.eq Function.injective_id hroutines
  have hcode' : code' = ⟨(routinesCode (rs.map (Routine.relabel labels.upcoming))).toArray⟩ :=
    Vm.Code.toList_injective hlist
  rw [hresult, hcode']
  rfl

/-- Entries that compile under one supply compile under all of them, to the same routines but for
the ids. -/
theorem compileEntries_routines {labels : LabelSupply} {unit : ClassCode}
    (h : (compileEntries labels entries).result = .ok unit) :
    ∃ c rs, Spells (Grammar.Class.lexemes c) entries ∧ c.translate (.sequential 0) = .ok rs ∧
      routinesBranches rs = (branchMarkers entries).zipIdx ∧
      ∀ labels, (compileEntries labels entries).result =
        .ok (.ofRoutines c.name (rs.map (Routine.relabel labels.upcoming))) := by
  obtain ⟨code, hsequential, -⟩ := (Comparison.agree ⟨entries, labels, .sequential 0⟩).result h
  obtain ⟨c, rs, hspells, hrs, hunit, -⟩ := compileEntries_ok hsequential
  rw [hunit] at hsequential
  refine ⟨c, rs, hspells, hrs, ?_, fun labels => compileEntries_relabel labels hsequential⟩
  -- The first statement is given the id 0, the next one the id 1, and so on.
  rw [Class.branches_translate hspells hrs, Class.branches_eq hspells hrs, idsOf_sequential,
    branchCount, List.zipIdx_eq_zip_range']

/-! ## Entries and trees -/

theorem branchMarkers_take_entries (options : Options) (root : Node) (n : Nat) :
    branchMarkers ((options.entries root).take n) = branchMarkers (root.preorder.take n) := by
  unfold Options.entries
  split
  · rw [← List.map_take, branchMarkers_mapText]
  · rfl

theorem length_entries (options : Options) (root : Node) :
    (options.entries root).length = root.preorder.length := by
  unfold Options.entries
  split
  · exact List.length_map _
  · rfl

theorem branchMarkers_entries (options : Options) (root : Node) :
    branchMarkers (options.entries root) = branchMarkers root.preorder := by
  have htake := branchMarkers_take_entries options root root.preorder.length
  rwa [List.take_length, ← length_entries options root, List.take_length] at htake

theorem branchCount_take_entries (options : Options) (root : Node) (n : Nat) :
    branchCount ((options.entries root).take n) = branchCount (root.preorder.take n) :=
  congrArg List.length (branchMarkers_take_entries options root n)

theorem branchCount_entries (options : Options) (root : Node) :
    branchCount (options.entries root) = branchCount root.preorder :=
  congrArg List.length (branchMarkers_entries options root)

/-- Under any two label supplies a tree compiles to the same routines or fails with the same fault.
The `k`-th `if` or `while` of the tree takes the `k`-th id of each supply, and nothing else in the
code differs. A class that compiles has taken one id for each of these statements, and one that
fails has taken those of the statements in front of the entry that the fault names. -/
theorem compile_supplies (labels labels' : LabelSupply) (root : Node) (options : Options) :
    let outcome := compile labels root options
    let outcome' := compile labels' root options
    outcome'.notices = outcome.notices ∧
      ((∃ c rs unit unit',
          Spells (Grammar.Class.lexemes c) (options.entries root) ∧
          c.translate (.sequential 0) = .ok rs ∧
          routinesBranches rs = (branchMarkers root.preorder).zipIdx ∧
          unit = .ofRoutines c.name (rs.map (Routine.relabel labels.upcoming)) ∧
          unit' = .ofRoutines c.name (rs.map (Routine.relabel labels'.upcoming)) ∧
          CodeRelabelled labels.upcoming labels'.upcoming unit.code.toList unit'.code.toList ∧
          outcome.result = .ok unit ∧ outcome'.result = .ok unit' ∧
          outcome.labels = labels.skip (branchCount root.preorder) ∧
          outcome'.labels = labels'.skip (branchCount root.preorder)) ∨
        ∃ fault index,
          fault.At root.preorder index ∧
          outcome.result = .error fault ∧ outcome'.result = .error fault ∧
          outcome.labels = labels.skip (branchCount (root.preorder.take index)) ∧
          outcome'.labels = labels'.skip (branchCount (root.preorder.take index))) := by
  intro outcome outcome'
  have hagree : Comparison.Agree ⟨options.entries root, labels, labels'⟩ outcome outcome' :=
    Comparison.agree _
  have hroutines {unit : ClassCode} (h : outcome.result = .ok unit) :
      ∃ c rs, Spells (Grammar.Class.lexemes c) (options.entries root) ∧
        c.translate (.sequential 0) = .ok rs ∧
        routinesBranches rs = (branchMarkers (options.entries root)).zipIdx ∧
        outcome.result = .ok (.ofRoutines c.name (rs.map (Routine.relabel labels.upcoming))) ∧
        outcome'.result = .ok (.ofRoutines c.name (rs.map (Routine.relabel labels'.upcoming))) := by
    obtain ⟨c, rs, hspells, hrs, hbranches, hresult⟩ := compileEntries_routines h
    exact ⟨c, rs, hspells, hrs, hbranches, hresult labels, hresult labels'⟩
  -- From here on the outcomes are known only by what was said of them.
  clear_value outcome outcome'
  cases hagree with
  | ok hcode =>
    obtain ⟨c, rs, hspells, hrs, hbranches, hresult, hresult'⟩ := hroutines rfl
    rw [branchMarkers_entries] at hbranches
    rw [branchCount_entries]
    exact ⟨rfl, .inl ⟨c, rs, _, _, hspells, hrs, hbranches, rfl, rfl,
      codeRelabelled_routinesCode _ _ rs, hresult, hresult', rfl, rfl⟩⟩
  | @error fault index notices hat =>
    rw [branchCount_take_entries]
    refine ⟨rfl, .inr ⟨fault, index, ?_, rfl, rfl, rfl, rfl⟩⟩
    rw [Fault.At, length_entries] at hat
    exact hat

end Jack
