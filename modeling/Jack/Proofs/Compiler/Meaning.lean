import Jack.Proofs.Compiler.Statement
import Jack.Proofs.Grammar.Ids
import Jack.Proofs.Grammar.Layout
import Jack.Proofs.Grammar.Simulation

/-!
# Compiled statements keep their meaning

The code of statements that compile is run by the machine as the statements are executed, wherever
the code is placed, as long as its labels are not defined in front of it.
-/

namespace Jack.Vm

theorem labelIndex?_append {before piece after : List Instruction} {i : Nat} {name : String}
    (hnodup : (definedLabels piece).Nodup) (hi : piece[i]? = some (.label name))
    (hbefore : name ∉ definedLabels before) :
    labelIndex? (before ++ (piece ++ after)) name = some (before.length + i) := by
  obtain ⟨hlt, hlabel⟩ := List.getElem?_eq_some_iff.1 hi
  have hpiece {j : Nat} (hj : j < piece.length) :
      (before ++ (piece ++ after))[before.length + j]? = piece[j]? := by
    rw [List.getElem?_append_right (Nat.le_add_right _ _), Nat.add_sub_cancel_left,
      List.getElem?_append_left hj]
  have hwhole : (before ++ (piece ++ after))[before.length + i]? = some (.label name) := by
    rw [hpiece hlt, hi]
  obtain ⟨hlt', hlabel'⟩ := List.getElem?_eq_some_iff.1 hwhole
  rw [labelIndex?, List.findIdx?_eq_some_iff_getElem]
  refine ⟨hlt', beq_iff_eq.2 hlabel', ?_⟩
  intro j hj hfirst
  have hj' : (before ++ (piece ++ after))[j]? = some (.label name) :=
    List.getElem?_eq_some_iff.2 ⟨_, beq_iff_eq.1 hfirst⟩
  -- An earlier definition would stand in front of the piece, or be a second one in the piece.
  by_cases hlt : j < before.length
  · rw [List.getElem?_append_left hlt] at hj'
    exact hbefore (mem_definedLabels.2 (List.mem_of_getElem? hj'))
  · obtain ⟨k, rfl⟩ : ∃ k, j = before.length + k := ⟨j - before.length, by omega⟩
    rw [hpiece (by omega)] at hj'
    have hk := index_unique hnodup hj' hi
    omega

theorem placed_append {before piece after : List Instruction} (hnodup : (definedLabels piece).Nodup)
    (hbefore : ∀ name ∈ definedLabels piece, name ∉ definedLabels before) :
    Placed (before ++ (piece ++ after)) before.length piece := by
  constructor
  · intro i x hi
    have hlt := (List.getElem?_eq_some_iff.1 hi).1
    rw [List.getElem?_append_right (Nat.le_add_right _ _), Nat.add_sub_cancel_left,
      List.getElem?_append_left hlt]
    exact hi
  · intro i name hi
    have hmem : name ∈ definedLabels piece := mem_definedLabels.2 (List.mem_of_getElem? hi)
    exact labelIndex?_append hnodup hi (hbefore name hmem)

end Jack.Vm

namespace Jack

open Grammar Vm

/-- The layout functions build a tree whose entries spell the statements. -/
theorem Grammar.finish_statements (body : List Statement)
    (h : ∀ callee ∈ statementCallees body, callee.Splits) :
    ∃ root, (Assembly.statements {} (fillStatements body)).finish = .ok root ∧
      root.preorder = .production .statements :: written (statementLexemes body) :=
  (adds_statements body h).fills.finish .statements

/-- The code that is emitted for statements runs to the end that the statements come to. -/
theorem Compiler.statements_runsTo {scope : Scope} {body : List Statement} {root : Node}
    {bound n : Nat} {rest : List Entry} {labels : LabelSupply} {code : Code}
    {notices : Array Notice} {s : CompilerState}
    (hcallees : ∀ callee ∈ statementCallees body, callee.Splits)
    (hroot : (Assembly.statements {} (fillStatements body)).finish = .ok root)
    (hbound : root.size ≤ bound)
    (hrun : (Compiler.statements scope bound).run
      ⟨⟨root.preorder ++ .token .symbol closeBrace :: rest, n⟩, labels, code, notices⟩ = .ok () s)
    (hfresh : labels.Fresh s.labels.taken) :
    ∃ piece, s.code = code.extend piece ∧
      ∀ (calls : Calls) (m : Memory) (ending : Ending), ExecutesAll calls scope body m ending →
        ∀ before after, (∀ name ∈ definedLabels piece, name ∉ definedLabels before) →
          RunsTo calls (before ++ (piece ++ after)) before.length piece m ending := by
  obtain ⟨root', hroot', hentries⟩ := finish_statements body hcallees
  cases hroot.symm.trans hroot'
  have hsize : statementsSize body ≤ bound := by
    rw [Node.size_eq_length_preorder, hentries, List.length_cons] at hbound
    rw [statementsSize]
    omega
  have hmeets := @Compiler.statements_meets n labels code notices rest scope bound body hsize
  rw [hentries, List.cons_append] at hrun
  rw [hrun] at hmeets
  rcases hmeets.ok_or_error with ⟨cmds, _, _, hcmds, hs, notices', rfl⟩ | ⟨_, _, _, hs⟩
  · cases hs
    refine ⟨commandsCode cmds, rfl, ?_⟩
    have hids := ids_translateStatements body hcmds
    have hnodup : (definedLabels (commandsCode cmds)).Nodup := by
      apply nodup_definedLabels (nodup_idsOf hfresh)
      intro name
      rw [← hids]
      exact count_definedLabels_commands name cmds
    intro calls m ending hexecutes before after hbefore
    exact hexecutes.runsTo hcmds (placed_append hnodup hbefore)
  · cases hs

/-! An array that is written while another of its elements is read. -/

def arrayScope : Scope where
  className := "Main"
  classTable := .empty
  signature := ⟨.function, "int", "f"⟩
  subroutineTable :=
    match SymbolTable.empty.define "a" "Array" .localVar with
    | .ok table => table
    | .error _ => .empty

def arrayRead (i : String) : Term := .element "a" (.mk (.integer i) [])

/-- `let a[0] = 7 - a[1]; while (a[0] = 7) { let a[0] = a[0] + 1; } if (a[0]) { return a[0]; }` -/
def arrayBody : List Statement :=
  [.assignElement "a" (.mk (.integer "0") []) (.mk (.integer "7") [(.sub, arrayRead "1")]),
    .loop (.mk (arrayRead "0") [(.equal, .integer "7")])
      [.assignElement "a" (.mk (.integer "0") []) (.mk (arrayRead "0") [(.add, .integer "1")])],
    .ifThen (.mk (arrayRead "0") []) [.returnValue (.mk (arrayRead "0") [])]]

/-- The machine with nothing but zeros, where calls do nothing. -/
def emptyMemory : Memory := ⟨fun _ => 0, fun _ => 0, fun _ => 0, fun _ => 0, 0, fun _ => 0⟩

def idleCalls : Calls where
  result _ _ _ := 0
  statics _ _ m := m.statics
  heap _ _ m := m.heap
  scratch _ _ _ s := s

theorem executes_arrayBody : ExecutesAll idleCalls arrayScope arrayBody emptyMemory
    (.returned 0 (some 8) ((emptyMemory.store 0 7).store 0 8)) := by
  have hloop : Statement.Executes idleCalls arrayScope (.loop (.mk (arrayRead "0")
      [(.equal, .integer "7")]) [.assignElement "a" (.mk (.integer "0") [])
        (.mk (arrayRead "0") [(.add, .integer "1")])]) (emptyMemory.store 0 7)
      (.next ((emptyMemory.store 0 7).store 0 8)) := by
    apply Statement.Executes.loop_again
    · rfl
    · exact .cons (.assignElement rfl rfl rfl) .nil
    · exact .loop_done rfl (by decide)
  have hif : ExecutesAll idleCalls arrayScope [.ifThen (.mk (arrayRead "0") [])
      [.returnValue (.mk (arrayRead "0") [])]] ((emptyMemory.store 0 7).store 0 8)
      (.returned 0 (some 8) ((emptyMemory.store 0 7).store 0 8)) :=
    .stop (.ifThen_true rfl (by decide) (.stop (.returnValue rfl)))
  exact .cons (.assignElement rfl rfl rfl) (.cons hloop hif)

theorem Compiler.statements_runsTo_arrayBody : ∃ root s,
    (∀ callee ∈ statementCallees arrayBody, callee.Splits) ∧
      (Assembly.statements {} (fillStatements arrayBody)).finish = .ok root ∧ root.size ≤ 100 ∧
      (Compiler.statements arrayScope 100).run
        ⟨⟨root.preorder ++ [.token .symbol closeBrace], 0⟩, .sequential 0, {}, #[]⟩ = .ok () s ∧
      (LabelSupply.sequential 0).Fresh s.labels.taken ∧
      RunsTo idleCalls s.code.toList 0 s.code.toList emptyMemory
        (.returned 0 (some 8) ((emptyMemory.store 0 7).store 0 8)) := by
  have hcallees : ∀ callee ∈ statementCallees arrayBody, callee.Splits := nofun
  obtain ⟨root, hroot, hentries⟩ := finish_statements arrayBody hcallees
  have hsize : root.size ≤ 100 := by
    rw [Node.size_eq_length_preorder, hentries]
    decide
  obtain ⟨s, hs⟩ : ∃ s, (Compiler.statements arrayScope 100).run
      ⟨⟨root.preorder ++ [.token .symbol closeBrace], 0⟩, .sequential 0, {}, #[]⟩ = .ok () s := by
    rw [hentries]
    exact ⟨_, rfl⟩
  have hfresh : (LabelSupply.sequential 0).Fresh s.labels.taken := LabelSupply.fresh_sequential 0 _
  obtain ⟨piece, hpiece, hruns⟩ :=
    Compiler.statements_runsTo hcallees hroot hsize hs hfresh
  have hcode : s.code.toList = piece := by
    rw [hpiece, Code.toList_extend]
    rfl
  have hrun := hruns idleCalls emptyMemory _ executes_arrayBody [] [] nofun
  rw [List.append_nil, List.nil_append] at hrun
  exact ⟨root, s, hcallees, hroot, hsize, hs, hfresh, hcode ▸ hrun⟩

end Jack
