import Jack.Proofs.Grammar.Names
import Jack.Proofs.Program.Sequence

/-!
# The text of a program

The text of compiled classes has one line for each instruction, and the instructions can be read
back from it, as long as no name in a compiled tree holds a line feed. Names may hold anything
else, spaces and digits included.
-/

namespace Jack

open Program
open Text (OneLine joinLines lines?)
open Vm (instructionsOf?)

instance (e : Entry) : Decidable e.Legible := by
  unfold Entry.Legible
  split <;> infer_instance

/-- A tree in whose keywords and identifiers there is no line feed. -/
def Node.Legible (root : Node) : Prop := ∀ e ∈ root.preorder, e.Legible

instance (root : Node) : Decidable root.Legible := inferInstanceAs (Decidable (∀ e ∈ _, _))

/-! ## Stripping -/

theorem mem_unpad {s : String} {c : Char} (h : c ∈ (unpad s).toList) : c ∈ s.toList := by
  unfold unpad at h
  split at h
  · next inner hs =>
    split at h
    · rw [String.toList_ofList] at h
      rw [hs]
      exact List.mem_cons_of_mem _ (List.dropLast_subset _ h)
    · exact h
  · exact h

theorem Entry.Legible.unpad {e : Entry} (h : e.Legible) : (e.mapText Jack.unpad).Legible := by
  cases e with
  | production kind => trivial
  | token kind text =>
    have hunpad : OneLine text → OneLine (Jack.unpad text) := fun htext hmem =>
      htext (mem_unpad hmem)
    cases kind <;> first | exact hunpad h | trivial

theorem Node.Legible.entries {root : Node} (h : root.Legible) (options : Options) :
    ∀ e ∈ options.entries root, e.Legible := by
  unfold Options.entries
  split
  · intro e he
    obtain ⟨e', he', rfl⟩ := List.mem_map.1 he
    exact (h e' he').unpad
  · exact h

/-! ## Units and programs -/

theorem compile_legible {labels : Vm.LabelSupply} {root : Node} {options : Options}
    {unit : ClassCode} (h : (compile labels root options).result = .ok unit)
    (hroot : root.Legible) : ∀ i ∈ unit.code.toList, i.Legible := by
  obtain ⟨c, rs, hspells, hrs, -, hcode⟩ := compile_spells h
  rw [hcode]
  exact Grammar.Class.legible (hspells.legible (hroot.entries options)) hrs

/-- The code of a legible tree. -/
def LegibleUnit (unit : ClassCode) : Prop :=
  ∃ labels root options, (compile labels root options).result = .ok unit ∧ root.Legible

/-- A program all of whose trees are legible, those that do not compile excepted. -/
def LegibleProgram (program : Program) : Prop :=
  ∃ parse labels options operations, program = performAll parse { labels, options } operations ∧
    ∀ root ∈ operations.flatMap (Operation.trees parse),
      (∃ labels unit, (compile labels root options).result = .ok unit) → root.Legible

theorem LegibleUnit.legible {unit : ClassCode} (h : LegibleUnit unit) :
    ∀ i ∈ unit.code.toList, i.Legible := by
  obtain ⟨labels, root, options, hcompile, hroot⟩ := h
  exact compile_legible hcompile hroot

theorem mem_succeeded_results {options : Options} {unit : ClassCode} (roots : List Node) :
    ∀ {labels}, unit ∈ succeeded (results options labels roots) →
    ∃ labels, ∃ root ∈ roots, (compile labels root options).result = .ok unit := by
  induction roots with
  | nil => nofun
  | cons root rest ih =>
    intro labels h
    obtain ⟨result, hresult, hunit⟩ := List.mem_filterMap.1 h
    rcases List.mem_cons.1 hresult with rfl | hresult
    · refine ⟨labels, root, List.mem_cons_self .., ?_⟩
      cases hcompile : (compile labels root options).result with
      | ok unit' =>
        rw [hcompile] at hunit
        cases hunit
        rfl
      | error fault =>
        rw [hcompile] at hunit
        cases hunit
    · obtain ⟨labels', root', hroot', hcompile⟩ := ih (List.mem_filterMap.2 ⟨result, hresult, hunit⟩)
      exact ⟨labels', root', List.mem_cons_of_mem _ hroot', hcompile⟩

theorem LegibleProgram.legible {program : Program} (h : LegibleProgram program) :
    ∀ i ∈ program.instructions, i.Legible := by
  obtain ⟨parse, labels, options, operations, rfl, htrees⟩ := h
  intro i hi
  obtain ⟨unit, hunit, hi⟩ := List.mem_flatMap.1 hi
  -- A unit of the program is the code of one of the trees that were compiled.
  rw [(extends_performAll operations { labels, options }).units_eq] at hunit
  obtain ⟨labels', root, hroot, hcompile⟩ := mem_succeeded_results _ hunit
  exact compile_legible hcompile (htrees root hroot ⟨labels', unit, hcompile⟩) i hi

theorem mergedText_eq_joinLines (program : Program) :
    program.mergedText = joinLines (program.instructions.map Vm.Instruction.text) := by
  rw [mergedText_eq, instructions]
  induction program.units.toList with
  | nil => rfl
  | cons unit units ih =>
    rw [List.map_cons, String.join_cons, ih, Vm.Code.text_eq, Vm.Code.toList_lines,
      List.flatMap_cons, List.map_append, Text.joinLines_append]

/-- What the text of legible code says. A class is written in as many lines as it has instructions,
each of them ended by a line feed, to a sink as well as into a text. From its lines the instructions
can be read back, and so can those of all classes of a program from its merged text. Hence different
instructions have different texts. -/
theorem codeText_faithful :
    (∀ unit, LegibleUnit unit →
      unit.code.lines.size = unit.code.size ∧
      unit.code.text = joinLines unit.code.lines.toList ∧
      (∀ written, (unit.code.writeTo fun line => modify (· ++ line) : StateM String Unit).run
        written = ((), written ++ unit.code.text)) ∧
      lines? unit.code.text = some unit.code.lines.toList ∧
      instructionsOf? unit.code.text = some unit.code.toList) ∧
    (∀ program, LegibleProgram program →
      instructionsOf? program.mergedText = some program.instructions) ∧
    (∀ unit unit', LegibleUnit unit → LegibleUnit unit' → unit.code.text = unit'.code.text →
      unit.code.toList = unit'.code.toList) ∧
    ∀ program program', LegibleProgram program → LegibleProgram program' →
      program.mergedText = program'.mergedText → program.instructions = program'.instructions := by
  have hlines : ∀ unit, LegibleUnit unit →
      lines? unit.code.text = some unit.code.lines.toList := by
    intro unit h
    rw [Vm.Code.text_eq, Vm.Code.toList_lines]
    exact Vm.lines?_texts h.legible
  have hunit : ∀ unit, LegibleUnit unit →
      instructionsOf? unit.code.text = some unit.code.toList := by
    intro unit h
    rw [Vm.Code.text_eq, Vm.Code.toList_lines]
    exact Vm.instructionsOf?_texts h.legible
  have hprogram : ∀ program, LegibleProgram program →
      instructionsOf? program.mergedText = some program.instructions := by
    intro program h
    rw [mergedText_eq_joinLines]
    exact Vm.instructionsOf?_texts h.legible
  refine ⟨fun unit h => ⟨Vm.Code.size_lines _, Vm.Code.text_eq _, Vm.Code.run_writeTo _,
    hlines unit h, hunit unit h⟩, hprogram, ?_, ?_⟩
  · intro unit unit' h h' htext
    have hread := hunit unit h
    rw [htext, hunit unit' h'] at hread
    exact (Option.some.inj hread).symm
  · intro program program' h h' htext
    have hread := hprogram program h
    rw [htext, hprogram program' h'] at hread
    exact (Option.some.inj hread).symm

/-- `class A 1 { function void f 2() { do b 3.g 4(); return; } }`, with names that no analyzer
reads. -/
def spacedTree : Node :=
  .production .classDec
    [.token .keyword "class", .token .identifier "A 1", .token .symbol openBrace,
      .production .subroutineDec
        [.token .keyword "function", .token .keyword "void", .token .identifier "f 2",
          .token .symbol "(", .production .parameterList [], .token .symbol ")",
          .production .subroutineBody
            [.token .symbol openBrace,
              .production .statements
                [.production .doStatement
                  [.token .keyword "do", .token .identifier "b 3", .token .symbol ".",
                    .token .identifier "g 4", .token .symbol "(", .production .expressionList [],
                    .token .symbol ")", .token .symbol ";"],
                .production .returnStatement [.token .keyword "return", .token .symbol ";"]],
              .token .symbol closeBrace]],
      .token .symbol closeBrace]

def spacedUnit : ClassCode where
  className := "A 1"
  code := ⟨#[.function "A 1.f 2" 0, .call "b 3.g 4" 0, .pop .temp 0, .push .constant 0, .ret]⟩

theorem codeText_faithful_spacedTree :
    let program := performAll readsBrackets { labels := .sequential 0 }
      [.add spacedTree, .add (loopTree "if")]
    LegibleUnit spacedUnit ∧ LegibleProgram program ∧
      spacedUnit.code.text =
        "function A 1.f 2 0\ncall b 3.g 4 0\npop temp 0\npush constant 0\nreturn\n" ∧
      instructionsOf? spacedUnit.code.text = some spacedUnit.code.toList ∧
      instructionsOf? program.mergedText = some spacedUnit.code.toList := by
  intro program
  have hspaced : spacedTree.Legible := by decide
  have hunit : LegibleUnit spacedUnit := ⟨.sequential 0, spacedTree, {}, by rfl, hspaced⟩
  have hprogram : LegibleProgram program := by
    refine ⟨readsBrackets, .sequential 0, {}, [.add spacedTree, .add (loopTree "if")], rfl,
      fun root hroot _ => ?_⟩
    have hloop : (loopTree "if").Legible := by decide
    rcases List.mem_cons.1 hroot with rfl | hroot
    · exact hspaced
    · rw [List.mem_singleton.1 hroot]
      exact hloop
  obtain ⟨hunits, hprograms, -⟩ := codeText_faithful
  have hinstructions : program.instructions = spacedUnit.code.toList := by rfl
  exact ⟨hunit, hprogram, by rfl, (hunits _ hunit).2.2.2.2, hinstructions ▸ hprograms _ hprogram⟩

end Jack
