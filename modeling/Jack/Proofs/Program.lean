import Jack.Program
import Jack.Proofs.Compiler.Supplies

/-!
# The labels of a program

All classes of a program take their label ids from one supply, whether they compile or not. If it
hands out no id twice, the code of all classes together has no label twice, and every jump finds
its label in its own function.
-/

namespace Jack.Program

open Grammar (routinesCode idsOf)
open Vm (routinesIds)

/-! ## Operations -/

/-- What a program is asked to do. Trees come as they are or as texts that a parser reads. -/
inductive Operation where
  | add (root : Node)
  | addDump (text : String)
  | addAll (roots : List Node)

/-- The program after an operation, whatever the result was. -/
def perform (parse : Json.Parser) (program : Program) : Operation → Program
  | .add root => (program.add root).2
  | .addDump text => (program.addDump parse text).2
  | .addAll roots => (program.addAll roots).2

def performAll (parse : Json.Parser) (program : Program) (operations : List Operation) : Program :=
  operations.foldl (perform parse) program

/-- The code of all classes, in the order in which they were compiled. -/
def instructions (program : Program) : List Vm.Instruction :=
  program.units.toList.flatMap fun unit => unit.code.toList

theorem labels_add (program : Program) (root : Node) :
    (program.add root).2.labels = (compile program.labels root program.options).labels := by
  unfold add
  dsimp only
  split <;> rfl

theorem instructions_add_ok {program : Program} {root : Node} {unit : ClassCode}
    (h : (compile program.labels root program.options).result = .ok unit) :
    (program.add root).2.instructions = program.instructions ++ unit.code.toList := by
  unfold add instructions
  dsimp only
  rw [h]
  dsimp only [note]
  rw [Array.toList_push, List.flatMap_append, List.flatMap_singleton]

theorem instructions_add_error {program : Program} {root : Node} {fault : Fault}
    (h : (compile program.labels root program.options).result = .error fault) :
    (program.add root).2.instructions = program.instructions := by
  unfold add instructions
  dsimp only
  rw [h]

/-! ## Ids in the code -/

/-- The ids in the code were taken one after the other since the supply was the given one. Ids of
classes that failed were taken as well, but do not show up. -/
structure Accounted (labels : Vm.LabelSupply) (program : Program) : Prop where
  ids_eq : program.labels.ids = labels.ids
  taken_le : labels.taken ≤ program.labels.taken
  code : ∃ rs, ∃ ks : List Nat, program.instructions = routinesCode rs ∧
    routinesIds rs = ks.map labels.ids ∧ ks.Pairwise (· < ·) ∧
    ∀ k ∈ ks, labels.taken ≤ k ∧ k < program.labels.taken

variable {labels : Vm.LabelSupply} {program : Program} {parse : Json.Parser}

theorem accounted_start (labels : Vm.LabelSupply) (options : Options) :
    Accounted labels { labels, options } :=
  ⟨rfl, Nat.le_refl _, [], [], rfl, rfl, .nil, nofun⟩

theorem Accounted.note (h : Accounted labels program) (notice : Notice) :
    Accounted labels (program.note notice) := ⟨h.ids_eq, h.taken_le, h.code⟩

/-- Whatever the supply hands out next, the ids of the code before stay apart from it. -/
theorem Accounted.grow {program' : Program} {rs' : List Vm.Routine} {k n : Nat}
    (h : Accounted labels program) (hlabels : program'.labels = program.labels.skip k)
    (hinstructions : program'.instructions = program.instructions ++ routinesCode rs')
    (hids' : routinesIds rs' = idsOf program.labels n) (hn : n ≤ k) :
    Accounted labels program' := by
  obtain ⟨rs, ks, hcode, hids, hks, hrange⟩ := h.code
  have hle := h.taken_le
  have htaken : program'.labels.taken = program.labels.taken + k := by
    rw [hlabels]
    rfl
  constructor
  case ids_eq =>
    rw [hlabels]
    exact h.ids_eq
  case taken_le => omega
  case code =>
    -- The new ids come after all that were taken before, whether or not these are in the code.
    refine ⟨rs ++ rs', ks ++ List.range' program.labels.taken n, ?_, ?_, ?_, ?_⟩
    · rw [hinstructions, hcode]
      exact List.flatMap_append.symm
    · show (rs ++ rs').flatMap _ = _
      rw [List.flatMap_append, List.map_append, ← hids, ← h.ids_eq]
      exact congrArg (routinesIds rs ++ ·) hids'
    · rw [List.pairwise_append]
      refine ⟨hks, List.pairwise_lt_range', ?_⟩
      intro j hj j' hj'
      have hj := hrange j hj
      have hj' := List.mem_range'_1.1 hj'
      omega
    · intro j hj
      rcases List.mem_append.1 hj with hj | hj
      · have hj := hrange j hj
        omega
      · have hj := List.mem_range'_1.1 hj
        omega

theorem Accounted.add (h : Accounted labels program) (root : Node) :
    Accounted labels (program.add root).2 := by
  cases hresult : (compile program.labels root program.options).result with
  | error fault =>
    -- A class that fails has taken some ids, none of which is in the code.
    obtain ⟨k, hk⟩ := compileEntries_labels program.labels (program.options.entries root)
    have hlabels : (program.add root).2.labels = program.labels.skip k := by
      rw [labels_add, compile_eq, hk]
    have hinstructions : (program.add root).2.instructions =
        program.instructions ++ routinesCode [] := by
      rw [instructions_add_error hresult]
      exact (List.append_nil _).symm
    exact h.grow hlabels hinstructions (n := 0) rfl (Nat.zero_le k)
  | ok unit =>
    have hinstructions := instructions_add_ok hresult
    rw [compile_eq] at hresult
    obtain ⟨c, rs, -, htranslate, rfl, hk⟩ := compileEntries_ok hresult
    have hlabels : (program.add root).2.labels = program.labels.skip c.branches := by
      rw [labels_add, compile_eq, hk]
    exact h.grow hlabels hinstructions (Grammar.Class.ids_translate htranslate) (Nat.le_refl _)

theorem Accounted.addDump (h : Accounted labels program) (text : String) :
    Accounted labels (program.addDump parse text).2 := by
  unfold Program.addDump
  split
  · exact h
  · next root _ => exact h.add root

theorem Accounted.addAllFrom (roots : List Node) : ∀ {program : Program} {report index},
    Accounted labels program → Accounted labels (program.addAllFrom report index roots).2 := by
  induction roots with
  | nil => exact fun h => h
  | cons root rest ih =>
    intro program report index h
    have hadd := h.add root
    unfold Program.addAllFrom
    split
    · next hresult =>
      rw [hresult] at hadd
      exact ih hadd
    · next hresult =>
      rw [hresult] at hadd
      exact ih (hadd.note _)

theorem Accounted.perform (h : Accounted labels program) (operation : Operation) :
    Accounted labels (program.perform parse operation) := by
  cases operation with
  | add root => exact h.add root
  | addDump text => exact h.addDump text
  | addAll roots => exact Accounted.addAllFrom roots h

theorem Accounted.performAll (h : Accounted labels program) (operations : List Operation) :
    Accounted labels (program.performAll parse operations) := by
  induction operations generalizing program with
  | nil => exact h
  | cons operation rest ih => exact ih (h.perform operation)

end Jack.Program

namespace Jack

open Program

/-- Whatever a program is asked to do, and however it parses texts, in the code of all its classes no
label is defined twice and every jump goes to a label of its own function, as long as no id was
handed out twice. -/
theorem Program.jumpsResolve {parse : Json.Parser} {labels : Vm.LabelSupply} {options : Options}
    {operations : List Operation}
    (h : labels.Fresh (performAll parse { labels, options } operations).labels.taken) :
    Vm.JumpsResolve (performAll parse { labels, options } operations).instructions := by
  have haccounted : Accounted labels (performAll parse { labels, options } operations) :=
    (accounted_start labels options).performAll operations
  obtain ⟨rs, ks, hcode, hids, hks, hrange⟩ := haccounted.code
  rw [hcode]
  apply Vm.jumpsResolve_routinesCode
  rw [hids]
  exact h.nodup_map hks hrange

/-- `while (true) { if (false) { } else { } }` -/
def loopEntries (condition : String) : Node :=
  let constant (word : String) : Node :=
    .production .expression [.production .term [.token .keyword word]]
  let block (statements : List Node) : List Node :=
    [.token .symbol openBrace, .production .statements statements, .token .symbol closeBrace]
  .production .whileStatement <|
    [.token .keyword "while", .token .symbol "(", constant condition, .token .symbol ")"] ++
      block [.production .ifStatement <|
        [.token .keyword "if", .token .symbol "(", constant "false", .token .symbol ")"] ++
          block [] ++ [.token .keyword "else"] ++ block []]

/-- `class Main { function void run() { while (...) { if (false) { } else { } } } }`, which compiles
if the condition is a keyword constant. -/
def loopTree (condition : String) : Node :=
  .production .classDec
    [.token .keyword "class", .token .identifier "Main", .token .symbol openBrace,
      .production .subroutineDec
        [.token .keyword "function", .token .keyword "void", .token .identifier "run",
          .token .symbol "(", .production .parameterList [], .token .symbol ")",
          .production .subroutineBody
            [.token .symbol openBrace, .production .statements [loopEntries condition],
              .token .symbol closeBrace]],
      .token .symbol closeBrace]

/-- Reads the text of an empty array, which is no tree. -/
def readsBrackets : Json.Parser
  | "[]" => .ok (.array [])
  | _ => .error "not an empty array"

theorem jumpsResolve_loopTree :
    let program := performAll readsBrackets { labels := .sequential 7 } [.add (loopTree "true"),
      .addDump "[]", .addAll [loopTree "if", loopTree "null"]]
    Vm.definedLabels program.instructions =
      ["WHILE_EXP7", "IF_TRUE8", "IF_FALSE8", "IF_END8", "WHILE_END7",
        "WHILE_EXP10", "IF_TRUE11", "IF_FALSE11", "IF_END11", "WHILE_END10"] ∧
      (Vm.LabelSupply.sequential 7).Fresh program.labels.taken ∧
      Vm.JumpsResolve program.instructions := by
  intro program
  have hfresh : (Vm.LabelSupply.sequential 7).Fresh program.labels.taken :=
    Vm.LabelSupply.fresh_sequential 7 _
  exact ⟨by rfl, hfresh, Program.jumpsResolve hfresh⟩

end Jack
