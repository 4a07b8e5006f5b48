import Mathlib.Data.List.Forall2
import Jack.Proofs.Program

/-!
# Programs as sequences of compilations

A program does no more than compile one tree after the other. Its units are what the trees compile
to on their own, if the supply of each is what the trees before it have left, and a batch is a
sequence of single classes.
-/

namespace Jack.Program

/-! ## Trees that are compiled one by one -/

/-- The results of compiling trees one by one. What a tree takes from the supply, also when it
fails, the trees after it do not get. -/
def results (options : Options) : Vm.LabelSupply → List Node → List (Except Fault ClassCode)
  | _, [] => []
  | labels, root :: rest =>
    (compile labels root options).result ::
      results options (compile labels root options).labels rest

/-- What is left of a supply. -/
def supplyAfter (options : Options) (labels : Vm.LabelSupply) (roots : List Node) :
    Vm.LabelSupply :=
  roots.foldl (fun labels root => (compile labels root options).labels) labels

/-- The classes among the results. -/
def succeeded (results : List (Except Fault ClassCode)) : List ClassCode :=
  results.filterMap Except.toOption

/-- The faults among the results, each with its place. The first result has the given place. -/
def failedFrom (index : Nat) : List (Except Fault ClassCode) → List (Nat × Fault)
  | [] => []
  | .ok _ :: rest => failedFrom (index + 1) rest
  | .error fault :: rest => (index, fault) :: failedFrom (index + 1) rest

/-- The trees that an operation compiles. A text that is no tree has none. -/
def Operation.trees (parse : Json.Parser) : Operation → List Node
  | .add root => [root]
  | .addDump text => (Dump.load parse text).toOption.toList
  | .addAll roots => roots

/-- Adds classes one by one and collects the results. -/
def addEach (program : Program) : List Node → List (Except Fault ClassCode) × Program
  | [] => ([], program)
  | root :: rest =>
    let (result, program) := program.add root
    let (results, program) := program.addEach rest
    (result :: results, program)

theorem results_append (options : Options) (roots roots' : List Node) (labels : Vm.LabelSupply) :
    results options labels (roots ++ roots') =
      results options labels roots ++ results options (supplyAfter options labels roots) roots' := by
  induction roots generalizing labels with
  | nil => rfl
  | cons root rest ih =>
    rw [List.cons_append, results, ih]
    rfl

theorem supplyAfter_append (options : Options) (roots roots' : List Node)
    (labels : Vm.LabelSupply) :
    supplyAfter options labels (roots ++ roots') =
      supplyAfter options (supplyAfter options labels roots) roots' := List.foldl_append

theorem length_results (options : Options) (roots : List Node) (labels : Vm.LabelSupply) :
    (results options labels roots).length = roots.length := by
  induction roots generalizing labels with
  | nil => rfl
  | cons root rest ih => rw [results, List.length_cons, ih, List.length_cons]

/-! ## One operation after the other -/

/-- One program comes from another by compiling trees. -/
structure Extends (program : Program) (roots : List Node) (program' : Program) : Prop where
  options_eq : program'.options = program.options
  labels_eq : program'.labels = supplyAfter program.options program.labels roots
  units_eq : program'.units.toList =
    program.units.toList ++ succeeded (results program.options program.labels roots)

variable {program program' program'' : Program} {roots roots' : List Node} {parse : Json.Parser}

theorem Extends.refl (program : Program) : Extends program [] program :=
  ⟨rfl, rfl, (List.append_nil _).symm⟩

theorem Extends.trans (h : Extends program roots program') (h' : Extends program' roots' program'') :
    Extends program (roots ++ roots') program'' := by
  obtain ⟨hoptions, hlabels, hunits⟩ := h
  obtain ⟨hoptions', hlabels', hunits'⟩ := h'
  constructor
  case options_eq => rw [hoptions', hoptions]
  case labels_eq => rw [hlabels', supplyAfter_append, hoptions, hlabels]
  case units_eq =>
    rw [hunits', hunits, hoptions, hlabels, results_append, succeeded, succeeded, succeeded,
      List.filterMap_append, List.append_assoc]

theorem Extends.note (h : Extends program roots program') (notice : Notice) :
    Extends program roots (program'.note notice) := ⟨h.options_eq, h.labels_eq, h.units_eq⟩

theorem result_add (program : Program) (root : Node) :
    (program.add root).1 = (compile program.labels root program.options).result := by
  unfold add
  dsimp only
  split
  · next h => rw [h]
  · next h => rw [h]

theorem units_add_ok {root : Node} {unit : ClassCode} (h : (program.add root).1 = .ok unit) :
    (program.add root).2.units = program.units.push unit := by
  rw [result_add] at h
  unfold add
  dsimp only
  rw [h]
  rfl

theorem units_add_error {root : Node} {fault : Fault} (h : (program.add root).1 = .error fault) :
    (program.add root).2.units = program.units := by
  rw [result_add] at h
  unfold add
  dsimp only
  rw [h]

theorem options_add (program : Program) (root : Node) :
    (program.add root).2.options = program.options := by
  unfold add
  dsimp only
  split <;> rfl

theorem extends_add (program : Program) (root : Node) :
    Extends program [root] (program.add root).2 := by
  refine ⟨options_add .., labels_add .., ?_⟩
  show _ = program.units.toList ++
    succeeded [(compile program.labels root program.options).result]
  rw [← result_add]
  cases h : (program.add root).1 with
  | ok unit =>
    rw [units_add_ok h, Array.toList_push]
    rfl
  | error fault =>
    rw [units_add_error h]
    exact (List.append_nil _).symm

theorem extends_addDump (program : Program) (text : String) :
    Extends program ((Operation.addDump text).trees parse) (program.addDump parse text).2 := by
  show Extends program (Dump.load parse text).toOption.toList _
  unfold addDump
  split
  · next h =>
    rw [h]
    exact .refl program
  · next root h =>
    rw [h]
    exact extends_add program root

theorem extends_addAllFrom (roots : List Node) : ∀ (program : Program) (report : Report)
    (index : Nat), Extends program roots (program.addAllFrom report index roots).2 := by
  induction roots with
  | nil => exact fun program _ _ => .refl program
  | cons root rest ih =>
    intro program report index
    have hadd := extends_add program root
    unfold addAllFrom
    split
    · next hresult =>
      rw [hresult] at hadd
      exact hadd.trans (ih _ _ _)
    · next hresult =>
      rw [hresult] at hadd
      exact (hadd.note _).trans (ih _ _ _)

theorem extends_perform (program : Program) (operation : Operation) :
    Extends program (operation.trees parse) (program.perform parse operation) := by
  cases operation with
  | add root => exact extends_add program root
  | addDump text => exact extends_addDump program text
  | addAll roots => exact extends_addAllFrom roots program {} 0

theorem extends_performAll (operations : List Operation) : ∀ program : Program,
    Extends program (operations.flatMap (Operation.trees parse))
      (program.performAll parse operations) := by
  induction operations with
  | nil => exact .refl
  | cons operation rest ih =>
    intro program
    rw [List.flatMap_cons]
    exact (extends_perform program operation).trans (ih _)

/-! ## Batches -/

theorem extends_addEach (roots : List Node) : ∀ program : Program,
    Extends program roots (program.addEach roots).2 := by
  induction roots with
  | nil => exact .refl
  | cons root rest ih => exact fun program => (extends_add program root).trans (ih _)

theorem results_addEach (roots : List Node) : ∀ program : Program,
    (program.addEach roots).1 = results program.options program.labels roots := by
  induction roots with
  | nil => exact fun _ => rfl
  | cons root rest ih =>
    intro program
    show (program.add root).1 :: ((program.add root).2.addEach rest).1 = _
    rw [ih, result_add, options_add, labels_add]
    rfl

/-- A batch reports the results of its trees. -/
theorem report_addAllFrom (roots : List Node) : ∀ (program : Program) (report : Report)
    (index : Nat),
    let report' := (program.addAllFrom report index roots).1
    let compiled := results program.options program.labels roots
    report'.units.toList = report.units.toList ++ succeeded compiled ∧
      report'.failures.toList = report.failures.toList ++ failedFrom index compiled := by
  induction roots with
  | nil => exact fun _ _ _ => ⟨(List.append_nil _).symm, (List.append_nil _).symm⟩
  | cons root rest ih =>
    intro program report index
    have hresult := result_add program root
    have hoptions := options_add program root
    have hlabels := labels_add program root
    unfold addAllFrom results
    split
    · next unit program' hadd =>
      rw [hadd] at hresult hoptions hlabels
      obtain ⟨hunits, hfailures⟩ :=
        ih program' { report with units := report.units.push unit } (index + 1)
      rw [← hresult, ← hlabels, ← hoptions]
      refine ⟨?_, hfailures⟩
      rw [hunits, Array.toList_push, List.append_assoc]
      rfl
    · next fault program' hadd =>
      rw [hadd] at hresult hoptions hlabels
      obtain ⟨hunits, hfailures⟩ := ih (program'.note (.classFailed index fault))
        { report with failures := report.failures.push (index, fault) } (index + 1)
      rw [← hresult, ← hlabels, ← hoptions]
      refine ⟨hunits, ?_⟩
      rw [hfailures, Array.toList_push, List.append_assoc]
      rfl

/-- A fault is listed with its place, and at that place only. -/
theorem mem_failedFrom {results : List (Except Fault ClassCode)} {index i : Nat} {fault : Fault} :
    (i, fault) ∈ failedFrom index results ↔ (.error fault, i) ∈ results.zipIdx index := by
  induction results generalizing index with
  | nil => exact iff_of_false nofun nofun
  | cons result rest ih =>
    cases result with
    | ok unit => simp [failedFrom, ih]
    | error fault' => simp [failedFrom, ih, and_comm]

/-- The places of the failures go up, and the classes that compiled have all the other places, in
order. -/
theorem exists_places (results : List (Except Fault ClassCode)) : ∀ index : Nat,
    ((failedFrom index results).map Prod.fst).Pairwise (· < ·) ∧
    ∃ places : List Nat, places.Pairwise (· < ·) ∧
      (places ++ (failedFrom index results).map Prod.fst).Perm
        (List.range' index results.length) ∧
      List.Forall₂ (fun i unit => (Except.ok unit, i) ∈ results.zipIdx index) places
        (succeeded results) := by
  induction results with
  | nil => exact fun _ => ⟨.nil, [], .nil, .nil, .nil⟩
  | cons result rest ih =>
    intro index
    obtain ⟨hfailures, places, hplaces, hperm, hunits⟩ := ih (index + 1)
    -- All places after this one are higher.
    have habove : ∀ i ∈ places ++ (failedFrom (index + 1) rest).map Prod.fst, index < i := by
      intro i hi
      have hrange := List.mem_range'_1.1 (hperm.mem_iff.1 hi)
      omega
    have hunits' : List.Forall₂
        (fun i unit => (Except.ok unit, i) ∈ (result :: rest).zipIdx index) places
        (succeeded rest) :=
      hunits.imp fun _ _ hmem => List.mem_cons_of_mem _ hmem
    rw [List.length_cons, List.range'_succ]
    cases result with
    | ok unit =>
      refine ⟨hfailures, index :: places, ?_, hperm.cons index, .cons (List.mem_cons_self ..) hunits'⟩
      exact hplaces.cons fun i hi => habove i (List.mem_append_left _ hi)
    | error fault =>
      refine ⟨?_, places, hplaces, List.perm_middle.trans (hperm.cons index), hunits'⟩
      exact hfailures.cons fun i hi => habove i (List.mem_append_right _ hi)

/-- A report says of each result what it was. -/
structure Covers (report : Report) (results : List (Except Fault ClassCode)) : Prop where
  units_eq : report.units.toList = succeeded results
  failures_iff : ∀ i fault, (i, fault) ∈ report.failures ↔ results[i]? = some (.error fault)
  increasing : (report.failures.toList.map Prod.fst).Pairwise (· < ·)
  /-- The units have the places that are left, so that every place is accounted for once. -/
  complete : ∃ places : List Nat, places.Pairwise (· < ·) ∧
    (places ++ report.failures.toList.map Prod.fst).Perm (List.range results.length) ∧
    List.Forall₂ (fun i unit => results[i]? = some (.ok unit)) places report.units.toList

theorem covers_addAll (program : Program) (roots : List Node) :
    Covers (program.addAll roots).1 (results program.options program.labels roots) := by
  obtain ⟨hunits, hfailures⟩ := report_addAllFrom roots program {} 0
  obtain ⟨hincreasing, places, hplaces, hperm, hforall⟩ :=
    exists_places (results program.options program.labels roots) 0
  have hunits : (program.addAll roots).1.units.toList = _ := hunits
  have hfailures : (program.addAll roots).1.failures.toList = _ := hfailures
  rw [List.nil_append] at hunits hfailures
  constructor
  case units_eq => exact hunits
  case failures_iff =>
    intro i fault
    rw [← Array.mem_toList_iff, hfailures, mem_failedFrom, List.mem_zipIdx_iff_getElem?]
  case increasing =>
    rw [hfailures]
    exact hincreasing
  case complete =>
    rw [hfailures, hunits, List.range_eq_range']
    refine ⟨places, hplaces, hperm, hforall.imp fun _ _ hmem => ?_⟩
    exact List.mem_zipIdx_iff_getElem?.1 hmem

/-- A batch leaves the program that single classes leave. Only the notices differ, since a batch
also reports its failures there. -/
theorem addAll_eq_addEach (program : Program) (roots : List Node) :
    { (program.addAll roots).2 with notices := (program.addEach roots).2.notices } =
      (program.addEach roots).2 := by
  have hall : Extends program roots (program.addAll roots).2 := extends_addAllFrom roots program {} 0
  have heach := extends_addEach roots program
  have hlabels := hall.labels_eq.trans heach.labels_eq.symm
  have hoptions := hall.options_eq.trans heach.options_eq.symm
  have hunits : (program.addAll roots).2.units = (program.addEach roots).2.units :=
    Array.toList_inj.1 (hall.units_eq.trans heach.units_eq.symm)
  dsimp only
  rw [hlabels, hoptions, hunits]

/-! ## Merged code -/

theorem mergedText_eq (program : Program) :
    program.mergedText = String.join (program.units.toList.map fun unit => unit.code.text) := by
  rw [mergedText, ← Array.foldl_toList, String.join, List.foldl_map]

theorem mergedText_of_units_eq (h : program'.units = program.units) :
    program'.mergedText = program.mergedText := by
  rw [mergedText, mergedText, h]

end Jack.Program

namespace Jack

open Program

/-- However texts are parsed, and whatever a program has been asked to do, its units are what the
trees compiled to one by one, and every further operation compiles with the supply as it is now. An
operation that fails adds nothing to the units and the merged text, and if there is no tree it takes
no label. A batch is the same as its classes one by one, and it says of each what became of it. -/
theorem Program.performAll_compose (parse : Json.Parser) (labels : Vm.LabelSupply)
    (options : Options) (operations : List Operation) :
    let program := performAll parse { labels, options } operations
    let roots := operations.flatMap (Operation.trees parse)
    program.options = options ∧
    program.labels = supplyAfter options labels roots ∧
    program.units.toList = succeeded (results options labels roots) ∧
    program.mergedText = String.join (program.units.toList.map fun unit => unit.code.text) ∧
    (∀ root,
      (program.add root).1 = (compile program.labels root options).result ∧
      (∀ unit, (program.add root).1 = .ok unit →
        (program.add root).2.units = program.units.push unit) ∧
      ∀ fault, (program.add root).1 = .error fault →
        (program.add root).2.units = program.units ∧
        (program.add root).2.mergedText = program.mergedText) ∧
    (∀ text,
      (∀ error, Dump.load parse text = .error error →
        program.addDump parse text = (.error (.tree error), program)) ∧
      ∀ root, Dump.load parse text = .ok root →
        program.addDump parse text =
          ((program.add root).1.mapError .compilation, (program.add root).2)) ∧
    ∀ roots,
      (program.addEach roots).1 = results options program.labels roots ∧
      (program.addEach roots).1.length = roots.length ∧
      { (program.addAll roots).2 with notices := (program.addEach roots).2.notices } =
        (program.addEach roots).2 ∧
      (program.addAll roots).2.units = program.units ++ (program.addAll roots).1.units ∧
      Covers (program.addAll roots).1 (program.addEach roots).1 := by
  intro program roots
  have hprogram : Extends { labels, options } roots program := extends_performAll operations _
  have hoptions : program.options = options := hprogram.options_eq
  refine ⟨hoptions, hprogram.labels_eq, hprogram.units_eq, mergedText_eq program, ?_, ?_, ?_⟩
  · intro root
    refine ⟨?_, fun unit hok => units_add_ok hok, fun fault herror => ?_⟩
    · rw [result_add, hoptions]
    · have hunits := units_add_error herror
      exact ⟨hunits, mergedText_of_units_eq hunits⟩
  · intro text
    constructor
    · intro error herror
      rw [addDump, herror]
    · intro root hroot
      rw [addDump, hroot]
  · intro roots
    have hall : Extends program roots (program.addAll roots).2 :=
      extends_addAllFrom roots program {} 0
    have hcovers := covers_addAll program roots
    refine ⟨?_, ?_, addAll_eq_addEach program roots, ?_, ?_⟩
    · rw [results_addEach, hoptions]
    · rw [results_addEach, length_results]
    · apply Array.toList_inj.1
      rw [Array.toList_append, hcovers.units_eq, hall.units_eq]
    · rw [results_addEach]
      exact hcovers

end Jack
