import Jack.Error
import Jack.Compiler.ClassCode
import Jack.Tree.Dump

/-!
# Programs

A program is a growing list of compiled classes that share one label supply, so that their code
can be merged. A class that fails adds nothing, but the label ids it took stay taken.
-/

namespace Jack

/-- Compiles the class that a tree dump holds. A text that is no tree takes no label id. -/
def compileDump (parse : Json.Parser) (labels : Vm.LabelSupply) (text : String)
    (options : Options := {}) : Except TreeError Outcome := do
  let root ← Dump.load parse text
  return compile labels root options

/-- The classes compiled so far. -/
structure Program where
  labels : Vm.LabelSupply := .sequential 0
  options : Options := {}
  units : Array ClassCode := #[]
  notices : Array Notice := #[]

/-- What became of a batch of classes. -/
structure Report where
  units : Array ClassCode := #[]
  /-- The classes that failed, by their places in the batch. -/
  failures : Array (Nat × Fault) := #[]

/-- Whether every class compiled. -/
def Report.isSuccess (report : Report) : Bool := report.failures.isEmpty

namespace Program

/-- Reports something. -/
def note (program : Program) (notice : Notice) : Program :=
  { program with notices := program.notices.push notice }

/-- Compiles one more class and adds it if that succeeds. -/
def add (program : Program) (root : Node) : Except Fault ClassCode × Program :=
  let outcome := compile program.labels root program.options
  let program :=
    { program with labels := outcome.labels, notices := program.notices ++ outcome.notices }
  match outcome.result with
  | .ok unit =>
    let program := program.note (.classFinished unit.className unit.code.size)
    (.ok unit, { program with units := program.units.push unit })
  | .error fault => (.error fault, program)

/-- Compiles one more class, given as a tree dump. -/
def addDump (program : Program) (parse : Json.Parser) (text : String) :
    Except Error ClassCode × Program :=
  match Dump.load parse text with
  | .error error => (.error (.tree error), program)
  | .ok root =>
    let (result, program) := program.add root
    (result.mapError .compilation, program)

/-- Compiles classes in order and goes on after a failure. The first has the given index, and the
report continues the one of the classes before it. -/
def addAllFrom (program : Program) (report : Report) (index : Nat) :
    List Node → Report × Program
  | [] => (report, program)
  | root :: rest =>
    match program.add root with
    | (.ok unit, program) =>
      program.addAllFrom { report with units := report.units.push unit } (index + 1) rest
    | (.error fault, program) =>
      (program.note (.classFailed index fault)).addAllFrom
        { report with failures := report.failures.push (index, fault) } (index + 1) rest

/-- Compiles a batch of classes in order and goes on after a failure. -/
def addAll (program : Program) (roots : List Node) : Report × Program :=
  program.addAllFrom {} 0 roots

/-- The code of all classes as one text. -/
def mergedText (program : Program) : String :=
  program.units.foldl (fun text unit => text ++ unit.code.text) ""

end Program

end Jack
