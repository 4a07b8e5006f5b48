import Jack.Compiler.Declaration
import Jack.Tree.Padding

/-!
# Compiled classes

Compiling a tree gives the code of a class or the first fault. Either way it says where the label
supply stands afterwards and what was reported on the way.
-/

namespace Jack

/-- How a class is compiled. -/
structure Options where
  /-- Whether the padding of token texts is removed. -/
  unpad : Bool := true
deriving DecidableEq, Repr, Inhabited

/-- The code of one class. -/
structure ClassCode where
  className : String
  code : Vm.Code
deriving DecidableEq, Repr, Inhabited

/-- The result of compiling a class. -/
structure Outcome where
  result : Except Fault ClassCode
  /-- The label supply without the ids that were taken, also by a class that failed. -/
  labels : Vm.LabelSupply
  notices : Array Notice

/-- Compiles the class that the entries spell. -/
def compileEntries (labels : Vm.LabelSupply) (entries : List Entry) : Outcome :=
  match (Compiler.classDec entries.length).run { cursor := { rest := entries }, labels } with
  | .ok className s => ⟨.ok ⟨className, s.code⟩, s.labels, s.notices⟩
  | .error fault s => ⟨.error fault, s.labels, s.notices⟩

/-- Compiles the class of a tree. -/
def compile (labels : Vm.LabelSupply) (root : Node) (options : Options := {}) : Outcome :=
  compileEntries labels <|
    if options.unpad then root.preorder.map (Entry.mapText unpad) else root.preorder

end Jack
