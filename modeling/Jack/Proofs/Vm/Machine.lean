import Mathlib.Logic.Function.Basic
import Mathlib.Logic.Relation
import Jack.Vm.Instruction

/-!
# The stack machine

What the instructions do to a stack of 16-bit words and to the memory of one running function.
Calls are not followed: what a called function does is given as a fixed transformation.
-/

namespace Jack.Vm

abbrev Word := BitVec 16

/-- The true value has all bits set. -/
def Word.ofBool (b : Bool) : Word := if b then .allOnes 16 else 0

/-- What a function can name, the cells aside that code uses between two steps. -/
structure Memory where
  locals : Nat → Word
  arguments : Nat → Word
  statics : Nat → Word
  /-- Objects and arrays. The segments `this` and `that` are windows on it. -/
  heap : Word → Word
  /-- The address of the current object, which is `pointer 0`. -/
  this : Word
  /-- The cells `temp 1`, `temp 2`, and so on. -/
  temps : Nat → Word

/-- The cells that any array access or call may overwrite. -/
structure Scratch where
  /-- Where the window `that` begins, which is `pointer 1`. -/
  that : Word
  /-- The cell `temp 0`. -/
  temp : Word

/-- What called functions do. The result depends on the arguments and on the memory, but not on the
scratch cells. Locals, arguments and the current object of the caller stay as they are. -/
structure Calls where
  result : String → List Word → Memory → Word
  statics : String → List Word → Memory → Nat → Word
  heap : String → List Word → Memory → Word → Word
  scratch : String → List Word → Memory → Scratch → Scratch

/-- The result of a call and the memory after it. -/
def Calls.perform (calls : Calls) (name : String) (args : List Word) (m : Memory) :
    Word × Memory :=
  (calls.result name args m,
    { m with statics := calls.statics name args m, heap := calls.heap name args m })

/-! ## Memory -/

namespace Memory

def store (m : Memory) (address value : Word) : Memory :=
  { m with heap := Function.update m.heap address value }

/-- What is read from a cell that is no scratch cell. -/
def read? (m : Memory) : Segment → Nat → Option Word
  | .constant, n => some (.ofNat 16 n)
  | .argument, i => some (m.arguments i)
  | .locals, i => some (m.locals i)
  | .static, i => some (m.statics i)
  | .this, i => some (m.heap (m.this + .ofNat 16 i))
  | .pointer, 0 => some m.this
  | .temp, i + 1 => some (m.temps i)
  | .that, _ | .pointer, _ + 1 | .temp, 0 => none

/-- What is stored into a cell that is no scratch cell. A constant cannot be changed. -/
def write? (m : Memory) : Segment → Nat → Word → Option Memory
  | .argument, i, w => some { m with arguments := Function.update m.arguments i w }
  | .locals, i, w => some { m with locals := Function.update m.locals i w }
  | .static, i, w => some { m with statics := Function.update m.statics i w }
  | .this, i, w => some (m.store (m.this + .ofNat 16 i) w)
  | .pointer, 0, w => some { m with this := w }
  | .temp, i + 1, w => some { m with temps := Function.update m.temps i w }
  | .constant, _, _ | .that, _, _ | .pointer, _ + 1, _ | .temp, 0, _ => none

end Memory

/-! ## Steps -/

/-- A function that is running. -/
structure Machine where
  /-- The index of the next instruction. -/
  pc : Nat
  /-- The topmost value comes first. -/
  stack : List Word
  memory : Memory
  scratch : Scratch

/-- Applies a command to the topmost values of a stack. Comparisons are signed. -/
def Arithmetic.compute? : Arithmetic → List Word → Option (List Word)
  | add, y :: x :: stack => some ((x + y) :: stack)
  | sub, y :: x :: stack => some ((x - y) :: stack)
  | neg, x :: stack => some (-x :: stack)
  | eq, y :: x :: stack => some (.ofBool (x == y) :: stack)
  | gt, y :: x :: stack => some (.ofBool (y.slt x) :: stack)
  | lt, y :: x :: stack => some (.ofBool (x.slt y) :: stack)
  | and, y :: x :: stack => some ((x &&& y) :: stack)
  | or, y :: x :: stack => some ((x ||| y) :: stack)
  | not, x :: stack => some (~~~x :: stack)
  | _, _ => none

/-- Where a jump to a label goes to. -/
def labelIndex? (is : List Instruction) (name : String) : Option Nat :=
  is.findIdx? (· == .label name)

namespace Machine

def read? (s : Machine) : Segment → Nat → Option Word
  | .that, i => some (s.memory.heap (s.scratch.that + .ofNat 16 i))
  | .pointer, 1 => some s.scratch.that
  | .temp, 0 => some s.scratch.temp
  | segment, i => s.memory.read? segment i

def write? (s : Machine) : Segment → Nat → Word → Option Machine
  | .that, i, w => some { s with memory := s.memory.store (s.scratch.that + .ofNat 16 i) w }
  | .pointer, 1, w => some { s with scratch := { s.scratch with that := w } }
  | .temp, 0, w => some { s with scratch := { s.scratch with temp := w } }
  | segment, i, w => (s.memory.write? segment i w).map fun memory => { s with memory }

/-- The machine in front of the next instruction. -/
def next (s : Machine) (stack : List Word) : Machine := { s with pc := s.pc + 1, stack }

/-- What an instruction does. A function does not go beyond its return, nor into a header. -/
def execute? (calls : Calls) (is : List Instruction) (s : Machine) : Instruction → Option Machine
  | .push segment i => (s.read? segment i).map fun w => s.next (w :: s.stack)
  | .pop segment i =>
    match s.stack with
    | w :: stack => (s.next stack).write? segment i w
    | [] => none
  | .arithmetic op => (op.compute? s.stack).map s.next
  | .label _ => some (s.next s.stack)
  | .goto name => (labelIndex? is name).map fun pc => { s with pc }
  | .ifGoto name =>
    match s.stack with
    | w :: stack =>
      if w = 0 then some (s.next stack)
      else (labelIndex? is name).map fun pc => { s with pc, stack }
    | [] => none
  | .call name args =>
    if args ≤ s.stack.length then
      let values := (s.stack.take args).reverse
      let (result, memory) := calls.perform name values s.memory
      let scratch := calls.scratch name values s.memory s.scratch
      some ⟨s.pc + 1, result :: s.stack.drop args, memory, scratch⟩
    else none
  | .function .. | .ret => none

/-- One step of the code. -/
def step? (calls : Calls) (is : List Instruction) (s : Machine) : Option Machine :=
  is[s.pc]?.bind (s.execute? calls is)

/-- The code leads from one state to another. What the calls do may depend on the scratch cells. -/
def Runs (calls : Scratch → Calls) (is : List Instruction) : Machine → Machine → Prop :=
  Relation.ReflTransGen fun s s' => s.step? (calls s.scratch) is = some s'

/-- The code leads from one state to another, with the same calls everywhere. -/
abbrev Reaches (calls : Calls) (is : List Instruction) : Machine → Machine → Prop :=
  Runs (fun _ => calls) is

end Machine

/-! ## Code at a place -/

/-- A piece of code stands at an index, and jumps find the labels that it defines. -/
structure Placed (is : List Instruction) (start : Nat) (piece : List Instruction) : Prop where
  getElem?_eq : ∀ {i : Nat} {x}, piece[i]? = some x → is[start + i]? = some x
  labelIndex?_eq : ∀ {i : Nat} {name}, piece[i]? = some (.label name) →
    labelIndex? is name = some (start + i)

namespace Placed

variable {is piece piece' : List Instruction} {x : Instruction} {start : Nat}

theorem left (h : Placed is start (piece ++ piece')) : Placed is start piece := by
  have hleft {i : Nat} {x : Instruction} (hx : piece[i]? = some x) :
      (piece ++ piece')[i]? = some x := by
    rw [List.getElem?_append_left (List.getElem?_eq_some_iff.1 hx).1]
    exact hx
  exact ⟨fun hx => h.getElem?_eq (hleft hx), fun hx => h.labelIndex?_eq (hleft hx)⟩

theorem right (h : Placed is start (piece ++ piece')) :
    Placed is (start + piece.length) piece' := by
  have hright {i : Nat} {x : Instruction} (hx : piece'[i]? = some x) :
      (piece ++ piece')[piece.length + i]? = some x := by
    rw [List.getElem?_append_right (Nat.le_add_right _ _), Nat.add_sub_cancel_left]
    exact hx
  constructor
  · intro i x hx
    rw [Nat.add_assoc]
    exact h.getElem?_eq (hright hx)
  · intro i name hx
    rw [Nat.add_assoc]
    exact h.labelIndex?_eq (hright hx)

theorem head (h : Placed is start (x :: piece)) : is[start]? = some x :=
  h.getElem?_eq (i := 0) rfl

theorem tail (h : Placed is start (x :: piece)) : Placed is (start + 1) piece :=
  @right is [x] piece start h

end Placed

end Jack.Vm
