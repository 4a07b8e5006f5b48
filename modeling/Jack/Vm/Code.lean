import Jack.Vm.Instruction

/-!
# VM code

A sequence of instructions in the order of their emission, and its text: one line for each
instruction, every line ended by a line feed.
-/

namespace Jack.Vm

/-- Instructions in the order of their emission. -/
structure Code where
  instructions : Array Instruction := #[]
deriving DecidableEq, Repr, Inhabited

namespace Code

/-- The number of instructions. -/
def size (code : Code) : Nat := code.instructions.size

/-- Whether nothing has been emitted. -/
def isEmpty (code : Code) : Bool := code.instructions.isEmpty

/-- The instructions, first to last. -/
def toList (code : Code) : List Instruction := code.instructions.toList

/-- Appends one instruction. -/
def emit (code : Code) (instruction : Instruction) : Code :=
  ⟨code.instructions.push instruction⟩

/-- The written instructions, without line ends. -/
def lines (code : Code) : Array String := code.instructions.map Instruction.text

/-- The whole text. Each line, also the last, is ended by a line feed. -/
def text (code : Code) : String :=
  code.instructions.foldl (fun written instruction => written ++ instruction.text ++ "\n") ""

/-- Writes the text to a sink, one line after the other. A line that cannot be written is the last
one. -/
def writeTo {m : Type → Type} [Monad m] (write : String → m Unit) (code : Code) : m Unit :=
  code.toList.forM fun instruction => write (instruction.text ++ "\n")

@[simp] theorem toList_empty : (⟨#[]⟩ : Code).toList = [] := rfl

@[simp] theorem toList_emit (code : Code) (i : Instruction) :
    (code.emit i).toList = code.toList ++ [i] := by
  simp only [toList, emit, Array.toList_push]

@[simp] theorem length_toList (code : Code) : code.toList.length = code.size := by
  simp only [toList, size, Array.length_toList]

theorem toList_injective {a b : Code} (h : a.toList = b.toList) : a = b := by
  cases a
  cases b
  simp only [toList] at h
  rw [Array.toList_inj.1 h]

theorem size_lines (code : Code) : code.lines.size = code.size := by
  simp only [lines, size, Array.size_map]

end Code

end Jack.Vm
