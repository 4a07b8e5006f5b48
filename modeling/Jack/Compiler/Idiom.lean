import Jack.Lexicon.Operator
import Jack.Scope.Basic

/-!
# Instruction idioms

The fixed instruction sequences for operators, constants, strings and variables. Multiplication,
division, strings and allocation are left to the operating system.
-/

namespace Jack

open Vm (Instruction)

/-- The greatest constant that the VM can push. -/
def maxConstant : Nat := 32767

/-- The greatest number of arguments of a call, the receiver included. -/
def argumentLimit : Nat := 65535

namespace Os

/-- Reserves memory of a given size and returns its address. -/
def alloc : String := "Memory.alloc"

/-- Makes an empty string of a given capacity. -/
def newString : String := "String.new"

/-- Adds one character to a string and returns the string. -/
def appendChar : String := "String.appendChar"

def multiply : String := "Math.multiply"

def divide : String := "Math.divide"

end Os

/-- Pushes the object of the current method or constructor. -/
def pushThis : Instruction := .push .pointer 0

/-- Pushes the value of a variable. -/
def Slot.push (slot : Slot) : Instruction := .push slot.segment slot.index

/-- Stores into a variable. -/
def Slot.pop (slot : Slot) : Instruction := .pop slot.segment slot.index

/-- Applies a binary operator to the two topmost values. -/
def BinaryOp.instruction : BinaryOp → Instruction
  | add => .arithmetic .add
  | sub => .arithmetic .sub
  | mul => .call Os.multiply 2
  | div => .call Os.divide 2
  | and => .arithmetic .and
  | or => .arithmetic .or
  | less => .arithmetic .lt
  | greater => .arithmetic .gt
  | equal => .arithmetic .eq

/-- Applies a unary operator to the topmost value. -/
def UnaryOp.instruction : UnaryOp → Instruction
  | neg => .arithmetic .neg
  | not => .arithmetic .not

/-- Pushes the value of a keyword constant. All bits are set in the true value. -/
def KeywordConstant.instructions : KeywordConstant → List Instruction
  | true => [.push .constant 0, .arithmetic .not]
  | false | null => [.push .constant 0]
  | this => [pushThis]

/-- Makes `pointer 1` aim at the address on top of the stack and pushes what is stored there. -/
def fetchElement : List Instruction := [.pop .pointer 1, .push .that 0]

/-- Stores the topmost value at the address below it. The address moves into `pointer 1` only now,
since computing the value may have moved `pointer 1` as well. -/
def storeElement : List Instruction :=
  [.pop .temp 0, .pop .pointer 1, .push .temp 0, .pop .that 0]

/-- Drops the topmost value. -/
def discard : Instruction := .pop .temp 0

/-- Builds a string: its length first, then one character after the other. The error is the text
that does not fit into a constant, the whole string if it is too long. -/
def stringInstructions (s : String) : Except String (List Instruction) :=
  if s.length > maxConstant then
    .error s
  else
    match s.toList.find? fun c => c.toNat > maxConstant with
    | some c => .error (String.singleton c)
    | none =>
      .ok ([.push .constant s.length, .call Os.newString 1] ++
        s.toList.flatMap fun c => [.push .constant c.toNat, .call Os.appendChar 2])

/-- What a subroutine does before its statements: a constructor allocates its object, and a method
takes over the object that it receives. -/
def SubroutineKind.prologue (fields : Nat) : SubroutineKind → List Instruction
  | constructor => [.push .constant fields, .call Os.alloc 1, .pop .pointer 0]
  | function => []
  | method => [.push .argument 0, .pop .pointer 0]

end Jack
