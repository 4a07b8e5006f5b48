import Jack.Lexicon.Declaration

/-!
# The stack VM instruction set

Each instruction is written as exactly one line of text, such as `push constant 7`,
`if-goto WHILE_END0` or `call Math.multiply 2`.
-/

namespace Jack.Vm

/-- Named memory regions addressed by a small index. -/
inductive Segment where
  /-- Not stored at all: the index is the value. -/
  | constant
  | argument
  | locals
  | static
  /-- Fields of the current object. -/
  | this
  /-- Whatever `pointer 1` aims at. -/
  | that
  /-- `pointer 0` is the base of `this` and `pointer 1` the base of `that`. -/
  | pointer
  | temp
deriving DecidableEq, Repr, Inhabited

/-- Arithmetic and logic commands, which take their operands from the stack. -/
inductive Arithmetic where
  | add
  | sub
  | neg
  | eq
  | gt
  | lt
  | and
  | or
  | not
deriving DecidableEq, Repr, Inhabited

/-- One VM instruction. -/
inductive Instruction where
  | push (segment : Segment) (index : Nat)
  | pop (segment : Segment) (index : Nat)
  | arithmetic (op : Arithmetic)
  | label (name : String)
  | goto (name : String)
  /-- Jumps when the popped value is not zero. -/
  | ifGoto (name : String)
  /-- Entry of a function that reserves `locals` slots. -/
  | function (name : String) (locals : Nat)
  /-- Calls a function whose `args` arguments are on the stack. -/
  | call (name : String) (args : Nat)
  | ret
deriving DecidableEq, Repr, Inhabited

namespace Segment

/-- All segments. -/
def all : List Segment := [constant, argument, locals, static, this, that, pointer, temp]

/-- The written name. -/
def name : Segment → String
  | constant => "constant"
  | argument => "argument"
  | locals => "local"
  | static => "static"
  | this => "this"
  | that => "that"
  | pointer => "pointer"
  | temp => "temp"

/-- The segment that holds variables of a storage kind. Fields are reached through the current
object. -/
def ofStorage : Storage → Segment
  | .static => static
  | .field => this
  | .argument => argument
  | .localVar => locals

theorem ofStorage_injective {a b : Storage} (h : ofStorage a = ofStorage b) : a = b := by
  cases a <;> cases b <;> first | rfl | cases h

end Segment

namespace Arithmetic

/-- All arithmetic and logic commands. -/
def all : List Arithmetic := [add, sub, neg, eq, gt, lt, and, or, not]

/-- The written name. -/
def name : Arithmetic → String
  | add => "add"
  | sub => "sub"
  | neg => "neg"
  | eq => "eq"
  | gt => "gt"
  | lt => "lt"
  | and => "and"
  | or => "or"
  | not => "not"

end Arithmetic

namespace Instruction

/-- The line of text that writes an instruction, without its line end. -/
def text : Instruction → String
  | push segment index => "push " ++ segment.name ++ " " ++ index.repr
  | pop segment index => "pop " ++ segment.name ++ " " ++ index.repr
  | arithmetic op => op.name
  | label name => "label " ++ name
  | goto name => "goto " ++ name
  | ifGoto name => "if-goto " ++ name
  | function name locals => "function " ++ name ++ " " ++ locals.repr
  | call name args => "call " ++ name ++ " " ++ args.repr
  | ret => "return"

end Instruction

end Jack.Vm
