import Jack.Compiler.Idiom
import Jack.Vm.Label

/-!
# Structured code

The code of a class before it is written down as one sequence: operands leave one value on the
stack, commands leave the stack as it was, and a routine is a header followed by commands.
-/

namespace Jack.Vm

/-- Code that leaves one value. -/
inductive Operand where
  | push (segment : Segment) (index : Nat)
  | unary (op : UnaryOp) (operand : Operand)
  | binary (op : BinaryOp) (left right : Operand)
  | call (name : String) (arguments : List Operand)
  /-- What is stored at an address. -/
  | fetch (address : Operand)

inductive Command where
  | store (target : Slot) (value : Operand)
  | storeElement (address value : Operand)
  | ifThen (id : LabelId) (condition : Operand) (onTrue : List Command)
  | ifElse (id : LabelId) (condition : Operand) (onTrue onFalse : List Command)
  | loop (id : LabelId) (condition : Operand) (body : List Command)
  | drop (value : Operand)
  | leave (result : Option Operand)
  /-- Returns zero; a value that is written nevertheless is computed and dropped. -/
  | leaveVoid (dropped : Option Operand)

structure Routine where
  name : String
  locals : Nat
  commands : List Command

mutual

def Operand.code : Operand → List Instruction
  | .push segment index => [.push segment index]
  | .unary op operand => operand.code ++ [op.instruction]
  | .binary op left right => left.code ++ right.code ++ [op.instruction]
  | .call name arguments => operandsCode arguments ++ [.call name arguments.length]
  | .fetch address => address.code ++ fetchElement

def operandsCode : List Operand → List Instruction
  | [] => []
  | o :: rest => o.code ++ operandsCode rest

end

mutual

def Command.code : Command → List Instruction
  | .store target value => value.code ++ [target.pop]
  | .storeElement address value => address.code ++ value.code ++ Jack.storeElement
  | .ifThen id condition onTrue =>
    let labels := IfLabels.ofId id
    condition.code ++ [.ifGoto labels.onTrue, .goto labels.onFalse, .label labels.onTrue] ++
      commandsCode onTrue ++ [.label labels.onFalse]
  | .ifElse id condition onTrue onFalse =>
    let labels := IfLabels.ofId id
    condition.code ++ [.ifGoto labels.onTrue, .goto labels.onFalse, .label labels.onTrue] ++
      commandsCode onTrue ++ [.goto labels.done, .label labels.onFalse] ++
      commandsCode onFalse ++ [.label labels.done]
  | .loop id condition body =>
    let labels := WhileLabels.ofId id
    [.label labels.condition] ++ condition.code ++ [.arithmetic .not, .ifGoto labels.done] ++
      commandsCode body ++ [.goto labels.condition, .label labels.done]
  | .drop value => value.code ++ [discard]
  | .leave none => [.ret]
  | .leave (some value) => value.code ++ [.ret]
  | .leaveVoid none => [.push .constant 0, .ret]
  | .leaveVoid (some value) => value.code ++ [discard, .push .constant 0, .ret]

def commandsCode : List Command → List Instruction
  | [] => []
  | c :: rest => c.code ++ commandsCode rest

end

def Routine.code (r : Routine) : List Instruction :=
  .function r.name r.locals :: commandsCode r.commands

@[simp] theorem operandsCode_append (os os' : List Operand) :
    operandsCode (os ++ os') = operandsCode os ++ operandsCode os' := by
  induction os with
  | nil => rfl
  | cons o os ih => simp only [List.cons_append, operandsCode, ih, List.append_assoc]

@[simp] theorem commandsCode_append (cs cs' : List Command) :
    commandsCode (cs ++ cs') = commandsCode cs ++ commandsCode cs' := by
  induction cs with
  | nil => rfl
  | cons c cs ih => simp only [List.cons_append, commandsCode, ih, List.append_assoc]

theorem commandsCode_eq_flatMap (cs : List Command) :
    commandsCode cs = cs.flatMap Command.code := by
  induction cs with
  | nil => rfl
  | cons c cs ih => rw [commandsCode, ih, List.flatMap_cons]

/-! ## Parts -/

namespace Operand

/-- The operands that are computed first. -/
def parts : Operand → List Operand
  | push .. => []
  | unary _ operand => [operand]
  | binary _ left right => [left, right]
  | call _ arguments => arguments
  | fetch address => [address]

/-- What is done with the values of the parts. -/
def finish : Operand → List Instruction
  | push segment index => [.push segment index]
  | unary op _ => [op.instruction]
  | binary op _ _ => [op.instruction]
  | call name arguments => [.call name arguments.length]
  | fetch _ => fetchElement

theorem code_eq (o : Operand) : o.code = operandsCode o.parts ++ o.finish := by
  cases o <;> simp only [code, parts, finish, operandsCode, List.append_nil, List.nil_append,
    List.append_assoc]

/-- The parts are smaller than the whole, so a property passes from the parts to the whole. -/
theorem induction_parts {P : Operand → Prop} (step : ∀ o, (∀ p ∈ o.parts, P p) → P o)
    (o : Operand) : P o :=
  step o fun p _hp => induction_parts step p
termination_by sizeOf o
decreasing_by
  cases o with
  | push => cases _hp
  | unary op operand =>
    obtain rfl : p = operand := List.mem_singleton.1 _hp
    simp only [unary.sizeOf_spec]
    omega
  | binary op left right =>
    have hp : p = left ∨ p = right := by
      simpa only [parts, List.mem_cons, List.not_mem_nil, or_false] using _hp
    simp only [binary.sizeOf_spec]
    rcases hp with rfl | rfl <;> omega
  | call name arguments =>
    -- The arguments are the only parts that are nested in a list.
    have := List.sizeOf_lt_of_mem (show p ∈ arguments from _hp)
    simp only [call.sizeOf_spec]
    omega
  | fetch address =>
    obtain rfl : p = address := List.mem_singleton.1 _hp
    simp only [fetch.sizeOf_spec]
    omega

end Operand

theorem operandsCode_eq_flatMap (os : List Operand) :
    operandsCode os = os.flatMap Operand.code := by
  induction os with
  | nil => rfl
  | cons o os ih => rw [operandsCode, ih, List.flatMap_cons]

/-- What the code of a command is put together from. -/
inductive Piece where
  | fixed (is : List Instruction)
  | operand (o : Operand)
  | block (cs : List Command)

def Piece.code : Piece → List Instruction
  | fixed is => is
  | operand o => o.code
  | block cs => commandsCode cs

def piecesCode (ps : List Piece) : List Instruction := ps.flatMap Piece.code

@[simp] theorem piecesCode_nil : piecesCode [] = [] := rfl

@[simp] theorem piecesCode_cons (p : Piece) (ps : List Piece) :
    piecesCode (p :: ps) = p.code ++ piecesCode ps := List.flatMap_cons

@[simp] theorem piecesCode_append (ps ps' : List Piece) :
    piecesCode (ps ++ ps') = piecesCode ps ++ piecesCode ps' := List.flatMap_append

namespace Command

def pieces : Command → List Piece
  | store target value => [.operand value, .fixed [target.pop]]
  | storeElement address value => [.operand address, .operand value, .fixed Jack.storeElement]
  | ifThen id condition onTrue =>
    let labels := IfLabels.ofId id
    [.operand condition,
      .fixed [.ifGoto labels.onTrue, .goto labels.onFalse, .label labels.onTrue],
      .block onTrue, .fixed [.label labels.onFalse]]
  | ifElse id condition onTrue onFalse =>
    let labels := IfLabels.ofId id
    [.operand condition,
      .fixed [.ifGoto labels.onTrue, .goto labels.onFalse, .label labels.onTrue],
      .block onTrue, .fixed [.goto labels.done, .label labels.onFalse],
      .block onFalse, .fixed [.label labels.done]]
  | loop id condition body =>
    let labels := WhileLabels.ofId id
    [.fixed [.label labels.condition], .operand condition,
      .fixed [.arithmetic .not, .ifGoto labels.done],
      .block body, .fixed [.goto labels.condition, .label labels.done]]
  | drop value => [.operand value, .fixed [discard]]
  | leave none => [.fixed [.ret]]
  | leave (some value) => [.operand value, .fixed [.ret]]
  | leaveVoid none => [.fixed [.push .constant 0, .ret]]
  | leaveVoid (some value) => [.operand value, .fixed [discard, .push .constant 0, .ret]]

theorem code_eq (c : Command) : c.code = piecesCode c.pieces := by
  rcases c with _ | _ | _ | _ | _ | _ | ⟨_ | _⟩ | ⟨_ | _⟩ <;>
    simp only [code, pieces, piecesCode_cons, piecesCode_nil, Piece.code, List.append_nil,
      List.append_assoc]

/-- The blocks of a command are smaller than the command, so a property passes from the commands of
its blocks to the command. -/
theorem induction_blocks {P : Command → Prop}
    (step : ∀ c, (∀ cs, .block cs ∈ c.pieces → ∀ d ∈ cs, P d) → P c) (c : Command) : P c :=
  step c fun cs _hcs d _hd => induction_blocks step d
termination_by sizeOf c
decreasing_by
  -- The command is smaller than its block, which is a field of the whole.
  have hlt := List.sizeOf_lt_of_mem _hd
  rcases c with _ | _ | ⟨id, o, onTrue⟩ | ⟨id, o, onTrue, onFalse⟩ | ⟨id, o, body⟩ | _ |
    ⟨_ | _⟩ | ⟨_ | _⟩ <;>
    simp only [pieces, List.mem_cons, List.not_mem_nil, or_false, reduceCtorEq, false_or,
      Piece.block.injEq] at _hcs
  · subst _hcs
    simp only [ifThen.sizeOf_spec]
    omega
  · simp only [ifElse.sizeOf_spec]
    rcases _hcs with rfl | rfl <;> omega
  · subst _hcs
    simp only [loop.sizeOf_spec]
    omega

end Command

/-! ## Prologues -/

/-- What a subroutine does before its statements. -/
def prologue (fields : Nat) : SubroutineKind → List Command
  | .constructor => [.store ⟨.pointer, 0⟩ (.call Os.alloc [.push .constant fields])]
  | .function => []
  | .method => [.store ⟨.pointer, 0⟩ (.push .argument 0)]

theorem commandsCode_prologue (fields : Nat) (kind : SubroutineKind) :
    commandsCode (prologue fields kind) = kind.prologue fields := by
  cases kind <;> rfl

end Jack.Vm
