import Jack.Proofs.Vm.Structured

/-!
# Stack heights

The height of the stack in front of an instruction is found by one scan of the code in front of it.
In structured code the scan never meets a value that is not there, and it is back at zero wherever
a jump leaves or lands.
-/

namespace Jack.Vm

namespace Instruction

/-- The number of values taken from the stack. What a return takes is stated of returns alone. -/
def pops : Instruction → Nat
  | push .. | label _ | goto _ | function .. | ret => 0
  | pop .. | ifGoto _ | arithmetic .neg | arithmetic .not => 1
  | arithmetic _ => 2
  | call _ args => args

def pushes : Instruction → Nat
  | push .. | arithmetic _ | call .. => 1
  | pop .. | label _ | goto _ | ifGoto _ | function .. | ret => 0

/-- The label that is jumped to. -/
def target? : Instruction → Option String
  | goto name | ifGoto name => some name
  | _ => none

/-- Whether control can go on with the next instruction. -/
def fallsThrough : Instruction → Bool
  | goto _ | ret => false
  | _ => true

/-- Whether an instruction is a label or a jump. -/
def isControl : Instruction → Bool
  | label _ | goto _ | ifGoto _ => true
  | _ => false

/-- The height behind an instruction, given the height in front of it. Behind a return the next
statement starts anew. -/
def heightAfter (h : Nat) : Instruction → Nat
  | ret => 0
  | i => h - i.pops + i.pushes

theorem heightAfter_of_fallsThrough {i : Instruction} (hi : i.fallsThrough = true) (h : Nat) :
    i.heightAfter h = h - i.pops + i.pushes := by
  cases i <;> first | rfl | cases hi

/-- What an instruction may meet: it leaves `base` values alone, and control passes only between
places with an empty stack. -/
structure Fits (base h : Nat) (i : Instruction) : Prop where
  pops_le : base + i.pops ≤ h
  control : i.isControl = true → h = i.pops
  ret : i = .ret → base = 0

end Instruction

open Instruction

/-! ## One scan -/

/-- The height behind code. -/
def heightFrom (h : Nat) (is : List Instruction) : Nat :=
  is.foldl (fun h i => i.heightAfter h) h

@[simp] theorem heightFrom_nil (h : Nat) : heightFrom h [] = h := rfl

@[simp] theorem heightFrom_cons (h : Nat) (i : Instruction) (is : List Instruction) :
    heightFrom h (i :: is) = heightFrom (i.heightAfter h) is := rfl

@[simp] theorem heightFrom_append (h : Nat) (is js : List Instruction) :
    heightFrom h (is ++ js) = heightFrom (heightFrom h is) js := List.foldl_append

/-- Every instruction fits where it stands. -/
def Checked (base h : Nat) : List Instruction → Prop
  | [] => True
  | i :: is => i.Fits base h ∧ Checked base (i.heightAfter h) is

theorem checked_append {base h : Nat} {is js : List Instruction} :
    Checked base h (is ++ js) ↔ Checked base h is ∧ Checked base (heightFrom h is) js := by
  induction is generalizing h with
  | nil => exact ⟨fun h => ⟨trivial, h⟩, fun h => h.2⟩
  | cons i is ih =>
    rw [List.cons_append, heightFrom_cons, Checked, Checked, ih, and_assoc]

theorem Checked.fits {base h : Nat} {before after : List Instruction} {i : Instruction}
    (hc : Checked base h (before ++ i :: after)) : i.Fits base (heightFrom h before) :=
  (checked_append.1 hc).2.1

theorem Instruction.Fits.base_le {base h : Nat} {i : Instruction} (hi : i.Fits base h) :
    base ≤ i.heightAfter h := by
  have hle := hi.pops_le
  cases i with
  -- A return empties the stack, so it may stand only where nothing is below.
  | ret => exact Nat.le_of_eq (hi.ret rfl)
  | _ =>
    show base ≤ h - _ + _
    omega

/-- Checked code never reaches below its base. -/
theorem Checked.base_le {base h : Nat} {is js : List Instruction}
    (hc : Checked base h (is ++ js)) (hbase : base ≤ h) : base ≤ heightFrom h is := by
  induction is generalizing h with
  | nil => exact hbase
  | cons i is ih => exact ih hc.2 hc.1.base_le

/-! ## Operands -/

theorem heightFrom_operands {os : List Operand} (h : Nat)
    (hos : ∀ o ∈ os, ∀ h, heightFrom h o.code = h + 1) :
    heightFrom h (operandsCode os) = h + os.length := by
  induction os generalizing h with
  | nil => rfl
  | cons o os ih =>
    rw [operandsCode, heightFrom_append, hos o (List.mem_cons_self ..),
      ih _ fun o ho => hos o (List.mem_cons_of_mem _ ho), List.length_cons]
    omega

/-- The last step of an operand puts one value in the place of those of its parts. -/
theorem Operand.heightFrom_finish (o : Operand) (h : Nat) :
    heightFrom (h + o.parts.length) o.finish = h + 1 := by
  cases o with
  | push => rfl
  | unary op => cases op <;> rfl
  | binary op => cases op <;> rfl
  | call name arguments =>
    -- The number of values that a call takes is that of its arguments.
    show h + arguments.length - arguments.length + 1 = h + 1
    omega
  | fetch => rfl

theorem Operand.heightFrom_code (o : Operand) : ∀ h, heightFrom h o.code = h + 1 := by
  induction o using Operand.induction_parts with
  | step o ih =>
    intro h
    rw [o.code_eq, heightFrom_append, heightFrom_operands h ih, o.heightFrom_finish]

theorem heightFrom_operandsCode (os : List Operand) (h : Nat) :
    heightFrom h (operandsCode os) = h + os.length :=
  heightFrom_operands h fun o _ => o.heightFrom_code

theorem checked_operands {base : Nat} {os : List Operand}
    (hos : ∀ o ∈ os, ∀ h, base ≤ h → Checked base h o.code) {h : Nat} (hbase : base ≤ h) :
    Checked base h (operandsCode os) := by
  induction os generalizing h with
  | nil => trivial
  | cons o os ih =>
    rw [operandsCode, checked_append, o.heightFrom_code]
    constructor
    · exact hos o (List.mem_cons_self ..) h hbase
    · apply ih fun o ho => hos o (List.mem_cons_of_mem _ ho)
      omega

theorem Operand.checked_finish (o : Operand) {base h : Nat} (hbase : base ≤ h) :
    Checked base (h + o.parts.length) o.finish := by
  cases o with
  | push => exact ⟨⟨hbase, nofun, nofun⟩, trivial⟩
  | unary op =>
    cases op <;> exact ⟨⟨Nat.succ_le_succ hbase, nofun, nofun⟩, trivial⟩
  | binary op =>
    cases op <;> exact ⟨⟨Nat.add_le_add_right hbase 2, nofun, nofun⟩, trivial⟩
  | call name arguments => exact ⟨⟨Nat.add_le_add_right hbase _, nofun, nofun⟩, trivial⟩
  | fetch =>
    exact ⟨⟨Nat.succ_le_succ hbase, nofun, nofun⟩, ⟨hbase, nofun, nofun⟩, trivial⟩

/-- An operand leaves alone whatever is on the stack before it. -/
theorem Operand.checked (o : Operand) {base : Nat} :
    ∀ h, base ≤ h → Checked base h o.code := by
  induction o using Operand.induction_parts with
  | step o ih =>
    intro h hbase
    rw [o.code_eq, checked_append, heightFrom_operandsCode]
    exact ⟨checked_operands ih hbase, o.checked_finish hbase⟩

/-! ## Commands -/

/-- The heights at which pieces are put together: blocks stand on an empty stack, and at the end
the stack is empty again. -/
def PiecesFit : Nat → List Piece → Prop
  | h, [] => h = 0
  | h, .fixed is :: ps => Checked 0 h is ∧ PiecesFit (heightFrom h is) ps
  | h, .operand _ :: ps => PiecesFit (h + 1) ps
  | h, .block _ :: ps => h = 0 ∧ PiecesFit 0 ps

theorem Instruction.fits_iff {base h : Nat} {i : Instruction} :
    i.Fits base h ↔
      base + i.pops ≤ h ∧ (i.isControl = true → h = i.pops) ∧ (i = .ret → base = 0) :=
  ⟨fun hi => ⟨hi.pops_le, hi.control, hi.ret⟩, fun ⟨h₁, h₂, h₃⟩ => ⟨h₁, h₂, h₃⟩⟩

theorem Command.piecesFit (c : Command) : PiecesFit 0 c.pieces := by
  rcases c with _ | _ | _ | _ | _ | _ | ⟨_ | _⟩ | ⟨_ | _⟩ <;>
    simp [pieces, PiecesFit, Checked, fits_iff, pops, pushes, isControl, heightAfter, Slot.pop,
      Jack.storeElement, discard]

theorem PiecesFit.append {h : Nat} {ps ps' : List Piece} (hfit : PiecesFit h (ps ++ ps'))
    (hblocks : ∀ cs, heightFrom 0 (commandsCode cs) = 0) :
    PiecesFit (heightFrom h (piecesCode ps)) ps' := by
  induction ps generalizing h with
  | nil => exact hfit
  | cons p ps ih =>
    rw [piecesCode_cons, heightFrom_append]
    cases p with
    | fixed is => exact ih hfit.2
    | operand o =>
      rw [Piece.code, o.heightFrom_code]
      exact ih hfit
    | block cs =>
      -- A block starts and ends with an empty stack.
      obtain ⟨rfl, hfit⟩ := hfit
      rw [Piece.code, hblocks]
      exact ih hfit

theorem PiecesFit.code {h : Nat} {ps : List Piece} (hfit : PiecesFit h ps)
    (hblocks : ∀ cs, .block cs ∈ ps →
      Checked 0 0 (commandsCode cs) ∧ heightFrom 0 (commandsCode cs) = 0) :
    Checked 0 h (piecesCode ps) ∧ heightFrom h (piecesCode ps) = 0 := by
  induction ps generalizing h with
  | nil => exact ⟨trivial, hfit⟩
  | cons p ps ih =>
    have hrest : ∀ cs, .block cs ∈ ps → _ := fun cs hcs => hblocks cs (List.mem_cons_of_mem _ hcs)
    rw [piecesCode_cons, checked_append, heightFrom_append]
    cases p with
    | fixed is =>
      obtain ⟨hchecked, hfinal⟩ := ih hfit.2 hrest
      exact ⟨⟨hfit.1, hchecked⟩, hfinal⟩
    | operand o =>
      -- Operands are checked above whatever height they start at.
      obtain ⟨hchecked, hfinal⟩ := ih hfit hrest
      rw [Piece.code, o.heightFrom_code]
      exact ⟨⟨o.checked h (Nat.zero_le h), hchecked⟩, hfinal⟩
    | block cs =>
      obtain ⟨rfl, hfit⟩ := hfit
      obtain ⟨hblock, hzero⟩ := hblocks cs (List.mem_cons_self ..)
      obtain ⟨hchecked, hfinal⟩ := ih hfit hrest
      rw [Piece.code, hzero]
      exact ⟨⟨hblock, hchecked⟩, hfinal⟩

theorem commandsCode_of_forall {cs : List Command}
    (hcs : ∀ c ∈ cs, Checked 0 0 c.code ∧ heightFrom 0 c.code = 0) :
    Checked 0 0 (commandsCode cs) ∧ heightFrom 0 (commandsCode cs) = 0 := by
  induction cs with
  | nil => exact ⟨trivial, rfl⟩
  | cons c cs ih =>
    obtain ⟨hc, hzero⟩ := hcs c (List.mem_cons_self ..)
    obtain ⟨hrest, hfinal⟩ := ih fun c hc => hcs c (List.mem_cons_of_mem _ hc)
    rw [commandsCode, checked_append, heightFrom_append, hzero]
    exact ⟨⟨hc, hrest⟩, hfinal⟩

theorem Command.code_checked (c : Command) : Checked 0 0 c.code ∧ heightFrom 0 c.code = 0 := by
  induction c using Command.induction_blocks with
  | step c ih =>
    rw [c.code_eq]
    exact c.piecesFit.code fun cs hcs => commandsCode_of_forall (ih cs hcs)

/-- Between commands the stack is empty. -/
theorem heightFrom_commandsCode (cs : List Command) : heightFrom 0 (commandsCode cs) = 0 :=
  (commandsCode_of_forall fun c _ => c.code_checked).2

theorem checked_commandsCode (cs : List Command) : Checked 0 0 (commandsCode cs) :=
  (commandsCode_of_forall fun c _ => c.code_checked).1

end Jack.Vm
