import Jack.Proofs.Grammar.Meaning
import Jack.Proofs.Vm.Place

/-!
# The machine follows the statements

The machine, run on the code of translated statements with an empty stack, ends as the statements
do: behind the code, or at the return instruction of the statement that returns.
-/

namespace Jack.Grammar

open Vm

/-! ## Return instructions -/

theorem count_ret_operand (o : Operand) : o.code.count .ret = 0 :=
  List.count_eq_zero.2 o.ret_not_mem

theorem count_ret_leaveWith (scope : Scope) (value : Option Operand) :
    (leaveWith scope value).code.count .ret = 1 := by
  unfold leaveWith
  split
  · cases value with
    | none => rfl
    | some o =>
      rw [Command.code, List.count_append, count_ret_operand]
      rfl
  · cases value with
    | none => rfl
    | some o =>
      rw [Command.code, List.count_append, count_ret_operand]
      rfl

variable {scope : Scope}

mutual

/-- The code has a return instruction for each return statement. -/
theorem Statement.count_ret : (s : Statement) → ∀ {labels pos cmd},
    s.translate scope labels pos = .ok cmd → cmd.code.count .ret = s.returns
  | .assign name value, labels, pos, cmd, h => by
    obtain ⟨target, v, -, -, rfl⟩ := Statement.translate_assign h
    rw [Command.code, List.count_append, count_ret_operand]
    rfl
  | .assignElement name index value, labels, pos, cmd, h => by
    obtain ⟨base, i, v, -, -, -, rfl⟩ := Statement.translate_assignElement h
    rw [Command.code, List.count_append, List.count_append, count_ret_operand, count_ret_operand]
    rfl
  | .ifThen condition onTrue, labels, pos, cmd, h => by
    obtain ⟨o, cmds, pos', -, hcmds, rfl⟩ := Statement.translate_ifThen h
    simp only [Command.code, List.count_append, count_ret_operand,
      count_ret_statements onTrue hcmds]
    exact Nat.zero_add _
  | .ifElse condition onTrue onFalse, labels, pos, cmd, h => by
    obtain ⟨o, cmds, cmds', pos', pos'', -, hcmds, hcmds', rfl⟩ := Statement.translate_ifElse h
    simp only [Command.code, List.count_append, count_ret_operand,
      count_ret_statements onTrue hcmds, count_ret_statements onFalse hcmds']
    show 0 + 0 + returnsIn onTrue + 0 + returnsIn onFalse + 0 = returnsIn onTrue + returnsIn onFalse
    omega
  | .loop condition body, labels, pos, cmd, h => by
    obtain ⟨o, cmds, pos', -, hcmds, rfl⟩ := Statement.translate_loop h
    simp only [Command.code, List.count_append, count_ret_operand, count_ret_statements body hcmds]
    exact Nat.zero_add _
  | .doCall callee arguments, labels, pos, cmd, h => by
    obtain ⟨o, stop, -, rfl⟩ := Statement.translate_doCall h
    rw [Command.code, List.count_append, count_ret_operand]
    rfl
  | .doExpression value, labels, pos, cmd, h => by
    obtain ⟨o, -, rfl⟩ := Statement.translate_doExpression h
    rw [Command.code, List.count_append, count_ret_operand]
    rfl
  | .returnNothing, labels, pos, cmd, h => by
    cases h
    exact count_ret_leaveWith scope none
  | .returnValue value, labels, pos, cmd, h => by
    obtain ⟨o, -, rfl⟩ := Statement.translate_returnValue h
    exact count_ret_leaveWith scope (some o)

theorem count_ret_statements : (body : List Statement) → ∀ {labels pos cmds},
    translateStatements scope labels pos body = .ok cmds →
    (commandsCode cmds).count .ret = returnsIn body
  | [], labels, pos, cmds, h => by
    cases h
    rfl
  | s :: rest, labels, pos, cmds, h => by
    obtain ⟨cmd, cmds', hcmd, hcmds', rfl⟩ := translateStatements_cons h
    rw [commandsCode, List.count_append, s.count_ret hcmd, count_ret_statements rest hcmds']
    rfl

end

/-! ## Ends -/

theorem Ending.after_zero (ending : Ending) : ending.after 0 = ending := by
  cases ending with
  | next m => rfl
  | returned site value m => rw [after, Nat.zero_add]

/-- The machine has come to the end that statements come to, whose code stands at an index. -/
def Ends (start : Nat) (piece : List Instruction) : Ending → Machine → Prop
  | .next m, s => s.pc = start + piece.length ∧ s.stack = [] ∧ s.memory = m
  | .returned site value m, s => ∃ before after, piece = before ++ .ret :: after ∧
      before.count .ret = site ∧ s.pc = start + before.length ∧ s.stack = value.toList ∧
      s.memory = m

/-- From the beginning of the code with an empty stack, the machine comes to the end that the
ending says. -/
def RunsTo (calls : Calls) (is : List Instruction) (start : Nat) (piece : List Instruction)
    (m : Memory) (ending : Ending) : Prop :=
  ∀ scratch, ∃ s, Machine.Reaches calls is ⟨start, [], m, scratch⟩ s ∧ Ends start piece ending s

variable {calls : Calls} {is piece piece' : List Instruction} {start : Nat} {m m' : Memory}
  {ending : Ending}

theorem runsTo_next {stop : Nat} (hstop : stop = start + piece.length)
    (h : ∀ scratch, ∃ scratch', Machine.Reaches calls is ⟨start, [], m, scratch⟩
      ⟨stop, [], m', scratch'⟩) : RunsTo calls is start piece m (.next m') := by
  intro scratch
  obtain ⟨scratch', h⟩ := h scratch
  exact ⟨_, h, hstop, rfl, rfl⟩

theorem RunsTo.reaches (h : RunsTo calls is start piece m (.next m')) (scratch : Scratch) :
    ∃ scratch', Machine.Reaches calls is ⟨start, [], m, scratch⟩
      ⟨start + piece.length, [], m', scratch'⟩ := by
  obtain ⟨⟨pc, stack, memory, scratch'⟩, hreaches, rfl, rfl, rfl⟩ := h scratch
  exact ⟨scratch', hreaches⟩

/-- The machine goes on behind a first piece of code. -/
theorem RunsTo.then (h : RunsTo calls is start piece m (.next m'))
    (h' : RunsTo calls is (start + piece.length) piece' m' ending) :
    RunsTo calls is start (piece ++ piece') m (ending.after (piece.count .ret)) := by
  intro scratch
  obtain ⟨scratch', hfirst⟩ := h.reaches scratch
  obtain ⟨s, hrest, hends⟩ := h' scratch'
  refine ⟨s, hfirst.trans hrest, ?_⟩
  cases ending with
  | next m =>
    obtain ⟨hpc, hstack, hmemory⟩ := hends
    refine ⟨?_, hstack, hmemory⟩
    rw [hpc, List.length_append, Nat.add_assoc]
  | returned site value m =>
    -- The return instructions of the first piece stand in front of the one that is reached.
    obtain ⟨before, after, rfl, rfl, hpc, hstack, hmemory⟩ := hends
    refine ⟨piece ++ before, after, ?_, ?_, ?_, hstack, hmemory⟩
    · rw [List.append_assoc]
    · exact List.count_append
    · rw [hpc, List.length_append, Nat.add_assoc]

/-- The machine does not go on behind a return. -/
theorem RunsTo.stop {site : Nat} {value : Option Word}
    (h : RunsTo calls is start piece m (.returned site value m')) :
    RunsTo calls is start (piece ++ piece') m (.returned site value m') := by
  intro scratch
  obtain ⟨s, hreaches, before, after, rfl, hsite, hpc, hstack, hmemory⟩ := h scratch
  refine ⟨s, hreaches, before, after ++ piece', ?_, hsite, hpc, hstack, hmemory⟩
  rw [List.append_assoc, List.cons_append]

/-- What is behind a piece of code does nothing. -/
theorem RunsTo.close (h : RunsTo calls is start piece m ending)
    (h' : ∀ m, RunsTo calls is (start + piece.length) piece' m (.next m)) :
    RunsTo calls is start (piece ++ piece') m ending := by
  cases ending with
  | next m' => exact h.then (h' m')
  | returned site value m' => exact h.stop

theorem RunsTo.then_of_no_ret (h : RunsTo calls is start piece m (.next m'))
    (h' : RunsTo calls is (start + piece.length) piece' m' ending) (hpiece : piece.count .ret = 0) :
    RunsTo calls is start (piece ++ piece') m ending := by
  have hall := h.then h'
  rw [hpiece, Ending.after_zero] at hall
  exact hall

/-! ## Branches -/

/-- What an `if` begins with. -/
def branchCode (labels : IfLabels) (o : Operand) : List Instruction :=
  o.code ++ [.ifGoto labels.onTrue, .goto labels.onFalse, .label labels.onTrue]

theorem count_ret_branchCode (labels : IfLabels) (o : Operand) :
    (branchCode labels o).count .ret = 0 := by
  rw [branchCode, List.count_append, count_ret_operand]
  rfl

variable {o : Operand} {w : Word}

theorem runsTo_branchCode {labels : IfLabels} (hplaced : Placed is start (branchCode labels o))
    (heval : o.eval calls.world m = some (w, m')) (hw : w ≠ 0) :
    RunsTo calls is start (branchCode labels o) m (.next m') := by
  apply runsTo_next rfl
  intro scratch
  have hjumps := hplaced.right
  obtain ⟨scratch', hcondition⟩ := o.reaches hplaced.left heval
  have hjump : Machine.Reaches calls is ⟨start + o.code.length, [w], m', scratch'⟩
      ⟨start + o.code.length + 2, [], m', scratch'⟩ :=
    reaches_ifGoto hjumps.head (hjumps.labelIndex?_eq (i := 2) rfl) hw
  have hlabel : Machine.Reaches calls is ⟨start + o.code.length + 2, [], m', scratch'⟩
      ⟨start + o.code.length + 3, [], m', scratch'⟩ := reaches_label hjumps.tail.tail.head
  rw [branchCode, List.length_append, ← Nat.add_assoc]
  exact ⟨scratch', (hcondition.trans hjump).trans hlabel⟩

/-- If the condition is zero, control goes to the second label. -/
theorem reaches_onFalse {labels : IfLabels} {target : Nat}
    (hplaced : Placed is start (branchCode labels o)) (heval : o.eval calls.world m = some (0, m'))
    (htarget : labelIndex? is labels.onFalse = some target) (scratch : Scratch) :
    ∃ scratch', Machine.Reaches calls is ⟨start, [], m, scratch⟩ ⟨target, [], m', scratch'⟩ := by
  have hjumps := hplaced.right
  obtain ⟨scratch', hcondition⟩ := o.reaches hplaced.left heval
  have hfall : Machine.Reaches calls is ⟨start + o.code.length, [0], m', scratch'⟩
      ⟨start + o.code.length + 1, [], m', scratch'⟩ := reaches_ifGoto_zero hjumps.head
  have hjump : Machine.Reaches calls is ⟨start + o.code.length + 1, [], m', scratch'⟩
      ⟨target, [], m', scratch'⟩ := reaches_goto hjumps.tail.head htarget
  exact ⟨scratch', (hcondition.trans hfall).trans hjump⟩

/-- What a `while` begins with. -/
def loopCode (labels : WhileLabels) (o : Operand) : List Instruction :=
  [.label labels.condition] ++ o.code ++ [.arithmetic .not, .ifGoto labels.done]

theorem count_ret_loopCode (labels : WhileLabels) (o : Operand) :
    (loopCode labels o).count .ret = 0 := by
  rw [loopCode, List.count_append, List.count_append, count_ret_operand]
  rfl

/-- The machine in front of the conditional jump of a `while`. -/
theorem reaches_loopCode {labels : WhileLabels} (hplaced : Placed is start (loopCode labels o))
    (heval : o.eval calls.world m = some (w, m')) (scratch : Scratch) :
    ∃ scratch', Machine.Reaches calls is ⟨start, [], m, scratch⟩
      ⟨start + 1 + o.code.length + 1, [~~~w], m', scratch'⟩ := by
  have hlabel : Machine.Reaches calls is ⟨start, [], m, scratch⟩ ⟨start + 1, [], m, scratch⟩ :=
    reaches_label hplaced.left.left.head
  obtain ⟨scratch', hcondition⟩ := o.reaches hplaced.left.right heval
  have hnot : is[start + 1 + o.code.length]? = some UnaryOp.not.instruction := by
    have hhead := hplaced.right.head
    rw [List.length_append, ← Nat.add_assoc] at hhead
    exact hhead
  have hcomplement : Machine.Reaches calls is ⟨start + 1 + o.code.length, [w], m', scratch'⟩
      ⟨start + 1 + o.code.length + 1, [~~~w], m', scratch'⟩ := runs_unary hnot
  exact ⟨scratch', (hlabel.trans hcondition).trans hcomplement⟩

theorem complement_eq_zero_iff (w : Word) : ~~~w = 0 ↔ w = .ofBool true := by
  constructor
  · intro h
    rw [← BitVec.not_not (b := w), h]
    rfl
  · rintro rfl
    rfl

/-! ## Statements -/

/-! A label at the end of a piece of code, to which jumps may go. -/

theorem labelIndex?_end {name : String}
    (hplaced : Placed is start (piece ++ [Instruction.label name])) :
    labelIndex? is name = some (start + piece.length) := hplaced.right.labelIndex?_eq (i := 0) rfl

theorem reaches_end {name : String} {scratch : Scratch}
    (hplaced : Placed is start (piece ++ [Instruction.label name])) :
    Machine.Reaches calls is ⟨start + piece.length, [], m, scratch⟩
      ⟨start + (piece ++ [Instruction.label name]).length, [], m, scratch⟩ := by
  rw [List.length_append, ← Nat.add_assoc]
  exact reaches_label hplaced.right.head

theorem code_ifThen (id : LabelId) (o : Operand) (onTrue : List Command) :
    (Command.ifThen id o onTrue).code = branchCode (.ofId id) o ++ commandsCode onTrue ++
      [.label (IfLabels.ofId id).onFalse] := rfl

theorem runsTo_ifThen {id : LabelId} {onTrue : List Command}
    (hplaced : Placed is start (Command.ifThen id o onTrue).code)
    (heval : o.eval calls.world m = some (w, m')) (hw : w ≠ 0)
    (honTrue : RunsTo calls is (start + (branchCode (.ofId id) o).length) (commandsCode onTrue)
      m' ending) : RunsTo calls is start (Command.ifThen id o onTrue).code m ending := by
  rw [code_ifThen] at hplaced ⊢
  have hbranch := runsTo_branchCode hplaced.left.left heval hw
  have hfirst := hbranch.then_of_no_ret honTrue (count_ret_branchCode _ o)
  apply hfirst.close
  intro m
  exact runsTo_next rfl fun scratch => ⟨scratch, reaches_label hplaced.right.head⟩

theorem runsTo_ifThen_zero {id : LabelId} {onTrue : List Command}
    (hplaced : Placed is start (Command.ifThen id o onTrue).code)
    (heval : o.eval calls.world m = some (0, m')) :
    RunsTo calls is start (Command.ifThen id o onTrue).code m (.next m') := by
  rw [code_ifThen] at hplaced ⊢
  apply runsTo_next rfl
  intro scratch
  have htarget := labelIndex?_end hplaced
  obtain ⟨scratch', hjump⟩ := reaches_onFalse hplaced.left.left heval htarget scratch
  exact ⟨scratch', hjump.trans (reaches_end hplaced)⟩

/-- What comes before the second block of an `if`. -/
def elseCode (id : LabelId) (o : Operand) (onTrue : List Command) : List Instruction :=
  branchCode (.ofId id) o ++ commandsCode onTrue ++ [.goto (IfLabels.ofId id).done] ++
    [.label (IfLabels.ofId id).onFalse]

theorem code_ifElse (id : LabelId) (o : Operand) (onTrue onFalse : List Command) :
    (Command.ifElse id o onTrue onFalse).code = elseCode id o onTrue ++ commandsCode onFalse ++
      [.label (IfLabels.ofId id).done] := by
  rw [elseCode, List.append_assoc (_ ++ _) [_] [_]]
  rfl

theorem count_ret_elseCode (id : LabelId) (o : Operand) (onTrue : List Command) :
    (elseCode id o onTrue).count .ret = (commandsCode onTrue).count .ret := by
  simp only [elseCode, List.count_append, count_ret_branchCode]
  exact Nat.zero_add _

theorem runsTo_ifElse {id : LabelId} {onTrue onFalse : List Command}
    (hplaced : Placed is start (Command.ifElse id o onTrue onFalse).code)
    (heval : o.eval calls.world m = some (w, m')) (hw : w ≠ 0)
    (honTrue : RunsTo calls is (start + (branchCode (.ofId id) o).length) (commandsCode onTrue)
      m' ending) : RunsTo calls is start (Command.ifElse id o onTrue onFalse).code m ending := by
  rw [code_ifElse] at hplaced ⊢
  have helse := hplaced.left.left
  have hbranch := runsTo_branchCode helse.left.left.left heval hw
  have hfirst := hbranch.then_of_no_ret honTrue (count_ret_branchCode _ o)
  have hcode : elseCode id o onTrue ++ commandsCode onFalse ++ [.label (IfLabels.ofId id).done] =
      (branchCode (.ofId id) o ++ commandsCode onTrue) ++ ([.goto (IfLabels.ofId id).done] ++
        [.label (IfLabels.ofId id).onFalse] ++ commandsCode onFalse ++
        [.label (IfLabels.ofId id).done]) := by
    simp only [elseCode, List.append_assoc]
  rw [hcode]
  apply hfirst.close
  -- Behind the first block control goes to the last label.
  intro m
  apply runsTo_next (by rw [Nat.add_assoc, ← List.length_append, ← hcode])
  intro scratch
  have hjump : Machine.Reaches calls is
      ⟨start + (branchCode (.ofId id) o ++ commandsCode onTrue).length, [], m, scratch⟩
      ⟨start + (elseCode id o onTrue ++ commandsCode onFalse).length, [], m, scratch⟩ :=
    reaches_goto helse.left.right.head (labelIndex?_end hplaced)
  exact ⟨scratch, hjump.trans (reaches_end hplaced)⟩

theorem runsTo_ifElse_zero {id : LabelId} {onTrue onFalse : List Command}
    (hplaced : Placed is start (Command.ifElse id o onTrue onFalse).code)
    (heval : o.eval calls.world m = some (0, m'))
    (honFalse : RunsTo calls is (start + (elseCode id o onTrue).length) (commandsCode onFalse)
      m' ending) : RunsTo calls is start (Command.ifElse id o onTrue onFalse).code m
        (ending.after ((commandsCode onTrue).count .ret)) := by
  rw [code_ifElse] at hplaced ⊢
  have helse := hplaced.left.left
  have hjump : RunsTo calls is start (elseCode id o onTrue) m (.next m') := by
    apply runsTo_next rfl
    intro scratch
    have htarget := labelIndex?_end helse
    obtain ⟨scratch', hjump⟩ := reaches_onFalse helse.left.left.left heval htarget scratch
    exact ⟨scratch', hjump.trans (reaches_end helse)⟩
  have hfirst := hjump.then honFalse
  rw [count_ret_elseCode] at hfirst
  apply hfirst.close
  intro m
  exact runsTo_next rfl fun scratch => ⟨scratch, reaches_label hplaced.right.head⟩

/-- What comes before the last label of a `while`. -/
def againCode (id : LabelId) (o : Operand) (body : List Command) : List Instruction :=
  loopCode (.ofId id) o ++ commandsCode body ++ [.goto (WhileLabels.ofId id).condition]

theorem code_loop (id : LabelId) (o : Operand) (body : List Command) :
    (Command.loop id o body).code = againCode id o body ++ [.label (WhileLabels.ofId id).done] := by
  rw [againCode, List.append_assoc (_ ++ _) [_] [_]]
  rfl

theorem runsTo_loopCode {labels : WhileLabels} (hplaced : Placed is start (loopCode labels o))
    (heval : o.eval calls.world m = some (.ofBool true, m')) :
    RunsTo calls is start (loopCode labels o) m (.next m') := by
  have hlength : start + 1 + o.code.length + 2 = start + (loopCode labels o).length := by
    simp only [loopCode, List.length_append, List.length_cons, List.length_nil]
    omega
  apply runsTo_next hlength
  intro scratch
  obtain ⟨scratch', hcondition⟩ := reaches_loopCode hplaced heval scratch
  have hjumps := hplaced.right
  rw [List.length_append, ← Nat.add_assoc] at hjumps
  rw [(complement_eq_zero_iff _).2 rfl] at hcondition
  exact ⟨scratch', hcondition.trans (reaches_ifGoto_zero hjumps.tail.head)⟩

theorem runsTo_loop_done {id : LabelId} {body : List Command}
    (hplaced : Placed is start (Command.loop id o body).code)
    (heval : o.eval calls.world m = some (w, m')) (hw : w ≠ .ofBool true) :
    RunsTo calls is start (Command.loop id o body).code m (.next m') := by
  rw [code_loop] at hplaced ⊢
  apply runsTo_next rfl
  intro scratch
  have hbegin := hplaced.left.left.left
  obtain ⟨scratch', hcondition⟩ := reaches_loopCode hbegin heval scratch
  have hjumps := hbegin.right
  rw [List.length_append, ← Nat.add_assoc] at hjumps
  -- The jump is taken for every value that has a bit that is not set.
  have hw' : ~~~w ≠ 0 := fun h => hw ((complement_eq_zero_iff w).1 h)
  have hjump := hcondition.trans (reaches_ifGoto hjumps.tail.head (labelIndex?_end hplaced) hw')
  exact ⟨scratch', hjump.trans (reaches_end hplaced)⟩

theorem runsTo_loop_again {id : LabelId} {body : List Command} {m₂ : Memory}
    (hplaced : Placed is start (Command.loop id o body).code)
    (heval : o.eval calls.world m = some (.ofBool true, m'))
    (hbody : RunsTo calls is (start + (loopCode (.ofId id) o).length) (commandsCode body) m'
      (.next m₂)) (hloop : RunsTo calls is start (Command.loop id o body).code m₂ ending) :
    RunsTo calls is start (Command.loop id o body).code m ending := by
  rw [code_loop] at hplaced
  have hagain := hplaced.left
  have hbegin := runsTo_loopCode hagain.left.left heval
  -- One round leads back to the first label, from where the loop is run again.
  have hround := hbegin.then_of_no_ret hbody (count_ret_loopCode _ o)
  have hstart : labelIndex? is (WhileLabels.ofId id).condition = some start :=
    hagain.left.left.labelIndex?_eq (i := 0) rfl
  intro scratch
  obtain ⟨scratch', hfirst⟩ := hround.reaches scratch
  have hback := hfirst.trans (reaches_goto hagain.right.head hstart)
  obtain ⟨s, hreaches, hends⟩ := hloop scratch'
  exact ⟨s, hback.trans hreaches, hends⟩

theorem runsTo_loop_return {id : LabelId} {body : List Command} {m₂ : Memory} {site : Nat}
    {value : Option Word} (hplaced : Placed is start (Command.loop id o body).code)
    (heval : o.eval calls.world m = some (.ofBool true, m'))
    (hbody : RunsTo calls is (start + (loopCode (.ofId id) o).length) (commandsCode body) m'
      (.returned site value m₂)) :
    RunsTo calls is start (Command.loop id o body).code m (.returned site value m₂) := by
  rw [code_loop, againCode] at hplaced ⊢
  have hbegin := runsTo_loopCode hplaced.left.left.left heval
  exact (hbegin.then_of_no_ret hbody (count_ret_loopCode _ o)).stop.stop

theorem runsTo_store {symbol : Symbol} {value : Operand}
    (hplaced : Placed is start (Command.store symbol.slot value).code)
    (heval : value.eval calls.world m = some (w, m')) :
    RunsTo calls is start (Command.store symbol.slot value).code m
      (.next (m'.assign symbol w)) := by
  rw [Command.code] at hplaced ⊢
  apply runsTo_next rfl
  intro scratch
  obtain ⟨scratch', hvalue⟩ := value.reaches hplaced.left heval
  rw [List.length_append, ← Nat.add_assoc]
  exact ⟨scratch', hvalue.trans (reaches_pop hplaced.right.head (m'.write?_slot symbol w))⟩

theorem runsTo_storeElement {address value : Operand} {a : Word} {m₂ : Memory}
    (hplaced : Placed is start (Command.storeElement address value).code)
    (haddress : address.eval calls.world m = some (a, m'))
    (hvalue : value.eval calls.world m' = some (w, m₂)) :
    RunsTo calls is start (Command.storeElement address value).code m (.next (m₂.store a w)) := by
  rw [Command.code] at hplaced ⊢
  apply runsTo_next rfl
  intro scratch
  -- The address waits on the stack while the value is computed.
  obtain ⟨scratch₁, hfirst⟩ := address.reaches hplaced.left.left haddress
  obtain ⟨scratch₂, hsecond⟩ := value.reaches hplaced.left.right hvalue
  have hfinish := hplaced.right
  rw [List.length_append, ← Nat.add_assoc] at hfinish
  obtain ⟨scratch₃, hstore⟩ := reaches_storeElement hfinish
  rw [List.length_append, List.length_append, ← Nat.add_assoc, ← Nat.add_assoc]
  exact ⟨scratch₃, (hfirst.trans hsecond).trans hstore⟩

theorem runsTo_drop {value : Operand} (hplaced : Placed is start (Command.drop value).code)
    (heval : value.eval calls.world m = some (w, m')) :
    RunsTo calls is start (Command.drop value).code m (.next m') := by
  rw [Command.code] at hplaced ⊢
  apply runsTo_next rfl
  intro scratch
  obtain ⟨scratch₁, hvalue⟩ := value.reaches hplaced.left heval
  obtain ⟨scratch₂, hdiscard⟩ := reaches_discard hplaced.right.head
  rw [List.length_append, ← Nat.add_assoc]
  exact ⟨scratch₂, hvalue.trans hdiscard⟩

/-- The machine in front of the last instruction of a piece of code, which returns. -/
theorem runsTo_returned {value : Option Word} (hpiece : piece.count .ret = 0)
    (h : ∀ scratch, ∃ scratch', Machine.Reaches calls is ⟨start, [], m, scratch⟩
      ⟨start + piece.length, value.toList, m', scratch'⟩) :
    RunsTo calls is start (piece ++ [.ret]) m (.returned 0 value m') := by
  intro scratch
  obtain ⟨scratch', hreaches⟩ := h scratch
  exact ⟨_, hreaches, piece, [], rfl, hpiece, rfl, rfl, rfl⟩

theorem runsTo_returnNothing (hplaced : Placed is start (leaveWith scope none).code) :
    RunsTo calls is start (leaveWith scope none).code m
      (.returned 0 (if scope.signature.isVoid then some 0 else none) m) := by
  rw [leaveWith] at hplaced ⊢
  split
  · next hvoid =>
    rw [if_pos hvoid] at hplaced
    apply @runsTo_returned calls is [.push .constant 0] start m m (some 0) rfl
    intro scratch
    exact ⟨scratch, runs_push hplaced.head rfl⟩
  · exact @runsTo_returned calls is [] start m m none rfl fun scratch => ⟨scratch, .refl⟩

theorem runsTo_returnValue {value : Operand}
    (hplaced : Placed is start (leaveWith scope (some value)).code)
    (heval : value.eval calls.world m = some (w, m')) :
    RunsTo calls is start (leaveWith scope (some value)).code m
      (.returned 0 (some (if scope.signature.isVoid then 0 else w)) m') := by
  rw [leaveWith] at hplaced ⊢
  split
  · next hvoid =>
    rw [if_pos hvoid] at hplaced
    have hcode : (Command.leaveVoid (some value)).code =
        (value.code ++ [discard, .push .constant 0]) ++ [.ret] := by
      rw [Command.code, List.append_assoc]
      rfl
    rw [hcode]
    apply @runsTo_returned calls is _ start m m' (some 0)
    · rw [List.count_append, count_ret_operand]
      rfl
    · intro scratch
      obtain ⟨scratch₁, hvalue⟩ := value.reaches hplaced.left heval
      obtain ⟨scratch₂, hdiscard⟩ := reaches_discard hplaced.right.head
      have hzero : Machine.Reaches calls is ⟨start + value.code.length + 1, [], m', scratch₂⟩
          ⟨start + value.code.length + 1 + 1, [0], m', scratch₂⟩ :=
        runs_push hplaced.right.tail.head rfl
      rw [List.length_append, ← Nat.add_assoc]
      exact ⟨scratch₂, (hvalue.trans hdiscard).trans hzero⟩
  · next hvoid =>
    rw [if_neg hvoid, Command.code] at hplaced
    apply runsTo_returned (count_ret_operand value)
    intro scratch
    exact value.reaches hplaced.left heval

mutual

/-- Executed statements are run by the machine. -/
theorem Statement.Executes.runsTo : {s : Statement} → {m : Memory} → {ending : Ending} →
    s.Executes calls scope m ending → ∀ {labels pos cmd start},
    s.translate scope labels pos = .ok cmd → Placed is start cmd.code →
    RunsTo calls is start cmd.code m ending
  | _, _, _, .assign hname hvalue, labels, pos, cmd, start, h, hplaced => by
    obtain ⟨target, v, htarget, hv, rfl⟩ := Statement.translate_assign h
    obtain ⟨symbol, hsymbol, rfl⟩ := slotOf_eq_ok htarget
    cases hsymbol.symm.trans hname
    rw [← Expression.eval_translate _ hv] at hvalue
    exact runsTo_store hplaced hvalue
  | _, _, _, .assignElement hname hindex hvalue, labels, pos, cmd, start, h, hplaced => by
    obtain ⟨base, i, v, hbase, hi, hv, rfl⟩ := Statement.translate_assignElement h
    obtain ⟨symbol, hsymbol, rfl⟩ := slotOf_eq_ok hbase
    cases hsymbol.symm.trans hname
    rw [← Expression.eval_translate _ hi] at hindex
    rw [← Expression.eval_translate _ hv] at hvalue
    apply runsTo_storeElement hplaced _ hvalue
    rw [eval_elementAddress, hindex]
    rfl
  | _, _, _, .ifThen_true hcondition hw honTrue, labels, pos, cmd, start, h, hplaced => by
    obtain ⟨o, cmds, pos', ho, hcmds, rfl⟩ := Statement.translate_ifThen h
    rw [← Expression.eval_translate _ ho] at hcondition
    exact runsTo_ifThen hplaced hcondition hw (honTrue.runsTo hcmds hplaced.left.right)
  | _, _, _, .ifThen_false hcondition, labels, pos, cmd, start, h, hplaced => by
    obtain ⟨o, cmds, pos', ho, hcmds, rfl⟩ := Statement.translate_ifThen h
    rw [← Expression.eval_translate _ ho] at hcondition
    exact runsTo_ifThen_zero hplaced hcondition
  | _, _, _, .ifElse_true hcondition hw honTrue, labels, pos, cmd, start, h, hplaced => by
    obtain ⟨o, cmds, cmds', pos', pos'', ho, hcmds, hcmds', rfl⟩ := Statement.translate_ifElse h
    rw [← Expression.eval_translate _ ho] at hcondition
    exact runsTo_ifElse hplaced hcondition hw (honTrue.runsTo hcmds hplaced.left.left.left.right)
  | _, _, _, .ifElse_false hcondition honFalse, labels, pos, cmd, start, h,
      hplaced => by
    obtain ⟨o, cmds, cmds', pos', pos'', ho, hcmds, hcmds', rfl⟩ := Statement.translate_ifElse h
    rw [← Expression.eval_translate _ ho] at hcondition
    -- Return statements of the first block count, though it is not run.
    rw [← count_ret_statements _ hcmds]
    apply runsTo_ifElse_zero hplaced hcondition
    apply honFalse.runsTo hcmds'
    rw [code_ifElse] at hplaced
    exact hplaced.left.right
  | _, _, _, .loop_done hcondition hw, labels, pos, cmd, start, h, hplaced => by
    obtain ⟨o, cmds, pos', ho, hcmds, rfl⟩ := Statement.translate_loop h
    rw [← Expression.eval_translate _ ho] at hcondition
    exact runsTo_loop_done hplaced hcondition hw
  | _, _, _, .loop_again hcondition hbody hloop, labels, pos, cmd, start, h, hplaced => by
    -- The rest of the execution is one of the same statement, and shorter.
    have hrest := hloop.runsTo h hplaced
    obtain ⟨o, cmds, pos', ho, hcmds, rfl⟩ := Statement.translate_loop h
    rw [← Expression.eval_translate _ ho] at hcondition
    exact runsTo_loop_again hplaced hcondition (hbody.runsTo hcmds hplaced.left.right) hrest
  | _, _, _, .loop_return hcondition hbody, labels, pos, cmd, start, h, hplaced => by
    obtain ⟨o, cmds, pos', ho, hcmds, rfl⟩ := Statement.translate_loop h
    rw [← Expression.eval_translate _ ho] at hcondition
    exact runsTo_loop_return hplaced hcondition (hbody.runsTo hcmds hplaced.left.right)
  | _, _, _, .doCall hcall, labels, pos, cmd, start, h, hplaced => by
    obtain ⟨o, stop, ho, rfl⟩ := Statement.translate_doCall h
    rw [← eval_callOperand (eval_translateArguments _) ho] at hcall
    exact runsTo_drop hplaced hcall
  | _, _, _, .doExpression hvalue, labels, pos, cmd, start, h, hplaced => by
    obtain ⟨o, ho, rfl⟩ := Statement.translate_doExpression h
    rw [← Expression.eval_translate _ ho] at hvalue
    exact runsTo_drop hplaced hvalue
  | _, _, _, .returnNothing, labels, pos, cmd, start, h, hplaced => by
    cases h
    exact runsTo_returnNothing hplaced
  | _, _, _, .returnValue hvalue, labels, pos, cmd, start, h, hplaced => by
    obtain ⟨o, ho, rfl⟩ := Statement.translate_returnValue h
    rw [← Expression.eval_translate _ ho] at hvalue
    exact runsTo_returnValue hplaced hvalue

theorem ExecutesAll.runsTo : {body : List Statement} → {m : Memory} → {ending : Ending} →
    ExecutesAll calls scope body m ending → ∀ {labels pos cmds start},
    translateStatements scope labels pos body = .ok cmds → Placed is start (commandsCode cmds) →
    RunsTo calls is start (commandsCode cmds) m ending
  | _, _, _, .nil, labels, pos, cmds, start, h, hplaced => by
    cases h
    exact runsTo_next rfl fun scratch => ⟨scratch, .refl⟩
  | _, _, _, .cons hs hrest, labels, pos, cmds, start, h, hplaced => by
    obtain ⟨cmd, cmds', hcmd, hcmds', rfl⟩ := translateStatements_cons h
    have hfirst := hs.runsTo hcmd hplaced.left
    rw [← Statement.count_ret _ hcmd]
    exact hfirst.then (hrest.runsTo hcmds' hplaced.right)
  | _, _, _, .stop hs, labels, pos, cmds, start, h, hplaced => by
    obtain ⟨cmd, cmds', hcmd, hcmds', rfl⟩ := translateStatements_cons h
    exact (hs.runsTo hcmd hplaced.left).stop

end

end Jack.Grammar
