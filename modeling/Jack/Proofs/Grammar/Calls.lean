import Jack.Proofs.Grammar.Translation

/-!
# The calls of a subroutine

A subroutine calls what its source calls, and in between what operators, strings and the creation
of objects are left to. A call pushes its receiver, if it has one, and then its arguments from first
to last, and says how many these are.
-/

namespace Jack.Vm

/-- The function that an instruction calls, and the number of arguments. -/
def Instruction.call? : Instruction → Option (String × Nat)
  | call name args => some (name, args)
  | _ => none

/-- The calls in code, in their order. -/
def callsIn (is : List Instruction) : List (String × Nat) := is.filterMap Instruction.call?

@[simp] theorem callsIn_append (is is' : List Instruction) :
    callsIn (is ++ is') = callsIn is ++ callsIn is' := List.filterMap_append

theorem callsIn_eq_nil {is : List Instruction} (h : ∀ x ∈ is, x.call? = none) :
    callsIn is = [] := List.filterMap_eq_nil_iff.2 h

end Jack.Vm

namespace Jack.Grammar

open Vm

/-- Something that calls a function. -/
inductive Invocation where
  /-- A call in the source. -/
  | source (callee : Callee) (arguments : List Expression)
  /-- What an operator, a string or the creation of an object is left to. -/
  | system (name : String) (args : Nat)

/-! ## Calls in the order of their completion -/

def operatorInvocations : BinaryOp → List Invocation
  | .mul => [.system Os.multiply 2]
  | .div => [.system Os.divide 2]
  | .add | .sub | .and | .or | .less | .greater | .equal => []

/-- A new string, to which all characters are added. -/
def stringInvocations (text : String) : List Invocation :=
  .system Os.newString 1 :: text.toList.map fun _ => .system Os.appendChar 2

mutual

/-- The calls in the arguments of a call come before it. -/
def Term.invocations : Term → List Invocation
  | .integer _ | .constant _ | .variable _ => []
  | .string text => stringInvocations text
  | .element _ index => index.invocations
  | .group inner => inner.invocations
  | .unary _ operand => operand.invocations
  | .call callee arguments => argumentInvocations arguments ++ [.source callee arguments]

def Expression.invocations : Expression → List Invocation
  | .mk first operations => first.invocations ++ operationInvocations operations

def operationInvocations : List (BinaryOp × Term) → List Invocation
  | [] => []
  | (op, term) :: rest =>
    term.invocations ++ operatorInvocations op ++ operationInvocations rest

def argumentInvocations : List Expression → List Invocation
  | [] => []
  | e :: rest => e.invocations ++ argumentInvocations rest

end

mutual

def Statement.invocations : Statement → List Invocation
  | .assign _ value | .doExpression value | .returnValue value => value.invocations
  | .assignElement _ index value => index.invocations ++ value.invocations
  | .ifThen condition onTrue => condition.invocations ++ statementInvocations onTrue
  | .ifElse condition onTrue onFalse =>
    condition.invocations ++ statementInvocations onTrue ++ statementInvocations onFalse
  | .loop condition body => condition.invocations ++ statementInvocations body
  | .doCall callee arguments => argumentInvocations arguments ++ [.source callee arguments]
  | .returnNothing => []

def statementInvocations : List Statement → List Invocation
  | [] => []
  | s :: rest => s.invocations ++ statementInvocations rest

end

/-- A constructor creates its object before anything else. -/
def prologueInvocations : SubroutineKind → List Invocation
  | .constructor => [.system Os.alloc 1]
  | .function | .method => []

def Subroutine.invocations (s : Subroutine) : List Invocation :=
  prologueInvocations s.signature.kind ++ statementInvocations s.body

/-! ## What is called -/

section

variable (className : String) (symbol? : String → Option Symbol)

/-- The full name of the function that a callee stands for. -/
def functionName : Callee → String
  | .own name => className ++ "." ++ name
  | .qualified receiver name =>
    match symbol? receiver with
    | some symbol => symbol.declaredType ++ "." ++ name
    | none => receiver ++ "." ++ name

/-- The receiver that is pushed in front of the arguments: the current object, the value of a
variable, or none if a class is named. -/
def receiverOperands : Callee → List Operand
  | .own _ => [.push .pointer 0]
  | .qualified receiver _ =>
    match symbol? receiver with
    | some symbol => [slotOperand symbol.slot]
    | none => []

/-- The call that is made: the receiver counts as one argument more. -/
def Invocation.call : Invocation → String × Nat
  | source callee arguments => (functionName className symbol? callee,
      (receiverOperands symbol? callee).length + arguments.length)
  | system name args => (name, args)

end

variable {scope : Scope}

/-- The operands that are the arguments of a call. -/
structure Invocation.Performed (scope : Scope) (inv : Invocation) (os : List Operand) : Prop where
  length_eq : os.length = (inv.call scope.className scope.lookup?).2
  limit : os.length ≤ argumentLimit
  /-- The receiver comes first, then one operand for each argument. -/
  operands : ∀ callee arguments, inv = .source callee arguments →
    ∃ os', os = receiverOperands scope.lookup? callee ++ os' ∧
      List.Forall₂ (fun e o => ∃ pos, Expression.translate scope pos e = .ok o) arguments os'

/-- The code makes the calls, in this order. -/
inductive Performs (scope : Scope) : List Invocation → List Instruction → Prop where
  | plain {is : List Instruction} (his : ∀ x ∈ is, x.call? = none) : Performs scope [] is
  | append {invs invs' : List Invocation} {is is' : List Instruction} (h : Performs scope invs is)
    (h' : Performs scope invs' is') : Performs scope (invs ++ invs') (is ++ is')
  | call {invs : List Invocation} {inv : Invocation} {os : List Operand}
    (harguments : Performs scope invs (operandsCode os)) (hinv : inv.Performed scope os) :
    Performs scope (invs ++ [inv])
      (operandsCode os ++ [.call (inv.call scope.className scope.lookup?).1 os.length])

namespace Performs

variable {invs : List Invocation} {inv : Invocation} {is : List Instruction}

/-- What comes after the last call. -/
theorem before (h : Performs scope invs is) (is' : List Instruction)
    (his' : ∀ x ∈ is', x.call? = none) : Performs scope invs (is ++ is') := by
  have happend := h.append (.plain his')
  rwa [List.append_nil] at happend

/-- What comes before the first call. -/
theorem after (h : Performs scope invs is) (is' : List Instruction)
    (his' : ∀ x ∈ is', x.call? = none) : Performs scope invs (is' ++ is) :=
  append (.plain his') h

/-- A call that the source does not write. -/
theorem system {name : String} {os : List Operand} {args : Nat}
    (h : Performs scope invs (operandsCode os)) (hargs : os.length = args)
    (hlimit : args ≤ argumentLimit) :
    Performs scope (invs ++ [.system name args]) (operandsCode os ++ [.call name args]) := by
  subst hargs
  exact h.call ⟨rfl, hlimit, nofun⟩

/-- The call instructions are those of the invocations. -/
theorem callsIn_eq (h : Performs scope invs is) :
    callsIn is = invs.map (Invocation.call scope.className scope.lookup?) := by
  induction h with
  | plain his => exact callsIn_eq_nil his
  | append _ _ ih ih' => rw [callsIn_append, List.map_append, ih, ih']
  | call _ hinv ih =>
    rw [callsIn_append, List.map_append, ih, hinv.length_eq]
    rfl

/-- Each call comes right after the code of its arguments. -/
theorem exists_infix (h : Performs scope invs is) (hinv : inv ∈ invs) :
    ∃ os, inv.Performed scope os ∧
      operandsCode os ++ [.call (inv.call scope.className scope.lookup?).1 os.length] <:+: is := by
  induction h with
  | plain => cases hinv
  | append _ _ ih ih' =>
    rcases List.mem_append.1 hinv with hinv | hinv
    · obtain ⟨os, hos, hinfix⟩ := ih hinv
      exact ⟨os, hos, hinfix.trans (List.prefix_append ..).isInfix⟩
    · obtain ⟨os, hos, hinfix⟩ := ih' hinv
      exact ⟨os, hos, hinfix.trans (List.suffix_append ..).isInfix⟩
  | call _ hperformed ih =>
    rcases List.mem_append.1 hinv with hinv | hinv
    · obtain ⟨os, hos, hinfix⟩ := ih hinv
      exact ⟨os, hos, hinfix.trans (List.prefix_append ..).isInfix⟩
    · rw [List.mem_singleton.1 hinv]
      exact ⟨_, hperformed, List.infix_rfl⟩

end Performs

/-! ## The translation of expressions -/

theorem call?_constantOperand (value : KeywordConstant) :
    ∀ x ∈ (constantOperand value).code, x.call? = none := by
  cases value <;> simp [constantOperand, Operand.code, UnaryOp.instruction, Instruction.call?]

theorem call?_integerOperand {text : String} {pos : Nat} {o : Operand}
    (h : integerOperand text pos = .ok o) : ∀ x ∈ o.code, x.call? = none := by
  unfold integerOperand at h
  split at h
  · cases h
    simp [Operand.code, Instruction.call?]
  · cases h

theorem call?_push (slot : Slot) : ∀ x ∈ (slotOperand slot).code, x.call? = none := by
  simp [slotOperand, Operand.code, Instruction.call?]

theorem performs_appendChars {pos : Nat} (cs : List Char) : ∀ {invs : List Invocation}
    {string o : Operand}, Performs scope invs string.code →
    cs.foldlM (appendChar pos) string = .ok o →
    Performs scope (invs ++ cs.map fun _ => .system Os.appendChar 2) o.code := by
  induction cs with
  | nil =>
    intro invs string o hstring h
    cases h
    rw [List.map_nil, List.append_nil]
    exact hstring
  | cons c cs ih =>
    intro invs string o hstring h
    obtain ⟨string', hstring', h⟩ := bind_eq_ok h
    unfold appendChar at hstring'
    split at hstring'
    · cases hstring'
    · cases hstring'
      have hos : Performs scope invs (operandsCode [string, .push .constant c.toNat]) :=
        hstring.before _ (by simp [operandsCode, Operand.code, Instruction.call?])
      rw [List.map_cons, ← List.singleton_append, ← List.append_assoc]
      exact ih (hos.system rfl (by simp [argumentLimit])) h

theorem performs_stringOperand {text : String} {pos : Nat} {o : Operand}
    (h : stringOperand text pos = .ok o) : Performs scope (stringInvocations text) o.code := by
  unfold stringOperand at h
  split at h
  · cases h
  · have hos : Performs scope [] (operandsCode [.push .constant text.length]) :=
      .plain (by simp [operandsCode, Operand.code, Instruction.call?])
    exact performs_appendChars text.toList (hos.system rfl (by simp [argumentLimit])) h

/-- A product and a quotient are calls with both operands. -/
theorem performs_binary {op : BinaryOp} {left right : Operand} {invs invs' : List Invocation}
    (hleft : Performs scope invs left.code) (hright : Performs scope invs' right.code) :
    Performs scope (invs ++ invs' ++ operatorInvocations op)
      (Operand.binary op left right).code := by
  have hboth := hleft.append hright
  have hcall (name : String) : Performs scope (invs ++ invs' ++ [.system name 2])
      (left.code ++ right.code ++ [.call name 2]) := by
    have hos : Performs scope (invs ++ invs') (operandsCode [left, right]) := by
      simpa only [operandsCode, List.append_nil] using hboth
    have hcall : Performs scope (invs ++ invs' ++ [.system name 2])
        (operandsCode [left, right] ++ [.call name 2]) := hos.system rfl (by simp [argumentLimit])
    simpa only [operandsCode, List.append_nil] using hcall
  cases op with
  | mul => exact hcall Os.multiply
  | div => exact hcall Os.divide
  | add | sub | and | or | less | greater | equal =>
    rw [operatorInvocations, List.append_nil]
    exact hboth.before _ (by simp [BinaryOp.instruction, Instruction.call?])

/-- A call that is translated has its receiver in front of its arguments, and not too many. -/
theorem callOperand_eq_ok {callee : Callee} {stop : Nat} {t : Except Fault (List Operand)}
    {o : Operand} (h : callOperand scope callee stop t = .ok o) :
    ∃ os, t = .ok os ∧
      o = .call (functionName scope.className scope.lookup? callee)
        (receiverOperands scope.lookup? callee ++ os) ∧
      (os.length ≤ argumentLimit →
        (receiverOperands scope.lookup? callee ++ os).length ≤ argumentLimit) := by
  obtain ⟨os, hos, h⟩ := bind_eq_ok h
  refine ⟨os, hos, ?_⟩
  have hbound {name : String} {receiver : Operand} (h : boundCall name receiver stop os = .ok o) :
      o = .call name ([receiver] ++ os) ∧
        (os.length ≤ argumentLimit → ([receiver] ++ os).length ≤ argumentLimit) := by
    refine ⟨boundCall_eq_ok h, fun hle => ?_⟩
    have hne : os.length ≠ argumentLimit := by
      intro heq
      rw [boundCall, if_pos heq] at h
      cases h
    rw [List.length_append, List.length_singleton]
    omega
  cases callee with
  | own name => exact hbound h
  | qualified receiver method =>
    dsimp only at h
    rw [functionName, receiverOperands]
    cases hsymbol : scope.lookup? receiver with
    | some symbol =>
      rw [hsymbol] at h
      exact hbound h
    | none =>
      rw [hsymbol] at h
      cases h
      exact ⟨rfl, id⟩

/-- Each argument has its operand, and they are not too many. -/
theorem translateArguments_eq_ok (arguments : List Expression) : ∀ {pos args os},
    args ≤ argumentLimit → translateArguments scope pos args arguments = .ok os →
    args + os.length ≤ argumentLimit ∧
      List.Forall₂ (fun e o => ∃ pos, Expression.translate scope pos e = .ok o) arguments os := by
  induction arguments with
  | nil =>
    intro pos args os hargs h
    cases h
    exact ⟨hargs, .nil⟩
  | cons e rest ih =>
    intro pos args os hargs h
    obtain ⟨o, ho, h⟩ := bind_eq_ok h
    split at h
    · cases h
    · next hne =>
      obtain ⟨os', hos', rfl⟩ := map_eq_ok h
      obtain ⟨hle, hrest⟩ := ih (show args + 1 ≤ argumentLimit by omega) hos'
      refine ⟨?_, .cons ⟨pos, ho⟩ hrest⟩
      rw [List.length_cons]
      omega

theorem performs_callOperand {callee : Callee} {arguments : List Expression} {start stop : Nat}
    {o : Operand} (h : callOperand scope callee stop (translateArguments scope start 0 arguments) =
      .ok o)
    (harguments : ∀ {os}, translateArguments scope start 0 arguments = .ok os →
      Performs scope (argumentInvocations arguments) (operandsCode os)) :
    Performs scope (argumentInvocations arguments ++ [.source callee arguments]) o.code := by
  obtain ⟨os, hos, rfl, hlimit⟩ := callOperand_eq_ok h
  obtain ⟨hle, hoperands⟩ := translateArguments_eq_ok arguments (Nat.zero_le _) hos
  have hreceiver : ∀ x ∈ operandsCode (receiverOperands scope.lookup? callee), x.call? = none := by
    unfold receiverOperands
    split
    · simp [operandsCode, Operand.code, Instruction.call?]
    · split <;> simp [operandsCode, slotOperand, Operand.code, Instruction.call?]
  have hcode : Performs scope (argumentInvocations arguments)
      (operandsCode (receiverOperands scope.lookup? callee ++ os)) := by
    rw [operandsCode_append]
    exact (harguments hos).after _ hreceiver
  have hperformed : (Invocation.source callee arguments).Performed scope
      (receiverOperands scope.lookup? callee ++ os) := by
    refine ⟨?_, hlimit (by omega), ?_⟩
    · rw [List.length_append, Invocation.call, length_translateArguments arguments hos]
    · rintro _ _ ⟨⟩
      exact ⟨os, rfl, hoperands⟩
  exact .call hcode hperformed

theorem performs_elementAddress {base : Slot} {index : Operand} {invs : List Invocation}
    (h : Performs scope invs index.code) :
    Performs scope invs (elementAddress base index).code := by
  have hbinary := @performs_binary scope .add _ _ _ _ h (.plain (call?_push base))
  rwa [operatorInvocations, List.append_nil, List.append_nil] at hbinary

mutual

theorem Term.performs : (t : Term) → ∀ {pos o}, t.translate scope pos = .ok o →
    Performs scope t.invocations o.code
  | .integer text, pos, o, h => .plain (call?_integerOperand h)
  | .string text, pos, o, h => performs_stringOperand h
  | .constant value, pos, o, h => by
    cases h
    exact .plain (call?_constantOperand value)
  | .variable name, pos, o, h => by
    obtain ⟨slot, -, rfl⟩ := map_eq_ok h
    exact .plain (call?_push slot)
  | .element name index, pos, o, h => by
    obtain ⟨slot, hslot, h⟩ := bind_eq_ok h
    obtain ⟨i, hi, rfl⟩ := map_eq_ok h
    exact (performs_elementAddress (index.performs hi)).before fetchElement
      (by simp [fetchElement, Instruction.call?])
  | .group inner, pos, o, h => inner.performs h
  | .unary op operand, pos, o, h => by
    obtain ⟨o', ho', rfl⟩ := map_eq_ok h
    exact (operand.performs ho').before [op.instruction]
      (by cases op <;> simp [UnaryOp.instruction, Instruction.call?])
  | .call callee arguments, pos, o, h =>
    performs_callOperand h fun hos => performs_translateArguments arguments hos

theorem Expression.performs : (e : Expression) → ∀ {pos o}, e.translate scope pos = .ok o →
    Performs scope e.invocations o.code
  | .mk first operations, pos, o, h => by
    obtain ⟨left, hleft, h⟩ := bind_eq_ok h
    exact performs_translateOperations operations (first.performs hleft) h

/-- The calls to the left of the operators come first. -/
theorem performs_translateOperations : (operations : List (BinaryOp × Term)) →
    ∀ {pos left o invs}, Performs scope invs left.code →
    translateOperations scope pos left operations = .ok o →
    Performs scope (invs ++ operationInvocations operations) o.code
  | [], pos, left, o, invs, hleft, h => by
    cases h
    rw [operationInvocations, List.append_nil]
    exact hleft
  | (op, term) :: rest, pos, left, o, invs, hleft, h => by
    obtain ⟨right, hright, h⟩ := bind_eq_ok h
    have hbinary := @performs_binary scope op _ _ _ _ hleft (term.performs hright)
    rw [operationInvocations, ← List.append_assoc, ← List.append_assoc]
    exact performs_translateOperations rest hbinary h

theorem performs_translateArguments : (arguments : List Expression) → ∀ {pos args os},
    translateArguments scope pos args arguments = .ok os →
    Performs scope (argumentInvocations arguments) (operandsCode os)
  | [], pos, args, os, h => by
    cases h
    exact .plain nofun
  | e :: rest, pos, args, os, h => by
    obtain ⟨o, ho, h⟩ := bind_eq_ok h
    split at h
    · cases h
    · obtain ⟨os', hos', rfl⟩ := map_eq_ok h
      exact (e.performs ho).append (performs_translateArguments rest hos')

end

/-! ## The translation of statements -/

theorem performs_leaveWith {value : Option Operand} {invs : List Invocation}
    (h : ∀ o, value = some o → Performs scope invs o.code) (hnone : value = none → invs = []) :
    Performs scope invs (leaveWith scope value).code := by
  unfold leaveWith
  cases value with
  | none =>
    rw [hnone rfl]
    split <;> exact .plain (by simp [Command.code, Instruction.call?])
  | some o =>
    split <;> exact (h o rfl).before _ (by simp [discard, Instruction.call?])

mutual

theorem Statement.performs : (s : Statement) → ∀ {labels pos cmd},
    s.translate scope labels pos = .ok cmd → Performs scope s.invocations cmd.code
  | .assign name value, labels, pos, cmd, h => by
    obtain ⟨target, v, -, hv, rfl⟩ := Statement.translate_assign h
    exact (value.performs hv).before [target.pop] (by simp [Slot.pop, Instruction.call?])
  | .assignElement name index value, labels, pos, cmd, h => by
    obtain ⟨base, i, v, -, hi, hv, rfl⟩ := Statement.translate_assignElement h
    have haddress := @performs_elementAddress scope base _ _ (index.performs hi)
    exact (haddress.append (value.performs hv)).before storeElement
      (by simp [storeElement, Instruction.call?])
  | .ifThen condition onTrue, labels, pos, cmd, h => by
    obtain ⟨o, cmds, pos', ho, hcmds, rfl⟩ := Statement.translate_ifThen h
    let names := IfLabels.ofId labels.peek
    have hcondition := (condition.performs ho).before
      [.ifGoto names.onTrue, .goto names.onFalse, .label names.onTrue]
      (by simp [Instruction.call?])
    have hblock := hcondition.append (performs_translateStatements onTrue hcmds)
    exact hblock.before [.label names.onFalse] (by simp [Instruction.call?])
  | .ifElse condition onTrue onFalse, labels, pos, cmd, h => by
    obtain ⟨o, cmds, cmds', pos', pos'', ho, hcmds, hcmds', rfl⟩ := Statement.translate_ifElse h
    let names := IfLabels.ofId labels.peek
    have hcondition := (condition.performs ho).before
      [.ifGoto names.onTrue, .goto names.onFalse, .label names.onTrue]
      (by simp [Instruction.call?])
    have hblock := (hcondition.append (performs_translateStatements onTrue hcmds)).before
      [.goto names.done, .label names.onFalse] (by simp [Instruction.call?])
    have hblocks := hblock.append (performs_translateStatements onFalse hcmds')
    exact hblocks.before [.label names.done] (by simp [Instruction.call?])
  | .loop condition body, labels, pos, cmd, h => by
    obtain ⟨o, cmds, pos', ho, hcmds, rfl⟩ := Statement.translate_loop h
    let names := WhileLabels.ofId labels.peek
    have hentry := (condition.performs ho).after [.label names.condition]
      (by simp [Instruction.call?])
    have hcondition := hentry.before [.arithmetic .not, .ifGoto names.done]
      (by simp [Instruction.call?])
    have hblock := hcondition.append (performs_translateStatements body hcmds)
    exact hblock.before [.goto names.condition, .label names.done] (by simp [Instruction.call?])
  | .doCall callee arguments, labels, pos, cmd, h => by
    obtain ⟨o, stop, ho, rfl⟩ := Statement.translate_doCall h
    have hcall := performs_callOperand ho fun hos => performs_translateArguments arguments hos
    exact hcall.before [discard] (by simp [discard, Instruction.call?])
  | .doExpression value, labels, pos, cmd, h => by
    obtain ⟨o, ho, rfl⟩ := Statement.translate_doExpression h
    exact (value.performs ho).before [discard] (by simp [discard, Instruction.call?])
  | .returnNothing, labels, pos, cmd, h => by
    cases h
    exact performs_leaveWith nofun fun _ => rfl
  | .returnValue value, labels, pos, cmd, h => by
    obtain ⟨o, ho, rfl⟩ := Statement.translate_returnValue h
    exact performs_leaveWith (fun o' ho' => Option.some.inj ho' ▸ value.performs ho) nofun

theorem performs_translateStatements : (body : List Statement) → ∀ {labels pos cmds},
    translateStatements scope labels pos body = .ok cmds →
    Performs scope (statementInvocations body) (commandsCode cmds)
  | [], labels, pos, cmds, h => by
    cases h
    exact .plain nofun
  | s :: rest, labels, pos, cmds, h => by
    obtain ⟨cmd, cmds', hcmd, hcmds', rfl⟩ := translateStatements_cons h
    exact (s.performs hcmd).append (performs_translateStatements rest hcmds')

end

theorem performs_prologue (fields : Nat) (kind : SubroutineKind) :
    Performs scope (prologueInvocations kind) (kind.prologue fields) := by
  cases kind with
  | constructor =>
    have hos : Performs scope [] (operandsCode [.push .constant fields]) :=
      .plain (by simp [operandsCode, Operand.code, Instruction.call?])
    have hcreate : Performs scope [.system Os.alloc 1] _ := hos.system rfl (by simp [argumentLimit])
    exact hcreate.before [.pop .pointer 0] (by simp [Instruction.call?])
  | function => exact .plain (List.forall_mem_nil _)
  | method => exact .plain (by simp [SubroutineKind.prologue, Instruction.call?])

/-- The routine of a subroutine makes its calls. -/
theorem Subroutine.performs {className : String} {classTable : SymbolTable} {labels : LabelSupply}
    {pos : Nat} {s : Subroutine} {r : Routine}
    (h : s.translate className classTable labels pos = .ok r) :
    ∃ scope, s.scope className classTable pos = .ok scope ∧
      Performs scope s.invocations r.code := by
  obtain ⟨scope, cmds, pos', hscope, hcmds, rfl⟩ := Subroutine.translate_scope h
  refine ⟨scope, hscope, ?_⟩
  have hbody : Performs scope s.invocations
      (commandsCode (prologue (classTable.count .field) s.signature.kind ++ cmds)) := by
    rw [commandsCode_append, commandsCode_prologue]
    exact (performs_prologue _ _).append (performs_translateStatements s.body hcmds)
  exact hbody.after [.function _ _] (by simp [Instruction.call?])

end Jack.Grammar
