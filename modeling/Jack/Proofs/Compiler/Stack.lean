import Mathlib.Data.List.Forall2
import Jack.Proofs.Compiler.Soundness
import Jack.Proofs.Vm.Place

/-!
# The operand stack

Every function that the compiler writes keeps its stack in order: each instruction has one height,
whichever way control comes to it, and all values that it takes are there.
-/

namespace Jack.Vm

/-! ## Balanced routines -/

namespace Routine

/-- A command stands at an instruction of the routine. -/
def CommandAt (r : Routine) (i : Nat) (c : Command) : Prop :=
  ∃ before, Vm.CommandAt r.commands before c ∧ i = before.length + 1

def OperandAt (r : Routine) (i : Nat) (q : Operand) : Prop :=
  ∃ before, Vm.OperandAt r.commands before q ∧ i = before.length + 1

/-- The heights keep the stack of a routine in order. -/
structure Balanced (isVoid : Bool) (r : Routine) (height : Nat → Nat) : Prop where
  /-- The header comes first, and the stack is empty in front of it and behind it. -/
  header : ∀ {i name locals}, r.code[i]? = some (.function name locals) →
    i = 0 ∧ height i = 0 ∧ height (i + 1) = 0
  pops_le : ∀ {i x}, r.code[i]? = some x → x.pops ≤ height i
  next : ∀ {i x}, r.code[i]? = some x → x.fallsThrough = true →
    height (i + 1) = height i - x.pops + x.pushes
  jump : ∀ {i j x name}, r.code[i]? = some x → x.target? = some name →
    r.code[j]? = some (.label name) → height j = height i - x.pops
  label : ∀ {i name}, r.code[i]? = some (.label name) → height i = 0
  /-- The stack is empty in front of every command and behind it. -/
  command : ∀ {i c}, r.CommandAt i c →
    c.code <+: r.code.drop i ∧ height i = 0 ∧ height (i + c.code.length) = 0
  /-- An operand adds one value and leaves those below it alone. -/
  operand : ∀ {i q}, r.OperandAt i q →
    q.code <+: r.code.drop i ∧ height (i + q.code.length) = height i + 1 ∧
      ∀ j ≤ q.code.length, height i ≤ height (i + j)
  /-- The parts of an operand are computed one after the other. -/
  part : ∀ {i q ps p ps'}, r.OperandAt i q → q.parts = ps ++ p :: ps' →
    r.OperandAt (i + (operandsCode ps).length) p ∧
      height (i + (operandsCode ps).length) = height i + ps.length
  /-- A call takes exactly the values of the parts of the operand that it completes. -/
  call : ∀ {i name args}, r.code[i]? = some (.call name args) →
    ∃ j q, r.OperandAt j q ∧ q.finish = [.call name args] ∧ q.parts.length = args ∧
      i = j + (operandsCode q.parts).length
  /-- A return finds one value, or none if it is a bare one of a routine that owes a value. -/
  ret : ∀ {i}, r.code[i]? = some .ret →
    height i = 1 ∨ height i = 0 ∧ isVoid = false ∧ r.CommandAt i (.leave none)

def height (r : Routine) (i : Nat) : Nat := heightFrom 0 (r.code.take i)

theorem height_of_append {r : Routine} {before after : List Instruction}
    (h : commandsCode r.commands = before ++ after) :
    r.height (before.length + 1) = heightFrom 0 before := by
  rw [height, code, h, List.take_succ_cons, List.take_left]
  rfl

theorem height_of_append_append {r : Routine} {before is after : List Instruction}
    (h : commandsCode r.commands = before ++ (is ++ after)) :
    r.height (before.length + 1 + is.length) = heightFrom (heightFrom 0 before) is := by
  rw [← List.append_assoc] at h
  rw [← heightFrom_append, ← height_of_append h, List.length_append]
  congr 1
  omega

theorem getElem?_code {r : Routine} {i : Nat} {x : Instruction} (h : r.code[i]? = some x) :
    i = 0 ∧ x = .function r.name r.locals ∨
      ∃ before after, commandsCode r.commands = before ++ x :: after ∧ i = before.length + 1 := by
  cases i with
  | zero =>
    left
    exact ⟨rfl, (Option.some.inj h).symm⟩
  | succ i =>
    right
    have hcode : (commandsCode r.commands)[i]? = some x := h
    obtain ⟨hi, rfl⟩ := List.getElem?_eq_some_iff.1 hcode
    refine ⟨(commandsCode r.commands).take i, (commandsCode r.commands).drop (i + 1), ?_, ?_⟩
    · rw [← List.drop_eq_getElem_cons hi, List.take_append_drop]
    · rw [List.length_take_of_le (Nat.le_of_lt hi)]

theorem fits {r : Routine} {i : Nat} {x : Instruction} (h : r.code[i]? = some x) :
    x.Fits 0 (r.height i) := by
  rcases getElem?_code h with ⟨rfl, rfl⟩ | ⟨before, after, hcode, rfl⟩
  · exact ⟨Nat.le_refl _, nofun, nofun⟩
  · have hchecked := checked_commandsCode r.commands
    rw [hcode] at hchecked
    rw [height_of_append hcode]
    exact hchecked.fits

theorem height_succ {r : Routine} {i : Nat} {x : Instruction} (h : r.code[i]? = some x) :
    r.height (i + 1) = x.heightAfter (r.height i) := by
  obtain ⟨hi, rfl⟩ := List.getElem?_eq_some_iff.1 h
  rw [height, List.take_succ_eq_append_getElem hi, heightFrom_append]
  rfl

theorem drop_code {r : Routine} {before after : List Instruction}
    (h : commandsCode r.commands = before ++ after) :
    r.code.drop (before.length + 1) = after := by
  rw [code, h, List.drop_succ_cons, List.drop_left]

/-- Where a routine has a bare return, it owes a value. -/
def OwesValue (isVoid : Bool) (r : Routine) : Prop :=
  ∀ before v, Vm.CommandAt r.commands before (.leave v) → isVoid = false

theorem balanced {isVoid : Bool} {r : Routine} (howes : OwesValue isVoid r) :
    r.Balanced isVoid r.height := by
  constructor
  case header =>
    intro i name locals h
    rcases getElem?_code h with ⟨rfl, -⟩ | ⟨before, after, hcode, -⟩
    · exact ⟨rfl, rfl, rfl⟩
    · have hmem : .function name locals ∈ commandsCode r.commands :=
        hcode ▸ List.mem_append_right _ (List.mem_cons_self ..)
      exact absurd hmem (function_not_mem r.commands name locals)
  case pops_le =>
    intro i x h
    have hle := (fits h).pops_le
    omega
  case next =>
    intro i x h hx
    rw [height_succ h, Instruction.heightAfter_of_fallsThrough hx]
  case label =>
    intro i name h
    exact (fits h).control rfl
  case jump =>
    intro i j x name h htarget hlabel
    -- Both sides are zero: a jump takes all that is on the stack.
    have hi : r.height i = x.pops := by
      apply (fits h).control
      cases x <;> first | rfl | cases htarget
    have hj : r.height j = 0 := (fits hlabel).control rfl
    rw [hi, hj, Nat.sub_self]
  case command =>
    rintro _ c ⟨before, hc, rfl⟩
    obtain ⟨after, hcode⟩ := hc.code_eq
    refine ⟨?_, ?_, ?_⟩
    · rw [drop_code hcode]
      exact List.prefix_append ..
    · rw [height_of_append hcode, hc.heightFrom]
    · rw [height_of_append_append hcode, hc.heightFrom]
      exact c.code_checked.2
  case operand =>
    rintro _ q ⟨before, hq, rfl⟩
    obtain ⟨after, hcode⟩ := hq.code_eq
    refine ⟨?_, ?_, ?_⟩
    · rw [drop_code hcode]
      exact List.prefix_append ..
    · rw [height_of_append_append hcode, height_of_append hcode, q.heightFrom_code]
    · intro j hj
      have hsplit : commandsCode r.commands =
          before ++ (q.code.take j ++ (q.code.drop j ++ after)) := by
        rw [hcode, ← List.append_assoc (q.code.take j), List.take_append_drop]
      have hlength : (q.code.take j).length = j := List.length_take_of_le hj
      have hheight := height_of_append_append hsplit
      rw [hlength] at hheight
      rw [hheight, height_of_append hcode]
      -- The scan of the operand never gets below the height at which it starts.
      have hchecked := q.checked (heightFrom 0 before) (Nat.le_refl _)
      rw [← List.take_append_drop j q.code] at hchecked
      exact hchecked.base_le (Nat.le_refl _)
  case part =>
    rintro _ q ps p ps' ⟨before, hq, rfl⟩ hparts
    have hpart := hq.part hparts
    obtain ⟨after, hcode⟩ := hpart.code_eq
    have hlength : before.length + 1 + (operandsCode ps).length =
        (before ++ operandsCode ps).length + 1 := by
      rw [List.length_append]
      omega
    obtain ⟨after', hcode'⟩ := hq.code_eq
    refine ⟨⟨_, hpart, hlength⟩, ?_⟩
    rw [hlength, height_of_append hcode, height_of_append hcode', heightFrom_append,
      heightFrom_operandsCode]
  case call =>
    intro i name args h
    rcases getElem?_code h with ⟨-, hx⟩ | ⟨before, after, hcode, rfl⟩
    · cases hx
    · obtain ⟨before', q, hq, hcall, rfl⟩ := exists_call hcode
      refine ⟨_, q, ⟨before', hq, rfl⟩, hcall, Operand.length_parts_of_call hcall, ?_⟩
      rw [List.length_append]
      omega
  case ret =>
    intro i h
    rcases getElem?_code h with ⟨-, hx⟩ | ⟨before, after, hcode, rfl⟩
    · cases hx
    · rw [height_of_append hcode]
      rcases heightFrom_ret hcode with hone | ⟨hzero, hbare⟩
      · exact .inl hone
      · exact .inr ⟨hzero, howes before none hbare, before, hbare, rfl⟩

end Routine

/-! ## Returns of void subroutines -/

theorem Command.Within.self_or_block {c d : Command} {before : List Instruction}
    (h : c.Within before d) :
    d = c ∨ ∃ cs e before', .block cs ∈ c.pieces ∧ e ∈ cs ∧ e.Within before' d := by
  cases h with
  | self => exact .inl rfl
  | @block _ e _ cs cs' ps ps' before' h he =>
    refine .inr ⟨cs ++ e :: cs', e, before', ?_, ?_, he⟩
    · rw [h]
      exact List.mem_append_right _ (List.mem_cons_self ..)
    · exact List.mem_append_right _ (List.mem_cons_self ..)

/-- Nowhere in the command is a value returned unless one is owed. -/
def Command.OwesValue (isVoid : Bool) (c : Command) : Prop :=
  ∀ before v, c.Within before (.leave v) → isVoid = false

theorem Command.owesValue_of_blocks {isVoid : Bool} {c : Command}
    (hc : ∀ v, c = .leave v → isVoid = false)
    (hblocks : ∀ cs, .block cs ∈ c.pieces → ∀ d ∈ cs, d.OwesValue isVoid) :
    c.OwesValue isVoid := by
  intro before v h
  rcases h.self_or_block with rfl | ⟨cs, e, before', hcs, he, h⟩
  · exact hc v rfl
  · exact hblocks cs hcs e he before' v h

end Jack.Vm

namespace Jack.Grammar

open Vm

variable {scope : Scope}

theorem owesValue_leaveWith (value : Option Operand) :
    (leaveWith scope value).OwesValue scope.signature.isVoid := by
  unfold leaveWith
  cases hvoid : scope.signature.isVoid with
  | true =>
    -- The command of a void subroutine is another one.
    cases value <;>
      exact Command.owesValue_of_blocks (fun v h => by cases h) (by simp [Command.pieces])
  | false =>
    cases value <;> exact Command.owesValue_of_blocks (fun _ _ => rfl) (by simp [Command.pieces])

mutual

theorem Statement.owesValue : (s : Statement) → ∀ {labels pos cmd},
    s.translate scope labels pos = .ok cmd → cmd.OwesValue scope.signature.isVoid
  | .assign name value, labels, pos, cmd, h => by
    obtain ⟨target, v, -, -, rfl⟩ := Statement.translate_assign h
    exact Command.owesValue_of_blocks nofun (by simp [Command.pieces])
  | .assignElement name index value, labels, pos, cmd, h => by
    obtain ⟨base, i, v, -, -, -, rfl⟩ := Statement.translate_assignElement h
    exact Command.owesValue_of_blocks nofun (by simp [Command.pieces])
  | .ifThen condition onTrue, labels, pos, cmd, h => by
    obtain ⟨o, cmds, pos', -, hcmds, rfl⟩ := Statement.translate_ifThen h
    have honTrue := owesValue_statements onTrue hcmds
    exact Command.owesValue_of_blocks nofun (by simpa [Command.pieces] using honTrue)
  | .ifElse condition onTrue onFalse, labels, pos, cmd, h => by
    obtain ⟨o, cmds, cmds', pos', pos'', -, hcmds, hcmds', rfl⟩ := Statement.translate_ifElse h
    have honTrue := owesValue_statements onTrue hcmds
    have honFalse := owesValue_statements onFalse hcmds'
    refine Command.owesValue_of_blocks nofun fun cs hcs => ?_
    obtain rfl | rfl : cs = cmds ∨ cs = cmds' := by simpa [Command.pieces] using hcs
    · exact honTrue
    · exact honFalse
  | .loop condition body, labels, pos, cmd, h => by
    obtain ⟨o, cmds, pos', -, hcmds, rfl⟩ := Statement.translate_loop h
    have hbody := owesValue_statements body hcmds
    exact Command.owesValue_of_blocks nofun (by simpa [Command.pieces] using hbody)
  | .doCall callee arguments, labels, pos, cmd, h => by
    obtain ⟨o, stop, -, rfl⟩ := Statement.translate_doCall h
    exact Command.owesValue_of_blocks nofun (by simp [Command.pieces])
  | .doExpression value, labels, pos, cmd, h => by
    obtain ⟨o, -, rfl⟩ := Statement.translate_doExpression h
    exact Command.owesValue_of_blocks nofun (by simp [Command.pieces])
  | .returnNothing, labels, pos, cmd, h => by
    cases h
    exact owesValue_leaveWith none
  | .returnValue value, labels, pos, cmd, h => by
    obtain ⟨o, -, rfl⟩ := Statement.translate_returnValue h
    exact owesValue_leaveWith (some o)

theorem owesValue_statements : (body : List Statement) → ∀ {labels pos cmds},
    translateStatements scope labels pos body = .ok cmds →
    ∀ c ∈ cmds, c.OwesValue scope.signature.isVoid
  | [], labels, pos, cmds, h => by
    cases h
    exact nofun
  | s :: rest, labels, pos, cmds, h => by
    obtain ⟨cmd, cmds', hcmd, hcmds', rfl⟩ := translateStatements_cons h
    rw [List.forall_mem_cons]
    exact ⟨s.owesValue hcmd, owesValue_statements rest hcmds'⟩

end

theorem owesValue_prologue (isVoid : Bool) (fields : Nat) (kind : SubroutineKind) :
    ∀ c ∈ prologue fields kind, c.OwesValue isVoid := by
  intro c hc
  obtain ⟨target, value, rfl⟩ : ∃ target value, c = .store target value := by
    cases kind <;> simp only [prologue, List.mem_cons, List.not_mem_nil, or_false] at hc
    all_goals exact ⟨_, _, hc⟩
  exact Command.owesValue_of_blocks nofun (by simp [Command.pieces])

theorem Subroutine.balanced {className : String} {classTable : SymbolTable}
    {labels : LabelSupply} {pos : Nat} {s : Subroutine} {r : Routine}
    (h : s.translate className classTable labels pos = .ok r) :
    r.Balanced s.signature.isVoid r.height := by
  obtain ⟨scope, cmds, pos', hsignature, hcmds, rfl⟩ := Subroutine.translate_ok h
  apply Routine.balanced
  -- A return stands in the prologue, which has none, or in the statements.
  rintro _ v ⟨cs₁, c, cs₂, before', hsplit, hwithin, -⟩
  have hsplit : prologue (classTable.count .field) s.signature.kind ++ cmds = cs₁ ++ c :: cs₂ :=
    hsplit
  have hc : c ∈ prologue (classTable.count .field) s.signature.kind ++ cmds :=
    hsplit ▸ List.mem_append_right _ (List.mem_cons_self ..)
  rcases List.mem_append.1 hc with hc | hc
  · exact owesValue_prologue _ _ _ c hc before' v hwithin
  · rw [← hsignature]
    exact owesValue_statements s.body hcmds c hc before' v hwithin

theorem balanced_subroutines {className : String} {classTable : SymbolTable}
    (ss : List Subroutine) {labels : LabelSupply} {pos : Nat} {rs : List Routine}
    (h : translateSubroutines className classTable labels pos ss = .ok rs) :
    List.Forall₂ (fun s r => ∃ height, Routine.Balanced s.signature.isVoid r height) ss rs := by
  apply (forall₂_translateSubroutines ss h).imp
  rintro s r ⟨labels, pos, hr⟩
  exact ⟨r.height, s.balanced hr⟩

end Jack.Grammar

namespace Jack

open Grammar

/-- Whatever tree compiles, its code is that of one routine for each subroutine of the class that
the tree spells, and every routine keeps its stack in order. -/
theorem compile_balanced {labels : Vm.LabelSupply} {root : Node} {options : Options}
    {unit : ClassCode} (h : (compile labels root options).result = .ok unit) :
    ∃ c rs, Spells (Grammar.Class.lexemes c) (options.entries root) ∧
      c.translate labels = .ok rs ∧
      unit.code.toList = routinesCode rs ∧
      List.Forall₂ (fun s r => ∃ height, Vm.Routine.Balanced s.signature.isVoid r height)
        c.subroutines rs := by
  rw [compile_eq] at h
  obtain ⟨c, rs, hspells, hrs, rfl, -⟩ := compileEntries_ok h
  refine ⟨c, rs, hspells, hrs, rfl, ?_⟩
  obtain ⟨table, -, hrs⟩ := bind_eq_ok hrs
  exact balanced_subroutines c.subroutines hrs

/-- `class Main { function int answer() { return 6 * 7; } }` -/
def answerTree : Node :=
  .production .classDec
    [.token .keyword "class", .token .identifier "Main", .token .symbol openBrace,
      .production .subroutineDec
        [.token .keyword "function", .token .keyword "int", .token .identifier "answer",
          .token .symbol "(", .production .parameterList [], .token .symbol ")",
          .production .subroutineBody
            [.token .symbol openBrace,
              .production .statements
                [.production .returnStatement
                  [.token .keyword "return",
                    .production .expression
                      [.production .term [.token .integerConstant "6"], .token .symbol "*",
                        .production .term [.token .integerConstant "7"]],
                    .token .symbol ";"]],
              .token .symbol closeBrace]],
      .token .symbol closeBrace]

def answerUnit : ClassCode where
  className := "Main"
  code := ⟨#[.function "Main.answer" 0, .push .constant 6, .push .constant 7,
    .call "Math.multiply" 2, .ret]⟩

theorem compile_balanced_answerTree :
    (compile (.sequential 0) answerTree).result = .ok answerUnit ∧
      ∃ c rs, Spells (Grammar.Class.lexemes c) (({} : Options).entries answerTree) ∧
        c.translate (.sequential 0) = .ok rs ∧ answerUnit.code.toList = routinesCode rs ∧
        List.Forall₂ (fun s r => ∃ height, Vm.Routine.Balanced s.signature.isVoid r height)
          c.subroutines rs := by
  have hcompile : (compile (.sequential 0) answerTree).result = .ok answerUnit := by rfl
  exact ⟨hcompile, compile_balanced hcompile⟩

end Jack
