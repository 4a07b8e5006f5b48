import Jack.Proofs.Vm.Label

/-!
# The ids of a translation

A translation takes the next ids of the supply, one for each `if` and `while`, in source order.
-/

namespace Jack.Grammar

open Vm

/-- The next `n` ids of a supply. -/
def idsOf (labels : LabelSupply) (n : Nat) : List LabelId :=
  (List.range' labels.taken n).map labels.ids

theorem nodup_idsOf {labels : LabelSupply} {n : Nat} (h : labels.Fresh (labels.taken + n)) :
    (idsOf labels n).Nodup :=
  h.nodup_map List.pairwise_lt_range' fun _ => List.mem_range'_1.1

theorem idsOf_add (labels : LabelSupply) (m n : Nat) :
    idsOf labels (m + n) = idsOf labels m ++ idsOf (labels.skip m) n := by
  rw [idsOf, ← List.range'_append_1, List.map_append]
  rfl

variable {scope : Scope}

theorem ids_leaveWith (value : Option Operand) : (leaveWith scope value).ids = [] := by
  unfold leaveWith
  split <;> rfl

mutual

/-- A statement takes as many ids as it has branches. -/
theorem Statement.ids_translate : (s : Statement) → ∀ {labels pos cmd},
    s.translate scope labels pos = .ok cmd → cmd.ids = idsOf labels s.branches
  | .assign name value, labels, pos, cmd, h => by
    obtain ⟨target, v, -, -, rfl⟩ := Statement.translate_assign h
    rfl
  | .assignElement name index value, labels, pos, cmd, h => by
    obtain ⟨base, i, v, -, -, -, rfl⟩ := Statement.translate_assignElement h
    rfl
  | .ifThen condition onTrue, labels, pos, cmd, h => by
    obtain ⟨o, cmds, pos', -, hcmds, rfl⟩ := Statement.translate_ifThen h
    rw [Command.ids, ids_translateStatements onTrue hcmds]
    rfl
  | .ifElse condition onTrue onFalse, labels, pos, cmd, h => by
    obtain ⟨o, cmds, cmds', pos', pos'', -, hcmds, hcmds', rfl⟩ := Statement.translate_ifElse h
    -- The second block goes on with the ids that the first one leaves.
    rw [Command.ids, ids_translateStatements onTrue hcmds, ids_translateStatements onFalse hcmds',
      ← idsOf_add]
    rfl
  | .loop condition body, labels, pos, cmd, h => by
    obtain ⟨o, cmds, pos', -, hcmds, rfl⟩ := Statement.translate_loop h
    rw [Command.ids, ids_translateStatements body hcmds]
    rfl
  | .doCall callee arguments, labels, pos, cmd, h => by
    obtain ⟨o, stop, -, rfl⟩ := Statement.translate_doCall h
    rfl
  | .doExpression value, labels, pos, cmd, h => by
    obtain ⟨o, -, rfl⟩ := Statement.translate_doExpression h
    rfl
  | .returnNothing, labels, pos, cmd, h => by
    cases h
    exact ids_leaveWith none
  | .returnValue value, labels, pos, cmd, h => by
    obtain ⟨o, -, rfl⟩ := Statement.translate_returnValue h
    exact ids_leaveWith (some o)

theorem ids_translateStatements : (body : List Statement) → ∀ {labels pos cmds},
    translateStatements scope labels pos body = .ok cmds →
    commandsIds cmds = idsOf labels (branchesIn body)
  | [], labels, pos, cmds, h => by
    cases h
    rfl
  | s :: rest, labels, pos, cmds, h => by
    obtain ⟨cmd, cmds', hcmd, hcmds', rfl⟩ := translateStatements_cons h
    rw [commandsIds, s.ids_translate hcmd, ids_translateStatements rest hcmds', branchesIn,
      idsOf_add]

end

theorem ids_prologue (fields : Nat) (kind : SubroutineKind) :
    commandsIds (prologue fields kind) = [] := by
  cases kind <;> rfl

theorem ids_translateSubroutines {className : String} {classTable : SymbolTable}
    (ss : List Subroutine) : ∀ {labels pos rs},
    translateSubroutines className classTable labels pos ss = .ok rs →
    routinesIds rs = idsOf labels (subroutinesBranches ss) := by
  induction ss with
  | nil =>
    intro labels pos rs h
    cases h
    rfl
  | cons s ss ih =>
    intro labels pos rs h
    obtain ⟨r, rs', hr, hrs', rfl⟩ := translateSubroutines_cons h
    obtain ⟨scope, cmds, pos', -, hcmds, rfl⟩ := Subroutine.translate_ok hr
    -- A prologue has no ids, so those of the routine are those of its statements.
    rw [subroutinesBranches, idsOf_add, ← ih hrs', ← ids_translateStatements s.body hcmds]
    show commandsIds (prologue _ _ ++ cmds) ++ routinesIds rs' = _
    rw [commandsIds_append, ids_prologue, List.nil_append]

theorem Class.ids_translate {c : Class} {labels : LabelSupply} {rs : List Routine}
    (h : c.translate labels = .ok rs) : routinesIds rs = idsOf labels c.branches := by
  obtain ⟨table, -, hrs⟩ := bind_eq_ok h
  exact ids_translateSubroutines c.subroutines hrs

end Jack.Grammar
