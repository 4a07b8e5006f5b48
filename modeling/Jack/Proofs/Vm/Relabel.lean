import Jack.Proofs.Vm.Label

/-!
# Other label ids

Structured code can be given other label ids. In the instructions nothing changes but the label
names, and what becomes of a name can be read off the name.
-/

namespace Jack.Vm

/-- The ids that a supply still hands out. -/
def LabelSupply.upcoming (labels : LabelSupply) (k : Nat) : LabelId := labels.ids (labels.taken + k)

/-- The same label name of the `k`-th id here and there. -/
def Renamed (ids ids' : Nat → LabelId) (name name' : String) : Prop :=
  ∃ stem ∈ labelStems, ∃ k, name = stem ++ (ids k).repr ∧ name' = stem ++ (ids' k).repr

/-- The same instruction up to its label name, if it has one. -/
inductive Instruction.Relabelled (ids ids' : Nat → LabelId) : Instruction → Instruction → Prop where
  | same {i : Instruction} : i.isControl = false → Relabelled ids ids' i i
  | label {name name' : String} :
    Renamed ids ids' name name' → Relabelled ids ids' (.label name) (.label name')
  | goto {name name' : String} :
    Renamed ids ids' name name' → Relabelled ids ids' (.goto name) (.goto name')
  | ifGoto {name name' : String} :
    Renamed ids ids' name name' → Relabelled ids ids' (.ifGoto name) (.ifGoto name')

/-- Code that is the same up to label names. -/
abbrev CodeRelabelled (ids ids' : Nat → LabelId) : List Instruction → List Instruction → Prop :=
  List.Forall₂ (Instruction.Relabelled ids ids')

section

variable {ids ids' : Nat → LabelId}

theorem Renamed.eq {name name₁ name₂ : String} (hids : Function.Injective ids)
    (h₁ : Renamed ids ids' name name₁) (h₂ : Renamed ids ids' name name₂) : name₁ = name₂ := by
  obtain ⟨stem, hstem, k, rfl, rfl⟩ := h₁
  obtain ⟨stem', hstem', k', hname, rfl⟩ := h₂
  have hinj := labelName_inj hstem hstem' hname
  rw [hinj.1, hids hinj.2]

/-- If no id repeats then the new instruction is determined by the old one. -/
theorem Instruction.Relabelled.eq {i i₁ i₂ : Instruction} (hids : Function.Injective ids)
    (h₁ : Relabelled ids ids' i i₁) (h₂ : Relabelled ids ids' i i₂) : i₁ = i₂ := by
  cases h₁ with
  | same hi =>
    cases h₂ with
    | same => rfl
    | label | goto | ifGoto => cases hi
  | label h =>
    cases h₂ with
    | same hi => cases hi
    | label h' => rw [h.eq hids h']
  | goto h =>
    cases h₂ with
    | same hi => cases hi
    | goto h' => rw [h.eq hids h']
  | ifGoto h =>
    cases h₂ with
    | same hi => cases hi
    | ifGoto h' => rw [h.eq hids h']

theorem CodeRelabelled.eq {is is₁ is₂ : List Instruction} (hids : Function.Injective ids)
    (h₁ : CodeRelabelled ids ids' is is₁) (h₂ : CodeRelabelled ids ids' is is₂) : is₁ = is₂ := by
  have hunique : Relator.RightUnique (Instruction.Relabelled ids ids') :=
    fun _ _ _ h h' => h.eq hids h'
  exact List.right_unique_forall₂' hunique h₁ h₂

theorem codeRelabelled_same {is : List Instruction} (h : ∀ i ∈ is, i.isControl = false) :
    CodeRelabelled ids ids' is is :=
  List.forall₂_same.2 fun i hi => .same (h i hi)

theorem CodeRelabelled.append {is₁ is₂ is₁' is₂' : List Instruction}
    (h₁ : CodeRelabelled ids ids' is₁ is₁') (h₂ : CodeRelabelled ids ids' is₂ is₂') :
    CodeRelabelled ids ids' (is₁ ++ is₂) (is₁' ++ is₂') :=
  List.rel_append h₁ h₂

theorem Operand.codeRelabelled (o : Operand) : CodeRelabelled ids ids' o.code o.code := by
  apply codeRelabelled_same
  intro i hi
  have hplain := o.isPlain_of_mem i hi
  cases i <;> first | rfl | cases hplain

end

/-! ## The labels and jumps of one statement -/

section

variable (ids ids' : Nat → LabelId) (k : Nat)

theorem relabelled_branch :
    CodeRelabelled ids ids'
      [.ifGoto (IfLabels.ofId (ids k)).onTrue, .goto (IfLabels.ofId (ids k)).onFalse,
        .label (IfLabels.ofId (ids k)).onTrue]
      [.ifGoto (IfLabels.ofId (ids' k)).onTrue, .goto (IfLabels.ofId (ids' k)).onFalse,
        .label (IfLabels.ofId (ids' k)).onTrue] := by
  have honTrue : Renamed ids ids' (IfLabels.ofId (ids k)).onTrue (IfLabels.ofId (ids' k)).onTrue :=
    ⟨"IF_TRUE", by decide, k, rfl, rfl⟩
  exact .cons (.ifGoto honTrue)
    (.cons (.goto ⟨"IF_FALSE", by decide, k, rfl, rfl⟩) (.cons (.label honTrue) .nil))

theorem relabelled_else :
    CodeRelabelled ids ids'
      [.goto (IfLabels.ofId (ids k)).done, .label (IfLabels.ofId (ids k)).onFalse]
      [.goto (IfLabels.ofId (ids' k)).done, .label (IfLabels.ofId (ids' k)).onFalse] :=
  .cons (.goto ⟨"IF_END", by decide, k, rfl, rfl⟩)
    (.cons (.label ⟨"IF_FALSE", by decide, k, rfl, rfl⟩) .nil)

theorem relabelled_onFalse :
    Instruction.Relabelled ids ids' (.label (IfLabels.ofId (ids k)).onFalse)
      (.label (IfLabels.ofId (ids' k)).onFalse) :=
  .label ⟨"IF_FALSE", by decide, k, rfl, rfl⟩

theorem relabelled_done :
    Instruction.Relabelled ids ids' (.label (IfLabels.ofId (ids k)).done)
      (.label (IfLabels.ofId (ids' k)).done) :=
  .label ⟨"IF_END", by decide, k, rfl, rfl⟩

theorem relabelled_condition :
    Instruction.Relabelled ids ids' (.label (WhileLabels.ofId (ids k)).condition)
      (.label (WhileLabels.ofId (ids' k)).condition) :=
  .label ⟨"WHILE_EXP", by decide, k, rfl, rfl⟩

theorem relabelled_exit :
    CodeRelabelled ids ids' [.arithmetic .not, .ifGoto (WhileLabels.ofId (ids k)).done]
      [.arithmetic .not, .ifGoto (WhileLabels.ofId (ids' k)).done] :=
  .cons (.same rfl) (.cons (.ifGoto ⟨"WHILE_END", by decide, k, rfl, rfl⟩) .nil)

theorem relabelled_repeat :
    CodeRelabelled ids ids'
      [.goto (WhileLabels.ofId (ids k)).condition, .label (WhileLabels.ofId (ids k)).done]
      [.goto (WhileLabels.ofId (ids' k)).condition, .label (WhileLabels.ofId (ids' k)).done] :=
  .cons (.goto ⟨"WHILE_EXP", by decide, k, rfl, rfl⟩)
    (.cons (.label ⟨"WHILE_END", by decide, k, rfl, rfl⟩) .nil)

end

/-! ## Structured code -/

mutual

/-- The command with other ids. -/
def Command.relabel (ids : LabelId → LabelId) : Command → Command
  | .ifThen id condition onTrue => .ifThen (ids id) condition (relabelAll ids onTrue)
  | .ifElse id condition onTrue onFalse =>
    .ifElse (ids id) condition (relabelAll ids onTrue) (relabelAll ids onFalse)
  | .loop id condition body => .loop (ids id) condition (relabelAll ids body)
  | .store target value => .store target value
  | .storeElement address value => .storeElement address value
  | .drop value => .drop value
  | .leave result => .leave result
  | .leaveVoid dropped => .leaveVoid dropped

def relabelAll (ids : LabelId → LabelId) : List Command → List Command
  | [] => []
  | c :: rest => c.relabel ids :: relabelAll ids rest

end

def Routine.relabel (ids : LabelId → LabelId) (r : Routine) : Routine :=
  { r with commands := relabelAll ids r.commands }

mutual

theorem Command.relabel_id : (c : Command) → c.relabel id = c
  | .ifThen _ _ onTrue => by rw [Command.relabel, relabelAll_id onTrue]; rfl
  | .ifElse _ _ onTrue onFalse => by
    rw [Command.relabel, relabelAll_id onTrue, relabelAll_id onFalse]
    rfl
  | .loop _ _ body => by rw [Command.relabel, relabelAll_id body]; rfl
  | .store .. | .storeElement .. | .drop _ | .leave _ | .leaveVoid _ => rfl

theorem relabelAll_id : (cs : List Command) → relabelAll id cs = cs
  | [] => rfl
  | c :: rest => by rw [relabelAll, c.relabel_id, relabelAll_id rest]

end

mutual

/-- Other ids change nothing but label names. -/
theorem Command.codeRelabelled (ids ids' : LabelId → LabelId) : (c : Command) →
    CodeRelabelled ids ids' (c.relabel ids).code (c.relabel ids').code
  | .ifThen id condition onTrue => by
    have hbranch := condition.codeRelabelled.append (relabelled_branch ids ids' id)
    have hblock := hbranch.append (codeRelabelled_relabelAll ids ids' onTrue)
    exact hblock.append (.cons (relabelled_onFalse ids ids' id) .nil)
  | .ifElse id condition onTrue onFalse => by
    have hbranch := condition.codeRelabelled.append (relabelled_branch ids ids' id)
    have honTrue := hbranch.append (codeRelabelled_relabelAll ids ids' onTrue)
    have honFalse := (honTrue.append (relabelled_else ids ids' id)).append
      (codeRelabelled_relabelAll ids ids' onFalse)
    exact honFalse.append (.cons (relabelled_done ids ids' id) .nil)
  | .loop id condition body => by
    have hentry : CodeRelabelled ids ids' [_] [_] := .cons (relabelled_condition ids ids' id) .nil
    have hexit := (hentry.append condition.codeRelabelled).append (relabelled_exit ids ids' id)
    have hblock := hexit.append (codeRelabelled_relabelAll ids ids' body)
    exact hblock.append (relabelled_repeat ids ids' id)
  -- The other commands have no labels.
  | .store target value => value.codeRelabelled.append (.cons (.same rfl) .nil)
  | .storeElement address value =>
    (address.codeRelabelled.append value.codeRelabelled).append (codeRelabelled_same (by decide))
  | .drop value => value.codeRelabelled.append (.cons (.same rfl) .nil)
  | .leave none => .cons (.same rfl) .nil
  | .leave (some value) => value.codeRelabelled.append (.cons (.same rfl) .nil)
  | .leaveVoid none => .cons (.same rfl) (.cons (.same rfl) .nil)
  | .leaveVoid (some value) => value.codeRelabelled.append (codeRelabelled_same (by decide))

theorem codeRelabelled_relabelAll (ids ids' : LabelId → LabelId) : (cs : List Command) →
    CodeRelabelled ids ids' (commandsCode (relabelAll ids cs)) (commandsCode (relabelAll ids' cs))
  | [] => .nil
  | c :: rest => (c.codeRelabelled ids ids').append (codeRelabelled_relabelAll ids ids' rest)

end

end Jack.Vm

namespace Jack.Grammar

open Vm

theorem routinesCode_relabel_id (rs : List Routine) :
    routinesCode (rs.map (Routine.relabel id)) = routinesCode rs := by
  have hr (r : Routine) : r.relabel id = r := by rw [Routine.relabel, relabelAll_id]
  rw [List.map_congr_left fun r _ => hr r, List.map_id']

theorem codeRelabelled_routinesCode (ids ids' : LabelId → LabelId) (rs : List Routine) :
    CodeRelabelled ids ids' (routinesCode (rs.map (Routine.relabel ids)))
      (routinesCode (rs.map (Routine.relabel ids'))) := by
  induction rs with
  | nil => exact .nil
  | cons r rs ih =>
    have hr : CodeRelabelled ids ids' (r.relabel ids).code (r.relabel ids').code :=
      .cons (.same rfl) (codeRelabelled_relabelAll ids ids' r.commands)
    exact hr.append ih

end Jack.Grammar
