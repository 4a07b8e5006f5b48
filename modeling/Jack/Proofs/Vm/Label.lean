import Mathlib.Data.List.Nodup
import Mathlib.Data.List.Perm.Subperm
import Jack.Proofs.Grammar.Translation
import Jack.Proofs.Text.Reading
import Jack.Proofs.Vm.Place

/-!
# Labels and jumps

The label names of different ids differ, so code whose ids differ defines no label twice. Every
jump goes to a label of the same routine.
-/

namespace Jack.Vm

/-! ## Label names -/

/-- What a label name begins with. The id follows. -/
def labelStems : List String := ["IF_TRUE", "IF_FALSE", "IF_END", "WHILE_EXP", "WHILE_END"]

/-- The label names of one id. No statement uses all of them. -/
def labelNames (id : LabelId) : List String := labelStems.map (· ++ id.repr)

theorem not_isDigit_of_mem_stem : ∀ stem ∈ labelStems, ∀ c ∈ stem.toList, c.isDigit = false := by
  simp [labelStems]

/-- The digits of a number can be read back. -/
theorem repr_injective : Function.Injective Nat.repr := by
  intro m n h
  have hread := Text.digits?_repr m
  rw [h, Text.digits?_repr] at hread
  exact (Option.some.inj hread).symm

/-- An id begins with a digit. -/
theorem takeWhile_repr (id : LabelId) : id.repr.toList.takeWhile (fun c => !c.isDigit) = [] := by
  cases hrepr : id.repr.toList with
  | nil => rfl
  | cons c cs =>
    have hmem : c ∈ id.repr.toList := by
      rw [hrepr]
      exact List.mem_cons_self ..
    have hc : c.isDigit = true := Text.isDigit_of_mem_repr hmem
    rw [List.takeWhile_cons_of_neg (by simp [hc])]

/-- The first digit of a label name ends its stem. -/
theorem takeWhile_labelName {stem : String} (id : LabelId) (hstem : stem ∈ labelStems) :
    (stem ++ id.repr).toList.takeWhile (fun c => !c.isDigit) = stem.toList := by
  rw [String.toList_append, List.takeWhile_append_of_pos]
  · rw [takeWhile_repr, List.append_nil]
  · intro c hc
    rw [not_isDigit_of_mem_stem stem hstem c hc]
    rfl

/-- The digits at the end of a label name are its id, and what comes before them is its stem. -/
theorem labelName_inj {stem stem' : String} {id id' : LabelId} (hstem : stem ∈ labelStems)
    (hstem' : stem' ∈ labelStems) (h : stem ++ id.repr = stem' ++ id'.repr) :
    stem = stem' ∧ id = id' := by
  have hstems : stem = stem' := by
    apply String.toList_inj.1
    rw [← takeWhile_labelName id hstem, h, takeWhile_labelName id' hstem']
  subst hstems
  -- What is left of the two names are the same digits.
  exact ⟨rfl, repr_injective ((String.append_right_inj stem).1 h)⟩

theorem nodup_labelNames {ids : List LabelId} (h : ids.Nodup) : (ids.flatMap labelNames).Nodup := by
  rw [List.nodup_flatMap]
  constructor
  -- The names of one id differ by their stems, those of two ids by their digits.
  · intro id _
    apply List.Nodup.map_on _ (by decide)
    intro stem hstem stem' hstem' heq
    exact (labelName_inj hstem hstem' heq).1
  · apply h.imp
    intro id id' hne name hname hname'
    obtain ⟨stem, hstem, rfl⟩ := List.mem_map.1 hname
    obtain ⟨stem', hstem', heq⟩ := List.mem_map.1 hname'
    exact hne (labelName_inj hstem' hstem heq).2.symm

/-! ## Supplies -/

/-- The supply hands out no id twice before the first `n` ids are taken. -/
def LabelSupply.Fresh (labels : LabelSupply) (n : Nat) : Prop :=
  ∀ i j, labels.taken ≤ i → i < j → j < n → labels.ids i ≠ labels.ids j

theorem LabelSupply.fresh_sequential (first : LabelId) (n : Nat) : (sequential first).Fresh n := by
  intro i j _ hlt _ heq
  have hij : i = j := Nat.add_left_cancel heq
  omega

theorem LabelSupply.Fresh.nodup_map {labels : LabelSupply} {n : Nat} (h : labels.Fresh n)
    {ks : List Nat} (hks : ks.Pairwise (· < ·)) (hrange : ∀ k ∈ ks, labels.taken ≤ k ∧ k < n) :
    (ks.map labels.ids).Nodup := by
  show (ks.map labels.ids).Pairwise (· ≠ ·)
  rw [List.pairwise_map]
  apply hks.imp_of_mem
  -- Distinct numbers of ids lie in the range in which the supply does not repeat itself.
  intro i j hi hj hlt
  exact h i j (hrange i hi).1 hlt (hrange j hj).2

/-! ## The labels of structured code -/

mutual

/-- The ids in the order of the statements that took them. -/
def Command.ids : Command → List LabelId
  | .ifThen id _ onTrue => id :: commandsIds onTrue
  | .ifElse id _ onTrue onFalse => id :: (commandsIds onTrue ++ commandsIds onFalse)
  | .loop id _ body => id :: commandsIds body
  | .store .. | .storeElement .. | .drop _ | .leave _ | .leaveVoid _ => []

def commandsIds : List Command → List LabelId
  | [] => []
  | c :: rest => c.ids ++ commandsIds rest

end

@[simp] theorem commandsIds_append (cs cs' : List Command) :
    commandsIds (cs ++ cs') = commandsIds cs ++ commandsIds cs' := by
  induction cs with
  | nil => rfl
  | cons c cs ih => rw [List.cons_append, commandsIds, commandsIds, ih, List.append_assoc]

/-- The names that are defined by label instructions, one for each of these. -/
def definedLabels (is : List Instruction) : List String :=
  is.filterMap fun
    | .label name => some name
    | _ => none

@[simp] theorem definedLabels_append (is is' : List Instruction) :
    definedLabels (is ++ is') = definedLabels is ++ definedLabels is' := List.filterMap_append

theorem mem_definedLabels {is : List Instruction} {name : String} :
    name ∈ definedLabels is ↔ .label name ∈ is := by
  rw [definedLabels, List.mem_filterMap]
  constructor
  · rintro ⟨x, hx, hname⟩
    cases x <;> cases hname
    exact hx
  · intro h
    exact ⟨_, h, rfl⟩

theorem Operand.definedLabels_code (o : Operand) : definedLabels o.code = [] := by
  rw [List.eq_nil_iff_forall_not_mem]
  intro name hname
  cases o.isPlain_of_mem _ (mem_definedLabels.1 hname)

/-- How often the names of an id count. -/
theorem count_labelNames (name : String) (id : LabelId) (ids : List LabelId) :
    ((id :: ids).flatMap labelNames).count name =
      List.count name [(IfLabels.ofId id).onTrue] + List.count name [(IfLabels.ofId id).onFalse] +
        List.count name [(IfLabels.ofId id).done] +
        List.count name [(WhileLabels.ofId id).condition] +
        List.count name [(WhileLabels.ofId id).done] + (ids.flatMap labelNames).count name := by
  show List.count name ([_] ++ ([_] ++ ([_] ++ ([_] ++ ([_] ++ _))))) = _
  simp only [List.count_append, Nat.add_assoc]
  rfl

mutual

/-- The code of a command defines a label name at most as often as its ids have it. -/
theorem Command.count_definedLabels (name : String) : (c : Command) →
    (definedLabels c.code).count name ≤ (c.ids.flatMap labelNames).count name
  | .ifThen id o onTrue => by
    have honTrue := count_definedLabels_commands name onTrue
    have hdefined : definedLabels (Command.ifThen id o onTrue).code = definedLabels o.code ++
        [(IfLabels.ofId id).onTrue] ++ definedLabels (commandsCode onTrue) ++
        [(IfLabels.ofId id).onFalse] := by
      simp only [Command.code, definedLabels_append]
      rfl
    rw [hdefined, o.definedLabels_code, Command.ids, count_labelNames]
    simp only [List.count_append, List.count_nil]
    omega
  | .ifElse id o onTrue onFalse => by
    have honTrue := count_definedLabels_commands name onTrue
    have honFalse := count_definedLabels_commands name onFalse
    have hdefined : definedLabels (Command.ifElse id o onTrue onFalse).code =
        definedLabels o.code ++ [(IfLabels.ofId id).onTrue] ++
        definedLabels (commandsCode onTrue) ++ [(IfLabels.ofId id).onFalse] ++
        definedLabels (commandsCode onFalse) ++ [(IfLabels.ofId id).done] := by
      simp only [Command.code, definedLabels_append]
      rfl
    -- The labels of a `while` are counted as well, though an `if` has none of them.
    rw [hdefined, o.definedLabels_code, Command.ids, count_labelNames, List.flatMap_append]
    simp only [List.count_append, List.count_nil]
    omega
  | .loop id o body => by
    have hbody := count_definedLabels_commands name body
    have hdefined : definedLabels (Command.loop id o body).code =
        [(WhileLabels.ofId id).condition] ++ definedLabels o.code ++
        definedLabels (commandsCode body) ++ [(WhileLabels.ofId id).done] := by
      simp only [Command.code, definedLabels_append]
      rw [show definedLabels [.arithmetic .not, .ifGoto (WhileLabels.ofId id).done] = [] from rfl,
        List.append_nil]
      rfl
    rw [hdefined, o.definedLabels_code, Command.ids, count_labelNames]
    simp only [List.count_append, List.count_nil]
    omega
  -- The other commands have no labels.
  | .store _ value | .drop value | .leave (some value) | .leaveVoid (some value) => by
    simp only [Command.code, definedLabels_append, value.definedLabels_code]
    exact Nat.zero_le _
  | .storeElement address value => by
    simp only [Command.code, definedLabels_append, address.definedLabels_code,
      value.definedLabels_code]
    exact Nat.zero_le _
  | .leave none | .leaveVoid none => Nat.zero_le _

theorem count_definedLabels_commands (name : String) : (cs : List Command) →
    (definedLabels (commandsCode cs)).count name ≤
      ((commandsIds cs).flatMap labelNames).count name
  | [] => Nat.le_refl _
  | c :: rest => by
    have hc := c.count_definedLabels name
    have hrest := count_definedLabels_commands name rest
    rw [commandsCode, definedLabels_append, List.count_append, commandsIds, List.flatMap_append,
      List.count_append]
    omega

end

/-! ## Jumps -/

theorem Command.label_mem_of_fixed {c : Command} {is : List Instruction} {x : Instruction}
    {name : String} (h : .fixed is ∈ c.pieces) (hx : x ∈ is) (hname : x.target? = some name) :
    ∃ is', .fixed is' ∈ c.pieces ∧ .label name ∈ is' := by
  rcases c with _ | _ | _ | _ | _ | _ | ⟨_ | _⟩ | ⟨_ | _⟩ <;>
    simp only [pieces, List.mem_cons, List.not_mem_nil, or_false, reduceCtorEq, false_or,
      Piece.fixed.injEq] at h
  -- Only the glue of `if` and `while` has jumps, and their labels stand in the glue, too.
  all_goals
    rcases h with rfl | rfl | rfl <;>
      simp only [Slot.pop, Jack.storeElement, discard, List.mem_cons, List.not_mem_nil, or_false]
        at hx
  all_goals rcases hx with rfl | rfl | rfl | rfl | rfl <;> cases hname
  all_goals simp [pieces]

/-- A jump in the code of a command goes to a label in the code of that command. -/
theorem Command.label_mem (c : Command) : ∀ {x name}, x ∈ c.code → x.target? = some name →
    .label name ∈ c.code := by
  induction c using Command.induction_blocks with
  | step c ih =>
    intro x name hx hname
    rw [c.code_eq, piecesCode, List.mem_flatMap] at hx ⊢
    obtain ⟨p, hp, hx⟩ := hx
    cases p with
    | operand o =>
      -- Operands do not jump.
      rw [Instruction.target?_of_isPlain (o.isPlain_of_mem x hx)] at hname
      cases hname
    | fixed is =>
      obtain ⟨is', his', hlabel⟩ := label_mem_of_fixed hp hx hname
      exact ⟨_, his', hlabel⟩
    | block cs =>
      rw [Piece.code, commandsCode_eq_flatMap, List.mem_flatMap] at hx
      obtain ⟨d, hd, hx⟩ := hx
      have hlabel := ih cs hp d hd hx hname
      apply Exists.intro (Piece.block cs)
      rw [Piece.code, commandsCode_eq_flatMap, List.mem_flatMap]
      exact ⟨hp, d, hd, hlabel⟩

theorem label_mem_commandsCode {cs : List Command} {x : Instruction} {name : String}
    (hx : x ∈ commandsCode cs) (hname : x.target? = some name) :
    .label name ∈ commandsCode cs := by
  rw [commandsCode_eq_flatMap, List.mem_flatMap] at hx ⊢
  obtain ⟨c, hc, hx⟩ := hx
  exact ⟨c, hc, c.label_mem hx hname⟩

/-! ## Code whose jumps resolve -/

/-- Two instructions stand between the same header and the next. -/
def SameFunction (is : List Instruction) (i j : Nat) : Prop :=
  ∃ start name locals, is[start]? = some (.function name locals) ∧ start < i ∧ start < j ∧
    ∀ k name' locals', start < k → is[k]? = some (.function name' locals') → i < k ∧ j < k

/-- Every jump has exactly one place to go to, in its own function. -/
structure JumpsResolve (is : List Instruction) : Prop where
  /-- No label name is defined twice. -/
  unique : ∀ {i j : Nat} {name}, is[i]? = some (.label name) → is[j]? = some (.label name) → i = j
  lands : ∀ {i : Nat} {x name}, is[i]? = some x → x.target? = some name →
    ∃ j, is[j]? = some (.label name) ∧ SameFunction is i j

open Grammar (routinesCode)

/-- The ids of routines one after the other. -/
def routinesIds (rs : List Routine) : List LabelId := rs.flatMap fun r => commandsIds r.commands

theorem count_definedLabels_routines (name : String) (rs : List Routine) :
    (definedLabels (routinesCode rs)).count name ≤
      ((routinesIds rs).flatMap labelNames).count name := by
  induction rs with
  | nil => exact Nat.le_refl _
  | cons r rs ih =>
    have hr := count_definedLabels_commands name r.commands
    have hdefined : definedLabels (routinesCode (r :: rs)) =
        definedLabels (commandsCode r.commands) ++ definedLabels (routinesCode rs) :=
      definedLabels_append (commandsCode r.commands) (routinesCode rs)
    rw [hdefined, List.count_append, routinesIds, List.flatMap_cons, List.flatMap_append,
      List.count_append]
    show _ ≤ _ + ((routinesIds rs).flatMap labelNames).count name
    omega

/-- Code defines no label twice if its label names are those of different ids. -/
theorem nodup_definedLabels {is : List Instruction} {ids : List LabelId} (h : ids.Nodup)
    (hcount : ∀ name, (definedLabels is).count name ≤ (ids.flatMap labelNames).count name) :
    (definedLabels is).Nodup := by
  rw [List.nodup_iff_count_le_one]
  intro name
  have hle := hcount name
  have hone := List.nodup_iff_count_le_one.1 (nodup_labelNames h) name
  omega

theorem index_unique {is : List Instruction} {name : String} (h : (definedLabels is).Nodup)
    {i j : Nat} (hi : is[i]? = some (.label name)) (hj : is[j]? = some (.label name)) : i = j := by
  have hpairwise := List.pairwise_iff_getElem.1 (List.pairwise_filterMap.1 h)
  obtain ⟨hi', hi⟩ := List.getElem?_eq_some_iff.1 hi
  obtain ⟨hj', hj⟩ := List.getElem?_eq_some_iff.1 hj
  -- Of two places with the same label, neither can come first.
  rcases Nat.lt_trichotomy i j with hlt | heq | hlt
  · exact absurd rfl (hpairwise i j hi' hj' hlt name (by rw [hi]) name (by rw [hj]))
  · exact heq
  · exact absurd rfl (hpairwise j i hj' hi' hlt name (by rw [hj]) name (by rw [hi]))

/-- Where an instruction of routines stands: in the code of one of them. -/
theorem getElem?_routinesCode {rs : List Routine} {i : Nat} {x : Instruction}
    (h : (routinesCode rs)[i]? = some x) :
    ∃ rs₁ r rs₂ j, rs = rs₁ ++ r :: rs₂ ∧ r.code[j]? = some x ∧
      i = (routinesCode rs₁).length + j := by
  obtain ⟨hi, rfl⟩ := List.getElem?_eq_some_iff.1 h
  -- The code is split at the instruction, and so is the code of the routine that it belongs to.
  have hsplit : routinesCode rs = (routinesCode rs).take i ++
      (routinesCode rs)[i] :: (routinesCode rs).drop (i + 1) := by
    rw [← List.drop_eq_getElem_cons hi, List.take_append_drop]
  obtain ⟨rs₁, r, rs₂, before, after, hrs, hr, hbefore⟩ := flatMap_eq_append_cons hsplit
  refine ⟨rs₁, r, rs₂, before.length, hrs, ?_, ?_⟩
  · rw [hr, List.getElem?_append_right (Nat.le_refl _), Nat.sub_self]
    rfl
  · have hlength := congrArg List.length hbefore
    rw [List.length_take_of_le (Nat.le_of_lt hi), List.length_append] at hlength
    exact hlength

theorem getElem?_routinesCode_append {rs₁ rs₂ : List Routine} {r : Routine} {j : Nat}
    (h : j < r.code.length) :
    (routinesCode (rs₁ ++ r :: rs₂))[(routinesCode rs₁).length + j]? = r.code[j]? := by
  have hcode : routinesCode (rs₁ ++ r :: rs₂) =
      routinesCode rs₁ ++ (r.code ++ routinesCode rs₂) := by
    rw [routinesCode, List.flatMap_append, List.flatMap_cons]
    rfl
  rw [hcode, List.getElem?_append_right (Nat.le_add_right _ _), Nat.add_sub_cancel_left,
    List.getElem?_append_left h]

/-- Routines whose ids differ have no jump that goes astray. -/
theorem jumpsResolve_routinesCode {rs : List Routine} (h : (routinesIds rs).Nodup) :
    JumpsResolve (routinesCode rs) := by
  constructor
  case unique =>
    have hnodup := nodup_definedLabels h fun name => count_definedLabels_routines name rs
    exact fun {_ _ _} hi hj => index_unique hnodup hi hj
  case lands =>
    intro i x name hx hname
    obtain ⟨rs₁, r, rs₂, j, rfl, hj, rfl⟩ := getElem?_routinesCode hx
    -- A header is no jump, so the jump stands in the commands of the routine.
    cases j with
    | zero =>
      cases Option.some.inj hj
      cases hname
    | succ j =>
      have hmem : x ∈ commandsCode r.commands := List.mem_of_getElem? hj
      obtain ⟨k, hk, hlabel⟩ := List.getElem_of_mem (label_mem_commandsCode hmem hname)
      have hk' : k + 1 < r.code.length := Nat.succ_lt_succ hk
      obtain ⟨hj', -⟩ := List.getElem?_eq_some_iff.1 hj
      apply Exists.intro ((routinesCode rs₁).length + (k + 1))
      constructor
      · rw [getElem?_routinesCode_append hk']
        exact List.getElem?_eq_some_iff.2 ⟨hk', hlabel⟩
      · refine ⟨(routinesCode rs₁).length, r.name, r.locals, ?_, by omega, by omega, ?_⟩
        · exact getElem?_routinesCode_append (Nat.lt_of_le_of_lt (Nat.zero_le _) hk')
        · -- The next header stands behind the routine, which has only one.
          intro l name' locals' hl hfunction
          have hinside : ¬ l < (routinesCode rs₁).length + r.code.length := by
            intro hlt
            obtain ⟨m, rfl⟩ : ∃ m, l = (routinesCode rs₁).length + (m + 1) :=
              ⟨l - (routinesCode rs₁).length - 1, by omega⟩
            rw [getElem?_routinesCode_append (by omega)] at hfunction
            have hmem : .function name' locals' ∈ commandsCode r.commands :=
              List.mem_of_getElem? (show (commandsCode r.commands)[m]? = _ from hfunction)
            exact function_not_mem r.commands name' locals' hmem
          omega

end Jack.Vm
