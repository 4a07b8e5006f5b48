import Jack.Proofs.Vm.Height

/-!
# Places in structured code

Where the operands and commands of structured code stand: each is known by the code in front of it.
Every call belongs to an operand and every return to a command that returns.
-/

namespace Jack.Vm

/-- An entry of two lists one after the other is one of the first or one of the second. -/
theorem append_eq_append_cons {β : Type} {xs ys before after : List β} {b : β}
    (h : xs ++ ys = before ++ b :: after) :
    (∃ after', xs = before ++ b :: after') ∨
      ∃ before', before = xs ++ before' ∧ ys = before' ++ b :: after := by
  rcases List.append_eq_append_iff.1 h with ⟨before', rfl, hys⟩ | ⟨after', rfl, hafter⟩
  · exact .inr ⟨before', rfl, hys⟩
  · cases after' with
    | nil => exact .inr ⟨[], by simp, hafter.symm⟩
    | cons b' after' =>
      obtain ⟨rfl, -⟩ := List.cons.inj hafter
      exact .inl ⟨after', rfl⟩

theorem flatMap_eq_append_cons {α β : Type} {f : α → List β} {xs : List α} {before after : List β}
    {b : β} (h : xs.flatMap f = before ++ b :: after) :
    ∃ xs₁ x xs₂ before' after', xs = xs₁ ++ x :: xs₂ ∧ f x = before' ++ b :: after' ∧
      before = xs₁.flatMap f ++ before' := by
  induction xs generalizing before with
  | nil => exact absurd h.symm (List.append_ne_nil_of_right_ne_nil _ (List.cons_ne_nil _ _))
  | cons x xs ih =>
    rw [List.flatMap_cons] at h
    rcases append_eq_append_cons h with ⟨after', hx⟩ | ⟨before', rfl, hxs⟩
    · exact ⟨[], x, xs, before, after', rfl, hx, rfl⟩
    · obtain ⟨xs₁, y, xs₂, before'', after'', rfl, hy, rfl⟩ := ih hxs
      refine ⟨x :: xs₁, y, xs₂, before'', after'', rfl, hy, ?_⟩
      rw [List.flatMap_cons, List.append_assoc]

/-! ## Operands -/

/-- The second operand is the first one or a part of it, with the given code in front. -/
inductive Operand.Within : Operand → List Instruction → Operand → Prop
  | self (o : Operand) : Within o [] o
  | part {o p q : Operand} {ps ps' : List Operand} {before : List Instruction}
    (h : o.parts = ps ++ p :: ps') (hq : Within p before q) :
    Within o (operandsCode ps ++ before) q

theorem Operand.Within.code_eq {o q : Operand} {before : List Instruction}
    (h : o.Within before q) : ∃ after, o.code = before ++ (q.code ++ after) := by
  induction h with
  | self o => exact ⟨[], (List.append_nil _).symm⟩
  | @part o p q ps ps' before h _ ih =>
    obtain ⟨after, hafter⟩ := ih
    refine ⟨after ++ (operandsCode ps' ++ o.finish), ?_⟩
    rw [Operand.code_eq, h, operandsCode_append, operandsCode, hafter]
    simp only [List.append_assoc]

theorem Operand.Within.trans {o p q : Operand} {before before' : List Instruction}
    (h : o.Within before p) (h' : p.Within before' q) : o.Within (before ++ before') q := by
  induction h with
  | self o => exact h'
  | part h _ ih =>
    rw [List.append_assoc]
    exact .part h (ih h')

/-- An operand that ends with a call has as many parts as the call takes values. -/
theorem Operand.length_parts_of_call {o : Operand} {name : String} {args : Nat}
    (h : o.finish = [.call name args]) : o.parts.length = args := by
  cases o with
  | push => cases h
  | unary op => cases op <;> cases h
  | binary op => cases op <;> cases h <;> rfl
  | call => cases h; rfl
  | fetch => cases h

theorem Operand.finish_of_mem_call {o : Operand} {name : String} {args : Nat}
    (h : .call name args ∈ o.finish) : o.finish = [.call name args] := by
  cases o with
  | push => cases List.mem_singleton.1 h
  | unary op => cases op <;> cases List.mem_singleton.1 h
  | binary => rw [finish, List.mem_singleton.1 h]
  | call => rw [finish, List.mem_singleton.1 h]
  | fetch => simp [finish, fetchElement] at h

/-- A call is the last step of an operand. -/
theorem Operand.exists_call {name : String} {args : Nat} (o : Operand) :
    ∀ {before after}, o.code = before ++ .call name args :: after →
      ∃ before' q, o.Within before' q ∧ q.finish = [.call name args] ∧
        before = before' ++ operandsCode q.parts := by
  induction o using Operand.induction_parts with
  | step o ih =>
    intro before after h
    rw [o.code_eq] at h
    rcases append_eq_append_cons h with ⟨after', hparts⟩ | ⟨before', rfl, hfinish⟩
    · -- The call belongs to one of the parts.
      rw [operandsCode_eq_flatMap] at hparts
      obtain ⟨ps, p, ps', before', after'', hps, hp, rfl⟩ := flatMap_eq_append_cons hparts
      have hmem : p ∈ o.parts := hps ▸ List.mem_append_right _ (List.mem_cons_self ..)
      obtain ⟨before'', q, hq, hcall, rfl⟩ := ih p hmem hp
      refine ⟨operandsCode ps ++ before'', q, .part hps hq, hcall, ?_⟩
      rw [operandsCode_eq_flatMap ps, List.append_assoc]
    · -- The call is the last step of the operand itself, which has no other.
      have hmem : .call name args ∈ o.finish :=
        hfinish ▸ List.mem_append_right _ (List.mem_cons_self ..)
      have hcall := Operand.finish_of_mem_call hmem
      have hbefore : before' = [] := by
        rw [hcall] at hfinish
        have hlength := congrArg List.length hfinish
        simp only [List.length_append, List.length_cons, List.length_nil] at hlength
        exact List.eq_nil_of_length_eq_zero (by omega)
      exact ⟨[], o, .self o, hcall, by rw [hbefore, List.append_nil, List.nil_append]⟩

/-! ## Commands -/

/-- The second command is the first one or stands in a block of it, with the given code in front. -/
inductive Command.Within : Command → List Instruction → Command → Prop
  | self (c : Command) : Within c [] c
  | block {c d e : Command} {cs cs' : List Command} {ps ps' : List Piece}
    {before : List Instruction} (h : c.pieces = ps ++ .block (cs ++ d :: cs') :: ps')
    (he : Within d before e) : Within c (piecesCode ps ++ (commandsCode cs ++ before)) e

theorem Command.Within.code_eq {c d : Command} {before : List Instruction}
    (h : c.Within before d) : ∃ after, c.code = before ++ (d.code ++ after) := by
  induction h with
  | self c => exact ⟨[], (List.append_nil _).symm⟩
  | @block c d e cs cs' ps ps' before h _ ih =>
    obtain ⟨after, hafter⟩ := ih
    refine ⟨after ++ (commandsCode cs' ++ piecesCode ps'), ?_⟩
    rw [c.code_eq, h, piecesCode_append, piecesCode_cons, Piece.code, commandsCode_append,
      commandsCode, hafter]
    simp only [List.append_assoc]

theorem Command.Within.heightFrom {c d : Command} {before : List Instruction}
    (h : c.Within before d) : heightFrom 0 before = 0 := by
  induction h with
  | self c => rfl
  | @block c d e cs cs' ps ps' before h _ ih =>
    -- The pieces in front of a block leave the stack empty, and so do the commands in it.
    have hfit : PiecesFit (Vm.heightFrom 0 (piecesCode ps)) (.block (cs ++ d :: cs') :: ps') :=
      PiecesFit.append (h ▸ c.piecesFit) heightFrom_commandsCode
    rw [heightFrom_append, heightFrom_append, hfit.1, heightFrom_commandsCode]
    exact ih

/-- A command stands in a list of commands, or in a block of one of them. -/
def CommandAt (cs : List Command) (before : List Instruction) (d : Command) : Prop :=
  ∃ cs₁ c cs₂ before', cs = cs₁ ++ c :: cs₂ ∧ c.Within before' d ∧
    before = commandsCode cs₁ ++ before'

theorem CommandAt.code_eq {cs : List Command} {before : List Instruction} {d : Command}
    (h : CommandAt cs before d) : ∃ after, commandsCode cs = before ++ (d.code ++ after) := by
  obtain ⟨cs₁, c, cs₂, before', rfl, hwithin, rfl⟩ := h
  obtain ⟨after, hafter⟩ := hwithin.code_eq
  refine ⟨after ++ commandsCode cs₂, ?_⟩
  rw [commandsCode_append, commandsCode, hafter]
  simp only [List.append_assoc]

/-- In front of every command the stack is empty. -/
theorem CommandAt.heightFrom {cs : List Command} {before : List Instruction} {d : Command}
    (h : CommandAt cs before d) : heightFrom 0 before = 0 := by
  obtain ⟨cs₁, c, cs₂, before', rfl, hwithin, rfl⟩ := h
  rw [heightFrom_append, heightFrom_commandsCode, hwithin.heightFrom]

/-- An instruction of a command belongs to one of its pieces, or to one of a command in a block. -/
theorem Command.exists_piece {x : Instruction} (c : Command) :
    ∀ {before after}, c.code = before ++ x :: after →
      ∃ before' d ps p ps' front back, c.Within before' d ∧ d.pieces = ps ++ p :: ps' ∧
        (∀ cs, p ≠ .block cs) ∧ p.code = front ++ x :: back ∧
        before = before' ++ (piecesCode ps ++ front) := by
  induction c using Command.induction_blocks with
  | step c ih =>
    intro before after h
    rw [c.code_eq] at h
    obtain ⟨ps, p, ps', front, back, hps, hp, rfl⟩ := flatMap_eq_append_cons h
    cases p with
    | block cs =>
      -- The instruction belongs to a command of the block, which has the piece by induction.
      rw [Piece.code, commandsCode_eq_flatMap] at hp
      obtain ⟨cs₁, d, cs₂, front', back', rfl, hd, rfl⟩ := flatMap_eq_append_cons hp
      have hmem : .block (cs₁ ++ d :: cs₂) ∈ c.pieces :=
        hps ▸ List.mem_append_right _ (List.mem_cons_self ..)
      obtain ⟨before', e, ps₁, p, ps₂, front'', back'', he, hpieces, hblock, hfront, rfl⟩ :=
        ih _ hmem d (List.mem_append_right _ (List.mem_cons_self ..)) hd
      refine ⟨_, e, ps₁, p, ps₂, front'', back'', .block hps he, hpieces, hblock, hfront, ?_⟩
      rw [commandsCode_eq_flatMap]
      simp only [piecesCode, List.append_assoc]
    | _ =>
      refine ⟨[], c, ps, _, ps', front, back, .self c, hps, fun cs h => ?_, hp, rfl⟩
      cases h

theorem CommandAt.exists_piece {x : Instruction} {cs : List Command}
    {before after : List Instruction} (h : commandsCode cs = before ++ x :: after) :
    ∃ before' d ps p ps' front back, CommandAt cs before' d ∧ d.pieces = ps ++ p :: ps' ∧
      (∀ cs, p ≠ .block cs) ∧ p.code = front ++ x :: back ∧
      before = before' ++ (piecesCode ps ++ front) := by
  rw [commandsCode_eq_flatMap] at h
  obtain ⟨cs₁, c, cs₂, before', after', rfl, hc, rfl⟩ := flatMap_eq_append_cons h
  obtain ⟨before'', d, ps, p, ps', front, back, hd, hpieces, hblock, hp, rfl⟩ := c.exists_piece hc
  refine ⟨commandsCode cs₁ ++ before'', d, ps, p, ps', front, back,
    ⟨cs₁, c, cs₂, before'', rfl, hd, rfl⟩, hpieces, hblock, hp, ?_⟩
  rw [commandsCode_eq_flatMap, List.append_assoc]

/-- An operand stands in a list of commands, as a whole value or as a part of one. -/
def OperandAt (cs : List Command) (before : List Instruction) (q : Operand) : Prop :=
  ∃ before' d ps o ps' front, CommandAt cs before' d ∧ d.pieces = ps ++ .operand o :: ps' ∧
    o.Within front q ∧ before = before' ++ (piecesCode ps ++ front)

theorem OperandAt.code_eq {cs : List Command} {before : List Instruction} {q : Operand}
    (h : OperandAt cs before q) : ∃ after, commandsCode cs = before ++ (q.code ++ after) := by
  obtain ⟨before', d, ps, o, ps', front, hd, hpieces, hq, rfl⟩ := h
  obtain ⟨after, hafter⟩ := hd.code_eq
  obtain ⟨after', hafter'⟩ := hq.code_eq
  refine ⟨after' ++ (piecesCode ps' ++ after), ?_⟩
  rw [hafter, d.code_eq, hpieces, piecesCode_append, piecesCode_cons, Piece.code, hafter']
  simp only [List.append_assoc]

theorem OperandAt.part {cs : List Command} {before : List Instruction} {q p : Operand}
    {ps ps' : List Operand} (h : OperandAt cs before q) (hp : q.parts = ps ++ p :: ps') :
    OperandAt cs (before ++ operandsCode ps) p := by
  obtain ⟨before', d, pieces, o, pieces', front, hd, hpieces, hq, rfl⟩ := h
  have hwithin : o.Within (front ++ (operandsCode ps ++ [])) p := hq.trans (.part hp (.self p))
  refine ⟨before', d, pieces, o, pieces', front ++ operandsCode ps, hd, hpieces, ?_, ?_⟩
  · rwa [List.append_nil] at hwithin
  · simp only [List.append_assoc]

/-! ## Calls and returns -/

/-- An instruction that a command may add to those of its operands and blocks. -/
def Instruction.isGlue : Instruction → Bool
  | call .. | function .. => false
  | push .. | pop .. | arithmetic _ | label _ | goto _ | ifGoto _ | ret => true

theorem Command.isGlue_of_mem {c : Command} {is : List Instruction} (h : .fixed is ∈ c.pieces) :
    ∀ x ∈ is, x.isGlue = true := by
  rcases c with _ | _ | _ | _ | _ | _ | ⟨_ | _⟩ | ⟨_ | _⟩ <;>
    simp only [pieces, List.mem_cons, List.not_mem_nil, or_false, reduceCtorEq, false_or,
      Piece.fixed.injEq] at h
  all_goals
    rcases h with rfl | rfl | rfl <;>
      simp [Instruction.isGlue, Slot.pop, Jack.storeElement, discard]

/-- A call in the code of commands completes an operand. -/
theorem exists_call {name : String} {args : Nat} {cs : List Command}
    {before after : List Instruction} (h : commandsCode cs = before ++ .call name args :: after) :
    ∃ before' q, OperandAt cs before' q ∧ q.finish = [.call name args] ∧
      before = before' ++ operandsCode q.parts := by
  obtain ⟨before', d, ps, p, ps', front, back, hd, hpieces, hblock, hp, rfl⟩ :=
    CommandAt.exists_piece h
  cases p with
  | block cs => exact absurd rfl (hblock cs)
  | fixed is =>
    have hfixed : .fixed is ∈ d.pieces :=
      hpieces ▸ List.mem_append_right _ (List.mem_cons_self ..)
    have hmem : .call name args ∈ is :=
      (show is = _ from hp) ▸ List.mem_append_right _ (List.mem_cons_self ..)
    cases d.isGlue_of_mem hfixed _ hmem
  | operand o =>
    obtain ⟨front', q, hq, hcall, rfl⟩ := o.exists_call hp
    refine ⟨before' ++ (piecesCode ps ++ front'), q,
      ⟨before', d, ps, o, ps', front', hd, hpieces, hq, rfl⟩, hcall, ?_⟩
    simp only [List.append_assoc]

theorem Operand.ret_not_mem (o : Operand) : .ret ∉ o.code := by
  intro hmem
  obtain ⟨before, after, hcode⟩ := List.append_of_mem hmem
  -- With a value below it, an operand could not return.
  have hchecked : Checked 1 1 o.code := o.checked 1 (Nat.le_refl 1)
  rw [hcode] at hchecked
  cases hchecked.fits.ret rfl

theorem eq_of_append_ret {is before after : List Instruction} (h : .ret ∉ is)
    (hret : is ++ [.ret] = before ++ .ret :: after) : before = is := by
  rcases append_eq_append_cons hret with ⟨after', his⟩ | ⟨before', rfl, hlast⟩
  · exact absurd (his ▸ List.mem_append_right _ (List.mem_cons_self ..)) h
  · have hlength := congrArg List.length hlast
    simp only [List.length_append, List.length_cons, List.length_nil] at hlength
    rw [List.eq_nil_of_length_eq_zero (l := before') (by omega), List.append_nil]

/-- A command that returns does so at its end, where it finds one value unless it computes none. -/
theorem Command.code_of_ret {c : Command} {is : List Instruction} (h : .fixed is ∈ c.pieces)
    (hret : .ret ∈ is) :
    ∃ front, c.code = front ++ [.ret] ∧ .ret ∉ front ∧
      (Vm.heightFrom 0 front = 1 ∨ c = .leave none ∧ front = []) := by
  rcases c with _ | _ | _ | _ | _ | _ | ⟨_ | value⟩ | ⟨_ | value⟩ <;>
    simp only [pieces, List.mem_cons, List.not_mem_nil, or_false, reduceCtorEq, false_or,
      Piece.fixed.injEq] at h
  case leave.none => exact ⟨[], rfl, List.not_mem_nil, .inr ⟨rfl, rfl⟩⟩
  case leave.some => exact ⟨value.code, rfl, value.ret_not_mem, .inl (value.heightFrom_code 0)⟩
  case leaveVoid.none => exact ⟨[.push .constant 0], rfl, by simp, .inl rfl⟩
  case leaveVoid.some =>
    refine ⟨value.code ++ [discard, .push .constant 0], ?_, ?_, .inl ?_⟩
    · simp only [code, List.append_assoc, List.cons_append, List.nil_append]
    · simp [value.ret_not_mem, discard]
    · rw [heightFrom_append, value.heightFrom_code]
      rfl
  all_goals
    -- No other command returns.
    rcases h with rfl | rfl | rfl <;> simp [Slot.pop, Jack.storeElement, discard] at hret

/-- A return finds one value, unless it is a command of its own. -/
theorem heightFrom_ret {cs : List Command} {before after : List Instruction}
    (h : commandsCode cs = before ++ .ret :: after) :
    heightFrom 0 before = 1 ∨ heightFrom 0 before = 0 ∧ CommandAt cs before (.leave none) := by
  obtain ⟨before', d, ps, p, ps', front, back, hd, hpieces, hblock, hp, rfl⟩ :=
    CommandAt.exists_piece h
  cases p with
  | block cs => exact absurd rfl (hblock cs)
  | operand o =>
    have hmem : .ret ∈ o.code :=
      (show o.code = _ from hp) ▸ List.mem_append_right _ (List.mem_cons_self ..)
    exact absurd hmem o.ret_not_mem
  | fixed is =>
    have hfixed : .fixed is ∈ d.pieces :=
      hpieces ▸ List.mem_append_right _ (List.mem_cons_self ..)
    have his : is = front ++ .ret :: back := hp
    have hmem : .ret ∈ is := his ▸ List.mem_append_right _ (List.mem_cons_self ..)
    obtain ⟨tail, hcode, htail, hheight⟩ := d.code_of_ret hfixed hmem
    -- The command has only one return, so the code in front of it is known.
    have hfront : piecesCode ps ++ front = tail := by
      apply eq_of_append_ret htail
      rw [← hcode, d.code_eq, hpieces, piecesCode_append, piecesCode_cons, Piece.code, his]
      simp only [List.append_assoc, List.cons_append]
      rfl
    rw [hfront, heightFrom_append, hd.heightFrom]
    rcases hheight with hone | ⟨rfl, rfl⟩
    · exact .inl hone
    · exact .inr ⟨rfl, by rw [List.append_nil]; exact hd⟩

/-! ## Headers -/

/-- An instruction that only computes. -/
def Instruction.isPlain : Instruction → Bool
  | push .. | pop .. | arithmetic _ | call .. => true
  | label _ | goto _ | ifGoto _ | function .. | ret => false

theorem Instruction.target?_of_isPlain {x : Instruction} (h : x.isPlain = true) :
    x.target? = none := by
  cases x <;> first | rfl | cases h

theorem Operand.isPlain_of_mem (o : Operand) : ∀ x ∈ o.code, x.isPlain = true := by
  induction o using Operand.induction_parts with
  | step o ih =>
    intro x hx
    rw [o.code_eq, operandsCode_eq_flatMap, List.mem_append, List.mem_flatMap] at hx
    rcases hx with ⟨p, hp, hx⟩ | hx
    · exact ih p hp x hx
    · rcases o with _ | ⟨_ | _⟩ | ⟨_ | _⟩ | _ | _ <;>
        simp only [finish, fetchElement, List.mem_cons, List.not_mem_nil, or_false] at hx
      all_goals rcases hx with rfl | rfl <;> rfl

theorem function_not_mem (cs : List Command) (name : String) (locals : Nat) :
    .function name locals ∉ commandsCode cs := by
  intro hmem
  obtain ⟨before, after, hcode⟩ := List.append_of_mem hmem
  obtain ⟨before', d, ps, p, ps', front, back, -, hpieces, hblock, hp, -⟩ :=
    CommandAt.exists_piece hcode
  have hp' : .function name locals ∈ p.code :=
    hp ▸ List.mem_append_right _ (List.mem_cons_self ..)
  cases p with
  | block cs => exact hblock cs rfl
  | operand o => cases o.isPlain_of_mem _ hp'
  | fixed is =>
    have hfixed : .fixed is ∈ d.pieces :=
      hpieces ▸ List.mem_append_right _ (List.mem_cons_self ..)
    cases d.isGlue_of_mem hfixed _ hp'

end Jack.Vm
