import Jack.Proofs.Compiler.Soundness.Expression

/-!
# Statements that compile

Whatever entries are accepted as statements spell statements. As many ids are taken as there are
`if` and `while` statements.
-/

namespace Jack.Compiler

open Grammar
open Vm (Operand Command commandsCode LabelSupply)

variable {scope : Scope} {es : List Entry} {l : LabelSupply} {bound : Nat}

def StatementRead (scope : Scope) (l : LabelSupply) : Reading Unit := fun used k is _ =>
  ∃ s cmd, Spells (Statement.lexemes s) used ∧ k = s.branches ∧
    Everywhere (s.translate scope l) cmd ∧ is = cmd.code

def StatementsRead (scope : Scope) (l : LabelSupply) : Reading Unit := fun used k is _ =>
  ∃ body cmds, Spells (statementLexemes body) used ∧ k = branchesIn body ∧
    Everywhere (translateStatements scope l · body) cmds ∧ is = commandsCode cmds

/-- What a compiler of expressions has to satisfy. -/
def ReadsExpression (scope : Scope) (compile : Compiler Unit) (bound : Nat) : Prop :=
  ∀ es l, es.length ≤ bound → Yields compile es l (ExpressionRead scope)

def ReadsStatements (scope : Scope) (list : Compiler Unit) (bound : Nat) : Prop :=
  ∀ es l, es.length ≤ bound → Yields list es l (StatementsRead scope l)

variable {compile list : Compiler Unit}

theorem condition_yields (h : ReadsExpression scope compile bound) (hes : es.length ≤ bound) :
    Yields (condition compile) es l fun used k is _ => k = 0 ∧ ∃ e o,
      Spells (conditionLexemes e) used ∧ Everywhere (e.translate scope) o ∧ is = o.code := by
  refine yields_word (by decide) fun es' kind hes' => ?_
  subst hes'
  refine (h es' l (Nat.le_of_succ_le hes)).bind ?_
  rintro used rest _ _ _ rfl ⟨rfl, e, o, hspells, ho, rfl⟩
  refine Yields.last (yields_word (by decide) fun rest' kind' hrest => yields_pure ?_)
  refine ⟨rfl, e, o, ?_, ho, List.append_nil _⟩
  exact .entry ⟨kind, rfl⟩ (hspells.append (.singleton ⟨kind', rfl⟩))

theorem block_yields (h : ReadsStatements scope list bound) (hes : es.length ≤ bound) :
    Yields (block list) es l fun used k is _ => ∃ body cmds,
      Spells (blockLexemes body) used ∧ k = branchesIn body ∧
      Everywhere (translateStatements scope l · body) cmds ∧ is = commandsCode cmds := by
  refine yields_word (by decide) fun es' kind hes' => ?_
  refine yields_marker (by decide) fun es'' hes'' => ?_
  subst hes' hes''
  rw [List.length_cons, List.length_cons] at hes
  refine (h es'' l (by omega)).bind ?_
  rintro used rest _ _ _ rfl ⟨body, cmds, hspells, rfl, hcmds, rfl⟩
  refine Yields.last (yields_word (by decide) fun rest' kind' hrest => yields_pure ?_)
  refine ⟨body, cmds, ?_, rfl, hcmds, List.append_nil _⟩
  exact .entry ⟨kind, rfl⟩ (.entry rfl (hspells.append (.singleton ⟨kind', rfl⟩)))

theorem letStatement_yields (h : ReadsExpression scope compile bound)
    (hes : es.length ≤ bound + 1) :
    Yields (letStatement scope compile) es l (StatementRead scope l) := by
  refine yields_marker (by decide) fun es₁ hes₁ => yields_word (by decide) fun es₂ kind hes₂ => ?_
  refine yields_position fun pos => yields_identifier fun es₃ name hes₃ => ?_
  subst hes₁ hes₂ hes₃
  simp only [List.length_cons] at hes
  refine resolve_yields fun target htarget => yields_accept (fun es₄ hes₄ => ?_) ?_
  · subst hes₄
    rw [List.length_cons] at hes
    refine (elementAddress_yields (h es₄ l (by omega))).bind ?_
    rintro used rest _ _ _ rfl ⟨rfl, index, i, hindex, hi, rfl⟩
    refine yields_word (by decide) fun rest' kind' hrest' => ?_
    subst hrest'
    rw [List.length_append, List.length_cons] at hes
    refine (h rest' _ (by omega)).bind ?_
    rintro used' rest'' _ _ _ rfl ⟨rfl, value, v, hvalue, hv, rfl⟩
    refine yields_word (by decide) fun rest₃ kind'' hrest₃ => ?_
    refine Yields.last (yields_emitAll (yields_pure ?_))
    refine ⟨.assignElement name index value,
      .storeElement (Grammar.elementAddress target i) v, ?_, rfl, fun pos => ?_, ?_⟩
    · have hvalue' : Spells (.symbol "=" :: (value.lexemes ++ [.symbol ";"]))
          (.token kind' "=" :: (used' ++ [.token kind'' ";"])) :=
        .entry ⟨kind', rfl⟩ (hvalue.append (.singleton ⟨kind'', rfl⟩))
      have hall : Spells (.marker .letStatement :: .keyword "let" :: .token .identifier name ::
          .symbol "[" :: (index.lexemes ++ [.symbol "]"] ++
            .symbol "=" :: (value.lexemes ++ [.symbol ";"]))) _ :=
        .entry rfl (.entry ⟨kind, rfl⟩ (.entry rfl (.entry ⟨.symbol, rfl⟩
          (hindex.append hvalue'))))
      simpa [Statement.lexemes] using hall
    · simp only [Statement.translate, htarget _, hi _, hv _]
      rfl
    · simp only [Command.code, List.append_nil, List.append_assoc]
  · refine yields_word (by decide) fun es₄ kind' hes₄ => ?_
    subst hes₄
    rw [List.length_cons] at hes
    refine (h es₄ l (by omega)).bind ?_
    rintro used rest _ _ _ rfl ⟨rfl, value, v, hvalue, hv, rfl⟩
    refine yields_word (by decide) fun rest' kind'' hrest' => ?_
    refine Yields.last (yields_emit (yields_pure ?_))
    refine ⟨.assign name value, .store target v, ?_, rfl, fun pos => ?_, rfl⟩
    · exact .entry rfl (.entry ⟨kind, rfl⟩ (.entry rfl (.entry ⟨kind', rfl⟩
        (hvalue.append (.singleton ⟨kind'', rfl⟩)))))
    · simp only [Statement.translate, htarget _, hv _]
      rfl

theorem ifStatement_yields (h : ReadsExpression scope compile bound)
    (h' : ReadsStatements scope list bound) (hes : es.length ≤ bound + 1) :
    Yields (ifStatement compile list) es l (StatementRead scope l) := by
  refine yields_marker (by decide) fun es₁ hes₁ => yields_takeLabel ?_
  refine yields_word (by decide) fun es₂ kind hes₂ => ?_
  subst hes₁ hes₂
  simp only [List.length_cons] at hes
  refine (condition_yields h (by omega)).bind ?_
  rintro used rest _ _ _ rfl ⟨rfl, condition, o, hcondition, ho, rfl⟩
  rw [List.length_append] at hes
  refine yields_emitAll ((block_yields h' (by omega)).bind ?_)
  rintro used' rest' _ _ _ rfl ⟨onTrue, cmds, honTrue, rfl, hcmds, rfl⟩
  rw [List.length_append] at hes
  refine yields_accept (fun es₃ hes₃ => ?_) ?_
  · subst hes₃
    rw [List.length_cons] at hes
    refine yields_emitAll ((block_yields h' (by omega)).bind ?_)
    rintro used'' rest'' _ _ _ rfl ⟨onFalse, cmds', honFalse, rfl, hcmds', rfl⟩
    refine Yields.last (yields_emit (yields_pure ?_))
    refine ⟨.ifElse condition onTrue onFalse, .ifElse l.peek o cmds cmds', ?_, ?_,
      fun pos => ?_, ?_⟩
    · have hall : Spells (.marker .ifStatement :: .keyword "if" :: (conditionLexemes condition ++
          (blockLexemes onTrue ++ .keyword "else" :: blockLexemes onFalse))) _ :=
        .entry rfl (.entry ⟨kind, rfl⟩ (hcondition.append
          (honTrue.append (.entry ⟨.keyword, rfl⟩ honFalse))))
      simpa [Statement.lexemes, blockLexemes] using hall
    · simp only [Statement.branches]
      omega
    · have honTrue' : ∀ pos, translateStatements scope l.advance pos onTrue = .ok cmds := hcmds
      have honFalse' : ∀ pos, translateStatements scope (l.advance.skip (branchesIn onTrue)) pos
        onFalse = .ok cmds' := hcmds'
      simp only [Statement.translate, ho _, honTrue', honFalse']
      rfl
    · simp only [Command.code, List.append_assoc]
  · refine Yields.last (yields_emit (yields_pure ?_))
    refine ⟨.ifThen condition onTrue, .ifThen l.peek o cmds, ?_, ?_, fun pos => ?_, ?_⟩
    · have hall : Spells (.marker .ifStatement :: .keyword "if" :: (conditionLexemes condition ++
          blockLexemes onTrue)) _ :=
        .entry rfl (.entry ⟨kind, rfl⟩ (hcondition.append honTrue))
      simpa [Statement.lexemes, blockLexemes] using hall
    · simp only [Statement.branches]
      omega
    · have honTrue' : ∀ pos, translateStatements scope l.advance pos onTrue = .ok cmds := hcmds
      simp only [Statement.translate, ho _, honTrue']
      rfl
    · simp only [Command.code, List.append_assoc]

theorem whileStatement_yields (h : ReadsExpression scope compile bound)
    (h' : ReadsStatements scope list bound) (hes : es.length ≤ bound + 1) :
    Yields (whileStatement compile list) es l (StatementRead scope l) := by
  refine yields_marker (by decide) fun es₁ hes₁ => yields_takeLabel ?_
  refine yields_word (by decide) fun es₂ kind hes₂ => yields_emit ?_
  subst hes₁ hes₂
  simp only [List.length_cons] at hes
  refine (condition_yields h (by omega)).bind ?_
  rintro used rest _ _ _ rfl ⟨rfl, condition, o, hcondition, ho, rfl⟩
  rw [List.length_append] at hes
  refine yields_emitAll ((block_yields h' (by omega)).bind ?_)
  rintro used' rest' _ _ _ rfl ⟨body, cmds, hbody, rfl, hcmds, rfl⟩
  refine Yields.last (yields_emitAll (yields_pure ?_))
  refine ⟨.loop condition body, .loop l.peek o cmds, ?_, ?_, fun pos => ?_, ?_⟩
  · have hall : Spells (.marker .whileStatement :: .keyword "while" ::
        (conditionLexemes condition ++ blockLexemes body)) _ :=
      .entry rfl (.entry ⟨kind, rfl⟩ (hcondition.append hbody))
    simpa [Statement.lexemes, blockLexemes] using hall
  · simp only [Statement.branches]
    omega
  · have hbody' : ∀ pos, translateStatements scope l.advance pos body = .ok cmds := hcmds
    simp only [Statement.translate, ho _, hbody']
    rfl
  · simp only [Command.code, List.append_nil, List.append_assoc]
    rfl

theorem doStatement_yields {arguments : Compiler Nat} (h : ReadsExpression scope compile bound)
    (h' : ReadsArguments scope arguments bound) (hes : es.length ≤ bound + 1) :
    Yields (doStatement scope compile arguments) es l (StatementRead scope l) := by
  refine yields_marker (by decide) fun es₁ hes₁ => yields_word (by decide) fun es₂ kind hes₂ => ?_
  subst hes₁ hes₂
  simp only [List.length_cons] at hes
  refine (looks_atProduction .expression).then ?_
  split
  · refine (h es₂ l (by omega)).bind ?_
    rintro used rest _ _ _ rfl ⟨rfl, value, o, hvalue, ho, rfl⟩
    refine yields_word (by decide) fun rest' kind' hrest' => ?_
    refine Yields.last (yields_emit (yields_pure ?_))
    refine ⟨.doExpression value, .drop o, ?_, rfl, fun pos => ?_, rfl⟩
    · exact .entry rfl (.entry ⟨kind, rfl⟩ (hvalue.append (.singleton ⟨kind', rfl⟩)))
    · simp only [Statement.translate, ho _]
      rfl
  · refine yields_identifier fun es₃ name hes₃ => looks_atCall.then ?_
    subst hes₃
    rw [List.length_cons] at hes
    split
    · refine (call_yields h' (by omega)).bind ?_
      rintro used rest _ _ _ rfl ⟨rfl, callee, args, os, o, hspells, hos, ho, rfl⟩
      refine yields_word (by decide) fun rest' kind' hrest' => ?_
      refine Yields.last (yields_emit (yields_pure ?_))
      refine ⟨.doCall callee args, .drop o, ?_, rfl, fun pos => ?_, rfl⟩
      · exact .entry rfl (.entry ⟨kind, rfl⟩ (hspells.append (.singleton ⟨kind', rfl⟩)))
      · simp only [Statement.translate, hos _, ho _]
        rfl
    · exact Yields.bind (Q := fun _ _ _ _ => False) yields_mismatch fun _ _ _ _ _ _ h => h.elim

theorem returnStatement_yields (h : ReadsExpression scope compile bound)
    (hes : es.length ≤ bound + 1) :
    Yields (returnStatement scope compile) es l (StatementRead scope l) := by
  refine yields_marker (by decide) fun es₁ hes₁ => yields_word (by decide) fun es₂ kind hes₂ => ?_
  subst hes₁ hes₂
  simp only [List.length_cons] at hes
  refine (looks_atProduction .expression).then ?_
  by_cases hvalue : es₂.head? = some (.production .expression)
  · rw [decide_eq_true hvalue]
    refine (h es₂ l (by omega)).bind ?_
    rintro used rest _ _ _ rfl ⟨rfl, value, o, hvalue, ho, rfl⟩
    cases hvoid : scope.signature.isVoid with
    | true =>
      refine yields_note (yields_emit (yields_emit (yields_word (by decide) fun es₃ kind' _ => ?_)))
      refine Yields.last (yields_emit (yields_pure ?_))
      refine ⟨.returnValue value, .leaveVoid (some o), ?_, rfl, fun pos => ?_, ?_⟩
      · exact .entry rfl (.entry ⟨kind, rfl⟩ (hvalue.append (.singleton ⟨kind', rfl⟩)))
      · simp only [Statement.translate, ho _, leaveWith, hvoid]
        rfl
      · simp only [Command.code]
    | false =>
      refine yields_word (by decide) fun es₃ kind' _ => Yields.last (yields_emit (yields_pure ?_))
      refine ⟨.returnValue value, .leave (some o), ?_, rfl, fun pos => ?_, ?_⟩
      · exact .entry rfl (.entry ⟨kind, rfl⟩ (hvalue.append (.singleton ⟨kind', rfl⟩)))
      · simp only [Statement.translate, ho _, leaveWith, hvoid]
        rfl
      · simp only [Command.code]
  · rw [decide_eq_false hvalue]
    cases hvoid : scope.signature.isVoid with
    | true =>
      refine yields_emit (yields_word (by decide) fun es₃ kind' _ => ?_)
      refine Yields.last (yields_emit (yields_pure ?_))
      refine ⟨.returnNothing, .leaveVoid none, ?_, rfl, fun pos => ?_, rfl⟩
      · exact .entry rfl (.entry ⟨kind, rfl⟩ (.entry ⟨kind', rfl⟩ rfl))
      · simp only [Statement.translate, leaveWith, hvoid]
        rfl
    | false =>
      refine yields_note (yields_word (by decide) fun es₃ kind' _ => ?_)
      refine Yields.last (yields_emit (yields_pure ?_))
      refine ⟨.returnNothing, .leave none, ?_, rfl, fun pos => ?_, rfl⟩
      · exact .entry rfl (.entry ⟨kind, rfl⟩ (.entry ⟨kind', rfl⟩ rfl))
      · simp only [Statement.translate, leaveWith, hvoid]
        rfl

theorem length_pos_of_spells_statement {s : Statement} {used : List Entry}
    (h : Spells s.lexemes used) : 0 < used.length := by
  obtain ⟨p, ls, hls⟩ : ∃ p ls, s.lexemes = .marker p :: ls := by
    cases s <;> exact ⟨_, _, rfl⟩
  rw [hls] at h
  obtain ⟨first, rest, rfl, rfl, -⟩ := h
  exact Nat.succ_pos _

/-- One statement and those after it. -/
theorem then_statements_yields {compile list : Compiler Unit} (hes : es.length ≤ bound + 1)
    (h : Yields compile es l (StatementRead scope l)) (h' : ReadsStatements scope list bound) :
    Yields (do compile; list) es l (StatementsRead scope l) := by
  refine h.bind ?_
  rintro used rest _ _ _ rfl ⟨s, cmd, hs, rfl, hcmd, rfl⟩
  -- A statement has entries, so the bound is enough for those after it.
  have hpos := length_pos_of_spells_statement hs
  rw [List.length_append] at hes
  refine (h' rest _ (by omega)).mono ?_
  rintro used' _ _ _ ⟨body, cmds, hbody, rfl, hcmds, rfl⟩
  refine ⟨s :: body, cmd :: cmds, hs.append hbody, rfl, fun pos => ?_, rfl⟩
  simp only [translateStatements, hcmd _, hcmds _]
  rfl

theorem statementList_yields (scope : Scope) (bound : Nat) :
    ReadsStatements scope (statementList scope bound) bound := by
  induction bound with
  | zero => exact fun es l _ => yields_pure ⟨[], [], rfl, rfl, fun _ => rfl, rfl⟩
  | succ bound ih =>
    intro es l hes
    have hexpression : ReadsExpression scope (expression scope bound) bound :=
      fun es l hes => expression_yields (Nat.le_succ_of_le hes)
    refine (looks_peek? production?).then ?_
    split
    · exact then_statements_yields hes (letStatement_yields hexpression hes) ih
    · exact then_statements_yields hes (ifStatement_yields hexpression ih hes) ih
    · exact then_statements_yields hes (whileStatement_yields hexpression ih hes) ih
    · exact then_statements_yields hes
        (doStatement_yields hexpression ((reads_terms scope bound).arguments 0) hes) ih
    · exact then_statements_yields hes (returnStatement_yields hexpression hes) ih
    · exact yields_pure ⟨[], [], rfl, rfl, fun _ => rfl, rfl⟩

end Jack.Compiler
