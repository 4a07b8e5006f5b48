import Jack.Compiler.Statement
import Jack.Proofs.Compiler.Expression

/-!
# Compiling statements meets their translation

On the entries of a list of statements, followed by a closing brace, the compiler passes exactly
these entries, takes one label id for every `if` and `while` as soon as it is entered, and emits the
code of the translation, or fails with its fault.
-/

namespace Jack.Compiler

open Grammar
open Vm (Operand Command commandsCode LabelSupply Instruction)

variable {n : Nat} {l l' : LabelSupply} {c : Vm.Code} {ns : Array Notice} {rest : List Entry}
  {scope : Scope} {compile list : Compiler Unit}

/-- The state after code that takes label ids up to `l`. What was reported does not matter. -/
def EmittedCode (rest : List Entry) (n : Nat) (l : LabelSupply) (c : Vm.Code)
    (is : List Instruction) (s : CompilerState) : Prop :=
  ∃ ns, s = ⟨⟨rest, n⟩, l, c.extend is, ns⟩

def EmittedCommand (rest : List Entry) (n : Nat) (l : LabelSupply) (c : Vm.Code) (cmd : Command)
    (_ : Unit) (s : CompilerState) : Prop :=
  EmittedCode rest n l c cmd.code s

def EmittedCommands (rest : List Entry) (n : Nat) (l : LabelSupply) (c : Vm.Code)
    (cmds : List Command) (_ : Unit) (s : CompilerState) : Prop :=
  EmittedCode rest n l c (commandsCode cmds) s

/-- An expression compiles to its translation wherever it stands. -/
def CompilesExpression (scope : Scope) (compile : Compiler Unit) (e : Expression) : Prop :=
  ∀ {n l c ns rest}, EndsExpression rest → Meets (e.translate scope n)
    (compile.run ⟨⟨written e.lexemes ++ rest, n⟩, l, c, ns⟩) (Emitted rest (n + e.size) l c ns)

/-- The same for a list of statements in front of a closing brace. -/
def CompilesStatements (scope : Scope) (list : Compiler Unit) (body : List Statement) : Prop :=
  ∀ {n l c ns rest}, Meets (translateStatements scope l n body)
    (list.run
      ⟨⟨written (statementLexemes body) ++ .token .symbol closeBrace :: rest, n⟩, l, c, ns⟩)
    (EmittedCommands (.token .symbol closeBrace :: rest) (n + statementsSize body)
      (l.skip (branchesIn body)) c)

/-- The same for one statement. Only an `else` could go on with it. -/
def CompilesStatement (scope : Scope) (compile : Compiler Unit) (s : Statement) : Prop :=
  ∀ {n l c ns rest}, rest.head? ≠ some (.token .keyword "else") → Meets (s.translate scope l n)
    (compile.run ⟨⟨written s.lexemes ++ rest, n⟩, l, c, ns⟩)
    (EmittedCommand rest (n + s.size) (l.skip s.branches) c)

/-! ## Conditions and blocks -/

/-- `(condition)` -/
def conditionEntries (condition : Expression) : List Entry :=
  .token .symbol "(" :: (written condition.lexemes ++ [.token .symbol ")"])

/-- `{ body }` -/
def blockEntries (body : List Statement) : List Entry :=
  .token .symbol openBrace :: .production .statements ::
    (written (statementLexemes body) ++ [.token .symbol closeBrace])

theorem condition_meets {e : Expression} (h : CompilesExpression scope compile e) :
    Meets (e.translate scope (n + 1))
      ((condition compile).run ⟨⟨conditionEntries e ++ rest, n⟩, l, c, ns⟩)
      (Emitted rest (n + 1 + e.size + 1) l c ns) := by
  simp only [conditionEntries, List.cons_append, List.append_assoc, List.nil_append]
  refine .step (run_word ..) ((h (endsExpression_symbol (by decide) (by decide))).last ?_)
  rintro o _ _ rfl
  rw [run_word]
  rfl

theorem block_meets {body : List Statement} (h : CompilesStatements scope list body) :
    Meets (translateStatements scope l (n + 2) body)
      ((block list).run ⟨⟨blockEntries body ++ rest, n⟩, l, c, ns⟩)
      (EmittedCommands rest (n + 2 + statementsSize body + 1) (l.skip (branchesIn body)) c) := by
  simp only [blockEntries, List.cons_append, List.append_assoc, List.nil_append]
  refine .step (run_word ..) (.step (run_marker _) (h.last ?_))
  rintro cmds _ _ ⟨ns', rfl⟩
  rw [run_word]
  exact ⟨ns', rfl⟩

/-! ## One statement -/

attribute [local simp] Lexeme.entries

theorem compiles_assign {name : String} {value : Expression}
    (h : CompilesExpression scope compile value) :
    CompilesStatement scope (letStatement scope compile) (.assign name value) := by
  intro n l c ns rest _
  have hwritten : written (Statement.assign name value).lexemes ++ rest =
      .production .letStatement :: .token .keyword "let" :: .token .identifier name ::
        .token .symbol "=" :: (written value.lexemes ++ .token .symbol ";" :: rest) := by
    simp [Statement.lexemes]
  have hsize : n + (Statement.assign name value).size = n + 4 + value.size + 1 := by
    rw [Statement.size_assign]
    omega
  rw [hwritten, hsize]
  refine .step (run_marker _) (.step (run_word ..) (.step (run_position ..)
    (.step (run_identifier _) ((resolve_meets scope name (n + 2) _).bind ?_))))
  rintro target _ _ ⟨rfl, rfl⟩
  refine .step (run_accept_of_ne (by simp)) (.step (run_word ..) ?_)
  refine (h (endsExpression_symbol (by decide) (by decide))).bind ?_
  rintro o _ _ rfl
  refine .step (run_word ..) ?_
  rw [run_emit, Vm.Code.extend_extend]
  exact ⟨ns, rfl⟩

theorem compiles_assignElement {name : String} {index value : Expression}
    (h : CompilesExpression scope compile index) (h' : CompilesExpression scope compile value) :
    CompilesStatement scope (letStatement scope compile) (.assignElement name index value) := by
  intro n l c ns rest _
  have hwritten : written (Statement.assignElement name index value).lexemes ++ rest =
      .production .letStatement :: .token .keyword "let" :: .token .identifier name ::
        .token .symbol "[" :: (written index.lexemes ++ .token .symbol "]" ::
        .token .symbol "=" :: (written value.lexemes ++ .token .symbol ";" :: rest)) := by
    simp [Statement.lexemes]
  have hsize : n + (Statement.assignElement name index value).size =
      n + 4 + index.size + 1 + 1 + value.size + 1 := by
    rw [Statement.size_assignElement]
    omega
  rw [hwritten, hsize]
  refine .step (run_marker _) (.step (run_word ..) (.step (run_position ..)
    (.step (run_identifier _) ((resolve_meets scope name (n + 2) _).bind ?_))))
  rintro base _ _ ⟨rfl, rfl⟩
  refine .step (run_accept_self _) ?_
  refine (elementAddress_meets (h (endsExpression_symbol (by decide) (by decide)))).bind ?_
  rintro address _ _ rfl
  refine .step (run_word ..) ?_
  refine (h' (endsExpression_symbol (by decide) (by decide))).bind ?_
  rintro o _ _ rfl
  refine .step (run_word ..) ?_
  rw [run_emitAll, Vm.Code.extend_extend, Vm.Code.extend_extend, ← List.append_assoc]
  exact ⟨ns, rfl⟩

theorem compiles_ifThen {e : Expression} {onTrue : List Statement}
    (h : CompilesExpression scope compile e) (h' : CompilesStatements scope list onTrue) :
    CompilesStatement scope (ifStatement compile list) (.ifThen e onTrue) := by
  intro n l c ns rest hrest
  have hwritten : written (Statement.ifThen e onTrue).lexemes ++ rest =
      .production .ifStatement :: .token .keyword "if" ::
        (conditionEntries e ++ (blockEntries onTrue ++ rest)) := by
    simp [Statement.lexemes, conditionLexemes, conditionEntries, blockEntries]
  have hsize : n + (Statement.ifThen e onTrue).size =
      n + 3 + e.size + 3 + statementsSize onTrue + 1 := by
    rw [Statement.size_ifThen]
    omega
  have hlabels : l.skip (Statement.ifThen e onTrue).branches =
      l.advance.skip (branchesIn onTrue) := by
    rw [Statement.branches, Vm.LabelSupply.advance_eq_skip, Vm.LabelSupply.skip_skip,
      Nat.add_comm 1]
  rw [hwritten, hsize, hlabels]
  refine .step (run_marker _) (.step run_takeLabel (.step (run_word ..) ?_))
  refine (condition_meets h).bind ?_
  rintro o _ _ rfl
  refine .step (run_emitAll _) ((block_meets h').bind ?_)
  rintro cmds _ _ ⟨ns', rfl⟩
  -- No `else` follows, so the first block is the only one.
  refine .step (run_accept_of_ne hrest) ?_
  simp only [Vm.Code.extend_extend, Bool.false_eq_true, if_false, run_emit]
  exact ⟨ns', rfl⟩

theorem compiles_ifElse {e : Expression} {onTrue onFalse : List Statement}
    (h : CompilesExpression scope compile e) (h' : CompilesStatements scope list onTrue)
    (h'' : CompilesStatements scope list onFalse) :
    CompilesStatement scope (ifStatement compile list) (.ifElse e onTrue onFalse) := by
  intro n l c ns rest hrest
  have hwritten : written (Statement.ifElse e onTrue onFalse).lexemes ++ rest =
      .production .ifStatement :: .token .keyword "if" ::
        (conditionEntries e ++ (blockEntries onTrue ++ .token .keyword "else" ::
          (blockEntries onFalse ++ rest))) := by
    simp [Statement.lexemes, conditionLexemes, conditionEntries, blockEntries]
  have hsize : n + (Statement.ifElse e onTrue onFalse).size =
      n + 3 + e.size + 3 + statementsSize onTrue + 4 + statementsSize onFalse + 1 := by
    rw [Statement.size_ifElse]
    omega
  have hlabels : l.skip (Statement.ifElse e onTrue onFalse).branches =
      (l.advance.skip (branchesIn onTrue)).skip (branchesIn onFalse) := by
    rw [Statement.branches, Vm.LabelSupply.advance_eq_skip, Vm.LabelSupply.skip_skip,
      Vm.LabelSupply.skip_skip]
    congr 1
    omega
  rw [hwritten, hsize, hlabels]
  refine .step (run_marker _) (.step run_takeLabel (.step (run_word ..) ?_))
  refine (condition_meets h).bind ?_
  rintro o _ _ rfl
  refine .step (run_emitAll _) ((block_meets h').bind ?_)
  rintro cmds _ _ ⟨ns', rfl⟩
  refine .step (run_accept_self _) (.step (run_emitAll _) ((block_meets h'').bind ?_))
  rintro cmds' _ _ ⟨ns'', rfl⟩
  simp only [Vm.Code.extend_extend, run_emit]
  exact ⟨ns'', rfl⟩

theorem compiles_loop {e : Expression} {body : List Statement}
    (h : CompilesExpression scope compile e) (h' : CompilesStatements scope list body) :
    CompilesStatement scope (whileStatement compile list) (.loop e body) := by
  intro n l c ns rest _
  have hwritten : written (Statement.loop e body).lexemes ++ rest =
      .production .whileStatement :: .token .keyword "while" ::
        (conditionEntries e ++ (blockEntries body ++ rest)) := by
    simp [Statement.lexemes, conditionLexemes, conditionEntries, blockEntries]
  have hsize : n + (Statement.loop e body).size =
      n + 3 + e.size + 3 + statementsSize body + 1 := by
    rw [Statement.size_loop]
    omega
  have hlabels : l.skip (Statement.loop e body).branches = l.advance.skip (branchesIn body) := by
    rw [Statement.branches, Vm.LabelSupply.advance_eq_skip, Vm.LabelSupply.skip_skip,
      Nat.add_comm 1]
  rw [hwritten, hsize, hlabels]
  refine .step (run_marker _) (.step run_takeLabel (.step (run_word ..) (.step (run_emit _) ?_)))
  refine (condition_meets h).bind ?_
  rintro o _ _ rfl
  refine .step (run_emitAll _) ((block_meets h').bind ?_)
  rintro cmds _ _ ⟨ns', rfl⟩
  simp only [Vm.Code.extend_extend, run_emitAll]
  exact ⟨ns', rfl⟩

theorem compiles_doCall {callee : Callee} {args : List Expression} {arguments : Compiler Nat}
    (h : ∀ {n l c ns rest}, Meets (translateArguments scope n 0 args)
      (arguments.run ⟨⟨written (argumentLexemes args) ++ .token .symbol ")" :: rest, n⟩, l, c, ns⟩)
      (EmittedArguments (.token .symbol ")" :: rest) (n + argumentsSize args) l c ns 0)) :
    CompilesStatement scope (doStatement scope compile arguments) (.doCall callee args) := by
  intro n l c ns rest _
  have hwritten : written (Statement.doCall callee args).lexemes ++ rest =
      .production .doStatement :: .token .keyword "do" ::
        .token .identifier (firstName callee) ::
        (callEntries callee args ++ .token .symbol ";" :: rest) := by
    rw [← List.cons_append, ← written_call]
    simp [Statement.lexemes]
  have hsize : n + (Statement.doCall callee args).size =
      n + 2 + calleeSize callee + argumentsSize args + 1 + 1 := by
    rw [Statement.size_doCall]
    omega
  rw [hwritten, hsize]
  refine .step (run_marker _) (.step (run_word ..) (.step (run_atProduction _)
    (.step (run_identifier _) (.step (run_atCall_callEntries ..) ?_))))
  refine (call_meets fun c => h).bind ?_
  rintro o _ _ rfl
  refine .step (run_word ..) ?_
  rw [run_emit, Vm.Code.extend_extend]
  exact ⟨ns, rfl⟩

theorem head?_expression (e : Expression) :
    (written e.lexemes ++ rest).head? = some (.production .expression) := by
  cases e
  simp [Expression.lexemes]

theorem compiles_doExpression {value : Expression} {arguments : Compiler Nat}
    (h : CompilesExpression scope compile value) :
    CompilesStatement scope (doStatement scope compile arguments) (.doExpression value) := by
  intro n l c ns rest _
  have hwritten : written (Statement.doExpression value).lexemes ++ rest =
      .production .doStatement :: .token .keyword "do" ::
        (written value.lexemes ++ .token .symbol ";" :: rest) := by
    simp [Statement.lexemes]
  have hsize : n + (Statement.doExpression value).size = n + 2 + value.size + 1 := by
    rw [Statement.size_doExpression]
    omega
  rw [hwritten, hsize]
  refine .step (run_marker _) (.step (run_word ..) (.step (run_atProduction _) ?_))
  simp only [head?_expression, decide_true, if_true]
  refine (h (endsExpression_symbol (by decide) (by decide))).bind ?_
  rintro o _ _ rfl
  refine .step (run_word ..) ?_
  rw [run_emit, Vm.Code.extend_extend]
  exact ⟨ns, rfl⟩

theorem compiles_returnNothing :
    CompilesStatement scope (returnStatement scope compile) .returnNothing := by
  intro n l c ns rest _
  have hwritten : written Statement.returnNothing.lexemes ++ rest =
      .production .returnStatement :: .token .keyword "return" :: .token .symbol ";" :: rest := rfl
  rw [hwritten]
  refine .step (run_marker _) (.step (run_word ..) (.step (run_atProduction _) ?_))
  rw [List.head?_cons, decide_eq_false (by simp)]
  cases hvoid : scope.signature.isVoid with
  | true =>
    refine .step (run_emit _) (.step (run_word ..) ?_)
    rw [run_emit, Vm.Code.extend_extend]
    exact ⟨ns, by simp only [leaveWith, hvoid, if_true, Command.code]; rfl⟩
  | false =>
    refine .step (run_note _) (.step (run_word ..) ?_)
    rw [run_emit]
    exact ⟨_, by simp only [leaveWith, hvoid, Bool.false_eq_true, if_false, Command.code]; rfl⟩

theorem compiles_returnValue {value : Expression} (h : CompilesExpression scope compile value) :
    CompilesStatement scope (returnStatement scope compile) (.returnValue value) := by
  intro n l c ns rest _
  have hwritten : written (Statement.returnValue value).lexemes ++ rest =
      .production .returnStatement :: .token .keyword "return" ::
        (written value.lexemes ++ .token .symbol ";" :: rest) := by
    simp [Statement.lexemes]
  have hsize : n + (Statement.returnValue value).size = n + 2 + value.size + 1 := by
    rw [Statement.size_returnValue]
    omega
  rw [hwritten, hsize]
  refine .step (run_marker _) (.step (run_word ..) (.step (run_atProduction _) ?_))
  rw [head?_expression, decide_eq_true rfl]
  refine (h (endsExpression_symbol (by decide) (by decide))).bind ?_
  rintro o _ _ rfl
  cases hvoid : scope.signature.isVoid with
  | true =>
    refine .step (run_note _) (.step (run_emit _) (.step (run_emit _) (.step (run_word ..) ?_)))
    rw [run_emit, Vm.Code.extend_extend, Vm.Code.extend_extend, Vm.Code.extend_extend]
    refine ⟨ns.push (.voidReturnsValue scope.className scope.signature.name), ?_⟩
    simp only [leaveWith, hvoid, if_true, Command.code]
    rfl
  | false =>
    refine .step (run_word ..) ?_
    rw [run_emit, Vm.Code.extend_extend]
    refine ⟨ns, ?_⟩
    simp only [leaveWith, hvoid, Bool.false_eq_true, if_false, Command.code]
    rfl

/-! ## Lists of statements -/

/-- What compiles a statement whose entries are bounded. -/
def statementCompiler (scope : Scope) (bound : Nat) : Statement → Compiler Unit
  | .assign .. | .assignElement .. => letStatement scope (expression scope bound)
  | .ifThen .. | .ifElse .. => ifStatement (expression scope bound) (statementList scope bound)
  | .loop .. => whileStatement (expression scope bound) (statementList scope bound)
  | .doCall .. | .doExpression _ =>
    doStatement scope (expression scope bound) (arguments scope bound 0)
  | .returnNothing | .returnValue _ => returnStatement scope (expression scope bound)

/-- The marker of a statement tells which compiler reads it. -/
theorem run_statementList_cons (s : Statement) (bound : Nat) :
    (statementList scope (bound + 1)).run ⟨⟨written s.lexemes ++ rest, n⟩, l, c, ns⟩ =
      (do statementCompiler scope bound s; statementList scope bound).run
        ⟨⟨written s.lexemes ++ rest, n⟩, l, c, ns⟩ := by
  cases s <;> rfl

theorem run_statementList_end (bound : Nat) :
    (statementList scope bound).run ⟨⟨.token .symbol closeBrace :: rest, n⟩, l, c, ns⟩ =
      .ok () ⟨⟨.token .symbol closeBrace :: rest, n⟩, l, c, ns⟩ := by
  cases bound <;> rfl

/-- What follows a statement of a list. -/
theorem head?_statements (body : List Statement) :
    (written (statementLexemes body) ++ .token .symbol closeBrace :: rest).head? ≠
      some (.token .keyword "else") := by
  cases body with
  | nil => simp [statementLexemes]
  | cons s body => cases s <;> simp [statementLexemes, Statement.lexemes]

theorem compiles_expression {bound : Nat} {e : Expression} (h : e.size ≤ bound + 1) :
    CompilesExpression scope (expression scope bound) e :=
  expression_meets scope e h

mutual

theorem compiles_statement (scope : Scope) : (s : Statement) → ∀ {bound}, s.size ≤ bound + 1 →
    CompilesStatement scope (statementCompiler scope bound s) s
  | .assign name value, bound, h => by
    rw [Statement.size_assign] at h
    exact compiles_assign (compiles_expression (by omega))
  | .assignElement name index value, bound, h => by
    rw [Statement.size_assignElement] at h
    exact compiles_assignElement (compiles_expression (by omega)) (compiles_expression (by omega))
  | .ifThen condition onTrue, bound, h => by
    rw [Statement.size_ifThen] at h
    exact compiles_ifThen (compiles_expression (by omega))
      (compiles_statements scope onTrue (by omega))
  | .ifElse condition onTrue onFalse, bound, h => by
    rw [Statement.size_ifElse] at h
    exact compiles_ifElse (compiles_expression (by omega))
      (compiles_statements scope onTrue (by omega)) (compiles_statements scope onFalse (by omega))
  | .loop condition body, bound, h => by
    rw [Statement.size_loop] at h
    exact compiles_loop (compiles_expression (by omega))
      (compiles_statements scope body (by omega))
  | .doCall callee args, bound, h => by
    rw [Statement.size_doCall] at h
    exact compiles_doCall (arguments_meets scope args (by omega) 0)
  | .doExpression value, bound, h => by
    rw [Statement.size_doExpression] at h
    exact compiles_doExpression (compiles_expression (by omega))
  | .returnNothing, bound, h => compiles_returnNothing
  | .returnValue value, bound, h => by
    rw [Statement.size_returnValue] at h
    exact compiles_returnValue (compiles_expression (by omega))

theorem compiles_statements (scope : Scope) : (body : List Statement) → ∀ {bound},
    statementsSize body ≤ bound → CompilesStatements scope (statementList scope bound) body
  | [], bound, _, n, l, c, ns, rest => by
    have hwritten : written (statementLexemes []) ++ .token .symbol closeBrace :: rest =
        .token .symbol closeBrace :: rest := rfl
    rw [hwritten, run_statementList_end]
    exact ⟨ns, by rw [commandsCode, Vm.Code.extend_nil]; rfl⟩
  | s :: body, 0, h, n, l, c, ns, rest => by
    rw [statementsSize_cons] at h
    have := s.size_pos
    omega
  | s :: body, bound + 1, h, n, l, c, ns, rest => by
    rw [statementsSize_cons] at h
    have hpos := s.size_pos
    have hwritten : written (statementLexemes (s :: body)) ++ .token .symbol closeBrace :: rest =
        written s.lexemes ++
          (written (statementLexemes body) ++ .token .symbol closeBrace :: rest) := by
      simp [statementLexemes]
    have hsize : n + statementsSize (s :: body) = n + s.size + statementsSize body := by
      rw [statementsSize_cons]
      omega
    have hlabels : l.skip (branchesIn (s :: body)) =
        (l.skip s.branches).skip (branchesIn body) := by
      rw [branchesIn, Vm.LabelSupply.skip_skip]
    -- What follows the statement begins with a marker or is the brace, so it is no `else`.
    rw [hwritten, run_statementList_cons, hsize, hlabels]
    refine (compiles_statement scope s (by omega) (head?_statements body)).bind ?_
    rintro cmd _ _ ⟨ns', rfl⟩
    refine (compiles_statements scope body (by omega)).map ?_
    rintro cmds _ _ ⟨ns'', rfl⟩
    exact ⟨ns'', by rw [Vm.Code.extend_extend]; rfl⟩

end

theorem statements_meets {bound : Nat} (body : List Statement) (h : statementsSize body ≤ bound) :
    Meets (translateStatements scope l (n + 1) body)
      ((statements scope bound).run ⟨⟨.production .statements ::
        (written (statementLexemes body) ++ .token .symbol closeBrace :: rest), n⟩, l, c, ns⟩)
      (EmittedCommands (.token .symbol closeBrace :: rest) (n + 1 + statementsSize body)
        (l.skip (branchesIn body)) c) :=
  .step (run_marker _) (compiles_statements scope body h)

end Jack.Compiler
