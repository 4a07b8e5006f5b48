import Jack.Compiler.Declaration
import Jack.Proofs.Compiler.Statement

/-!
# Compiling a class meets its translation

Declarations leave the code as it is and extend a symbol table. A subroutine adds the code of its
routine.
-/

namespace Jack.Compiler

open Grammar
open Vm (Routine LabelSupply)

variable {n : Nat} {l : LabelSupply} {c : Vm.Code} {ns : Array Notice} {rest : List Entry}
  {className : String} {kind : Storage} {bound : Nat} {table : SymbolTable}

/-- The state after declarations. -/
def Declared (rest : List Entry) (n : Nat) (l : LabelSupply) (c : Vm.Code)
    (table table' : SymbolTable) (s : CompilerState) : Prop :=
  table' = table ∧ ∃ ns, s = ⟨⟨rest, n⟩, l, c, ns⟩

/-! ## Variables -/

theorem define_meets (className name declaredType : String) (pos : Nat) :
    Meets (declare kind declaredType name pos table)
      ((define className table name declaredType kind (.ofIndex pos)).run ⟨⟨rest, n⟩, l, c, ns⟩)
      (Declared rest n l c) := by
  unfold declare define
  cases table.define name declaredType kind with
  | ok table => exact ⟨rfl, ns, rfl⟩
  | error refusal =>
    cases refusal with
    | duplicate => exact ⟨rfl, _, rfl⟩
    | full => rfl

theorem declareName_meets (className name declaredType : String) :
    Meets (declare kind declaredType name n table)
      ((declareName className kind declaredType table).run
        ⟨⟨.token .identifier name :: rest, n⟩, l, c, ns⟩)
      (Declared rest (n + 1) l c) :=
  .step (run_position ..) (.step (run_identifier _) (define_meets className name declaredType n))

attribute [local simp] Lexeme.entries

theorem declareNames_meets {declaredType : String} (hrest : rest.head? ≠ some comma) :
    (name : String) → (more : List String) → ∀ {bound n ns table}, more.length ≤ bound →
    Meets (Grammar.declareNames kind declaredType n (name :: more) table)
      ((declareNames className kind declaredType bound table).run
        ⟨⟨written (separated nameLexemes (name :: more)) ++ rest, n⟩, l, c, ns⟩)
      (Declared rest (n + (2 * more.length + 1)) l c)
  | name, [], bound, n, ns, table, _ => by
    cases bound with
    | zero => exact (declareName_meets className name declaredType).map fun _ _ _ h => h
    | succ bound =>
      refine (declareName_meets className name declaredType).bind ?_
      rintro table _ _ ⟨rfl, ns', rfl⟩
      exact .step (run_accept_of_ne hrest) ⟨rfl, ns', rfl⟩
  | name, next :: more, bound + 1, n, ns, table, h => by
    have hwritten : written (separated nameLexemes (name :: next :: more)) ++ rest =
        .token .identifier name :: comma ::
          (written (separated nameLexemes (next :: more)) ++ rest) := by
      simp [separated, nameLexemes, comma]
    have hsize : n + (2 * (next :: more).length + 1) = n + 1 + 1 + (2 * more.length + 1) := by
      rw [List.length_cons]
      omega
    rw [hwritten, hsize]
    refine (declareName_meets className name declaredType).bind ?_
    rintro table _ _ ⟨rfl, ns', rfl⟩
    refine .step (run_accept_self _) ?_
    exact declareNames_meets hrest next more (Nat.le_of_succ_le_succ h)

theorem Variables.size_eq (vs : Variables) : vs.size = 2 * vs.more.length + 3 := by
  have hmore : (written (vs.more.flatMap fun y => .symbol "," :: nameLexemes y)).length =
      2 * vs.more.length := by
    induction vs.more with
    | nil => rfl
    | cons y more ih =>
      rw [List.flatMap_cons, written_append, List.length_append, ih, List.length_cons]
      simp [nameLexemes]
      omega
  simp only [Variables.size, Variables.lexemes, Variables.names, separated, written_append,
    List.length_append, hmore]
  simp [nameLexemes]
  omega

theorem declareTyped_meets (vs : Variables) (h : vs.size ≤ bound + 3) :
    Meets (vs.declare kind n table)
      ((declareTyped className kind bound table).run
        ⟨⟨written vs.lexemes ++ rest, n⟩, l, c, ns⟩)
      (Declared rest (n + vs.size) l c) := by
  rw [Variables.size_eq] at h ⊢
  have hwritten : written vs.lexemes ++ rest =
      .token (Lexeme.typeKind vs.declaredType) vs.declaredType ::
        (written (separated nameLexemes (vs.first :: vs.more)) ++ .token .symbol ";" :: rest) := by
    simp [Variables.lexemes, Variables.names]
  have hsize : n + (2 * vs.more.length + 3) = n + 1 + (2 * vs.more.length + 1) + 1 := by omega
  rw [hwritten, hsize]
  refine .step (run_type _) ?_
  refine (declareNames_meets (by simp [comma]) vs.first vs.more (by omega)).last ?_
  rintro table _ _ ⟨rfl, ns', rfl⟩
  exact .step (run_word ..) ⟨rfl, ns', rfl⟩

theorem ClassVariables.ofClassKeyword? (vs : ClassVariables) :
    Storage.ofClassKeyword? vs.kind.name = some vs.kind :=
  Storage.ofClassKeyword?_eq_some_iff.2 ⟨vs.classLevel, rfl⟩

theorem classVarDecs_meets (hrest : rest.head? ≠ some (.production .classVarDec)) :
    (vss : List ClassVariables) → ∀ {bound n ns table},
    (written (vss.flatMap ClassVariables.lexemes)).length ≤ bound →
    Meets (declareClassVariables n vss table)
      ((classVarDecs className bound table).run
        ⟨⟨written (vss.flatMap ClassVariables.lexemes) ++ rest, n⟩, l, c, ns⟩)
      (Declared rest (n + (written (vss.flatMap ClassVariables.lexemes)).length) l c)
  | [], bound, n, ns, table, _ => by
    cases bound with
    | zero => exact ⟨rfl, ns, rfl⟩
    | succ bound =>
      refine .step (run_atProduction _) ?_
      rw [show (written ([].flatMap ClassVariables.lexemes) ++ rest).head? = rest.head? from rfl,
        decide_eq_false hrest]
      exact ⟨rfl, ns, rfl⟩
  | vs :: vss, bound, n, ns, table, h => by
    have hwritten : written ((vs :: vss).flatMap ClassVariables.lexemes) ++ rest =
        .production .classVarDec :: .token .keyword vs.kind.name :: (written vs.declared.lexemes ++
          (written (vss.flatMap ClassVariables.lexemes) ++ rest)) := by
      simp [ClassVariables.lexemes]
    have hlength : (written ((vs :: vss).flatMap ClassVariables.lexemes)).length =
        2 + vs.declared.size + (written (vss.flatMap ClassVariables.lexemes)).length := by
      simp [ClassVariables.lexemes, Variables.size]
      omega
    rw [hlength] at h
    cases bound with
    | zero => omega
    | succ bound =>
      rw [hwritten, hlength, ← Nat.add_assoc, ← Nat.add_assoc]
      refine .step (run_atProduction _) (.step (run_advance _)
        (.step (run_keyword (ClassVariables.ofClassKeyword? vs)) ?_))
      refine (declareTyped_meets vs.declared (by omega)).bind ?_
      rintro table _ _ ⟨rfl, ns', rfl⟩
      exact classVarDecs_meets hrest vss (by omega)

theorem varDecs_meets (hrest : rest.head? ≠ some (.production .varDec)) :
    (vss : List Variables) → ∀ {bound n ns table},
    (written (vss.flatMap localLexemes)).length ≤ bound →
    Meets (declareLocals n vss table)
      ((varDecs className bound table).run
        ⟨⟨written (vss.flatMap localLexemes) ++ rest, n⟩, l, c, ns⟩)
      (Declared rest (n + (written (vss.flatMap localLexemes)).length) l c)
  | [], bound, n, ns, table, _ => by
    cases bound with
    | zero => exact ⟨rfl, ns, rfl⟩
    | succ bound =>
      refine .step (run_atProduction _) ?_
      rw [show (written ([].flatMap localLexemes) ++ rest).head? = rest.head? from rfl,
        decide_eq_false hrest]
      exact ⟨rfl, ns, rfl⟩
  | vs :: vss, bound, n, ns, table, h => by
    have hwritten : written ((vs :: vss).flatMap localLexemes) ++ rest =
        .production .varDec :: .token .keyword "var" :: (written vs.lexemes ++
          (written (vss.flatMap localLexemes) ++ rest)) := by
      simp [localLexemes]
    have hlength : (written ((vs :: vss).flatMap localLexemes)).length =
        2 + vs.size + (written (vss.flatMap localLexemes)).length := by
      simp [localLexemes, Variables.size]
      omega
    rw [hlength] at h
    cases bound with
    | zero => omega
    | succ bound =>
      rw [hwritten, hlength, ← Nat.add_assoc, ← Nat.add_assoc]
      refine .step (run_atProduction _) (.step (run_advance _) (.step (run_word ..) ?_))
      refine (declareTyped_meets vs (by omega)).bind ?_
      rintro table _ _ ⟨rfl, ns', rfl⟩
      exact varDecs_meets hrest vss (by omega)

/-! ## Subroutines -/

theorem parameter_meets (className declaredType name : String) :
    Meets (declare .argument declaredType name (n + 1) table)
      ((parameters.parameter className table).run
        ⟨⟨written (parameterLexemes (declaredType, name)) ++ rest, n⟩, l, c, ns⟩)
      (Declared rest (n + 2) l c) :=
  .step (run_type _) (declareName_meets className name declaredType)

theorem parameters_meets (hrest : rest.head? ≠ some comma) :
    (p : String × String) → (more : List (String × String)) → ∀ {bound n ns table},
    (written (separated parameterLexemes (p :: more))).length ≤ bound + 2 →
    Meets (declareParameters n (p :: more) table)
      ((parameters className bound table).run
        ⟨⟨written (separated parameterLexemes (p :: more)) ++ rest, n⟩, l, c, ns⟩)
      (Declared rest (n + (written (separated parameterLexemes (p :: more))).length) l c)
  | (declaredType, name), [], bound, n, ns, table, _ => by
    have hwritten : written (separated parameterLexemes [(declaredType, name)]) ++ rest =
        written (parameterLexemes (declaredType, name)) ++ rest := by
      simp [separated]
    rw [hwritten]
    cases bound with
    | zero => exact (parameter_meets className declaredType name).map fun _ _ _ h => h
    | succ bound =>
      refine (parameter_meets className declaredType name).bind ?_
      rintro table _ _ ⟨rfl, ns', rfl⟩
      exact .step (run_accept_of_ne hrest) ⟨rfl, ns', rfl⟩
  | (declaredType, name), next :: more, bound, n, ns, table, h => by
    have hwritten : written (separated parameterLexemes ((declaredType, name) :: next :: more)) =
        written (parameterLexemes (declaredType, name)) ++ comma ::
          written (separated parameterLexemes (next :: more)) := by
      simp [separated, comma]
    have hlength :
        (written (separated parameterLexemes ((declaredType, name) :: next :: more))).length =
        2 + 1 + (written (separated parameterLexemes (next :: more))).length := by
      rw [hwritten]
      simp [parameterLexemes]
      omega
    rw [hlength] at h
    cases bound with
    | zero => omega
    | succ bound =>
      rw [hlength, hwritten, ← Nat.add_assoc, ← Nat.add_assoc, List.append_assoc]
      refine (parameter_meets className declaredType name).bind ?_
      rintro table _ _ ⟨rfl, ns', rfl⟩
      refine .step (run_accept_self _) ?_
      exact parameters_meets hrest next more (by omega)

/-- The receiver of a method, defined before any parameter. -/
def defineReceiver (className : String) (kind : SubroutineKind) (pos : Position) :
    Compiler SymbolTable :=
  if kind = .method then define className .empty "this" className .argument pos else pure .empty

theorem parameterList_eq (className : String) (kind : SubroutineKind) (bound : Nat) :
    parameterList className kind bound = (do
      marker .parameterList
      let table ← defineReceiver className kind (← position)
      if ← atSymbol ")" then pure table else parameters className bound table) := by
  cases kind <;> rfl

theorem defineReceiver_meets (className : String) (kind : SubroutineKind) :
    Meets (receiver className n kind)
      ((defineReceiver className kind (.ofIndex n)).run ⟨⟨rest, n⟩, l, c, ns⟩)
      (Declared rest n l c) := by
  unfold receiver defineReceiver
  by_cases h : kind = .method
  · rw [if_pos h, if_pos h]
    exact define_meets className "this" className n
  · rw [if_neg h, if_neg h]
    exact ⟨rfl, ns, rfl⟩

theorem parameterList_meets (className : String) (kind : SubroutineKind)
    (ps : List (String × String))
    (h : (written (separated parameterLexemes ps)).length ≤ bound) :
    Meets (do declareParameters (n + 1) ps (← receiver className (n + 1) kind))
      ((parameterList className kind bound).run
        ⟨⟨.production .parameterList ::
          (written (separated parameterLexemes ps) ++ .token .symbol ")" :: rest), n⟩, l, c, ns⟩)
      (Declared (.token .symbol ")" :: rest)
        (n + 1 + (written (separated parameterLexemes ps)).length) l c) := by
  rw [parameterList_eq]
  refine .step (run_marker _) (.step (run_position ..) ?_)
  refine (defineReceiver_meets className kind).bind ?_
  rintro table _ _ ⟨rfl, ns', rfl⟩
  refine .step (run_atSymbol _) ?_
  cases ps with
  | nil => exact ⟨rfl, ns', rfl⟩
  | cons p more =>
    -- A parameter begins with a type, which is no symbol.
    have hhead : (written (separated parameterLexemes (p :: more)) ++
        .token .symbol ")" :: rest).head? ≠ some (.token .symbol ")") := by
      rcases Lexeme.typeKind_eq p.1 with h | h <;> simp [separated, parameterLexemes, h]
    rw [decide_eq_false hhead]
    exact parameters_meets (by simp [comma]) p more (by omega)

theorem subroutineDec_meets (className : String) (classTable : SymbolTable) (s : Subroutine)
    (h : s.size ≤ bound + 1) :
    Meets (s.translate className classTable l n)
      ((subroutineDec className classTable bound).run
        ⟨⟨written s.lexemes ++ rest, n⟩, l, c, ns⟩)
      (fun r _ => EmittedCode rest (n + s.size) (l.skip (branchesIn s.body)) c r.code) := by
  have hwritten : written s.lexemes ++ rest =
      .production .subroutineDec :: .token .keyword s.signature.kind.keyword ::
        .token (Lexeme.typeKind s.signature.returnType) s.signature.returnType ::
        .token .identifier s.signature.name :: .token .symbol "(" :: .production .parameterList ::
        (written (separated parameterLexemes s.parameters) ++ .token .symbol ")" ::
          .production .subroutineBody :: .token .symbol openBrace ::
          (written (s.locals.flatMap localLexemes) ++ .production .statements ::
            (written (statementLexemes s.body) ++ .token .symbol closeBrace :: rest))) := by
    simp [Subroutine.lexemes]
  have hsize : s.size =
      6 + s.parametersSize + 3 + s.localsSize + 1 + statementsSize s.body + 1 := by
    simp [Subroutine.size, Subroutine.lexemes, Subroutine.parametersSize, Subroutine.localsSize,
      statementsSize]
    omega
  rw [hsize] at h
  rw [hwritten, hsize]
  refine .step (run_marker _) (.step (run_keyword (SubroutineKind.ofKeyword?_keyword _))
    (.step (run_type _) (.step (run_identifier _) (.step (run_word ..) ?_))))
  have hparameters : (written (separated parameterLexemes s.parameters)).length ≤ bound := by
    rw [← Subroutine.parametersSize]
    omega
  have hlocals : (written (s.locals.flatMap localLexemes)).length ≤ bound := by
    rw [← Subroutine.localsSize]
    omega
  -- The receiver and the parameters are declared together, as they are compiled together.
  simp only [Subroutine.translate, Subroutine.scope, bind_assoc, pure_bind]
  rw [← bind_assoc]
  refine (parameterList_meets className s.signature.kind s.parameters hparameters).bind ?_
  rintro table _ _ ⟨rfl, ns', rfl⟩
  refine .step (run_word ..) (.step (run_marker _) (.step (run_word ..) ?_))
  refine (varDecs_meets (by simp) s.locals hlocals).bind ?_
  rintro table _ _ ⟨rfl, ns', rfl⟩
  refine .step (run_note _) (.step (run_emit _) (.step (run_emitAll _) ?_))
  refine (statements_meets s.body (by omega)).bind ?_
  rintro cmds _ _ ⟨ns'', rfl⟩
  rw [run_word]
  refine ⟨ns'', ?_⟩
  rw [Vm.Code.extend_extend, Vm.Code.extend_extend, ← Vm.commandsCode_prologue,
    ← Vm.commandsCode_append]
  simp only [Nat.add_assoc]
  rfl

theorem subroutineDecs_meets (className : String) (classTable : SymbolTable) :
    (ss : List Subroutine) → ∀ {bound n l c ns},
    (written (ss.flatMap Subroutine.lexemes)).length ≤ bound →
    Meets (translateSubroutines className classTable l n ss)
      ((subroutineDecs className classTable bound).run
        ⟨⟨written (ss.flatMap Subroutine.lexemes) ++ .token .symbol closeBrace :: rest, n⟩,
          l, c, ns⟩)
      (fun rs _ => EmittedCode (.token .symbol closeBrace :: rest)
        (n + (written (ss.flatMap Subroutine.lexemes)).length) (l.skip (subroutinesBranches ss)) c
        (routinesCode rs))
  | [], bound, n, l, c, ns, _ => by
    have hrun : (subroutineDecs className classTable bound).run
        ⟨⟨.token .symbol closeBrace :: rest, n⟩, l, c, ns⟩ =
          .ok () ⟨⟨.token .symbol closeBrace :: rest, n⟩, l, c, ns⟩ := by
      cases bound <;> rfl
    have hwritten : written (List.flatMap Subroutine.lexemes []) ++
        Entry.token .symbol closeBrace :: rest = .token .symbol closeBrace :: rest := rfl
    rw [hwritten, hrun]
    exact ⟨ns, by rw [show routinesCode [] = [] from rfl, Vm.Code.extend_nil]; rfl⟩
  | s :: ss, bound, n, l, c, ns, h => by
    have hwritten :
        written ((s :: ss).flatMap Subroutine.lexemes) ++ .token .symbol closeBrace :: rest =
        written s.lexemes ++ (written (ss.flatMap Subroutine.lexemes) ++
          .token .symbol closeBrace :: rest) := by
      rw [List.flatMap_cons, written_append, List.append_assoc]
    have hlength : (written ((s :: ss).flatMap Subroutine.lexemes)).length =
        s.size + (written (ss.flatMap Subroutine.lexemes)).length := by
      rw [List.flatMap_cons, written_append, List.length_append]
      rfl
    have hhead (es : List Entry) :
        (written s.lexemes ++ es).head? = some (.production .subroutineDec) := by
      simp [Subroutine.lexemes]
    have hpos : 0 < s.size := by
      simp [Subroutine.size, Subroutine.lexemes]
    rw [hlength] at h
    cases bound with
    | zero => omega
    | succ bound =>
      rw [hwritten, hlength, subroutinesBranches, ← Nat.add_assoc, ← Vm.LabelSupply.skip_skip]
      refine .step (run_atProduction _) ?_
      rw [hhead, decide_eq_true rfl]
      refine (subroutineDec_meets className classTable s (by omega)).bind ?_
      rintro r _ _ ⟨ns', rfl⟩
      refine (subroutineDecs_meets className classTable ss (by omega)).map ?_
      rintro rs _ _ ⟨ns'', rfl⟩
      exact ⟨ns'', by rw [Vm.Code.extend_extend]; rfl⟩

/-! ## Classes -/

/-- The compiler of a class and its translation agree on the entries of the class. -/
theorem classDec_meets (cls : Grammar.Class) (h : (written cls.lexemes).length ≤ bound) :
    Meets (cls.translate l)
      ((classDec bound).run ⟨⟨written cls.lexemes, 0⟩, l, c, ns⟩)
      (fun rs name s => name = cls.name ∧
        EmittedCode [] (written cls.lexemes).length (l.skip cls.branches) c (routinesCode rs)
          s) := by
  have hwritten : written cls.lexemes =
      .production .classDec :: .token .keyword "class" :: .token .identifier cls.name ::
        .token .symbol openBrace :: (written (cls.declarations.flatMap ClassVariables.lexemes) ++
          (written (cls.subroutines.flatMap Subroutine.lexemes) ++
            [.token .symbol closeBrace])) := by
    simp [Grammar.Class.lexemes]
  have hlength : (written cls.lexemes).length = 4 + cls.variablesSize +
      (written (cls.subroutines.flatMap Subroutine.lexemes)).length + 1 := by
    rw [hwritten]
    simp [Grammar.Class.variablesSize]
    omega
  rw [hlength] at h
  rw [hlength, hwritten]
  refine .step (run_marker _) (.step (run_word ..) (.step (run_identifier _)
    (.step (run_note _) (.step (run_word ..) ?_))))
  -- What follows the variables is a subroutine or the closing brace, so their end is seen.
  have hsubroutines : (written (cls.subroutines.flatMap Subroutine.lexemes) ++
      [Entry.token .symbol closeBrace]).head? ≠ some (.production .classVarDec) := by
    cases cls.subroutines <;> simp [Subroutine.lexemes]
  have hvariables : (written (cls.declarations.flatMap ClassVariables.lexemes)).length ≤ bound := by
    rw [← Grammar.Class.variablesSize]
    omega
  refine (classVarDecs_meets hsubroutines cls.declarations hvariables).bind ?_
  rintro table _ _ ⟨rfl, ns', rfl⟩
  refine (subroutineDecs_meets cls.name _ cls.subroutines (by omega)).last ?_
  rintro rs _ _ ⟨ns'', rfl⟩
  exact .step (run_word ..) (.step run_current? ⟨rfl, ns'', rfl⟩)

end Jack.Compiler

namespace Jack

open Grammar

/-- The result of a class, given its routines. -/
def ClassCode.ofRoutines (name : String) (rs : List Vm.Routine) : ClassCode :=
  ⟨name, ⟨(routinesCode rs).toArray⟩⟩

theorem compileEntries_written (labels : Vm.LabelSupply) (c : Grammar.Class) :
    (compileEntries labels (written c.lexemes)).result =
      (c.translate labels).map (.ofRoutines c.name) := by
  have hmeets : Compiler.Meets (c.translate labels)
      ((Compiler.classDec (written c.lexemes).length).run
        { cursor := { rest := written c.lexemes }, labels }) _ :=
    Compiler.classDec_meets c (Nat.le_refl _)
  rcases hmeets.ok_or_error with ⟨rs, name, s, ht, hr, rfl, ns, rfl⟩ | ⟨f, s, ht, hr⟩
  · rw [compileEntries, hr, ht]
    simp only [Except.map, ClassCode.ofRoutines, Vm.Code.extend, Array.empty_append]
  · rw [compileEntries, hr, ht]
    rfl

end Jack
