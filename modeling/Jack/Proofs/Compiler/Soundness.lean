import Jack.Proofs.Compiler.Soundness.Declaration
import Jack.Proofs.Compiler.Soundness.Statement

/-!
# A tree that compiles spells a class

Whatever entries the compiler accepts spell a class, which need not be the entries that the
analyzer would write. The code is that of the translation.
-/

namespace Jack.Compiler

open Grammar
open Vm (commandsCode Routine LabelSupply)

variable {scope : Scope} {es : List Entry} {l : LabelSupply} {bound : Nat} {className : String}

/-! ## Subroutines -/

def RoutineRead (className : String) (classTable : SymbolTable) (l : LabelSupply) : Reading Unit :=
  fun used k is _ => ∃ s r, Spells (Subroutine.lexemes s) used ∧ k = branchesIn s.body ∧
    Everywhere (s.translate className classTable l) r ∧ is = r.code

theorem statements_yields (hes : es.length ≤ bound + 1) :
    Yields (statements scope bound) es l fun used k is _ => ∃ body cmds,
      Spells (.marker .statements :: statementLexemes body) used ∧ k = branchesIn body ∧
      Everywhere (translateStatements scope l · body) cmds ∧ is = commandsCode cmds := by
  refine yields_marker (by decide) fun rest hrest => ?_
  subst hrest
  refine (statementList_yields scope bound rest l (Nat.le_of_succ_le_succ hes)).mono ?_
  rintro used _ _ _ ⟨body, cmds, hspells, rfl, hcmds, rfl⟩
  exact ⟨body, cmds, .entry rfl hspells, rfl, hcmds, rfl⟩

theorem subroutineDec_yields {classTable : SymbolTable} (hes : es.length ≤ bound + 1) :
    Yields (subroutineDec className classTable bound) es l
      (RoutineRead className classTable l) := by
  refine yields_marker (by decide) fun es₁ hes₁ => yields_keyword fun es₂ text kind hes₂ hkind => ?_
  obtain rfl := SubroutineKind.ofKeyword?_eq_some_iff.1 hkind
  refine yields_type fun e es₃ returnType hes₃ htype => yields_identifier fun es₄ name hes₄ => ?_
  refine yields_word (by decide) fun es₅ open' hes₅ => ?_
  subst hes₁ hes₂ hes₃ hes₄ hes₅
  simp only [List.length_cons] at hes
  refine parameterList_yields.bind ?_
  rintro used rest _ _ table rfl ⟨rfl, rfl, ps, table', hps, hreceiver, htable⟩
  rw [List.length_append] at hes
  refine yields_word (by decide) fun es₁ close hes₁ => yields_marker (by decide) fun es₂ hes₂ => ?_
  refine yields_word (by decide) fun es₃ brace hes₃ => ?_
  subst hes₁ hes₂ hes₃
  simp only [List.length_cons] at hes
  refine (varDecs_yields bound).bind ?_
  rintro used' rest' _ _ table'' rfl ⟨rfl, rfl, vss, hvss, hlocals⟩
  rw [List.length_append] at hes
  refine yields_note (yields_emit (yields_emitAll ((statements_yields (by omega)).bind ?_)))
  rintro used'' rest'' _ _ _ rfl ⟨body, cmds, hbody, rfl, hcmds, rfl⟩
  refine Yields.last (yields_word (by decide) fun rest₃ brace' _ => yields_pure ?_)
  -- The lexemes of the subroutine are put together from those of its parts.
  have hbody' : Spells (.marker .statements :: statementLexemes body ++ [.symbol closeBrace])
      (used'' ++ [.token brace' closeBrace]) := hbody.append (.singleton ⟨brace', rfl⟩)
  have hparameters : Spells (.symbol "(" :: (.marker .parameterList ::
      separated parameterLexemes ps)) (.token open' "(" :: used) := .entry ⟨open', rfl⟩ hps
  have hlocals' : Spells (.symbol ")" :: .marker .subroutineBody :: .symbol openBrace ::
      vss.flatMap localLexemes) _ := .entry ⟨close, rfl⟩ (.entry rfl (.entry ⟨brace, rfl⟩ hvss))
  have hall : Spells (.marker .subroutineDec :: .token .keyword kind.keyword :: .type returnType ::
      .token .identifier name :: _) _ :=
    .entry rfl (.entry rfl (.entry htype (.entry rfl
      (hparameters.append (hlocals'.append hbody')))))
  refine ⟨⟨⟨kind, returnType, name⟩, ps, vss, body⟩,
    ⟨Scope.qualify ⟨className, classTable, ⟨kind, returnType, name⟩, table''⟩ name,
      table''.count .localVar, Vm.prologue (classTable.count .field) kind ++ cmds⟩,
    ?_, ?_, fun pos => ?_, ?_⟩
  · simpa [Subroutine.lexemes] using hall
  · simp only [Nat.zero_add, Nat.add_zero]
  · have hbody : ∀ pos, translateStatements
        ⟨className, classTable, ⟨kind, returnType, name⟩, table''⟩ l pos body = .ok cmds := hcmds
    simp only [Subroutine.translate, Subroutine.scope, hreceiver _, htable _, hlocals _, bind,
      Except.bind, pure, Except.pure, hbody]
  · simp only [Routine.code, Vm.commandsCode_append, Vm.commandsCode_prologue, List.append_nil]
    rfl

theorem subroutineDecs_yields {classTable : SymbolTable} (bound : Nat) :
    ∀ {es l}, es.length ≤ bound → Yields (subroutineDecs className classTable bound) es l
      fun used k is _ => ∃ ss rs, Spells (ss.flatMap Subroutine.lexemes) used ∧
        k = subroutinesBranches ss ∧
        Everywhere (translateSubroutines className classTable l · ss) rs ∧
        is = routinesCode rs := by
  induction bound with
  | zero => exact fun {es l} _ => yields_pure ⟨[], [], rfl, rfl, fun _ => rfl, rfl⟩
  | succ bound ih =>
    intro es l hes
    refine (looks_atProduction .subroutineDec).then ?_
    split
    · refine (subroutineDec_yields hes).bind ?_
      rintro used rest _ _ _ rfl ⟨s, r, hspells, rfl, hr, rfl⟩
      have hpos : 0 < used.length := by
        obtain ⟨first, tail, rfl, rfl, -⟩ := hspells
        exact Nat.succ_pos _
      rw [List.length_append] at hes
      refine (ih (by omega)).mono ?_
      rintro used' _ _ _ ⟨ss, rs, hspells', rfl, hrs, rfl⟩
      refine ⟨s :: ss, r :: rs, hspells.append hspells', rfl, fun pos => ?_, rfl⟩
      simp only [translateSubroutines, hr _, hrs _]
      rfl
    · exact yields_pure ⟨[], [], rfl, rfl, fun _ => rfl, rfl⟩

theorem classDec_yields (hes : es.length ≤ bound) :
    Yields (classDec bound) es l fun used k is name => used = es ∧ ∃ c rs,
      Spells (Grammar.Class.lexemes c) es ∧ name = c.name ∧ k = c.branches ∧
      c.translate l = .ok rs ∧ is = routinesCode rs := by
  refine yields_marker (by decide) fun es₁ hes₁ => yields_word (by decide) fun es₂ kind hes₂ => ?_
  refine yields_identifier fun es₃ name hes₃ => yields_note ?_
  refine yields_word (by decide) fun es₄ brace hes₄ => ?_
  subst hes₁ hes₂ hes₃ hes₄
  simp only [List.length_cons] at hes
  refine (classVarDecs_yields bound).bind ?_
  rintro used rest _ _ table rfl ⟨rfl, rfl, vss, hvss, htable⟩
  rw [List.length_append] at hes
  refine (subroutineDecs_yields bound (by omega)).bind ?_
  rintro used' rest' _ _ _ rfl ⟨ss, rs, hss, rfl, hrs, rfl⟩
  -- After the last brace there must be no entry.
  refine yields_word (by decide) fun rest'' brace' hrest'' => looks_current?.then ?_
  cases rest'' with
  | cons e rest'' => exact yields_mismatch
  | nil =>
    subst hrest''
    refine yields_pure ⟨?_, ⟨name, vss, ss⟩, rs, ?_, rfl, ?_, ?_, ?_⟩
    · simp
    · have hall : Spells (.marker .classDec :: .keyword "class" :: .token .identifier name ::
          .symbol openBrace :: (vss.flatMap ClassVariables.lexemes ++
            (ss.flatMap Subroutine.lexemes ++ [.symbol closeBrace]))) _ :=
        .entry rfl (.entry ⟨kind, rfl⟩ (.entry rfl (.entry ⟨brace, rfl⟩
          (hvss.append (hss.append (.singleton ⟨brace', rfl⟩))))))
      simpa [Grammar.Class.lexemes] using hall
    · simp only [Grammar.Class.branches, Nat.zero_add, Nat.add_zero]
    · have hss' : ∀ pos, translateSubroutines name table l pos ss = .ok rs := hrs
      simp only [Grammar.Class.translate, htable _, bind, Except.bind, hss']
    · simp only [List.nil_append, List.append_nil]

end Jack.Compiler

namespace Jack

open Grammar

/-- The entries of a tree as a compilation reads them. -/
def Options.entries (options : Options) (root : Node) : List Entry :=
  if options.unpad then root.preorder.map (Entry.mapText Jack.unpad) else root.preorder

theorem compile_eq (labels : Vm.LabelSupply) (root : Node) (options : Options) :
    compile labels root options = compileEntries labels (options.entries root) := rfl

/-- Entries that compile spell a class, whose translation is the code. -/
theorem compileEntries_ok {labels : Vm.LabelSupply} {entries : List Entry} {unit : ClassCode}
    (h : (compileEntries labels entries).result = .ok unit) :
    ∃ c rs, Spells (Grammar.Class.lexemes c) entries ∧ c.translate labels = .ok rs ∧
      unit = .ofRoutines c.name rs ∧
      (compileEntries labels entries).labels = labels.skip c.branches := by
  obtain ⟨name, s, hrun, rfl, hlabels⟩ := exists_run_of_compileEntries h
  obtain ⟨used, rest, k, is, ns, -, rfl, -, c, rs, hspells, rfl, rfl, ht, rfl⟩ :=
    (Compiler.classDec_yields (Nat.le_refl _)).ok hrun
  refine ⟨c, rs, hspells, ht, ?_, hlabels⟩
  simp only [ClassCode.ofRoutines, Vm.Code.extend, Array.empty_append]

/-- Whatever tree compiles, its entries spell a class from the first to the last, and its code is
the translation of that class. -/
theorem compile_spells {labels : Vm.LabelSupply} {root : Node} {options : Options}
    {unit : ClassCode} (h : (compile labels root options).result = .ok unit) :
    ∃ c rs, Spells (Grammar.Class.lexemes c) (options.entries root) ∧
      c.translate labels = .ok rs ∧
      unit.className = c.name ∧
      unit.code.toList = routinesCode rs := by
  rw [compile_eq] at h
  obtain ⟨c, rs, hspells, hrs, hunit, -⟩ := compileEntries_ok h
  have hname : unit.className = c.name := by rw [hunit]; rfl
  have hcode : unit.code.toList = routinesCode rs := by rw [hunit]; rfl
  exact ⟨c, rs, hspells, hrs, hname, hcode⟩

/-- `class Main { function void run() { do Main.run(6,); do 7; } }` as no analyzer writes it: some
fixed words are tokens of another kind, an argument is followed by a comma, and the first statement
holds all that comes after it. -/
def looseTree : Node :=
  let number (text : String) : Node :=
    .production .expression [.production .term [.token .integerConstant text]]
  .production .classDec
    [.token .stringConstant "class", .token .identifier "Main", .token .symbol openBrace,
      .production .subroutineDec
        [.token .keyword "function", .token .keyword "void", .token .identifier "run",
          .token .symbol "(", .production .parameterList [], .token .symbol ")",
          .production .subroutineBody
            [.token .integerConstant openBrace,
              .production .statements
                [.production .doStatement
                  [.token .identifier "do", .token .identifier "Main", .token .symbol ".",
                    .token .identifier "run", .token .symbol "(",
                    .production .expressionList [number "6", .token .symbol ","],
                    .token .symbol ")", .token .symbol ";",
                    .production .doStatement
                      [.token .keyword "do", number "7", .token .symbol ";",
                        .token .symbol closeBrace, .token .symbol closeBrace]]]]]]

def looseUnit : ClassCode where
  className := "Main"
  code := ⟨#[.function "Main.run" 0, .push .constant 6, .call "Main.run" 1, .pop .temp 0,
    .push .constant 7, .pop .temp 0]⟩

theorem compile_spells_looseTree :
    (compile (.sequential 0) looseTree).result = .ok looseUnit ∧
      ∃ c rs, Spells (Grammar.Class.lexemes c) (({} : Options).entries looseTree) ∧
        c.translate (.sequential 0) = .ok rs ∧ looseUnit.className = c.name ∧
        looseUnit.code.toList = routinesCode rs := by
  have hcompile : (compile (.sequential 0) looseTree).result = .ok looseUnit := by rfl
  exact ⟨hcompile, compile_spells hcompile⟩

end Jack
