import Jack.Proofs.Compiler.Soundness
import Jack.Proofs.Grammar.CallSites
import Jack.Proofs.Grammar.Layout
import Jack.Proofs.Grammar.Passing

/-!
# Calls and their arguments

The calls in the code of a tree that compiles are those that the tree writes, each with the number
of its arguments, and a parameter is read where the callers put its argument unless a name is
repeated before it.
-/

namespace Jack

open Grammar

/-- Whatever tree compiles, its calls are spelled among its entries, and its code makes them in
order, with as many arguments as there are expressions, and one more for a receiver. -/
theorem compile_calls {labels : Vm.LabelSupply} {root : Node} {options : Options}
    {unit : ClassCode} (h : (compile labels root options).result = .ok unit) :
    ∃ c rs, Spells (Grammar.Class.lexemes c) (options.entries root) ∧
      c.translate labels = .ok rs ∧
      unit.code.toList = routinesCode rs ∧
      (∀ s ∈ c.subroutines, ∀ callee arguments, .source callee arguments ∈ s.invocations →
        ∃ before part after, options.entries root = before ++ part ++ after ∧
          Spells (callLexemes callee arguments) part) ∧
      List.Forall₂ (MakesCalls c) c.subroutines rs := by
  rw [compile_eq] at h
  obtain ⟨c, rs, hspells, hrs, hunit, -⟩ := compileEntries_ok h
  refine ⟨c, rs, hspells, hrs, by rw [hunit]; rfl, ?_, ?_⟩
  · intro s hs callee arguments hmem
    exact hspells.of_infix (Class.infix_call hs hmem)
  · obtain ⟨table, htable, hrs⟩ := bind_eq_ok hrs
    apply (forall₂_translateSubroutines c.subroutines hrs).imp
    rintro s r ⟨labels', pos, hr⟩
    exact Subroutine.makesCalls (Class.lists_symbols htable) hr

/-- `class Main { function int f(int x) { return Main.f(x,); } }` -/
def lastCommaTree : Node :=
  let value (nodes : List Node) : Node := .production .expression [.production .term nodes]
  .production .classDec
    [.token .keyword "class", .token .identifier "Main", .token .symbol openBrace,
      .production .subroutineDec
        [.token .keyword "function", .token .keyword "int", .token .identifier "f",
          .token .symbol "(",
          .production .parameterList [.token .keyword "int", .token .identifier "x"],
          .token .symbol ")",
          .production .subroutineBody
            [.token .symbol openBrace,
              .production .statements
                [.production .returnStatement
                  [.token .keyword "return",
                    value
                      [.token .identifier "Main", .token .symbol ".", .token .identifier "f",
                        .token .symbol "(",
                        .production .expressionList
                          [value [.token .identifier "x"], .token .symbol ","],
                        .token .symbol ")"],
                    .token .symbol ";"]],
              .token .symbol closeBrace]],
      .token .symbol closeBrace]

def lastCommaUnit : ClassCode where
  className := "Main"
  code := ⟨#[.function "Main.f" 0, .push .argument 0, .call "Main.f" 1, .ret]⟩

theorem result_lastCommaTree :
    (compile (.sequential 0) lastCommaTree).result = .ok lastCommaUnit := by rfl

/-- After the only argument of a call comes a comma, and no other argument. -/
theorem compile_lastCommaTree :
    (compile (.sequential 0) lastCommaTree).result = .ok lastCommaUnit ∧
      ∃ before after, lastCommaTree.preorder =
        before ++ ([.token .symbol "(", .production .expressionList] ++
          written (Expression.lexemes (.mk (.variable "x") [])) ++
          [.token .symbol ",", .token .symbol ")"]) ++ after :=
  ⟨result_lastCommaTree, lastCommaTree.preorder.take 23, lastCommaTree.preorder.drop 30, by decide⟩

theorem compile_calls_lastCommaTree :
    (compile (.sequential 0) lastCommaTree).result = .ok lastCommaUnit ∧
      ∃ c rs, Spells (Grammar.Class.lexemes c) (({} : Options).entries lastCommaTree) ∧
        c.translate (.sequential 0) = .ok rs ∧ lastCommaUnit.code.toList = routinesCode rs ∧
        (∀ s ∈ c.subroutines, ∀ callee arguments, .source callee arguments ∈ s.invocations →
          ∃ before part after, ({} : Options).entries lastCommaTree = before ++ part ++ after ∧
            Spells (callLexemes callee arguments) part) ∧
        List.Forall₂ (MakesCalls c) c.subroutines rs :=
  ⟨result_lastCommaTree, compile_calls result_lastCommaTree⟩

/-- Whatever tree compiles, callers push the receiver and then the arguments in order, and every
use of a parameter goes to the argument that is numbered by the different names before it. -/
theorem compile_parameters {labels : Vm.LabelSupply} {root : Node} {options : Options}
    {unit : ClassCode} (h : (compile labels root options).result = .ok unit) :
    ∃ c rs, Spells (Grammar.Class.lexemes c) (options.entries root) ∧
      c.translate labels = .ok rs ∧
      unit.code.toList = routinesCode rs ∧
      List.Forall₂ (fun s r => SeatsParameters c s r ∧ MakesCalls c s r) c.subroutines rs := by
  rw [compile_eq] at h
  obtain ⟨c, rs, hspells, hrs, hunit, -⟩ := compileEntries_ok h
  refine ⟨c, rs, hspells, hrs, by rw [hunit]; rfl, ?_⟩
  obtain ⟨table, htable, hrs⟩ := bind_eq_ok hrs
  apply (forall₂_translateSubroutines c.subroutines hrs).imp
  rintro s r ⟨labels', pos, hr⟩
  have hclass := Class.lists_symbols htable
  exact ⟨Subroutine.seatsParameters hclass hr, Subroutine.makesCalls hclass hr⟩

/-- `function int f(int a, int a, int b) { return b; }` -/
def repeatedParameter : Subroutine where
  signature := ⟨.function, "int", "f"⟩
  parameters := [("int", "a"), ("int", "a"), ("int", "b")]
  locals := []
  body := [.returnValue (.mk (.variable "b") [])]

/-- The same, with `function int g() { return Main.f(1, 2, 3); }` in class `Main`. -/
def repeatedParameterClass : Grammar.Class where
  name := "Main"
  declarations := []
  subroutines := [repeatedParameter,
    { signature := ⟨.function, "int", "g"⟩
      parameters := []
      locals := []
      body := [.returnValue (.mk (.call (.qualified "Main" "f")
        [.mk (.integer "1") [], .mk (.integer "2") [], .mk (.integer "3") []]) [])] }]

def repeatedParameterUnit : ClassCode where
  className := "Main"
  code := ⟨#[.function "Main.f" 0, .push .argument 1, .ret, .function "Main.g" 0,
    .push .constant 1, .push .constant 2, .push .constant 3, .call "Main.f" 3, .ret]⟩

theorem exists_compile_repeatedParameter :
    ∃ root, (repeatedParameterClass.layout {}).finish = .ok root ∧
      (compile (.sequential 0) root).result = .ok repeatedParameterUnit := by
  obtain ⟨root, hroot, hentries⟩ := repeatedParameterClass.finish_layout (by decide)
  have hread : ({} : Options).entries root = written repeatedParameterClass.lexemes := by
    show root.preorder.map _ = _
    rw [hentries]
    decide
  refine ⟨root, hroot, ?_⟩
  rw [compile_eq, hread]
  rfl

/-- The third parameter, whose name is not repeated, is read from the second argument. -/
theorem symbol?_repeatedParameter :
    (∃ root, (repeatedParameterClass.layout {}).finish = .ok root ∧
      (compile (.sequential 0) root).result = .ok repeatedParameterUnit) ∧
      repeatedParameter ∈ repeatedParameterClass.subroutines ∧
      repeatedParameter.signature.kind = .function ∧
      repeatedParameter.parameters[2]? = some ("int", "b") ∧
      (repeatedParameter.parameters.map Prod.snd).count "b" = 1 ∧
      (repeatedParameterClass.symbol? repeatedParameter "b").map Symbol.slot =
        some ⟨.argument, 1⟩ :=
  ⟨exists_compile_repeatedParameter, List.mem_cons_self .., rfl, rfl, by decide, by decide⟩

theorem compile_parameters_repeatedParameter :
    ∃ root, (compile (.sequential 0) root).result = .ok repeatedParameterUnit ∧
      ∃ c rs, Spells (Grammar.Class.lexemes c) (({} : Options).entries root) ∧
        c.translate (.sequential 0) = .ok rs ∧
        repeatedParameterUnit.code.toList = routinesCode rs ∧
        List.Forall₂ (fun s r => SeatsParameters c s r ∧ MakesCalls c s r) c.subroutines rs := by
  obtain ⟨root, -, hcompile⟩ := exists_compile_repeatedParameter
  exact ⟨root, hcompile, compile_parameters hcompile⟩

end Jack
