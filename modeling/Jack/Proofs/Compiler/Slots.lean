import Jack.Proofs.Compiler.Soundness
import Jack.Proofs.Grammar.Variables

/-!
# Variables keep their slots

In the code of a tree that compiles, every use of a variable goes to the one slot of that variable.
-/

namespace Jack

open Grammar

/-- Whatever tree compiles, its code is that of one routine for each subroutine of the class that
the tree spells, and every routine keeps the slots of the variables. -/
theorem compile_slots {labels : Vm.LabelSupply} {root : Node} {options : Options}
    {unit : ClassCode} (h : (compile labels root options).result = .ok unit) :
    ∃ c rs, Spells (Grammar.Class.lexemes c) (options.entries root) ∧
      c.translate labels = .ok rs ∧
      unit.code.toList = routinesCode rs ∧
      List.Forall₂ (KeepsSlots c) c.subroutines rs := by
  rw [compile_eq] at h
  obtain ⟨c, rs, hspells, hrs, hunit, -⟩ := compileEntries_ok h
  refine ⟨c, rs, hspells, hrs, by rw [hunit]; rfl, ?_⟩
  obtain ⟨table, htable, hrs⟩ := bind_eq_ok hrs
  apply (forall₂_translateSubroutines c.subroutines hrs).imp
  rintro s r ⟨labels', pos, hr⟩
  exact Subroutine.keepsSlots (Class.lists_symbols htable) hr

/-- `class Pair { field int x, y; method int store(int x, int x) { var Array a; let a[x] = y;
return x; } }`, in which a parameter hides a field and is written twice. -/
def pairTree : Node :=
  let value (name : String) : Node :=
    .production .expression [.production .term [.token .identifier name]]
  .production .classDec
    [.token .keyword "class", .token .identifier "Pair", .token .symbol openBrace,
      .production .classVarDec
        [.token .keyword "field", .token .keyword "int", .token .identifier "x",
          .token .symbol ",", .token .identifier "y", .token .symbol ";"],
      .production .subroutineDec
        [.token .keyword "method", .token .keyword "int", .token .identifier "store",
          .token .symbol "(",
          .production .parameterList
            [.token .keyword "int", .token .identifier "x", .token .symbol ",",
              .token .keyword "int", .token .identifier "x"],
          .token .symbol ")",
          .production .subroutineBody
            [.token .symbol openBrace,
              .production .varDec
                [.token .keyword "var", .token .identifier "Array", .token .identifier "a",
                  .token .symbol ";"],
              .production .statements
                [.production .letStatement
                  [.token .keyword "let", .token .identifier "a", .token .symbol "[",
                    value "x", .token .symbol "]", .token .symbol "=", value "y",
                    .token .symbol ";"],
                .production .returnStatement
                  [.token .keyword "return", value "x", .token .symbol ";"]],
              .token .symbol closeBrace]],
      .token .symbol closeBrace]

def pairUnit : ClassCode where
  className := "Pair"
  code := ⟨#[.function "Pair.store" 1, .push .argument 0, .pop .pointer 0, .push .argument 1,
    .push .locals 0, .arithmetic .add, .push .this 1, .pop .temp 0, .pop .pointer 1,
    .push .temp 0, .pop .that 0, .push .argument 1, .ret]⟩

theorem compile_slots_pairTree :
    (compile (.sequential 0) pairTree).result = .ok pairUnit ∧
      ∃ c rs, Spells (Grammar.Class.lexemes c) (({} : Options).entries pairTree) ∧
        c.translate (.sequential 0) = .ok rs ∧ pairUnit.code.toList = routinesCode rs ∧
        List.Forall₂ (KeepsSlots c) c.subroutines rs := by
  have hcompile : (compile (.sequential 0) pairTree).result = .ok pairUnit := by rfl
  exact ⟨hcompile, compile_slots hcompile⟩

end Jack
