import Jack.Proofs.Compiler.Declaration
import Jack.Proofs.Compiler.Soundness.Expression

/-!
# Declarations that compile

Whatever entries are accepted as declarations spell declarations, and the table is the one that they
fill.
-/

namespace Jack.Compiler

open Grammar
open Vm (LabelSupply)

variable {es : List Entry} {l : LabelSupply} {bound : Nat}
  {className declaredType : String} {kind : Storage} {table : SymbolTable}

/-- Declarations take no id and leave no code. -/
def DeclarationsRead (P : List Entry → SymbolTable → Prop) : Reading SymbolTable :=
  fun used k is table => k = 0 ∧ is = [] ∧ P used table

theorem define_yields {name : String} {pos : Position} :
    Yields (define className table name declaredType kind pos) es l
      (DeclarationsRead fun used table' =>
        used = [] ∧ Everywhere (declare kind declaredType name · table) table') := by
  unfold define declare
  cases table.define name declaredType kind with
  | ok table => exact yields_pure ⟨rfl, rfl, rfl, fun _ => rfl⟩
  | error refusal =>
    cases refusal with
    | duplicate => exact yields_note (yields_pure ⟨rfl, rfl, rfl, fun _ => rfl⟩)
    | full => exact yields_throw

theorem declareName_yields :
    Yields (declareName className kind declaredType table) es l
      (DeclarationsRead fun used table' => ∃ name, used = [.token .identifier name] ∧
        Everywhere (declare kind declaredType name · table) table') := by
  refine yields_position fun pos => yields_identifier fun rest name _ => ?_
  refine define_yields.mono ?_
  rintro _ _ _ table' ⟨rfl, rfl, rfl, htable⟩
  exact ⟨rfl, rfl, name, rfl, htable⟩

theorem separated_cons_cons {α : Type} (item : α → List Lexeme) (x y : α) (rest : List α) :
    separated item (x :: y :: rest) = item x ++ .symbol "," :: separated item (y :: rest) := rfl

theorem declareNames_yields (bound : Nat) : ∀ {table es},
    Yields (declareNames className kind declaredType bound table) es l
      (DeclarationsRead fun used table' => ∃ name more,
        Spells (separated nameLexemes (name :: more)) used ∧
        Everywhere (Grammar.declareNames kind declaredType · (name :: more) table) table') := by
  induction bound with
  | zero =>
    intro table es
    refine declareName_yields.mono ?_
    rintro _ _ _ table' ⟨rfl, rfl, name, rfl, htable⟩
    refine ⟨rfl, rfl, name, [], .entry rfl rfl, fun pos => ?_⟩
    simp only [Grammar.declareNames, htable _]
    rfl
  | succ bound ih =>
    intro table es
    refine declareName_yields.bind ?_
    rintro _ rest _ _ table' rfl ⟨rfl, rfl, name, rfl, htable⟩
    refine yields_accept (fun rest' _ => ih.mono ?_) (yields_pure ?_)
    · rintro used _ _ table'' ⟨rfl, rfl, next, more, hspells, htable'⟩
      refine ⟨rfl, rfl, name, next :: more, ?_, fun pos => ?_⟩
      · rw [separated_cons_cons]
        exact .entry rfl (.entry ⟨.symbol, rfl⟩ hspells)
      · simp only [Grammar.declareNames, htable _]
        exact htable' _
    · refine ⟨rfl, rfl, name, [], .entry rfl rfl, fun pos => ?_⟩
      simp only [Grammar.declareNames, htable _]
      rfl

theorem declareTyped_yields :
    Yields (declareTyped className kind bound table) es l
      (DeclarationsRead fun used table' => ∃ vs : Variables, Spells vs.lexemes used ∧
        Everywhere (vs.declare kind · table) table') := by
  refine yields_type fun e rest declaredType _ htype => ?_
  refine (declareNames_yields bound).bind ?_
  rintro used rest' _ _ table' rfl ⟨rfl, rfl, name, more, hspells, htable⟩
  refine yields_word (by decide) fun rest'' kind' _ => yields_pure ?_
  refine ⟨rfl, rfl, ⟨declaredType, name, more⟩, ?_, fun pos => htable _⟩
  exact .entry htype (hspells.append (.singleton ⟨kind', rfl⟩))

theorem classVarDecs_yields (bound : Nat) : ∀ {table es},
    Yields (classVarDecs className bound table) es l
      (DeclarationsRead fun used table' => ∃ vss,
        Spells (vss.flatMap ClassVariables.lexemes) used ∧
        Everywhere (declareClassVariables · vss table) table') := by
  induction bound with
  | zero => exact fun {table es} => yields_pure ⟨rfl, rfl, [], rfl, fun _ => rfl⟩
  | succ bound ih =>
    intro table es
    refine (looks_atProduction .classVarDec).then ?_
    split
    · next hhead =>
      obtain ⟨rest, rfl⟩ := List.head?_eq_some_iff.1 (of_decide_eq_true hhead)
      refine yields_advance (by decide) (yields_keyword fun rest' text kind _ hkind => ?_)
      obtain ⟨hlevel, rfl⟩ := Storage.ofClassKeyword?_eq_some_iff.1 hkind
      refine declareTyped_yields.bind ?_
      rintro used rest'' _ _ table' rfl ⟨rfl, rfl, vs, hspells, htable⟩
      refine ih.mono ?_
      rintro used' _ _ table'' ⟨rfl, rfl, vss, hspells', htable'⟩
      refine ⟨rfl, rfl, ⟨kind, hlevel, vs⟩ :: vss, ?_, fun pos => ?_⟩
      · exact .entry rfl (.entry rfl (hspells.append hspells'))
      · simp only [declareClassVariables, htable _]
        exact htable' _
    · exact yields_pure ⟨rfl, rfl, [], rfl, fun _ => rfl⟩

theorem varDecs_yields (bound : Nat) : ∀ {table es},
    Yields (varDecs className bound table) es l
      (DeclarationsRead fun used table' => ∃ vss, Spells (vss.flatMap localLexemes) used ∧
        Everywhere (declareLocals · vss table) table') := by
  induction bound with
  | zero => exact fun {table es} => yields_pure ⟨rfl, rfl, [], rfl, fun _ => rfl⟩
  | succ bound ih =>
    intro table es
    refine (looks_atProduction .varDec).then ?_
    split
    · next hhead =>
      obtain ⟨rest, rfl⟩ := List.head?_eq_some_iff.1 (of_decide_eq_true hhead)
      refine yields_advance (by decide) (yields_word (by decide) fun rest' kind _ => ?_)
      refine declareTyped_yields.bind ?_
      rintro used rest'' _ _ table' rfl ⟨rfl, rfl, vs, hspells, htable⟩
      refine ih.mono ?_
      rintro used' _ _ table'' ⟨rfl, rfl, vss, hspells', htable'⟩
      refine ⟨rfl, rfl, vs :: vss, ?_, fun pos => ?_⟩
      · exact .entry rfl (.entry ⟨kind, rfl⟩ (hspells.append hspells'))
      · simp only [declareLocals, htable _]
        exact htable' _
    · exact yields_pure ⟨rfl, rfl, [], rfl, fun _ => rfl⟩

theorem parameter_yields :
    Yields (parameters.parameter className table) es l
      (DeclarationsRead fun used table' => ∃ p : String × String,
        Spells (parameterLexemes p) used ∧
        Everywhere (declare .argument p.1 p.2 · table) table') := by
  refine yields_type fun e rest declaredType _ htype => declareName_yields.mono ?_
  rintro _ _ _ table' ⟨rfl, rfl, name, rfl, htable⟩
  exact ⟨rfl, rfl, (declaredType, name), .entry htype (.entry rfl rfl), htable⟩

theorem parameters_yields (bound : Nat) : ∀ {table es},
    Yields (parameters className bound table) es l
      (DeclarationsRead fun used table' => ∃ p more,
        Spells (separated parameterLexemes (p :: more)) used ∧
        Everywhere (declareParameters · (p :: more) table) table') := by
  induction bound with
  | zero =>
    intro table es
    refine parameter_yields.mono ?_
    rintro used _ _ table' ⟨rfl, rfl, p, hp, htable⟩
    refine ⟨rfl, rfl, p, [], ?_, fun pos => ?_⟩
    · rw [separated, List.flatMap_nil, List.append_nil]
      exact hp
    · simp only [declareParameters, htable _]
      rfl
  | succ bound ih =>
    intro table es
    refine parameter_yields.bind ?_
    rintro used rest _ _ table' rfl ⟨rfl, rfl, p, hp, htable⟩
    refine yields_accept (fun rest' _ => ih.mono ?_) (yields_pure ?_)
    · rintro used' _ _ table'' ⟨rfl, rfl, next, more, hspells, htable'⟩
      refine ⟨rfl, rfl, p, next :: more, ?_, fun pos => ?_⟩
      · rw [separated_cons_cons]
        exact hp.append (.entry ⟨.symbol, rfl⟩ hspells)
      · simp only [declareParameters, htable _]
        exact htable' _
    · refine ⟨rfl, rfl, p, [], ?_, fun pos => ?_⟩
      · rw [separated, List.flatMap_nil]
        exact hp.append rfl
      · simp only [declareParameters, htable _]
        rfl

theorem defineReceiver_yields {kind : SubroutineKind} {pos : Position} :
    Yields (defineReceiver className kind pos) es l
      (DeclarationsRead fun used table =>
        used = [] ∧ Everywhere (receiver className · kind) table) := by
  unfold defineReceiver receiver
  by_cases h : kind = .method
  · simp only [h, if_true]
    exact define_yields
  · simp only [h, if_false]
    exact yields_pure ⟨rfl, rfl, rfl, fun _ => rfl⟩

theorem parameterList_yields {kind : SubroutineKind} :
    Yields (parameterList className kind bound) es l
      (DeclarationsRead fun used table' => ∃ ps table,
        Spells (.marker .parameterList :: separated parameterLexemes ps) used ∧
        Everywhere (receiver className · kind) table ∧
        Everywhere (declareParameters · ps table) table') := by
  rw [parameterList_eq]
  refine yields_marker (by decide) fun rest _ => yields_position fun pos => ?_
  refine defineReceiver_yields.bind ?_
  rintro _ rest' _ _ table rfl ⟨rfl, rfl, rfl, htable⟩
  refine (looks_atSymbol ")").then ?_
  split
  · exact yields_pure ⟨rfl, rfl, [], table, .entry rfl rfl, htable, fun _ => rfl⟩
  · refine (parameters_yields bound).mono ?_
    rintro used _ _ table' ⟨rfl, rfl, p, more, hspells, htable'⟩
    exact ⟨rfl, rfl, p :: more, table, .entry rfl hspells, htable, htable'⟩

end Jack.Compiler
