import Jack.Proofs.Compiler.ClassCode
import Jack.Proofs.Compiler.Soundness
import Jack.Proofs.Grammar.Variables
import Jack.Proofs.Vm.Label

/-!
# Constants in the code

Every constant of the statements is checked before it is pushed. A constructor pushes the number of
fields unchecked, so a class may have more fields than the machine can count.
-/

namespace Jack.Grammar

open Vm

/-- Constants above the limit come from the prologue of a constructor. -/
theorem Subroutine.constants {c : Class} {classTable : SymbolTable} {labels : LabelSupply}
    {pos : Nat} {s : Subroutine} {r : Routine} (hclass : classTable.Lists c.symbols)
    (h : s.translate c.name classTable labels pos = .ok r) {n : Nat} (hn : maxConstant < n) :
    .push .constant n ∈ r.code ↔
      n = symbolCount c.symbols .field ∧ s.signature.kind = .constructor := by
  obtain ⟨scope, cmds, pos', -, hcmds, rfl⟩ := Subroutine.translate_scope h
  have hbody : .push .constant n ∉ commandsCode cmds := by
    intro hmem
    have hle := (reaches_translateStatements s.body hcmds).constant_le hmem
    omega
  rw [Routine.code, commandsCode_append, commandsCode_prologue, hclass.count]
  cases s.signature.kind <;> simp [SubroutineKind.prologue, hbody]

theorem routines_constants {c : Class} {classTable : SymbolTable}
    (hclass : classTable.Lists c.symbols) {ss : List Subroutine} {rs : List Routine}
    (h : List.Forall₂ (fun s r => ∃ labels pos,
      Subroutine.translate c.name classTable labels pos s = .ok r) ss rs)
    {n : Nat} (hn : maxConstant < n) :
    .push .constant n ∈ routinesCode rs ↔
      n = symbolCount c.symbols .field ∧ ∃ s ∈ ss, s.signature.kind = .constructor := by
  induction h with
  | nil => simp [routinesCode]
  | @cons s r ss rs hr _ ih =>
    obtain ⟨labels, pos, hr⟩ := hr
    rw [routinesCode, List.flatMap_cons, List.mem_append, Subroutine.constants hclass hr hn]
    show _ ∨ .push .constant n ∈ routinesCode rs ↔ _
    rw [ih]
    simp only [List.mem_cons, exists_eq_or_imp, ← and_or_left]

/-! ## Classes with many fields -/

section

variable {kind : Storage} {table : SymbolTable} {symbols : List Symbol}

theorem exists_declare (hlists : table.Lists symbols)
    (hroom : symbolCount symbols kind < slotLimit) (declaredType name : String) (pos : Nat) :
    ∃ table', declare kind declaredType name pos table = .ok table' := by
  unfold declare
  split
  · exact ⟨_, rfl⟩
  · exact ⟨_, rfl⟩
  · next hfull =>
    have hcount := (SymbolTable.define_eq_full_iff.1 hfull).2
    rw [hlists.count] at hcount
    omega

/-- Names can be declared as long as there are slots left. -/
theorem exists_declareNames (declaredType : String) (names : List String) :
    ∀ {table symbols}, SymbolTable.Lists table symbols →
    symbolCount symbols kind + names.length ≤ slotLimit → ∀ pos,
    ∃ table', declareNames kind declaredType pos names table = .ok table' := by
  induction names with
  | nil => exact fun _ _ _ => ⟨_, rfl⟩
  | cons name names ih =>
    intro table symbols hlists hroom pos
    rw [List.length_cons] at hroom
    obtain ⟨table₁, h₁⟩ := exists_declare hlists (show symbolCount symbols kind < _ by omega)
      declaredType name pos
    have hcount := symbolCount_addSymbol_le symbols ⟨name, declaredType, kind⟩ kind
    obtain ⟨table', h⟩ := ih (lists_declare hlists h₁) (by omega) (pos + 2)
    exact ⟨table', by rw [declareNames, h₁]; exact h⟩

end

def fieldName (i : Nat) : String := "f" ++ i.repr

/-- `class Wide { field int f0, f1, ...; constructor Wide new() { return this; } }` with one field
more than the given number. -/
def wideClass (n : Nat) : Class where
  name := "Wide"
  declarations := [⟨.field, rfl, ⟨"int", fieldName 0, (List.range' 1 n).map fieldName⟩⟩]
  subroutines :=
    [⟨⟨.constructor, "Wide", "new"⟩, [], [], [.returnValue (.mk (.constant .this) [])]⟩]

theorem names_wideClass (n : Nat) :
    (wideClass n).variables = (List.range' 0 (n + 1)).map (⟨fieldName ·, "int", .field⟩) := by
  show (fieldName 0 :: (List.range' 1 n).map fieldName).map _ ++ [] = _
  rw [List.append_nil, List.range'_succ, List.map_cons, List.map_cons, List.map_map]
  rfl

theorem symbolCount_wideClass (n : Nat) : symbolCount (wideClass n).symbols .field = n + 1 := by
  have hnodup : ((wideClass n).variables.map Declaration.name).Nodup := by
    rw [names_wideClass, List.map_map]
    apply List.Nodup.map _ List.nodup_range'
    intro i j hij
    exact repr_injective ((String.append_right_inj "f").1 hij)
  rw [Class.symbols, symbolCount_symbolsOf hnodup, names_wideClass]
  simp [List.countP_map, Function.comp_def]

theorem translate_wideClass {n : Nat} (hn : n < slotLimit) (labels : LabelSupply) :
    (wideClass n).translate labels =
      .ok [⟨"Wide.new", 0, prologue (n + 1) .constructor ++
        [.leave (some (.push .pointer 0))]⟩] := by
  have hroom : symbolCount [] .field + (fieldName 0 :: (List.range' 1 n).map fieldName).length ≤
      slotLimit := by
    simp [symbolCount]
    omega
  obtain ⟨table, htable⟩ := exists_declareNames "int" _ SymbolTable.Lists.empty hroom 7
  have hclass : declareClassVariables 4 (wideClass n).declarations .empty = .ok table := by
    show (declareNames .field "int" 7 (fieldName 0 :: (List.range' 1 n).map fieldName) .empty >>=
      fun table => .ok table) = _
    rw [htable]
    rfl
  have hcount : table.count .field = n + 1 := by
    rw [(Class.lists_symbols hclass).count, symbolCount_wideClass]
  rw [Class.translate, hclass, ← hcount]
  rfl

theorem mem_written_names {names : List String} {e : Entry}
    (h : e ∈ written (separated nameLexemes names)) :
    e = .token .symbol "," ∨ ∃ name ∈ names, e = .token .identifier name := by
  cases names with
  | nil => cases h
  | cons name names =>
    simp only [separated, nameLexemes, written, List.flatMap_assoc,
      List.flatMap_cons, List.flatMap_nil, Lexeme.entries, List.append_nil, List.cons_append,
      List.nil_append, List.mem_cons, List.not_mem_nil, or_false, List.mem_flatMap] at h
    rcases h with rfl | ⟨name', hname', rfl | rfl⟩
    · exact .inr ⟨name, List.mem_cons_self .., rfl⟩
    · exact .inl rfl
    · exact .inr ⟨name', List.mem_cons_of_mem _ hname', rfl⟩

theorem unpad_fieldName (i : Nat) : unpad (fieldName i) = fieldName i := by
  have hlist : (fieldName i).toList = 'f' :: i.repr.toList := by
    rw [fieldName, String.toList_append]
    rfl
  rw [unpad, hlist]
  rfl

theorem unpad_wideClass (n : Nat) : ∀ e ∈ written (wideClass n).lexemes, unpad e.text = e.text := by
  let head : List Lexeme := [.marker .classDec, .keyword "class", .token .identifier "Wide",
    .symbol openBrace, .marker .classVarDec, .token .keyword "field", .type "int"]
  let tail : List Lexeme :=
    .symbol ";" :: ((wideClass 0).subroutines.flatMap Subroutine.lexemes ++ [.symbol closeBrace])
  have hlexemes : (wideClass n).lexemes =
      head ++ (separated nameLexemes (fieldName 0 :: (List.range' 1 n).map fieldName) ++ tail) := by
    simp [head, tail, wideClass, Class.lexemes, ClassVariables.lexemes, Variables.lexemes,
      Variables.names, Storage.name]
  have hhead : ∀ e ∈ written head, unpad e.text = e.text := by decide
  have htail : ∀ e ∈ written tail, unpad e.text = e.text := by decide
  intro e he
  rw [hlexemes, written_append, written_append] at he
  rcases List.mem_append.1 he with he | he
  · exact hhead e he
  · rcases List.mem_append.1 he with he | he
    · rcases mem_written_names he with rfl | ⟨name, hname, rfl⟩
      · decide
      · rw [← List.map_cons] at hname
        obtain ⟨i, -, rfl⟩ := List.mem_map.1 hname
        exact unpad_fieldName i
    · exact htail e he

end Jack.Grammar

namespace Jack

open Grammar

/-- In the code of a tree that compiles, a constant that the machine cannot push is the number of
fields, pushed by a constructor. -/
theorem compile_constants {labels : Vm.LabelSupply} {root : Node} {options : Options}
    {unit : ClassCode} (h : (compile labels root options).result = .ok unit) :
    ∃ c, Spells (Grammar.Class.lexemes c) (options.entries root) ∧
      ∀ n > maxConstant, .push .constant n ∈ unit.code.toList ↔
        n = symbolCount c.symbols .field ∧
          ∃ s ∈ c.subroutines, s.signature.kind = .constructor := by
  rw [compile_eq] at h
  obtain ⟨c, rs, hspells, hrs, hunit, -⟩ := compileEntries_ok h
  have hcode : unit.code.toList = routinesCode rs := by rw [hunit]; rfl
  obtain ⟨table, htable, hrs⟩ := bind_eq_ok hrs
  refine ⟨c, hspells, fun n hn => ?_⟩
  rw [hcode]
  exact routines_constants (Class.lists_symbols htable)
    (forall₂_translateSubroutines c.subroutines hrs) hn

/-- The class may have as many fields as there are slots. -/
theorem exists_compile_wideClass {n : Nat} (hn : n < slotLimit) (labels : Vm.LabelSupply) :
    ∃ root, ((wideClass n).layout {}).finish = .ok root ∧
      (compile labels root).result = .ok (.ofRoutines "Wide"
        [⟨"Wide.new", 0, Vm.prologue (n + 1) .constructor ++
          [.leave (some (.push .pointer 0))]⟩]) := by
  obtain ⟨root, hroot, hentries⟩ := (wideClass n).finish_layout nofun
  have hread : ({} : Options).entries root = written (wideClass n).lexemes := by
    show root.preorder.map _ = _
    rw [hentries, map_mapText_unpad (unpad_wideClass n)]
  refine ⟨root, hroot, ?_⟩
  rw [compile_eq, hread, compileEntries_written, translate_wideClass hn]
  rfl

/-- With one field more than the greatest constant, what a constructor pushes is no constant of the
machine. -/
theorem push_fields_wideClass :
    ∃ root unit, ((wideClass maxConstant).layout {}).finish = .ok root ∧
      (compile (.sequential 0) root).result = .ok unit ∧
      .push .constant 32768 ∈ unit.code.toList ∧ maxConstant < 32768 := by
  obtain ⟨root, hroot, hcompile⟩ := exists_compile_wideClass (n := maxConstant) (by decide)
    (.sequential 0)
  refine ⟨root, _, hroot, hcompile, ?_, by decide⟩
  show _ ∈ routinesCode _
  simp [routinesCode, Vm.Routine.code, Vm.prologue, Vm.commandsCode, Vm.Command.code,
    Vm.Operand.code, Vm.operandsCode, maxConstant]

theorem compile_constants_wideClass :
    ∃ root unit, (compile (.sequential 0) root).result = .ok unit ∧
      ∃ c, Spells (Grammar.Class.lexemes c) (({} : Options).entries root) ∧
        ∀ n > maxConstant, .push .constant n ∈ unit.code.toList ↔
          n = symbolCount c.symbols .field ∧
            ∃ s ∈ c.subroutines, s.signature.kind = .constructor := by
  obtain ⟨root, -, hcompile⟩ := exists_compile_wideClass (n := maxConstant) (by decide)
    (.sequential 0)
  exact ⟨root, _, hcompile, compile_constants hcompile⟩

end Jack
