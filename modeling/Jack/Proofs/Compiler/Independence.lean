import Jack.Proofs.Compiler.Routines
import Jack.Proofs.Grammar.Layout

/-!
# Subroutines compile independently

A class compiles exactly if each of its subroutines does when it is the only one, and then its code
is that of these classes in order. The ids go on from one subroutine to the next, and apart from them
a subroutine does not depend on the others.
-/

namespace Jack

open Grammar
open Compiler
open Vm (Instruction LabelSupply CodeRelabelled)

/-! ## Blocks of entries -/

variable {name : String} {table : SymbolTable} {labels : LabelSupply} {is : List Instruction}
  {blocks : List (List Entry)}

theorem head?_flatten (hblocks : ∀ block ∈ blocks, block.head? = some routineMarker)
    (hne : blocks ≠ []) : blocks.flatten.head? = some routineMarker := by
  obtain ⟨block, rest, rfl⟩ := List.exists_cons_of_ne_nil hne
  rw [List.flatten_cons, List.head?_append, hblocks block (List.mem_cons_self ..)]
  rfl

/-- The ids that are taken by the blocks before one. -/
def takenBefore (blocks : List (List Entry)) (k : Nat) : Nat :=
  branchCount (blocks.take k).flatten

theorem takenBefore_cons_succ (block : List Entry) (k : Nat) :
    takenBefore (block :: blocks) (k + 1) = branchCount block + takenBefore blocks k := by
  rw [takenBefore, List.take_succ_cons, List.flatten_cons, branchCount_append, takenBefore]

theorem skip_takenBefore_cons (block : List Entry) (k : Nat) :
    labels.skip (takenBefore (block :: blocks) (k + 1)) =
      (labels.skip (branchCount block)).skip (takenBefore blocks k) := by
  rw [LabelSupply.skip_skip, takenBefore_cons_succ]

theorem Compiler.Routines.parts (hblocks : ∀ block ∈ blocks, block.head? = some routineMarker) :
    ∀ {labels is}, Routines name table labels blocks.flatten is →
      ∃ parts : List (List Instruction), parts.length = blocks.length ∧ is = parts.flatten ∧
        ∀ k block part, blocks[k]? = some block → parts[k]? = some part →
          Routines name table (labels.skip (takenBefore blocks k)) block part := by
  induction blocks with
  | nil =>
    intro labels is h
    generalize hnone : [].flatten = es at h
    cases h with
    | nil => exact ⟨[], rfl, rfl, nofun⟩
    | cons hroutine _ =>
      obtain ⟨tail, rfl, -⟩ := hroutine.isRoutine
      cases hnone
  | cons block rest ih =>
    intro labels is h
    have hrest : ∀ block ∈ rest, block.head? = some routineMarker :=
      fun block' hmem => hblocks block' (List.mem_cons_of_mem _ hmem)
    have hhead : rest.flatten ≠ [] → rest.flatten.head? = some routineMarker := by
      intro hne
      apply head?_flatten hrest
      rintro rfl
      exact hne rfl
    obtain ⟨first, more, rfl, hfirst, hmore⟩ := h.split List.flatten_cons hhead
    obtain ⟨parts, hlength, rfl, hparts⟩ := ih hrest hmore
    refine ⟨first :: parts, congrArg Nat.succ hlength, rfl, ?_⟩
    intro k block' part hblock hpart
    cases k with
    | zero =>
      cases hblock
      cases hpart
      exact hfirst
    | succ k =>
      rw [skip_takenBefore_cons]
      exact hparts k block' part hblock hpart

theorem exists_routines
    (h : ∀ k block, blocks[k]? = some block →
      ∃ is, Routines name table (labels.skip (takenBefore blocks k)) block is) :
    ∃ is, Routines name table labels blocks.flatten is := by
  induction blocks generalizing labels with
  | nil => exact ⟨[], .nil⟩
  | cons block rest ih =>
    obtain ⟨first, hfirst⟩ := h 0 block rfl
    have hrest : ∀ k block', rest[k]? = some block' → ∃ is,
        Routines name table ((labels.skip (branchCount block)).skip (takenBefore rest k)) block'
          is := by
      intro k block' hblock
      rw [← skip_takenBefore_cons]
      exact h (k + 1) block' hblock
    obtain ⟨more, hmore⟩ := ih hrest
    exact ⟨first ++ more, hfirst.append hmore⟩

theorem upcoming_sequential_eq (first : Vm.LabelId) :
    (LabelSupply.sequential first).upcoming = fun k => first + k := by
  funext k
  show first + (0 + k) = first + k
  rw [Nat.zero_add]

theorem upcoming_skip_sequential (first : Vm.LabelId) (k : Nat) :
    ((LabelSupply.sequential first).skip k).upcoming =
      (LabelSupply.sequential (first + k)).upcoming := by
  funext j
  show first + (0 + k + j) = first + k + (0 + j)
  rw [Nat.zero_add, Nat.zero_add, Nat.add_assoc]

section

variable {head : List Entry} {close : Entry} {first : Vm.LabelId}

/-- The code of the whole class is that of its blocks in order. -/
theorem compileEntries_parts {unit : ClassCode} (hhead : routineMarker ∉ head)
    (hblocks : ∀ block ∈ blocks, block.head? = some routineMarker) (hne : blocks ≠ [])
    (h : (compileEntries (.sequential first) (head ++ blocks.flatten ++ [close])).result =
      .ok unit) :
    ∃ units : List ClassCode, units.length = blocks.length ∧
      (∀ k block part, blocks[k]? = some block → units[k]? = some part →
        part.className = unit.className ∧
        (compileEntries (.sequential (first + takenBefore blocks k))
          (head ++ block ++ [close])).result = .ok part) ∧
      unit.code.toList = units.flatMap fun part => part.code.toList := by
  obtain ⟨hclose, table, hopens, hroutines⟩ :=
    compileEntries_divides hhead (head?_flatten hblocks hne) h
  obtain ⟨parts, hlength, hcode, hparts⟩ := hroutines.parts hblocks
  refine ⟨parts.map fun part => ⟨unit.className, ⟨part.toArray⟩⟩, ?_, ?_, ?_⟩
  · rw [List.length_map, hlength]
  · intro k block part hblock hpart
    rw [List.getElem?_map] at hpart
    obtain ⟨code, hcode, rfl⟩ := Option.map_eq_some_iff.1 hpart
    refine ⟨rfl, compileEntries_of_routines ?_ hclose hopens ?_⟩
    · exact hblocks block (List.mem_of_getElem? hblock)
    · exact (hparts k block code hblock hcode).congr (upcoming_skip_sequential first _).symm
  · rw [hcode, List.flatMap_map]
    exact List.flatMap_id.symm

/-- The whole class compiles exactly if every block does as the only one, with the ids that the
blocks before it leave. -/
theorem exists_compileEntries_iff (hhead : routineMarker ∉ head)
    (hblocks : ∀ block ∈ blocks, block.head? = some routineMarker) (hne : blocks ≠ []) :
    (∃ unit, (compileEntries (.sequential first) (head ++ blocks.flatten ++ [close])).result =
        .ok unit) ↔
      ∀ k block, blocks[k]? = some block → ∃ unit,
        (compileEntries (.sequential (first + takenBefore blocks k))
          (head ++ block ++ [close])).result = .ok unit := by
  constructor
  · rintro ⟨unit, h⟩ k block hblock
    obtain ⟨units, hlength, hunits, -⟩ := compileEntries_parts hhead hblocks hne h
    obtain ⟨hk, -⟩ := List.getElem?_eq_some_iff.1 hblock
    rw [← hlength] at hk
    exact ⟨units[k], (hunits k block units[k] hblock (List.getElem?_eq_getElem hk)).2⟩
  · intro h
    have hdivides (k : Nat) (block : List Entry) (hblock : blocks[k]? = some block) :
        ∃ unit : ClassCode, close.text = closeBrace ∧ ∃ table, Opens head unit.className table ∧
          Routines unit.className table (.sequential (first + takenBefore blocks k)) block
            unit.code.toList := by
      obtain ⟨unit, hunit⟩ := h k block hblock
      have hmarker := hblocks block (List.mem_of_getElem? hblock)
      exact ⟨unit, compileEntries_divides hhead hmarker hunit⟩
    obtain ⟨block, rest, rfl⟩ := List.exists_cons_of_ne_nil hne
    obtain ⟨unit, hclose, table, hopens, -⟩ := hdivides 0 block rfl
    -- All blocks find the same name and the same variables.
    have hroutines : ∀ k block', (block :: rest)[k]? = some block' → ∃ is,
        Routines unit.className table
          ((LabelSupply.sequential first).skip (takenBefore (block :: rest) k)) block' is := by
      intro k block' hblock
      obtain ⟨unit', -, table', hopens', hroutine⟩ := hdivides k block' hblock
      obtain ⟨hname, rfl⟩ := hopens.unique hopens'
      rw [← hname] at hroutine
      exact ⟨_, hroutine.congr (upcoming_skip_sequential first _)⟩
    obtain ⟨is, hall⟩ := exists_routines hroutines
    exact ⟨⟨unit.className, ⟨is.toArray⟩⟩,
      compileEntries_of_routines (head?_flatten hblocks hne) hclose hopens hall⟩

end

/-! ## Classes that are laid out -/

/-- A subroutine to be laid out. Its kind, its texts and its body may be anything, whether or not it
compiles. -/
structure RoutineLayout where
  kind : String
  returnType : String
  name : String
  parameters : List (String × String)
  body : Assembly → Assembly
  /-- The entries that the body adds. -/
  inside : List Entry
  adds : Adds body inside

/-- Class variables to be laid out. -/
structure VariableLayout where
  kind : String
  declaredType : String
  names : List String

/-- A class to be laid out. -/
structure ClassLayout where
  name : String
  declarations : List VariableLayout
  subroutines : List RoutineLayout

def RoutineLayout.layout (s : RoutineLayout) (a : Assembly) : Assembly :=
  a.subroutineDec s.kind s.returnType s.name s.parameters s.body

def VariableLayout.layout (vs : VariableLayout) (a : Assembly) : Assembly :=
  a.classVarDec vs.kind vs.declaredType vs.names

def ClassLayout.layout (c : ClassLayout) (a : Assembly) : Assembly :=
  a.classDec c.name fun a =>
    c.subroutines.foldl (fun a s => s.layout a) (c.declarations.foldl (fun a vs => vs.layout a) a)

/-- What a subroutine begins with. -/
def RoutineLayout.start (s : RoutineLayout) : List Lexeme :=
  [.marker .subroutineDec, .token .keyword s.kind, .type s.returnType, .token .identifier s.name,
      .symbol "(", .marker .parameterList] ++ separated parameterLexemes s.parameters ++
    [.symbol ")", .marker .subroutineBody, .symbol openBrace]

def RoutineLayout.entries (s : RoutineLayout) : List Entry :=
  written s.start ++ s.inside ++ [.token .symbol closeBrace]

/-- The number of `if` and `while` statements in the subroutines before one. -/
def branchesBefore (subroutines : List RoutineLayout) (k : Nat) : Nat :=
  branchCount ((subroutines.take k).flatMap RoutineLayout.entries)

def VariableLayout.lexemes (vs : VariableLayout) : List Lexeme :=
  [.marker .classVarDec, .token .keyword vs.kind, .type vs.declaredType] ++
    separated nameLexemes vs.names ++ [.symbol ";"]

/-- What a class begins with. -/
def ClassLayout.start (c : ClassLayout) : List Lexeme :=
  [.marker .classDec, .keyword "class", .token .identifier c.name, .symbol openBrace] ++
    c.declarations.flatMap VariableLayout.lexemes

section

attribute [local simp] Lexeme.entries

theorem RoutineLayout.adds_layout (s : RoutineLayout) : Adds s.layout s.entries := by
  have hhead := (((adds_keyword s.kind).then (adds_typeName s.returnType)).then
    (adds_identifier s.name)).then (adds_symbol "(")
  have hparameters := (adds_separated adds_parameter s.parameters).within .parameterList
  have hbody := (((adds_symbol openBrace).then s.adds).then
    (adds_symbol closeBrace)).within .subroutineBody
  exact (((hhead.then hparameters).then (adds_symbol ")")).then hbody).within .subroutineDec
    |>.of_eq (by simp [entries, start])

theorem VariableLayout.adds_layout (vs : VariableLayout) : Adds vs.layout (written vs.lexemes) :=
  ((((adds_keyword vs.kind).then (adds_typeName vs.declaredType)).then
    (adds_names vs.names)).then (adds_symbol ";")).within .classVarDec |>.of_eq
    (by simp [lexemes])

theorem adds_foldl_entries {α : Type} {item : Assembly → α → Assembly} {entries : α → List Entry}
    (h : ∀ x, Adds (fun a => item a x) (entries x)) (xs : List α) :
    Adds (fun a => xs.foldl item a) (xs.flatMap entries) := by
  induction xs with
  | nil => exact adds_id
  | cons x xs ih =>
    rw [List.flatMap_cons]
    exact (h x).then ih

theorem ClassLayout.finish_layout (c : ClassLayout) :
    ∃ root, (c.layout {}).finish = .ok root ∧ root.preorder =
      written c.start ++ c.subroutines.flatMap RoutineLayout.entries ++
        [.token .symbol closeBrace] := by
  have hhead := ((adds_keyword "class").then (adds_identifier c.name)).then (adds_symbol openBrace)
  have hvariables := adds_foldl c.declarations fun vs _ => vs.adds_layout
  have hsubroutines := adds_foldl_entries RoutineLayout.adds_layout c.subroutines
  have hbody := ((hhead.then hvariables).then hsubroutines).then (adds_symbol closeBrace)
  obtain ⟨root, hroot, hentries⟩ := hbody.fills.finish .classDec
  exact ⟨root, hroot, by rw [hentries]; simp [start]⟩

end

/-- A subroutine whose parts are all known can be laid out. -/
def RoutineLayout.ofSubroutine (s : Subroutine)
    (h : ∀ callee ∈ statementCallees s.body, callee.Splits) : RoutineLayout where
  kind := s.signature.kind.keyword
  returnType := s.signature.returnType
  name := s.signature.name
  parameters := s.parameters
  body a := (s.locals.foldl (fun a vs => vs.layout a) a).statements (fillStatements s.body)
  inside := written (s.locals.flatMap localLexemes) ++
    .production .statements :: written (statementLexemes s.body)
  adds := (adds_foldl s.locals fun vs _ => vs.adds_layout).then
    ((adds_statements s.body h).within .statements)

example (s : Subroutine) (h : ∀ callee ∈ statementCallees s.body, callee.Splits) :
    (RoutineLayout.ofSubroutine s h).layout = s.layout := rfl

/-- Nothing but a subroutine has its marker. -/
theorem ClassLayout.notMem_start (c : ClassLayout) : routineMarker ∉ written c.start := by
  intro hmem
  have hlexeme := (spells_written c.start).marker_mem hmem
  simp [start, VariableLayout.lexemes, notMem_separated, nameLexemes] at hlexeme

/-! ## Entries as they are read -/

/-- What becomes of one entry. -/
def Options.entry (options : Options) : Entry → Entry :=
  if options.unpad then Entry.mapText Jack.unpad else id

theorem Options.entries_eq_map (options : Options) (root : Node) :
    options.entries root = root.preorder.map options.entry := by
  unfold entries entry
  split
  · rfl
  · exact (List.map_id _).symm

theorem Options.entry_eq_routineMarker {options : Options} {e : Entry}
    (h : options.entry e = routineMarker) : e = routineMarker := by
  unfold entry at h
  split at h
  · cases e with
    | production p => exact h
    | token kind text => cases h
  · exact h

theorem branchCount_map_entry (options : Options) (es : List Entry) :
    branchCount (es.map options.entry) = branchCount es := by
  unfold Options.entry
  split
  · rw [branchCount, branchMarkers_mapText]
    rfl
  · rw [List.map_id]

/-- The entries of each subroutine, as they are read. -/
def readBlocks (options : Options) (subroutines : List RoutineLayout) : List (List Entry) :=
  subroutines.map fun s => s.entries.map options.entry

theorem takenBefore_readBlocks (options : Options) (subroutines : List RoutineLayout) (k : Nat) :
    takenBefore (readBlocks options subroutines) k = branchesBefore subroutines k := by
  rw [takenBefore, branchesBefore, readBlocks, ← List.map_take, ← List.flatMap_def,
    ← List.map_flatMap, branchCount_map_entry]

theorem head?_readBlocks {options : Options} {subroutines : List RoutineLayout} :
    ∀ block ∈ readBlocks options subroutines, block.head? = some routineMarker := by
  intro block hmem
  obtain ⟨s, -, rfl⟩ := List.mem_map.1 hmem
  unfold Options.entry
  split <;> rfl

/-- What a class begins with, as it is read. -/
def ClassLayout.readStart (c : ClassLayout) (options : Options) : List Entry :=
  (written c.start).map options.entry

theorem ClassLayout.notMem_readStart (c : ClassLayout) (options : Options) :
    routineMarker ∉ c.readStart options := by
  intro hmem
  obtain ⟨e, he, heq⟩ := List.mem_map.1 hmem
  rw [Options.entry_eq_routineMarker heq] at he
  exact c.notMem_start he

theorem Options.entries_layout {c : ClassLayout} {root : Node} (options : Options)
    (hroot : root.preorder = written c.start ++ c.subroutines.flatMap RoutineLayout.entries ++
      [.token .symbol closeBrace]) :
    options.entries root = c.readStart options ++ (readBlocks options c.subroutines).flatten ++
      [options.entry (.token .symbol closeBrace)] := by
  rw [options.entries_eq_map, hroot, List.map_append, List.map_append, List.map_flatMap]
  rfl

/-- Whatever subroutines a class is laid out with, it compiles exactly if each of them compiles as
the only one, given the ids that the subroutines before it leave. The code is then that of these
classes in order. With other ids a subroutine compiles to the same code but for the label names, so
that it does not matter which other subroutines there are. -/
theorem compile_independent (name : String) (declarations : List VariableLayout)
    (options : Options) :
    ∃ tree : List RoutineLayout → Node,
      (∀ ss, ((ClassLayout.mk name declarations ss).layout {}).finish = .ok (tree ss)) ∧
      (∀ s more first, let all := s :: more
        let whole := (compile (.sequential first) (tree all) options).result
        let alone k s :=
          (compile (.sequential (first + branchesBefore all k)) (tree [s]) options).result
        ((∃ unit, whole = .ok unit) ↔ ∀ k s, all[k]? = some s → ∃ unit, alone k s = .ok unit) ∧
        ∀ unit, whole = .ok unit → ∃ units : List ClassCode, units.length = all.length ∧
          (∀ k s part, all[k]? = some s → units[k]? = some part →
            part.className = unit.className ∧ alone k s = .ok part) ∧
          unit.code.toList = units.flatMap fun part => part.code.toList) ∧
      ∀ s first first' unit, (compile (.sequential first) (tree [s]) options).result = .ok unit →
        ∃ code', (compile (.sequential first') (tree [s]) options).result =
            .ok ⟨unit.className, code'⟩ ∧
          CodeRelabelled (fun k => first + k) (fun k => first' + k) unit.code.toList
            code'.toList := by
  choose tree hfinish hpreorder using fun ss => (ClassLayout.mk name declarations ss).finish_layout
  -- All these trees begin and end with the same entries.
  let head := (ClassLayout.mk name declarations []).readStart options
  let close := options.entry (.token .symbol closeBrace)
  have hhead : routineMarker ∉ head := ClassLayout.notMem_readStart _ options
  have hentries (ss : List RoutineLayout) :
      options.entries (tree ss) = head ++ (readBlocks options ss).flatten ++ [close] :=
    options.entries_layout (hpreorder ss)
  have hsingle (s : RoutineLayout) :
      options.entries (tree [s]) = head ++ s.entries.map options.entry ++ [close] := by
    rw [hentries, readBlocks, List.map_singleton, List.flatten_singleton]
  clear_value head close
  refine ⟨tree, hfinish, ?_, ?_⟩
  · intro s more first all whole alone
    have hwhole : whole = (compileEntries (.sequential first)
        (head ++ (readBlocks options all).flatten ++ [close])).result := by
      show (compile _ _ _).result = _
      rw [compile_eq, hentries]
    have halone (k : Nat) (s : RoutineLayout) : alone k s = (compileEntries
        (.sequential (first + takenBefore (readBlocks options all) k))
        (head ++ s.entries.map options.entry ++ [close])).result := by
      show (compile _ _ _).result = _
      rw [compile_eq, hsingle, takenBefore_readBlocks]
    have hblock (k : Nat) (s : RoutineLayout) (hs : all[k]? = some s) :
        (readBlocks options all)[k]? = some (s.entries.map options.entry) := by
      rw [readBlocks, List.getElem?_map, hs]
      rfl
    have hne : readBlocks options all ≠ [] := List.cons_ne_nil _ _
    constructor
    · rw [hwhole, exists_compileEntries_iff hhead head?_readBlocks hne]
      constructor
      · intro h k s hs
        rw [halone]
        exact h k _ (hblock k s hs)
      · intro h k block hk
        rw [readBlocks, List.getElem?_map] at hk
        obtain ⟨s, hs, rfl⟩ := Option.map_eq_some_iff.1 hk
        rw [← halone]
        exact h k s hs
    · intro unit hunit
      rw [hwhole] at hunit
      obtain ⟨units, hlength, hunits, hcode⟩ :=
        compileEntries_parts hhead head?_readBlocks hne hunit
      refine ⟨units, ?_, ?_, hcode⟩
      · rw [hlength, readBlocks, List.length_map]
      · intro k s part hs hpart
        rw [halone]
        exact hunits k _ part (hblock k s hs) hpart
  · intro s first first' unit h
    rw [compile_eq] at h
    obtain ⟨code', hresult, hcode⟩ := (Comparison.agree
      ⟨options.entries (tree [s]), .sequential first, .sequential first'⟩).result h
    rw [upcoming_sequential_eq, upcoming_sequential_eq] at hcode
    exact ⟨code', hresult, hcode⟩

/-! A field that a method finds whether or not there is a loop in front of the method. -/

/-- `function void run() { while (true) { } }` -/
def loopRoutine : RoutineLayout :=
  .ofSubroutine ⟨⟨.function, "void", "run"⟩, [], [], [.loop (.mk (.constant .true) []) []]⟩
    (by decide)

/-- `method int get() { if (x) { } return x; }` -/
def branchRoutine : RoutineLayout :=
  .ofSubroutine ⟨⟨.method, "int", "get"⟩, [], [],
    [.ifThen (.mk (.variable "x") []) [], .returnValue (.mk (.variable "x") [])]⟩ (by decide)

def fieldLayout (subroutines : List RoutineLayout) : ClassLayout :=
  ⟨"Main", [⟨"field", "int", ["x"]⟩], subroutines⟩

def fieldTree (subroutines : List Node) : Node :=
  .production .classDec <|
    [.token .keyword "class", .token .identifier "Main", .token .symbol openBrace,
      .production .classVarDec
        [.token .keyword "field", .token .keyword "int", .token .identifier "x",
          .token .symbol ";"]] ++ subroutines ++ [.token .symbol closeBrace]

def routineTree (kind returnType name : String) (statements : List Node) : Node :=
  .production .subroutineDec
    [.token .keyword kind, .token .keyword returnType, .token .identifier name, .token .symbol "(",
      .production .parameterList [], .token .symbol ")",
      .production .subroutineBody
        [.token .symbol openBrace, .production .statements statements,
          .token .symbol closeBrace]]

def loopNode : Node :=
  routineTree "function" "void" "run"
    [.production .whileStatement
      [.token .keyword "while", .token .symbol "(",
        .production .expression [.production .term [.token .keyword "true"]],
        .token .symbol ")", .token .symbol openBrace, .production .statements [],
        .token .symbol closeBrace]]

def branchNode : Node :=
  let x : Node := .production .expression [.production .term [.token .identifier "x"]]
  routineTree "method" "int" "get"
    [.production .ifStatement
      [.token .keyword "if", .token .symbol "(", x, .token .symbol ")", .token .symbol openBrace,
        .production .statements [], .token .symbol closeBrace],
      .production .returnStatement [.token .keyword "return", x, .token .symbol ";"]]

def fieldUnit : ClassCode where
  className := "Main"
  code := ⟨#[.function "Main.run" 0, .label "WHILE_EXP7", .push .constant 0, .arithmetic .not,
    .arithmetic .not, .ifGoto "WHILE_END7", .goto "WHILE_EXP7", .label "WHILE_END7",
    .function "Main.get" 0, .push .argument 0, .pop .pointer 0, .push .this 0, .ifGoto "IF_TRUE8",
    .goto "IF_FALSE8", .label "IF_TRUE8", .label "IF_FALSE8", .push .this 0, .ret]⟩

theorem compile_independent_fieldTree :
    ((fieldLayout [loopRoutine, branchRoutine]).layout {}).finish =
        .ok (fieldTree [loopNode, branchNode]) ∧
      (compile (.sequential 7) (fieldTree [loopNode, branchNode])).result = .ok fieldUnit ∧
      ∃ first second,
        (compile (.sequential 7) (fieldTree [loopNode])).result = .ok first ∧
        (compile (.sequential 8) (fieldTree [branchNode])).result = .ok second ∧
        fieldUnit.code.toList = first.code.toList ++ second.code.toList := by
  have hboth : ((fieldLayout [loopRoutine, branchRoutine]).layout {}).finish =
      .ok (fieldTree [loopNode, branchNode]) := by rfl
  have hloop : ((fieldLayout [loopRoutine]).layout {}).finish = .ok (fieldTree [loopNode]) := by rfl
  have hbranch : ((fieldLayout [branchRoutine]).layout {}).finish =
      .ok (fieldTree [branchNode]) := by rfl
  have hunit : (compile (.sequential 7) (fieldTree [loopNode, branchNode])).result =
      .ok fieldUnit := by rfl
  obtain ⟨tree, hfinish, hparts, -⟩ := compile_independent "Main" [⟨"field", "int", ["x"]⟩] {}
  have hunits := (hparts loopRoutine [branchRoutine] 7).2
  -- The trees are those that are built here.
  have htree {subroutines : List RoutineLayout} {root : Node}
      (h : ((fieldLayout subroutines).layout {}).finish = .ok root) : tree subroutines = root :=
    Except.ok.inj ((hfinish subroutines).symm.trans h)
  rw [htree hboth] at hunits
  obtain ⟨units, hlength, hparts, hcode⟩ := hunits fieldUnit hunit
  obtain ⟨first, second, rfl⟩ := List.length_eq_two.1 hlength
  have hfirst : (compile (.sequential 7) (tree [loopRoutine])).result = .ok first :=
    (hparts 0 loopRoutine first rfl rfl).2
  have hsecond : (compile (.sequential 8) (tree [branchRoutine])).result = .ok second :=
    (hparts 1 branchRoutine second rfl rfl).2
  rw [htree hloop] at hfirst
  rw [htree hbranch] at hsecond
  refine ⟨hboth, hunit, first, second, hfirst, hsecond, ?_⟩
  rw [hcode, List.flatMap_cons, List.flatMap_singleton]

end Jack
