import Jack.Proofs.Grammar.Uses
import Jack.Proofs.Scope.Symbols

/-!
# The variables of a subroutine

A subroutine sees its own variables and those of its class, and its own hide those of the class.
Translation fills its tables with exactly these variables, so each keeps one slot of its own.
-/

namespace Jack.Grammar

open Vm

/-! ## Declared variables -/

def Variables.declarations (kind : Storage) (vs : Variables) : List Declaration :=
  vs.names.map fun name => ⟨name, vs.declaredType, kind⟩

def Class.variables (c : Class) : List Declaration :=
  c.declarations.flatMap fun vs => vs.declared.declarations vs.kind

/-- A method declares its receiver without writing it. -/
def receiverVariables (className : String) (kind : SubroutineKind) : List Declaration :=
  if kind = .method then [⟨"this", className, .argument⟩] else []

def parameterVariables (parameters : List (String × String)) : List Declaration :=
  parameters.map fun p => ⟨p.2, p.1, .argument⟩

def Subroutine.variables (className : String) (s : Subroutine) : List Declaration :=
  receiverVariables className s.signature.kind ++ parameterVariables s.parameters ++
    s.locals.flatMap (Variables.declarations .localVar)

def Class.symbols (c : Class) : List Symbol := symbolsOf c.variables

def Subroutine.symbols (className : String) (s : Subroutine) : List Symbol :=
  symbolsOf (s.variables className)

/-- The symbol that a name stands for in a subroutine of a class. -/
def Class.symbol? (c : Class) (s : Subroutine) (name : String) : Option Symbol :=
  match symbolNamed? (s.symbols c.name) name with
  | some symbol => some symbol
  | none => symbolNamed? c.symbols name

/-- The prologue of a method reads its receiver. -/
def Subroutine.uses (symbol? : String → Option Symbol) (s : Subroutine) : List Use :=
  (if s.signature.kind = .method then [.read "this"] else []) ++ statementsUses symbol? s.body

theorem Class.kind_symbols (c : Class) : ∀ symbol ∈ c.symbols, symbol.kind.isClassLevel = true := by
  apply kind_symbolsOf (P := fun kind => kind.isClassLevel = true)
  intro d hd
  obtain ⟨vs, -, hd⟩ := List.mem_flatMap.1 hd
  obtain ⟨name, -, rfl⟩ := List.mem_map.1 hd
  exact vs.classLevel

theorem Subroutine.kind_symbols (className : String) (s : Subroutine) :
    ∀ symbol ∈ s.symbols className, symbol.kind.isClassLevel = false := by
  apply kind_symbolsOf (P := fun kind => kind.isClassLevel = false)
  intro d hd
  rcases List.mem_append.1 hd with hd | hd
  · rcases List.mem_append.1 hd with hd | hd
    · unfold receiverVariables at hd
      split at hd
      · rw [List.mem_singleton.1 hd]
        rfl
      · cases hd
    · obtain ⟨p, -, rfl⟩ := List.mem_map.1 hd
      rfl
  · obtain ⟨vs, -, hd⟩ := List.mem_flatMap.1 hd
    obtain ⟨name, -, rfl⟩ := List.mem_map.1 hd
    rfl

/-! ## Tables of a translation -/

section

variable {kind : Storage} {declaredType className : String} {table table' : SymbolTable}
  {symbols : List Symbol} {pos : Nat}

theorem lists_declare {name : String} (hlists : table.Lists symbols)
    (h : declare kind declaredType name pos table = .ok table') :
    table'.Lists (addSymbol symbols ⟨name, declaredType, kind⟩) := by
  unfold declare at h
  split at h
  · next hdefine =>
    cases h
    exact hlists.define hdefine
  · next hdefine =>
    cases h
    exact hlists.duplicate hdefine
  · cases h

theorem lists_declareNames (names : List String) : ∀ {pos table symbols},
    SymbolTable.Lists table symbols → declareNames kind declaredType pos names table = .ok table' →
    table'.Lists ((names.map (⟨·, declaredType, kind⟩)).foldl addSymbol symbols) := by
  induction names with
  | nil =>
    intro pos table symbols hlists h
    cases h
    exact hlists
  | cons name names ih =>
    intro pos table symbols hlists h
    obtain ⟨table₁, h₁, h⟩ := bind_eq_ok h
    exact ih (lists_declare hlists h₁) h

theorem lists_declareClassVariables (vss : List ClassVariables) : ∀ {pos table symbols},
    SymbolTable.Lists table symbols → declareClassVariables pos vss table = .ok table' →
    table'.Lists ((vss.flatMap fun vs => vs.declared.declarations vs.kind).foldl addSymbol
      symbols) := by
  induction vss with
  | nil =>
    intro pos table symbols hlists h
    cases h
    exact hlists
  | cons vs vss ih =>
    intro pos table symbols hlists h
    obtain ⟨table₁, h₁, h⟩ := bind_eq_ok h
    rw [List.flatMap_cons, List.foldl_append]
    exact ih (lists_declareNames vs.declared.names hlists h₁) h

theorem lists_declareLocals (vss : List Variables) : ∀ {pos table symbols},
    SymbolTable.Lists table symbols → declareLocals pos vss table = .ok table' →
    table'.Lists ((vss.flatMap (Variables.declarations .localVar)).foldl addSymbol symbols) := by
  induction vss with
  | nil =>
    intro pos table symbols hlists h
    cases h
    exact hlists
  | cons vs vss ih =>
    intro pos table symbols hlists h
    obtain ⟨table₁, h₁, h⟩ := bind_eq_ok h
    rw [List.flatMap_cons, List.foldl_append]
    exact ih (lists_declareNames vs.names hlists h₁) h

theorem lists_declareParameters (parameters : List (String × String)) : ∀ {pos table symbols},
    SymbolTable.Lists table symbols → declareParameters pos parameters table = .ok table' →
    table'.Lists ((parameterVariables parameters).foldl addSymbol symbols) := by
  induction parameters with
  | nil =>
    intro pos table symbols hlists h
    cases h
    exact hlists
  | cons p parameters ih =>
    intro pos table symbols hlists h
    obtain ⟨table₁, h₁, h⟩ := bind_eq_ok h
    exact ih (lists_declare hlists h₁) h

theorem lists_receiver {kind : SubroutineKind} (h : receiver className pos kind = .ok table) :
    table.Lists (symbolsOf (receiverVariables className kind)) := by
  unfold receiver at h
  unfold receiverVariables
  split at h
  · next hkind =>
    rw [if_pos hkind]
    exact lists_declare .empty h
  · next hkind =>
    rw [if_neg hkind]
    cases h
    exact .empty

theorem Class.lists_symbols {c : Class}
    (h : declareClassVariables pos c.declarations .empty = .ok table) : table.Lists c.symbols :=
  lists_declareClassVariables c.declarations .empty h

theorem Subroutine.lists_symbols {classTable : SymbolTable} {s : Subroutine} {scope : Scope}
    (h : s.scope className classTable pos = .ok scope) :
    scope.subroutineTable.Lists (s.symbols className) := by
  obtain ⟨table, table', table'', hreceiver, hparameters, hlocals, rfl⟩ := Subroutine.scope_ok h
  have hlists := lists_declareLocals s.locals
    (lists_declareParameters s.parameters (lists_receiver hreceiver) hparameters) hlocals
  rw [Subroutine.symbols, Subroutine.variables, symbolsOf, List.foldl_append, List.foldl_append]
  exact hlists

/-- Names stand for the same symbols in the scope of a translation. -/
theorem lookup?_eq {c : Class} {s : Subroutine} {scope : Scope}
    (hclass : scope.classTable.Lists c.symbols)
    (hsubroutine : scope.subroutineTable.Lists (s.symbols c.name)) :
    scope.lookup? = c.symbol? s := by
  funext name
  rw [Scope.lookup?, hsubroutine.get?, hclass.get?]
  rfl

end

/-! ## Slots -/

/-- A name that is declared in the subroutine stands for a variable of the subroutine, whatever the
class declares. -/
theorem Class.symbol?_of_declared {c : Class} {s : Subroutine} {name : String}
    (h : name ∈ (s.variables c.name).map Declaration.name) :
    ∃ symbol ∈ s.symbols c.name, c.symbol? s name = some symbol := by
  have hsome : (symbolNamed? (s.symbols c.name) name).isSome = true :=
    isSome_symbolNamed?.2 (names_symbolsOf.2 h)
  obtain ⟨symbol, hsymbol⟩ := Option.isSome_iff_exists.1 hsome
  refine ⟨symbol, (symbolNamed?_eq_some hsymbol).1, ?_⟩
  rw [Class.symbol?, hsymbol]

/-- A name stands for a variable of the subroutine or for one of the class. -/
theorem Class.symbol?_eq_some {c : Class} {s : Subroutine} {name : String} {symbol : Symbol}
    (h : c.symbol? s name = some symbol) :
    (symbol ∈ s.symbols c.name ∨ symbol ∈ c.symbols) ∧ symbol.name = name := by
  unfold Class.symbol? at h
  split at h
  · next symbol' hsymbol =>
    cases h
    have hmem := symbolNamed?_eq_some hsymbol
    exact ⟨.inl hmem.1, hmem.2⟩
  · have hmem := symbolNamed?_eq_some h
    exact ⟨.inr hmem.1, hmem.2⟩

theorem slot_ne_of_isClassLevel {s t : Symbol} (hs : s.kind.isClassLevel = false)
    (ht : t.kind.isClassLevel = true) : s.slot ≠ t.slot := by
  intro hslot
  have hkind : s.kind = t.kind := Segment.ofStorage_injective (congrArg Slot.segment hslot)
  rw [hkind, ht] at hs
  cases hs

/-- Different names have different slots. -/
theorem Class.slot_ne {c : Class} {s : Subroutine} {x y : String} {symbol symbol' : Symbol}
    (hx : c.symbol? s x = some symbol) (hy : c.symbol? s y = some symbol') (hne : x ≠ y) :
    symbol.slot ≠ symbol'.slot := by
  obtain ⟨hmem, rfl⟩ := Class.symbol?_eq_some hx
  obtain ⟨hmem', rfl⟩ := Class.symbol?_eq_some hy
  rcases hmem with hmem | hmem <;> rcases hmem' with hmem' | hmem'
  · exact (numbered_symbolsOf _).slot_ne hmem hmem' hne
  · exact slot_ne_of_isClassLevel (s.kind_symbols _ _ hmem) (c.kind_symbols _ hmem')
  · exact (slot_ne_of_isClassLevel (s.kind_symbols _ _ hmem') (c.kind_symbols _ hmem)).symm
  · exact (numbered_symbolsOf _).slot_ne hmem hmem' hne

/-- How many cells of a segment belong to the variables of a subroutine. The header of its routine
says how many of them are local. -/
def Class.room (c : Class) (s : Subroutine) (r : Routine) : Segment → Nat
  | .locals => r.locals
  | .argument => symbolCount (s.symbols c.name) .argument
  | .this => symbolCount c.symbols .field
  | .static => symbolCount c.symbols .static
  | .constant | .that | .pointer | .temp => 0

theorem Class.index_lt_room {c : Class} {s : Subroutine} {r : Routine} {name : String}
    {symbol : Symbol} (hlocals : r.locals = symbolCount (s.symbols c.name) .localVar)
    (h : c.symbol? s name = some symbol) : symbol.index < c.room s r symbol.slot.segment := by
  rcases (Class.symbol?_eq_some h).1 with hmem | hmem
  · have hlt := (numbered_symbolsOf _).index_lt symbol hmem
    have hkind := s.kind_symbols _ symbol hmem
    unfold Symbol.slot
    cases hstorage : symbol.kind <;> rw [hstorage] at hlt hkind
    · cases hkind
    · cases hkind
    · exact hlt
    · show _ < r.locals
      rw [hlocals]
      exact hlt
  · have hlt := (numbered_symbolsOf _).index_lt symbol hmem
    have hkind := c.kind_symbols symbol hmem
    unfold Symbol.slot
    cases hstorage : symbol.kind <;> rw [hstorage] at hlt hkind
    · exact hlt
    · exact hlt
    · cases hkind
    · cases hkind

/-- The variables of a subroutine keep their slots in the code of its routine. -/
structure KeepsSlots (c : Class) (s : Subroutine) (r : Routine) : Prop where
  /-- The code accesses each variable that is used at the slot of its symbol, and no other. -/
  uses : Follows (max maxConstant (symbolCount c.symbols .field)) (c.symbol? s)
    (s.uses (c.symbol? s)) r.code
  separate : ∀ x y symbol symbol', c.symbol? s x = some symbol → c.symbol? s y = some symbol' →
    x ≠ y → symbol.slot ≠ symbol'.slot
  inner : ∀ x ∈ (s.variables c.name).map Declaration.name,
    ∃ symbol ∈ s.symbols c.name, c.symbol? s x = some symbol ∧ symbol.kind.isClassLevel = false
  inRange : ∀ i ∈ r.code, ∀ slot, i.cell? = some slot →
    slot ∈ scratch ∨ slot.index < c.room s r slot.segment

/-- The receiver of a method is its first argument. -/
theorem Class.symbol?_this {c : Class} {s : Subroutine} (h : s.signature.kind = .method) :
    c.symbol? s "this" = some ⟨"this", c.name, .argument, 0⟩ := by
  have hthis : symbolNamed? (s.symbols c.name) "this" = some ⟨"this", c.name, .argument, 0⟩ := by
    rw [Subroutine.symbols, Subroutine.variables, receiverVariables, if_pos h, symbolsOf,
      List.append_assoc, List.foldl_append]
    apply symbolNamed?_foldl
    rfl
  rw [Class.symbol?, hthis]

theorem follows_prologue {c : Class} {s : Subroutine} :
    Follows (max maxConstant (symbolCount c.symbols .field)) (c.symbol? s)
      (if s.signature.kind = .method then [.read "this"] else [])
      (s.signature.kind.prologue (symbolCount c.symbols .field)) := by
  cases hkind : s.signature.kind with
  | constructor =>
    have hfields := Nat.le_max_right maxConstant (symbolCount c.symbols .field)
    apply Follows.of_auxiliary
    intro i hi
    simp only [SubroutineKind.prologue, List.mem_cons, List.not_mem_nil, or_false] at hi
    rcases hi with rfl | rfl | rfl
    · exact hfields
    · trivial
    · exact List.mem_cons_self ..
  | function => exact .nil
  | method =>
    refine .access ?_ (.of_auxiliary (by simp [Instruction.Auxiliary, scratch]))
    rw [Use.instruction?, Class.symbol?_this hkind]
    rfl

theorem Subroutine.keepsSlots {c : Class} {classTable : SymbolTable} {labels : LabelSupply}
    {pos : Nat} {s : Subroutine} {r : Routine} (hclass : classTable.Lists c.symbols)
    (h : s.translate c.name classTable labels pos = .ok r) : KeepsSlots c s r := by
  obtain ⟨scope, cmds, pos', hscope, hcmds, hr⟩ := Subroutine.translate_scope h
  have hsubroutine := Subroutine.lists_symbols hscope
  have hclassTable : scope.classTable = classTable := by
    obtain ⟨_, _, _, -, -, -, rfl⟩ := Subroutine.scope_ok hscope
    rfl
  have hbody : Reaches scope _ _ := reaches_translateStatements s.body hcmds
  unfold Reaches at hbody
  rw [lookup?_eq (hclassTable ▸ hclass) hsubroutine] at hbody
  have huses : Follows (max maxConstant (symbolCount c.symbols .field)) (c.symbol? s)
      (s.uses (c.symbol? s)) r.code := by
    rw [hr]
    refine .auxiliary trivial ?_
    rw [commandsCode_append, commandsCode_prologue, hclass.count]
    exact follows_prologue.append (hbody.mono (Nat.le_max_left ..))
  have hlocals : r.locals = symbolCount (s.symbols c.name) .localVar := by
    rw [hr]
    exact hsubroutine.count .localVar
  refine ⟨huses, fun x y symbol symbol' hx hy => Class.slot_ne hx hy, ?_, ?_⟩
  · intro x hx
    obtain ⟨symbol, hmem, hsymbol⟩ := Class.symbol?_of_declared hx
    exact ⟨symbol, hmem, hsymbol, s.kind_symbols _ symbol hmem⟩
  · intro i hi slot hslot
    rcases huses.cell hi hslot with hscratch | ⟨name, symbol, hsymbol, rfl⟩
    · exact .inl hscratch
    · exact .inr (Class.index_lt_room hlocals hsymbol)

end Jack.Grammar
