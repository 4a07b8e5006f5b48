import Mathlib.Data.List.Nodup
import Jack.Scope.Basic

/-!
# The symbols of declarations

A list of declarations defines a list of symbols: a name counts once, at its first declaration, and
the symbols of a kind are numbered in the order of their declarations. A symbol table is this list
under another representation.
-/

namespace Jack

/-- A variable as it is declared. -/
structure Declaration where
  name : String
  declaredType : String
  kind : Storage

/-- What was declared when the symbol was defined. -/
def Symbol.declaration (symbol : Symbol) : Declaration :=
  ⟨symbol.name, symbol.declaredType, symbol.kind⟩

/-- The number of symbols of a kind. -/
def symbolCount (symbols : List Symbol) (kind : Storage) : Nat :=
  symbols.countP fun symbol => symbol.kind = kind

/-- The symbol with a name. -/
def symbolNamed? (symbols : List Symbol) (name : String) : Option Symbol :=
  symbols.find? fun symbol => symbol.name = name

/-- Adds a symbol with the next free index of its kind, unless its name is taken. -/
def addSymbol (symbols : List Symbol) (d : Declaration) : List Symbol :=
  if d.name ∈ symbols.map Symbol.name then symbols
  else symbols ++ [⟨d.name, d.declaredType, d.kind, symbolCount symbols d.kind⟩]

/-- The symbols that declarations define. -/
def symbolsOf (ds : List Declaration) : List Symbol := ds.foldl addSymbol []

theorem isSome_symbolNamed? {symbols : List Symbol} {name : String} :
    (symbolNamed? symbols name).isSome = true ↔ name ∈ symbols.map Symbol.name := by
  simp only [symbolNamed?, List.find?_isSome, decide_eq_true_eq, List.mem_map]

theorem symbolNamed?_eq_some {symbols : List Symbol} {name : String} {symbol : Symbol}
    (h : symbolNamed? symbols name = some symbol) : symbol ∈ symbols ∧ symbol.name = name := by
  unfold symbolNamed? at h
  have hname := List.find?_some h
  exact ⟨List.mem_of_find?_eq_some h, of_decide_eq_true hname⟩

section

variable {symbols : List Symbol} {d : Declaration}

theorem addSymbol_of_mem (h : d.name ∈ symbols.map Symbol.name) :
    addSymbol symbols d = symbols := if_pos h

theorem addSymbol_of_not_mem (h : d.name ∉ symbols.map Symbol.name) :
    addSymbol symbols d =
      symbols ++ [⟨d.name, d.declaredType, d.kind, symbolCount symbols d.kind⟩] := if_neg h

theorem names_addSymbol (name : String) :
    name ∈ (addSymbol symbols d).map Symbol.name ↔
      name ∈ symbols.map Symbol.name ∨ name = d.name := by
  by_cases h : d.name ∈ symbols.map Symbol.name
  · rw [addSymbol_of_mem h]
    constructor
    · exact Or.inl
    · rintro (hname | rfl)
      · exact hname
      · exact h
  · rw [addSymbol_of_not_mem h]
    simp only [List.map_append, List.map_cons, List.map_nil, List.mem_append, List.mem_singleton]

theorem names_foldl (ds : List Declaration) (name : String) : ∀ symbols,
    name ∈ (ds.foldl addSymbol symbols).map Symbol.name ↔
      name ∈ symbols.map Symbol.name ∨ name ∈ ds.map Declaration.name := by
  induction ds with
  | nil => intro symbols; simp
  | cons d ds ih =>
    intro symbols
    rw [List.foldl_cons, ih, names_addSymbol, List.map_cons, List.mem_cons, or_assoc]

/-- Exactly the declared names have symbols. -/
theorem names_symbolsOf {ds : List Declaration} {name : String} :
    name ∈ (symbolsOf ds).map Symbol.name ↔ name ∈ ds.map Declaration.name := by
  rw [symbolsOf, names_foldl]
  simp

/-- What holds of all declarations holds of what each symbol was declared as. -/
theorem declaration_foldl {P : Declaration → Prop} (ds : List Declaration) (hds : ∀ d ∈ ds, P d) :
    ∀ symbols, (∀ s ∈ symbols, P s.declaration) →
      ∀ s ∈ ds.foldl addSymbol symbols, P s.declaration := by
  induction ds with
  | nil => exact fun symbols hsymbols => hsymbols
  | cons d ds ih =>
    intro symbols hsymbols
    rw [List.foldl_cons]
    apply ih fun d hd => hds d (List.mem_cons_of_mem _ hd)
    by_cases h : d.name ∈ symbols.map Symbol.name
    · rw [addSymbol_of_mem h]
      exact hsymbols
    · rw [addSymbol_of_not_mem h]
      intro s hs
      rcases List.mem_append.1 hs with hs | hs
      · exact hsymbols s hs
      · rw [List.mem_singleton.1 hs]
        exact hds d (List.mem_cons_self ..)

theorem declaration_symbolsOf {P : Declaration → Prop} {ds : List Declaration}
    (hds : ∀ d ∈ ds, P d) : ∀ s ∈ symbolsOf ds, P s.declaration :=
  declaration_foldl ds hds [] nofun

theorem kind_symbolsOf {P : Storage → Prop} {ds : List Declaration} (hds : ∀ d ∈ ds, P d.kind) :
    ∀ s ∈ symbolsOf ds, P s.kind :=
  declaration_symbolsOf (P := fun d => P d.kind) hds

/-- The first declaration of a name wins. -/
theorem symbolNamed?_foldl {name : String} {symbol : Symbol} (ds : List Declaration) :
    ∀ symbols, symbolNamed? symbols name = some symbol →
      symbolNamed? (ds.foldl addSymbol symbols) name = some symbol := by
  induction ds with
  | nil => exact fun symbols h => h
  | cons d ds ih =>
    intro symbols h
    rw [List.foldl_cons]
    apply ih
    by_cases hd : d.name ∈ symbols.map Symbol.name
    · rw [addSymbol_of_mem hd]
      exact h
    · rw [addSymbol_of_not_mem hd]
      show List.find? _ (symbols ++ _) = _
      rw [List.find?_append, show List.find? _ symbols = some symbol from h]
      rfl

end

/-! ## Numbering -/

/-- No two symbols share their name or their slot, and the indices of a kind stay below the number
of its symbols. -/
structure Numbered (symbols : List Symbol) : Prop where
  names : (symbols.map Symbol.name).Nodup
  slots : (symbols.map Symbol.slot).Nodup
  index_lt : ∀ s ∈ symbols, s.index < symbolCount symbols s.kind

theorem symbolCount_append (symbols symbols' : List Symbol) (kind : Storage) :
    symbolCount (symbols ++ symbols') kind = symbolCount symbols kind + symbolCount symbols' kind :=
  List.countP_append

theorem symbolCount_singleton (symbol : Symbol) (kind : Storage) :
    symbolCount [symbol] kind = if symbol.kind = kind then 1 else 0 := by
  simp only [symbolCount, List.countP_singleton, decide_eq_true_eq]

theorem symbolCount_addSymbol_le (symbols : List Symbol) (d : Declaration) (kind : Storage) :
    symbolCount (addSymbol symbols d) kind ≤ symbolCount symbols kind + 1 := by
  by_cases h : d.name ∈ symbols.map Symbol.name
  · rw [addSymbol_of_mem h]
    exact Nat.le_succ _
  · rw [addSymbol_of_not_mem h, symbolCount_append, symbolCount_singleton]
    split <;> omega

theorem symbolCount_foldl (kind : Storage) (ds : List Declaration) : ∀ symbols,
    (symbols.map Symbol.name ++ ds.map Declaration.name).Nodup →
    symbolCount (ds.foldl addSymbol symbols) kind =
      symbolCount symbols kind + ds.countP fun d => d.kind = kind := by
  induction ds with
  | nil => exact fun symbols _ => rfl
  | cons d ds ih =>
    intro symbols hnodup
    have hd : d.name ∉ symbols.map Symbol.name := by
      intro hmem
      exact (List.nodup_append'.1 hnodup).2.2 hmem (List.mem_cons_self ..)
    rw [List.foldl_cons, addSymbol_of_not_mem hd, ih _ (by simpa using hnodup), symbolCount_append,
      symbolCount_singleton, List.countP_cons]
    simp only [decide_eq_true_eq]
    omega

/-- If no name is declared twice then every declaration counts. -/
theorem symbolCount_symbolsOf {ds : List Declaration} (h : (ds.map Declaration.name).Nodup)
    (kind : Storage) : symbolCount (symbolsOf ds) kind = ds.countP fun d => d.kind = kind := by
  rw [symbolsOf, symbolCount_foldl kind ds [] h]
  exact Nat.zero_add _

theorem numbered_nil : Numbered [] := ⟨.nil, .nil, nofun⟩

/-- A symbol with the next free index keeps the numbering. -/
theorem Numbered.add {symbols : List Symbol} (h : Numbered symbols) (d : Declaration) :
    Numbered (addSymbol symbols d) := by
  by_cases hd : d.name ∈ symbols.map Symbol.name
  · rw [addSymbol_of_mem hd]
    exact h
  rw [addSymbol_of_not_mem hd]
  constructor
  · rw [List.map_append, List.nodup_append']
    refine ⟨h.names, List.nodup_singleton _, ?_⟩
    intro name hname hnew
    rw [List.mem_singleton.1 hnew] at hname
    exact hd hname
  · rw [List.map_append, List.nodup_append']
    refine ⟨h.slots, List.nodup_singleton _, ?_⟩
    intro slot hslot hnew
    obtain ⟨s, hs, rfl⟩ := List.mem_map.1 hslot
    -- The new index is the number of symbols of the kind, which all have a smaller index.
    have hslots : s.slot = ⟨.ofStorage d.kind, symbolCount symbols d.kind⟩ :=
      List.mem_singleton.1 hnew
    have hkind : s.kind = d.kind := Vm.Segment.ofStorage_injective (congrArg Slot.segment hslots)
    have hindex : s.index = symbolCount symbols d.kind := congrArg Slot.index hslots
    have hlt := h.index_lt s hs
    rw [hkind, hindex] at hlt
    exact Nat.lt_irrefl _ hlt
  · intro s hs
    rw [symbolCount_append]
    rcases List.mem_append.1 hs with hs | hs
    · have hlt := h.index_lt s hs
      omega
    · rw [List.mem_singleton.1 hs, symbolCount_singleton, if_pos rfl]
      exact Nat.lt_succ_self _

theorem Numbered.foldl (ds : List Declaration) : ∀ {symbols}, Numbered symbols →
    Numbered (ds.foldl addSymbol symbols) := by
  induction ds with
  | nil => exact fun h => h
  | cons d ds ih => exact fun h => ih (h.add d)

theorem numbered_symbolsOf (ds : List Declaration) : Numbered (symbolsOf ds) :=
  numbered_nil.foldl ds

/-- Different names have different slots. -/
theorem Numbered.slot_ne {symbols : List Symbol} (h : Numbered symbols) {s t : Symbol}
    (hs : s ∈ symbols) (ht : t ∈ symbols) (hne : s.name ≠ t.name) : s.slot ≠ t.slot := by
  intro hslot
  exact hne (congrArg Symbol.name (List.inj_on_of_nodup_map h.slots hs ht hslot))

/-! ## Symbol tables -/

/-- The table holds the symbols of the list. -/
structure SymbolTable.Lists (table : SymbolTable) (symbols : List Symbol) : Prop where
  get? : ∀ name, table.get? name = symbolNamed? symbols name
  count : ∀ kind, table.count kind = symbolCount symbols kind

namespace SymbolTable.Lists

variable {table table' : SymbolTable} {symbols : List Symbol} {name type : String} {kind : Storage}

theorem empty : SymbolTable.empty.Lists [] := ⟨get?_empty, count_empty⟩

theorem contains_iff (h : table.Lists symbols) :
    table.contains name = true ↔ name ∈ symbols.map Symbol.name := by
  rw [contains_eq_isSome_get?, h.get?, isSome_symbolNamed?]

theorem define (h : table.Lists symbols) (hdefine : table.define name type kind = .ok table') :
    table'.Lists (addSymbol symbols ⟨name, type, kind⟩) := by
  have hnew : name ∉ symbols.map Symbol.name := by
    intro hmem
    rw [← h.contains_iff, ← define_eq_duplicate_iff, hdefine] at hmem
    cases hmem
  rw [addSymbol_of_not_mem hnew]
  constructor
  · intro other
    rw [get?_of_define hdefine, h.get?, h.count]
    show _ = List.find? _ (symbols ++ _)
    rw [List.find?_append, List.find?_singleton]
    by_cases hother : other = name
    · -- The name is not among the old symbols, so the new one is found.
      have hnone : symbolNamed? symbols name = none := by
        rw [← Option.not_isSome_iff_eq_none, isSome_symbolNamed?]
        exact hnew
      rw [hother, if_pos rfl]
      simp only [decide_true, if_true]
      rw [show List.find? _ symbols = none from hnone]
      rfl
    · rw [if_neg hother]
      simp only [Ne.symm hother, decide_false, Bool.false_eq_true, if_false, Option.or_none]
      rfl
  · intro other
    rw [count_of_define hdefine, h.count, symbolCount_append, symbolCount_singleton]
    simp only [eq_comm]

theorem duplicate (h : table.Lists symbols)
    (hdefine : table.define name type kind = .error .duplicate) :
    table.Lists (addSymbol symbols ⟨name, type, kind⟩) := by
  have hold : name ∈ symbols.map Symbol.name := h.contains_iff.1 (define_eq_duplicate_iff.1 hdefine)
  rw [addSymbol_of_mem hold]
  exact h

end SymbolTable.Lists

end Jack
