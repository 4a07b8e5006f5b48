import Mathlib.Data.Finset.Card
import Jack.Proofs.Scope.Symbols

/-!
# Counting declared names

How many slots of a kind declarations take up can be read off their names and kinds. A name that is
declared several times counts once, for the kind of its first declaration.
-/

namespace Jack

variable {ds : List Declaration} {d : Declaration} {name : String} {kind : Storage}

/-- The kind with which a name is first declared. -/
def firstKind? (ds : List Declaration) (name : String) : Option Storage :=
  (ds.find? fun d => d.name = name).map Declaration.kind

/-- The number of different names whose first declaration is of a kind. -/
def nameCount (ds : List Declaration) (kind : Storage) : Nat :=
  ((ds.map Declaration.name).toFinset.filter fun name => firstKind? ds name = some kind).card

/-- The name is new, and as many names of the kind are declared as there are slots. -/
def Exhausted (ds : List Declaration) (name : String) (kind : Storage) : Prop :=
  name ∉ ds.map Declaration.name ∧ nameCount ds kind = slotLimit

/-! ## One more declaration -/

/-- A later declaration does not change the kind of a name. -/
theorem firstKind?_concat_of_mem (h : name ∈ ds.map Declaration.name) :
    firstKind? (ds ++ [d]) name = firstKind? ds name := by
  obtain ⟨d', hd', hname⟩ := List.mem_map.1 h
  have hsome : (ds.find? fun d => d.name = name).isSome = true :=
    List.find?_isSome.2 ⟨d', hd', decide_eq_true hname⟩
  rw [firstKind?, firstKind?, List.find?_append, Option.or_of_isSome hsome]

theorem firstKind?_concat_self (h : d.name ∉ ds.map Declaration.name) :
    firstKind? (ds ++ [d]) d.name = some d.kind := by
  have hnone : (ds.find? fun d' => d'.name = d.name) = none := by
    rw [List.find?_eq_none]
    intro d' hd' hname
    exact h (List.mem_map.2 ⟨d', hd', of_decide_eq_true hname⟩)
  rw [firstKind?, List.find?_append, hnone, Option.none_or, List.find?_singleton,
    if_pos (decide_eq_true rfl)]
  rfl

theorem nameCount_concat (ds : List Declaration) (d : Declaration) (kind : Storage) :
    nameCount (ds ++ [d]) kind =
      nameCount ds kind + if d.name ∉ ds.map Declaration.name ∧ d.kind = kind then 1 else 0 := by
  have hold : (ds.map Declaration.name).toFinset.filter
      (fun name => firstKind? (ds ++ [d]) name = some kind) =
      (ds.map Declaration.name).toFinset.filter (fun name => firstKind? ds name = some kind) := by
    apply Finset.filter_congr
    intro name hname
    rw [firstKind?_concat_of_mem (List.mem_toFinset.1 hname)]
  have hnames : ((ds ++ [d]).map Declaration.name).toFinset =
      insert d.name (ds.map Declaration.name).toFinset := by
    rw [List.map_append, List.toFinset_append, List.map_cons, List.map_nil, List.toFinset_cons,
      List.toFinset_nil, Finset.union_comm, Finset.insert_union, Finset.empty_union]
  rw [nameCount, hnames, Finset.filter_insert, hold]
  by_cases hmem : d.name ∈ ds.map Declaration.name
  · -- The name is among the others already, with the same kind.
    have hcount : ¬(d.name ∉ ds.map Declaration.name ∧ d.kind = kind) := fun h => h.1 hmem
    rw [if_neg hcount, firstKind?_concat_of_mem hmem]
    split
    · next hkind =>
      rw [Finset.insert_eq_of_mem (Finset.mem_filter.2 ⟨List.mem_toFinset.2 hmem, hkind⟩)]
      rfl
    · rfl
  · rw [firstKind?_concat_self hmem]
    have hnotMem : d.name ∉ (ds.map Declaration.name).toFinset.filter
        (fun name => firstKind? ds name = some kind) :=
      fun h => hmem (List.mem_toFinset.1 (Finset.mem_filter.1 h).1)
    by_cases hkind : d.kind = kind
    · rw [if_pos (congrArg some hkind), if_pos ⟨hmem, hkind⟩, Finset.card_insert_of_notMem hnotMem]
      rfl
    · have hsome : ¬some d.kind = some kind := fun h => hkind (Option.some.inj h)
      rw [if_neg hsome, if_neg (not_and_of_not_right _ hkind)]
      rfl

/-- Symbols of a kind are the names that count for it. -/
theorem symbolCount_eq_nameCount (ds : List Declaration) (kind : Storage) :
    symbolCount (symbolsOf ds) kind = nameCount ds kind := by
  induction ds using List.reverseRecOn with
  | nil => rfl
  | append_singleton ds d ih =>
    have hconcat : symbolsOf (ds ++ [d]) = addSymbol (symbolsOf ds) d := by
      rw [symbolsOf, List.foldl_append]
      rfl
    rw [hconcat, nameCount_concat, ← ih]
    by_cases hmem : d.name ∈ (symbolsOf ds).map Symbol.name
    · have hold : ¬(d.name ∉ ds.map Declaration.name ∧ d.kind = kind) :=
        fun h => h.1 (names_symbolsOf.1 hmem)
      rw [addSymbol_of_mem hmem, if_neg hold]
      rfl
    · rw [addSymbol_of_not_mem hmem, symbolCount_append, symbolCount_singleton]
      have hnew : d.name ∉ ds.map Declaration.name := fun h => hmem (names_symbolsOf.2 h)
      simp only [hnew, not_false_eq_true, true_and]

/-! ## Tables -/

/-- The table holds the declared names and counts them. The declared types are of no account. -/
structure SymbolTable.Tallies (table : SymbolTable) (ds : List Declaration) : Prop where
  contains_iff : ∀ name, table.contains name = true ↔ name ∈ ds.map Declaration.name
  count : ∀ kind, table.count kind = nameCount ds kind

namespace SymbolTable.Tallies

variable {table table' : SymbolTable} {type : String}

theorem empty : SymbolTable.empty.Tallies [] := by
  refine ⟨fun name => ?_, fun kind => ?_⟩
  · rw [Lists.empty.contains_iff]
    rfl
  · rw [count_empty]
    rfl

theorem define (h : table.Tallies ds) (hdefine : table.define name type kind = .ok table')
    (declaredType : String) : table'.Tallies (ds ++ [⟨name, declaredType, kind⟩]) := by
  have hnew : name ∉ ds.map Declaration.name := by
    intro hmem
    rw [← h.contains_iff, ← define_eq_duplicate_iff, hdefine] at hmem
    cases hmem
  refine ⟨fun other => ?_, fun other => ?_⟩
  · rw [contains_eq_isSome_get?, get?_of_define hdefine, List.map_append, List.mem_append]
    by_cases hother : other = name
    · simp only [hother, if_true, Option.isSome_some, List.map_cons, List.map_nil,
        List.mem_singleton, or_true]
    · rw [if_neg hother, ← contains_eq_isSome_get?, h.contains_iff]
      simp only [List.map_cons, List.map_nil, List.mem_singleton, hother, or_false]
  · rw [count_of_define hdefine, h.count, nameCount_concat]
    simp only [hnew, not_false_eq_true, true_and, eq_comm]

theorem duplicate (h : table.Tallies ds)
    (hdefine : table.define name type kind = .error .duplicate) (declaredType : String) :
    table.Tallies (ds ++ [⟨name, declaredType, kind⟩]) := by
  have hold : name ∈ ds.map Declaration.name :=
    (h.contains_iff name).1 (define_eq_duplicate_iff.1 hdefine)
  refine ⟨fun other => ?_, fun other => ?_⟩
  · rw [h.contains_iff, List.map_append, List.mem_append]
    constructor
    · exact Or.inl
    · rintro (hother | hother)
      · exact hother
      · rw [List.mem_singleton.1 hother]
        exact hold
  · rw [h.count, nameCount_concat, if_neg (not_and_of_not_left _ (not_not_intro hold))]
    rfl

theorem define_eq_full_iff (h : table.Tallies ds) :
    table.define name type kind = .error .full ↔ Exhausted ds name kind := by
  rw [SymbolTable.define_eq_full_iff, Exhausted, ← h.contains_iff, ← h.count, Bool.not_eq_true]

end SymbolTable.Tallies

end Jack
