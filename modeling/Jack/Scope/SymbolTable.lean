import Std.Data.TreeMap
import Jack.Lexicon.Declaration

/-!
# Symbol tables

A symbol table maps the names of one scope to symbols. Indices are dense and start at zero for
each storage kind, and a kind has room for `slotLimit` symbols. The first definition of a name
wins.
-/

namespace Jack

/-- A defined name. -/
structure Symbol where
  name : String
  /-- A primitive type or a class name. -/
  declaredType : String
  kind : Storage
  /-- The slot within its kind. -/
  index : Nat
deriving DecidableEq, Repr, Inhabited

/-- How many slots of each storage kind are in use. -/
structure SlotCounts where
  static : Nat := 0
  field : Nat := 0
  argument : Nat := 0
  localVar : Nat := 0
deriving DecidableEq, Repr, Inhabited

/-- The symbols of one storage kind that a table can hold. -/
def slotLimit : Nat := 65535

/-- Why a definition is refused. -/
inductive Refusal where
  /-- The name is already defined. -/
  | duplicate
  /-- Every slot of the kind is taken. -/
  | full
deriving DecidableEq, Repr

/-- The symbols of one scope by name, with the number of slots in use. -/
structure SymbolTable where
  symbols : Std.TreeMap String Symbol := {}
  counts : SlotCounts := {}
deriving Inhabited

namespace SlotCounts

/-- The number of slots of a kind in use. -/
def get (counts : SlotCounts) : Storage → Nat
  | .static => counts.static
  | .field => counts.field
  | .argument => counts.argument
  | .localVar => counts.localVar

/-- Takes one more slot of a kind. -/
def increment (counts : SlotCounts) : Storage → SlotCounts
  | .static => { counts with static := counts.static + 1 }
  | .field => { counts with field := counts.field + 1 }
  | .argument => { counts with argument := counts.argument + 1 }
  | .localVar => { counts with localVar := counts.localVar + 1 }

theorem get_increment (counts : SlotCounts) (k j : Storage) :
    (counts.increment k).get j = counts.get j + if j = k then 1 else 0 := by
  cases k <;> cases j <;> rfl

@[simp] theorem get_empty (k : Storage) : ({} : SlotCounts).get k = 0 := by
  cases k <;> rfl

end SlotCounts

namespace SymbolTable

/-- A table without symbols, as at the start of a scope. -/
def empty : SymbolTable := {}

/-- The symbol with a name. -/
def get? (table : SymbolTable) (name : String) : Option Symbol := table.symbols[name]?

/-- Whether a name is defined. -/
def contains (table : SymbolTable) (name : String) : Bool := table.symbols.contains name

/-- The number of symbols of a kind. -/
def count (table : SymbolTable) (kind : Storage) : Nat := table.counts.get kind

/-- The number of symbols. -/
def size (table : SymbolTable) : Nat := table.symbols.size

/-- Whether nothing is defined. -/
def isEmpty (table : SymbolTable) : Bool := table.symbols.isEmpty

/-- All symbols, in the order of their names. -/
def toList (table : SymbolTable) : List Symbol := table.symbols.values

/-- Defines a name with the next free slot of a kind. A name that is already defined keeps its
symbol, and it is refused as a duplicate even if the kind is full. -/
def define (table : SymbolTable) (name declaredType : String) (kind : Storage) :
    Except Refusal SymbolTable :=
  if table.contains name then
    .error .duplicate
  else if table.count kind = slotLimit then
    .error .full
  else
    let index := table.count kind
    .ok {
      symbols := table.symbols.insert name { name, declaredType, kind, index }
      counts := table.counts.increment kind }

@[simp] theorem get?_empty (name : String) : empty.get? name = none :=
  Std.TreeMap.getElem?_emptyc

@[simp] theorem count_empty (kind : Storage) : empty.count kind = 0 :=
  SlotCounts.get_empty kind

theorem contains_eq_isSome_get? (table : SymbolTable) (name : String) :
    table.contains name = (table.get? name).isSome :=
  Std.TreeMap.contains_eq_isSome_getElem?

theorem define_eq_duplicate_iff {table : SymbolTable} {name type : String} {kind : Storage} :
    table.define name type kind = .error .duplicate ↔ table.contains name = true := by
  unfold define
  split
  · simp_all
  · split <;> simp_all

theorem define_eq_full_iff {table : SymbolTable} {name type : String} {kind : Storage} :
    table.define name type kind = .error .full ↔
      table.contains name = false ∧ table.count kind = slotLimit := by
  unfold define
  split
  · simp_all
  · split <;> simp_all

theorem get?_of_define {table table' : SymbolTable} {name type : String} {kind : Storage}
    (h : table.define name type kind = .ok table') (other : String) :
    table'.get? other =
      if other = name then some ⟨name, type, kind, table.count kind⟩ else table.get? other := by
  unfold define at h
  split at h
  · cases h
  · split at h
    · cases h
    · injection h with h
      subst h
      simp only [get?, Std.TreeMap.getElem?_insert, Std.LawfulEqCmp.compare_eq_iff_eq]
      by_cases hname : name = other
      · simp only [hname, if_true]
      · simp only [hname, Ne.symm hname, if_false]

theorem count_of_define {table table' : SymbolTable} {name type : String} {kind : Storage}
    (h : table.define name type kind = .ok table') (other : Storage) :
    table'.count other = table.count other + if other = kind then 1 else 0 := by
  unfold define at h
  split at h
  · cases h
  · split at h
    · cases h
    · injection h with h
      subst h
      exact SlotCounts.get_increment ..

end SymbolTable

end Jack
