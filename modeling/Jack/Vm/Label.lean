/-!
# Labels

Every `if` and every `while` takes one id from a label supply and writes it into all its label
names. A supply outlives the compilation of one class, so that the classes of a program share no
label.
-/

namespace Jack.Vm

/-- A number written into label names. -/
abbrev LabelId := Nat

/-- An endless supply of label ids, of which the first `taken` are used up. -/
structure LabelSupply where
  /-- The ids in the order in which they are handed out. -/
  ids : Nat → LabelId
  taken : Nat := 0

instance : Inhabited LabelSupply := ⟨{ ids := id }⟩

namespace LabelSupply

/-- Consecutive ids from `first` on. -/
def sequential (first : LabelId) : LabelSupply := { ids := fun k => first + k }

/-- The id that is handed out next. -/
def peek (supply : LabelSupply) : LabelId := supply.ids supply.taken

/-- The supply once its next id is handed out. -/
def advance (supply : LabelSupply) : LabelSupply := { supply with taken := supply.taken + 1 }

/-- Hands out one id. -/
def take (supply : LabelSupply) : LabelId × LabelSupply := (supply.peek, supply.advance)

@[simp] theorem ids_advance (supply : LabelSupply) : supply.advance.ids = supply.ids := rfl

@[simp] theorem taken_advance (supply : LabelSupply) :
    supply.advance.taken = supply.taken + 1 := rfl

@[simp] theorem peek_sequential (first : LabelId) : (sequential first).peek = first := rfl

end LabelSupply

/-- The label names of one `if` statement. -/
structure IfLabels where
  onTrue : String
  onFalse : String
  done : String
deriving DecidableEq, Repr

/-- The label names of one `while` statement. -/
structure WhileLabels where
  condition : String
  done : String
deriving DecidableEq, Repr

/-- The label names of the `if` statement that took `id`. -/
def IfLabels.ofId (id : LabelId) : IfLabels where
  onTrue := "IF_TRUE" ++ id.repr
  onFalse := "IF_FALSE" ++ id.repr
  done := "IF_END" ++ id.repr

/-- The label names of the `while` statement that took `id`. -/
def WhileLabels.ofId (id : LabelId) : WhileLabels where
  condition := "WHILE_EXP" ++ id.repr
  done := "WHILE_END" ++ id.repr

end Jack.Vm
