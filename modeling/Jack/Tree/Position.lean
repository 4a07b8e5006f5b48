/-!
# Node positions

Diagnostics name a node by its index in the pre-order walk of its tree, kept as a 32-bit word.
-/

namespace Jack

/-- The pre-order index of a node. -/
structure Position where
  val : UInt32
deriving DecidableEq, Repr, Inhabited

namespace Position

/-- The position with a pre-order index, of which the low 32 bits are kept. -/
def ofIndex (index : Nat) : Position := ⟨index.toUInt32⟩

/-- The index as a number. -/
def index (pos : Position) : Nat := pos.val.toNat

/-- The form used in messages. -/
def text (pos : Position) : String := "node " ++ pos.index.repr

/-- The short form. -/
def tag (pos : Position) : String := "#" ++ pos.index.repr

theorem index_ofIndex (index : Nat) : (ofIndex index).index = index % UInt32.size := by
  simp only [Position.index, ofIndex, Nat.toUInt32, UInt32.toNat_ofNat', UInt32.size]

end Position

end Jack
