import Jack.Tree.Basic
import Jack.Tree.Position

/-!
# Cursors

A cursor reads the entries of a tree from first to last. It only moves forward, and it stays at
the end once it is there.
-/

namespace Jack

/-- The entries still to be read, and how many have been passed. -/
structure Cursor where
  rest : List Entry
  passed : Nat := 0
deriving DecidableEq, Repr, Inhabited

namespace Cursor

/-- A cursor on the root of a tree. -/
def ofNode (node : Node) : Cursor := { rest := node.preorder }

/-- The current entry, unless the end is reached. -/
def current? (c : Cursor) : Option Entry := c.rest.head?

/-- Moves to the next entry. -/
def advance (c : Cursor) : Cursor :=
  match c.rest with
  | [] => c
  | _ :: rest => { rest, passed := c.passed + 1 }

/-- The position of the current entry, or one past the last entry at the end. -/
def position (c : Cursor) : Position := .ofIndex c.passed

/-- Whether every entry has been passed. -/
def atEnd (c : Cursor) : Bool := c.rest.isEmpty

/-- The number of entries, passed or not. -/
def size (c : Cursor) : Nat := c.passed + c.rest.length

/-- Changes the text of every token still to be read. -/
def mapText (f : String → String) (c : Cursor) : Cursor :=
  { c with rest := c.rest.map (Entry.mapText f) }

@[simp] theorem size_advance (c : Cursor) : c.advance.size = c.size := by
  cases c with
  | mk rest passed =>
    cases rest with
    | nil => rfl
    | cons e rest => simp only [advance, size, List.length_cons]; omega

@[simp] theorem size_mapText (f : String → String) (c : Cursor) :
    (c.mapText f).size = c.size := by
  simp only [mapText, size, List.length_map]

theorem size_ofNode (node : Node) : (ofNode node).size = node.size := by
  rw [Node.size_eq_length_preorder]
  simp only [ofNode, size, Nat.zero_add]

theorem advance_of_atEnd {c : Cursor} (h : c.atEnd = true) : c.advance = c := by
  cases c with
  | mk rest passed =>
    cases rest with
    | nil => rfl
    | cons e rest => cases h

end Cursor

end Jack
