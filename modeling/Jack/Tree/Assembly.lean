import Jack.Tree.Basic
import Jack.Tree.Error

/-!
# Assembling a tree

A tree is put together by entering productions, adding tokens and leaving productions again. The
first misuse is remembered, whatever follows, and is reported when the tree is asked for.
-/

namespace Jack

/-- A production that has been entered and not yet left. -/
structure OpenProduction where
  kind : Production
  /-- Its children so far, the newest first. -/
  newestFirst : List Node := []
deriving Inhabited, Repr

/-- A tree under construction. -/
structure Assembly where
  /-- The productions that are still open, the innermost first. -/
  opened : List OpenProduction := []
  /-- The tree, once it is complete. -/
  root : Option Node := none
  /-- The first misuse. -/
  misuse : Option TreeError := none
deriving Inhabited, Repr

namespace Assembly

/-- Remembers a misuse unless there was one before. -/
def fail (a : Assembly) (error : TreeError) : Assembly :=
  { a with misuse := a.misuse <|> some error }

/-- Adds a complete node to the innermost open production, or as the root. -/
def add (a : Assembly) (node : Node) : Assembly :=
  match a.opened, a.root with
  | inner :: outer, _ =>
    { a with opened := { inner with newestFirst := node :: inner.newestFirst } :: outer }
  | [], none => { a with root := some node }
  | [], some _ => a.fail .multipleRoots

/-- Enters a production: what follows becomes its children. -/
def enter (a : Assembly) (kind : Production) : Assembly :=
  let a := if a.opened.isEmpty && a.root.isSome then a.fail .multipleRoots else a
  { a with opened := { kind } :: a.opened }

/-- Leaves the innermost open production, which thereby is complete. -/
def leave (a : Assembly) : Assembly :=
  match a.opened with
  | inner :: outer =>
    { a with opened := outer }.add (.production inner.kind inner.newestFirst.reverse)
  | [] => a.fail .unbalancedClose

/-- Enters a production, fills it, and leaves it. -/
def within (a : Assembly) (kind : Production) (fill : Assembly → Assembly) : Assembly :=
  (fill (a.enter kind)).leave

/-- Adds a token. -/
def token (a : Assembly) (kind : TokenKind) (text : String) : Assembly :=
  a.add (.token kind text)

/-- Whether the innermost open production has children. -/
def hasChildren (a : Assembly) : Bool :=
  match a.opened with
  | inner :: _ => !inner.newestFirst.isEmpty
  | [] => false

/-- The finished tree. A misuse counts more than a production that was never left, and of those
the outermost is named. -/
def finish (a : Assembly) : Except TreeError Node :=
  match a.misuse, a.opened.getLast?, a.root with
  | some error, _, _ => .error error
  | none, some outermost, _ => .error (.unclosedProduction outermost.kind.name)
  | none, none, some node => .ok node
  | none, none, none => .error .empty

end Assembly

end Jack
