import Jack.Json.Basic
import Jack.Text.Blank
import Jack.Tree.Basic
import Jack.Tree.Error

/-!
# Tree dumps

The analyzer writes a tree as JSON. Each node is an object with one member, named for the kind of
the node: a production holds the array of its children and a token holds its text. A production
without children may also be written as null or as blank text.

Decoding names the first value, in the order of the document, that does not have this form, by the
path that leads to it.
-/

namespace Jack.Dump

/-- One step from a JSON value into one of its parts. -/
inductive Step where
  /-- Into the member with a name. -/
  | member (name : String)
  /-- Into the item with an index. -/
  | item (index : Nat)
deriving DecidableEq, Repr

/-- The way from the whole document to one of its values, the last step first. -/
abbrev Path := List Step

/-- What is wrong with one value of a dump. -/
inductive Cause where
  | notObject
  | memberCount (count : Nat)
  | unknownKind (name : String)
  /-- A production holds something other than children. -/
  | notChildren
  /-- A token holds something other than text. -/
  | notText
deriving DecidableEq, Repr

/-- A value that does not have the form of its place. -/
structure Fault where
  path : Path
  cause : Cause
deriving DecidableEq, Repr

/-- The written form of a step. -/
def Step.text : Step → String
  | member name => "." ++ name
  | item index => "[" ++ index.repr ++ "]"

/-- The written form of a path. The whole document is a dollar sign. -/
def Path.text (path : Path) : String := path.foldr (fun step before => before ++ step.text) "$"

/-- The fault as an error of the tree. -/
def Fault.error (fault : Fault) : TreeError :=
  let path := Path.text fault.path
  match fault.cause with
  | .notObject => .invalidNode path "expected an object"
  | .memberCount n => .invalidNode path ("expected exactly one key, found " ++ n.repr)
  | .unknownKind name => .unknownKind name path
  | .notChildren => .invalidNode path "expected an array of children"
  | .notText => .invalidNode path "expected token text"

mutual

/-- The node that a value at the end of a path stands for. -/
def decode (path : Path) : Json.Value → Except Fault Node
  | .object [(name, payload)] =>
    let path := .member name :: path
    match NodeKind.ofName? name with
    | none => .error ⟨path, .unknownKind name⟩
    | some (.token kind) =>
      match payload with
      | .string text => .ok (.token kind text)
      | _ => .error ⟨path, .notText⟩
    | some (.production kind) =>
      match payload with
      | .array items => (decodeAll path 0 [] items).map (.production kind)
      | .null => .ok (.production kind [])
      | .string text =>
        if Text.isBlank text then .ok (.production kind []) else .error ⟨path, .notChildren⟩
      | _ => .error ⟨path, .notChildren⟩
  | .object members => .error ⟨path, .memberCount members.length⟩
  | _ => .error ⟨path, .notObject⟩

/-- The nodes that the items of an array from an index on stand for, after those before them,
which stand newest first. -/
def decodeAll (path : Path) (index : Nat) (newestFirst : List Node) :
    List Json.Value → Except Fault (List Node)
  | [] => .ok newestFirst.reverse
  | value :: rest =>
    match decode (.item index :: path) value with
    | .error fault => .error fault
    | .ok node => decodeAll path (index + 1) (node :: newestFirst) rest

end

/-- Reads the tree that a JSON text writes. -/
def load (parse : Json.Parser) (text : String) : Except TreeError Node := do
  let value ← (parse text).mapError .json
  (decode [] value).mapError Fault.error

end Jack.Dump
