/-!
# Errors of tree construction

What can be wrong with a tree before it is compiled: its text, its shape, or the order of the
calls that build it.
-/

namespace Jack

/-- Why there is no tree. -/
inductive TreeError where
  /-- The text is not JSON. -/
  | json (message : String)
  /-- A value of a dump does not have the form that its place asks for. -/
  | invalidNode (path detail : String)
  /-- A name is neither that of a production nor that of a token. -/
  | unknownKind (name path : String)
  /-- A production was entered and never left. -/
  | unclosedProduction (kind : String)
  /-- There was no production to leave. -/
  | unbalancedClose
  /-- Something was added beside a complete root. -/
  | multipleRoots
  /-- Nothing was added at all. -/
  | empty
deriving DecidableEq, Repr, Inhabited

/-- The text shown to a user. -/
def TreeError.message : TreeError → String
  | json message => "malformed tree json: " ++ message
  | invalidNode path detail => "invalid node at " ++ path ++ ": " ++ detail
  | unknownKind name path => "unknown node kind '" ++ name ++ "' at " ++ path
  | unclosedProduction kind => "production '" ++ kind ++ "' was never closed"
  | unbalancedClose => "close without an open production"
  | multipleRoots => "tree has more than one root"
  | empty => "tree is empty"

end Jack
