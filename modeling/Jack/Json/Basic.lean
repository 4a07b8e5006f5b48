/-!
# JSON values
-/

namespace Jack.Json

/-- A JSON value. The members of an object that was read from text have distinct names. -/
inductive Value where
  | null
  | bool (value : Bool)
  /-- A number, as it is written. -/
  | number (literal : String)
  | string (value : String)
  | array (items : List Value)
  | object (members : List (String × Value))
deriving Repr, Inhabited

/-- What reads a text: the value that is written, or what is wrong with the text. -/
abbrev Parser := String → Except String Value

end Jack.Json
