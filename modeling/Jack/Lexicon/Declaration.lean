import Jack.Lexicon.Vocabulary

/-!
# Declaration roles

How a declared name is stored, and the three kinds of subroutine. Statics and fields belong to the
class; arguments and locals belong to one subroutine.
-/

namespace Jack

/-- How a variable is stored. -/
inductive Storage where
  | static
  | field
  | argument
  /-- A `var` of a subroutine. -/
  | localVar
deriving DecidableEq, Repr, Inhabited

/-- The three kinds of subroutine. -/
inductive SubroutineKind where
  /-- Allocates and returns a new object. -/
  | constructor
  /-- Has no receiver. -/
  | function
  /-- Receives its object as argument 0. -/
  | method
deriving DecidableEq, Repr, Inhabited

namespace Storage

/-- All storage kinds, class level first. -/
def all : List Storage := [static, field, argument, localVar]

/-- The name used in messages. -/
def name : Storage → String
  | static => "static"
  | field => "field"
  | argument => "argument"
  | localVar => "local"

/-- Whether variables of this kind belong to the class rather than to a subroutine. -/
def isClassLevel : Storage → Bool
  | static | field => true
  | argument | localVar => false

/-- The kinds of class variables. -/
def classLevel : List Storage := [static, field]

/-- The kind that opens a class variable declaration: `static` or `field`. -/
def ofClassKeyword? (s : String) : Option Storage := lookUp? classLevel name s

theorem mem_classLevel_iff {k : Storage} : k ∈ classLevel ↔ k.isClassLevel = true := by
  cases k <;> decide

theorem ofClassKeyword?_eq_some_iff {s : String} {k : Storage} :
    ofClassKeyword? s = some k ↔ k.isClassLevel = true ∧ k.name = s :=
  (lookUp?_eq_some_iff (by decide)).trans (and_congr_left' mem_classLevel_iff)

end Storage

namespace SubroutineKind

/-- The keyword that opens the declaration. -/
def keyword : SubroutineKind → String
  | constructor => "constructor"
  | function => "function"
  | method => "method"

/-- All kinds of subroutine. -/
def all : List SubroutineKind := [constructor, function, method]

/-- The kind of subroutine that a keyword declares. -/
def ofKeyword? (s : String) : Option SubroutineKind := lookUp? all keyword s

theorem mem_all (k : SubroutineKind) : k ∈ all := by
  cases k <;> decide

theorem ofKeyword?_eq_some_iff {s : String} {k : SubroutineKind} :
    ofKeyword? s = some k ↔ k.keyword = s :=
  (lookUp?_eq_some_iff (by decide)).trans (and_iff_right (mem_all k))

@[simp] theorem ofKeyword?_keyword (k : SubroutineKind) : ofKeyword? k.keyword = some k :=
  ofKeyword?_eq_some_iff.2 rfl

end SubroutineKind

end Jack
