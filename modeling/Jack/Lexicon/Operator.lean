import Jack.Lexicon.Vocabulary

/-!
# Operators and keyword constants

The grammar has no precedence: an expression is a flat sequence of terms joined by binary
operators. The minus sign is both a binary and a unary operator; its place in the expression
decides.
-/

namespace Jack

/-- Binary operators, applied strictly from left to right. -/
inductive BinaryOp where
  | add
  | sub
  | mul
  | div
  | and
  | or
  | less
  | greater
  | equal
deriving DecidableEq, Repr, Inhabited

/-- Unary operators. -/
inductive UnaryOp where
  /-- Arithmetic negation. -/
  | neg
  /-- Bitwise complement. -/
  | not
deriving DecidableEq, Repr, Inhabited

/-- Keywords that stand for a value. -/
inductive KeywordConstant where
  | true
  | false
  | null
  | this
deriving DecidableEq, Repr, Inhabited

namespace BinaryOp

/-- The symbol that writes the operator. -/
def symbol : BinaryOp → String
  | add => "+"
  | sub => "-"
  | mul => "*"
  | div => "/"
  | and => "&"
  | or => "|"
  | less => "<"
  | greater => ">"
  | equal => "="

/-- All binary operators. -/
def all : List BinaryOp := [add, sub, mul, div, and, or, less, greater, equal]

/-- The operator that a symbol writes. -/
def ofSymbol? (s : String) : Option BinaryOp := lookUp? all symbol s

theorem mem_all (op : BinaryOp) : op ∈ all := by
  cases op <;> decide

theorem ofSymbol?_eq_some_iff {s : String} {op : BinaryOp} :
    ofSymbol? s = some op ↔ op.symbol = s :=
  (lookUp?_eq_some_iff (by decide)).trans (and_iff_right (mem_all op))

@[simp] theorem ofSymbol?_symbol (op : BinaryOp) : ofSymbol? op.symbol = some op :=
  ofSymbol?_eq_some_iff.2 rfl

end BinaryOp

namespace UnaryOp

/-- The symbol that writes the operator. -/
def symbol : UnaryOp → String
  | neg => "-"
  | not => "~"

/-- Both unary operators. -/
def all : List UnaryOp := [neg, not]

/-- The operator that a symbol writes. -/
def ofSymbol? (s : String) : Option UnaryOp := lookUp? all symbol s

theorem mem_all (op : UnaryOp) : op ∈ all := by
  cases op <;> decide

theorem ofSymbol?_eq_some_iff {s : String} {op : UnaryOp} :
    ofSymbol? s = some op ↔ op.symbol = s :=
  (lookUp?_eq_some_iff (by decide)).trans (and_iff_right (mem_all op))

@[simp] theorem ofSymbol?_symbol (op : UnaryOp) : ofSymbol? op.symbol = some op :=
  ofSymbol?_eq_some_iff.2 rfl

end UnaryOp

namespace KeywordConstant

/-- The keyword that writes the constant. -/
def keyword : KeywordConstant → String
  | true => "true"
  | false => "false"
  | null => "null"
  | this => "this"

/-- All keyword constants. -/
def all : List KeywordConstant := [true, false, null, this]

/-- The constant that a keyword writes. -/
def ofKeyword? (s : String) : Option KeywordConstant := lookUp? all keyword s

theorem mem_all (c : KeywordConstant) : c ∈ all := by
  cases c <;> decide

theorem ofKeyword?_eq_some_iff {s : String} {c : KeywordConstant} :
    ofKeyword? s = some c ↔ c.keyword = s :=
  (lookUp?_eq_some_iff (by decide)).trans (and_iff_right (mem_all c))

@[simp] theorem ofKeyword?_keyword (c : KeywordConstant) : ofKeyword? c.keyword = some c :=
  ofKeyword?_eq_some_iff.2 rfl

end KeywordConstant

end Jack
