import Jack.Lexicon.Vocabulary

/-!
# Kinds of parse tree nodes

A node is either a production of the Jack grammar or a token. Each kind has one serialized name,
and no two kinds share a name.
-/

namespace Jack

/-- The productions of the Jack grammar that appear as nodes of a parse tree. -/
inductive Production where
  | classDec
  | classVarDec
  | subroutineDec
  | parameterList
  | subroutineBody
  | varDec
  | statements
  | letStatement
  | ifStatement
  | whileStatement
  | doStatement
  | returnStatement
  | expression
  | term
  | expressionList
deriving DecidableEq, Repr, Inhabited

/-- The lexical classes of Jack tokens. -/
inductive TokenKind where
  | keyword
  | symbol
  | integerConstant
  | stringConstant
  | identifier
deriving DecidableEq, Repr, Inhabited

/-- The kind of any node. -/
inductive NodeKind where
  | production (kind : Production)
  | token (kind : TokenKind)
deriving DecidableEq, Repr, Inhabited

namespace Production

/-- All productions, from the class down to the argument list. -/
def all : List Production :=
  [classDec, classVarDec, subroutineDec, parameterList, subroutineBody, varDec, statements,
    letStatement, ifStatement, whileStatement, doStatement, returnStatement, expression, term,
    expressionList]

/-- The serialized name. -/
def name : Production → String
  | classDec => "class"
  | classVarDec => "classVarDec"
  | subroutineDec => "subroutineDec"
  | parameterList => "parameterList"
  | subroutineBody => "subroutineBody"
  | varDec => "varDec"
  | statements => "statements"
  | letStatement => "letStatement"
  | ifStatement => "ifStatement"
  | whileStatement => "whileStatement"
  | doStatement => "doStatement"
  | returnStatement => "returnStatement"
  | expression => "expression"
  | term => "term"
  | expressionList => "expressionList"

/-- The production with a serialized name. -/
def ofName? (s : String) : Option Production := lookUp? all name s

/-- The five statement forms, as opposed to the `statements` list that holds them. -/
def isStatement : Production → Bool
  | letStatement | ifStatement | whileStatement | doStatement | returnStatement => true
  | _ => false

theorem mem_all (p : Production) : p ∈ all := by
  cases p <;> decide

theorem ofName?_eq_some_iff {s : String} {p : Production} : ofName? s = some p ↔ p.name = s :=
  (lookUp?_eq_some_iff (by decide)).trans (and_iff_right (mem_all p))

@[simp] theorem ofName?_name (p : Production) : ofName? p.name = some p :=
  ofName?_eq_some_iff.2 rfl

end Production

namespace TokenKind

/-- All token kinds. -/
def all : List TokenKind :=
  [keyword, symbol, integerConstant, stringConstant, identifier]

/-- The serialized name. -/
def name : TokenKind → String
  | keyword => "keyword"
  | symbol => "symbol"
  | integerConstant => "integerConstant"
  | stringConstant => "stringConstant"
  | identifier => "identifier"

/-- The token kind with a serialized name. -/
def ofName? (s : String) : Option TokenKind := lookUp? all name s

theorem mem_all (t : TokenKind) : t ∈ all := by
  cases t <;> decide

theorem ofName?_eq_some_iff {s : String} {t : TokenKind} : ofName? s = some t ↔ t.name = s :=
  (lookUp?_eq_some_iff (by decide)).trans (and_iff_right (mem_all t))

@[simp] theorem ofName?_name (t : TokenKind) : ofName? t.name = some t :=
  ofName?_eq_some_iff.2 rfl

end TokenKind

namespace NodeKind

/-- The serialized name. -/
def name : NodeKind → String
  | production p => p.name
  | token t => t.name

/-- The kind with a serialized name. Productions and tokens share no name, so the order of the two
look-ups does not matter. -/
def ofName? (name : String) : Option NodeKind :=
  match Production.ofName? name with
  | some p => some (production p)
  | none => (TokenKind.ofName? name).map token

/-- Tokens are the leaves that carry text. -/
def isToken : NodeKind → Bool
  | production _ => false
  | token _ => true

@[simp] theorem ofName?_name (k : NodeKind) : ofName? k.name = some k := by
  cases k with
  | production p => simp only [ofName?, name, Production.ofName?_name]
  | token t => cases t <;> decide

theorem ofName?_eq_some_iff {s : String} {k : NodeKind} : ofName? s = some k ↔ k.name = s := by
  refine ⟨fun h => ?_, fun h => h ▸ ofName?_name k⟩
  unfold ofName? at h
  split at h
  · rename_i p hp
    exact Option.some.inj h ▸ Production.ofName?_eq_some_iff.1 hp
  · obtain ⟨t, ht, rfl⟩ := Option.map_eq_some_iff.1 h
    exact TokenKind.ofName?_eq_some_iff.1 ht

end NodeKind

end Jack
