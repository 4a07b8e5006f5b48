import Jack.Lexicon.Operator
import Jack.Lexicon.Punctuation
import Jack.Scope.Basic
import Jack.Tree.Layout

/-!
# The grammar of classes

Abstract classes, and how they are spelled as the entries of a tree. A spelling is first given as a
list of lexemes: most lexemes stand for exactly one entry, but a fixed word may be a token of any
kind, a type may be a keyword or an identifier, and one comma may follow the last argument of a
call.
-/

namespace Jack.Grammar

mutual

inductive Term where
  | integer (text : String)
  | string (text : String)
  | constant (value : KeywordConstant)
  | variable (name : String)
  | element (name : String) (index : Expression)
  | group (inner : Expression)
  | unary (op : UnaryOp) (operand : Term)
  | call (callee : Callee) (arguments : List Expression)

/-- Terms joined by operators, without precedence. -/
inductive Expression where
  | mk (first : Term) (operations : List (BinaryOp × Term))

end

inductive Statement where
  | assign (name : String) (value : Expression)
  | assignElement (name : String) (index value : Expression)
  | ifThen (condition : Expression) (onTrue : List Statement)
  | ifElse (condition : Expression) (onTrue onFalse : List Statement)
  | loop (condition : Expression) (body : List Statement)
  | doCall (callee : Callee) (arguments : List Expression)
  | doExpression (value : Expression)
  | returnNothing
  | returnValue (value : Expression)

/-- Variables of one type, at least one. -/
structure Variables where
  declaredType : String
  first : String
  more : List String

/-- The variables of one `static` or `field` declaration. -/
structure ClassVariables where
  kind : Storage
  classLevel : kind.isClassLevel = true
  declared : Variables

structure Subroutine where
  signature : Signature
  parameters : List (String × String)
  locals : List Variables
  body : List Statement

structure Class where
  name : String
  declarations : List ClassVariables
  subroutines : List Subroutine

def Variables.names (vs : Variables) : List String := vs.first :: vs.more

/-! ## Lexemes -/

inductive Lexeme where
  | marker (kind : Production)
  | keyword (text : String)
  | symbol (text : String)
  | token (kind : TokenKind) (text : String)
  | type (text : String)
  /-- What may stand after the last argument of a call. -/
  | lastComma

namespace Lexeme

/-- The kind of token that writes a type. -/
def typeKind (text : String) : TokenKind :=
  if Assembly.primitiveTypes.contains text then .keyword else .identifier

/-- The entries that the analyzer writes. -/
def entries : Lexeme → List Entry
  | marker kind => [.production kind]
  | keyword text => [.token .keyword text]
  | symbol text => [.token .symbol text]
  | token kind text => [.token kind text]
  | type text => [.token (typeKind text) text]
  | lastComma => []

/-- Whether entries can be read as a lexeme. -/
def Reads : Lexeme → List Entry → Prop
  | marker kind, es => es = [.production kind]
  -- Only the text of a fixed word is looked at.
  | keyword text, es | symbol text, es => ∃ kind, es = [.token kind text]
  | token kind text, es => es = [.token kind text]
  | type text, es => es = [.token .keyword text] ∨ es = [.token .identifier text]
  | lastComma, es => es = [] ∨ es = [.token .symbol ","]

end Lexeme

/-- Whether entries can be read as a list of lexemes. -/
def Spells : List Lexeme → List Entry → Prop
  | [], es => es = []
  | l :: ls, es => ∃ first rest, es = first ++ rest ∧ l.Reads first ∧ Spells ls rest

theorem Lexeme.typeKind_eq (text : String) :
    typeKind text = .keyword ∨ typeKind text = .identifier := by
  unfold typeKind
  split
  · exact .inl rfl
  · exact .inr rfl

theorem Lexeme.reads_entries (l : Lexeme) : l.Reads l.entries := by
  cases l with
  | marker kind => rfl
  | keyword text => exact ⟨_, rfl⟩
  | symbol text => exact ⟨_, rfl⟩
  | token kind text => rfl
  | type text =>
    rcases typeKind_eq text with h | h
    · exact .inl (by rw [entries, h])
    · exact .inr (by rw [entries, h])
  | lastComma => exact .inl rfl

theorem Spells.append {ls ls' : List Lexeme} {es es' : List Entry} (h : Spells ls es)
    (h' : Spells ls' es') : Spells (ls ++ ls') (es ++ es') := by
  induction ls generalizing es with
  | nil =>
    rw [show es = [] from h]
    exact h'
  | cons l ls ih =>
    obtain ⟨first, rest, rfl, hl, hrest⟩ := h
    exact ⟨first, rest ++ es', List.append_assoc .., hl, ih hrest⟩

theorem Spells.cons {l : Lexeme} {ls : List Lexeme} {first rest : List Entry} (hl : l.Reads first)
    (h : Spells ls rest) : Spells (l :: ls) (first ++ rest) :=
  ⟨first, rest, rfl, hl, h⟩

theorem Spells.entry {l : Lexeme} {ls : List Lexeme} {e : Entry} {rest : List Entry}
    (hl : l.Reads [e]) (h : Spells ls rest) : Spells (l :: ls) (e :: rest) :=
  .cons hl h

theorem Spells.singleton {l : Lexeme} {es : List Entry} (hl : l.Reads es) : Spells [l] es :=
  ⟨es, [], (List.append_nil es).symm, hl, rfl⟩

/-- The entries that the analyzer writes. -/
def written (ls : List Lexeme) : List Entry := ls.flatMap Lexeme.entries

@[simp] theorem written_nil : written [] = [] := rfl

@[simp] theorem written_cons (l : Lexeme) (ls : List Lexeme) :
    written (l :: ls) = l.entries ++ written ls := List.flatMap_cons

@[simp] theorem written_append (ls ls' : List Lexeme) :
    written (ls ++ ls') = written ls ++ written ls' := List.flatMap_append

/-- What the analyzer writes can be read back. -/
theorem spells_written (ls : List Lexeme) : Spells ls (written ls) := by
  induction ls with
  | nil => rfl
  | cons l ls ih => exact Spells.cons l.reads_entries ih

/-! ## Spellings -/

/-- Items with a comma between any two. -/
def separated {α : Type} (item : α → List Lexeme) : List α → List Lexeme
  | [] => []
  | x :: rest => item x ++ rest.flatMap fun y => .symbol "," :: item y

/-- What stands between an argument and the arguments after it. -/
def separator : List Expression → Lexeme
  | [] => .lastComma
  | _ :: _ => .symbol ","

def calleeLexemes : Callee → List Lexeme
  | .own name => [.token .identifier name]
  | .qualified receiver name =>
    [.token .identifier receiver, .symbol ".", .token .identifier name]

/-- The first identifier of a call. -/
def firstName : Callee → String
  | .own name => name
  | .qualified receiver _ => receiver

mutual

def Term.lexemes : Term → List Lexeme
  | .integer text => [.marker .term, .token .integerConstant text]
  | .string text => [.marker .term, .token .stringConstant text]
  | .constant value => [.marker .term, .token .keyword value.keyword]
  | .variable name => [.marker .term, .token .identifier name]
  | .element name index =>
    [.marker .term, .token .identifier name, .symbol "["] ++ index.lexemes ++ [.symbol "]"]
  | .group inner => [.marker .term, .symbol "("] ++ inner.lexemes ++ [.symbol ")"]
  | .unary op operand => [.marker .term, .token .symbol op.symbol] ++ operand.lexemes
  | .call callee arguments =>
    [.marker .term] ++ calleeLexemes callee ++ [.symbol "(", .marker .expressionList] ++
      argumentLexemes arguments ++ [.symbol ")"]

def Expression.lexemes : Expression → List Lexeme
  | .mk first operations => [.marker .expression] ++ first.lexemes ++ operationLexemes operations

def operationLexemes : List (BinaryOp × Term) → List Lexeme
  | [] => []
  | (op, term) :: rest => [.token .symbol op.symbol] ++ term.lexemes ++ operationLexemes rest

def argumentLexemes : List Expression → List Lexeme
  | [] => []
  | e :: rest => e.lexemes ++ [separator rest] ++ argumentLexemes rest

end

def callLexemes (callee : Callee) (arguments : List Expression) : List Lexeme :=
  calleeLexemes callee ++ [.symbol "(", .marker .expressionList] ++ argumentLexemes arguments ++
    [.symbol ")"]

def conditionLexemes (condition : Expression) : List Lexeme :=
  [.symbol "("] ++ condition.lexemes ++ [.symbol ")"]

mutual

def Statement.lexemes : Statement → List Lexeme
  | .assign name value =>
    [.marker .letStatement, .keyword "let", .token .identifier name, .symbol "="] ++
      value.lexemes ++ [.symbol ";"]
  | .assignElement name index value =>
    [.marker .letStatement, .keyword "let", .token .identifier name, .symbol "["] ++
      index.lexemes ++ [.symbol "]", .symbol "="] ++ value.lexemes ++ [.symbol ";"]
  | .ifThen condition onTrue =>
    [.marker .ifStatement, .keyword "if"] ++ conditionLexemes condition ++
      [.symbol openBrace, .marker .statements] ++ statementLexemes onTrue ++ [.symbol closeBrace]
  | .ifElse condition onTrue onFalse =>
    [.marker .ifStatement, .keyword "if"] ++ conditionLexemes condition ++
      [.symbol openBrace, .marker .statements] ++ statementLexemes onTrue ++
      [.symbol closeBrace, .keyword "else", .symbol openBrace, .marker .statements] ++
      statementLexemes onFalse ++ [.symbol closeBrace]
  | .loop condition body =>
    [.marker .whileStatement, .keyword "while"] ++ conditionLexemes condition ++
      [.symbol openBrace, .marker .statements] ++ statementLexemes body ++ [.symbol closeBrace]
  | .doCall callee arguments =>
    [.marker .doStatement, .keyword "do"] ++ callLexemes callee arguments ++ [.symbol ";"]
  | .doExpression value =>
    [.marker .doStatement, .keyword "do"] ++ value.lexemes ++ [.symbol ";"]
  | .returnNothing => [.marker .returnStatement, .keyword "return", .symbol ";"]
  | .returnValue value =>
    [.marker .returnStatement, .keyword "return"] ++ value.lexemes ++ [.symbol ";"]

def statementLexemes : List Statement → List Lexeme
  | [] => []
  | s :: rest => s.lexemes ++ statementLexemes rest

end

/-- `{ body }` -/
def blockLexemes (body : List Statement) : List Lexeme :=
  [.symbol openBrace, .marker .statements] ++ statementLexemes body ++ [.symbol closeBrace]

def nameLexemes (name : String) : List Lexeme := [.token .identifier name]

def parameterLexemes (p : String × String) : List Lexeme :=
  [.type p.1, .token .identifier p.2]

def Variables.lexemes (vs : Variables) : List Lexeme :=
  [.type vs.declaredType] ++ separated nameLexemes vs.names ++ [.symbol ";"]

def ClassVariables.lexemes (vs : ClassVariables) : List Lexeme :=
  [.marker .classVarDec, .token .keyword vs.kind.name] ++ vs.declared.lexemes

def localLexemes (vs : Variables) : List Lexeme :=
  [.marker .varDec, .keyword "var"] ++ vs.lexemes

def Subroutine.lexemes (s : Subroutine) : List Lexeme :=
  [.marker .subroutineDec, .token .keyword s.signature.kind.keyword, .type s.signature.returnType,
      .token .identifier s.signature.name, .symbol "(", .marker .parameterList] ++
    separated parameterLexemes s.parameters ++
    [.symbol ")", .marker .subroutineBody, .symbol openBrace] ++ s.locals.flatMap localLexemes ++
    [.marker .statements] ++ statementLexemes s.body ++ [.symbol closeBrace]

def Class.lexemes (c : Class) : List Lexeme :=
  [.marker .classDec, .keyword "class", .token .identifier c.name, .symbol openBrace] ++
    c.declarations.flatMap ClassVariables.lexemes ++ c.subroutines.flatMap Subroutine.lexemes ++
    [.symbol closeBrace]

/-! ## Sizes -/

def Term.size (t : Term) : Nat := (written t.lexemes).length

def Expression.size (e : Expression) : Nat := (written e.lexemes).length

def operationsSize (operations : List (BinaryOp × Term)) : Nat :=
  (written (operationLexemes operations)).length

def argumentsSize (arguments : List Expression) : Nat :=
  (written (argumentLexemes arguments)).length

/-- The number of entries of a call that are in front of its arguments. -/
def calleeSize : Callee → Nat
  | .own _ => 3
  | .qualified .. => 5

def Statement.size (s : Statement) : Nat := (written s.lexemes).length

def statementsSize (body : List Statement) : Nat := (written (statementLexemes body)).length

section

attribute [local simp] Lexeme.entries Term.lexemes Expression.lexemes operationLexemes
  argumentLexemes Statement.lexemes statementLexemes

theorem Term.size_element (name : String) (index : Expression) :
    (element name index).size = index.size + 4 := by
  simp [Term.size, Expression.size]

theorem Term.size_group (inner : Expression) : (group inner).size = inner.size + 3 := by
  simp [Term.size, Expression.size]

theorem Term.size_unary (op : UnaryOp) (operand : Term) :
    (unary op operand).size = operand.size + 2 := by
  simp [Term.size]

theorem Term.size_call (callee : Callee) (arguments : List Expression) :
    (call callee arguments).size = calleeSize callee + argumentsSize arguments + 2 := by
  cases callee <;>
    simp [Term.size, argumentsSize, calleeSize, calleeLexemes] <;> omega

theorem Term.size_pos (t : Term) : 0 < t.size := by
  cases t <;> simp [Term.size]

theorem Expression.size_mk (first : Term) (operations : List (BinaryOp × Term)) :
    (mk first operations).size = first.size + operationsSize operations + 1 := by
  simp [Term.size, Expression.size, operationsSize]

theorem Expression.size_pos (e : Expression) : 0 < e.size := by
  cases e
  rw [Expression.size_mk]
  omega

theorem operationsSize_cons (op : BinaryOp) (term : Term) (rest : List (BinaryOp × Term)) :
    operationsSize ((op, term) :: rest) = term.size + operationsSize rest + 1 := by
  simp [Term.size, operationsSize]

theorem argumentsSize_cons (e : Expression) (rest : List Expression) :
    argumentsSize (e :: rest) = e.size + (separator rest).entries.length + argumentsSize rest := by
  simp [Expression.size, argumentsSize]
  omega

theorem Statement.size_assign (name : String) (value : Expression) :
    (assign name value).size = value.size + 5 := by
  simp [Statement.size, Expression.size]

theorem Statement.size_assignElement (name : String) (index value : Expression) :
    (assignElement name index value).size = index.size + value.size + 7 := by
  simp [Statement.size, Expression.size]
  omega

theorem Statement.size_ifThen (condition : Expression) (onTrue : List Statement) :
    (ifThen condition onTrue).size = condition.size + statementsSize onTrue + 7 := by
  simp [Statement.size, conditionLexemes, Expression.size, statementsSize]
  omega

theorem Statement.size_ifElse (condition : Expression) (onTrue onFalse : List Statement) :
    (ifElse condition onTrue onFalse).size =
      condition.size + statementsSize onTrue + statementsSize onFalse + 11 := by
  simp [Statement.size, conditionLexemes, Expression.size, statementsSize]
  omega

theorem Statement.size_loop (condition : Expression) (body : List Statement) :
    (loop condition body).size = condition.size + statementsSize body + 7 := by
  simp [Statement.size, conditionLexemes, Expression.size, statementsSize]
  omega

theorem Statement.size_doCall (callee : Callee) (arguments : List Expression) :
    (doCall callee arguments).size = calleeSize callee + argumentsSize arguments + 4 := by
  cases callee <;>
    simp [Statement.size, callLexemes, calleeLexemes, calleeSize, argumentsSize] <;> omega

theorem Statement.size_doExpression (value : Expression) :
    (doExpression value).size = value.size + 3 := by
  simp [Statement.size, Expression.size]

theorem Statement.size_returnValue (value : Expression) :
    (returnValue value).size = value.size + 3 := by
  simp [Statement.size, Expression.size]

theorem Statement.size_pos (s : Statement) : 0 < s.size := by
  cases s <;> simp [Statement.size]

theorem statementsSize_cons (s : Statement) (rest : List Statement) :
    statementsSize (s :: rest) = s.size + statementsSize rest := by
  simp [Statement.size, statementsSize]

end

mutual

/-- The number of `if` and `while` statements, nested ones included. -/
def Statement.branches : Statement → Nat
  | .ifThen _ onTrue => branchesIn onTrue + 1
  | .ifElse _ onTrue onFalse => branchesIn onTrue + branchesIn onFalse + 1
  | .loop _ body => branchesIn body + 1
  | .assign .. | .assignElement .. | .doCall .. | .doExpression _ | .returnNothing
  | .returnValue _ => 0

def branchesIn : List Statement → Nat
  | [] => 0
  | s :: rest => s.branches + branchesIn rest

end

def subroutinesBranches : List Subroutine → Nat
  | [] => 0
  | s :: rest => branchesIn s.body + subroutinesBranches rest

def Class.branches (c : Class) : Nat := subroutinesBranches c.subroutines

end Jack.Grammar
