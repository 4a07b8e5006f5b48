import Jack.Lexicon.Punctuation
import Jack.Tree.Assembly

/-!
# The layout of Jack constructs

Each function adds one construct exactly as the analyzer lays it out, with all its tokens. The
variable parts are filled by functions on the assembly: those for expressions add terms and
operators, those for blocks add statements.
-/

namespace Jack

/-- The subroutine that a call names. -/
inductive Callee where
  /-- A method of the current object. -/
  | own (name : String)
  /-- A subroutine of a class, or a method of the object in a variable. -/
  | qualified (receiver name : String)
deriving DecidableEq, Repr

/-- Splits a call target at its first dot, if it has one. -/
def Callee.ofString (target : String) : Callee :=
  match target.toList.span (· != '.') with
  | (_, []) => .own target
  | (receiver, _ :: name) => .qualified (.ofList receiver) (.ofList name)

namespace Assembly

/-! ## Tokens -/

/-- A keyword. -/
def keyword (a : Assembly) (text : String) : Assembly := a.token .keyword text

/-- A symbol, such as a bracket or an operator. -/
def symbol (a : Assembly) (text : String) : Assembly := a.token .symbol text

/-- A name. -/
def identifier (a : Assembly) (text : String) : Assembly := a.token .identifier text

/-- An integer constant, in decimal. Its range is not checked here. -/
def integer (a : Assembly) (value : Int) : Assembly := a.token .integerConstant value.repr

/-- A string constant, without quotation marks. -/
def string (a : Assembly) (text : String) : Assembly := a.token .stringConstant text

/-! ## Declarations -/

/-- The types that are keywords. All others are class names. -/
def primitiveTypes : List String := ["int", "char", "boolean", "void"]

/-- A type: a keyword if it is primitive and an identifier if it is a class. -/
def typeName (a : Assembly) (type : String) : Assembly :=
  if primitiveTypes.contains type then a.keyword type else a.identifier type

/-- Adds items with a comma between any two of them. -/
def separated {α : Type} (a : Assembly) (item : Assembly → α → Assembly) : List α → Assembly
  | [] => a
  | x :: rest => rest.foldl (fun a y => item (a.symbol ",") y) (item a x)

/-- `class name { body }` -/
def classDec (a : Assembly) (name : String) (body : Assembly → Assembly) : Assembly :=
  a.within .classDec fun a =>
    (body (((a.keyword "class").identifier name).symbol openBrace)).symbol closeBrace

/-- `static type a, b, ...;` or the same with `field`. -/
def classVarDec (a : Assembly) (kind type : String) (names : List String) : Assembly :=
  a.within .classVarDec fun a =>
    (((a.keyword kind).typeName type).separated identifier names).symbol ";"

/-- `var type a, b, ...;` -/
def varDec (a : Assembly) (type : String) (names : List String) : Assembly :=
  a.within .varDec fun a =>
    (((a.keyword "var").typeName type).separated identifier names).symbol ";"

/-- One parameter: a type and a name. -/
def parameter (a : Assembly) (param : String × String) : Assembly :=
  (a.typeName param.1).identifier param.2

/-- `kind returnType name(params) { body }`, where the body is variable declarations followed by
one list of statements. -/
def subroutineDec (a : Assembly) (kind returnType name : String) (params : List (String × String))
    (body : Assembly → Assembly) : Assembly :=
  a.within .subroutineDec fun a =>
    let a := (((a.keyword kind).typeName returnType).identifier name).symbol "("
    let a := (a.within .parameterList fun a => a.separated parameter params).symbol ")"
    a.within .subroutineBody fun a => (body (a.symbol openBrace)).symbol closeBrace

/-! ## Expressions -/

/-- An expression, whose terms and operators the body adds. -/
def expression (a : Assembly) (body : Assembly → Assembly) : Assembly := a.within .expression body

/-- A term that is one token. -/
def tokenTerm (a : Assembly) (kind : TokenKind) (text : String) : Assembly :=
  a.within .term fun a => a.token kind text

/-- An integer constant as a term. -/
def integerTerm (a : Assembly) (value : Int) : Assembly :=
  a.within .term fun a => a.integer value

/-- `name[index]` -/
def elementTerm (a : Assembly) (name : String) (index : Assembly → Assembly) : Assembly :=
  a.within .term fun a =>
    (((a.identifier name).symbol "[").expression index).symbol "]"

/-- `(inner)` -/
def groupTerm (a : Assembly) (inner : Assembly → Assembly) : Assembly :=
  a.within .term fun a => ((a.symbol "(").expression inner).symbol ")"

/-- `-operand` or `~operand`, where the operand adds one term. -/
def unaryTerm (a : Assembly) (op : String) (operand : Assembly → Assembly) : Assembly :=
  a.within .term fun a => operand (a.symbol op)

/-- One argument, with a comma in front unless it is the first. -/
def argument (a : Assembly) (body : Assembly → Assembly) : Assembly :=
  (if a.hasChildren then a.symbol "," else a).expression body

/-- What comes before the arguments of a call. -/
def callee (a : Assembly) : Callee → Assembly
  | .own name => a.identifier name
  | .qualified receiver name => ((a.identifier receiver).symbol ".").identifier name

/-- `name(args)` or `receiver.name(args)`. -/
def call (a : Assembly) (callee : Callee) (args : Assembly → Assembly) : Assembly :=
  (((a.callee callee).symbol "(").within .expressionList args).symbol ")"

/-- A call as a term. -/
def callTerm (a : Assembly) (callee : Callee) (args : Assembly → Assembly) : Assembly :=
  a.within .term fun a => a.call callee args

/-! ## Statements -/

/-- A list of statements. -/
def statements (a : Assembly) (body : Assembly → Assembly) : Assembly := a.within .statements body

/-- `(condition)` -/
def condition (a : Assembly) (condition : Assembly → Assembly) : Assembly :=
  ((a.symbol "(").expression condition).symbol ")"

/-- `{ body }` -/
def block (a : Assembly) (body : Assembly → Assembly) : Assembly :=
  ((a.symbol openBrace).statements body).symbol closeBrace

/-- `let name = value;` -/
def letStatement (a : Assembly) (name : String) (value : Assembly → Assembly) : Assembly :=
  a.within .letStatement fun a =>
    ((((a.keyword "let").identifier name).symbol "=").expression value).symbol ";"

/-- `let name[index] = value;` -/
def letElement (a : Assembly) (name : String) (index value : Assembly → Assembly) : Assembly :=
  a.within .letStatement fun a =>
    let a := ((((a.keyword "let").identifier name).symbol "[").expression index).symbol "]"
    ((a.symbol "=").expression value).symbol ";"

/-- `if (condition) { onTrue }` -/
def ifStatement (a : Assembly) (condition onTrue : Assembly → Assembly) : Assembly :=
  a.within .ifStatement fun a => ((a.keyword "if").condition condition).block onTrue

/-- `if (condition) { onTrue } else { onFalse }` -/
def ifElse (a : Assembly) (condition onTrue onFalse : Assembly → Assembly) : Assembly :=
  a.within .ifStatement fun a =>
    ((((a.keyword "if").condition condition).block onTrue).keyword "else").block onFalse

/-- `while (condition) { body }` -/
def whileStatement (a : Assembly) (condition body : Assembly → Assembly) : Assembly :=
  a.within .whileStatement fun a => ((a.keyword "while").condition condition).block body

/-- `do callee(args);` -/
def doStatement (a : Assembly) (callee : Callee) (args : Assembly → Assembly) : Assembly :=
  a.within .doStatement fun a => ((a.keyword "do").call callee args).symbol ";"

/-- `return;` -/
def returnStatement (a : Assembly) : Assembly :=
  a.within .returnStatement fun a => (a.keyword "return").symbol ";"

/-- `return value;` -/
def returnValue (a : Assembly) (value : Assembly → Assembly) : Assembly :=
  a.within .returnStatement fun a => ((a.keyword "return").expression value).symbol ";"

end Assembly

end Jack
