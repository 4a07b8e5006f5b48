import Mathlib.Data.List.TakeDrop
import Mathlib.Data.List.TakeWhile
import Jack.Proofs.Grammar.Basic
import Jack.Proofs.Text.Reading

/-!
# Laying out a class

The tree that the layout functions build for a class has, in pre-order, the entries that spell the
class.
-/

namespace Jack

/-- The text that names a callee. -/
def Callee.target : Callee → String
  | .own name => name
  | .qualified receiver name => receiver ++ "." ++ name

/-- A callee whose text can be split again. -/
def Callee.Splits (callee : Callee) : Prop := '.' ∉ (Grammar.firstName callee).toList

instance (callee : Callee) : Decidable callee.Splits := inferInstanceAs (Decidable (_ ∉ _))

theorem Callee.ofString_target {callee : Callee} (h : callee.Splits) :
    Callee.ofString callee.target = callee := by
  cases callee with
  | own name =>
    -- The text is searched for a dot, and there is none.
    simp only [target, ofString, Text.span_of_notMem (show '.' ∉ name.toList from h)]
  | qualified receiver name =>
    -- The first dot is the one behind the receiver, whatever the name is.
    have htext : (receiver ++ "." ++ name).toList = receiver.toList ++ '.' :: name.toList := by
      simp
    simp only [target, ofString, htext, Text.span_append (show '.' ∉ receiver.toList from h),
      String.ofList_toList]

namespace Grammar

/-! ## Layout functions -/

mutual

/-- An integer constant may have any text. -/
def Term.layout : Term → Assembly → Assembly
  | .integer text, a => a.tokenTerm .integerConstant text
  | .string text, a => a.tokenTerm .stringConstant text
  | .constant value, a => a.tokenTerm .keyword value.keyword
  | .variable name, a => a.tokenTerm .identifier name
  | .element name index, a => a.elementTerm name index.fill
  | .group inner, a => a.groupTerm inner.fill
  | .unary op operand, a => a.unaryTerm op.symbol operand.layout
  | .call callee arguments, a => a.callTerm (.ofString callee.target) (fillArguments arguments)

/-- The terms and operators of an expression. -/
def Expression.fill : Expression → Assembly → Assembly
  | .mk first operations, a => fillOperations operations (first.layout a)

def fillOperations : List (BinaryOp × Term) → Assembly → Assembly
  | [], a => a
  | (op, term) :: rest, a => fillOperations rest (term.layout (a.symbol op.symbol))

def fillArguments : List Expression → Assembly → Assembly
  | [], a => a
  | e :: rest, a => fillArguments rest (a.argument e.fill)

end

mutual

def Statement.layout : Statement → Assembly → Assembly
  | .assign name value, a => a.letStatement name value.fill
  | .assignElement name index value, a => a.letElement name index.fill value.fill
  | .ifThen condition onTrue, a => a.ifStatement condition.fill (fillStatements onTrue)
  | .ifElse condition onTrue onFalse, a =>
    a.ifElse condition.fill (fillStatements onTrue) (fillStatements onFalse)
  | .loop condition body, a => a.whileStatement condition.fill (fillStatements body)
  | .doCall callee arguments, a => a.doStatement (.ofString callee.target) (fillArguments arguments)
  | .doExpression value, a =>
    a.within .doStatement fun a => ((a.keyword "do").expression value.fill).symbol ";"
  | .returnNothing, a => a.returnStatement
  | .returnValue value, a => a.returnValue value.fill

def fillStatements : List Statement → Assembly → Assembly
  | [], a => a
  | s :: rest, a => fillStatements rest (s.layout a)

end

def Variables.layout (vs : Variables) (a : Assembly) : Assembly := a.varDec vs.declaredType vs.names

def ClassVariables.layout (vs : ClassVariables) (a : Assembly) : Assembly :=
  a.classVarDec vs.kind.name vs.declared.declaredType vs.declared.names

def Subroutine.layout (s : Subroutine) (a : Assembly) : Assembly :=
  a.subroutineDec s.signature.kind.keyword s.signature.returnType s.signature.name s.parameters
    fun a => (s.locals.foldl (fun a vs => vs.layout a) a).statements (fillStatements s.body)

def Class.layout (c : Class) (a : Assembly) : Assembly :=
  a.classDec c.name fun a =>
    c.subroutines.foldl (fun a s => s.layout a) (c.declarations.foldl (fun a vs => vs.layout a) a)

/-! ## The callees of a class -/

mutual

def Term.callees : Term → List Callee
  | .integer _ | .string _ | .constant _ | .variable _ => []
  | .element _ index => index.callees
  | .group inner => inner.callees
  | .unary _ operand => operand.callees
  | .call callee arguments => callee :: argumentCallees arguments

def Expression.callees : Expression → List Callee
  | .mk first operations => first.callees ++ operationCallees operations

def operationCallees : List (BinaryOp × Term) → List Callee
  | [] => []
  | (_, term) :: rest => term.callees ++ operationCallees rest

def argumentCallees : List Expression → List Callee
  | [] => []
  | e :: rest => e.callees ++ argumentCallees rest

end

mutual

def Statement.callees : Statement → List Callee
  | .assign _ value | .doExpression value | .returnValue value => value.callees
  | .assignElement _ index value => index.callees ++ value.callees
  | .ifThen condition onTrue => condition.callees ++ statementCallees onTrue
  | .ifElse condition onTrue onFalse =>
    condition.callees ++ (statementCallees onTrue ++ statementCallees onFalse)
  | .loop condition body => condition.callees ++ statementCallees body
  | .doCall callee arguments => callee :: argumentCallees arguments
  | .returnNothing => []

def statementCallees : List Statement → List Callee
  | [] => []
  | s :: rest => s.callees ++ statementCallees rest

end

def Class.callees (c : Class) : List Callee :=
  c.subroutines.flatMap fun s => statementCallees s.body

/-! ## What a layout function adds -/

/-- Inside an open production, the function adds nodes with the given entries. -/
def Adds (f : Assembly → Assembly) (es : List Entry) : Prop :=
  ∀ kind children outer root misuse, ∃ nodes, Node.preorderAll nodes = es ∧
    f ⟨⟨kind, children⟩ :: outer, root, misuse⟩ =
      ⟨⟨kind, nodes.reverse ++ children⟩ :: outer, root, misuse⟩

/-- The same for a production that has no children yet. -/
def Fills (f : Assembly → Assembly) (es : List Entry) : Prop :=
  ∀ kind outer root misuse, ∃ nodes, Node.preorderAll nodes = es ∧
    f ⟨⟨kind, []⟩ :: outer, root, misuse⟩ = ⟨⟨kind, nodes.reverse⟩ :: outer, root, misuse⟩

variable {f g : Assembly → Assembly} {es es' : List Entry}

theorem Adds.fills (h : Adds f es) : Fills f es := by
  intro kind outer root misuse
  obtain ⟨nodes, hnodes, hf⟩ := h kind [] outer root misuse
  exact ⟨nodes, hnodes, by rw [hf, List.append_nil]⟩

theorem adds_id : Adds (fun a => a) [] := by
  intro kind children outer root misuse
  exact ⟨[], rfl, rfl⟩

theorem Adds.of_eq (h : Adds f es) (hes : es = es') : Adds f es' := hes ▸ h

theorem Adds.then (hf : Adds f es) (hg : Adds g es') : Adds (fun a => g (f a)) (es ++ es') := by
  intro kind children outer root misuse
  obtain ⟨nodes, rfl, hnodes⟩ := hf kind children outer root misuse
  obtain ⟨nodes', rfl, hnodes'⟩ := hg kind (nodes.reverse ++ children) outer root misuse
  refine ⟨nodes ++ nodes', by rw [Node.preorderAll, List.flatMap_append]; rfl, ?_⟩
  simp only [hnodes, hnodes', List.reverse_append, List.append_assoc]

theorem adds_token (kind : TokenKind) (text : String) :
    Adds (fun a => a.token kind text) [.token kind text] := by
  intro kind' children outer root misuse
  exact ⟨[.token kind text], rfl, rfl⟩

theorem adds_within (kind : Production) (h : Fills f es) :
    Adds (fun a => a.within kind f) (.production kind :: es) := by
  intro kind' children outer root misuse
  -- The nodes become the children of a new node, which is the only one that is added here.
  obtain ⟨nodes, rfl, hf⟩ := h kind (⟨kind', children⟩ :: outer) root misuse
  refine ⟨[.production kind nodes], ?_, ?_⟩
  · rw [Node.preorderAll, List.flatMap_singleton, Node.preorder_production]
  · have henter : Assembly.enter ⟨⟨kind', children⟩ :: outer, root, misuse⟩ kind =
        ⟨⟨kind, []⟩ :: ⟨kind', children⟩ :: outer, root, misuse⟩ := rfl
    simp only [Assembly.within, henter, hf, Assembly.leave, List.reverse_reverse]
    rfl

theorem Adds.within (h : Adds f es) (kind : Production) :
    Adds (fun a => a.within kind f) (.production kind :: es) :=
  adds_within kind h.fills

/-- One production is a whole tree. -/
theorem Fills.finish (h : Fills f es) (kind : Production) :
    ∃ root, (Assembly.within {} kind f).finish = .ok root ∧
      root.preorder = .production kind :: es := by
  obtain ⟨nodes, rfl, hf⟩ := h kind [] none none
  have henter : Assembly.enter {} kind = ⟨[⟨kind, []⟩], none, none⟩ := rfl
  refine ⟨.production kind nodes, ?_, Node.preorder_production kind nodes⟩
  simp only [Assembly.within, henter, hf, Assembly.leave, List.reverse_reverse]
  rfl

theorem adds_keyword (text : String) : Adds (fun a => a.keyword text) [.token .keyword text] :=
  adds_token .keyword text

theorem adds_symbol (text : String) : Adds (fun a => a.symbol text) [.token .symbol text] :=
  adds_token .symbol text

theorem adds_identifier (text : String) :
    Adds (fun a => a.identifier text) [.token .identifier text] :=
  adds_token .identifier text

theorem adds_typeName (type : String) :
    Adds (fun a => a.typeName type) [.token (Lexeme.typeKind type) type] := by
  unfold Assembly.typeName Lexeme.typeKind
  split
  · exact adds_keyword type
  · exact adds_identifier type

theorem adds_tokenTerm (kind : TokenKind) (text : String) :
    Adds (fun a => a.tokenTerm kind text) [.production .term, .token kind text] :=
  (adds_token kind text).within .term

theorem adds_foldl {α : Type} {item : Assembly → α → Assembly} {lexemes : α → List Lexeme}
    (xs : List α) (h : ∀ x ∈ xs, Adds (fun a => item a x) (written (lexemes x))) :
    Adds (fun a => xs.foldl item a) (written (xs.flatMap lexemes)) := by
  induction xs with
  | nil => exact adds_id
  | cons x xs ih =>
    rw [List.flatMap_cons, written_append]
    exact (h x (List.mem_cons_self ..)).then (ih fun y hy => h y (List.mem_cons_of_mem _ hy))

theorem adds_separated {α : Type} {item : Assembly → α → Assembly} {lexemes : α → List Lexeme}
    (h : ∀ x, Adds (fun a => item a x) (written (lexemes x))) (xs : List α) :
    Adds (fun a => a.separated item xs) (written (separated lexemes xs)) := by
  cases xs with
  | nil => exact adds_id
  | cons x rest =>
    have hnext : ∀ y, Adds (fun a => item (a.symbol ",") y)
        (written (Lexeme.symbol "," :: lexemes y)) :=
      fun y => (adds_symbol ",").then (h y)
    simp only [separated, written_append]
    exact (h x).then (adds_foldl rest fun y _ => hnext y)

/-! ## Expressions -/

attribute [local simp] Lexeme.entries

theorem adds_callee (callee : Callee) :
    Adds (fun a => a.callee callee) (written (calleeLexemes callee)) := by
  cases callee with
  | own name => exact adds_identifier name
  | qualified receiver name =>
    exact ((adds_identifier receiver).then (adds_symbol ".")).then (adds_identifier name)

theorem adds_call (callee : Callee) {arguments : List Expression}
    (h : Fills (fillArguments arguments) (written (argumentLexemes arguments))) :
    Adds (fun a => a.call callee (fillArguments arguments))
      (written (callLexemes callee arguments)) :=
  ((((adds_callee callee).then (adds_symbol "(")).then (adds_within .expressionList h)).then
    (adds_symbol ")")).of_eq (by simp [callLexemes])

/-! Only the arguments of a call depend on what has been added before: all but the first come after
a comma. -/

/-- What a function adds to a production that has children. -/
def Continues (f : Assembly → Assembly) (es : List Entry) : Prop :=
  ∀ kind children outer root misuse, children ≠ [] → ∃ nodes, Node.preorderAll nodes = es ∧
    f ⟨⟨kind, children⟩ :: outer, root, misuse⟩ =
      ⟨⟨kind, nodes.reverse ++ children⟩ :: outer, root, misuse⟩

theorem Continues.then (hf : Continues f es) (hg : Continues g es') :
    Continues (fun a => g (f a)) (es ++ es') := by
  intro kind children outer root misuse hne
  obtain ⟨nodes, rfl, hnodes⟩ := hf kind children outer root misuse hne
  obtain ⟨nodes', rfl, hnodes'⟩ :=
    hg kind (nodes.reverse ++ children) outer root misuse (by simp [hne])
  refine ⟨nodes ++ nodes', by rw [Node.preorderAll, List.flatMap_append]; rfl, ?_⟩
  simp only [hnodes, hnodes', List.reverse_append, List.append_assoc]

theorem Fills.continue (hf : Fills f es) (hne : es ≠ []) (hg : Continues g es') :
    Fills (fun a => g (f a)) (es ++ es') := by
  intro kind outer root misuse
  obtain ⟨nodes, rfl, hnodes⟩ := hf kind outer root misuse
  -- There is a child by now, since there are entries.
  have hnodes_ne : nodes ≠ [] := by
    rintro rfl
    exact hne rfl
  obtain ⟨nodes', rfl, hnodes'⟩ := hg kind nodes.reverse outer root misuse (by simp [hnodes_ne])
  refine ⟨nodes ++ nodes', by rw [Node.preorderAll, List.flatMap_append]; rfl, ?_⟩
  simp only [hnodes, hnodes', List.reverse_append]

theorem argument_fills (h : Adds f es) :
    Fills (fun a => a.argument f) (.production .expression :: es) := by
  intro kind outer root misuse
  exact (h.within .expression).fills kind outer root misuse

theorem argument_continues (h : Adds f es) :
    Continues (fun a => a.argument f) (.token .symbol "," :: .production .expression :: es) := by
  intro kind children outer root misuse hne
  obtain ⟨child, children, rfl⟩ := List.exists_cons_of_ne_nil hne
  exact ((adds_symbol ",").then (h.within .expression)) kind (child :: children) outer root misuse

/-- The entries of arguments after the first. -/
def moreArgumentLexemes (arguments : List Expression) : List Lexeme :=
  arguments.flatMap fun e => .symbol "," :: e.lexemes

theorem written_argumentLexemes (e : Expression) (rest : List Expression) :
    written (argumentLexemes (e :: rest)) =
      written e.lexemes ++ written (moreArgumentLexemes rest) := by
  induction rest generalizing e with
  | nil => simp [argumentLexemes, separator, moreArgumentLexemes]
  | cons e' rest ih =>
    rw [argumentLexemes, written_append, ih]
    simp [separator, moreArgumentLexemes]

/-- What an expression adds inside its production. -/
def Expression.inner : Expression → List Lexeme
  | .mk first operations => first.lexemes ++ operationLexemes operations

theorem written_expression (e : Expression) :
    written e.lexemes = .production .expression :: written e.inner := by
  cases e
  simp [Expression.lexemes, Expression.inner]

mutual

theorem Term.adds_layout : (t : Term) → (∀ callee ∈ t.callees, callee.Splits) →
    Adds t.layout (written t.lexemes)
  | .integer text, _ => adds_tokenTerm .integerConstant text
  | .string text, _ => adds_tokenTerm .stringConstant text
  | .constant value, _ => adds_tokenTerm .keyword value.keyword
  | .variable name, _ => adds_tokenTerm .identifier name
  | .element name index, h => by
    have hindex := index.adds_fill h
    exact ((((adds_identifier name).then (adds_symbol "[")).then (hindex.within .expression)).then
      (adds_symbol "]")).within .term |>.of_eq (by simp [Term.lexemes, written_expression])
  | .group inner, h => by
    have hinner := inner.adds_fill h
    exact (((adds_symbol "(").then (hinner.within .expression)).then
      (adds_symbol ")")).within .term |>.of_eq (by simp [Term.lexemes, written_expression])
  | .unary op operand, h => by
    have hoperand := operand.adds_layout h
    exact ((adds_symbol op.symbol).then hoperand).within .term |>.of_eq (by simp [Term.lexemes])
  | .call callee arguments, h => by
    have hsplits := Callee.ofString_target (h callee (List.mem_cons_self ..))
    have harguments := fills_arguments arguments fun callee hcallee =>
      h callee (List.mem_cons_of_mem _ hcallee)
    -- The callee is written as one text, which is split again when it is laid out.
    have hcall : Adds (fun a => a.callTerm callee (fillArguments arguments))
        (written (Term.call callee arguments).lexemes) :=
      ((adds_call callee harguments).within .term).of_eq (by simp [Term.lexemes, callLexemes])
    intro kind children outer root misuse
    rw [Term.layout, hsplits]
    exact hcall kind children outer root misuse

theorem Expression.adds_fill : (e : Expression) → (∀ callee ∈ e.callees, callee.Splits) →
    Adds e.fill (written e.inner)
  | .mk first operations, h => by
    have hfirst := first.adds_layout fun callee hcallee => h callee (List.mem_append_left _ hcallee)
    have hoperations := adds_operations operations fun callee hcallee =>
      h callee (List.mem_append_right _ hcallee)
    exact (hfirst.then hoperations).of_eq (written_append ..).symm

theorem adds_operations : (operations : List (BinaryOp × Term)) →
    (∀ callee ∈ operationCallees operations, callee.Splits) →
    Adds (fillOperations operations) (written (operationLexemes operations))
  | [], _ => adds_id
  | (op, term) :: rest, h => by
    have hterm := term.adds_layout fun callee hcallee => h callee (List.mem_append_left _ hcallee)
    have hrest := adds_operations rest fun callee hcallee =>
      h callee (List.mem_append_right _ hcallee)
    exact (((adds_symbol op.symbol).then hterm).then hrest).of_eq (by simp [operationLexemes])

theorem continues_arguments : (arguments : List Expression) →
    (∀ callee ∈ argumentCallees arguments, callee.Splits) →
    Continues (fillArguments arguments) (written (moreArgumentLexemes arguments))
  | [], _ => fun _ _ _ _ _ _ => ⟨[], rfl, rfl⟩
  | e :: rest, h => by
    have he := e.adds_fill fun callee hcallee => h callee (List.mem_append_left _ hcallee)
    have hrest := continues_arguments rest fun callee hcallee =>
      h callee (List.mem_append_right _ hcallee)
    have hentries : written (moreArgumentLexemes (e :: rest)) =
        .token .symbol "," :: .production .expression :: written e.inner ++
          written (moreArgumentLexemes rest) := by
      simp [moreArgumentLexemes, written_expression]
    rw [hentries]
    exact (argument_continues he).then hrest

theorem fills_arguments : (arguments : List Expression) →
    (∀ callee ∈ argumentCallees arguments, callee.Splits) →
    Fills (fillArguments arguments) (written (argumentLexemes arguments))
  | [], _ => adds_id.fills
  | e :: rest, h => by
    have he := e.adds_fill fun callee hcallee => h callee (List.mem_append_left _ hcallee)
    have hrest := continues_arguments rest fun callee hcallee =>
      h callee (List.mem_append_right _ hcallee)
    rw [written_argumentLexemes, written_expression]
    exact (argument_fills he).continue (List.cons_ne_nil _ _) hrest

end

theorem Expression.adds_expression (e : Expression) (h : ∀ callee ∈ e.callees, callee.Splits) :
    Adds (fun a => a.expression e.fill) (written e.lexemes) :=
  ((e.adds_fill h).within .expression).of_eq (written_expression e).symm

/-! ## Statements -/

theorem adds_condition {condition : Expression} (h : ∀ callee ∈ condition.callees, callee.Splits) :
    Adds (fun a => a.condition condition.fill) (written (conditionLexemes condition)) :=
  (((adds_symbol "(").then (condition.adds_expression h)).then (adds_symbol ")")).of_eq
    (by simp [conditionLexemes])

theorem adds_block {body : List Statement} (h : Adds (fillStatements body)
    (written (statementLexemes body))) :
    Adds (fun a => a.block (fillStatements body)) (written (blockLexemes body)) :=
  (((adds_symbol openBrace).then (h.within .statements)).then (adds_symbol closeBrace)).of_eq
    (by simp [blockLexemes])

mutual

theorem Statement.adds_layout : (s : Statement) → (∀ callee ∈ s.callees, callee.Splits) →
    Adds s.layout (written s.lexemes)
  | .assign name value, h => by
    have hvalue := value.adds_expression h
    exact (((((adds_keyword "let").then (adds_identifier name)).then (adds_symbol "=")).then
      hvalue).then (adds_symbol ";")).within .letStatement |>.of_eq (by simp [Statement.lexemes])
  | .assignElement name index value, h => by
    have hindex := index.adds_expression fun callee hcallee =>
      h callee (List.mem_append_left _ hcallee)
    have hvalue := value.adds_expression fun callee hcallee =>
      h callee (List.mem_append_right _ hcallee)
    have htarget := (((adds_keyword "let").then (adds_identifier name)).then
      (adds_symbol "[")).then hindex |>.then (adds_symbol "]")
    exact (((htarget.then (adds_symbol "=")).then hvalue).then (adds_symbol ";")).within
      .letStatement |>.of_eq (by simp [Statement.lexemes])
  | .ifThen condition onTrue, h => by
    have hcondition := adds_condition fun callee hcallee =>
      h callee (List.mem_append_left _ hcallee)
    have honTrue := adds_block (adds_statements onTrue fun callee hcallee =>
      h callee (List.mem_append_right _ hcallee))
    exact (((adds_keyword "if").then hcondition).then honTrue).within .ifStatement |>.of_eq
      (by simp [Statement.lexemes, blockLexemes])
  | .ifElse condition onTrue onFalse, h => by
    have hcondition := adds_condition fun callee hcallee =>
      h callee (List.mem_append_left _ hcallee)
    have honTrue := adds_block (adds_statements onTrue fun callee hcallee =>
      h callee (List.mem_append_right _ (List.mem_append_left _ hcallee)))
    have honFalse := adds_block (adds_statements onFalse fun callee hcallee =>
      h callee (List.mem_append_right _ (List.mem_append_right _ hcallee)))
    exact (((((adds_keyword "if").then hcondition).then honTrue).then (adds_keyword "else")).then
      honFalse).within .ifStatement |>.of_eq (by simp [Statement.lexemes, blockLexemes])
  | .loop condition body, h => by
    have hcondition := adds_condition fun callee hcallee =>
      h callee (List.mem_append_left _ hcallee)
    have hbody := adds_block (adds_statements body fun callee hcallee =>
      h callee (List.mem_append_right _ hcallee))
    exact (((adds_keyword "while").then hcondition).then hbody).within .whileStatement |>.of_eq
      (by simp [Statement.lexemes, blockLexemes])
  | .doCall callee arguments, h => by
    have hsplits := Callee.ofString_target (h callee (List.mem_cons_self ..))
    have harguments := fills_arguments arguments fun callee hcallee =>
      h callee (List.mem_cons_of_mem _ hcallee)
    have hcall : Adds (fun a => a.doStatement callee (fillArguments arguments))
        (written (Statement.doCall callee arguments).lexemes) :=
      (((adds_keyword "do").then (adds_call callee harguments)).then
        (adds_symbol ";")).within .doStatement |>.of_eq (by simp [Statement.lexemes])
    intro kind children outer root misuse
    rw [Statement.layout, hsplits]
    exact hcall kind children outer root misuse
  | .doExpression value, h => by
    have hvalue := value.adds_expression h
    exact (((adds_keyword "do").then hvalue).then (adds_symbol ";")).within .doStatement |>.of_eq
      (by simp [Statement.lexemes])
  | .returnNothing, _ => by
    exact ((adds_keyword "return").then (adds_symbol ";")).within .returnStatement
  | .returnValue value, h => by
    have hvalue := value.adds_expression h
    exact (((adds_keyword "return").then hvalue).then (adds_symbol ";")).within
      .returnStatement |>.of_eq (by simp [Statement.lexemes])

theorem adds_statements : (body : List Statement) →
    (∀ callee ∈ statementCallees body, callee.Splits) →
    Adds (fillStatements body) (written (statementLexemes body))
  | [], _ => adds_id
  | s :: rest, h => by
    have hs := s.adds_layout fun callee hcallee => h callee (List.mem_append_left _ hcallee)
    have hrest := adds_statements rest fun callee hcallee =>
      h callee (List.mem_append_right _ hcallee)
    exact (hs.then hrest).of_eq (written_append ..).symm

end

/-! ## Declarations -/

theorem adds_names (names : List String) :
    Adds (fun a => a.separated Assembly.identifier names) (written (separated nameLexemes names)) :=
  adds_separated adds_identifier names

theorem Variables.adds_layout (vs : Variables) : Adds vs.layout (written (localLexemes vs)) :=
  ((((adds_keyword "var").then (adds_typeName vs.declaredType)).then (adds_names vs.names)).then
    (adds_symbol ";")).within .varDec |>.of_eq (by simp [localLexemes, Variables.lexemes])

theorem ClassVariables.adds_layout (vs : ClassVariables) : Adds vs.layout (written vs.lexemes) :=
  ((((adds_keyword vs.kind.name).then (adds_typeName vs.declared.declaredType)).then
    (adds_names vs.declared.names)).then (adds_symbol ";")).within .classVarDec |>.of_eq
    (by simp [ClassVariables.lexemes, Variables.lexemes])

theorem adds_parameter (p : String × String) :
    Adds (fun a => a.parameter p) (written (parameterLexemes p)) :=
  (adds_typeName p.1).then (adds_identifier p.2)

theorem Subroutine.adds_layout (s : Subroutine)
    (h : ∀ callee ∈ statementCallees s.body, callee.Splits) :
    Adds s.layout (written s.lexemes) := by
  have hhead := (((adds_keyword s.signature.kind.keyword).then
    (adds_typeName s.signature.returnType)).then (adds_identifier s.signature.name)).then
    (adds_symbol "(")
  have hparameters := (adds_separated adds_parameter s.parameters).within .parameterList
  have hlocals := adds_foldl s.locals fun vs _ => vs.adds_layout
  have hbody := (((adds_symbol openBrace).then (hlocals.then
    ((adds_statements s.body h).within .statements))).then
    (adds_symbol closeBrace)).within .subroutineBody
  exact (((hhead.then hparameters).then (adds_symbol ")")).then hbody).within .subroutineDec
    |>.of_eq (by simp [Subroutine.lexemes])

/-- The layout functions build a tree whose entries spell the class. -/
theorem Class.finish_layout (c : Class) (h : ∀ callee ∈ c.callees, callee.Splits) :
    ∃ root, (c.layout {}).finish = .ok root ∧ root.preorder = written c.lexemes := by
  have hhead := ((adds_keyword "class").then (adds_identifier c.name)).then (adds_symbol openBrace)
  have hvariables := adds_foldl c.declarations fun vs _ => vs.adds_layout
  have hsubroutines := adds_foldl c.subroutines fun s hs =>
    s.adds_layout fun callee hcallee => h callee (List.mem_flatMap.2 ⟨s, hs, hcallee⟩)
  have hbody := ((hhead.then hvariables).then hsubroutines).then (adds_symbol closeBrace)
  obtain ⟨root, hroot, hentries⟩ := hbody.fills.finish .classDec
  exact ⟨root, hroot, by rw [hentries]; simp [Class.lexemes]⟩

end Grammar

end Jack
