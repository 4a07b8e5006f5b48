import Jack.Proofs.Grammar.Boundary
import Jack.Proofs.Grammar.CallSites

/-!
# Where the terms of a class stand

A marker of a term stands nowhere but inside an expression, at the beginning of the entries that
spell the term, and what comes behind these entries does not turn the term into a call. So an
identifier that follows such a marker leads a call of the expression if a parenthesis or a dot comes
after it.
-/

namespace Jack

/-- A call goes on with the entry after its first identifier. -/
def Entry.ContinuesCall (e : Entry) : Prop := e = .token .symbol "(" ∨ e = .token .symbol "."

namespace Grammar

/-- An expression among the entries makes a call whose first identifier is the name at the index. -/
def LeadsCall (entries : List Entry) (index : Nat) (name : String) : Prop :=
  ∃ (e : Expression) (callee : Callee) (arguments : List Expression)
    (before left part right after : List Entry),
    entries = before ++ (left ++ part ++ right) ++ after ∧
    before.length + left.length = index ∧
    Spells e.lexemes (left ++ part ++ right) ∧
    Spells (callLexemes callee arguments) part ∧
    firstName callee = name ∧
    .source callee arguments ∈ e.invocations

/-! ## Terms among entries -/

/-- No call goes on with the entries. -/
def EndsCall (es : List Entry) : Prop := ∀ e ∈ es.head?, ¬e.ContinuesCall

/-- What can be said of a part of some entries, given those before it, the part and the rest. -/
abbrev Part := List Entry → List Entry → List Entry → Prop

/-- More entries around do not matter. -/
structure Part.Stable (P : Part) : Prop where
  before : ∀ {before part rest} (es : List Entry), P before part rest → P (es ++ before) part rest
  after : ∀ {before part rest} (es : List Entry), P before part rest → P before part (rest ++ es)

/-- Every marker of a term begins a part of which `P` holds, and no call goes on behind it. -/
def EachTerm (P : Part) (es : List Entry) : Prop :=
  ∀ before after, es = before ++ .production .term :: after →
    ∃ part rest, .production .term :: after = part ++ rest ∧ EndsCall rest ∧ P before part rest

variable {P P' : Part} {es es' : List Entry} {ls ls' : List Lexeme} {l : Lexeme}

/-- An element of two lists is one of the first or one of the second. -/
theorem append_eq_append_cons {α : Type} {xs ys before after : List α} {x : α}
    (h : xs ++ ys = before ++ x :: after) :
    (∃ mid, xs = before ++ x :: mid ∧ after = mid ++ ys) ∨
      ∃ mid, before = xs ++ mid ∧ ys = mid ++ x :: after := by
  rcases List.append_eq_append_iff.1 h with ⟨mid, hbefore, hys⟩ | ⟨mid, hxs, hcons⟩
  · exact .inr ⟨mid, hbefore, hys⟩
  · cases mid with
    | nil =>
      rw [List.append_nil] at hxs
      exact .inr ⟨[], by rw [hxs, List.append_nil], hcons.symm⟩
    | cons y mid =>
      obtain ⟨rfl, rfl⟩ := List.cons.inj hcons
      exact .inl ⟨mid, hxs, rfl⟩

theorem EachTerm.append (hP : P.Stable) (h : EachTerm P es) (h' : EachTerm P es')
    (hends : .production .term ∈ es → EndsCall es') : EachTerm P (es ++ es') := by
  intro before after heq
  rcases append_eq_append_cons heq with ⟨mid, rfl, rfl⟩ | ⟨mid, rfl, rfl⟩
  · obtain ⟨part, rest, hpart, hrest, hp⟩ := h before mid rfl
    refine ⟨part, rest ++ es', ?_, ?_, hP.after es' hp⟩
    · rw [← List.append_assoc, ← hpart]
      rfl
    · -- If nothing is left of the first entries then the second ones come next.
      cases rest with
      | nil => exact hends (List.mem_append_right _ (List.mem_cons_self ..))
      | cons e rest => exact hrest
  · obtain ⟨part, rest, hpart, hrest, hp⟩ := h' mid after rfl
    exact ⟨part, rest, hpart, hrest, hP.before es hp⟩

theorem eachTerm_of_notMem (h : .production .term ∉ es) : EachTerm P es := by
  rintro before after rfl
  exact absurd (List.mem_append_right _ (List.mem_cons_self ..)) h

theorem EachTerm.cons (hP : P.Stable) (h : EachTerm P es)
    (hfirst : P [] (.production .term :: es) []) : EachTerm P (.production .term :: es) := by
  intro before after heq
  cases before with
  | nil =>
    obtain rfl : es = after := (List.cons.inj heq).2
    exact ⟨.production .term :: es, [], (List.append_nil _).symm, nofun, hfirst⟩
  | cons e before =>
    obtain ⟨rfl, rfl⟩ := List.cons.inj heq
    obtain ⟨part, rest, hpart, hrest, hp⟩ := h before after rfl
    exact ⟨part, rest, hpart, hrest, hP.before [.production .term] hp⟩

/-! ## Terms among lexemes -/

/-- However the lexemes are spelled, the same holds of every term. -/
def EachSpelledTerm (P : Part) (ls : List Lexeme) : Prop := ∀ es, Spells ls es → EachTerm P es

/-- However the lexemes are spelled, no call goes on with them. -/
def Closes (ls : List Lexeme) : Prop := ∀ es, Spells ls es → EndsCall es

/-- Whether a lexeme is spelled by one entry, with which no call goes on. -/
def Lexeme.closes : Lexeme → Bool
  | marker _ => true
  | keyword text | symbol text | token _ text => text ≠ "(" ∧ text ≠ "."
  | type _ | lastComma => false

theorem not_continuesCall_production (p : Production) : ¬(Entry.production p).ContinuesCall := by
  rintro (h | h) <;> cases h

theorem not_continuesCall_token {kind : TokenKind} {text : String} (h : text ≠ "(" ∧ text ≠ ".") :
    ¬(Entry.token kind text).ContinuesCall := by
  rintro (he | he)
  · exact h.1 (Entry.token.inj he).2
  · exact h.2 (Entry.token.inj he).2

theorem closes_cons (hl : l.closes = true) : Closes (l :: ls) := by
  rintro _ ⟨first, rest, rfl, hfirst, -⟩
  cases l with
  | marker p =>
    obtain rfl := hfirst
    rintro _ ⟨⟩
    exact not_continuesCall_production p
  | keyword text | symbol text =>
    obtain ⟨kind, rfl⟩ := hfirst
    rintro _ ⟨⟩
    exact not_continuesCall_token (of_decide_eq_true hl)
  | token kind text =>
    obtain rfl := hfirst
    rintro _ ⟨⟩
    exact not_continuesCall_token (of_decide_eq_true hl)
  | type text => cases hl
  | lastComma => cases hl

theorem closes_nil : Closes [] := by
  rintro _ rfl
  exact nofun

theorem EachSpelledTerm.mono (h : EachSpelledTerm P ls)
    (hP : ∀ before part rest, P before part rest → P' before part rest) :
    EachSpelledTerm P' ls := by
  intro es hes before after heq
  obtain ⟨part, rest, hpart, hrest, hp⟩ := h es hes before after heq
  exact ⟨part, rest, hpart, hrest, hP _ _ _ hp⟩

theorem eachSpelledTerm_of_notMem (h : .marker .term ∉ ls) : EachSpelledTerm P ls :=
  fun _ hes => eachTerm_of_notMem fun hmem => h (hes.marker_mem hmem)

theorem EachSpelledTerm.append (hP : P.Stable) (h : EachSpelledTerm P ls)
    (h' : EachSpelledTerm P ls') (hcloses : Closes ls') : EachSpelledTerm P (ls ++ ls') := by
  intro es hes
  obtain ⟨es₁, es₂, rfl, h₁, h₂⟩ := hes.split
  exact (h es₁ h₁).append hP (h' es₂ h₂) fun _ => hcloses es₂ h₂

/-- What comes behind lexemes without a term does not matter. -/
theorem EachSpelledTerm.after (hP : P.Stable) (ls : List Lexeme) (hls : .marker .term ∉ ls)
    (h : EachSpelledTerm P ls') : EachSpelledTerm P (ls ++ ls') := by
  intro es hes
  obtain ⟨es₁, es₂, rfl, h₁, h₂⟩ := hes.split
  have hmem : .production .term ∉ es₁ := fun hmem => hls (h₁.marker_mem hmem)
  exact (eachTerm_of_notMem hmem).append hP (h es₂ h₂) fun h => absurd h hmem

/-- Lexemes without a term that close what stands before them. -/
theorem EachSpelledTerm.closed (hP : P.Stable) (h : EachSpelledTerm P ls)
    (hl : l.closes = true) (hls : .marker .term ∉ l :: ls') : EachSpelledTerm P (ls ++ l :: ls') :=
  h.append hP (eachSpelledTerm_of_notMem hls) (closes_cons hl)

theorem closes_operations (operations : List (BinaryOp × Term)) :
    Closes (operationLexemes operations) := by
  cases operations with
  | nil => exact closes_nil
  | cons operation rest =>
    obtain ⟨op, t⟩ := operation
    apply closes_cons
    cases op <;> decide

theorem Expression.closes (e : Expression) : Closes e.lexemes := by
  cases e
  exact closes_cons rfl

theorem closes_arguments (arguments : List Expression) : Closes (argumentLexemes arguments) := by
  cases arguments with
  | nil => exact closes_nil
  | cons e rest =>
    cases e
    exact closes_cons rfl

theorem closes_separator (arguments : List Expression) : Closes [separator arguments] := by
  cases arguments with
  | nil =>
    rintro _ ⟨_, _, rfl, rfl | rfl, rfl⟩
    · exact nofun
    · rintro _ ⟨⟩
      exact not_continuesCall_token (by decide)
  | cons e rest =>
    have hcomma : (Lexeme.symbol ",").closes = true := by decide
    exact closes_cons hcomma

theorem EachSpelledTerm.argument {e : Expression} {rest : List Expression} (hP : P.Stable)
    (he : EachSpelledTerm P e.lexemes) (hrest : EachSpelledTerm P (argumentLexemes rest)) :
    EachSpelledTerm P (argumentLexemes (e :: rest)) := by
  have hseparator : .marker .term ∉ [separator rest] := by
    cases rest <;> simp [separator]
  have hcomma := he.append hP (eachSpelledTerm_of_notMem hseparator) (closes_separator rest)
  exact hcomma.append hP hrest (closes_arguments rest)

/-! ## Terms of an expression -/

/-- The part is a term, all calls of which are among the given ones. -/
def TermOf (invs : List Invocation) : Part := fun _ part _ =>
  ∃ t : Term, Spells t.lexemes part ∧ t.invocations ⊆ invs

theorem stable_termOf (invs : List Invocation) : (TermOf invs).Stable := ⟨fun _ => id, fun _ => id⟩

theorem EachSpelledTerm.of_subset {invs invs' : List Invocation}
    (h : EachSpelledTerm (TermOf invs) ls) (hinvs : invs ⊆ invs') :
    EachSpelledTerm (TermOf invs') ls :=
  h.mono fun _ _ _ ⟨t, ht, hsubset⟩ => ⟨t, ht, fun _ hinv => hinvs (hsubset hinv)⟩

theorem Term.eachTerm_of {t : Term} (hls : t.lexemes = .marker .term :: ls)
    (h : EachSpelledTerm (TermOf t.invocations) ls) :
    EachSpelledTerm (TermOf t.invocations) t.lexemes := by
  intro es hes
  have hspells := hes
  rw [hls] at hspells
  obtain ⟨_, rest, rfl, rfl, hrest⟩ := hspells
  exact (h rest hrest).cons (stable_termOf _) ⟨t, hes, List.Subset.refl _⟩

mutual

theorem Term.eachTerm : (t : Term) → EachSpelledTerm (TermOf t.invocations) t.lexemes
  | .integer _ | .string _ | .constant _ | .variable _ =>
    Term.eachTerm_of rfl (eachSpelledTerm_of_notMem (by simp))
  | .element name index => by
    have hindex := index.eachTerm.after (stable_termOf _) [.token .identifier name, .symbol "["]
      (by simp)
    exact Term.eachTerm_of rfl (hindex.closed (stable_termOf _) (by decide) (by simp))
  | .group inner => by
    have hinner := inner.eachTerm.after (stable_termOf _) [.symbol "("] (by simp)
    exact Term.eachTerm_of rfl (hinner.closed (stable_termOf _) (by decide) (by simp))
  | .unary op operand =>
    Term.eachTerm_of rfl
      (operand.eachTerm.after (stable_termOf _) [.token .symbol op.symbol] (by simp))
  | .call callee arguments => by
    have hcallee : .marker .term ∉ calleeLexemes callee ++ [.symbol "(", .marker .expressionList] := by
      cases callee <;> simp [calleeLexemes]
    have harguments := (eachTerm_arguments arguments).of_subset
      (List.subset_append_left _ [.source callee arguments])
    have hopen := harguments.after (stable_termOf _) _ hcallee
    exact Term.eachTerm_of rfl (hopen.closed (stable_termOf _) (by decide) (by simp))

theorem Expression.eachTerm : (e : Expression) → EachSpelledTerm (TermOf e.invocations) e.lexemes
  | .mk first operations => by
    have hfirst := first.eachTerm.of_subset
      (List.subset_append_left _ (operationInvocations operations))
    have hoperations := (eachTerm_operations operations).of_subset
      (List.subset_append_right first.invocations _)
    have hmarker := hfirst.after (stable_termOf _) [.marker .expression] (by simp)
    exact hmarker.append (stable_termOf _) hoperations (closes_operations operations)

theorem eachTerm_operations : (operations : List (BinaryOp × Term)) →
    EachSpelledTerm (TermOf (operationInvocations operations)) (operationLexemes operations)
  | [] => eachSpelledTerm_of_notMem List.not_mem_nil
  | (op, term) :: rest => by
    have hterm := term.eachTerm.of_subset
      (List.Subset.trans (List.subset_append_left _ (operatorInvocations op))
        (List.subset_append_left _ (operationInvocations rest)))
    have hrest := (eachTerm_operations rest).of_subset
      (List.subset_append_right (term.invocations ++ operatorInvocations op) _)
    have hop := hterm.after (stable_termOf _) [.token .symbol op.symbol] (by simp)
    exact hop.append (stable_termOf _) hrest (closes_operations rest)

theorem eachTerm_arguments : (arguments : List Expression) →
    EachSpelledTerm (TermOf (argumentInvocations arguments)) (argumentLexemes arguments)
  | [] => eachSpelledTerm_of_notMem List.not_mem_nil
  | e :: rest => by
    have he := e.eachTerm.of_subset (List.subset_append_left _ (argumentInvocations rest))
    have hrest := (eachTerm_arguments rest).of_subset (List.subset_append_right e.invocations _)
    exact he.argument (stable_termOf _) hrest

end

/-! ## Terms of a class -/

/-- The part is a term of an expression that is spelled by the part and some entries around it. -/
def TermInside : Part := fun before part rest =>
  ∃ (e : Expression) (before' left right after : List Entry), before = before' ++ left ∧
    rest = right ++ after ∧ Spells e.lexemes (left ++ part ++ right) ∧
    TermOf e.invocations before part rest

theorem stable_termInside : TermInside.Stable := by
  constructor
  · rintro before part rest es ⟨e, before', left, right, after, rfl, rfl, he, hpart⟩
    exact ⟨e, es ++ before', left, right, after, (List.append_assoc ..).symm, rfl, he, hpart⟩
  · rintro before part rest es ⟨e, before', left, right, after, rfl, rfl, he, hpart⟩
    exact ⟨e, before', left, right, after ++ es, rfl, List.append_assoc .., he, hpart⟩

theorem Expression.eachTermInside (e : Expression) : EachSpelledTerm TermInside e.lexemes := by
  rintro es hes before after rfl
  obtain ⟨part, rest, hpart, hrest, hterm⟩ := e.eachTerm _ hes before after rfl
  rw [hpart, ← List.append_assoc] at hes
  exact ⟨part, rest, hpart, hrest, e, [], before, rest, [], rfl, (List.append_nil _).symm, hes, hterm⟩

theorem eachTermInside_call (callee : Callee) (arguments : List Expression) :
    EachSpelledTerm TermInside (callLexemes callee arguments) := by
  have hcallee : .marker .term ∉ calleeLexemes callee ++ [.symbol "(", .marker .expressionList] := by
    cases callee <;> simp [calleeLexemes]
  have harguments : EachSpelledTerm TermInside (argumentLexemes arguments) := by
    induction arguments with
    | nil => exact eachSpelledTerm_of_notMem List.not_mem_nil
    | cons e rest ih => exact e.eachTermInside.argument stable_termInside ih
  exact (harguments.after stable_termInside _ hcallee).closed stable_termInside (by decide) (by simp)

theorem eachTermInside_condition (e : Expression) :
    EachSpelledTerm TermInside (conditionLexemes e) :=
  (e.eachTermInside.after stable_termInside [.symbol "("] (by simp)).closed stable_termInside
    (by decide) (by simp)

theorem closes_statements (body : List Statement) : Closes (statementLexemes body) := by
  cases body with
  | nil => exact closes_nil
  | cons s rest => cases s <;> exact closes_cons rfl

/-- A block behind something that it closes. -/
theorem EachSpelledTerm.block {body : List Statement} (h : EachSpelledTerm TermInside ls)
    (hbody : EachSpelledTerm TermInside (statementLexemes body)) :
    EachSpelledTerm TermInside
      (ls ++ [.symbol openBrace, .marker .statements] ++ statementLexemes body) :=
  (h.closed stable_termInside (by decide) (by simp)).append stable_termInside hbody
    (closes_statements body)

mutual

theorem Statement.eachTermInside : (s : Statement) → EachSpelledTerm TermInside s.lexemes
  | .assign name value => by
    have hvalue := value.eachTermInside.after stable_termInside
      [.marker .letStatement, .keyword "let", .token .identifier name, .symbol "="] (by simp)
    exact hvalue.closed stable_termInside (by decide) (by simp)
  | .assignElement name index value => by
    have hindex := index.eachTermInside.after stable_termInside
      [.marker .letStatement, .keyword "let", .token .identifier name, .symbol "["] (by simp)
    have hbetween : EachSpelledTerm TermInside (_ ++ [.symbol "]", .symbol "="]) :=
      hindex.closed stable_termInside (by decide) (by simp)
    exact (hbetween.append stable_termInside value.eachTermInside value.closes).closed
      stable_termInside (by decide) (by simp)
  | .ifThen condition onTrue => by
    have hcondition := (eachTermInside_condition condition).after stable_termInside
      [.marker .ifStatement, .keyword "if"] (by simp)
    exact (hcondition.block (eachTermInside_statements onTrue)).closed stable_termInside
      (by decide) (by simp)
  | .ifElse condition onTrue onFalse => by
    have hcondition := (eachTermInside_condition condition).after stable_termInside
      [.marker .ifStatement, .keyword "if"] (by simp)
    have hbetween : EachSpelledTerm TermInside
        (_ ++ [.symbol closeBrace, .keyword "else", .symbol openBrace, .marker .statements]) :=
      (hcondition.block (eachTermInside_statements onTrue)).closed stable_termInside (by decide)
        (by simp)
    exact (hbetween.append stable_termInside (eachTermInside_statements onFalse)
      (closes_statements onFalse)).closed stable_termInside (by decide) (by simp)
  | .loop condition body => by
    have hcondition := (eachTermInside_condition condition).after stable_termInside
      [.marker .whileStatement, .keyword "while"] (by simp)
    exact (hcondition.block (eachTermInside_statements body)).closed stable_termInside
      (by decide) (by simp)
  | .doCall callee arguments => by
    have hcall := (eachTermInside_call callee arguments).after stable_termInside
      [.marker .doStatement, .keyword "do"] (by simp)
    exact hcall.closed stable_termInside (by decide) (by simp)
  | .doExpression value => by
    have hvalue := value.eachTermInside.after stable_termInside
      [.marker .doStatement, .keyword "do"] (by simp)
    exact hvalue.closed stable_termInside (by decide) (by simp)
  | .returnNothing => eachSpelledTerm_of_notMem (by simp [Statement.lexemes])
  | .returnValue value => by
    have hvalue := value.eachTermInside.after stable_termInside
      [.marker .returnStatement, .keyword "return"] (by simp)
    exact hvalue.closed stable_termInside (by decide) (by simp)

theorem eachTermInside_statements : (body : List Statement) →
    EachSpelledTerm TermInside (statementLexemes body)
  | [] => eachSpelledTerm_of_notMem List.not_mem_nil
  | s :: rest =>
    s.eachTermInside.append stable_termInside (eachTermInside_statements rest)
      (closes_statements rest)

end

theorem Variables.term_notMem (vs : Variables) : .marker .term ∉ vs.lexemes := by
  simp [Variables.lexemes, notMem_separated, nameLexemes]

theorem Subroutine.eachTermInside (s : Subroutine) : EachSpelledTerm TermInside s.lexemes := by
  have hstart : .marker .term ∉
      [.marker .subroutineDec, .token .keyword s.signature.kind.keyword,
          .type s.signature.returnType, .token .identifier s.signature.name, .symbol "(",
          .marker .parameterList] ++ separated parameterLexemes s.parameters ++
        [.symbol ")", .marker .subroutineBody, .symbol openBrace] ++
        s.locals.flatMap localLexemes ++ [.marker .statements] := by
    have hparameters : .marker .term ∉ separated parameterLexemes s.parameters :=
      notMem_separated (fun p => by simp [parameterLexemes]) s.parameters
    simp [hparameters, localLexemes, Variables.term_notMem]
  exact ((eachTermInside_statements s.body).after stable_termInside _ hstart).closed
    stable_termInside (by decide) (by simp)

theorem Class.eachTermInside (c : Class) : EachSpelledTerm TermInside c.lexemes := by
  have hstart : .marker .term ∉
      [.marker .classDec, .keyword "class", .token .identifier c.name, .symbol openBrace] ++
        c.declarations.flatMap ClassVariables.lexemes := by
    simp [ClassVariables.lexemes, Variables.term_notMem]
  have hcloses (subroutines : List Subroutine) :
      Closes (subroutines.flatMap Subroutine.lexemes) := by
    cases subroutines with
    | nil => exact closes_nil
    | cons s rest => exact closes_cons rfl
  have hsubroutines : EachSpelledTerm TermInside (c.subroutines.flatMap Subroutine.lexemes) := by
    induction c.subroutines with
    | nil => exact eachSpelledTerm_of_notMem List.not_mem_nil
    | cons s rest ih => exact s.eachTermInside.append stable_termInside ih (hcloses rest)
  exact (hsubroutines.after stable_termInside _ hstart).closed stable_termInside (by decide)
    (by simp)

/-! ## Calls -/

/-- A term that begins with an identifier is a call if a call goes on behind the identifier. -/
theorem Term.exists_eq_call {t : Term} {name : String} {e : Entry} {part rest after : List Entry}
    (ht : Spells t.lexemes part) (hrest : EndsCall rest) (he : e.ContinuesCall)
    (heq : .production .term :: .token .identifier name :: e :: after = part ++ rest) :
    ∃ callee arguments part', t = .call callee arguments ∧ firstName callee = name ∧
      part = .production .term :: part' ∧ Spells (callLexemes callee arguments) part' := by
  match t, ht with
  | .integer _, ht | .string _, ht | .constant _, ht | .unary _ _, ht =>
    -- The second entry is no identifier.
    obtain ⟨_, _, rfl, rfl, _, _, rfl, rfl, -⟩ := ht
    cases heq
  | .variable _, ht =>
    -- Nothing but the rest comes behind the identifier.
    obtain ⟨_, _, rfl, rfl, _, _, rfl, rfl, rfl⟩ := ht
    cases heq
    exact absurd he (hrest e rfl)
  | .element _ _, ht =>
    obtain ⟨_, _, rfl, rfl, _, _, rfl, rfl, _, _, rfl, ⟨kind, rfl⟩, -⟩ := ht
    cases heq
    exact absurd he (not_continuesCall_token (by decide))
  | .group (.mk _ _), ht =>
    -- An expression comes behind what is read as a parenthesis.
    obtain ⟨_, _, rfl, rfl, _, _, rfl, ⟨kind, rfl⟩, _, _, rfl, rfl, -⟩ := ht
    cases heq
    exact absurd he (not_continuesCall_production _)
  | .call callee arguments, ht =>
    have hlexemes : (Term.call callee arguments).lexemes =
        .marker .term :: callLexemes callee arguments := rfl
    rw [hlexemes] at ht
    obtain ⟨_, part', rfl, rfl, hcall⟩ := ht
    refine ⟨callee, arguments, part', rfl, ?_, rfl, hcall⟩
    cases callee with
    | own name' | qualified name' method =>
      obtain ⟨_, _, rfl, rfl, -⟩ := hcall
      have hidentifier := (List.cons.inj (List.cons.inj heq).2).1
      exact (Entry.token.inj hidentifier).2.symm

/-- Behind the marker of a term, an identifier that a call goes on after leads a call. -/
theorem Class.leadsCall {c : Class} {n : Nat} {name : String} {e : Entry}
    (h : Spells c.lexemes es) (hterm : es[n]? = some (.production .term))
    (hname : es[n + 1]? = some (.token .identifier name)) (hcall : es[n + 2]? = some e)
    (he : e.ContinuesCall) : LeadsCall es (n + 1) name := by
  obtain ⟨hlt, hlast⟩ := List.getElem?_eq_some_iff.1 hcall
  have hdrop : es.drop n =
      .production .term :: .token .identifier name :: e :: es.drop (n + 3) := by
    rw [List.drop_eq_getElem_cons (by omega), List.drop_eq_getElem_cons (by omega),
      List.drop_eq_getElem_cons hlt, hlast, (List.getElem?_eq_some_iff.1 hterm).2,
      (List.getElem?_eq_some_iff.1 hname).2]
  have hsplit : es = es.take n ++ .production .term ::
      .token .identifier name :: e :: es.drop (n + 3) := by
    rw [← hdrop, List.take_append_drop]
  obtain ⟨part, rest, hpart, hrest, x, before, left, right, after, hbefore, rfl, hx, t, ht, hsubset⟩ :=
    c.eachTermInside es h _ _ hsplit
  obtain ⟨callee, arguments, part', rfl, hfirst, rfl, hspells⟩ :=
    Term.exists_eq_call ht hrest he hpart
  have hlength : n = before.length + left.length := by
    rw [← List.length_append, ← hbefore, List.length_take]
    omega
  refine ⟨x, callee, arguments, before, left ++ [.production .term], part', right, after, ?_, ?_, ?_,
    hspells, hfirst, hsubset (List.mem_append_right _ (List.mem_cons_self ..))⟩
  · rw [hsplit, hbefore, hpart]
    simp only [List.append_assoc, List.cons_append, List.nil_append]
  · rw [List.length_append, hlength]
    rfl
  · rwa [List.append_assoc left]

end Grammar

end Jack
