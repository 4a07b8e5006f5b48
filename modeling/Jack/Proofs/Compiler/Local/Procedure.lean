import Jack.Proofs.Compiler.Local

/-!
# The faults of the procedures

Procedure by procedure, a fault is about the entry that it names, and what comes behind the entry
after that one does not matter. Most procedures fail only where they find an entry that they do not
expect. A procedure that can exceed a limit is told what stands in front of it.
-/

namespace Jack.Fork

open Compiler
open Grammar (Expression calleeLexemes callLexemes separated nameLexemes parameterLexemes)
open Vm (Instruction)

variable {w : Fork} {scope : Scope} {n p d e bound : Nat}

/-! ## Expressions -/

/-- The name has its own entry, which is already passed. -/
theorem local_resolve {name : String} (hname : w.entries[n]? = some (.token .identifier name)) :
    w.Local (n + 1) (resolve scope name (.ofIndex n)) (resolve scope name (.ofIndex n))
      fun n' _ => n' = n + 1 := by
  unfold resolve
  split
  · exact local_pure rfl
  · exact local_throw rfl (Nat.le_refl _) hname

theorem local_integerTerm {text : String}
    (htext : w.entries[n]? = some (.token .integerConstant text)) :
    w.Local (n + 1) (integerTerm text (.ofIndex n)) (integerTerm text (.ofIndex n))
      fun n' _ => n' = n + 1 := by
  unfold integerTerm
  split
  · exact local_emit _
  · exact local_throw rfl (Nat.le_refl _) (.inl htext)

theorem stringInstructions_error {text offending : String}
    (h : stringInstructions text = .error offending) :
    offending = text ∨ ∃ c ∈ text.toList, offending = String.singleton c := by
  unfold stringInstructions at h
  split at h
  · cases h
    exact .inl rfl
  · split at h
    · next c hc =>
      cases h
      exact .inr ⟨c, List.mem_of_find?_eq_some hc, rfl⟩
    · cases h

theorem local_stringTerm {text : String}
    (htext : w.entries[n]? = some (.token .stringConstant text)) :
    w.Local (n + 1) (stringTerm text (.ofIndex n)) (stringTerm text (.ofIndex n))
      fun n' _ => n' = n + 1 := by
  unfold stringTerm
  split
  · exact local_emitAll _
  · next offending h =>
    exact local_throw rfl (Nat.le_refl _) (.inr ⟨text, htext, stringInstructions_error h⟩)

/-- One argument too many is noticed behind what makes it one too many. -/
theorem local_oneMore {args : Nat} (h : args = argumentLimit →
      (∃ arguments, arguments.length = argumentLimit + 1 ∧
        EndsIn (w.entries.take n)
          (.marker .expressionList :: separated Expression.lexemes arguments)) ∨
      ∃ callee arguments, arguments.length = argumentLimit ∧
        EndsIn (w.entries.take n) (callLexemes callee arguments)) :
    w.Local n (oneMore args) (oneMore args) fun n' args' => n' = n ∧ args' = args + 1 := by
  unfold oneMore
  split
  · next hfull =>
    apply local_of_le
    intro hle
    apply local_position
    exact local_throw rfl (Nat.le_succ n) (.inr ⟨rfl, hle, h hfull⟩)
  · exact local_pure ⟨rfl, rfl⟩

section

variable {term term' expression expression' operators operators' : Compiler Unit}
  {arguments arguments' : Compiler Nat}

theorem localFrom_elementAddress (base : Slot) (he : w.LocalFrom d d expression expression') :
    w.LocalFrom d d (elementAddress base expression) (elementAddress base expression') :=
  he.bind fun _ => (localFrom_word "]").bind fun _ => (localFrom_emit _).bind fun _ =>
    localFrom_emit _

/-- The compilers of the arguments of a call, whose marker has just been passed. -/
structure LocalArguments (w : Fork) (scope : Scope) (d bound : Nat)
    (arguments arguments' : Compiler Nat) : Prop where
  start : ∀ n, d ≤ n → EndsIn (w.entries.take n) [.marker .expressionList] →
    w.Local n arguments arguments' fun n' _ => d ≤ n'
  reads : ReadsArguments scope arguments bound
  covers : w.entries.length ≤ d + bound

/-- What has been read is known to be some arguments in parentheses, in the number that was
counted. -/
theorem local_parenthesized {ls : List Grammar.Lexeme}
    (h : w.LocalArguments scope d bound arguments arguments') (hn : d ≤ n)
    (hends : EndsIn (w.entries.take n) ls) :
    w.Local n (parenthesized arguments) (parenthesized arguments') fun n' args => d ≤ n' ∧
      ∃ es, es.length = args ∧ EndsIn (w.entries.take n') (ls ++ parenthesizedLexemes es) := by
  have hlocal : w.Local n (parenthesized arguments) (parenthesized arguments')
      fun n' _ => d ≤ n' := by
    apply (local_word (by decide)).bind
    rintro _ _ _ ⟨rfl, -⟩
    apply (local_marker _).bind
    rintro _ _ _ ⟨rfl, hmarker⟩
    apply (h.start _ (by omega) (endsIn_read hmarker rfl)).bind
    intro n' args _ hn'
    exact (local_word (by decide)).then hn' fun _ => localFrom_pure _
  have hcovers : (w.entries.drop n).length ≤ bound := by
    have hall := h.covers
    rw [List.length_drop]
    omega
  -- The entries that were passed are known from the reading of the same run.
  refine (hlocal.and_yields fun l => parenthesized_yields h.reads hcovers).mono ?_
  rintro n' args _ ⟨hn', used, k, is, htake, -, es, os, hspells, hos, -, rfl⟩
  refine ⟨hn', es, Grammar.length_translateArguments es (hos 0), ?_⟩
  rw [htake]
  exact hends.append hspells

theorem local_boundCall (receiver : Instruction) (target : String) {callee : Callee}
    (h : w.LocalArguments scope d bound arguments arguments') (hn : d ≤ n)
    (hcallee : EndsIn (w.entries.take n) (calleeLexemes callee)) :
    w.Local n
      (do
        emit receiver
        let args ← oneMore (← parenthesized arguments)
        emit (.call target args))
      (do
        emit receiver
        let args ← oneMore (← parenthesized arguments')
        emit (.call target args))
      fun n' _ => d ≤ n' := by
  apply (local_emit receiver).bind
  rintro _ _ _ rfl
  apply (local_parenthesized h hn hcallee).bind
  rintro n' _ _ ⟨hn', es, rfl, hends⟩
  have hcall : EndsIn (w.entries.take n') (callLexemes callee es) := by
    rw [callLexemes, List.append_assoc, List.append_assoc]
    rwa [parenthesizedLexemes, List.append_assoc] at hends
  exact (local_oneMore fun hfull => .inr ⟨callee, es, hfull, hcall⟩).then hn' fun _ =>
    localFrom_emit _

theorem local_call {name : String} (h : w.LocalArguments scope d bound arguments arguments')
    (hn : d ≤ n) (hname : EndsIn (w.entries.take n) [.token .identifier name]) :
    w.Local n (call scope name arguments) (call scope name arguments') fun n' _ => d ≤ n' := by
  apply (local_atSymbol "(").bind
  rintro _ isOwn _ rfl
  split
  · have hcallee : EndsIn (w.entries.take _) (calleeLexemes (.own name)) := hname
    exact local_boundCall _ _ h hn hcallee
  · apply (local_word (by decide)).bind
    rintro _ _ _ ⟨rfl, kind, hdot⟩
    apply local_identifier.bind
    rintro _ method _ ⟨rfl, hmethod⟩
    have hcallee : EndsIn (w.entries.take _) (calleeLexemes (.qualified name method)) :=
      (hname.read (l := .symbol ".") hdot ⟨kind, rfl⟩).read hmethod rfl
    have hn' : d ≤ _ + 1 + 1 := Nat.le_add_right_of_le (Nat.le_add_right_of_le hn)
    split
    · exact local_boundCall _ _ h hn' hcallee
    · apply (local_parenthesized h hn' hcallee).bind
      rintro n' args _ ⟨hn'', -⟩
      exact (local_emit _).ge hn''

theorem local_nameTerm {name : String} (hname : w.entries[n]? = some (.token .identifier name))
    (hn : d ≤ n + 1) (he : w.LocalFrom d d expression expression')
    (ha : w.LocalArguments scope d bound arguments arguments') :
    w.Local (n + 1) (nameTerm scope name (.ofIndex n) expression arguments)
      (nameTerm scope name (.ofIndex n) expression' arguments') fun n' _ => d ≤ n' := by
  apply local_atCall.bind
  rintro _ isCall _ rfl
  split
  · exact local_call ha hn (endsIn_read hname rfl)
  · cases hlookup : scope.lookup? name with
    | some symbol =>
      -- A name that is known is resolved without a look at the entries.
      have hresolve : resolve scope name (.ofIndex n) = pure symbol.slot := by
        rw [resolve, hlookup]
      rw [hresolve]
      apply (local_accept _).then hn
      intro isElement
      split
      · exact (localFrom_pure _).bind fun base => (localFrom_elementAddress base he).bind fun _ =>
          localFrom_emitAll _
      · exact (localFrom_pure _).bind fun _ => localFrom_emit _
    | none =>
      -- The bracket is passed, if there is one, before the name turns out to be unknown.
      have hresolve : resolve scope name (.ofIndex n) = throw (.unresolved name (.ofIndex n)) := by
        rw [resolve, hlookup]
      have hthrow (f : Slot → Compiler Unit) :
          (resolve scope name (.ofIndex n) >>= f) = throw (.unresolved name (.ofIndex n)) := by
        rw [hresolve]
        rfl
      simp only [hthrow, ite_self]
      exact local_accept_throw _ rfl hname

theorem localFrom_termBody (ht : w.LocalFrom d d term term')
    (he : w.LocalFrom d d expression expression')
    (ha : w.LocalArguments scope d bound arguments arguments') :
    w.LocalFrom d d (termBody scope term expression arguments)
      (termBody scope term' expression' arguments') := by
  intro n hn
  apply local_position
  apply local_current?.bind
  rintro n e? _ ⟨rfl, he?⟩
  -- Constants and names are passed before they are judged, so their faults name the entry before.
  have hnext : d ≤ n + 1 := Nat.le_succ_of_le hn
  split
  · have hadvance := local_advance he?.symm
    split
    · exact hadvance.then hn fun _ => he.bind fun _ => localFrom_word ")"
    · split
      · exact hadvance.then hn fun _ => ht.bind fun _ => localFrom_emit _
      · exact local_mismatch "term"
  · exact (local_keyword _ _).then hn fun _ => localFrom_emitAll _
  · apply (local_advance he?.symm).bind
    rintro _ _ _ rfl
    exact (local_integerTerm he?.symm).ge hnext
  · apply (local_advance he?.symm).bind
    rintro _ _ _ rfl
    exact (local_stringTerm he?.symm).ge hnext
  · apply (local_advance he?.symm).bind
    rintro _ _ _ rfl
    exact local_nameTerm he?.symm hnext he ha
  · exact local_mismatch "term"

/-- The marker may count as passed. -/
theorem localFrom_expressionOf (hle : e ≤ d + 1) (ht : w.LocalFrom e e term term')
    (ho : w.LocalFrom e e operators operators') :
    w.LocalFrom d e (expressionOf term operators) (expressionOf term' operators') :=
  ((localFrom_marker .expression).weaken hle).bind fun _ => ht.bind fun _ => ho

end

/-- The terms, operators and arguments for two bounds. -/
structure LocalTerms (w : Fork) (scope : Scope) (d b b' : Nat) : Prop where
  covers : w.entries.length ≤ d + b
  term : w.LocalFrom d d (term scope b) (term scope b')
  operators : w.LocalFrom d d (operators scope b) (operators scope b')
  /-- The arguments that were read before are in front. -/
  arguments : ∀ n es, d ≤ n →
    EndsIn (w.entries.take n) (.marker .expressionList :: listed Expression.lexemes es) →
    w.Local n (arguments scope b es.length) (arguments scope b' es.length) fun n' _ => d ≤ n'

variable {b b' : Nat}

theorem LocalTerms.expression (h : w.LocalTerms scope d b b') :
    w.LocalFrom d d (expression scope b) (expression scope b') :=
  localFrom_expressionOf (Nat.le_succ d) h.term h.operators

theorem LocalTerms.allArguments (h : w.LocalTerms scope d b b') :
    w.LocalArguments scope d b (Compiler.arguments scope b 0) (Compiler.arguments scope b' 0) :=
  ⟨fun n hn hends => h.arguments n [] hn hends,
    fun _ _ hes => (reads_terms scope b).arguments 0 _ _ hes, h.covers⟩

theorem LocalTerms.zero (hd : w.entries.length ≤ d) : w.LocalTerms scope d 0 0 :=
  ⟨hd, (localFrom_marker _).steady, localFrom_pure (), fun _ _ hn _ => local_pure hn⟩

/-- An expression is known by its entries. -/
theorem LocalTerms.argument (h : w.LocalTerms scope (d + 1) b b') (hn : d ≤ n)
    {ls : List Grammar.Lexeme} (hends : EndsIn (w.entries.take n) ls) :
    w.Local n (Compiler.expression scope b) (Compiler.expression scope b') fun n' _ =>
      d + 1 ≤ n' ∧ ∃ e : Expression, EndsIn (w.entries.take n') (ls ++ e.lexemes) := by
  have hlocal : w.Local n (Compiler.expression scope b) (Compiler.expression scope b')
      fun n' _ => d + 1 ≤ n' :=
    localFrom_expressionOf (Nat.le_refl _) h.term h.operators n hn
  have hdrop : (w.entries.drop n).length ≤ b + 1 := by
    have hcovers := h.covers
    rw [List.length_drop]
    omega
  refine (hlocal.and_yields fun l => expression_yields hdrop).mono ?_
  rintro n' _ _ ⟨hn', used, k, is, htake, -, e, o, hspells, -⟩
  refine ⟨hn', e, ?_⟩
  rw [htake]
  exact hends.append hspells

theorem LocalTerms.arguments_succ (h : w.LocalTerms scope (d + 1) b b') {es : List Expression}
    (hn : d ≤ n)
    (hends : EndsIn (w.entries.take n)
      (.marker .expressionList :: listed Expression.lexemes es)) :
    w.Local n (Compiler.arguments scope (b + 1) es.length)
      (Compiler.arguments scope (b' + 1) es.length) fun n' _ => d ≤ n' := by
  apply (local_atProduction .expression).bind
  rintro n isArgument _ ⟨rfl, -⟩
  split
  · apply (h.argument hn hends).bind
    rintro n' _ _ ⟨hn', e, hargument⟩
    -- The argument is complete, and only now the limit counts.
    have hfull (hlimit : es.length = argumentLimit) : ∃ arguments : List Expression,
        arguments.length = argumentLimit + 1 ∧ EndsIn (w.entries.take n')
          (.marker .expressionList :: separated Expression.lexemes arguments) := by
      refine ⟨es ++ [e], ?_, ?_⟩
      · rw [List.length_append, hlimit]
        rfl
      · rw [separated_concat]
        exact hargument
    apply (local_oneMore fun hlimit => .inl (hfull hlimit)).bind
    rintro n' _ _ ⟨rfl, rfl⟩
    apply (local_accept comma).bind
    rintro n'' more hle hmore
    cases more with
    | false => exact local_pure (by omega)
    | true =>
      obtain ⟨rfl, hcomma⟩ := hmore
      have hends' : EndsIn (w.entries.take (n' + 1))
          (.marker .expressionList :: listed Expression.lexemes (es ++ [e])) := by
        rw [listed_concat]
        exact hargument.read (l := .symbol ",") hcomma ⟨.symbol, rfl⟩
      have hmore := h.arguments (n' + 1) (es ++ [e]) (by omega) hends'
      rw [List.length_append] at hmore
      exact hmore.ge (by omega)
  · exact local_pure hn

theorem LocalTerms.succ (h : w.LocalTerms scope (d + 1) b b') :
    w.LocalTerms scope d (b + 1) (b' + 1) := by
  constructor
  case covers =>
    have hcovers := h.covers
    omega
  case term =>
    apply LocalFrom.steady
    apply (localFrom_marker .term).bind
    intro _
    exact localFrom_termBody h.term h.expression h.allArguments
  case operators =>
    intro n hn
    apply (local_peek? binaryOp?).bind
    rintro n op? _ ⟨rfl, hop⟩
    cases op? with
    | none => exact local_pure hn
    | some op =>
      -- There is an operator only where there is an entry.
      obtain ⟨e, he, -⟩ := Option.bind_eq_some_iff.1 hop.symm
      apply (local_advance he).bind
      rintro _ _ _ rfl
      have hrest := h.term.bind fun _ => (localFrom_emit op.instruction).bind fun _ => h.operators
      exact (hrest (n + 1) (Nat.succ_le_succ hn)).ge (Nat.le_succ_of_le hn)
  case arguments => exact fun n es hn hends => h.arguments_succ hn hends

theorem LocalTerms.stop (hd : w.common.length ≤ d) (h : w.LocalTerms scope d b b) :
    w.LocalTerms scope d b b' :=
  ⟨h.covers, .stop hd h.term, .stop hd h.operators,
    fun n es hn hends => .stop (Nat.le_trans hd hn) (h.arguments n es hn hends)⟩

/-! ## Statements -/

section

variable {expression expression' statementList statementList' : Compiler Unit}
  {arguments arguments' : Compiler Nat}

theorem localFrom_condition (he : w.LocalFrom d d expression expression') :
    w.LocalFrom d d (condition expression) (condition expression') :=
  (localFrom_word "(").bind fun _ => he.bind fun _ => localFrom_word ")"

theorem localFrom_block (hs : w.LocalFrom d d statementList statementList') :
    w.LocalFrom d d (block statementList) (block statementList') :=
  (localFrom_word openBrace).bind fun _ => (localFrom_marker _).steady.bind fun _ =>
    hs.bind fun _ => localFrom_word closeBrace

theorem localFrom_letStatement (he : w.LocalFrom (d + 1) (d + 1) expression expression') :
    w.LocalFrom d (d + 1) (letStatement scope expression) (letStatement scope expression') := by
  apply (localFrom_marker .letStatement).bind
  intro _
  apply (localFrom_word "let").bind
  intro _ n hn
  apply local_position
  apply local_identifier.bind
  rintro _ name _ ⟨rfl, hname⟩
  apply (local_resolve hname).then (Nat.le_succ_of_le hn)
  intro target
  apply (localFrom_accept _).bind
  intro isElement
  split
  · exact (localFrom_elementAddress target he).bind fun _ => (localFrom_word "=").bind fun _ =>
      he.bind fun _ => (localFrom_word ";").bind fun _ => localFrom_emitAll _
  · exact (localFrom_word "=").bind fun _ => he.bind fun _ => (localFrom_word ";").bind fun _ =>
      localFrom_emit _

theorem localFrom_ifStatement (he : w.LocalFrom (d + 1) (d + 1) expression expression')
    (hs : w.LocalFrom (d + 1) (d + 1) statementList statementList') :
    w.LocalFrom d (d + 1) (ifStatement expression statementList)
      (ifStatement expression' statementList') := by
  apply (localFrom_marker .ifStatement).bind
  intro _
  apply localFrom_takeLabel.bind
  intro id
  apply (localFrom_word "if").bind
  intro _
  apply (localFrom_condition he).bind
  intro _
  apply (localFrom_emitAll _).bind
  intro _
  apply (localFrom_block hs).bind
  intro _
  apply (localFrom_accept _).bind
  intro hasElse
  split
  · exact (localFrom_emitAll _).bind fun _ => (localFrom_block hs).bind fun _ => localFrom_emit _
  · exact localFrom_emit _

theorem localFrom_whileStatement (he : w.LocalFrom (d + 1) (d + 1) expression expression')
    (hs : w.LocalFrom (d + 1) (d + 1) statementList statementList') :
    w.LocalFrom d (d + 1) (whileStatement expression statementList)
      (whileStatement expression' statementList') := by
  apply (localFrom_marker .whileStatement).bind
  intro _
  apply localFrom_takeLabel.bind
  intro id
  exact (localFrom_word "while").bind fun _ => (localFrom_emit _).bind fun _ =>
    (localFrom_condition he).bind fun _ => (localFrom_emitAll _).bind fun _ =>
      (localFrom_block hs).bind fun _ => localFrom_emitAll _

theorem localFrom_doStatement (he : w.LocalFrom (d + 1) (d + 1) expression expression')
    (ha : w.LocalArguments scope (d + 1) bound arguments arguments') :
    w.LocalFrom d (d + 1) (doStatement scope expression arguments)
      (doStatement scope expression' arguments') := by
  have hend : w.LocalFrom (d + 1) (d + 1) (do word ";"; emit discard)
      (do word ";"; emit discard) := (localFrom_word ";").bind fun _ => localFrom_emit _
  apply (localFrom_marker .doStatement).bind
  intro _
  apply (localFrom_word "do").bind
  intro _
  apply (localFrom_atProduction .expression).bind
  intro isExpression
  split
  · exact he.bind fun _ => hend
  · intro n hn
    apply local_identifier.bind
    rintro _ name _ ⟨rfl, hname⟩
    apply local_atCall.bind
    rintro _ isCall _ rfl
    split
    · apply (local_call ha (Nat.le_succ_of_le hn) (endsIn_read hname rfl)).bind
      exact fun n' _ _ hn' => hend n' hn'
    · -- No call follows the name, and what stands there instead is at fault.
      exact (local_mismatch (Q := fun _ _ => False) _).bind fun _ _ _ h => h.elim

theorem localFrom_returnStatement (he : w.LocalFrom (d + 1) (d + 1) expression expression') :
    w.LocalFrom d (d + 1) (returnStatement scope expression)
      (returnStatement scope expression') := by
  have hend : w.LocalFrom (d + 1) (d + 1) (do word ";"; emit .ret) (do word ";"; emit .ret) :=
    (localFrom_word ";").bind fun _ => localFrom_emit _
  apply (localFrom_marker .returnStatement).bind
  intro _
  apply (localFrom_word "return").bind
  intro _
  apply (localFrom_atProduction .expression).bind
  rintro (_ | _)
  · cases scope.signature.isVoid with
    | true => exact (localFrom_emit _).bind fun _ => hend
    | false => exact (localFrom_note _).bind fun _ => hend
  · apply he.bind
    intro _
    cases scope.signature.isVoid with
    | true =>
      exact (localFrom_note _).bind fun _ => (localFrom_emit _).bind fun _ =>
        (localFrom_emit _).bind fun _ => hend
    | false => exact hend

end

/-- The same for statements. -/
structure LocalStatements (w : Fork) (scope : Scope) (d b b' : Nat) : Prop
    extends LocalTerms w scope d b b' where
  statementList : w.LocalFrom d d (statementList scope b) (statementList scope b')

theorem LocalStatements.succ (h : w.LocalStatements scope (d + 1) b b') :
    w.LocalStatements scope d (b + 1) (b' + 1) := by
  have he := h.expression
  have hs := h.statementList
  refine ⟨h.toLocalTerms.succ, ?_⟩
  apply (localFrom_peek? production?).bind
  intro production?
  split
  · exact ((localFrom_letStatement he).bind fun _ => hs).steady
  · exact ((localFrom_ifStatement he hs).bind fun _ => hs).steady
  · exact ((localFrom_whileStatement he hs).bind fun _ => hs).steady
  · exact ((localFrom_doStatement he h.allArguments).bind fun _ => hs).steady
  · exact ((localFrom_returnStatement he).bind fun _ => hs).steady
  · exact localFrom_pure ()

theorem LocalStatements.stop (hd : w.common.length ≤ d) (h : w.LocalStatements scope d b b) :
    w.LocalStatements scope d b b' :=
  ⟨h.toLocalTerms.stop hd, .stop hd h.statementList⟩

/-- The first bound covers all entries of the first sequence, and the second one the common ones. -/
theorem localFrom_statementList (scope : Scope) (h : w.entries.length ≤ d + b)
    (h' : w.common.length ≤ d + b') :
    w.LocalFrom d d (statementList scope b) (statementList scope b') := by
  have hcommon : w.common.length ≤ d + b := Nat.le_trans w.length_common_le h
  have hstatements := lockstep_bounds (P := fun d b b' =>
    w.entries.length ≤ d + b → w.LocalStatements scope d b b') ?_ ?_ ?_ b b' d hcommon h' h
  · exact hstatements.statementList
  · exact fun d hd => ⟨.zero hd, localFrom_pure ()⟩
  · exact fun d b b' ih hd => (ih (by omega)).succ
  · exact fun d b b' hlimit hs hd => (hs hd).stop hlimit

theorem localFrom_statements (scope : Scope) (h : w.entries.length ≤ d + b)
    (h' : w.common.length ≤ d + b') :
    w.LocalFrom d d (statements scope b) (statements scope b') :=
  (localFrom_marker _).steady.bind fun _ => localFrom_statementList scope h h'

/-! ## Declarations -/

section

variable {className : String} {kind : Storage} {head : List Grammar.Lexeme}

theorem local_define (table : SymbolTable) {name : String} (declaredType : String)
    {ls : List Grammar.Lexeme} (hname : w.entries[n]? = some (.token .identifier name))
    (hbefore : BeforeName kind ls) (hends : EndsIn (w.entries.take n) ls) :
    w.Local (n + 1) (define className table name declaredType kind (.ofIndex n))
      (define className table name declaredType kind (.ofIndex n)) fun n' _ => n' = n + 1 := by
  unfold define
  split
  · exact local_pure rfl
  · exact local_throw rfl (Nat.le_refl _) (.inl ⟨kind, name, ls, rfl, hname, hbefore, hends⟩)
  · apply (local_note _).bind
    rintro _ _ _ rfl
    exact local_pure rfl

theorem local_declareName (declaredType : String) (table : SymbolTable)
    {ls : List Grammar.Lexeme} (hbefore : BeforeName kind ls)
    (hends : EndsIn (w.entries.take n) ls) :
    w.Local n (declareName className kind declaredType table)
      (declareName className kind declaredType table) fun n' _ =>
        n' = n + 1 ∧ ∃ name, w.entries[n]? = some (.token .identifier name) := by
  apply local_position
  apply local_identifier.bind
  rintro _ name _ ⟨rfl, hname⟩
  exact (local_define table declaredType hname hbefore hends).mono fun _ _ _ h => ⟨h, name, hname⟩

/-- The lists of names for two bounds, behind the head of the declaration, its type and the names
that were declared before. -/
def LocalNames (w : Fork) (className : String) (d b b' : Nat) : Prop :=
  ∀ n kind head, d ≤ n → DeclarationHead kind head → ∀ declaredType table type names,
    EndsIn (w.entries.take n) (head ++ [.type type] ++ listed nameLexemes names) →
    w.Local n (declareNames className kind declaredType b table)
      (declareNames className kind declaredType b' table) fun n' _ => d ≤ n'

theorem LocalNames.zero (d : Nat) : w.LocalNames className d 0 0 := by
  intro n kind head hn hhead declaredType table type names hends
  exact (local_declareName declaredType table (.variable type names hhead) hends).ge hn

theorem LocalNames.succ (h : w.LocalNames className (d + 1) b b') :
    w.LocalNames className d (b + 1) (b' + 1) := by
  intro n kind head hn hhead declaredType table type names hends
  apply (local_declareName declaredType table (.variable type names hhead) hends).bind
  rintro _ table _ ⟨rfl, name, hname⟩
  apply (local_accept comma).bind
  rintro _ more _ hmore
  cases more with
  | false =>
    obtain rfl := hmore
    exact local_pure (Nat.le_succ_of_le hn)
  | true =>
    obtain ⟨rfl, hcomma⟩ := hmore
    -- This name and its comma stand in front of the next name.
    have hname' := hends.read (l := .token .identifier name) hname rfl
    have hends' := hname'.read (l := .symbol ",") hcomma ⟨.symbol, rfl⟩
    have hlisted : EndsIn (w.entries.take (n + 1 + 1))
        (head ++ [.type type] ++ listed nameLexemes (names ++ [name])) := by
      rw [listed_concat, ← List.append_assoc, ← List.append_assoc]
      exact hends'
    exact (h _ _ _ (by omega) hhead declaredType table type _ hlisted).ge (by omega)

theorem LocalNames.stop (hd : w.common.length ≤ d) (h : w.LocalNames className d b b) :
    w.LocalNames className d b b' := by
  intro n kind head hn hhead declaredType table type names hends
  exact .stop (Nat.le_trans hd hn) (h n kind head hn hhead declaredType table type names hends)

theorem LocalNames.declareTyped (h : w.LocalNames className d b b') (hn : d ≤ n)
    (hhead : DeclarationHead kind head) (hends : EndsIn (w.entries.take n) head)
    (table : SymbolTable) :
    w.Local n (declareTyped className kind b table) (declareTyped className kind b' table)
      fun n' _ => d ≤ n' := by
  apply local_type.bind
  rintro _ declaredType _ ⟨rfl, e, he, htype⟩
  have hnext : d ≤ n + 1 := Nat.le_succ_of_le hn
  have hnames : EndsIn (w.entries.take (n + 1))
      (head ++ [.type declaredType] ++ listed nameLexemes []) := by
    rw [listed, List.flatMap_nil, List.append_nil]
    exact hends.read he htype
  exact (h _ _ _ hnext hhead declaredType table declaredType [] hnames).then hnext fun _ =>
    (localFrom_word ";").bind fun _ => localFrom_pure _

/-- Declarations go on as long as their marker comes next. -/
theorem local_more {α : Type} {p : Production} {step step' stop : Compiler α}
    {Q : Nat → α → Prop}
    (hstep : w.entries[n]? = some (.production p) → w.Local (n + 1) step step' Q)
    (hstop : w.Local n stop stop Q) :
    w.Local n (do if ← atProduction p then (do advance; step) else stop)
      (do if ← atProduction p then (do advance; step') else stop) Q := by
  apply (local_atProduction p).bind
  rintro n more _ ⟨rfl, rfl⟩
  by_cases he : w.entries[n]? = some (.production p)
  · rw [decide_eq_true he]
    apply (local_advance he).bind
    rintro _ _ _ rfl
    exact hstep he
  · rw [decide_eq_false he]
    exact hstop

theorem localFrom_classVarDecs (h : w.common.length ≤ d + b) (h' : w.common.length ≤ d + b') :
    ∀ table, w.LocalFrom d d (classVarDecs className b table) (classVarDecs className b' table) := by
  have hboth := lockstep_bounds (P := fun d b b' => w.LocalNames className d b b' ∧
    ∀ table, w.LocalFrom d d (classVarDecs className b table) (classVarDecs className b' table))
    ?_ ?_ ?_ b b' d h h'
  · exact hboth.2
  · exact fun d => ⟨LocalNames.zero d, localFrom_pure⟩
  · rintro d b b' ⟨hnames, hdecs⟩
    refine ⟨hnames.succ, fun table n hn => local_more (fun hmarker => ?_) (local_pure hn)⟩
    apply (local_keyword _ _).bind
    rintro _ kind _ ⟨rfl, text, htext, hkind⟩
    obtain ⟨hlevel, rfl⟩ := Storage.ofClassKeyword?_eq_some_iff.1 hkind
    have hhead := endsIn_read (l := .marker .classVarDec) hmarker rfl
    have hhead' := hhead.read (l := .token .keyword kind.name) htext rfl
    apply (hnames.declareTyped (by omega) (.classVariable hlevel) hhead' table).bind
    intro n' table _ hn'
    exact (hdecs table n' hn').ge (by omega)
  · rintro d b b' hd ⟨hnames, hdecs⟩
    exact ⟨hnames.stop hd, fun table => .stop hd (hdecs table)⟩

theorem localFrom_varDecs (h : w.common.length ≤ d + b) (h' : w.common.length ≤ d + b') :
    ∀ table, w.LocalFrom d d (varDecs className b table) (varDecs className b' table) := by
  have hboth := lockstep_bounds (P := fun d b b' => w.LocalNames className d b b' ∧
    ∀ table, w.LocalFrom d d (varDecs className b table) (varDecs className b' table))
    ?_ ?_ ?_ b b' d h h'
  · exact hboth.2
  · exact fun d => ⟨LocalNames.zero d, localFrom_pure⟩
  · rintro d b b' ⟨hnames, hdecs⟩
    refine ⟨hnames.succ, fun table n hn => local_more (fun hmarker => ?_) (local_pure hn)⟩
    apply (local_word (by decide)).bind
    rintro _ _ _ ⟨rfl, kind, hword⟩
    have hhead := endsIn_read (l := .marker .varDec) hmarker rfl
    have hhead' := hhead.read (l := .keyword "var") hword ⟨kind, rfl⟩
    apply (hnames.declareTyped (by omega) .localVariable hhead' table).bind
    intro n' table _ hn'
    exact (hdecs table n' hn').ge (by omega)
  · rintro d b b' hd ⟨hnames, hdecs⟩
    exact ⟨hnames.stop hd, fun table => .stop hd (hdecs table)⟩

/-- One parameter, behind those that were read before. -/
theorem local_parameter (table : SymbolTable) {ps : List (String × String)}
    (hends : EndsIn (w.entries.take n) (.marker .parameterList :: listed parameterLexemes ps)) :
    w.Local n (parameters.parameter className table) (parameters.parameter className table)
      fun n' _ => n' = n + 2 ∧ ∃ p, EndsIn (w.entries.take n')
        (.marker .parameterList :: listed parameterLexemes ps ++ parameterLexemes p) := by
  apply local_type.bind
  rintro _ declaredType _ ⟨rfl, e, he, htype⟩
  have htype' := hends.read he htype
  apply (local_declareName declaredType table (.parameter ps declaredType) htype').mono
  rintro _ table _ ⟨rfl, name, hname⟩
  refine ⟨rfl, (declaredType, name), ?_⟩
  have hname' := htype'.read (l := .token .identifier name) hname rfl
  rw [List.append_assoc] at hname'
  exact hname'

/-- The parameters for two bounds, behind those that were read before. -/
def LocalParameters (w : Fork) (className : String) (d b b' : Nat) : Prop :=
  ∀ n, d ≤ n → ∀ table ps,
    EndsIn (w.entries.take n) (.marker .parameterList :: listed parameterLexemes ps) →
    w.Local n (parameters className b table) (parameters className b' table) fun n' _ => d ≤ n'

theorem LocalParameters.succ (h : w.LocalParameters className (d + 1) b b') :
    w.LocalParameters className d (b + 1) (b' + 1) := by
  intro n hn table ps hends
  apply (local_parameter table hends).bind
  rintro _ table _ ⟨rfl, p, hparameter⟩
  apply (local_accept comma).bind
  rintro _ more _ hmore
  cases more with
  | false =>
    obtain rfl := hmore
    exact local_pure (by omega)
  | true =>
    obtain ⟨rfl, hcomma⟩ := hmore
    have hlisted : EndsIn (w.entries.take (n + 2 + 1))
        (.marker .parameterList :: listed parameterLexemes (ps ++ [p])) := by
      rw [listed_concat]
      exact hparameter.read (l := .symbol ",") hcomma ⟨.symbol, rfl⟩
    exact (h _ (by omega) table _ hlisted).ge (by omega)

theorem local_parameters (h : w.common.length ≤ d + b) (h' : w.common.length ≤ d + b') :
    w.LocalParameters className d b b' := by
  apply lockstep_bounds (P := w.LocalParameters className) ?_ ?_ ?_ b b' d h h'
  · exact fun d n hn table ps hends => (local_parameter table hends).ge hn
  · exact fun d b b' h => h.succ
  · exact fun d b b' hd h n hn table ps hends =>
      .stop (Nat.le_trans hd hn) (h n hn table ps hends)

/-- An empty table has room for the receiver. -/
theorem define_this (className : String) : ∃ table, SymbolTable.empty.define "this" className
    .argument = .ok table := by
  cases h : SymbolTable.empty.define "this" className .argument with
  | ok table => exact ⟨table, rfl⟩
  | error refusal =>
    cases refusal with
    | duplicate =>
      rw [SymbolTable.define_eq_duplicate_iff, SymbolTable.contains_eq_isSome_get?,
        SymbolTable.get?_empty] at h
      cases h
    | full =>
      rw [SymbolTable.define_eq_full_iff, SymbolTable.count_empty] at h
      cases h.2

theorem localFrom_parameterList (kind : SubroutineKind) (h : w.common.length ≤ d + b)
    (h' : w.common.length ≤ d + b') :
    w.LocalFrom d d (parameterList className kind b) (parameterList className kind b') := by
  intro n hn
  apply (local_marker _).bind
  rintro _ _ _ ⟨rfl, hmarker⟩
  have hnext : d ≤ n + 1 := Nat.le_succ_of_le hn
  have hend (table : SymbolTable) : w.Local (n + 1)
      (do if ← atSymbol ")" then pure table else parameters className b table)
      (do if ← atSymbol ")" then pure table else parameters className b' table)
      fun n' _ => d ≤ n' := by
    apply (local_atSymbol ")").bind
    rintro _ isEmpty _ rfl
    split
    · exact local_pure hnext
    · exact local_parameters h h' _ hnext table [] (endsIn_read hmarker rfl)
  apply local_position
  by_cases hkind : kind = .method
  · rw [if_pos hkind, if_pos hkind]
    -- The receiver has no entry of its own, but it never causes a fault.
    obtain ⟨table, htable⟩ := define_this className
    simp only [define, htable, pure_bind]
    exact hend table
  · rw [if_neg hkind, if_neg hkind, pure_bind, pure_bind]
    exact hend .empty

/-- Since the marker is passed first, the bounds need not cover it. -/
theorem localFrom_subroutineDec (classTable : SymbolTable) (h : w.entries.length ≤ d + 1 + b)
    (h' : w.common.length ≤ d + 1 + b') :
    w.LocalFrom d (d + 1) (subroutineDec className classTable b)
      (subroutineDec className classTable b') := by
  have hcommon : w.common.length ≤ d + 1 + b := Nat.le_trans w.length_common_le h
  apply (localFrom_marker _).bind
  intro _
  apply (localFrom_keyword _ _).bind
  intro kind
  apply localFrom_type.bind
  intro returnType
  apply localFrom_identifier.bind
  intro name
  apply (localFrom_word "(").bind
  intro _
  apply (localFrom_parameterList kind hcommon h').bind
  intro table
  apply (localFrom_word ")").bind
  intro _
  apply (localFrom_marker _).steady.bind
  intro _
  apply (localFrom_word openBrace).bind
  intro _
  apply (localFrom_varDecs hcommon h' table).bind
  intro table
  exact (localFrom_note _).bind fun _ => (localFrom_emit _).bind fun _ =>
    (localFrom_emitAll _).bind fun _ => (localFrom_statements _ h h').bind fun _ =>
      localFrom_word closeBrace

theorem localFrom_subroutineDecs (classTable : SymbolTable) (h : w.entries.length ≤ d + b)
    (h' : w.common.length ≤ d + b') :
    w.LocalFrom d d (subroutineDecs className classTable b)
      (subroutineDecs className classTable b') := by
  have hcommon : w.common.length ≤ d + b := Nat.le_trans w.length_common_le h
  apply lockstep_bounds (P := fun d b b' => w.entries.length ≤ d + b →
    w.common.length ≤ d + b' → w.LocalFrom d d (subroutineDecs className classTable b)
      (subroutineDecs className classTable b')) ?_ ?_ ?_ b b' d hcommon h' h h'
  · exact fun d _ _ => localFrom_pure ()
  · intro d b b' ih h h'
    -- A subroutine passes its marker, and then the smaller bounds cover the rest.
    have hb : w.entries.length ≤ d + 1 + b := by omega
    have hb' : w.common.length ≤ d + 1 + b' := by omega
    apply (localFrom_atProduction .subroutineDec).bind
    intro more
    split
    · exact ((localFrom_subroutineDec classTable hb hb').bind fun _ => ih hb hb').steady
    · exact localFrom_pure ()
  · exact fun d b b' hd ih h _ => .stop hd (ih h (Nat.le_add_right_of_le hd))

end

theorem localFrom_classDec (h : w.entries.length ≤ b) (h' : w.common.length ≤ b') :
    w.LocalFrom 0 0 (classDec b) (classDec b') := by
  rw [← Nat.zero_add b] at h
  rw [← Nat.zero_add b'] at h'
  have hcommon : w.common.length ≤ 0 + b := Nat.le_trans w.length_common_le h
  apply (localFrom_marker _).steady.bind
  intro _
  apply (localFrom_word "class").bind
  intro _
  apply localFrom_identifier.bind
  intro name
  apply (localFrom_note _).bind
  intro _
  apply (localFrom_word openBrace).bind
  intro _
  apply (localFrom_classVarDecs hcommon h' _).bind
  intro table
  apply (localFrom_subroutineDecs table h h').bind
  intro _
  apply (localFrom_word closeBrace).bind
  intro _ n hn
  apply local_current?.bind
  rintro n e? _ ⟨rfl, -⟩
  cases e? with
  | some e => exact local_mismatch "end of tree"
  | none => exact local_pure hn

end Jack.Fork
