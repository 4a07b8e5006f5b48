import Jack.Proofs.Compiler.Local.Procedure
import Jack.Proofs.Compiler.Truncation

/-!
# Procedures on entries that end too early

Procedure by procedure, where the entries kept end a loop stops and an optional part is left out,
and the next entry that is needed is missed. Only an identifier that ends the entries kept is judged
without a look at what comes next: it is a variable then, even if a call was cut off behind it.
-/

namespace Jack.Cut

open Compiler
open Vm (Instruction)

variable {w : Cut} {scope : Scope} {apart : Prop} {n d e b b' : Nat}

/-! ## Expressions -/

theorem truncates_resolve (name : String) (pos : Position) :
    w.Truncates False apart n (resolve scope name pos) (resolve scope name pos)
      fun n' _ => n' = n := by
  unfold resolve
  split
  · exact truncates_pure False.elim rfl
  · exact truncates_throw

theorem truncates_oneMore (args : Nat) :
    w.Truncates False apart n (oneMore args) (oneMore args) fun n' _ => n' = n := by
  unfold oneMore
  split
  · exact truncates_position truncates_throw
  · exact truncates_pure False.elim rfl

theorem truncates_integerTerm (text : String) (pos : Position) :
    w.Truncates False apart n (integerTerm text pos) (integerTerm text pos) fun n' _ => n' = n := by
  unfold integerTerm
  split
  · exact truncates_emit False.elim _
  · exact truncates_throw

theorem truncates_stringTerm (text : String) (pos : Position) :
    w.Truncates False apart n (stringTerm text pos) (stringTerm text pos) fun n' _ => n' = n := by
  unfold stringTerm
  split
  · exact truncates_emitAll False.elim _
  · exact truncates_throw

section

variable {term term' expression expression' operators operators' : Compiler Unit}
  {arguments arguments' : Compiler Nat}

theorem truncatesFrom_elementAddress (base : Slot)
    (he : w.TruncatesFrom d d expression expression') :
    w.TruncatesFrom d d (elementAddress base expression) (elementAddress base expression') :=
  he.bind fun _ => (truncatesFrom_word "]").bind fun _ => (truncatesFrom_emit _).bind fun _ =>
    truncatesFrom_emit _

/-- The parenthesis at the end is read, and so the runs have not come apart. -/
theorem truncates_parenthesized (ha : w.TruncatesFrom d d arguments arguments') (hn : d ≤ n) :
    w.Truncates True False n (parenthesized arguments) (parenthesized arguments')
      fun n' _ => d ≤ n' := by
  apply (truncates_word "(").bind
  rintro _ _ _ rfl
  apply (truncates_marker _).bind
  rintro _ _ _ ⟨rfl, -⟩
  apply (ha _ (by omega)).bind
  intro n' args _ hn'
  apply (truncates_word ")").bind
  rintro _ _ _ rfl
  exact truncates_pure False.elim (Nat.le_succ_of_le hn')

theorem truncatesFrom_boundCall (receiver : Instruction) (target : String)
    (ha : w.TruncatesFrom d d arguments arguments') :
    w.TruncatesFrom d d
      (do
        emit receiver
        let args ← oneMore (← parenthesized arguments)
        emit (.call target args))
      (do
        emit receiver
        let args ← oneMore (← parenthesized arguments')
        emit (.call target args)) := by
  intro n hn
  apply (truncates_emit id receiver).bind
  rintro n _ _ rfl
  apply (truncates_parenthesized ha hn).bind
  intro n' args _ hn'
  exact (truncates_oneMore args).then hn' fun _ => truncatesFrom_emit _

theorem truncatesFrom_call (name : String) (ha : w.TruncatesFrom d d arguments arguments') :
    w.TruncatesFrom d d (call scope name arguments) (call scope name arguments') := by
  apply (truncatesFrom_atSymbol "(").bind
  intro isOwn
  split
  · exact truncatesFrom_boundCall _ _ ha
  · apply (truncatesFrom_word ".").bind
    intro _
    apply truncatesFrom_identifier.bind
    intro method
    split
    · exact truncatesFrom_boundCall _ _ ha
    · intro n hn
      apply (truncates_parenthesized ha hn).bind
      intro n' args _ hn'
      exact (truncates_emit False.elim _).ge hn'

theorem run_atCall_current? (s : CompilerState) :
    atCall.run s = .ok (decide (s.cursor.current? = some (.token .symbol "(") ∨
      s.cursor.current? = some (.token .symbol "."))) s := run_atCall

/-- Where the entries kept end with a name that is unknown, either a call is cut off, or the run on
all entries fails as well. -/
theorem truncates_unknown {name : String} {rest rest' : Compiler Unit} {Q : Nat → Unit → Prop}
    (hend : n + 2 = w.kept.length) (hterm : w.kept[n]? = some (.production .term))
    (hname : w.kept[n + 1]? = some (.token .identifier name)) :
    w.Truncates False apart (n + 2)
      (do
        if ← atCall then rest
        else
          let _ ← accept (.token .symbol "[")
          throw (.unresolved name (.ofIndex (n + 1))))
      (do
        if ← atCall then rest'
        else
          let _ ← accept (.token .symbol "[")
          throw (.unresolved name (.ofIndex (n + 1)))) Q := by
  rintro s hs _ (_ | _)
  · have hcurrent : s.cursor.current? = none := by
      rw [current?_of_at hs, hend]
      exact List.getElem?_eq_none (Nat.le_refl _)
    have hcurrent' : (w.fork.twin s).cursor.current? = w.whole[n + 2]? := by
      rw [Fork.twin, hs.cursor]
      exact List.head?_drop
    rw [EStateM.run_bind, run_atCall_current?, EStateM.run_bind, run_atCall_current?, hcurrent,
      hcurrent']
    by_cases hcall : w.whole[n + 2]? = some (.token .symbol "(") ∨
        w.whole[n + 2]? = some (.token .symbol ".")
    · -- The run on the entries kept ends here, and only the other one goes on with the call.
      simp only [reduceCtorEq, or_self, decide_false, Bool.false_eq_true, if_false,
        Fork.run_accept_throw]
      have hwhole {i : Nat} {e : Entry} (he : w.kept[i]? = some e) : w.whole[i]? = some e := by
        rw [whole, List.getElem?_append_left (lt_of_getElem? he), he]
      obtain hparen | hdot := hcall
      · exact .excused (.unresolved hend (hwhole hterm) (hwhole hname) hparen (.inl rfl))
      · exact .excused (.unresolved hend (hwhole hterm) (hwhole hname) hdot (.inr rfl))
    · simp only [hcall, decide_false, Bool.false_eq_true, if_false, Fork.run_accept_throw]
      exact .failed
  · contradiction

theorem truncates_nameTerm {name : String} (hterm : w.kept[n]? = some (.production .term))
    (hname : w.kept[n + 1]? = some (.token .identifier name)) (hn : d ≤ n + 2)
    (he : w.TruncatesFrom d d expression expression')
    (ha : w.TruncatesFrom d d arguments arguments') :
    w.Truncates False True (n + 2) (nameTerm scope name (.ofIndex (n + 1)) expression arguments)
      (nameTerm scope name (.ofIndex (n + 1)) expression' arguments') fun n' _ => d ≤ n' := by
  cases hlookup : scope.lookup? name with
  | some symbol =>
    -- A name that is known is resolved wherever the entries end.
    have hresolve : resolve scope name (.ofIndex (n + 1)) = pure symbol.slot := by
      rw [resolve, hlookup]
    unfold nameTerm
    rw [hresolve]
    apply Truncates.aligned
    apply truncates_atCall.then hn
    intro isCall
    split
    · exact truncatesFrom_call name ha
    · apply (truncatesFrom_accept _).bind
      intro isElement
      split
      · exact (truncatesFrom_pure _).bind fun base =>
          (truncatesFrom_elementAddress base he).bind fun _ => truncatesFrom_emitAll _
      · exact (truncatesFrom_pure _).bind fun _ => truncatesFrom_emit _
  | none =>
    have hthrow (f : Slot → Compiler Unit) : (resolve scope name (.ofIndex (n + 1)) >>= f) =
        throw (.unresolved name (.ofIndex (n + 1))) := by
      rw [resolve, hlookup]
      rfl
    unfold nameTerm
    simp only [hthrow, ite_self]
    by_cases hlt : n + 2 < w.kept.length
    · apply Truncates.aligned
      apply truncates_atCall.bind
      rintro n' isCall _ hn'
      split
      · exact truncatesFrom_call name ha n' (by omega)
      · apply Truncates.of_lt (by omega)
        exact truncates_of_fails fun s => ⟨_, _, Fork.run_accept_throw _ _ s⟩
    · have hend : n + 2 = w.kept.length := by
        have hlt' := lt_of_getElem? hname
        omega
      exact truncates_unknown hend hterm hname

theorem truncates_termBody (hterm : w.kept[n]? = some (.production .term)) (hn : d ≤ n + 1)
    (ht : w.TruncatesFrom d d term term') (he : w.TruncatesFrom d d expression expression')
    (ha : w.TruncatesFrom d d arguments arguments') :
    w.Truncates True True (n + 1) (termBody scope term expression arguments)
      (termBody scope term' expression' arguments') fun n' _ => d ≤ n' := by
  apply truncates_position
  apply truncates_current?.bind
  rintro _ e? _ ⟨rfl, he?⟩
  have hnext : d ≤ n + 1 + 1 := Nat.le_succ_of_le hn
  split
  · have hadvance : w.Truncates True True (n + 1) advance advance fun n' _ => n' = n + 1 + 1 :=
      truncates_advance he?.symm
    split
    · exact hadvance.then hn fun _ => he.bind fun _ => truncatesFrom_word ")"
    · split
      · exact hadvance.then hn fun _ => ht.bind fun _ => truncatesFrom_emit _
      · exact truncates_mismatch "term"
  · exact ((truncatesFrom_keyword _ _).bind fun _ => truncatesFrom_emitAll _) _ hn
  · apply (truncates_advance he?.symm).bind
    rintro _ _ _ rfl
    exact (truncates_integerTerm _ _).ge hnext
  · apply (truncates_advance he?.symm).bind
    rintro _ _ _ rfl
    exact (truncates_stringTerm _ _).ge hnext
  · apply (truncates_advance he?.symm).bind
    rintro _ _ _ rfl
    exact truncates_nameTerm hterm he?.symm hnext he ha
  · exact truncates_mismatch "term"

/-- The marker may count as passed. -/
theorem truncatesFrom_expressionOf (hle : e ≤ d + 1) (ht : w.TruncatesFrom e e term term')
    (ho : w.TruncatesFrom e e operators operators') :
    w.TruncatesFrom d e (expressionOf term operators) (expressionOf term' operators') :=
  ((truncatesFrom_marker .expression).weaken hle).bind fun _ => ht.bind fun _ => ho

end

/-- The terms, operators and arguments for two bounds. -/
structure TruncatesTerms (w : Cut) (scope : Scope) (d b b' : Nat) : Prop where
  term : w.TruncatesFrom d d (term scope b) (term scope b')
  operators : w.TruncatesFrom d d (operators scope b) (operators scope b')
  arguments : ∀ args, w.TruncatesFrom d d (arguments scope b args) (arguments scope b' args)

theorem TruncatesTerms.expression (h : w.TruncatesTerms scope d b b') :
    w.TruncatesFrom d d (expression scope b) (expression scope b') :=
  truncatesFrom_expressionOf (Nat.le_succ d) h.term h.operators

theorem TruncatesTerms.zero (d : Nat) : w.TruncatesTerms scope d 0 0 :=
  ⟨(truncatesFrom_marker _).steady, truncatesFrom_pure (), truncatesFrom_pure⟩

theorem TruncatesTerms.arguments_succ (h : w.TruncatesTerms scope (d + 1) b b') (args : Nat) :
    w.TruncatesFrom d d (Compiler.arguments scope (b + 1) args)
      (Compiler.arguments scope (b' + 1) args) := by
  intro n hn
  apply (truncates_atProduction .expression).bind
  rintro n isArgument _ ⟨rfl, hargument⟩
  split
  · next hisArgument =>
    subst hisArgument
    have hexpression : w.TruncatesFrom d (d + 1) (Compiler.expression scope b)
        (Compiler.expression scope b') :=
      truncatesFrom_expressionOf (Nat.le_refl _) h.term h.operators
    by_cases hlimit : args = argumentLimit
    · -- Whatever the argument is, it is one too many in the run on all entries.
      apply Truncates.of_lt (lt_of_getElem? (of_decide_eq_true hargument.symm))
      apply truncates_of_fails
      have hone : Fails (oneMore args) := by
        subst hlimit
        exact fun s => ⟨_, _, run_oneMore_limit⟩
      exact fails_bind fun _ => hone.bind
    · have hone : oneMore args = pure (args + 1) := if_neg hlimit
      have hmore (more : Bool) : w.TruncatesFrom (d + 1) (d + 1)
          (if more then Compiler.arguments scope b (args + 1) else pure (args + 1))
          (if more then Compiler.arguments scope b' (args + 1) else pure (args + 1)) := by
        split
        · exact h.arguments (args + 1)
        · exact truncatesFrom_pure _
      simp only [hone, pure_bind]
      have hargument := hexpression.bind fun _ => (truncatesFrom_accept comma).bind hmore
      exact (hargument n hn).mono fun _ _ _ => Nat.le_of_succ_le
  · exact truncates_pure id hn

theorem TruncatesTerms.succ (h : w.TruncatesTerms scope (d + 1) b b') :
    w.TruncatesTerms scope d (b + 1) (b' + 1) := by
  constructor
  case term =>
    intro n hn
    apply (truncates_marker .term).bind
    rintro _ _ _ ⟨rfl, hterm⟩
    refine Truncates.mono (truncates_termBody hterm (Nat.succ_le_succ hn) h.term h.expression
      (h.arguments 0)) ?_
    exact fun _ _ _ => Nat.le_of_succ_le
  case operators =>
    intro n hn
    apply (truncates_peek? binaryOp?).bind
    rintro n op? _ ⟨rfl, hop⟩
    cases op? with
    | none => exact truncates_pure id hn
    | some op =>
      obtain ⟨e, he, -⟩ := Option.bind_eq_some_iff.1 hop.symm
      apply (truncates_advance he).bind
      rintro _ _ _ rfl
      have hrest := h.term.bind fun _ => (truncatesFrom_emit op.instruction).bind fun _ => h.operators
      exact (hrest (n + 1) (Nat.succ_le_succ hn)).ge (Nat.le_succ_of_le hn)
  case arguments => exact h.arguments_succ

theorem TruncatesTerms.stop (hd : w.kept.length ≤ d) (h : w.TruncatesTerms scope d b b) :
    w.TruncatesTerms scope d b b' :=
  ⟨h.term.stop hd, h.operators.stop hd, fun args => (h.arguments args).stop hd⟩

/-! ## Statements -/

section

variable {expression expression' statementList statementList' : Compiler Unit}
  {arguments arguments' : Compiler Nat}

theorem truncatesFrom_condition (he : w.TruncatesFrom d d expression expression') :
    w.TruncatesFrom d d (condition expression) (condition expression') :=
  (truncatesFrom_word "(").bind fun _ => he.bind fun _ => truncatesFrom_word ")"

theorem truncatesFrom_block (hs : w.TruncatesFrom d d statementList statementList') :
    w.TruncatesFrom d d (block statementList) (block statementList') :=
  (truncatesFrom_word openBrace).bind fun _ => (truncatesFrom_marker _).steady.bind fun _ =>
    hs.bind fun _ => truncatesFrom_word closeBrace

theorem truncatesFrom_letStatement (he : w.TruncatesFrom (d + 1) (d + 1) expression expression') :
    w.TruncatesFrom d (d + 1) (letStatement scope expression) (letStatement scope expression') := by
  apply (truncatesFrom_marker .letStatement).bind
  intro _
  apply (truncatesFrom_word "let").bind
  intro _ n hn
  apply truncates_position
  -- The name has been read when it is judged.
  apply truncates_identifier.bind
  rintro _ name _ rfl
  apply (truncates_resolve name (.ofIndex n)).then (Nat.le_succ_of_le hn)
  intro target
  apply (truncatesFrom_accept _).bind
  intro isElement
  split
  · exact (truncatesFrom_elementAddress target he).bind fun _ => (truncatesFrom_word "=").bind
      fun _ => he.bind fun _ => (truncatesFrom_word ";").bind fun _ => truncatesFrom_emitAll _
  · exact (truncatesFrom_word "=").bind fun _ => he.bind fun _ => (truncatesFrom_word ";").bind
      fun _ => truncatesFrom_emit _

theorem truncatesFrom_ifStatement (he : w.TruncatesFrom (d + 1) (d + 1) expression expression')
    (hs : w.TruncatesFrom (d + 1) (d + 1) statementList statementList') :
    w.TruncatesFrom d (d + 1) (ifStatement expression statementList)
      (ifStatement expression' statementList') := by
  apply (truncatesFrom_marker .ifStatement).bind
  intro _
  apply truncatesFrom_takeLabel.bind
  intro id
  apply (truncatesFrom_word "if").bind
  intro _
  apply (truncatesFrom_condition he).bind
  intro _
  apply (truncatesFrom_emitAll _).bind
  intro _
  apply (truncatesFrom_block hs).bind
  intro _
  apply (truncatesFrom_accept _).bind
  intro hasElse
  split
  · exact (truncatesFrom_emitAll _).bind fun _ => (truncatesFrom_block hs).bind fun _ =>
      truncatesFrom_emit _
  · exact truncatesFrom_emit _

theorem truncatesFrom_whileStatement (he : w.TruncatesFrom (d + 1) (d + 1) expression expression')
    (hs : w.TruncatesFrom (d + 1) (d + 1) statementList statementList') :
    w.TruncatesFrom d (d + 1) (whileStatement expression statementList)
      (whileStatement expression' statementList') := by
  apply (truncatesFrom_marker .whileStatement).bind
  intro _
  apply truncatesFrom_takeLabel.bind
  intro id
  exact (truncatesFrom_word "while").bind fun _ => (truncatesFrom_emit _).bind fun _ =>
    (truncatesFrom_condition he).bind fun _ => (truncatesFrom_emitAll _).bind fun _ =>
      (truncatesFrom_block hs).bind fun _ => truncatesFrom_emitAll _

theorem truncatesFrom_doStatement (he : w.TruncatesFrom (d + 1) (d + 1) expression expression')
    (ha : w.TruncatesFrom (d + 1) (d + 1) arguments arguments') :
    w.TruncatesFrom d (d + 1) (doStatement scope expression arguments)
      (doStatement scope expression' arguments') := by
  have hend : w.TruncatesFrom (d + 1) (d + 1) (do word ";"; emit discard)
      (do word ";"; emit discard) := (truncatesFrom_word ";").bind fun _ => truncatesFrom_emit _
  apply (truncatesFrom_marker .doStatement).bind
  intro _
  apply (truncatesFrom_word "do").bind
  intro _
  apply (truncatesFrom_atProduction .expression).bind
  intro isExpression
  split
  · exact he.bind fun _ => hend
  · apply truncatesFrom_identifier.bind
    intro name
    apply truncatesFrom_atCall.bind
    intro isCall
    split
    · exact (truncatesFrom_call name ha).bind fun _ => hend
    · exact (truncatesFrom_mismatch _).bind fun _ => hend

theorem truncatesFrom_returnStatement
    (he : w.TruncatesFrom (d + 1) (d + 1) expression expression') :
    w.TruncatesFrom d (d + 1) (returnStatement scope expression)
      (returnStatement scope expression') := by
  have hend : w.TruncatesFrom (d + 1) (d + 1) (do word ";"; emit .ret) (do word ";"; emit .ret) :=
    (truncatesFrom_word ";").bind fun _ => truncatesFrom_emit _
  apply (truncatesFrom_marker .returnStatement).bind
  intro _
  apply (truncatesFrom_word "return").bind
  intro _
  apply (truncatesFrom_atProduction .expression).bind
  rintro (_ | _)
  · cases scope.signature.isVoid with
    | true => exact (truncatesFrom_emit _).bind fun _ => hend
    | false => exact (truncatesFrom_note _).bind fun _ => hend
  · apply he.bind
    intro _
    cases scope.signature.isVoid with
    | true =>
      exact (truncatesFrom_note _).bind fun _ => (truncatesFrom_emit _).bind fun _ =>
        (truncatesFrom_emit _).bind fun _ => hend
    | false => exact hend

end

/-- The same for statements. -/
structure TruncatesStatements (w : Cut) (scope : Scope) (d b b' : Nat) : Prop
    extends TruncatesTerms w scope d b b' where
  statementList : w.TruncatesFrom d d (statementList scope b) (statementList scope b')

theorem TruncatesStatements.succ (h : w.TruncatesStatements scope (d + 1) b b') :
    w.TruncatesStatements scope d (b + 1) (b' + 1) := by
  have he := h.expression
  have hs := h.statementList
  refine ⟨h.toTruncatesTerms.succ, ?_⟩
  apply (truncatesFrom_peek? production?).bind
  intro production?
  split
  · exact ((truncatesFrom_letStatement he).bind fun _ => hs).steady
  · exact ((truncatesFrom_ifStatement he hs).bind fun _ => hs).steady
  · exact ((truncatesFrom_whileStatement he hs).bind fun _ => hs).steady
  · exact ((truncatesFrom_doStatement he (h.arguments 0)).bind fun _ => hs).steady
  · exact ((truncatesFrom_returnStatement he).bind fun _ => hs).steady
  · exact truncatesFrom_pure ()

theorem truncatesFrom_statementList (scope : Scope) (h : w.kept.length ≤ d + b)
    (h' : w.kept.length ≤ d + b') :
    w.TruncatesFrom d d (statementList scope b) (statementList scope b') := by
  apply TruncatesStatements.statementList
  apply lockstep_bounds (P := w.TruncatesStatements scope) ?_ ?_ ?_ b b' d h h'
  · exact fun d => ⟨.zero d, truncatesFrom_pure ()⟩
  · exact fun d b b' hs => hs.succ
  · exact fun d b b' hd hs => ⟨hs.toTruncatesTerms.stop hd, hs.statementList.stop hd⟩

theorem truncatesFrom_statements (scope : Scope) (h : w.kept.length ≤ d + b)
    (h' : w.kept.length ≤ d + b') :
    w.TruncatesFrom d d (statements scope b) (statements scope b') :=
  (truncatesFrom_marker _).steady.bind fun _ => truncatesFrom_statementList scope h h'

/-! ## Declarations -/

section

variable {className : String}

theorem truncates_define (table : SymbolTable) (name declaredType : String) (kind : Storage)
    (pos : Position) :
    w.Truncates False apart n (define className table name declaredType kind pos)
      (define className table name declaredType kind pos) fun n' _ => n' = n := by
  unfold define
  split
  · exact truncates_pure False.elim rfl
  · exact truncates_throw
  · next hduplicate =>
    have hnote : w.Truncates False False n (note (.duplicateIgnored className kind name))
        (note (.duplicateIgnored className kind name)) fun n' _ => n' = n := truncates_note id _
    apply hnote.bind
    rintro _ _ _ rfl
    exact truncates_pure False.elim rfl

theorem truncatesFrom_declareName (kind : Storage) (declaredType : String) (table : SymbolTable) :
    w.TruncatesFrom d (d + 1) (declareName className kind declaredType table)
      (declareName className kind declaredType table) := by
  intro n hn
  apply truncates_position
  apply truncates_identifier.bind
  rintro _ name _ rfl
  exact (truncates_define table name declaredType kind _).ge (Nat.succ_le_succ hn)

/-- The lists of names for two bounds. -/
def TruncatesNames (w : Cut) (className : String) (d b b' : Nat) : Prop :=
  ∀ kind declaredType table, w.TruncatesFrom d d
    (declareNames className kind declaredType b table)
    (declareNames className kind declaredType b' table)

theorem TruncatesNames.zero (d : Nat) : w.TruncatesNames className d 0 0 :=
  fun kind declaredType table => (truncatesFrom_declareName kind declaredType table).steady

theorem TruncatesNames.succ (h : w.TruncatesNames className (d + 1) b b') :
    w.TruncatesNames className d (b + 1) (b' + 1) := by
  intro kind declaredType table
  apply TruncatesFrom.steady
  apply (truncatesFrom_declareName kind declaredType table).bind
  intro table
  apply (truncatesFrom_accept comma).bind
  intro more
  split
  · exact h kind declaredType table
  · exact truncatesFrom_pure table

theorem TruncatesNames.stop (hd : w.kept.length ≤ d) (h : w.TruncatesNames className d b b) :
    w.TruncatesNames className d b b' :=
  fun kind declaredType table => (h kind declaredType table).stop hd

theorem TruncatesNames.declareTyped (h : w.TruncatesNames className d b b') (kind : Storage)
    (table : SymbolTable) :
    w.TruncatesFrom d d (declareTyped className kind b table)
      (declareTyped className kind b' table) :=
  truncatesFrom_type.bind fun declaredType => (h kind declaredType table).bind fun _ =>
    (truncatesFrom_word ";").bind fun _ => truncatesFrom_pure _

/-- Declarations go on as long as their marker comes next. -/
theorem truncatesFrom_more {α : Type} {p : Production} {step step' stop : Compiler α}
    (hstep : w.TruncatesFrom (d + 1) (d + 1) step step') (hstop : w.TruncatesFrom d d stop stop) :
    w.TruncatesFrom d d (do if ← atProduction p then (do advance; step) else stop)
      (do if ← atProduction p then (do advance; step') else stop) := by
  intro n hn
  apply (truncates_atProduction p).bind
  rintro n more _ ⟨rfl, rfl⟩
  by_cases he : w.kept[n]? = some (.production p)
  · rw [decide_eq_true he]
    apply (truncates_advance he).bind
    rintro _ _ _ rfl
    exact (hstep (n + 1) (Nat.succ_le_succ hn)).ge (Nat.le_succ_of_le hn)
  · rw [decide_eq_false he]
    exact hstop n hn

theorem truncatesFrom_classVarDecs (h : w.kept.length ≤ d + b) (h' : w.kept.length ≤ d + b') :
    ∀ table, w.TruncatesFrom d d (classVarDecs className b table)
      (classVarDecs className b' table) := by
  have hboth := lockstep_bounds (P := fun d b b' => w.TruncatesNames className d b b' ∧
    ∀ table, w.TruncatesFrom d d (classVarDecs className b table)
      (classVarDecs className b' table)) ?_ ?_ ?_ b b' d h h'
  · exact hboth.2
  · exact fun d => ⟨TruncatesNames.zero d, truncatesFrom_pure⟩
  · rintro d b b' ⟨hnames, hdecs⟩
    exact ⟨hnames.succ, fun table => truncatesFrom_more ((truncatesFrom_keyword _ _).bind
      fun kind => (hnames.declareTyped kind table).bind hdecs) (truncatesFrom_pure table)⟩
  · rintro d b b' hd ⟨hnames, hdecs⟩
    exact ⟨hnames.stop hd, fun table => (hdecs table).stop hd⟩

theorem truncatesFrom_varDecs (h : w.kept.length ≤ d + b) (h' : w.kept.length ≤ d + b') :
    ∀ table, w.TruncatesFrom d d (varDecs className b table) (varDecs className b' table) := by
  have hboth := lockstep_bounds (P := fun d b b' => w.TruncatesNames className d b b' ∧
    ∀ table, w.TruncatesFrom d d (varDecs className b table) (varDecs className b' table))
    ?_ ?_ ?_ b b' d h h'
  · exact hboth.2
  · exact fun d => ⟨TruncatesNames.zero d, truncatesFrom_pure⟩
  · rintro d b b' ⟨hnames, hdecs⟩
    exact ⟨hnames.succ, fun table => truncatesFrom_more ((truncatesFrom_word "var").bind
      fun _ => (hnames.declareTyped .localVar table).bind hdecs) (truncatesFrom_pure table)⟩
  · rintro d b b' hd ⟨hnames, hdecs⟩
    exact ⟨hnames.stop hd, fun table => (hdecs table).stop hd⟩

theorem truncatesFrom_parameter (table : SymbolTable) :
    w.TruncatesFrom d (d + 1) (parameters.parameter className table)
      (parameters.parameter className table) :=
  truncatesFrom_type.bind fun declaredType => truncatesFrom_declareName .argument declaredType table

theorem truncatesFrom_parameters (h : w.kept.length ≤ d + b) (h' : w.kept.length ≤ d + b') :
    ∀ table, w.TruncatesFrom d d (parameters className b table)
      (parameters className b' table) := by
  apply lockstep_bounds (P := fun d b b' => ∀ table, w.TruncatesFrom d d
    (parameters className b table) (parameters className b' table)) ?_ ?_ ?_ b b' d h h'
  · exact fun d table => (truncatesFrom_parameter table).steady
  · intro d b b' ih table
    apply TruncatesFrom.steady
    apply (truncatesFrom_parameter table).bind
    intro table
    apply (truncatesFrom_accept comma).bind
    intro more
    split
    · exact ih table
    · exact truncatesFrom_pure table
  · exact fun d b b' hd h table => (h table).stop hd

theorem truncatesFrom_parameterList (kind : SubroutineKind) (h : w.kept.length ≤ d + b)
    (h' : w.kept.length ≤ d + b') :
    w.TruncatesFrom d d (parameterList className kind b) (parameterList className kind b') := by
  have hend (table : SymbolTable) : w.TruncatesFrom d d
      (do if ← atSymbol ")" then pure table else parameters className b table)
      (do if ← atSymbol ")" then pure table else parameters className b' table) := by
    apply (truncatesFrom_atSymbol ")").bind
    intro isEmpty
    split
    · exact truncatesFrom_pure table
    · exact truncatesFrom_parameters h h' table
  apply (truncatesFrom_marker _).steady.bind
  intro _ n hn
  apply truncates_position
  by_cases hkind : kind = .method
  · rw [if_pos hkind, if_pos hkind]
    -- There is room for the receiver, wherever the entries end.
    obtain ⟨table, htable⟩ := Fork.define_this className
    simp only [define, htable, pure_bind]
    exact hend table n hn
  · rw [if_neg hkind, if_neg hkind, pure_bind, pure_bind]
    exact hend .empty n hn

/-- Since the marker is passed first, the bounds need not cover it. -/
theorem truncatesFrom_subroutineDec (classTable : SymbolTable) (h : w.kept.length ≤ d + 1 + b)
    (h' : w.kept.length ≤ d + 1 + b') :
    w.TruncatesFrom d (d + 1) (subroutineDec className classTable b)
      (subroutineDec className classTable b') := by
  apply (truncatesFrom_marker _).bind
  intro _
  apply (truncatesFrom_keyword _ _).bind
  intro kind
  apply truncatesFrom_type.bind
  intro returnType
  apply truncatesFrom_identifier.bind
  intro name
  apply (truncatesFrom_word "(").bind
  intro _
  apply (truncatesFrom_parameterList kind h h').bind
  intro table
  apply (truncatesFrom_word ")").bind
  intro _
  apply (truncatesFrom_marker _).steady.bind
  intro _
  apply (truncatesFrom_word openBrace).bind
  intro _
  apply (truncatesFrom_varDecs h h' table).bind
  intro table
  exact (truncatesFrom_note _).bind fun _ => (truncatesFrom_emit _).bind fun _ =>
    (truncatesFrom_emitAll _).bind fun _ => (truncatesFrom_statements _ h h').bind fun _ =>
      truncatesFrom_word closeBrace

theorem truncatesFrom_subroutineDecs (classTable : SymbolTable) (h : w.kept.length ≤ d + b)
    (h' : w.kept.length ≤ d + b') :
    w.TruncatesFrom d d (subroutineDecs className classTable b)
      (subroutineDecs className classTable b') := by
  apply lockstep_bounds (P := fun d b b' => w.kept.length ≤ d + b → w.kept.length ≤ d + b' →
    w.TruncatesFrom d d (subroutineDecs className classTable b)
      (subroutineDecs className classTable b')) ?_ ?_ ?_ b b' d h h' h h'
  · exact fun d _ _ => truncatesFrom_pure ()
  · intro d b b' ih h h'
    have hb : w.kept.length ≤ d + 1 + b := by omega
    have hb' : w.kept.length ≤ d + 1 + b' := by omega
    apply (truncatesFrom_atProduction .subroutineDec).bind
    intro more
    split
    · exact ((truncatesFrom_subroutineDec classTable hb hb').bind fun _ => ih hb hb').steady
    · exact truncatesFrom_pure ()
  · exact fun d b b' hd ih h _ => (ih h (Nat.le_add_right_of_le hd)).stop hd

end

theorem truncatesFrom_classStart (h : w.kept.length ≤ d + b) (h' : w.kept.length ≤ d + b') :
    w.TruncatesFrom d d (classStart b) (classStart b') :=
  (truncatesFrom_marker _).steady.bind fun _ => (truncatesFrom_word "class").bind fun _ =>
    truncatesFrom_identifier.bind fun _ => (truncatesFrom_note _).bind fun _ =>
      (truncatesFrom_word openBrace).bind fun _ => (truncatesFrom_classVarDecs h h' _).bind
        fun _ => truncatesFrom_pure _

/-- The tree does not end where the entries kept do. -/
theorem truncates_endOfTree {name : String} {Q : Nat → String → Prop} (hlost : w.lost ≠ []) :
    w.Truncates False apart n
      (do
        match ← current? with
        | some _ => mismatch "end of tree"
        | none => return name)
      (do
        match ← current? with
        | some _ => mismatch "end of tree"
        | none => return name) Q := by
  rintro s hs _ (_ | _)
  · have hlt : n < w.whole.length := by
      have hle := le_of_at hs
      have hpos := List.length_pos_iff.2 hlost
      rw [whole, List.length_append]
      omega
    have hcurrent : (w.fork.twin s).cursor.current? = some w.whole[n] := by
      rw [Fork.twin, hs.cursor, ← List.getElem?_eq_getElem hlt]
      exact List.head?_drop
    have hrun : ((current? >>= fun
        | some _ => mismatch "end of tree"
        | none => return name) : Compiler String).run (w.fork.twin s) =
          (mismatch "end of tree" : Compiler String).run (w.fork.twin s) := by
      show ((match (w.fork.twin s).cursor.current? with
        | some _ => mismatch "end of tree"
        | none => return name) : Compiler String).run (w.fork.twin s) = _
      rw [hcurrent]
    rw [hrun, run_mismatch]
    exact .failed
  · contradiction

/-- The last brace is read, and behind it the run on all entries finds one too many. -/
theorem truncates_classDec (hlost : w.lost ≠ []) (h : w.kept.length ≤ b)
    (h' : w.kept.length ≤ b') :
    w.Truncates True False 0 (classDec b) (classDec b') fun _ _ => False := by
  rw [← Nat.zero_add b] at h
  rw [← Nat.zero_add b'] at h'
  rw [classDec_eq, classDec_eq]
  apply (truncatesFrom_classStart h h' 0 (Nat.le_refl 0)).bind
  rintro n ⟨name, table⟩ _ hn
  apply (truncatesFrom_subroutineDecs table h h' n hn).bind
  intro n _ _ _
  have hbrace : w.Truncates True False n (word closeBrace) (word closeBrace) fun n' _ =>
      n' = n + 1 := truncates_word closeBrace
  apply hbrace.bind
  rintro _ _ _ rfl
  exact truncates_endOfTree hlost

end Jack.Cut
