import Jack.Proofs.Compiler.Parallel

/-!
# The compiler under two label supplies

Procedure by procedure, two runs of the compiler go on alike: no choice depends on a label id, and
an id is taken with the marker of its statement and nowhere else.
-/

namespace Jack.Comparison

open Compiler
open Vm (Instruction)

variable {w : Comparison} {scope : Scope} {n : Nat}

/-! ## Expressions -/

theorem parallel_resolve (scope : Scope) (name : String) {i : Nat} (hi : w.Quiet i n) :
    w.Parallel n (resolve scope name (.ofIndex i)) (resolve scope name (.ofIndex i))
      fun _ _ => True := by
  unfold resolve
  split
  · exact parallel_pure trivial
  · exact parallel_throw rfl hi

theorem uniform_oneMore (args : Nat) : w.Uniform (oneMore args) := by
  unfold oneMore
  split
  · intro n
    apply parallel_position.bind
    rintro n _ ⟨rfl, rfl⟩
    exact parallel_throw rfl (quiet_refl n)
  · exact uniform_pure _

theorem parallel_integerTerm (text : String) {i : Nat} (hi : w.Quiet i n) :
    w.Parallel n (integerTerm text (.ofIndex i)) (integerTerm text (.ofIndex i))
      fun _ _ => True := by
  unfold integerTerm
  split
  · exact uniform_emit rfl n
  · exact parallel_throw rfl hi

theorem isControl_stringInstructions {text : String} {is : List Instruction}
    (h : stringInstructions text = .ok is) : ∀ i ∈ is, i.isControl = false := by
  unfold stringInstructions at h
  split at h
  · cases h
  · split at h
    · cases h
    · cases h
      intro i hi
      simp only [List.mem_append, List.mem_flatMap, List.mem_cons, List.not_mem_nil,
        or_false] at hi
      rcases hi with (rfl | rfl) | ⟨c, -, rfl | rfl⟩ <;> rfl

theorem parallel_stringTerm (text : String) {i : Nat} (hi : w.Quiet i n) :
    w.Parallel n (stringTerm text (.ofIndex i)) (stringTerm text (.ofIndex i))
      fun _ _ => True := by
  unfold stringTerm
  split
  · next is his => exact uniform_emitAll (isControl_stringInstructions his) n
  · exact parallel_throw rfl hi

section

variable {term expression operators : Compiler Unit} {arguments : Compiler Nat}

theorem uniform_elementAddress (base : Slot) (he : w.Uniform expression) :
    w.Uniform (elementAddress base expression) :=
  he.bind fun _ => (uniform_word (by decide)).bind fun _ => (uniform_emit rfl).bind fun _ =>
    uniform_emit rfl

theorem uniform_parenthesized (ha : w.Uniform arguments) : w.Uniform (parenthesized arguments) :=
  (uniform_word (by decide)).bind fun _ => (uniform_marker rfl).bind fun _ => ha.bind fun _ =>
    (uniform_word (by decide)).bind fun _ => uniform_pure _

theorem uniform_boundCall {receiver : Instruction} (hreceiver : receiver.isControl = false)
    (callee : String) (ha : w.Uniform arguments) : w.Uniform (do
      emit receiver
      let args ← oneMore (← parenthesized arguments)
      emit (.call callee args)) :=
  (uniform_emit hreceiver).bind fun _ => (uniform_parenthesized ha).bind fun _ =>
    (uniform_oneMore _).bind fun _ => uniform_emit rfl

theorem uniform_call (name : String) (ha : w.Uniform arguments) :
    w.Uniform (call scope name arguments) := by
  intro n
  apply (parallel_atSymbol "(").then
  intro isOwn
  split
  · exact uniform_boundCall rfl _ ha
  · apply (uniform_word (by decide)).bind
    intro _
    apply uniform_identifier.bind
    intro method
    split
    · exact uniform_boundCall rfl _ ha
    · exact (uniform_parenthesized ha).bind fun _ => uniform_emit rfl

/-- The name is passed already, but a fault about it still names its own entry. -/
theorem parallel_nameTerm (name : String) (he : w.Uniform expression) (ha : w.Uniform arguments)
    {i : Nat} (hi : w.Quiet i n) :
    w.Parallel n (nameTerm scope name (.ofIndex i) expression arguments)
      (nameTerm scope name (.ofIndex i) expression arguments) fun _ _ => True := by
  apply parallel_atCall.bind
  rintro n isCall rfl
  cases isCall with
  | true => exact uniform_call name ha n
  | false =>
    apply (parallel_accept rfl).bind
    intro n' isElement hn'
    have hresolve := parallel_resolve scope name (hi.trans hn')
    cases isElement with
    | true =>
      exact hresolve.then fun base => (uniform_elementAddress base he).bind fun _ =>
        uniform_emitAll (by decide)
    | false => exact hresolve.then fun slot => uniform_emit rfl

theorem uniform_termBody (ht : w.Uniform term) (he : w.Uniform expression)
    (ha : w.Uniform arguments) : w.Uniform (termBody scope term expression arguments) := by
  intro n
  apply parallel_position.bind
  rintro n _ ⟨rfl, rfl⟩
  apply parallel_current?.bind
  rintro n _ ⟨rfl, rfl⟩
  split
  · next text hentry =>
    have hpass := parallel_advance hentry rfl
    split
    · exact hpass.then fun _ => he.bind fun _ => uniform_word (by decide)
    · split
      · next op _ =>
        exact hpass.then fun _ => ht.bind fun _ => uniform_emit (by cases op <;> rfl)
      · exact parallel_mismatch _
  · apply (uniform_keyword _ _ n).then
    intro constant
    exact uniform_emitAll (by cases constant <;> decide)
  · next text hentry =>
    exact (parallel_advance hentry rfl).bind fun n' _ hn' => parallel_integerTerm text hn'
  · next text hentry =>
    exact (parallel_advance hentry rfl).bind fun n' _ hn' => parallel_stringTerm text hn'
  · next name hentry =>
    exact (parallel_advance hentry rfl).bind fun n' _ hn' => parallel_nameTerm name he ha hn'
  · exact parallel_mismatch _

theorem uniform_expressionOf (ht : w.Uniform term) (ho : w.Uniform operators) :
    w.Uniform (expressionOf term operators) :=
  (uniform_marker rfl).bind fun _ => ht.bind fun _ => ho

end

theorem isControl_binaryOp (op : BinaryOp) : op.instruction.isControl = false := by
  cases op <;> rfl

/-- The recursion of terms, operators and arguments. -/
theorem uniform_terms (scope : Scope) (bound : Nat) : w.Uniform (term scope bound) ∧
    w.Uniform (operators scope bound) ∧ ∀ args, w.Uniform (arguments scope bound args) := by
  -- Each of the three calls the others with a smaller bound.
  induction bound with
  | zero => exact ⟨uniform_marker rfl, uniform_pure _, fun args => uniform_pure args⟩
  | succ bound ih =>
    obtain ⟨hterm, hoperators, harguments⟩ := ih
    have hexpression := uniform_expressionOf hterm hoperators
    refine ⟨?_, ?_, ?_⟩
    · exact (uniform_marker rfl).bind fun _ =>
        uniform_termBody hterm hexpression (harguments 0)
    · intro n
      apply (parallel_peek? _).bind
      rintro n op? ⟨rfl, hop⟩
      cases op? with
      | none => exact parallel_pure trivial
      | some op =>
        -- An entry that writes an operator is a token.
        obtain ⟨e, he, hop⟩ := Option.bind_eq_some_iff.1 hop.symm
        have hlabel : e.takesLabel = false := by
          cases e with
          | production p => cases hop
          | token kind text => rfl
        exact (parallel_advance he hlabel).then fun _ => hterm.bind fun _ =>
          (uniform_emit (isControl_binaryOp op)).bind fun _ => hoperators
    · intro args n
      apply (parallel_atProduction _).then
      intro isArgument
      split
      · apply hexpression.bind
        intro _
        apply (uniform_oneMore args).bind
        intro args
        apply (uniform_accept rfl).bind
        intro more
        split
        · exact harguments args
        · exact uniform_pure args
      · exact uniform_pure args

theorem uniform_expression (scope : Scope) (bound : Nat) : w.Uniform (expression scope bound) :=
  uniform_expressionOf (uniform_terms scope bound).1 (uniform_terms scope bound).2.1

/-! ## Statements -/

section

variable {expression statementList : Compiler Unit} {arguments : Compiler Nat}

theorem uniform_condition (he : w.Uniform expression) : w.Uniform (condition expression) :=
  (uniform_word (by decide)).bind fun _ => he.bind fun _ => uniform_word (by decide)

theorem uniform_block (hs : w.Uniform statementList) : w.Uniform (block statementList) :=
  (uniform_word (by decide)).bind fun _ => (uniform_marker rfl).bind fun _ => hs.bind fun _ =>
    uniform_word (by decide)

theorem uniform_letStatement (he : w.Uniform expression) :
    w.Uniform (letStatement scope expression) := by
  apply (uniform_marker rfl).bind
  intro _
  apply (uniform_word (by decide)).bind
  intro _ n
  apply parallel_position.bind
  rintro n _ ⟨rfl, rfl⟩
  apply parallel_identifier.bind
  intro n' name hn'
  apply (parallel_resolve scope name hn').then
  intro target
  apply (uniform_accept rfl).bind
  intro isElement
  split
  · exact (uniform_elementAddress target he).bind fun _ => (uniform_word (by decide)).bind fun _ =>
      he.bind fun _ => (uniform_word (by decide)).bind fun _ => uniform_emitAll (by decide)
  · exact (uniform_word (by decide)).bind fun _ => he.bind fun _ =>
      (uniform_word (by decide)).bind fun _ => uniform_emit rfl

theorem uniform_ifStatement (he : w.Uniform expression) (hs : w.Uniform statementList) :
    w.Uniform (ifStatement expression statementList) := by
  intro n
  -- From here on each run has the `k`-th id of its own supply.
  apply parallel_branch rfl
  intro n k
  apply (uniform_word (by decide) n).bind
  intro n _ _
  apply (uniform_condition he n).bind
  intro n _ _
  apply (parallel_emitAll (Vm.relabelled_branch _ _ k)).bind
  rintro n _ rfl
  apply (uniform_block hs n).bind
  intro n _ _
  apply (uniform_accept rfl n).bind
  intro n hasElse _
  cases hasElse with
  | true =>
    apply (parallel_emitAll (Vm.relabelled_else _ _ k)).bind
    rintro n _ rfl
    apply (uniform_block hs n).bind
    intro n _ _
    exact (parallel_emit (Vm.relabelled_done _ _ k)).top
  | false => exact (parallel_emit (Vm.relabelled_onFalse _ _ k)).top

theorem uniform_whileStatement (he : w.Uniform expression) (hs : w.Uniform statementList) :
    w.Uniform (whileStatement expression statementList) := by
  intro n
  apply parallel_branch rfl
  intro n k
  apply (uniform_word (by decide) n).bind
  intro n _ _
  apply (parallel_emit (Vm.relabelled_condition _ _ k)).bind
  rintro n _ rfl
  apply (uniform_condition he n).bind
  intro n _ _
  apply (parallel_emitAll (Vm.relabelled_exit _ _ k)).bind
  rintro n _ rfl
  apply (uniform_block hs n).bind
  intro n _ _
  exact (parallel_emitAll (Vm.relabelled_repeat _ _ k)).top

theorem uniform_doStatement (he : w.Uniform expression) (ha : w.Uniform arguments) :
    w.Uniform (doStatement scope expression arguments) := by
  have hend : w.Uniform (do word ";"; emit discard) :=
    (uniform_word (by decide)).bind fun _ => uniform_emit rfl
  apply (uniform_marker rfl).bind
  intro _
  apply (uniform_word (by decide)).bind
  intro _ n
  apply (parallel_atProduction _).then
  intro isExpression
  split
  · exact he.bind fun _ => hend
  · apply uniform_identifier.bind
    intro name n
    apply parallel_atCall.then
    intro isCall
    split
    · exact (uniform_call name ha).bind fun _ => hend
    · exact Uniform.bind (fun _ => parallel_mismatch _) fun _ => hend

theorem uniform_returnStatement (he : w.Uniform expression) :
    w.Uniform (returnStatement scope expression) := by
  have hend : w.Uniform (do word ";"; emit .ret) :=
    (uniform_word (by decide)).bind fun _ => uniform_emit rfl
  apply (uniform_marker rfl).bind
  intro _
  apply (uniform_word (by decide)).bind
  intro _ n
  apply (parallel_atProduction _).then
  rintro (_ | _)
  · cases scope.signature.isVoid with
    | true => exact (uniform_emit rfl).bind fun _ => hend
    | false => exact (uniform_note _).bind fun _ => hend
  · apply he.bind
    intro _
    cases scope.signature.isVoid with
    | true =>
      exact (uniform_note _).bind fun _ => (uniform_emit rfl).bind fun _ =>
        (uniform_emit rfl).bind fun _ => hend
    | false => exact hend

end

theorem uniform_statementList (scope : Scope) (bound : Nat) :
    w.Uniform (statementList scope bound) := by
  induction bound with
  | zero => exact uniform_pure ()
  | succ bound ih =>
    have he := uniform_expression (w := w) scope bound
    intro n
    apply (parallel_peek? _).then
    intro production?
    split
    · exact (uniform_letStatement he).bind fun _ => ih
    · exact (uniform_ifStatement he ih).bind fun _ => ih
    · exact (uniform_whileStatement he ih).bind fun _ => ih
    · exact (uniform_doStatement he ((uniform_terms scope bound).2.2 0)).bind fun _ => ih
    · exact (uniform_returnStatement he).bind fun _ => ih
    · exact uniform_pure ()

theorem uniform_statements (scope : Scope) (bound : Nat) : w.Uniform (statements scope bound) :=
  (uniform_marker rfl).bind fun _ => uniform_statementList scope bound

/-! ## Declarations -/

section

variable {className : String}

theorem parallel_define (table : SymbolTable) (name declaredType : String) (kind : Storage)
    {i : Nat} (hi : w.Quiet i n) :
    w.Parallel n (define className table name declaredType kind (.ofIndex i))
      (define className table name declaredType kind (.ofIndex i)) fun _ _ => True := by
  unfold define
  split
  · exact parallel_pure trivial
  · exact parallel_throw rfl hi
  · exact (uniform_note _ n).then fun _ => uniform_pure _

theorem uniform_declareName (kind : Storage) (declaredType : String) (table : SymbolTable) :
    w.Uniform (declareName className kind declaredType table) := by
  intro n
  apply parallel_position.bind
  rintro n _ ⟨rfl, rfl⟩
  apply parallel_identifier.bind
  intro n' name hn'
  exact parallel_define table name declaredType kind hn'

theorem uniform_declareNames (kind : Storage) (declaredType : String) (bound : Nat) :
    ∀ table, w.Uniform (declareNames className kind declaredType bound table) := by
  induction bound with
  | zero => exact uniform_declareName kind declaredType
  | succ bound ih =>
    intro table
    apply (uniform_declareName kind declaredType table).bind
    intro table
    apply (uniform_accept rfl).bind
    intro more
    split
    · exact ih table
    · exact uniform_pure table

theorem uniform_declareTyped (kind : Storage) (bound : Nat) (table : SymbolTable) :
    w.Uniform (declareTyped className kind bound table) :=
  uniform_type.bind fun declaredType =>
    (uniform_declareNames kind declaredType bound table).bind fun _ =>
      (uniform_word (by decide)).bind fun _ => uniform_pure _

/-- Declarations are passed as long as their marker comes next. -/
theorem parallel_more {α : Type} {p : Production} (hp : (Entry.production p).takesLabel = false)
    {step stop : Compiler α} (hstep : w.Uniform step) (hstop : w.Uniform stop) :
    w.Parallel n (do if ← atProduction p then (do advance; step) else stop)
      (do if ← atProduction p then (do advance; step) else stop) fun _ _ => True := by
  apply (parallel_atProduction p).bind
  rintro n more ⟨rfl, rfl⟩
  by_cases he : w.entries[n]? = some (.production p)
  · rw [decide_eq_true he]
    exact (parallel_advance he hp).then fun _ => hstep
  · rw [decide_eq_false he]
    exact hstop n

theorem uniform_classVarDecs (bound : Nat) :
    ∀ table, w.Uniform (classVarDecs className bound table) := by
  induction bound with
  | zero => exact fun table => uniform_pure table
  | succ bound ih =>
    intro table n
    exact parallel_more rfl ((uniform_keyword _ _).bind fun kind =>
      (uniform_declareTyped kind bound table).bind fun table => ih table) (uniform_pure table)

theorem uniform_varDecs (bound : Nat) : ∀ table, w.Uniform (varDecs className bound table) := by
  induction bound with
  | zero => exact fun table => uniform_pure table
  | succ bound ih =>
    intro table n
    exact parallel_more rfl ((uniform_word (by decide)).bind fun _ =>
      (uniform_declareTyped .localVar bound table).bind fun table => ih table) (uniform_pure table)

theorem uniform_parameter (table : SymbolTable) :
    w.Uniform (parameters.parameter className table) :=
  uniform_type.bind fun declaredType => uniform_declareName .argument declaredType table

theorem uniform_parameters (bound : Nat) :
    ∀ table, w.Uniform (parameters className bound table) := by
  induction bound with
  | zero => exact uniform_parameter
  | succ bound ih =>
    intro table
    apply (uniform_parameter table).bind
    intro table
    apply (uniform_accept rfl).bind
    intro more
    split
    · exact ih table
    · exact uniform_pure table

theorem uniform_parameterList (kind : SubroutineKind) (bound : Nat) :
    w.Uniform (parameterList className kind bound) := by
  have hend (table : SymbolTable) : w.Uniform (do
      if ← atSymbol ")" then pure table else parameters className bound table) := by
    intro n
    apply (parallel_atSymbol _).then
    intro isEmpty
    split
    · exact uniform_pure table
    · exact uniform_parameters bound table
  apply (uniform_marker rfl).bind
  intro _ n
  apply parallel_position.bind
  rintro n _ ⟨rfl, rfl⟩
  -- Only a method declares something before its parameters.
  by_cases h : kind = .method
  · rw [if_pos h]
    exact (parallel_define _ _ _ _ (quiet_refl n)).then hend
  · rw [if_neg h]
    exact (uniform_pure _ n).then hend

theorem isControl_prologue (kind : SubroutineKind) (fields : Nat) :
    ∀ i ∈ kind.prologue fields, i.isControl = false := by
  cases kind <;> simp [SubroutineKind.prologue, Instruction.isControl]

theorem uniform_subroutineDec (classTable : SymbolTable) (bound : Nat) :
    w.Uniform (subroutineDec className classTable bound) := by
  apply (uniform_marker rfl).bind
  intro _
  apply (uniform_keyword _ _).bind
  intro kind
  apply uniform_type.bind
  intro returnType
  apply uniform_identifier.bind
  intro name
  apply (uniform_word (by decide)).bind
  intro _
  apply (uniform_parameterList kind bound).bind
  intro table
  apply (uniform_word (by decide)).bind
  intro _
  apply (uniform_marker rfl).bind
  intro _
  apply (uniform_word (by decide)).bind
  intro _
  apply (uniform_varDecs bound table).bind
  intro table
  apply (uniform_note _).bind
  intro _
  apply (uniform_emit rfl).bind
  intro _
  apply (uniform_emitAll (isControl_prologue kind _)).bind
  intro _
  exact (uniform_statements _ bound).bind fun _ => uniform_word (by decide)

theorem uniform_subroutineDecs (classTable : SymbolTable) (bound : Nat) :
    w.Uniform (subroutineDecs className classTable bound) := by
  induction bound with
  | zero => exact uniform_pure ()
  | succ bound ih =>
    intro n
    apply (parallel_atProduction _).then
    intro more
    split
    · exact (uniform_subroutineDec classTable bound).bind fun _ => ih
    · exact uniform_pure ()

end

/-- A class that compiles is passed to its end. -/
theorem parallel_classDec (bound : Nat) :
    w.Parallel n (classDec bound) (classDec bound) fun n' _ => n' = w.entries.length := by
  apply (uniform_marker rfl n).bind
  intro n _ _
  apply (uniform_word (by decide) n).bind
  intro n _ _
  apply (uniform_identifier n).bind
  intro n name _
  apply (uniform_note _ n).bind
  intro n _ _
  apply (uniform_word (by decide) n).bind
  intro n _ _
  apply (uniform_classVarDecs bound _ n).bind
  intro n table _
  apply (uniform_subroutineDecs table bound n).bind
  intro n _ _
  apply (uniform_word (by decide) n).bind
  intro n _ _
  apply parallel_current?.bind
  rintro n e? ⟨rfl, he⟩
  -- A class is accepted only if no entry is left.
  cases e? with
  | some e => exact parallel_mismatch _
  | none =>
    intro s s' hs
    have hend : n = w.entries.length :=
      Nat.le_antisymm hs.le (List.getElem?_eq_none_iff.1 he.symm)
    exact .ok hs hend

end Jack.Comparison
