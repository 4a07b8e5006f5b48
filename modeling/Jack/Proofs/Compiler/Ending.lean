import Jack.Proofs.Compiler.Progress
import Jack.Proofs.Compiler.Routines

/-!
# Trees that end inside a subroutine

A compiler that reads a part of a subroutine stops in front of the next one. If it fails because the
tree ends, then it has passed all entries, and so no other subroutine begins among them. In a tree
with which nothing is wrong but that it ends, all subroutines but the last one are therefore
compiled.
-/

namespace Jack.Compiler

open Grammar

variable {α β : Type} {m : Compiler α} {f : α → Compiler β} {es : List Entry} {scope : Scope}

/-- No subroutine begins among the entries that a run has passed. If nothing is wrong but that the
tree ends, none begins among all of them. -/
def Inside (es : List Entry) : EStateM.Result Fault CompilerState α → Prop
  | .ok _ t => ∃ used, es = used ++ t.cursor.rest ∧ routineMarker ∉ used
  | .error fault _ => fault.pos? = none → routineMarker ∉ es

/-- A compiler that does not leave the subroutine these entries belong to. -/
def StaysOn (es : List Entry) (m : Compiler α) : Prop :=
  ∀ n l c ns, Inside es (m.run ⟨⟨es, n⟩, l, c, ns⟩)

/-- A compiler that leaves no subroutine. -/
def Stays (m : Compiler α) : Prop := ∀ es, StaysOn es m

/-! ## Rules -/

theorem StaysOn.bind (h : StaysOn es m) (hf : ∀ a, Stays (f a)) : StaysOn es (m >>= f) := by
  intro n l c ns
  have hm := h n l c ns
  rw [EStateM.run_bind]
  cases hrun : m.run ⟨⟨es, n⟩, l, c, ns⟩ with
  | error fault t =>
    rw [hrun] at hm
    exact hm
  | ok a t =>
    obtain ⟨⟨rest, n'⟩, l', c', ns'⟩ := t
    rw [hrun] at hm
    obtain ⟨used, rfl, hused⟩ := hm
    -- What the second part says of the rest holds of all entries, since none begins before.
    have ha := hf a rest n' l' c' ns'
    dsimp only
    cases hrun' : (f a).run ⟨⟨rest, n'⟩, l', c', ns'⟩ with
    | ok b t =>
      rw [hrun'] at ha
      obtain ⟨used', hrest, hused'⟩ := ha
      refine ⟨used ++ used', ?_, by simp [hused, hused']⟩
      rw [List.append_assoc]
      exact congrArg (used ++ ·) hrest
    | error fault t =>
      rw [hrun'] at ha
      exact fun hpos => by simp [hused, ha hpos]

theorem Stays.bind (h : Stays m) (hf : ∀ a, Stays (f a)) : Stays (m >>= f) :=
  fun es => (h es).bind hf

/-- A step that passes nothing. -/
theorem stays_silent (h : ∀ s, ∃ a t, m.run s = .ok a t ∧ t.cursor = s.cursor) : Stays m := by
  intro es n l c ns
  obtain ⟨a, t, hrun, hcursor⟩ := h ⟨⟨es, n⟩, l, c, ns⟩
  rw [hrun]
  exact ⟨[], by rw [hcursor]; rfl, List.not_mem_nil⟩

theorem stays_pure (a : α) : Stays (pure a) := stays_silent fun _ => ⟨a, _, rfl, rfl⟩

theorem stays_throw {fault : Fault} {pos : Position} (h : fault.pos? = some pos) :
    Stays (throw fault : Compiler α) := by
  intro es n l c ns hpos
  rw [h] at hpos
  cases hpos

theorem stays_position : Stays position := stays_silent fun _ => ⟨_, _, rfl, rfl⟩

theorem stays_takeLabel : Stays takeLabel := stays_silent fun _ => ⟨_, _, rfl, rfl⟩

theorem stays_emit (i : Vm.Instruction) : Stays (emit i) := stays_silent fun _ => ⟨_, _, rfl, rfl⟩

theorem stays_note (notice : Notice) : Stays (note notice) :=
  stays_silent fun _ => ⟨_, _, rfl, rfl⟩

theorem stays_emitAll (is : List Vm.Instruction) : Stays (emitAll is) :=
  stays_silent fun _ => ⟨(), _, run_emitAll is, rfl⟩

theorem stays_atSymbol (text : String) : Stays (atSymbol text) :=
  stays_silent fun _ => ⟨_, _, rfl, rfl⟩

theorem stays_atProduction (p : Production) : Stays (atProduction p) :=
  stays_silent fun _ => ⟨_, _, rfl, rfl⟩

/-- What is looked at is known. -/
theorem staysOn_current? {f : Option Entry → Compiler β} (h : StaysOn es (f es.head?)) :
    StaysOn es (current? >>= f) := h

theorem staysOn_peek? {select : Entry → Option α} {f : Option α → Compiler β}
    (h : StaysOn es (f (es.head?.bind select))) : StaysOn es (peek? select >>= f) := h

theorem stays_mismatch (expected : String) : Stays (mismatch expected : Compiler α) := by
  intro es n l c ns
  cases es with
  | nil => exact fun _ => List.not_mem_nil
  | cons e es =>
    intro hpos
    cases hpos

theorem staysOn_advance {e : Entry} (he : es.head? = some e) (hne : e ≠ routineMarker) :
    StaysOn es advance := by
  obtain ⟨rest, rfl⟩ := List.head?_eq_some_iff.1 he
  intro n l c ns
  refine ⟨[e], rfl, ?_⟩
  rw [List.mem_singleton]
  exact hne.symm

theorem stays_read {expected : String} {select : Entry → Option α}
    (hselect : select routineMarker = none) : Stays (read expected select) := by
  intro es
  apply staysOn_peek?
  cases he : es.head?.bind select with
  | none => exact stays_mismatch expected es
  | some a =>
    obtain ⟨e, hhead, hsome⟩ := Option.bind_eq_some_iff.1 he
    have hne : e ≠ routineMarker := by
      rintro rfl
      rw [hselect] at hsome
      cases hsome
    exact (staysOn_advance hhead hne).bind fun _ => stays_pure a

theorem stays_marker {p : Production} (hp : p ≠ .subroutineDec) : Stays (marker p) :=
  stays_read <| if_neg fun h => hp (Entry.production.inj h).symm

theorem stays_word {text : String} (htext : text ≠ "") : Stays (word text) :=
  stays_read <| if_neg fun h => htext h.symm

theorem stays_identifier : Stays identifier := stays_read rfl

theorem stays_type : Stays type := stays_read rfl

theorem stays_keyword (expected : String) (meaning? : String → Option α) :
    Stays (keyword expected meaning?) := stays_read rfl

theorem stays_accept {e : Entry} (hne : e ≠ routineMarker) : Stays (accept e) := by
  intro es
  apply staysOn_current?
  by_cases he : es.head? = some e
  · rw [if_pos he]
    exact (staysOn_advance he hne).bind fun _ => stays_pure true
  · rw [if_neg he]
    exact stays_pure false es

/-! ## Expressions -/

theorem stays_resolve (scope : Scope) (name : String) (pos : Position) :
    Stays (resolve scope name pos) := by
  unfold resolve
  split
  · exact stays_pure _
  · exact stays_throw rfl

theorem stays_oneMore (args : Nat) : Stays (oneMore args) := by
  unfold oneMore
  split
  · exact stays_position.bind fun _ => stays_throw rfl
  · exact stays_pure _

theorem stays_integerTerm (text : String) (pos : Position) : Stays (integerTerm text pos) := by
  unfold integerTerm
  split
  · exact stays_emit _
  · exact stays_throw rfl

theorem stays_stringTerm (text : String) (pos : Position) : Stays (stringTerm text pos) := by
  unfold stringTerm
  split
  · exact stays_emitAll _
  · exact stays_throw rfl

section

variable {term expression operators : Compiler Unit} {arguments : Compiler Nat}

theorem stays_elementAddress (base : Slot) (he : Stays expression) :
    Stays (elementAddress base expression) :=
  he.bind fun _ => (stays_word (by decide)).bind fun _ => (stays_emit _).bind fun _ => stays_emit _

theorem stays_parenthesized (ha : Stays arguments) : Stays (parenthesized arguments) :=
  (stays_word (by decide)).bind fun _ => (stays_marker (by decide)).bind fun _ => ha.bind fun _ =>
    (stays_word (by decide)).bind fun _ => stays_pure _

theorem stays_boundCall (receiver : Vm.Instruction) (callee : String) (ha : Stays arguments) :
    Stays (do
      emit receiver
      let args ← oneMore (← parenthesized arguments)
      emit (.call callee args)) :=
  (stays_emit _).bind fun _ => (stays_parenthesized ha).bind fun _ =>
    (stays_oneMore _).bind fun _ => stays_emit _

theorem stays_call (name : String) (ha : Stays arguments) : Stays (call scope name arguments) := by
  apply (stays_atSymbol "(").bind
  intro isOwn
  split
  · exact stays_boundCall _ _ ha
  · apply (stays_word (by decide)).bind
    intro _
    apply stays_identifier.bind
    intro method
    split
    · exact stays_boundCall _ _ ha
    · exact (stays_parenthesized ha).bind fun _ => stays_emit _

theorem stays_atCall : Stays atCall := by
  apply (stays_atSymbol "(").bind
  intro isOwn
  split
  · exact stays_pure true
  · exact stays_atSymbol "."

theorem stays_nameTerm (name : String) (pos : Position) (he : Stays expression)
    (ha : Stays arguments) : Stays (nameTerm scope name pos expression arguments) := by
  apply stays_atCall.bind
  intro isCall
  split
  · exact stays_call name ha
  · apply (stays_accept (by decide)).bind
    intro isElement
    have hresolve := stays_resolve scope name pos
    split
    · exact hresolve.bind fun base => (stays_elementAddress base he).bind fun _ => stays_emitAll _
    · exact hresolve.bind fun slot => stays_emit _

theorem stays_termBody (ht : Stays term) (he : Stays expression) (ha : Stays arguments) :
    Stays (termBody scope term expression arguments) := by
  apply stays_position.bind
  intro pos es
  apply staysOn_current?
  split
  · next text hhead =>
    have hpass : StaysOn es advance := staysOn_advance hhead nofun
    split
    · exact hpass.bind fun _ => he.bind fun _ => stays_word (by decide)
    · split
      · exact hpass.bind fun _ => ht.bind fun _ => stays_emit _
      · exact stays_mismatch _ es
  · exact (stays_keyword _ _).bind (fun constant => stays_emitAll _) es
  · next text hhead => exact (staysOn_advance hhead nofun).bind fun _ => stays_integerTerm text pos
  · next text hhead => exact (staysOn_advance hhead nofun).bind fun _ => stays_stringTerm text pos
  · next name hhead =>
    exact (staysOn_advance hhead nofun).bind fun _ => stays_nameTerm name pos he ha
  · exact stays_mismatch _ es

theorem stays_expressionOf (ht : Stays term) (ho : Stays operators) :
    Stays (expressionOf term operators) :=
  (stays_marker (by decide)).bind fun _ => ht.bind fun _ => ho

end

/-- The recursion of terms, operators and arguments. -/
theorem stays_terms (scope : Scope) (bound : Nat) : Stays (term scope bound) ∧
    Stays (operators scope bound) ∧ ∀ args, Stays (arguments scope bound args) := by
  -- Each of the three calls the others with a smaller bound.
  induction bound with
  | zero => exact ⟨stays_marker (by decide), stays_pure _, fun args => stays_pure args⟩
  | succ bound ih =>
    obtain ⟨hterm, hoperators, harguments⟩ := ih
    have hexpression := stays_expressionOf hterm hoperators
    refine ⟨?_, ?_, ?_⟩
    · exact (stays_marker (by decide)).bind fun _ => stays_termBody hterm hexpression (harguments 0)
    · intro es
      apply staysOn_peek?
      split
      · next op hop =>
        -- An entry that writes an operator is a token.
        obtain ⟨e, hhead, hop⟩ := Option.bind_eq_some_iff.1 hop
        have hne : e ≠ routineMarker := by
          rintro rfl
          cases hop
        exact (staysOn_advance hhead hne).bind fun _ => hterm.bind fun _ =>
          (stays_emit _).bind fun _ => hoperators
      · exact stays_pure () es
    · intro args
      apply (stays_atProduction _).bind
      intro isArgument
      split
      · apply hexpression.bind
        intro _
        apply (stays_oneMore args).bind
        intro args
        apply (stays_accept (by decide)).bind
        intro more
        split
        · exact harguments args
        · exact stays_pure args
      · exact stays_pure args

theorem stays_expression (scope : Scope) (bound : Nat) : Stays (expression scope bound) :=
  stays_expressionOf (stays_terms scope bound).1 (stays_terms scope bound).2.1

/-! ## Statements -/

section

variable {expression statementList : Compiler Unit} {arguments : Compiler Nat}

theorem stays_condition (he : Stays expression) : Stays (condition expression) :=
  (stays_word (by decide)).bind fun _ => he.bind fun _ => stays_word (by decide)

theorem stays_block (hs : Stays statementList) : Stays (block statementList) :=
  (stays_word (by decide)).bind fun _ => (stays_marker (by decide)).bind fun _ => hs.bind fun _ =>
    stays_word (by decide)

theorem stays_letStatement (he : Stays expression) : Stays (letStatement scope expression) := by
  have hvalue {i : Compiler Unit} (hi : Stays i) : Stays (do word "="; expression; word ";"; i) :=
    (stays_word (by decide)).bind fun _ => he.bind fun _ =>
      (stays_word (by decide)).bind fun _ => hi
  apply (stays_marker (by decide)).bind
  intro _
  apply (stays_word (by decide)).bind
  intro _
  apply stays_position.bind
  intro pos
  apply stays_identifier.bind
  intro name
  apply (stays_resolve scope name pos).bind
  intro target
  apply (stays_accept (by decide)).bind
  intro isElement
  split
  · exact (stays_elementAddress target he).bind fun _ => hvalue (stays_emitAll _)
  · exact hvalue (stays_emit _)

theorem stays_ifStatement (he : Stays expression) (hs : Stays statementList) :
    Stays (ifStatement expression statementList) := by
  apply (stays_marker (by decide)).bind
  intro _
  apply stays_takeLabel.bind
  intro id
  apply (stays_word (by decide)).bind
  intro _
  apply (stays_condition he).bind
  intro _
  apply (stays_emitAll _).bind
  intro _
  apply (stays_block hs).bind
  intro _
  apply (stays_accept (by decide)).bind
  intro hasElse
  split
  · exact (stays_emitAll _).bind fun _ => (stays_block hs).bind fun _ => stays_emit _
  · exact stays_emit _

theorem stays_whileStatement (he : Stays expression) (hs : Stays statementList) :
    Stays (whileStatement expression statementList) :=
  (stays_marker (by decide)).bind fun _ => stays_takeLabel.bind fun _ =>
    (stays_word (by decide)).bind fun _ => (stays_emit _).bind fun _ =>
      (stays_condition he).bind fun _ => (stays_emitAll _).bind fun _ =>
        (stays_block hs).bind fun _ => stays_emitAll _

theorem stays_doStatement (he : Stays expression) (ha : Stays arguments) :
    Stays (doStatement scope expression arguments) := by
  have hend : Stays (do word ";"; emit discard) :=
    (stays_word (by decide)).bind fun _ => stays_emit _
  apply (stays_marker (by decide)).bind
  intro _
  apply (stays_word (by decide)).bind
  intro _
  apply (stays_atProduction _).bind
  intro isExpression
  split
  · exact he.bind fun _ => hend
  · apply stays_identifier.bind
    intro name
    apply stays_atCall.bind
    intro isCall
    split
    · exact (stays_call name ha).bind fun _ => hend
    · exact (stays_mismatch _).bind fun _ => hend

theorem stays_returnStatement (he : Stays expression) :
    Stays (returnStatement scope expression) := by
  have hend : Stays (do word ";"; emit .ret) :=
    (stays_word (by decide)).bind fun _ => stays_emit _
  apply (stays_marker (by decide)).bind
  intro _
  apply (stays_word (by decide)).bind
  intro _
  apply (stays_atProduction _).bind
  rintro (_ | _)
  · cases scope.signature.isVoid with
    | true => exact (stays_emit _).bind fun _ => hend
    | false => exact (stays_note _).bind fun _ => hend
  · apply he.bind
    intro _
    cases scope.signature.isVoid with
    | true =>
      exact (stays_note _).bind fun _ => (stays_emit _).bind fun _ => (stays_emit _).bind fun _ =>
        hend
    | false => exact hend

end

theorem stays_statementList (scope : Scope) (bound : Nat) : Stays (statementList scope bound) := by
  induction bound with
  | zero => exact stays_pure ()
  | succ bound ih =>
    have he := stays_expression scope bound
    intro es
    apply staysOn_peek?
    split
    · exact (stays_letStatement he).bind (fun _ => ih) es
    · exact (stays_ifStatement he ih).bind (fun _ => ih) es
    · exact (stays_whileStatement he ih).bind (fun _ => ih) es
    · exact (stays_doStatement he ((stays_terms scope bound).2.2 0)).bind (fun _ => ih) es
    · exact (stays_returnStatement he).bind (fun _ => ih) es
    · exact stays_pure () es

/-! ## Declarations -/

section

variable {className : String}

theorem stays_define (table : SymbolTable) (name declaredType : String) (kind : Storage)
    (pos : Position) : Stays (define className table name declaredType kind pos) := by
  unfold define
  split
  · exact stays_pure _
  · exact stays_throw rfl
  · exact (stays_note _).bind fun _ => stays_pure _

theorem stays_declareName (kind : Storage) (declaredType : String) (table : SymbolTable) :
    Stays (declareName className kind declaredType table) :=
  stays_position.bind fun _ => stays_identifier.bind fun _ => stays_define _ _ _ _ _

theorem stays_declareNames (kind : Storage) (declaredType : String) (bound : Nat) :
    ∀ table, Stays (declareNames className kind declaredType bound table) := by
  induction bound with
  | zero => exact stays_declareName kind declaredType
  | succ bound ih =>
    intro table
    apply (stays_declareName kind declaredType table).bind
    intro table
    apply (stays_accept (by decide)).bind
    intro more
    split
    · exact ih table
    · exact stays_pure table

theorem stays_declareTyped (kind : Storage) (bound : Nat) (table : SymbolTable) :
    Stays (declareTyped className kind bound table) :=
  stays_type.bind fun declaredType =>
    (stays_declareNames kind declaredType bound table).bind fun _ =>
      (stays_word (by decide)).bind fun _ => stays_pure _

/-- Declarations are passed as long as their marker comes next. -/
theorem stays_more {p : Production} (hp : p ≠ .subroutineDec) {step stop : Compiler α}
    (hstep : Stays step) (hstop : Stays stop) :
    Stays (do if ← atProduction p then (do advance; step) else stop) := by
  intro es
  have hlook : StaysOn es
      (if decide (es.head? = some (.production p)) then (do advance; step) else stop) := by
    by_cases he : es.head? = some (.production p)
    · rw [decide_eq_true he]
      exact (staysOn_advance he fun h => hp (Entry.production.inj h)).bind fun _ => hstep
    · rw [decide_eq_false he]
      exact hstop es
  exact hlook

theorem stays_classVarDecs (bound : Nat) :
    ∀ table, Stays (classVarDecs className bound table) := by
  induction bound with
  | zero => exact fun table => stays_pure table
  | succ bound ih =>
    intro table
    exact stays_more (by decide) ((stays_keyword _ _).bind fun kind =>
      (stays_declareTyped kind bound table).bind fun table => ih table) (stays_pure table)

theorem stays_varDecs (bound : Nat) : ∀ table, Stays (varDecs className bound table) := by
  induction bound with
  | zero => exact fun table => stays_pure table
  | succ bound ih =>
    intro table
    exact stays_more (by decide) ((stays_word (by decide)).bind fun _ =>
      (stays_declareTyped .localVar bound table).bind fun table => ih table) (stays_pure table)

theorem stays_parameter (table : SymbolTable) :
    Stays (parameters.parameter className table) :=
  stays_type.bind fun declaredType => stays_declareName .argument declaredType table

theorem stays_parameters (bound : Nat) : ∀ table, Stays (parameters className bound table) := by
  induction bound with
  | zero => exact stays_parameter
  | succ bound ih =>
    intro table
    apply (stays_parameter table).bind
    intro table
    apply (stays_accept (by decide)).bind
    intro more
    split
    · exact ih table
    · exact stays_pure table

theorem stays_parameterList (kind : SubroutineKind) (bound : Nat) :
    Stays (parameterList className kind bound) := by
  have hend (table : SymbolTable) : Stays (do
      if ← atSymbol ")" then pure table else parameters className bound table) := by
    apply (stays_atSymbol _).bind
    intro isEmpty
    split
    · exact stays_pure table
    · exact stays_parameters bound table
  apply (stays_marker (by decide)).bind
  intro _
  apply stays_position.bind
  intro pos
  -- Only a method declares something before its parameters.
  by_cases h : kind = .method
  · rw [if_pos h]
    exact (stays_define _ _ _ _ _).bind hend
  · rw [if_neg h]
    exact (stays_pure _).bind hend

/-- Behind its marker a subroutine is not left. -/
theorem exists_subroutineDec_eq (className : String) (classTable : SymbolTable) (bound : Nat) :
    ∃ m, Stays m ∧
      subroutineDec className classTable bound = marker .subroutineDec >>= fun _ => m := by
  refine ⟨_, ?_, rfl⟩
  apply (stays_keyword _ _).bind
  intro kind
  apply stays_type.bind
  intro returnType
  apply stays_identifier.bind
  intro name
  apply (stays_word (by decide)).bind
  intro _
  apply (stays_parameterList kind bound).bind
  intro table
  apply (stays_word (by decide)).bind
  intro _
  apply (stays_marker (by decide)).bind
  intro _
  apply (stays_word (by decide)).bind
  intro _
  apply (stays_varDecs bound table).bind
  intro table
  apply (stays_note _).bind
  intro _
  apply (stays_emit _).bind
  intro _
  apply (stays_emitAll _).bind
  intro _
  have hstatements (scope : Scope) : Stays (statements scope bound) :=
    (stays_marker (by decide)).bind fun _ => stays_statementList scope bound
  exact (hstatements _).bind fun _ => stays_word (by decide)

/-- If the tree ends too early for a subroutine, then no other one begins behind its marker. -/
theorem notMem_of_run_subroutineDec {classTable : SymbolTable} {bound n : Nat}
    {l : Vm.LabelSupply} {c : Vm.Code} {ns : Array Notice} {fault : Fault} {s : CompilerState}
    (h : (subroutineDec className classTable bound).run ⟨⟨routineMarker :: es, n⟩, l, c, ns⟩ =
      .error fault s) (hpos : fault.pos? = none) : routineMarker ∉ es := by
  -- The marker itself is passed first, and the rest stays in front of the next one.
  obtain ⟨m, hm, heq⟩ := exists_subroutineDec_eq className classTable bound
  rw [heq, EStateM.run_bind, routineMarker, run_marker] at h
  have hrun := hm es (n + 1) l c ns
  dsimp only at h
  rw [h] at hrun
  exact hrun hpos

end

/-- In front of the subroutines none of them is passed. -/
theorem stays_classStart (bound : Nat) : Stays (classStart bound) :=
  (stays_marker (by decide)).bind fun _ => (stays_word (by decide)).bind fun _ =>
    stays_identifier.bind fun _ => (stays_note _).bind fun _ =>
      (stays_word (by decide)).bind fun _ => (stays_classVarDecs bound _).bind fun _ =>
        stays_pure _

/-! ## The class up to its last subroutine -/

/-- A class behind its subroutines. -/
def classEnd (name : String) : Compiler String := do
  word closeBrace
  match ← current? with
  | some _ => mismatch "end of tree"
  | none => return name

section

variable {className : String} {classTable : SymbolTable} {bound n : Nat}
  {labels : Vm.LabelSupply} {row last used rest : List Entry} {is : List Vm.Instruction}
  {c : Vm.Code} {ns : Array Notice}

/-- No entry may follow the brace of the class. -/
theorem eq_nil_of_accepts_classEnd {name : String} {e : Entry}
    (h : Accepts (classEnd name) (e :: es)) : es = [] := by
  have hword : e.text = closeBrace := h.word
  obtain ⟨n, l, c, ns, hfaultless⟩ := h
  cases es with
  | nil => rfl
  | cons e' es =>
    have hrun : (classEnd name).run ⟨⟨e :: e' :: es, n⟩, l, c, ns⟩ =
        .error (.mismatch "end of tree" e'.describe (.ofIndex (n + 1)))
          ⟨⟨e' :: es, n + 1⟩, l, c, ns⟩ := by
      rw [classEnd, EStateM.run_bind, word, run_read (if_pos hword)]
      rfl
    cases hfaultless _ _ hrun

theorem run_classRest_succ (h : es.head? = some routineMarker) :
    (classRest className classTable (bound + 1)).run ⟨⟨es, n⟩, labels, c, ns⟩ =
      (subroutineDec className classTable bound >>= fun _ =>
        classRest className classTable bound).run ⟨⟨es, n⟩, labels, c, ns⟩ := by
  show (subroutineDecs className classTable (bound + 1) >>= fun _ => classEnd className).run _ = _
  rw [EStateM.run_bind, run_subroutineDecs_succ, if_pos h, ← EStateM.run_bind, bind_assoc]
  rfl

/-- Where no subroutine begins, the class ends. -/
theorem run_classRest_of_ne (h : es.head? ≠ some routineMarker) :
    (classRest className classTable bound).run ⟨⟨es, n⟩, labels, c, ns⟩ =
      (classEnd className).run ⟨⟨es, n⟩, labels, c, ns⟩ := by
  have hdecs : (subroutineDecs className classTable bound).run ⟨⟨es, n⟩, labels, c, ns⟩ =
      .ok () ⟨⟨es, n⟩, labels, c, ns⟩ := by
    cases bound with
    | zero => rfl
    | succ bound => rw [run_subroutineDecs_succ, if_neg h]
  show (subroutineDecs className classTable bound >>= fun _ => classEnd className).run _ = _
  rw [EStateM.run_bind, hdecs]

/-- If a subroutine begins somewhere in the rest of a class, then one begins at once. -/
theorem head?_of_accepts_classRest (h : Accepts (classRest className classTable bound) es)
    (hmem : routineMarker ∈ es) : es.head? = some routineMarker := by
  by_contra hhead
  obtain ⟨n, l, c, ns, hfaultless⟩ := h
  rw [run_classRest_of_ne hhead] at hfaultless
  have hend : Accepts (classEnd className) es := ⟨n, l, c, ns, hfaultless⟩
  cases es with
  | nil => cases hmem
  | cons e es =>
    -- The only entry would be the brace and the marker.
    obtain rfl : es = [] := eq_nil_of_accepts_classEnd hend
    exact hhead (congrArg some (List.mem_singleton.1 hmem).symm)

/-- A subroutine ends before another one begins. -/
theorem exists_append_of_isRoutine (hlast : last.head? = some routineMarker)
    (hused : IsRoutine used) (h : routineMarker :: (row ++ last) = used ++ rest) :
    ∃ row', routineMarker :: row = used ++ row' ∧ rest = row' ++ last := by
  obtain ⟨tail, rfl, htail⟩ := hused
  rcases List.append_eq_append_iff.1 (List.cons.inj h).2 with
    ⟨middle, rfl, rfl⟩ | ⟨middle, rfl, rfl⟩
  · cases middle with
    | nil => exact ⟨[], by simp, rfl⟩
    | cons e middle =>
      obtain rfl : e = routineMarker := Option.some.inj hlast
      exact absurd (List.mem_append_right _ (List.mem_cons_self ..)) htail
  · exact ⟨middle, rfl, rfl⟩

/-- If nothing is wrong with a class, then its subroutines compile up to the last one that is
considered, and nothing is wrong with that one either. -/
theorem exists_routines_of_run (hlast : last.head? = some routineMarker) (bound : Nat) :
    ∀ {row labels n c ns}, (row ++ last).length ≤ bound →
      (row ++ last).head? = some routineMarker →
      Faultless ((classRest className classTable bound).run ⟨⟨row ++ last, n⟩, labels, c, ns⟩) →
      ∃ is bound₀, Routines className classTable labels row is ∧ last.length ≤ bound₀ + 1 ∧
        Accepts (subroutineDec className classTable bound₀) last := by
  have hmem : routineMarker ∈ last := List.mem_of_head? hlast
  induction bound with
  | zero =>
    intro row labels n c ns hlength hhead _
    rw [List.eq_nil_of_length_eq_zero (Nat.le_zero.1 hlength)] at hhead
    cases hhead
  | succ bound ih =>
    intro row labels n c ns hlength hhead hfaultless
    rw [run_classRest_succ hhead] at hfaultless
    cases row with
    | nil => exact ⟨[], bound, .nil, hlength, n, labels, c, ns, hfaultless.of_bind⟩
    | cons e row =>
      obtain rfl : e = routineMarker := Option.some.inj hhead
      rw [List.cons_append] at hfaultless hlength
      cases hfirst : (subroutineDec className classTable bound).run
          ⟨⟨routineMarker :: (row ++ last), n⟩, labels, c, ns⟩ with
      | error fault s =>
        -- The tree would end in the first subroutine, but the last one begins behind it.
        have hpos : fault.pos? = none := hfaultless.of_bind fault s hfirst
        exact absurd (List.mem_append_right row hmem) (notMem_of_run_subroutineDec hfirst hpos)
      | ok a s =>
        obtain ⟨used, rest, is, ns', hused, hroutine, rfl⟩ := routineAt_of_run hlength hfirst
        obtain ⟨row', hrow, rfl⟩ := exists_append_of_isRoutine hlast hroutine.isRoutine hused
        have hrest := hfaultless.of_run hfirst
        have hhead' : (row' ++ last).head? = some routineMarker :=
          head?_of_accepts_classRest ⟨_, _, _, _, hrest⟩ (List.mem_append_right row' hmem)
        have hlength' : (row' ++ last).length ≤ bound := by
          obtain ⟨tail, rfl, -⟩ := hroutine.isRoutine
          rw [hused, List.cons_append, List.length_cons, List.length_append] at hlength
          omega
        obtain ⟨is', bound₀, hroutines, hle, haccepts⟩ := ih hlength' hhead' hrest
        rw [hrow]
        exact ⟨is ++ is', bound₀, .cons hroutine hroutines, hle, haccepts⟩

/-- The first subroutine begins somewhere before the last or with it. -/
theorem exists_first_marker (hlast : last.head? = some routineMarker) (before : List Entry) :
    ∃ head row, before = head ++ row ∧ routineMarker ∉ head ∧
      (row ++ last).head? = some routineMarker := by
  induction before with
  | nil => exact ⟨[], [], rfl, List.not_mem_nil, hlast⟩
  | cons e before ih =>
    by_cases he : e = routineMarker
    · exact ⟨[], e :: before, rfl, List.not_mem_nil, congrArg some he⟩
    · obtain ⟨head, row, rfl, hhead, hrow⟩ := ih
      refine ⟨e :: head, row, rfl, ?_, hrow⟩
      rw [List.mem_cons]
      exact fun h => h.elim (fun h => he h.symm) hhead

/-- If nothing is wrong with a tree in which a subroutine begins, then what stands in front of the
first one opens a class. -/
theorem exists_opens_of_run {head : List Entry} (hhead : routineMarker ∉ head)
    (hes : es.head? = some routineMarker) (hbound : head.length < bound)
    (hfaultless : Faultless ((classDec bound).run ⟨⟨head ++ es, 0⟩, labels, {}, #[]⟩)) :
    ∃ name table ns, Opens head name table ∧
      Faultless ((classRest name table bound).run ⟨⟨es, head.length⟩, labels, {}, ns⟩) := by
  have hmem : routineMarker ∈ es := List.mem_of_head? hes
  rw [classDec_eq] at hfaultless
  cases hstart : (classStart bound).run ⟨⟨head ++ es, 0⟩, labels, {}, #[]⟩ with
  | error fault s =>
    -- The tree would end in front of all subroutines.
    have hpos : fault.pos? = none := hfaultless.of_bind fault s hstart
    have hinside := stays_classStart bound (head ++ es) 0 labels {} #[]
    rw [hstart] at hinside
    exact absurd (List.mem_append_right head hmem) (hinside hpos)
  | ok start s =>
    obtain ⟨name, table⟩ := start
    obtain ⟨used, rest, _, _, ns, hentries, rfl, rfl, rfl, hused⟩ :=
      classStart_yields.ok hstart
    rw [Vm.Code.extend_nil, Vm.LabelSupply.skip_zero, Nat.zero_add] at hstart
    have hrest := hfaultless.of_run hstart
    have hmem' : routineMarker ∈ rest := by
      have hall : routineMarker ∈ used ++ rest := hentries ▸ List.mem_append_right head hmem
      exact (List.mem_append.1 hall).resolve_left hused
    have hhead' := head?_of_accepts_classRest ⟨_, _, _, _, hrest⟩ hmem'
    obtain ⟨rfl, rfl⟩ := eq_of_append_eq hentries hhead hused hes hhead'
    obtain ⟨tail, rfl⟩ := List.head?_eq_some_iff.1 hes
    exact ⟨name, table, ns, opens_of_run hbound hstart, hrest⟩

/-- Behind a row of subroutines, more of them are compiled. -/
theorem Routines.run_more (h : Routines className classTable labels es is) :
    ∃ count ≤ es.length, ∀ labels' bound rest n c ns, labels'.upcoming = labels.upcoming →
      es.length ≤ bound + count → ∃ l' c' ns',
        (subroutineDecs className classTable (bound + count)).run
            ⟨⟨es ++ rest, n⟩, labels', c, ns⟩ =
          (subroutineDecs className classTable bound).run
            ⟨⟨rest, n + es.length⟩, l', c', ns'⟩ := by
  induction h with
  | nil => exact ⟨0, Nat.le_refl 0, fun labels' bound rest n c ns _ _ => ⟨labels', c, ns, rfl⟩⟩
  | @cons labels used es is is' hroutine _ ih =>
    obtain ⟨count, hcount, hmore⟩ := ih
    obtain ⟨tail, hused, -⟩ := hroutine.isRoutine
    have hpos : 0 < used.length := by rw [hused]; exact Nat.succ_pos _
    refine ⟨count + 1, by rw [List.length_append]; omega, ?_⟩
    intro labels' bound rest n c ns hlabels hbound
    rw [List.length_append] at hbound
    obtain ⟨ns₁, hfirst⟩ := hroutine.run labels' (bound + count) (es ++ rest) n c ns hlabels
      (by omega)
    obtain ⟨l', c', ns', hrest⟩ := hmore (labels'.skip (branchCount used)) bound rest
      (n + used.length) (c.extend is) ns₁ (Vm.LabelSupply.upcoming_skip hlabels _) (by omega)
    refine ⟨l', c', ns', ?_⟩
    have hhead : (used ++ (es ++ rest)).head? = some routineMarker := by rw [hused]; rfl
    rw [← Nat.add_assoc, run_subroutineDecs_succ, List.append_assoc, if_pos hhead,
      EStateM.run_bind, hfirst]
    dsimp only
    rw [hrest, List.length_append, Nat.add_assoc]

/-- The class is opened, the subroutines in a row are compiled, and then one more begins. -/
theorem Opens.run_classDec {head : List Entry} (h : Opens head className classTable)
    (hroutines : Routines className classTable labels row is)
    (hlast : last.head? = some routineMarker)
    (hrow : (row ++ last).head? = some routineMarker) :
    ∃ count ≤ row.length, ∀ left rest, head.length + row.length ≤ left + count → ∃ l c ns,
      (classDec (left + 1 + count)).run ⟨⟨head ++ row ++ last ++ rest, 0⟩, labels, {}, #[]⟩ =
        (subroutineDec className classTable left >>= fun _ =>
          subroutineDecs className classTable left >>= fun _ => classEnd className).run
            ⟨⟨last ++ rest, head.length + row.length⟩, l, c, ns⟩ := by
  obtain ⟨count, hcount, hmore⟩ := hroutines.run_more
  refine ⟨count, hcount, fun left rest hbound => ?_⟩
  obtain ⟨tail, htail⟩ := List.head?_eq_some_iff.1 hrow
  have hrest : row ++ (last ++ rest) = routineMarker :: (tail ++ rest) := by
    rw [← List.append_assoc, htail, List.cons_append]
  have hentries : head ++ row ++ last ++ rest = head ++ routineMarker :: (tail ++ rest) := by
    rw [← hrest, List.append_assoc, List.append_assoc]
  obtain ⟨ns₁, hstart⟩ := h (left + 1 + count) (tail ++ rest) 0 labels {} #[] (by omega)
  obtain ⟨l, c, ns, hdecs⟩ := hmore labels (left + 1) (last ++ rest) (0 + head.length) {} ns₁ rfl
    (by omega)
  have hlast' : (last ++ rest).head? = some routineMarker := by
    rw [List.head?_append, hlast]
    rfl
  refine ⟨l, c, ns, ?_⟩
  rw [hentries, classDec_eq, EStateM.run_bind, hstart]
  show (subroutineDecs className classTable (left + 1 + count) >>= fun _ =>
    classEnd className).run _ = _
  rw [EStateM.run_bind, ← hrest, hdecs, run_subroutineDecs_succ, if_pos hlast',
    ← EStateM.run_bind, bind_assoc, Nat.zero_add]

end

end Jack.Compiler
