import Jack.Compiler.Declaration
import Jack.Proofs.Compiler.Lockstep

/-!
# The compiler in lockstep with itself

No procedure chooses by the position of an entry, and the bound of a recursion does not matter as
long as it covers the entries that are left.
-/

namespace Jack.Compiler

open Vm (Instruction)

variable {limit d e : Nat} {aligned : Prop} {α β : Type} {scope : Scope}

/-! ## Steps -/

theorem Lockstep.steady {m m' : Compiler α} (h : Lockstep limit aligned d (d + 1) m m') :
    Lockstep limit aligned d d m m' :=
  h.weaken (Nat.le_refl d) (Nat.le_succ d)

theorem lockstep_peek? (select : Entry → Option α) :
    Lockstep limit aligned d d (peek? select) (peek? select) :=
  .bind .current fun _ => .pure _

theorem lockstep_atProduction (p : Production) :
    Lockstep limit aligned d d (atProduction p) (atProduction p) :=
  .bind .current fun _ => .pure _

theorem lockstep_atSymbol (text : String) :
    Lockstep limit aligned d d (atSymbol text) (atSymbol text) :=
  .bind .current fun _ => .pure _

theorem lockstep_atCall : Lockstep limit aligned d d atCall atCall := by
  apply (lockstep_atSymbol "(").bind
  intro isOwn
  split
  · exact .pure true
  · exact lockstep_atSymbol "."

theorem lockstep_mismatch (expected : String) :
    Lockstep limit aligned d e (mismatch expected : Compiler α) (mismatch expected) := by
  apply Lockstep.current.bind
  intro entry?
  cases entry? with
  | some entry =>
    apply Lockstep.position
    intro pos pos' hpos
    exact .throw fun h => by rw [hpos h]
  | none => exact .throw fun _ => rfl

theorem lockstep_read (expected : String) (select : Entry → Option α) :
    Lockstep limit aligned d (d + 1) (read expected select) (read expected select) := by
  apply (lockstep_peek? select).bind
  intro a?
  cases a? with
  | some a => exact Lockstep.advance.bind fun _ => .pure a
  | none => exact lockstep_mismatch expected

theorem lockstep_marker (p : Production) :
    Lockstep limit aligned d (d + 1) (marker p) (marker p) := lockstep_read ..

theorem lockstep_word (text : String) : Lockstep limit aligned d d (word text) (word text) :=
  (lockstep_read ..).steady

theorem lockstep_identifier : Lockstep limit aligned d d identifier identifier :=
  (lockstep_read ..).steady

theorem lockstep_type : Lockstep limit aligned d d type type := (lockstep_read ..).steady

theorem lockstep_keyword (expected : String) (meaning? : String → Option α) :
    Lockstep limit aligned d d (keyword expected meaning?) (keyword expected meaning?) :=
  (lockstep_read ..).steady

theorem lockstep_accept (entry : Entry) :
    Lockstep limit aligned d d (accept entry) (accept entry) := by
  apply Lockstep.current.bind
  intro entry?
  split
  · exact Lockstep.advance.steady.bind fun _ => .pure true
  · exact .pure false

theorem lockstep_emitAll (is : List Instruction) :
    Lockstep limit aligned d d (emitAll is) (emitAll is) := by
  induction is with
  | nil => exact .pure ()
  | cons i is ih => exact (Lockstep.emit i).bind fun _ => ih

/-! ## Bounds -/

/-- A recursion on a bound, of which every call passes an entry before it calls itself. Both bounds
cover the common entries, and if one of them is used up, then so are these. -/
theorem lockstep_bounds {P : Nat → Nat → Nat → Prop} (zero : ∀ d, P d 0 0)
    (succ : ∀ d b b', P (d + 1) b b' → P d (b + 1) (b' + 1))
    (stop : ∀ d b b', limit ≤ d → P d b b → P d b b') :
    ∀ b b' d, limit ≤ d + b → limit ≤ d + b' → P d b b' := by
  have same : ∀ b d, P d b b := by
    intro b
    induction b with
    | zero => exact zero
    | succ b ih => exact fun d => succ d b b (ih (d + 1))
  intro b
  induction b with
  | zero => exact fun b' d h _ => stop d 0 b' h (same 0 d)
  | succ b ih =>
    intro b' d h h'
    cases b' with
    | zero => exact stop d (b + 1) 0 h' (same (b + 1) d)
    | succ b' => exact succ d b b' (ih b' (d + 1) (by omega) (by omega))

/-! ## Expressions -/

theorem lockstep_resolve (name : String) {pos pos' : Position} (hpos : aligned → pos = pos') :
    Lockstep limit aligned d d (resolve scope name pos) (resolve scope name pos') := by
  unfold resolve
  split
  · exact .pure _
  · exact .throw fun h => by rw [hpos h]

theorem lockstep_oneMore (args : Nat) : Lockstep limit aligned d d (oneMore args) (oneMore args) := by
  unfold oneMore
  split
  · apply Lockstep.position
    intro pos pos' hpos
    exact .throw fun h => by rw [hpos h]
  · exact .pure _

theorem lockstep_integerTerm (text : String) {pos pos' : Position} (hpos : aligned → pos = pos') :
    Lockstep limit aligned d d (integerTerm text pos) (integerTerm text pos') := by
  unfold integerTerm
  split
  · exact .emit _
  · exact .throw fun h => by rw [hpos h]

theorem lockstep_stringTerm (text : String) {pos pos' : Position} (hpos : aligned → pos = pos') :
    Lockstep limit aligned d d (stringTerm text pos) (stringTerm text pos') := by
  unfold stringTerm
  split
  · exact lockstep_emitAll _
  · exact .throw fun h => by rw [hpos h]

section

variable {term term' expression expression' operators operators' : Compiler Unit}
  {arguments arguments' : Compiler Nat}

theorem lockstep_elementAddress (base : Slot)
    (he : Lockstep limit aligned d d expression expression') :
    Lockstep limit aligned d d (elementAddress base expression)
      (elementAddress base expression') :=
  he.bind fun _ => (lockstep_word "]").bind fun _ => (Lockstep.emit _).bind fun _ => .emit _

theorem lockstep_parenthesized (ha : Lockstep limit aligned d d arguments arguments') :
    Lockstep limit aligned d d (parenthesized arguments) (parenthesized arguments') :=
  (lockstep_word "(").bind fun _ => (lockstep_marker _).steady.bind fun _ => ha.bind fun _ =>
    (lockstep_word ")").bind fun _ => .pure _

theorem lockstep_boundCall (receiver : Instruction) (callee : String)
    (ha : Lockstep limit aligned d d arguments arguments') :
    Lockstep limit aligned d d
      (do
        emit receiver
        let args ← oneMore (← parenthesized arguments)
        emit (.call callee args))
      (do
        emit receiver
        let args ← oneMore (← parenthesized arguments')
        emit (.call callee args)) :=
  (Lockstep.emit _).bind fun _ => (lockstep_parenthesized ha).bind fun args =>
    (lockstep_oneMore args).bind fun _ => .emit _

theorem lockstep_call (name : String) (ha : Lockstep limit aligned d d arguments arguments') :
    Lockstep limit aligned d d (call scope name arguments) (call scope name arguments') := by
  apply (lockstep_atSymbol "(").bind
  intro isOwn
  split
  · exact lockstep_boundCall _ _ ha
  · apply (lockstep_word ".").bind
    intro _
    apply lockstep_identifier.bind
    intro method
    split
    · exact lockstep_boundCall _ _ ha
    · exact (lockstep_parenthesized ha).bind fun _ => .emit _

theorem lockstep_nameTerm (name : String) {pos pos' : Position} (hpos : aligned → pos = pos')
    (he : Lockstep limit aligned d d expression expression')
    (ha : Lockstep limit aligned d d arguments arguments') :
    Lockstep limit aligned d d (nameTerm scope name pos expression arguments)
      (nameTerm scope name pos' expression' arguments') := by
  apply lockstep_atCall.bind
  intro isCall
  split
  · exact lockstep_call name ha
  · apply (lockstep_accept _).bind
    intro isElement
    split
    · exact (lockstep_resolve name hpos).bind fun base => (lockstep_elementAddress base he).bind
        fun _ => lockstep_emitAll _
    · exact (lockstep_resolve name hpos).bind fun _ => .emit _

theorem lockstep_termBody (ht : Lockstep limit aligned d d term term')
    (he : Lockstep limit aligned d d expression expression')
    (ha : Lockstep limit aligned d d arguments arguments') :
    Lockstep limit aligned d d (termBody scope term expression arguments)
      (termBody scope term' expression' arguments') := by
  apply Lockstep.position
  intro pos pos' hpos
  apply Lockstep.current.bind
  intro entry?
  have hadvance : Lockstep limit aligned d d advance advance := Lockstep.advance.steady
  split
  · split
    · exact hadvance.bind fun _ => he.bind fun _ => lockstep_word ")"
    · split
      · exact hadvance.bind fun _ => ht.bind fun _ => .emit _
      · exact lockstep_mismatch "term"
  · exact (lockstep_keyword _ _).bind fun _ => lockstep_emitAll _
  · exact hadvance.bind fun _ => lockstep_integerTerm _ hpos
  · exact hadvance.bind fun _ => lockstep_stringTerm _ hpos
  · exact hadvance.bind fun _ => lockstep_nameTerm _ hpos he ha
  · exact lockstep_mismatch "term"

/-- The marker may count as passed. -/
theorem lockstep_expressionOf (hle : e ≤ d + 1) (ht : Lockstep limit aligned e e term term')
    (ho : Lockstep limit aligned e e operators operators') :
    Lockstep limit aligned d e (expressionOf term operators) (expressionOf term' operators') :=
  ((lockstep_marker .expression).weaken (Nat.le_refl d) hle).bind fun _ => ht.bind fun _ => ho

end

/-- The terms, operators and arguments for two bounds are in lockstep. -/
structure LockstepTerms (limit : Nat) (aligned : Prop) (scope : Scope) (d b b' : Nat) : Prop where
  term : Lockstep limit aligned d d (term scope b) (term scope b')
  operators : Lockstep limit aligned d d (operators scope b) (operators scope b')
  arguments : ∀ args, Lockstep limit aligned d d (arguments scope b args) (arguments scope b' args)

theorem LockstepTerms.expression {b b' : Nat} (h : LockstepTerms limit aligned scope d b b') :
    Lockstep limit aligned d d (expression scope b) (expression scope b') :=
  lockstep_expressionOf (Nat.le_succ d) h.term h.operators

theorem LockstepTerms.zero (d : Nat) : LockstepTerms limit aligned scope d 0 0 :=
  ⟨(lockstep_marker _).steady, .pure (), .pure⟩

theorem LockstepTerms.succ {b b' : Nat} (h : LockstepTerms limit aligned scope (d + 1) b b') :
    LockstepTerms limit aligned scope d (b + 1) (b' + 1) := by
  constructor
  case term =>
    apply Lockstep.steady
    apply (lockstep_marker .term).bind
    intro _
    exact lockstep_termBody h.term h.expression (h.arguments 0)
  case operators =>
    apply (lockstep_peek? binaryOp?).bind
    intro op?
    cases op? with
    | some op =>
      apply Lockstep.steady
      exact Lockstep.advance.bind fun _ => h.term.bind fun _ => (Lockstep.emit _).bind fun _ =>
        h.operators
    | none => exact .pure ()
  case arguments =>
    intro args
    apply (lockstep_atProduction .expression).bind
    intro isArgument
    split
    · apply Lockstep.steady
      apply (lockstep_expressionOf (Nat.le_refl _) h.term h.operators).bind
      intro _
      apply (lockstep_oneMore args).bind
      intro args
      apply (lockstep_accept comma).bind
      intro more
      split
      · exact h.arguments args
      · exact .pure args
    · exact .pure args

theorem LockstepTerms.stop {b b' : Nat} (hd : limit ≤ d)
    (h : LockstepTerms limit aligned scope d b b) : LockstepTerms limit aligned scope d b b' :=
  ⟨.stop hd h.term.forward, .stop hd h.operators.forward,
    fun args => .stop hd (h.arguments args).forward⟩

/-! ## Statements -/

section

variable {expression expression' statementList statementList' : Compiler Unit}
  {arguments arguments' : Compiler Nat}

theorem lockstep_condition (he : Lockstep limit aligned d d expression expression') :
    Lockstep limit aligned d d (condition expression) (condition expression') :=
  (lockstep_word "(").bind fun _ => he.bind fun _ => lockstep_word ")"

theorem lockstep_block (hs : Lockstep limit aligned d d statementList statementList') :
    Lockstep limit aligned d d (block statementList) (block statementList') :=
  (lockstep_word openBrace).bind fun _ => (lockstep_marker _).steady.bind fun _ => hs.bind fun _ =>
    lockstep_word closeBrace

theorem lockstep_letStatement
    (he : Lockstep limit aligned (d + 1) (d + 1) expression expression') :
    Lockstep limit aligned d (d + 1) (letStatement scope expression)
      (letStatement scope expression') := by
  apply (lockstep_marker .letStatement).bind
  intro _
  apply (lockstep_word "let").bind
  intro _
  apply Lockstep.position
  intro pos pos' hpos
  apply lockstep_identifier.bind
  intro name
  apply (lockstep_resolve name hpos).bind
  intro target
  apply (lockstep_accept _).bind
  intro isElement
  split
  · exact (lockstep_elementAddress target he).bind fun _ => (lockstep_word "=").bind fun _ =>
      he.bind fun _ => (lockstep_word ";").bind fun _ => lockstep_emitAll _
  · exact (lockstep_word "=").bind fun _ => he.bind fun _ => (lockstep_word ";").bind fun _ =>
      .emit _

theorem lockstep_ifStatement (he : Lockstep limit aligned (d + 1) (d + 1) expression expression')
    (hs : Lockstep limit aligned (d + 1) (d + 1) statementList statementList') :
    Lockstep limit aligned d (d + 1) (ifStatement expression statementList)
      (ifStatement expression' statementList') := by
  apply (lockstep_marker .ifStatement).bind
  intro _
  apply Lockstep.takeLabel.bind
  intro id
  apply (lockstep_word "if").bind
  intro _
  apply (lockstep_condition he).bind
  intro _
  apply (lockstep_emitAll _).bind
  intro _
  apply (lockstep_block hs).bind
  intro _
  apply (lockstep_accept _).bind
  intro hasElse
  split
  · exact (lockstep_emitAll _).bind fun _ => (lockstep_block hs).bind fun _ => .emit _
  · exact .emit _

theorem lockstep_whileStatement
    (he : Lockstep limit aligned (d + 1) (d + 1) expression expression')
    (hs : Lockstep limit aligned (d + 1) (d + 1) statementList statementList') :
    Lockstep limit aligned d (d + 1) (whileStatement expression statementList)
      (whileStatement expression' statementList') := by
  apply (lockstep_marker .whileStatement).bind
  intro _
  apply Lockstep.takeLabel.bind
  intro id
  exact (lockstep_word "while").bind fun _ => (Lockstep.emit _).bind fun _ =>
    (lockstep_condition he).bind fun _ => (lockstep_emitAll _).bind fun _ =>
      (lockstep_block hs).bind fun _ => lockstep_emitAll _

theorem lockstep_doStatement (he : Lockstep limit aligned (d + 1) (d + 1) expression expression')
    (ha : Lockstep limit aligned (d + 1) (d + 1) arguments arguments') :
    Lockstep limit aligned d (d + 1) (doStatement scope expression arguments)
      (doStatement scope expression' arguments') := by
  have hend : Lockstep limit aligned (d + 1) (d + 1) (do word ";"; emit discard)
      (do word ";"; emit discard) := (lockstep_word ";").bind fun _ => .emit _
  apply (lockstep_marker .doStatement).bind
  intro _
  apply (lockstep_word "do").bind
  intro _
  apply (lockstep_atProduction .expression).bind
  intro isExpression
  split
  · exact he.bind fun _ => hend
  · apply lockstep_identifier.bind
    intro name
    apply lockstep_atCall.bind
    intro isCall
    split
    · exact (lockstep_call name ha).bind fun _ => hend
    · exact (lockstep_mismatch _).bind fun _ => hend

theorem lockstep_returnStatement
    (he : Lockstep limit aligned (d + 1) (d + 1) expression expression') :
    Lockstep limit aligned d (d + 1) (returnStatement scope expression)
      (returnStatement scope expression') := by
  have hend : Lockstep limit aligned (d + 1) (d + 1) (do word ";"; emit .ret)
      (do word ";"; emit .ret) := (lockstep_word ";").bind fun _ => .emit _
  apply (lockstep_marker .returnStatement).bind
  intro _
  apply (lockstep_word "return").bind
  intro _
  apply (lockstep_atProduction .expression).bind
  rintro (_ | _)
  · cases scope.signature.isVoid with
    | true => exact (Lockstep.emit _).bind fun _ => hend
    | false => exact (Lockstep.note _).bind fun _ => hend
  · apply he.bind
    intro _
    cases scope.signature.isVoid with
    | true =>
      exact (Lockstep.note _).bind fun _ => (Lockstep.emit _).bind fun _ =>
        (Lockstep.emit _).bind fun _ => hend
    | false => exact hend

end

/-- The same for statements. -/
structure LockstepStatements (limit : Nat) (aligned : Prop) (scope : Scope) (d b b' : Nat) : Prop
    extends LockstepTerms limit aligned scope d b b' where
  statementList : Lockstep limit aligned d d (statementList scope b) (statementList scope b')

theorem LockstepStatements.succ {b b' : Nat}
    (h : LockstepStatements limit aligned scope (d + 1) b b') :
    LockstepStatements limit aligned scope d (b + 1) (b' + 1) := by
  have he := h.expression
  have hs := h.statementList
  refine ⟨h.toLockstepTerms.succ, ?_⟩
  apply (lockstep_peek? production?).bind
  intro production?
  split
  · exact ((lockstep_letStatement he).bind fun _ => hs).steady
  · exact ((lockstep_ifStatement he hs).bind fun _ => hs).steady
  · exact ((lockstep_whileStatement he hs).bind fun _ => hs).steady
  · exact ((lockstep_doStatement he (h.arguments 0)).bind fun _ => hs).steady
  · exact ((lockstep_returnStatement he).bind fun _ => hs).steady
  · exact .pure ()

theorem lockstep_statementList (scope : Scope) {b b' : Nat} (h : limit ≤ d + b)
    (h' : limit ≤ d + b') :
    Lockstep limit aligned d d (statementList scope b) (statementList scope b') := by
  apply LockstepStatements.statementList
  apply lockstep_bounds (P := LockstepStatements limit aligned scope) _ _ _ b b' d
    h h'
  · exact fun d => ⟨.zero d, .pure ()⟩
  · exact fun d b b' h => h.succ
  · exact fun d b b' hd h => ⟨h.toLockstepTerms.stop hd, .stop hd h.statementList.forward⟩

theorem lockstep_statements (scope : Scope) {b b' : Nat} (h : limit ≤ d + b)
    (h' : limit ≤ d + b') :
    Lockstep limit aligned d d (statements scope b) (statements scope b') :=
  (lockstep_marker _).steady.bind fun _ => lockstep_statementList scope h h'

/-! ## Declarations -/

section

variable {className : String}

theorem lockstep_define (table : SymbolTable) (name declaredType : String) (kind : Storage)
    {pos pos' : Position} (hpos : aligned → pos = pos') :
    Lockstep limit aligned d d (define className table name declaredType kind pos)
      (define className table name declaredType kind pos') := by
  unfold define
  split
  · exact .pure _
  · exact .throw fun h => by rw [hpos h]
  · exact (Lockstep.note _).bind fun _ => .pure _

theorem lockstep_declareName (kind : Storage) (declaredType : String) (table : SymbolTable) :
    Lockstep limit aligned d (d + 1) (declareName className kind declaredType table)
      (declareName className kind declaredType table) := by
  apply Lockstep.position
  intro pos pos' hpos
  exact (lockstep_read ..).bind fun name => lockstep_define table name declaredType kind hpos

/-- The lists of names for two bounds are in lockstep. -/
def LockstepNames (limit : Nat) (aligned : Prop) (className : String) (d b b' : Nat) : Prop :=
  ∀ kind declaredType table, Lockstep limit aligned d d
    (declareNames className kind declaredType b table)
    (declareNames className kind declaredType b' table)

theorem LockstepNames.zero (d : Nat) : LockstepNames limit aligned className d 0 0 :=
  fun kind declaredType table => (lockstep_declareName kind declaredType table).steady

theorem LockstepNames.succ {b b' : Nat} (h : LockstepNames limit aligned className (d + 1) b b') :
    LockstepNames limit aligned className d (b + 1) (b' + 1) := by
  intro kind declaredType table
  apply Lockstep.steady
  apply (lockstep_declareName kind declaredType table).bind
  intro table
  apply (lockstep_accept comma).bind
  intro more
  split
  · exact h kind declaredType table
  · exact .pure table

theorem LockstepNames.stop {b b' : Nat} (hd : limit ≤ d)
    (h : LockstepNames limit aligned className d b b) :
    LockstepNames limit aligned className d b b' :=
  fun kind declaredType table => .stop hd (h kind declaredType table).forward

theorem LockstepNames.declareTyped {b b' : Nat} (h : LockstepNames limit aligned className d b b')
    (kind : Storage) (table : SymbolTable) :
    Lockstep limit aligned d d (declareTyped className kind b table)
      (declareTyped className kind b' table) :=
  lockstep_type.bind fun declaredType => (h kind declaredType table).bind fun _ =>
    (lockstep_word ";").bind fun _ => .pure _

/-- Declarations go on as long as their marker comes next. -/
theorem lockstep_more {p : Production} {step step' stop : Compiler α}
    (hstep : Lockstep limit aligned (d + 1) (d + 1) step step')
    (hstop : Lockstep limit aligned d d stop stop) :
    Lockstep limit aligned d d (do if ← atProduction p then (do advance; step) else stop)
      (do if ← atProduction p then (do advance; step') else stop) := by
  apply (lockstep_atProduction p).bind
  intro more
  split
  · exact (Lockstep.advance.bind fun _ => hstep).steady
  · exact hstop

theorem lockstep_classVarDecs {b b' : Nat} (h : limit ≤ d + b) (h' : limit ≤ d + b') :
    ∀ table, Lockstep limit aligned d d (classVarDecs className b table)
      (classVarDecs className b' table) := by
  have hboth := lockstep_bounds (P := fun d b b' =>
    LockstepNames limit aligned className d b b' ∧ ∀ table, Lockstep limit aligned d d
      (classVarDecs className b table) (classVarDecs className b' table)) ?_ ?_ ?_ b b' d h h'
  · exact hboth.2
  · exact fun d => ⟨.zero d, .pure⟩
  · rintro d b b' ⟨hnames, hdecs⟩
    exact ⟨hnames.succ, fun table => lockstep_more ((lockstep_keyword _ _).bind fun kind =>
      (hnames.declareTyped kind table).bind hdecs) (.pure table)⟩
  · rintro d b b' hd ⟨hnames, hdecs⟩
    exact ⟨hnames.stop hd, fun table => .stop hd (hdecs table).forward⟩

theorem lockstep_varDecs {b b' : Nat} (h : limit ≤ d + b) (h' : limit ≤ d + b') :
    ∀ table, Lockstep limit aligned d d (varDecs className b table)
      (varDecs className b' table) := by
  have hboth := lockstep_bounds (P := fun d b b' =>
    LockstepNames limit aligned className d b b' ∧ ∀ table, Lockstep limit aligned d d
      (varDecs className b table) (varDecs className b' table)) ?_ ?_ ?_ b b' d h h'
  · exact hboth.2
  · exact fun d => ⟨.zero d, .pure⟩
  · rintro d b b' ⟨hnames, hdecs⟩
    exact ⟨hnames.succ, fun table => lockstep_more ((lockstep_word "var").bind fun _ =>
      (hnames.declareTyped .localVar table).bind hdecs) (.pure table)⟩
  · rintro d b b' hd ⟨hnames, hdecs⟩
    exact ⟨hnames.stop hd, fun table => .stop hd (hdecs table).forward⟩

theorem lockstep_parameter (table : SymbolTable) :
    Lockstep limit aligned d (d + 1) (parameters.parameter className table)
      (parameters.parameter className table) :=
  lockstep_type.bind fun declaredType => lockstep_declareName .argument declaredType table

theorem lockstep_parameters {b b' : Nat} (h : limit ≤ d + b) (h' : limit ≤ d + b') :
    ∀ table, Lockstep limit aligned d d (parameters className b table)
      (parameters className b' table) := by
  apply lockstep_bounds (P := fun d b b' => ∀ table, Lockstep limit aligned d d
    (parameters className b table) (parameters className b' table)) ?_ ?_ ?_ b b' d h h'
  · exact fun d table => (lockstep_parameter table).steady
  · intro d b b' ih table
    apply Lockstep.steady
    apply (lockstep_parameter table).bind
    intro table
    apply (lockstep_accept comma).bind
    intro more
    split
    · exact ih table
    · exact .pure table
  · exact fun d b b' hd h table => .stop hd (h table).forward

theorem lockstep_parameterList (kind : SubroutineKind) {b b' : Nat} (h : limit ≤ d + b)
    (h' : limit ≤ d + b') :
    Lockstep limit aligned d d (parameterList className kind b)
      (parameterList className kind b') := by
  have hend (table : SymbolTable) : Lockstep limit aligned d d
      (do if ← atSymbol ")" then pure table else parameters className b table)
      (do if ← atSymbol ")" then pure table else parameters className b' table) := by
    apply (lockstep_atSymbol ")").bind
    intro isEmpty
    split
    · exact .pure table
    · exact lockstep_parameters h h' table
  apply (lockstep_marker _).steady.bind
  intro _
  apply Lockstep.position
  intro pos pos' hpos
  -- Only a method declares something before its parameters.
  by_cases hkind : kind = .method
  · rw [if_pos hkind, if_pos hkind]
    exact (lockstep_define _ _ _ _ hpos).bind hend
  · rw [if_neg hkind, if_neg hkind]
    exact (Lockstep.pure _).bind hend

/-- A subroutine up to its last brace. -/
def subroutineStart (className : String) (classTable : SymbolTable) (bound : Nat) :
    Compiler Unit := do
  marker .subroutineDec
  let kind ← keyword "'constructor', 'function' or 'method'" SubroutineKind.ofKeyword?
  let returnType ← type
  let name ← identifier
  word "("
  let table ← parameterList className kind bound
  word ")"
  marker .subroutineBody
  word openBrace
  let table ← varDecs className bound table
  let scope : Scope :=
    { className, classTable, signature := { kind, returnType, name }, subroutineTable := table }
  let locals := table.count .localVar
  note (.subroutineStarted kind className name locals)
  emit (.function (scope.qualify name) locals)
  emitAll (kind.prologue (classTable.count .field))
  statements scope bound

theorem subroutineDec_eq (className : String) (classTable : SymbolTable) (bound : Nat) :
    subroutineDec className classTable bound =
      subroutineStart className classTable bound >>= fun _ => word closeBrace := by
  simp only [subroutineDec, subroutineStart, bind_assoc]

/-- Since the marker is passed first, the bounds need not cover it. -/
theorem lockstep_subroutineStart (classTable : SymbolTable) {b b' : Nat} (h : limit ≤ d + 1 + b)
    (h' : limit ≤ d + 1 + b') :
    Lockstep limit aligned d (d + 1) (subroutineStart className classTable b)
      (subroutineStart className classTable b') := by
  apply (lockstep_marker _).bind
  intro _
  apply (lockstep_keyword _ _).bind
  intro kind
  apply lockstep_type.bind
  intro returnType
  apply lockstep_identifier.bind
  intro name
  apply (lockstep_word "(").bind
  intro _
  apply (lockstep_parameterList kind h h').bind
  intro table
  apply (lockstep_word ")").bind
  intro _
  apply (lockstep_marker _).steady.bind
  intro _
  apply (lockstep_word openBrace).bind
  intro _
  apply (lockstep_varDecs h h' table).bind
  intro table
  exact (Lockstep.note _).bind fun _ => (Lockstep.emit _).bind fun _ =>
    (lockstep_emitAll _).bind fun _ => lockstep_statements _ h h'

end

/-- A class up to its subroutines. The result is its name and the table of its variables. -/
def classStart (bound : Nat) : Compiler (String × SymbolTable) := do
  marker .classDec
  word "class"
  let name ← identifier
  note (.classStarted name)
  word openBrace
  let table ← classVarDecs name bound .empty
  return (name, table)

/-- A class from its subroutines on. -/
def classRest (name : String) (table : SymbolTable) (bound : Nat) : Compiler String := do
  subroutineDecs name table bound
  word closeBrace
  match ← current? with
  | some _ => mismatch "end of tree"
  | none => return name

theorem classDec_eq (bound : Nat) :
    classDec bound = classStart bound >>= fun start => classRest start.1 start.2 bound := by
  simp only [classStart, bind_assoc, pure_bind]
  rfl

theorem lockstep_classStart {b b' : Nat} (h : limit ≤ d + b) (h' : limit ≤ d + b') :
    Lockstep limit aligned d d (classStart b) (classStart b') :=
  (lockstep_marker _).steady.bind fun _ => (lockstep_word "class").bind fun _ =>
    lockstep_identifier.bind fun _ => (Lockstep.note _).bind fun _ =>
      (lockstep_word openBrace).bind fun _ => (lockstep_classVarDecs h h' _).bind fun _ => .pure _

end Jack.Compiler
