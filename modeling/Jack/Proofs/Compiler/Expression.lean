import Jack.Compiler.Expression
import Jack.Proofs.Compiler.Run

/-!
# Compiling an expression meets its translation

On the entries of an expression, followed by an entry that cannot go on with it, the compiler passes
exactly these entries and emits the code of the translation, or fails with its fault. One entry of
lookahead suffices to see where each construct ends.
-/

namespace Jack.Compiler

open Grammar
open Vm (Operand operandsCode LabelSupply)

variable {n : Nat} {l : LabelSupply} {c : Vm.Code} {ns : Array Notice} {rest : List Entry}

/-- The state after code for an operand. -/
def Emitted (rest : List Entry) (n : Nat) (l : LabelSupply) (c : Vm.Code) (ns : Array Notice)
    (o : Operand) (_ : Unit) (s : CompilerState) : Prop :=
  s = ⟨⟨rest, n⟩, l, c.extend o.code, ns⟩

/-- The state after code for `args` arguments and the operands. -/
def EmittedArguments (rest : List Entry) (n : Nat) (l : LabelSupply) (c : Vm.Code)
    (ns : Array Notice) (args : Nat) (os : List Operand) (total : Nat) (s : CompilerState) : Prop :=
  total = args + os.length ∧ s = ⟨⟨rest, n⟩, l, c.extend (operandsCode os), ns⟩

/-- The entries do not begin with a symbol that goes on with a term. -/
def EndsTerm (rest : List Entry) : Prop :=
  ∀ text ∈ ["(", ".", "["], rest.head? ≠ some (.token .symbol text)

/-- The entries do not begin with a symbol that goes on with an expression. -/
def EndsExpression (rest : List Entry) : Prop :=
  EndsTerm rest ∧ rest.head?.bind binaryOp? = none

theorem endsTerm_symbol {text : String} (h : text ∉ ["(", ".", "["]) :
    EndsTerm (.token .symbol text :: rest) := by
  intro other hmem heq
  obtain rfl : text = other := by simpa using heq
  exact h hmem

theorem endsTerm_op (op : BinaryOp) : EndsTerm (.token .symbol op.symbol :: rest) :=
  endsTerm_symbol (by cases op <;> decide)

theorem endsExpression_symbol {text : String} (h : text ∉ ["(", ".", "["])
    (hop : BinaryOp.ofSymbol? text = none) : EndsExpression (.token .symbol text :: rest) :=
  ⟨endsTerm_symbol h, hop⟩

/-! ## Leaves -/

theorem integerTerm_meets (text : String) (pos : Nat) :
    Meets (integerOperand text pos)
      ((integerTerm text (.ofIndex pos)).run ⟨⟨rest, n⟩, l, c, ns⟩) (Emitted rest n l c ns) := by
  unfold integerOperand integerTerm
  cases (Text.natural? text).filter (· ≤ maxConstant) with
  | some value => simp only [run_emit, Meets, Emitted, Operand.code]
  | none => simp only [run_throw, Meets]

theorem code_appendChars (cs : List Char) (string : Operand) :
    (cs.foldl (fun o c => .call Os.appendChar [o, .push .constant c.toNat]) string).code =
      string.code ++
        cs.flatMap fun c => [.push .constant c.toNat, .call Os.appendChar 2] := by
  induction cs generalizing string with
  | nil => exact (List.append_nil _).symm
  | cons c cs ih =>
    rw [List.foldl_cons, ih, List.flatMap_cons]
    simp only [Operand.code, operandsCode, List.append_nil, List.length_cons, List.length_nil,
      List.append_assoc, List.cons_append, List.nil_append]

theorem stringTerm_meets (text : String) (pos : Nat) :
    Meets (stringOperand text pos)
      ((stringTerm text (.ofIndex pos)).run ⟨⟨rest, n⟩, l, c, ns⟩) (Emitted rest n l c ns) := by
  unfold stringOperand stringTerm stringInstructions
  by_cases hlen : text.length > maxConstant
  · simp only [hlen, if_true, run_throw, Meets]
  · simp only [hlen, if_false, appendChars_eq]
    cases text.toList.find? fun c => c.toNat > maxConstant with
    | some char => simp only [run_throw, Meets]
    | none =>
      simp only [run_emitAll, Meets, Emitted, code_appendChars]
      rfl

theorem code_constantOperand (value : KeywordConstant) :
    (constantOperand value).code = value.instructions := by
  cases value <;> rfl

theorem resolve_meets (scope : Scope) (name : String) (pos : Nat) (s : CompilerState) :
    Meets (slotOf scope name pos) ((resolve scope name (.ofIndex pos)).run s)
      (fun slot slot' s' => slot' = slot ∧ s' = s) := by
  unfold slotOf resolve
  cases scope.lookup? name with
  | some symbol => exact ⟨rfl, rfl⟩
  | none => rfl

theorem code_slotOperand (slot : Slot) : (slotOperand slot).code = [slot.push] := rfl

theorem code_elementAddress (base : Slot) (index : Operand) :
    (Grammar.elementAddress base index).code = index.code ++ [base.push, .arithmetic .add] := by
  simp only [Grammar.elementAddress, Operand.code, code_slotOperand, List.append_assoc]
  rfl

/-! ## Calls -/

theorem run_oneMore_of_ne {args : Nat} (h : args ≠ argumentLimit) (s : CompilerState) :
    (oneMore args).run s = .ok (args + 1) s := by
  rw [oneMore, if_neg h, run_pure]

theorem run_oneMore_limit :
    (oneMore argumentLimit).run ⟨⟨rest, n⟩, l, c, ns⟩ =
      .error (.limit "arguments in one call" (.ofIndex n)) ⟨⟨rest, n⟩, l, c, ns⟩ := by
  rw [oneMore, if_pos rfl, tooManyArguments, EStateM.run_bind, run_position]
  rfl

/-- What is written for the arguments of a call, with everything around them. -/
def parenthesizedEntries (arguments : List Expression) : List Entry :=
  .token .symbol "(" :: .production .expressionList ::
    (written (argumentLexemes arguments) ++ [.token .symbol ")"])

/-- Arguments that meet a translation still do so in parentheses. -/
theorem parenthesized_meets {arguments : Compiler Nat} {args : List Expression}
    {t : Except Fault (List Operand)}
    (h : Meets t (arguments.run ⟨⟨written (argumentLexemes args) ++ .token .symbol ")" :: rest,
        n + 2⟩, l, c, ns⟩)
      (EmittedArguments (.token .symbol ")" :: rest) (n + 2 + argumentsSize args) l c ns 0)) :
    Meets t
      ((parenthesized arguments).run ⟨⟨parenthesizedEntries args ++ rest, n⟩, l, c, ns⟩)
      (EmittedArguments rest (n + 2 + argumentsSize args + 1) l c ns 0) := by
  simp only [parenthesizedEntries, List.cons_append, List.append_assoc, List.nil_append]
  refine .step (run_word ..) (.step (run_marker _) (h.last ?_))
  rintro os total _ ⟨rfl, rfl⟩
  exact .step (run_word ..) ⟨rfl, rfl⟩

/-- What is written for a call after its first identifier. -/
def callEntries (callee : Callee) (arguments : List Expression) : List Entry :=
  match callee with
  | .own _ => parenthesizedEntries arguments
  | .qualified _ method =>
    .token .symbol "." :: .token .identifier method :: parenthesizedEntries arguments

theorem boundCall_meets {name : String} {receiver : Operand} {os : List Operand} {is : Vm.Code}
    (his : is = c.extend (receiver.code ++ operandsCode os)) :
    Meets (boundCall name receiver n os)
      ((do let args ← oneMore (0 + os.length); emit (.call name args)).run
        ⟨⟨rest, n⟩, l, is, ns⟩)
      (Emitted rest n l c ns) := by
  rw [Nat.zero_add, boundCall]
  by_cases h : os.length = argumentLimit
  · rw [if_pos h, h, EStateM.run_bind, run_oneMore_limit]
    rfl
  · rw [if_neg h]
    refine .step (run_oneMore_of_ne h _) ?_
    rw [run_emit, his, Vm.Code.extend_extend]
    rfl

theorem call_meets {scope : Scope} {callee : Callee} {arguments : Compiler Nat}
    {args : List Expression} {t : Except Fault (List Operand)}
    (h : ∀ c, Meets t (arguments.run
        ⟨⟨written (argumentLexemes args) ++ .token .symbol ")" :: rest, n + calleeSize callee⟩,
          l, c, ns⟩)
      (EmittedArguments (.token .symbol ")" :: rest) (n + calleeSize callee + argumentsSize args)
        l c ns 0)) :
    Meets (callOperand scope callee (n + calleeSize callee + argumentsSize args + 1) t)
      ((call scope (firstName callee) arguments).run
        ⟨⟨callEntries callee args ++ rest, n + 1⟩, l, c, ns⟩)
      (Emitted rest (n + calleeSize callee + argumentsSize args + 1) l c ns) := by
  cases callee with
  | own name =>
    refine .step (run_atSymbol _) (.step (run_emit _) ?_)
    refine (parenthesized_meets (h _)).bind ?_
    rintro os total _ ⟨rfl, rfl⟩
    exact boundCall_meets (Vm.Code.extend_extend ..)
  | qualified receiver method =>
    refine .step (run_atSymbol _) (.step (run_word ..) (.step (run_identifier _) ?_))
    simp only [callOperand, firstName]
    cases scope.lookup? receiver with
    | some symbol =>
      refine .step (run_emit _) ((parenthesized_meets (h _)).bind ?_)
      rintro os total _ ⟨rfl, rfl⟩
      exact boundCall_meets (Vm.Code.extend_extend ..)
    | none =>
      refine (parenthesized_meets (h _)).bind ?_
      rintro os total _ ⟨rfl, rfl⟩
      rw [run_emit, Vm.Code.extend_extend, Nat.zero_add]
      rfl

/-! ## Terms and expressions -/

theorem elementAddress_meets {base : Slot} {compile : Compiler Unit} {index : Expression}
    {t : Except Fault Operand}
    (h : Meets t (compile.run ⟨⟨written index.lexemes ++ .token .symbol "]" :: rest, n⟩, l, c, ns⟩)
      (Emitted (.token .symbol "]" :: rest) (n + index.size) l c ns)) :
    Meets t
      ((elementAddress base compile).run
        ⟨⟨written index.lexemes ++ .token .symbol "]" :: rest, n⟩, l, c, ns⟩)
      (fun o => Emitted rest (n + index.size + 1) l c ns (Grammar.elementAddress base o)) := by
  refine h.last ?_
  rintro o _ _ rfl
  refine .step (run_word ..) (.step (run_emit _) ?_)
  rw [run_emit, Vm.Code.extend_extend, Vm.Code.extend_extend]
  exact congrArg (fun is => CompilerState.mk ⟨rest, _⟩ l (c.extend is) ns)
    (by rw [code_elementAddress]; rfl)

theorem run_atCall_callEntries (callee : Callee) (args : List Expression) :
    atCall.run ⟨⟨callEntries callee args ++ rest, n⟩, l, c, ns⟩ =
      .ok true ⟨⟨callEntries callee args ++ rest, n⟩, l, c, ns⟩ := by
  rw [run_atCall]
  cases callee <;> rfl

theorem run_atCall_of_endsTerm (h : EndsTerm rest) :
    atCall.run ⟨⟨rest, n⟩, l, c, ns⟩ = .ok false ⟨⟨rest, n⟩, l, c, ns⟩ := by
  rw [run_atCall, decide_eq_false]
  rintro (h' | h')
  · exact h "(" (by decide) h'
  · exact h "." (by decide) h'

theorem written_callee (callee : Callee) :
    ∃ tail, written (calleeLexemes callee) = .token .identifier (firstName callee) :: tail ∧
      ∀ args, callEntries callee args = tail ++ parenthesizedEntries args := by
  cases callee with
  | own name => exact ⟨[], rfl, fun _ => rfl⟩
  | qualified receiver method => exact ⟨[.token .symbol ".", .token .identifier method], rfl,
      fun _ => rfl⟩

/-- The entries of a call: its first identifier and the others. -/
theorem written_call (callee : Callee) (args : List Expression) :
    written (callLexemes callee args) =
      .token .identifier (firstName callee) :: callEntries callee args := by
  obtain ⟨tail, htail, hentries⟩ := written_callee callee
  rw [hentries, callLexemes]
  simp only [written_append, htail, written_cons, written_nil, Lexeme.entries,
    parenthesizedEntries, List.cons_append, List.nil_append, List.append_assoc]

theorem nameTerm_variable_meets (scope : Scope) (name : String) (pos : Nat)
    (compile : Compiler Unit) (arguments : Compiler Nat) (hrest : EndsTerm rest) :
    Meets (slotOperand <$> slotOf scope name pos)
      ((nameTerm scope name (.ofIndex pos) compile arguments).run ⟨⟨rest, n⟩, l, c, ns⟩)
      (Emitted rest n l c ns) := by
  rw [← bind_pure_comp]
  refine .step (run_atCall_of_endsTerm hrest) (.step (run_accept_of_ne (hrest "[" (by decide))) ?_)
  refine (resolve_meets scope name pos _).bind ?_
  rintro slot _ _ ⟨rfl, rfl⟩
  rw [run_emit]
  rfl

theorem nameTerm_element_meets {scope : Scope} {name : String} {pos : Nat}
    {compile : Compiler Unit} {arguments : Compiler Nat} {index : Expression}
    {t : Except Fault Operand}
    (h : Meets t (compile.run ⟨⟨written index.lexemes ++ .token .symbol "]" :: rest, n + 1⟩, l, c,
        ns⟩)
      (Emitted (.token .symbol "]" :: rest) (n + 1 + index.size) l c ns)) :
    Meets (do return .fetch (Grammar.elementAddress (← slotOf scope name pos) (← t)))
      ((nameTerm scope name (.ofIndex pos) compile arguments).run
        ⟨⟨.token .symbol "[" :: (written index.lexemes ++ .token .symbol "]" :: rest), n⟩, l, c,
          ns⟩)
      (Emitted rest (n + 1 + index.size + 1) l c ns) := by
  refine .step (run_atCall ..) (.step (run_accept_self _) ?_)
  refine (resolve_meets scope name pos _).bind ?_
  rintro base _ _ ⟨rfl, rfl⟩
  refine (elementAddress_meets h).bind ?_
  rintro o _ _ rfl
  rw [run_emitAll, Vm.Code.extend_extend]
  rfl

attribute [local simp] Lexeme.entries

theorem endsTerm_operations (operations : List (BinaryOp × Term)) (h : EndsExpression rest) :
    EndsTerm (written (operationLexemes operations) ++ rest) := by
  cases operations with
  | nil => exact h.1
  | cons first operations => exact endsTerm_op first.1

mutual

theorem term_meets (scope : Scope) : (t : Term) → ∀ {bound n c rest}, t.size ≤ bound →
    EndsTerm rest → Meets (t.translate scope n)
      ((term scope bound).run ⟨⟨written t.lexemes ++ rest, n⟩, l, c, ns⟩)
      (Emitted rest (n + t.size) l c ns)
  | t, 0, n, c, rest, hbound, _ => absurd hbound (Nat.not_le.2 t.size_pos)
  | .integer text, bound + 1, n, c, rest, _, _ =>
    .step (run_marker _) (.step (run_position ..) (.step (run_current? ..) (.step (run_advance _)
      (integerTerm_meets text (n + 1)))))
  | .string text, bound + 1, n, c, rest, _, _ =>
    .step (run_marker _) (.step (run_position ..) (.step (run_current? ..) (.step (run_advance _)
      (stringTerm_meets text (n + 1)))))
  | .constant value, bound + 1, n, c, rest, _, _ => by
    refine .step (run_marker _) (.step (run_position ..) (.step (run_current? ..) ?_))
    refine .step (run_keyword (KeywordConstant.ofKeyword?_keyword value)) ?_
    rw [run_emitAll, ← code_constantOperand]
    rfl
  | .variable name, bound + 1, n, c, rest, _, hrest => by
    refine .step (run_marker _) (.step (run_position ..) (.step run_current?
      (.step (run_advance _) ?_)))
    exact nameTerm_variable_meets scope name (n + 1) _ _ hrest
  | .element name index, bound + 1, n, c, rest, hbound, _ => by
    rw [Term.size_element] at hbound
    have hwritten : written (Term.element name index).lexemes ++ rest =
        .production .term :: .token .identifier name :: .token .symbol "[" ::
          (written index.lexemes ++ .token .symbol "]" :: rest) := by
      simp [Term.lexemes]
    have hsize : n + (Term.element name index).size = n + 2 + 1 + index.size + 1 := by
      rw [Term.size_element]
      omega
    rw [hwritten, hsize]
    refine .step (run_marker _) (.step (run_position ..) (.step run_current?
      (.step (run_advance _) ?_)))
    exact nameTerm_element_meets (expression_meets scope index (by omega)
      (endsExpression_symbol (by decide) (by decide)))
  | .group inner, bound + 1, n, c, rest, hbound, _ => by
    rw [Term.size_group] at hbound
    have hwritten : written (Term.group inner).lexemes ++ rest =
        .production .term :: .token .symbol "(" ::
          (written inner.lexemes ++ .token .symbol ")" :: rest) := by
      simp [Term.lexemes]
    have hsize : n + (Term.group inner).size = n + 2 + inner.size + 1 := by
      rw [Term.size_group]
      omega
    rw [hwritten, hsize]
    refine .step (run_marker _) (.step (run_position ..) (.step run_current?
      (.step (run_advance _) ?_)))
    refine (expression_meets scope inner (by omega)
      (endsExpression_symbol (by decide) (by decide))).last ?_
    rintro o _ _ rfl
    rw [run_word]
    rfl
  | .unary op operand, bound + 1, n, c, rest, hbound, hrest => by
    rw [Term.size_unary] at hbound
    have hwritten : written (Term.unary op operand).lexemes ++ rest =
        .production .term :: .token .symbol op.symbol :: (written operand.lexemes ++ rest) := by
      simp [Term.lexemes]
    have hsize : n + (Term.unary op operand).size = n + 2 + operand.size := by
      rw [Term.size_unary]
      omega
    -- A parenthesis would open a group, but it is no operator.
    have hne : op.symbol ≠ "(" := by cases op <;> decide
    rw [hwritten, hsize]
    refine .step (run_marker _) (.step (run_position ..) (.step (run_current? ..) ?_))
    simp only [List.head?_cons, hne, if_false, UnaryOp.ofSymbol?_symbol]
    refine .step (run_advance _) ((term_meets scope operand (by omega) hrest).bind ?_)
    rintro o _ _ rfl
    rw [run_emit, Vm.Code.extend_extend]
    rfl
  | .call callee args, bound + 1, n, c, rest, hbound, _ => by
    rw [Term.size_call] at hbound
    have hwritten : written (Term.call callee args).lexemes ++ rest =
        .production .term :: .token .identifier (firstName callee) ::
          (callEntries callee args ++ rest) := by
      rw [← List.cons_append, ← written_call]
      simp [Term.lexemes, callLexemes]
    have hsize : n + (Term.call callee args).size =
        n + 1 + calleeSize callee + argumentsSize args + 1 := by
      rw [Term.size_call]
      omega
    rw [hwritten, hsize]
    refine .step (run_marker _) (.step (run_position ..) (.step run_current?
      (.step (run_advance _) ?_)))
    refine .step (run_atCall_callEntries ..) ?_
    exact call_meets (fun c => arguments_meets scope args (by omega) _)

theorem expression_meets (scope : Scope) : (e : Expression) → ∀ {bound n c rest},
    e.size ≤ bound + 1 → EndsExpression rest → Meets (e.translate scope n)
      ((expression scope bound).run ⟨⟨written e.lexemes ++ rest, n⟩, l, c, ns⟩)
      (Emitted rest (n + e.size) l c ns)
  | .mk first operations, bound, n, c, rest, hbound, hrest => by
    rw [Expression.size_mk] at hbound
    have hwritten : written (Expression.mk first operations).lexemes ++ rest =
        .production .expression ::
          (written first.lexemes ++ (written (operationLexemes operations) ++ rest)) := by
      simp [Expression.lexemes]
    have hsize : n + (Expression.mk first operations).size =
        n + 1 + first.size + operationsSize operations := by
      rw [Expression.size_mk]
      omega
    rw [hwritten, hsize]
    refine .step (run_marker _)
      ((term_meets scope first (by omega) (endsTerm_operations operations hrest)).bind ?_)
    rintro o _ _ rfl
    exact operations_meets scope operations o (by omega) hrest

theorem operations_meets (scope : Scope) : (operations : List (BinaryOp × Term)) →
    (left : Operand) → ∀ {bound n c rest}, operationsSize operations ≤ bound → EndsExpression rest →
    Meets (translateOperations scope n left operations)
      ((operators scope bound).run
        ⟨⟨written (operationLexemes operations) ++ rest, n⟩, l, c.extend left.code, ns⟩)
      (Emitted rest (n + operationsSize operations) l c ns)
  | [], left, bound, n, c, rest, _, hrest => by
    cases bound with
    | zero => exact rfl
    | succ bound =>
      refine .step (run_peek? _) ?_
      rw [show (written (operationLexemes []) ++ rest).head?.bind binaryOp? = none from hrest.2]
      exact rfl
  | (op, t) :: operations, left, 0, n, c, rest, hbound, _ => by
    rw [operationsSize_cons] at hbound
    omega
  | (op, t) :: operations, left, bound + 1, n, c, rest, hbound, hrest => by
    rw [operationsSize_cons] at hbound
    have hwritten : written (operationLexemes ((op, t) :: operations)) ++ rest =
        .token .symbol op.symbol ::
          (written t.lexemes ++ (written (operationLexemes operations) ++ rest)) := by
      simp [operationLexemes]
    have hsize : n + operationsSize ((op, t) :: operations) =
        n + 1 + t.size + operationsSize operations := by
      rw [operationsSize_cons]
      omega
    have ht : t.size ≤ bound := by omega
    have hoperations : operationsSize operations ≤ bound := by omega
    rw [hwritten, hsize]
    refine .step (run_peek? _) ?_
    simp only [List.head?_cons, Option.bind_some, binaryOp?, BinaryOp.ofSymbol?_symbol]
    refine .step (run_advance _)
      ((term_meets scope t ht (endsTerm_operations operations hrest)).bind ?_)
    rintro o _ _ rfl
    refine .step (run_emit _) ?_
    rw [Vm.Code.extend_extend, Vm.Code.extend_extend, ← List.append_assoc]
    exact operations_meets scope operations (.binary op left o) hoperations hrest

theorem arguments_meets (scope : Scope) : (args : List Expression) →
    ∀ {bound n c rest}, argumentsSize args ≤ bound → (count : Nat) →
    Meets (translateArguments scope n count args)
      ((arguments scope bound count).run
        ⟨⟨written (argumentLexemes args) ++ .token .symbol ")" :: rest, n⟩, l, c, ns⟩)
      (EmittedArguments (.token .symbol ")" :: rest) (n + argumentsSize args) l c ns count)
  | [], bound, n, c, rest, _, count => by
    cases bound with
    | zero => exact ⟨rfl, by rw [operandsCode, Vm.Code.extend_nil]; rfl⟩
    | succ bound =>
      refine .step (run_atProduction _) ?_
      exact ⟨rfl, by rw [operandsCode, Vm.Code.extend_nil]; rfl⟩
  | e :: args, 0, n, c, rest, hbound, count => by
    have := e.size_pos
    rw [argumentsSize_cons] at hbound
    omega
  | e :: args, bound + 1, n, c, rest, hbound, count => by
    have hpos := e.size_pos
    rw [argumentsSize_cons] at hbound
    have he : e.size ≤ bound + 1 := by omega
    -- An expression follows, so the list goes on.
    have hhead : (written (argumentLexemes (e :: args)) ++ .token .symbol ")" :: rest).head? =
        some (.production .expression) := by
      cases e
      simp [argumentLexemes, Expression.lexemes]
    refine .step (run_atProduction _) ?_
    simp only [hhead, decide_true, if_true]
    cases args with
    | nil =>
      have hwritten : written (argumentLexemes [e]) ++ .token .symbol ")" :: rest =
          written e.lexemes ++ .token .symbol ")" :: rest := by
        simp [argumentLexemes, separator]
      have hsize : n + argumentsSize [e] = n + e.size := by
        rw [argumentsSize_cons]
        rfl
      rw [hwritten, hsize]
      refine (expression_meets scope e he (endsExpression_symbol (by decide) (by decide))).bind ?_
      rintro o _ _ rfl
      by_cases hcount : count = argumentLimit
      · rw [hcount, if_pos rfl, EStateM.run_bind, run_oneMore_limit]
        rfl
      · rw [if_neg hcount]
        refine .step (run_oneMore_of_ne hcount _) (.step (run_accept_of_ne (by simp [comma])) ?_)
        exact ⟨rfl, by rw [operandsCode, operandsCode, List.append_nil]⟩
    | cons e' args =>
      have hwritten : written (argumentLexemes (e :: e' :: args)) ++ .token .symbol ")" :: rest =
          written e.lexemes ++ .token .symbol "," ::
            (written (argumentLexemes (e' :: args)) ++ .token .symbol ")" :: rest) := by
        simp [argumentLexemes, separator]
      have hsize : n + argumentsSize (e :: e' :: args) =
          n + e.size + 1 + argumentsSize (e' :: args) := by
        rw [argumentsSize_cons, separator, Lexeme.entries, List.length_singleton]
        omega
      have hargs : argumentsSize (e' :: args) ≤ bound := by omega
      rw [hwritten, hsize]
      refine (expression_meets scope e he (endsExpression_symbol (by decide) (by decide))).bind ?_
      rintro o _ _ rfl
      by_cases hcount : count = argumentLimit
      · rw [hcount, if_pos rfl, EStateM.run_bind, run_oneMore_limit]
        rfl
      · rw [if_neg hcount]
        refine .step (run_oneMore_of_ne hcount _) (.step (run_accept_self _) ?_)
        refine (arguments_meets scope (e' :: args) hargs (count + 1)).map ?_
        rintro os total _ ⟨rfl, rfl⟩
        refine ⟨by rw [List.length_cons]; omega, ?_⟩
        rw [Vm.Code.extend_extend]
        rfl

end

end Jack.Compiler
