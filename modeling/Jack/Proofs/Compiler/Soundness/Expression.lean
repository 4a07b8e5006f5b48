import Jack.Compiler.ClassCode
import Jack.Proofs.Compiler.Expression
import Jack.Proofs.Compiler.Reading

/-!
# Expressions that compile

Whatever entries are accepted as an expression, a term, operators or arguments spell such a
construct. The code is that of its translation, which is the same at every position.
-/

namespace Jack.Compiler

open Grammar
open Vm (Operand operandsCode LabelSupply)

variable {scope : Scope} {es : List Entry} {l : LabelSupply} {bound : Nat}

def Everywhere {α : Type} (t : Nat → Except Fault α) (a : α) : Prop := ∀ pos, t pos = .ok a

def TermRead (scope : Scope) : Reading Unit := fun used k is _ =>
  k = 0 ∧ ∃ t o, Spells (Term.lexemes t) used ∧ Everywhere (t.translate scope) o ∧ is = o.code

def ExpressionRead (scope : Scope) : Reading Unit := fun used k is _ =>
  k = 0 ∧ ∃ e o, Spells (Expression.lexemes e) used ∧ Everywhere (e.translate scope) o ∧
    is = o.code

/-- Operators have code only after a term. -/
def OperationsRead (scope : Scope) : Reading Unit := fun used k is _ =>
  k = 0 ∧ ∃ operations, Spells (operationLexemes operations) used ∧
    ∀ left, ∃ o, Everywhere (translateOperations scope · left operations) o ∧
      o.code = left.code ++ is

def ArgumentsRead (scope : Scope) (count : Nat) : Reading Nat := fun used k is total =>
  k = 0 ∧ ∃ args os, Spells (argumentLexemes args) used ∧
    Everywhere (translateArguments scope · count args) os ∧ is = operandsCode os ∧
    total = count + os.length

/-- What is written for the arguments of a call, with everything around them. -/
def parenthesizedLexemes (args : List Expression) : List Lexeme :=
  [.symbol "(", .marker .expressionList] ++ argumentLexemes args ++ [.symbol ")"]

def ParenthesizedRead (scope : Scope) : Reading Nat := fun used k is total =>
  k = 0 ∧ ∃ args os, Spells (parenthesizedLexemes args) used ∧
    Everywhere (translateArguments scope · 0 args) os ∧ is = operandsCode os ∧ total = os.length

/-- What is read of a call after its first identifier. -/
def CallRead (scope : Scope) (name : String) : Reading Unit := fun used k is _ =>
  k = 0 ∧ ∃ callee args os o,
    Spells (callLexemes callee args) (.token .identifier name :: used) ∧
    Everywhere (translateArguments scope · 0 args) os ∧
    Everywhere (callOperand scope callee · (.ok os)) o ∧ is = o.code

/-- What a compiler of arguments has to satisfy. -/
def ReadsArguments (scope : Scope) (arguments : Compiler Nat) (bound : Nat) : Prop :=
  ∀ es l, es.length ≤ bound → Yields arguments es l (ArgumentsRead scope 0)

theorem parenthesized_yields {arguments : Compiler Nat}
    (h : ReadsArguments scope arguments bound) (hes : es.length ≤ bound) :
    Yields (parenthesized arguments) es l (ParenthesizedRead scope) := by
  refine yields_word (by decide) fun es' kind hes' => ?_
  refine yields_marker (by decide) fun es'' hes'' => ?_
  subst hes' hes''
  rw [List.length_cons, List.length_cons] at hes
  refine (h es'' l (by omega)).bind ?_
  rintro used rest _ _ total rfl ⟨rfl, args, os, hspells, hos, rfl, rfl⟩
  refine yields_word (by decide) fun rest' kind' hrest => yields_pure ?_
  refine ⟨rfl, args, os, ?_, hos, List.append_nil _, Nat.zero_add _⟩
  exact .entry ⟨kind, rfl⟩ (.entry rfl (hspells.append (.singleton ⟨kind', rfl⟩)))

theorem oneMore_yields {β : Type} {args : Nat} {f : Nat → Compiler β} {R : Reading β}
    (hf : args ≠ argumentLimit → Yields (f (args + 1)) es l R) :
    Yields (oneMore args >>= f) es l R := by
  by_cases h : args = argumentLimit
  · refine Yields.bind (Q := fun _ _ _ _ => False) ?_ fun _ _ _ _ _ _ h => h.elim
    intro n c ns a s hrun
    rw [h, run_oneMore_limit] at hrun
    cases hrun
  · have hlooks : Looks (oneMore args) es.head? (args + 1) := fun _ _ _ _ _ _ =>
      run_oneMore_of_ne h _
    exact hlooks.then (hf h)

theorem boundCall_ok {name : String} {receiver : Operand} {os : List Operand}
    (h : os.length ≠ argumentLimit) :
    Everywhere (boundCall name receiver · os) (.call name (receiver :: os)) :=
  fun _ => if_neg h

theorem call_yields {name : String} {arguments : Compiler Nat}
    (h : ReadsArguments scope arguments bound) (hes : es.length ≤ bound) :
    Yields (call scope name arguments) es l (CallRead scope name) := by
  refine (looks_atSymbol "(").then ?_
  split
  · refine yields_emit ((parenthesized_yields h hes).bind ?_)
    rintro used rest _ _ total rfl ⟨rfl, args, os, hspells, hos, rfl, rfl⟩
    refine oneMore_yields fun hlimit => Yields.last (yields_emit (yields_pure ?_))
    refine ⟨rfl, .own name, args, os, .call (scope.qualify name) (.push .pointer 0 :: os), ?_, hos,
      boundCall_ok hlimit, rfl⟩
    rw [List.append_nil]
    exact .entry rfl hspells
  · refine yields_word (by decide) fun es' kind hes' => ?_
    refine yields_identifier fun es'' method hes'' => ?_
    subst hes' hes''
    rw [List.length_cons, List.length_cons] at hes
    cases hreceiver : scope.lookup? name with
    | some symbol =>
      refine yields_emit ((parenthesized_yields h (by omega)).bind ?_)
      rintro used rest _ _ total rfl ⟨rfl, args, os, hspells, hos, rfl, rfl⟩
      refine oneMore_yields fun hlimit => Yields.last (yields_emit (yields_pure ?_))
      refine ⟨rfl, .qualified name method, args, os,
        .call (symbol.declaredType ++ "." ++ method) (slotOperand symbol.slot :: os), ?_, hos, ?_,
        rfl⟩
      · rw [List.append_nil]
        exact .entry rfl (.entry ⟨kind, rfl⟩ (.entry rfl hspells))
      · intro stop
        simp only [callOperand, hreceiver]
        exact boundCall_ok hlimit stop
    | none =>
      refine (parenthesized_yields h (by omega)).bind ?_
      rintro used rest _ _ total rfl ⟨rfl, args, os, hspells, hos, rfl, rfl⟩
      refine Yields.last (yields_emit (yields_pure ?_))
      refine ⟨rfl, .qualified name method, args, os, .call (name ++ "." ++ method) os, ?_, hos, ?_,
        rfl⟩
      · rw [List.append_nil]
        exact .entry rfl (.entry ⟨kind, rfl⟩ (.entry rfl hspells))
      · intro stop
        simp only [callOperand, hreceiver]
        rfl

theorem resolve_yields {name : String} {pos : Position} {f : Slot → Compiler Unit}
    {R : Reading Unit}
    (hf : ∀ slot, Everywhere (slotOf scope name ·) slot → Yields (f slot) es l R) :
    Yields (resolve scope name pos >>= f) es l R := by
  unfold resolve
  cases hlookup : scope.lookup? name with
  | some symbol =>
    have hslot : Everywhere (slotOf scope name ·) symbol.slot := by
      intro pos
      simp only [slotOf, hlookup]
    rw [pure_bind]
    exact hf symbol.slot hslot
  | none => exact Yields.bind (Q := fun _ _ _ _ => False) yields_throw fun _ _ _ _ _ _ h => h.elim

theorem elementAddress_yields {base : Slot} {compile : Compiler Unit}
    (h : Yields compile es l (ExpressionRead scope)) :
    Yields (elementAddress base compile) es l fun used k is _ => k = 0 ∧ ∃ e o,
      Spells (Expression.lexemes e ++ [.symbol "]"]) used ∧ Everywhere (e.translate scope) o ∧
      is = (Grammar.elementAddress base o).code := by
  refine h.bind ?_
  rintro used rest _ _ _ rfl ⟨rfl, e, o, hspells, ho, rfl⟩
  refine yields_word (by decide) fun rest' kind hrest => ?_
  refine yields_emit (Yields.last (yields_emit (yields_pure ?_)))
  exact ⟨rfl, e, o, hspells.append (.singleton ⟨kind, rfl⟩), ho, (code_elementAddress base o).symm⟩

/-- A term that begins with an identifier, after it. -/
def NameTermRead (scope : Scope) (name : String) : Reading Unit := fun used k is _ =>
  k = 0 ∧ ∃ t o, Spells (Term.lexemes t) (.production .term :: .token .identifier name :: used) ∧
    Everywhere (t.translate scope) o ∧ is = o.code

theorem nameTerm_yields {name : String} {pos : Position} {compile : Compiler Unit}
    {arguments : Compiler Nat} (harguments : ReadsArguments scope arguments bound)
    (hcompile : ∀ es l, es.length ≤ bound → Yields compile es l (ExpressionRead scope))
    (hes : es.length ≤ bound) :
    Yields (nameTerm scope name pos compile arguments) es l (NameTermRead scope name) := by
  refine looks_atCall.then ?_
  split
  · refine (call_yields harguments hes).mono ?_
    rintro used _ is _ ⟨rfl, callee, args, os, o, hspells, hos, ho, rfl⟩
    refine ⟨rfl, .call callee args, o, .entry rfl hspells, ?_, rfl⟩
    intro pos
    simp only [Term.translate, hos _]
    exact ho _
  · refine yields_accept (fun rest hrest => ?_) ?_
    · subst hrest
      refine resolve_yields fun base hbase => ?_
      refine (elementAddress_yields (hcompile rest l (Nat.le_of_succ_le hes))).bind ?_
      rintro used rest _ _ _ rfl ⟨rfl, index, o, hspells, ho, rfl⟩
      refine Yields.last (yields_emitAll (yields_pure ?_))
      refine ⟨rfl, .element name index, .fetch (Grammar.elementAddress base o), ?_, ?_, rfl⟩
      · rw [List.append_nil]
        exact .entry rfl (.entry rfl (.entry ⟨.symbol, rfl⟩ hspells))
      · intro pos
        simp only [Term.translate, hbase _, ho _]
        rfl
    · refine resolve_yields fun slot hslot => Yields.last (yields_emit (yields_pure ?_))
      refine ⟨rfl, .variable name, slotOperand slot, .entry rfl (.entry rfl rfl), ?_, rfl⟩
      intro pos
      simp only [Term.translate, hslot _]
      rfl

theorem integerTerm_yields {text : String} {pos : Position} :
    Yields (integerTerm text pos) es l fun used k is _ => used = [] ∧ k = 0 ∧ ∃ o,
      Everywhere (integerOperand text) o ∧ is = o.code := by
  unfold integerTerm integerOperand
  cases (Text.natural? text).filter (· ≤ maxConstant) with
  | some value =>
    refine Yields.last (yields_emit (yields_pure ?_))
    exact ⟨rfl, rfl, .push .constant value, fun _ => rfl, rfl⟩
  | none => exact yields_throw

theorem stringTerm_yields {text : String} {pos : Position} :
    Yields (stringTerm text pos) es l fun used k is _ => used = [] ∧ k = 0 ∧ ∃ o,
      Everywhere (stringOperand text) o ∧ is = o.code := by
  unfold stringTerm stringInstructions stringOperand
  by_cases hlen : text.length > maxConstant
  · simp only [hlen, if_true]
    exact yields_throw
  · simp only [hlen, if_false, appendChars_eq]
    cases text.toList.find? fun c => c.toNat > maxConstant with
    | some char => exact yields_throw
    | none =>
      refine Yields.last (yields_emitAll (yields_pure ⟨rfl, rfl, _, fun _ => rfl, ?_⟩))
      rw [code_appendChars, List.append_nil]
      rfl

/-- What the compilers of terms, operators and arguments read under one bound. -/
structure ReadsTerms (scope : Scope) (bound : Nat) : Prop where
  term : ∀ es l, es.length ≤ bound → Yields (Compiler.term scope bound) es l (TermRead scope)
  operators : ∀ es l, es.length ≤ bound →
    Yields (Compiler.operators scope bound) es l (OperationsRead scope)
  arguments : ∀ count es l, es.length ≤ bound →
    Yields (Compiler.arguments scope bound count) es l (ArgumentsRead scope count)

theorem ReadsTerms.expression (h : ReadsTerms scope bound) (hes : es.length ≤ bound + 1) :
    Yields (Compiler.expression scope bound) es l (ExpressionRead scope) := by
  refine yields_marker (by decide) fun es' hes' => ?_
  subst hes'
  refine (h.term es' l (Nat.le_of_succ_le_succ hes)).bind ?_
  rintro used rest _ _ _ rfl ⟨rfl, t, o, hspells, ho, rfl⟩
  have hrest : rest.length ≤ bound := by
    rw [List.length_cons, List.length_append] at hes
    omega
  refine (h.operators rest l hrest).mono ?_
  rintro used' _ is _ ⟨rfl, operations, hspells', hoperations⟩
  obtain ⟨o', ho', hcode⟩ := hoperations o
  refine ⟨rfl, .mk t operations, o', .entry rfl (hspells.append hspells'), ?_, hcode.symm⟩
  intro pos
  simp only [Expression.translate, ho _]
  exact ho' _

theorem reads_binaryOp {e : Entry} {op : BinaryOp} (h : binaryOp? e = some op) :
    (Lexeme.token .symbol op.symbol).Reads [e] := by
  unfold binaryOp? at h
  split at h
  · rw [BinaryOp.ofSymbol?_eq_some_iff.1 h]
    rfl
  · cases h

theorem reads_separator (args : List Expression) : (separator args).Reads [comma] := by
  cases args with
  | nil => exact .inr rfl
  | cons => exact ⟨.symbol, rfl⟩

theorem ReadsTerms.term_succ (h : ReadsTerms scope bound) (hes : es.length ≤ bound + 1) :
    Yields (Compiler.term scope (bound + 1)) es l (TermRead scope) := by
  refine yields_term fun es' hes' => ?_
  subst hes'
  -- The entry behind the marker decides which kind of term it is.
  refine yields_position fun pos => looks_current?.then ?_
  cases es' with
  | nil => exact yields_mismatch
  | cons e rest =>
    have hrest : rest.length ≤ bound := by
      rw [List.length_cons, List.length_cons] at hes
      omega
    cases e with
    | production p => exact yields_mismatch
    | token kind text =>
      cases kind with
      | keyword =>
        refine yields_keyword fun rest' text' constant hrest' hconstant => ?_
        cases hrest'
        refine Yields.last (yields_emitAll (yields_pure ?_))
        refine ⟨rfl, .constant constant, constantOperand constant, ?_, fun _ => rfl, ?_⟩
        · rw [← KeywordConstant.ofKeyword?_eq_some_iff.1 hconstant]
          exact .entry rfl (.entry rfl rfl)
        · rw [List.append_nil, code_constantOperand]
      | symbol =>
        dsimp only [List.head?_cons]
        split
        · next htext =>
          subst htext
          refine yields_advance (by simp) ((h.expression (Nat.le_succ_of_le hrest)).bind ?_)
          rintro used rest' _ _ _ rfl ⟨rfl, inner, o, hspells, ho, rfl⟩
          refine Yields.last (yields_word (by decide) fun rest'' kind hrest'' => yields_pure ?_)
          refine ⟨rfl, .group inner, o, ?_, fun pos => ho _, List.append_nil _⟩
          exact .entry rfl (.entry ⟨.symbol, rfl⟩ (hspells.append (.singleton ⟨kind, rfl⟩)))
        · split
          · next op hop =>
            refine yields_advance (by simp) ((h.term rest l hrest).bind ?_)
            rintro used rest' _ _ _ rfl ⟨rfl, operand, o, hspells, ho, rfl⟩
            refine Yields.last (yields_emit (yields_pure ?_))
            refine ⟨rfl, .unary op operand, .unary op o, ?_, fun pos => ?_, rfl⟩
            · rw [List.append_nil, ← UnaryOp.ofSymbol?_eq_some_iff.1 hop]
              exact .entry rfl (.entry rfl hspells)
            · simp only [Term.translate, ho _]
              rfl
          · exact yields_mismatch
      | integerConstant =>
        refine yields_advance (by simp) (integerTerm_yields.mono ?_)
        rintro _ _ is _ ⟨rfl, rfl, o, ho, rfl⟩
        exact ⟨rfl, .integer text, o, .entry rfl (.entry rfl rfl), fun pos => ho _, rfl⟩
      | stringConstant =>
        refine yields_advance (by simp) (stringTerm_yields.mono ?_)
        rintro _ _ is _ ⟨rfl, rfl, o, ho, rfl⟩
        exact ⟨rfl, .string text, o, .entry rfl (.entry rfl rfl), fun pos => ho _, rfl⟩
      | identifier =>
        exact yields_advance (by simp) (nameTerm_yields (h.arguments 0)
          (fun es l hes => h.expression (Nat.le_succ_of_le hes)) hrest)

theorem ReadsTerms.operators_succ (h : ReadsTerms scope bound) (hes : es.length ≤ bound + 1) :
    Yields (Compiler.operators scope (bound + 1)) es l (OperationsRead scope) := by
  refine (looks_peek? binaryOp?).then ?_
  split
  · next op hop =>
    obtain ⟨text, rest, rfl, he⟩ : ∃ text rest, es = .token .symbol text :: rest ∧
        binaryOp? (.token .symbol text) = some op := by
      rcases es with _ | ⟨_ | ⟨⟨⟩, text⟩, rest⟩
      case cons.token.symbol => exact ⟨text, rest, rfl, hop⟩
      all_goals cases hop
    refine yields_advance (by simp) ((h.term rest l (Nat.le_of_succ_le_succ hes)).bind ?_)
    rintro used rest' _ _ _ rfl ⟨rfl, t, o, hspells, ho, rfl⟩
    have hrest' : rest'.length ≤ bound := by
      rw [List.length_cons, List.length_append] at hes
      omega
    refine yields_emit ((h.operators rest' l hrest').mono ?_)
    rintro used' _ is _ ⟨rfl, operations, hspells', hoperations⟩
    refine ⟨rfl, (op, t) :: operations, .entry (reads_binaryOp he) (hspells.append hspells'), ?_⟩
    intro left
    -- What stands to the left of the other operators is the value of this one.
    obtain ⟨o', ho', hcode⟩ := hoperations (.binary op left o)
    refine ⟨o', fun pos => ?_, ?_⟩
    · simp only [translateOperations, ho _]
      exact ho' _
    · rw [hcode]
      simp only [Operand.code, List.append_assoc]
      rfl
  · refine yields_pure ⟨rfl, [], rfl, fun left => ⟨left, fun _ => rfl, ?_⟩⟩
    exact (List.append_nil _).symm

theorem ReadsTerms.arguments_succ {count : Nat} (h : ReadsTerms scope bound)
    (hes : es.length ≤ bound + 1) :
    Yields (Compiler.arguments scope (bound + 1) count) es l (ArgumentsRead scope count) := by
  refine (looks_atProduction .expression).then ?_
  split
  · refine (h.expression hes).bind ?_
    rintro used rest _ _ _ rfl ⟨rfl, e, o, hspells, ho, rfl⟩
    rw [List.length_append] at hes
    refine oneMore_yields fun hlimit => yields_accept (fun rest' hrest' => ?_) ?_
    · subst hrest'
      rw [List.length_cons] at hes
      refine (h.arguments (count + 1) rest' l (by omega)).mono ?_
      rintro used' _ is total ⟨rfl, args, os, hspells', hos, rfl, rfl⟩
      refine ⟨rfl, e :: args, o :: os, ?_, fun pos => ?_, rfl, by rw [List.length_cons]; omega⟩
      · rw [argumentLexemes, List.append_assoc]
        exact hspells.append (.entry (reads_separator args) hspells')
      · simp only [translateArguments, ho _, hos _]
        exact if_neg hlimit
    · refine yields_pure ⟨rfl, [e], [o], ?_, fun pos => ?_, rfl, rfl⟩
      · have hlast : Lexeme.lastComma.Reads [] := .inl rfl
        rw [argumentLexemes, argumentLexemes, List.append_nil (_ ++ _)]
        exact hspells.append (.singleton hlast)
      · simp only [translateArguments, ho _]
        exact if_neg hlimit
  · exact yields_pure ⟨rfl, [], [], rfl, fun _ => rfl, rfl, rfl⟩

theorem reads_terms (scope : Scope) (bound : Nat) : ReadsTerms scope bound := by
  induction bound with
  | zero =>
    -- Without entries there is no term, and the lists are empty.
    constructor
    · intro es l hes
      obtain rfl := List.eq_nil_of_length_eq_zero (Nat.le_zero.1 hes)
      intro n c ns a s hrun
      cases hrun
    · intro es l _
      exact yields_pure ⟨rfl, [], rfl, fun left => ⟨left, fun _ => rfl, (List.append_nil _).symm⟩⟩
    · intro count es l _
      exact yields_pure ⟨rfl, [], [], rfl, fun _ => rfl, rfl, rfl⟩
  | succ bound ih =>
    exact ⟨fun _ _ hes => ih.term_succ hes, fun _ _ hes => ih.operators_succ hes,
      fun _ _ _ hes => ih.arguments_succ hes⟩

theorem expression_yields (h : es.length ≤ bound + 1) :
    Yields (expression scope bound) es l (ExpressionRead scope) :=
  (reads_terms scope bound).expression h

end Jack.Compiler
