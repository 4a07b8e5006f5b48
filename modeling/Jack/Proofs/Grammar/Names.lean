import Jack.Proofs.Grammar.Variables
import Jack.Proofs.Vm.Label
import Jack.Proofs.Vm.Text

/-!
# The names in the code

Every name in the code of a class is put together from identifiers and types of the class, names of
the operating system, and label stems with numbers. If the identifiers and types of a class have no
line feed, then no name in its code has one.
-/

namespace Jack

open Text (OneLine oneLine_append)

/-- A node that writes no name or type with a line feed. -/
def Entry.Legible : Entry → Prop
  | .token .keyword text | .token .identifier text => OneLine text
  | _ => True

namespace Grammar

open Vm

/-- A lexeme that is no name or type with a line feed. -/
def Lexeme.Legible : Lexeme → Prop
  | .token .identifier text | .type text => OneLine text
  | _ => True

theorem Lexeme.Reads.legible {l : Lexeme} {es : List Entry} (h : l.Reads es)
    (hes : ∀ e ∈ es, e.Legible) : l.Legible := by
  cases l with
  | token kind text =>
    obtain rfl : es = [.token kind text] := h
    have he := hes _ (List.mem_singleton_self _)
    cases kind <;> first | exact he | trivial
  | type text =>
    rcases h with rfl | rfl <;> exact hes _ (List.mem_singleton_self _)
  | marker | keyword | symbol | lastComma => trivial

theorem Spells.legible {ls : List Lexeme} {es : List Entry} (h : Spells ls es)
    (hes : ∀ e ∈ es, e.Legible) : ∀ l ∈ ls, l.Legible := by
  induction ls generalizing es with
  | nil => nofun
  | cons l ls ih =>
    obtain ⟨first, rest, rfl, hl, hrest⟩ := h
    rw [List.forall_mem_append] at hes
    exact List.forall_mem_cons.2 ⟨hl.legible hes.1, ih hrest hes.2⟩

/-! ## Expressions -/

theorem oneLine_qualified {owner name : String} (howner : OneLine owner) (hname : OneLine name) :
    OneLine (owner ++ "." ++ name) :=
  oneLine_append.2 ⟨oneLine_append.2 ⟨howner, by decide⟩, hname⟩

/-- A scope whose names of types have no line feed. -/
structure LegibleScope (scope : Scope) : Prop where
  className : OneLine scope.className
  types : ∀ name symbol, scope.lookup? name = some symbol → OneLine symbol.declaredType

section

variable {scope : Scope} {pos : Nat}

theorem legible_constantOperand (value : KeywordConstant) :
    ∀ i ∈ (constantOperand value).code, i.Legible := by
  cases value <;>
    simp [constantOperand, Operand.code, UnaryOp.instruction, Instruction.Legible]

theorem legible_integerOperand {text : String} {o : Operand}
    (h : integerOperand text pos = .ok o) : ∀ i ∈ o.code, i.Legible := by
  unfold integerOperand at h
  split at h
  · cases h
    simp [Operand.code, Instruction.Legible]
  · cases h

theorem legible_appendChars (cs : List Char) : ∀ {string o : Operand},
    (∀ i ∈ string.code, i.Legible) → cs.foldlM (appendChar pos) string = .ok o →
    ∀ i ∈ o.code, i.Legible := by
  have happend : OneLine Os.appendChar := by decide
  induction cs with
  | nil =>
    intro string o hstring h
    cases h
    exact hstring
  | cons c cs ih =>
    intro string o hstring h
    obtain ⟨string', hstring', h⟩ := bind_eq_ok h
    refine ih ?_ h
    unfold appendChar at hstring'
    split at hstring'
    · cases hstring'
    · cases hstring'
      simpa [Operand.code, operandsCode, Instruction.Legible, or_imp, forall_and, happend]
        using hstring

theorem legible_stringOperand {text : String} {o : Operand} (h : stringOperand text pos = .ok o) :
    ∀ i ∈ o.code, i.Legible := by
  have hnew : OneLine Os.newString := by decide
  unfold stringOperand at h
  split at h
  · cases h
  · refine legible_appendChars text.toList ?_ h
    simp [Operand.code, operandsCode, Instruction.Legible, hnew]

theorem legible_binary (op : BinaryOp) : op.instruction.Legible := by
  cases op <;> simp only [BinaryOp.instruction, Instruction.Legible] <;> decide

theorem legible_unary (op : UnaryOp) : op.instruction.Legible := by
  cases op <;> trivial

theorem legible_callOperand (hscope : LegibleScope scope) {callee : Callee} {stop : Nat}
    {os : Except Fault (List Operand)} {o : Operand}
    (hcallee : ∀ l ∈ calleeLexemes callee, l.Legible)
    (hos : ∀ {os'}, os = .ok os' → ∀ i ∈ operandsCode os', i.Legible)
    (h : callOperand scope callee stop os = .ok o) : ∀ i ∈ o.code, i.Legible := by
  obtain ⟨os', hos', h⟩ := bind_eq_ok h
  have harguments := hos hos'
  cases callee with
  | own name =>
    have hname : OneLine name := hcallee _ (List.mem_singleton_self _)
    have hqualified : OneLine (scope.qualify name) := oneLine_qualified hscope.className hname
    rw [boundCall_eq_ok h]
    simp only [Operand.code, operandsCode, List.forall_mem_append, List.forall_mem_singleton]
    exact ⟨⟨trivial, harguments⟩, hqualified⟩
  | qualified receiver method =>
    have hreceiver : OneLine receiver := hcallee (.token .identifier receiver) (by simp [calleeLexemes])
    have hmethod : OneLine method := hcallee (.token .identifier method) (by simp [calleeLexemes])
    dsimp only at h
    cases hsymbol : scope.lookup? receiver with
    | some symbol =>
      have htype := hscope.types receiver symbol hsymbol
      rw [hsymbol] at h
      rw [boundCall_eq_ok h]
      simp only [Operand.code, operandsCode, slotOperand, List.forall_mem_append,
        List.forall_mem_singleton]
      exact ⟨⟨trivial, harguments⟩, oneLine_qualified htype hmethod⟩
    | none =>
      rw [hsymbol] at h
      cases h
      simp only [Operand.code, List.forall_mem_append, List.forall_mem_singleton]
      exact ⟨harguments, oneLine_qualified hreceiver hmethod⟩

mutual

theorem Term.legible (hscope : LegibleScope scope) : (t : Term) → (∀ l ∈ t.lexemes, l.Legible) →
    ∀ {pos o}, t.translate scope pos = .ok o → ∀ i ∈ o.code, i.Legible
  | .integer text, _, pos, o, h => legible_integerOperand h
  | .string text, _, pos, o, h => legible_stringOperand h
  | .constant value, _, pos, o, h => by
    cases h
    exact legible_constantOperand value
  | .variable name, _, pos, o, h => by
    obtain ⟨slot, -, rfl⟩ := map_eq_ok h
    exact List.forall_mem_singleton.2 trivial
  | .element name index, ht, pos, o, h => by
    obtain ⟨slot, -, h⟩ := bind_eq_ok h
    obtain ⟨i, hi, rfl⟩ := map_eq_ok h
    simp only [Term.lexemes, List.forall_mem_append] at ht
    have hindex := index.legible hscope ht.1.2 hi
    simp only [elementAddress, slotOperand, Operand.code, List.forall_mem_append,
      List.forall_mem_singleton]
    exact ⟨⟨⟨hindex, trivial⟩, trivial⟩, by simp [fetchElement, Instruction.Legible]⟩
  | .group inner, ht, pos, o, h => by
    simp only [Term.lexemes, List.forall_mem_append] at ht
    exact inner.legible hscope ht.1.2 h
  | .unary op operand, ht, pos, o, h => by
    obtain ⟨o', ho', rfl⟩ := map_eq_ok h
    simp only [Term.lexemes, List.forall_mem_append] at ht
    simp only [Operand.code, List.forall_mem_append, List.forall_mem_singleton]
    exact ⟨operand.legible hscope ht.2 ho', legible_unary op⟩
  | .call callee arguments, ht, pos, o, h => by
    simp only [Term.lexemes, List.forall_mem_append] at ht
    exact legible_callOperand hscope ht.1.1.1.2
      (fun hos => legible_translateArguments hscope arguments ht.1.2 hos) h

theorem Expression.legible (hscope : LegibleScope scope) : (e : Expression) →
    (∀ l ∈ e.lexemes, l.Legible) →
    ∀ {pos o}, e.translate scope pos = .ok o → ∀ i ∈ o.code, i.Legible
  | .mk first operations, he, pos, o, h => by
    obtain ⟨left, hleft, h⟩ := bind_eq_ok h
    simp only [Expression.lexemes, List.forall_mem_append] at he
    exact legible_translateOperations hscope operations he.2 (first.legible hscope he.1.2 hleft) h

theorem legible_translateOperations (hscope : LegibleScope scope) :
    (operations : List (BinaryOp × Term)) → (∀ l ∈ operationLexemes operations, l.Legible) →
    ∀ {pos left o}, (∀ i ∈ left.code, i.Legible) →
    translateOperations scope pos left operations = .ok o → ∀ i ∈ o.code, i.Legible
  | [], _, pos, left, o, hleft, h => by
    cases h
    exact hleft
  | (op, term) :: rest, hrest, pos, left, o, hleft, h => by
    obtain ⟨right, hright, h⟩ := bind_eq_ok h
    simp only [operationLexemes, List.forall_mem_append] at hrest
    refine legible_translateOperations hscope rest hrest.2 ?_ h
    simp only [Operand.code, List.forall_mem_append, List.forall_mem_singleton]
    exact ⟨⟨hleft, term.legible hscope hrest.1.2 hright⟩, legible_binary op⟩

theorem legible_translateArguments (hscope : LegibleScope scope) :
    (arguments : List Expression) → (∀ l ∈ argumentLexemes arguments, l.Legible) →
    ∀ {pos args os}, translateArguments scope pos args arguments = .ok os →
    ∀ i ∈ operandsCode os, i.Legible
  | [], _, pos, args, os, h => by
    cases h
    nofun
  | e :: rest, hrest, pos, args, os, h => by
    obtain ⟨o, ho, h⟩ := bind_eq_ok h
    simp only [argumentLexemes, List.forall_mem_append] at hrest
    split at h
    · cases h
    · obtain ⟨os', hos', rfl⟩ := map_eq_ok h
      simp only [operandsCode, List.forall_mem_append]
      exact ⟨e.legible hscope hrest.1.1 ho, legible_translateArguments hscope rest hrest.2 hos'⟩

end

/-! ## Statements -/

theorem oneLine_labelName {stem : String} (h : stem ∈ labelStems) (id : LabelId) :
    OneLine (stem ++ id.repr) := by
  have hstem : ∀ stem ∈ labelStems, OneLine stem := by decide
  exact oneLine_append.2 ⟨hstem stem h, Text.oneLine_repr id⟩

theorem legible_ifLabels (id : LabelId) : OneLine (IfLabels.ofId id).onTrue ∧
    OneLine (IfLabels.ofId id).onFalse ∧ OneLine (IfLabels.ofId id).done :=
  ⟨oneLine_labelName (by decide) id, oneLine_labelName (by decide) id,
    oneLine_labelName (by decide) id⟩

theorem legible_whileLabels (id : LabelId) :
    OneLine (WhileLabels.ofId id).condition ∧ OneLine (WhileLabels.ofId id).done :=
  ⟨oneLine_labelName (by decide) id, oneLine_labelName (by decide) id⟩

theorem legible_leaveWith {value : Option Operand}
    (h : ∀ o, value = some o → ∀ i ∈ o.code, i.Legible) :
    ∀ i ∈ (leaveWith scope value).code, i.Legible := by
  unfold leaveWith
  cases value with
  | none => split <;> simp [Command.code, Instruction.Legible]
  | some o =>
    have ho := h o rfl
    split <;> simp only [Command.code, List.forall_mem_append] <;>
      exact ⟨ho, by simp [discard, Instruction.Legible]⟩

mutual

theorem Statement.legible (hscope : LegibleScope scope) : (s : Statement) →
    (∀ l ∈ s.lexemes, l.Legible) →
    ∀ {labels pos cmd}, s.translate scope labels pos = .ok cmd → ∀ i ∈ cmd.code, i.Legible
  | .assign name value, hs, labels, pos, cmd, h => by
    obtain ⟨target, v, -, hv, rfl⟩ := Statement.translate_assign h
    simp only [Statement.lexemes, List.forall_mem_append] at hs
    simp only [Command.code, List.forall_mem_append, List.forall_mem_singleton]
    exact ⟨value.legible hscope hs.1.2 hv, trivial⟩
  | .assignElement name index value, hs, labels, pos, cmd, h => by
    obtain ⟨base, i, v, -, hi, hv, rfl⟩ := Statement.translate_assignElement h
    simp only [Statement.lexemes, List.forall_mem_append] at hs
    have hindex := index.legible hscope hs.1.1.1.2 hi
    have hvalue := value.legible hscope hs.1.2 hv
    simp only [Command.code, elementAddress, slotOperand, Operand.code, List.forall_mem_append,
      List.forall_mem_singleton]
    exact ⟨⟨⟨⟨hindex, trivial⟩, trivial⟩, hvalue⟩, by simp [storeElement, Instruction.Legible]⟩
  | .ifThen condition onTrue, hs, labels, pos, cmd, h => by
    obtain ⟨o, cmds, pos', ho, hcmds, rfl⟩ := Statement.translate_ifThen h
    simp only [Statement.lexemes, conditionLexemes, List.forall_mem_append] at hs
    have hcondition := condition.legible hscope hs.1.1.1.2.1.2 ho
    have hblock := legible_translateStatements hscope onTrue hs.1.2 hcmds
    obtain ⟨hTrue, hFalse, -⟩ := legible_ifLabels labels.peek
    simp only [Command.code, List.forall_mem_append, List.forall_mem_cons, List.not_mem_nil,
      false_implies, implies_true, and_true]
    exact ⟨⟨⟨hcondition, hTrue, hFalse, hTrue⟩, hblock⟩, hFalse⟩
  | .ifElse condition onTrue onFalse, hs, labels, pos, cmd, h => by
    obtain ⟨o, cmds, cmds', pos', pos'', ho, hcmds, hcmds', rfl⟩ := Statement.translate_ifElse h
    simp only [Statement.lexemes, conditionLexemes, List.forall_mem_append] at hs
    have hcondition := condition.legible hscope hs.1.1.1.1.1.2.1.2 ho
    have hblock := legible_translateStatements hscope onTrue hs.1.1.1.2 hcmds
    have hblock' := legible_translateStatements hscope onFalse hs.1.2 hcmds'
    obtain ⟨hTrue, hFalse, hdone⟩ := legible_ifLabels labels.peek
    simp only [Command.code, List.forall_mem_append, List.forall_mem_cons, List.not_mem_nil,
      false_implies, implies_true, and_true]
    exact ⟨⟨⟨⟨⟨hcondition, hTrue, hFalse, hTrue⟩, hblock⟩, hdone, hFalse⟩, hblock'⟩, hdone⟩
  | .loop condition body, hs, labels, pos, cmd, h => by
    obtain ⟨o, cmds, pos', ho, hcmds, rfl⟩ := Statement.translate_loop h
    simp only [Statement.lexemes, conditionLexemes, List.forall_mem_append] at hs
    have hcondition := condition.legible hscope hs.1.1.1.2.1.2 ho
    have hblock := legible_translateStatements hscope body hs.1.2 hcmds
    obtain ⟨hentry, hdone⟩ := legible_whileLabels labels.peek
    simp only [Command.code, List.forall_mem_append, List.forall_mem_cons, List.not_mem_nil,
      false_implies, implies_true, and_true]
    exact ⟨⟨⟨⟨hentry, hcondition⟩, trivial, hdone⟩, hblock⟩, hentry, hdone⟩
  | .doCall callee arguments, hs, labels, pos, cmd, h => by
    obtain ⟨o, stop, ho, rfl⟩ := Statement.translate_doCall h
    simp only [Statement.lexemes, callLexemes, List.forall_mem_append] at hs
    have hcall := legible_callOperand hscope hs.1.2.1.1.1
      (fun hos => legible_translateArguments hscope arguments hs.1.2.1.2 hos) ho
    simp only [Command.code, List.forall_mem_append, List.forall_mem_singleton]
    exact ⟨hcall, trivial⟩
  | .doExpression value, hs, labels, pos, cmd, h => by
    obtain ⟨o, ho, rfl⟩ := Statement.translate_doExpression h
    simp only [Statement.lexemes, List.forall_mem_append] at hs
    simp only [Command.code, List.forall_mem_append, List.forall_mem_singleton]
    exact ⟨value.legible hscope hs.1.2 ho, trivial⟩
  | .returnNothing, hs, labels, pos, cmd, h => by
    cases h
    exact legible_leaveWith nofun
  | .returnValue value, hs, labels, pos, cmd, h => by
    obtain ⟨o, ho, rfl⟩ := Statement.translate_returnValue h
    simp only [Statement.lexemes, List.forall_mem_append] at hs
    exact legible_leaveWith fun o' ho' => Option.some.inj ho' ▸ value.legible hscope hs.1.2 ho

theorem legible_translateStatements (hscope : LegibleScope scope) : (body : List Statement) →
    (∀ l ∈ statementLexemes body, l.Legible) →
    ∀ {labels pos cmds}, translateStatements scope labels pos body = .ok cmds →
    ∀ i ∈ commandsCode cmds, i.Legible
  | [], _, labels, pos, cmds, h => by
    cases h
    nofun
  | s :: rest, hbody, labels, pos, cmds, h => by
    obtain ⟨cmd, cmds', hcmd, hcmds', rfl⟩ := translateStatements_cons h
    simp only [statementLexemes, List.forall_mem_append] at hbody
    simp only [commandsCode, List.forall_mem_append]
    exact ⟨s.legible hscope hbody.1 hcmd, legible_translateStatements hscope rest hbody.2 hcmds'⟩

end

end

/-! ## Classes -/

theorem Variables.legible {vs : Variables} {kind : Storage} (h : ∀ l ∈ vs.lexemes, l.Legible) :
    ∀ d ∈ vs.declarations kind, OneLine d.declaredType := by
  intro d hd
  obtain ⟨name, -, rfl⟩ := List.mem_map.1 hd
  exact h (.type vs.declaredType) (by simp [Variables.lexemes])

theorem Class.legible_variables {c : Class} (h : ∀ l ∈ c.lexemes, l.Legible) :
    ∀ d ∈ c.variables, OneLine d.declaredType := by
  intro d hd
  obtain ⟨vs, hvs, hd⟩ := List.mem_flatMap.1 hd
  refine Variables.legible (fun l hl => h l ?_) d hd
  simp only [Class.lexemes, List.mem_append, List.mem_flatMap]
  exact .inl (.inl (.inr ⟨vs, hvs, List.mem_append_right _ hl⟩))

theorem mem_separated {α : Type} {item : α → List Lexeme} {xs : List α} {x : α} (hx : x ∈ xs)
    {l : Lexeme} (hl : l ∈ item x) : l ∈ separated item xs := by
  cases xs with
  | nil => cases hx
  | cons y rest =>
    rcases List.mem_cons.1 hx with rfl | hx
    · exact List.mem_append_left _ hl
    · exact List.mem_append_right _ (List.mem_flatMap.2 ⟨x, hx, List.mem_cons_of_mem _ hl⟩)

theorem Subroutine.legible_variables {className : String} {s : Subroutine}
    (hname : OneLine className) (h : ∀ l ∈ s.lexemes, l.Legible) :
    ∀ d ∈ s.variables className, OneLine d.declaredType := by
  simp only [Subroutine.lexemes, List.forall_mem_append] at h
  obtain ⟨⟨⟨⟨⟨⟨-, hparameters⟩, -⟩, hlocals⟩, -⟩, -⟩, -⟩ := h
  intro d hd
  rcases List.mem_append.1 hd with hd | hd
  · rcases List.mem_append.1 hd with hd | hd
    · unfold receiverVariables at hd
      split at hd
      · rw [List.mem_singleton.1 hd]
        exact hname
      · cases hd
    · obtain ⟨p, hp, rfl⟩ := List.mem_map.1 hd
      exact hparameters (.type p.1) (mem_separated hp (List.mem_cons_self ..))
  · obtain ⟨vs, hvs, hd⟩ := List.mem_flatMap.1 hd
    refine Variables.legible (fun l hl => hlocals l ?_) d hd
    exact List.mem_flatMap.2 ⟨vs, hvs, List.mem_append_right _ hl⟩

/-- The types of all variables that a subroutine sees are written in its class. -/
theorem legibleScope {c : Class} {s : Subroutine} {classTable : SymbolTable} {scope : Scope}
    {pos : Nat} (hclass : classTable.Lists c.symbols)
    (hscope : s.scope c.name classTable pos = .ok scope) (hc : ∀ l ∈ c.lexemes, l.Legible)
    (hs : ∀ l ∈ s.lexemes, l.Legible) : LegibleScope scope := by
  have hname : OneLine c.name := hc (.token .identifier c.name) (by simp [Class.lexemes])
  have hsubroutine := Subroutine.lists_symbols hscope
  obtain ⟨_, _, _, -, -, -, rfl⟩ := Subroutine.scope_ok hscope
  refine ⟨hname, fun name symbol hsymbol => ?_⟩
  rw [lookup?_eq hclass hsubroutine] at hsymbol
  rcases (Class.symbol?_eq_some hsymbol).1 with hmem | hmem
  · exact declaration_symbolsOf (P := fun d => OneLine d.declaredType)
      (Subroutine.legible_variables hname hs) symbol hmem
  · exact declaration_symbolsOf (P := fun d => OneLine d.declaredType)
      (Class.legible_variables hc) symbol hmem

theorem Subroutine.legible {c : Class} {s : Subroutine} {classTable : SymbolTable} {r : Routine}
    {labels : LabelSupply} {pos : Nat} (hclass : classTable.Lists c.symbols)
    (hc : ∀ l ∈ c.lexemes, l.Legible) (hs : ∀ l ∈ s.lexemes, l.Legible)
    (h : s.translate c.name classTable labels pos = .ok r) : ∀ i ∈ r.code, i.Legible := by
  obtain ⟨scope, cmds, pos', hscope, hcmds, rfl⟩ := Subroutine.translate_scope h
  have hlegible := legibleScope hclass hscope hc hs
  simp only [Subroutine.lexemes, List.forall_mem_append] at hs
  have hname : OneLine s.signature.name :=
    hs.1.1.1.1.1.1 (.token .identifier s.signature.name) (by simp)
  have halloc : OneLine Os.alloc := by decide
  have hprologue : ∀ fields, ∀ i ∈ commandsCode (prologue fields s.signature.kind), i.Legible := by
    intro fields
    rw [commandsCode_prologue]
    cases s.signature.kind <;> simp [SubroutineKind.prologue, Instruction.Legible, halloc]
  rw [Routine.code, List.forall_mem_cons, commandsCode_append, List.forall_mem_append]
  exact ⟨oneLine_qualified hlegible.className hname, hprologue _,
    legible_translateStatements hlegible s.body hs.1.2 hcmds⟩

/-- If no identifier and no type of a class has a line feed, then no name in its code has one. -/
theorem Class.legible {c : Class} {labels : LabelSupply} {rs : List Routine}
    (hc : ∀ l ∈ c.lexemes, l.Legible) (h : c.translate labels = .ok rs) :
    ∀ i ∈ routinesCode rs, i.Legible := by
  obtain ⟨table, htable, hrs⟩ := bind_eq_ok h
  have hsubroutines : ∀ s ∈ c.subroutines, ∀ l ∈ s.lexemes, l.Legible := by
    intro s hs l hl
    apply hc l
    simp only [Class.lexemes, List.mem_append, List.mem_flatMap]
    exact .inl (.inr ⟨s, hs, hl⟩)
  have hclass := Class.lists_symbols htable
  have hroutines := forall₂_translateSubroutines c.subroutines hrs
  generalize c.subroutines = ss at hsubroutines hroutines
  clear h hrs
  induction hroutines with
  | nil => nofun
  | cons hr _ ih =>
    obtain ⟨labels, pos, hr⟩ := hr
    rw [List.forall_mem_cons] at hsubroutines
    rw [routinesCode, List.flatMap_cons, List.forall_mem_append]
    exact ⟨Subroutine.legible hclass hc hsubroutines.1 hr, ih hsubroutines.2⟩

end Grammar

end Jack
