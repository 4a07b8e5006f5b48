import Jack.Proofs.Grammar.Calls

/-!
# Where the calls of a class stand

Every call is spelled somewhere among the entries of the class: its callee, then its arguments in
parentheses, with a comma between any two and at most one comma after the last.
-/

namespace Jack.Grammar

variable {ls ls' ls₁ ls₂ : List Lexeme} {callee : Callee} {arguments : List Expression}

theorem infix_left (h : ls <:+: ls₁) : ls <:+: ls₁ ++ ls₂ :=
  h.trans (List.prefix_append ..).isInfix

theorem infix_right (h : ls <:+: ls₂) : ls <:+: ls₁ ++ ls₂ :=
  h.trans (List.suffix_append ..).isInfix

theorem infix_between (h : ls <:+: ls') : ls <:+: ls₁ ++ ls' ++ ls₂ := infix_left (infix_right h)

/-! ## Entries of a part -/

theorem Spells.split : ∀ {ls ls' : List Lexeme} {es : List Entry}, Spells (ls ++ ls') es →
    ∃ es₁ es₂, es = es₁ ++ es₂ ∧ Spells ls es₁ ∧ Spells ls' es₂
  | [], ls', es, h => ⟨[], es, rfl, rfl, h⟩
  | l :: ls, ls', es, h => by
    obtain ⟨first, rest, rfl, hl, hrest⟩ := h
    obtain ⟨es₁, es₂, rfl, h₁, h₂⟩ := Spells.split hrest
    exact ⟨first ++ es₁, es₂, (List.append_assoc ..).symm, .cons hl h₁, h₂⟩

/-- Lexemes that stand among others are spelled by a part of the entries. -/
theorem Spells.of_infix {es : List Entry} (h : Spells ls' es) (hls : ls <:+: ls') :
    ∃ before part after, es = before ++ part ++ after ∧ Spells ls part := by
  obtain ⟨ls₁, ls₂, rfl⟩ := hls
  obtain ⟨es₁, after, rfl, h₁, -⟩ := h.split
  obtain ⟨before, part, rfl, -, hpart⟩ := h₁.split
  exact ⟨before, part, after, rfl, hpart⟩

/-! ## Calls in expressions -/

/-- The arguments stand in the parentheses. -/
theorem infix_callLexemes (h : ls <:+: argumentLexemes arguments) :
    ls <:+: callLexemes callee arguments := infix_between h

theorem not_mem_stringInvocations (text : String) :
    .source callee arguments ∉ stringInvocations text := by
  simp [stringInvocations]

theorem not_mem_operatorInvocations (op : BinaryOp) :
    .source callee arguments ∉ operatorInvocations op := by
  cases op <;> simp [operatorInvocations]

/-- A call is the last among those that it and its arguments make. -/
theorem infix_call {callee' : Callee} {arguments' : List Expression}
    (hmem : .source callee arguments ∈
      argumentInvocations arguments' ++ [.source callee' arguments'])
    (harguments : .source callee arguments ∈ argumentInvocations arguments' →
      callLexemes callee arguments <:+: argumentLexemes arguments') :
    callLexemes callee arguments <:+: callLexemes callee' arguments' := by
  rcases List.mem_append.1 hmem with hmem | hmem
  · exact infix_callLexemes (harguments hmem)
  · cases List.mem_singleton.1 hmem
    exact List.infix_rfl

mutual

theorem Term.infix_call : (t : Term) → .source callee arguments ∈ t.invocations →
    callLexemes callee arguments <:+: t.lexemes
  | .integer _, h | .constant _, h | .variable _, h => by cases h
  | .string text, h => absurd h (not_mem_stringInvocations text)
  | .element _ index, h => infix_between (index.infix_call h)
  | .group inner, h => infix_between (inner.infix_call h)
  | .unary _ operand, h => infix_right (operand.infix_call h)
  | .call callee' arguments', h => by
    have hterm : (Term.call callee' arguments').lexemes =
        [.marker .term] ++ callLexemes callee' arguments' := by
      simp only [Term.lexemes, callLexemes, List.append_assoc]
    rw [hterm]
    exact infix_right (Jack.Grammar.infix_call h (infix_arguments arguments'))

theorem Expression.infix_call : (e : Expression) → .source callee arguments ∈ e.invocations →
    callLexemes callee arguments <:+: e.lexemes
  | .mk first operations, h => by
    rcases List.mem_append.1 h with h | h
    · exact infix_between (first.infix_call h)
    · exact infix_right (infix_operations operations h)

theorem infix_operations : (operations : List (BinaryOp × Term)) →
    .source callee arguments ∈ operationInvocations operations →
    callLexemes callee arguments <:+: operationLexemes operations
  | [], h => by cases h
  | (op, term) :: rest, h => by
    rcases List.mem_append.1 h with h | h
    · rcases List.mem_append.1 h with h | h
      · exact infix_between (term.infix_call h)
      · exact absurd h (not_mem_operatorInvocations op)
    · exact infix_right (infix_operations rest h)

theorem infix_arguments : (arguments' : List Expression) →
    .source callee arguments ∈ argumentInvocations arguments' →
    callLexemes callee arguments <:+: argumentLexemes arguments'
  | [], h => by cases h
  | e :: rest, h => by
    rcases List.mem_append.1 h with h | h
    · exact infix_left (infix_left (e.infix_call h))
    · exact infix_right (infix_arguments rest h)

end

/-! ## Calls in statements -/

mutual

theorem Statement.infix_call : (s : Statement) → .source callee arguments ∈ s.invocations →
    callLexemes callee arguments <:+: s.lexemes
  | .assign _ value, h | .doExpression value, h | .returnValue value, h =>
    infix_between (value.infix_call h)
  | .assignElement _ index value, h => by
    rcases List.mem_append.1 h with h | h
    · exact infix_left (infix_left (infix_between (index.infix_call h)))
    · exact infix_between (value.infix_call h)
  | .ifThen condition onTrue, h => by
    rcases List.mem_append.1 h with h | h
    · exact infix_left (infix_left (infix_left
        (infix_right (infix_between (condition.infix_call h)))))
    · exact infix_between (infix_statements onTrue h)
  | .ifElse condition onTrue onFalse, h => by
    rcases List.mem_append.1 h with h | h
    · rcases List.mem_append.1 h with h | h
      · exact infix_left (infix_left (infix_left (infix_left (infix_left
          (infix_right (infix_between (condition.infix_call h)))))))
      · exact infix_left (infix_left (infix_between (infix_statements onTrue h)))
    · exact infix_between (infix_statements onFalse h)
  | .loop condition body, h => by
    rcases List.mem_append.1 h with h | h
    · exact infix_left (infix_left (infix_left
        (infix_right (infix_between (condition.infix_call h)))))
    · exact infix_between (infix_statements body h)
  | .doCall callee' arguments', h =>
    infix_between (Jack.Grammar.infix_call h (infix_arguments arguments'))
  | .returnNothing, h => by cases h

theorem infix_statements : (body : List Statement) →
    .source callee arguments ∈ statementInvocations body →
    callLexemes callee arguments <:+: statementLexemes body
  | [], h => by cases h
  | s :: rest, h => by
    rcases List.mem_append.1 h with h | h
    · exact infix_left (s.infix_call h)
    · exact infix_right (infix_statements rest h)

end

/-! ## Calls in a class -/

theorem Subroutine.infix_call (s : Subroutine) (h : .source callee arguments ∈ s.invocations) :
    callLexemes callee arguments <:+: s.lexemes := by
  rcases List.mem_append.1 h with h | h
  · unfold prologueInvocations at h
    split at h <;> simp at h
  · exact infix_between (infix_statements s.body h)

theorem Class.infix_call {c : Class} {s : Subroutine} (hs : s ∈ c.subroutines)
    (h : .source callee arguments ∈ s.invocations) :
    callLexemes callee arguments <:+: c.lexemes := by
  obtain ⟨before, after, hsubroutines⟩ := List.append_of_mem hs
  have hinfix : s.lexemes <:+: c.subroutines.flatMap Subroutine.lexemes := by
    rw [hsubroutines, List.flatMap_append, List.flatMap_cons]
    exact infix_right (List.prefix_append ..).isInfix
  exact infix_between ((s.infix_call h).trans hinfix)

end Jack.Grammar
