import Jack.Proofs.Grammar.Basic

/-!
# Where subroutines begin

The marker of a subroutine stands at its beginning and nowhere else, so that the entries of a class
show where one subroutine ends and the next begins.
-/

namespace Jack

/-- The first entry of a subroutine. -/
def routineMarker : Entry := .production .subroutineDec

/-- The entries begin a subroutine, and no other one after it. -/
def IsRoutine (es : List Entry) : Prop := ∃ tail, es = routineMarker :: tail ∧ routineMarker ∉ tail

namespace Grammar

theorem Lexeme.Reads.marker_of_mem {l : Lexeme} {es : List Entry} {p : Production}
    (h : l.Reads es) (hp : Entry.production p ∈ es) : l = .marker p := by
  cases l with
  | marker kind =>
    obtain rfl : es = [.production kind] := h
    cases List.mem_singleton.1 hp
    rfl
  | keyword text | symbol text =>
    obtain ⟨kind, rfl⟩ := h
    cases List.mem_singleton.1 hp
  | token kind text =>
    obtain rfl : es = [.token kind text] := h
    cases List.mem_singleton.1 hp
  | type text =>
    rcases h with rfl | rfl
    · cases List.mem_singleton.1 hp
    · cases List.mem_singleton.1 hp
  | lastComma =>
    rcases h with rfl | rfl
    · cases hp
    · cases List.mem_singleton.1 hp

/-- Entries have no other markers than their lexemes. -/
theorem Spells.marker_mem {ls : List Lexeme} {es : List Entry} {p : Production} (h : Spells ls es)
    (hp : Entry.production p ∈ es) : Lexeme.marker p ∈ ls := by
  induction ls generalizing es with
  | nil =>
    rw [show es = [] from h] at hp
    cases hp
  | cons l ls ih =>
    obtain ⟨first, rest, rfl, hl, hrest⟩ := h
    rcases List.mem_append.1 hp with hp | hp
    · rw [hl.marker_of_mem hp]
      exact List.mem_cons_self ..
    · exact List.mem_cons_of_mem _ (ih hrest hp)

theorem notMem_separated {α : Type} {p : Production} {item : α → List Lexeme}
    (h : ∀ x, Lexeme.marker p ∉ item x) (xs : List α) : Lexeme.marker p ∉ separated item xs := by
  cases xs with
  | nil => exact List.not_mem_nil
  | cons x rest => simp [separated, h]

/-! ## Lexemes of a body -/

mutual

theorem Term.notMem_lexemes : (t : Term) → Lexeme.marker .subroutineDec ∉ t.lexemes
  | .integer _ | .string _ | .constant _ | .variable _ => by simp [Term.lexemes]
  | .element _ index => by simp [Term.lexemes, index.notMem_lexemes]
  | .group inner => by simp [Term.lexemes, inner.notMem_lexemes]
  | .unary _ operand => by simp [Term.lexemes, operand.notMem_lexemes]
  | .call callee arguments => by
    cases callee <;> simp [Term.lexemes, calleeLexemes, notMem_arguments arguments]

theorem Expression.notMem_lexemes : (e : Expression) → Lexeme.marker .subroutineDec ∉ e.lexemes
  | .mk first operations => by
    simp [Expression.lexemes, first.notMem_lexemes, notMem_operations operations]

theorem notMem_operations : (operations : List (BinaryOp × Term)) →
    Lexeme.marker .subroutineDec ∉ operationLexemes operations
  | [] => List.not_mem_nil
  | (_, term) :: rest => by
    simp [operationLexemes, term.notMem_lexemes, notMem_operations rest]

theorem notMem_arguments : (arguments : List Expression) →
    Lexeme.marker .subroutineDec ∉ argumentLexemes arguments
  | [] => List.not_mem_nil
  | e :: rest => by
    have hseparator : Lexeme.marker .subroutineDec ≠ separator rest := by cases rest <;> nofun
    simp [argumentLexemes, e.notMem_lexemes, notMem_arguments rest, hseparator]

end

theorem notMem_condition (e : Expression) :
    Lexeme.marker .subroutineDec ∉ conditionLexemes e := by
  simp [conditionLexemes, e.notMem_lexemes]

mutual

theorem Statement.notMem_lexemes : (s : Statement) → Lexeme.marker .subroutineDec ∉ s.lexemes
  | .assign _ value => by simp [Statement.lexemes, value.notMem_lexemes]
  | .assignElement _ index value => by
    simp [Statement.lexemes, index.notMem_lexemes, value.notMem_lexemes]
  | .ifThen condition onTrue => by
    simp [Statement.lexemes, notMem_condition condition, notMem_statements onTrue]
  | .ifElse condition onTrue onFalse => by
    simp [Statement.lexemes, notMem_condition condition, notMem_statements onTrue,
      notMem_statements onFalse]
  | .loop condition body => by
    simp [Statement.lexemes, notMem_condition condition, notMem_statements body]
  | .doCall callee arguments => by
    cases callee <;>
      simp [Statement.lexemes, callLexemes, calleeLexemes, notMem_arguments arguments]
  | .doExpression value => by simp [Statement.lexemes, value.notMem_lexemes]
  | .returnNothing => by simp [Statement.lexemes]
  | .returnValue value => by simp [Statement.lexemes, value.notMem_lexemes]

theorem notMem_statements : (body : List Statement) →
    Lexeme.marker .subroutineDec ∉ statementLexemes body
  | [] => List.not_mem_nil
  | s :: rest => by simp [statementLexemes, s.notMem_lexemes, notMem_statements rest]

end

theorem Variables.notMem_lexemes (vs : Variables) :
    Lexeme.marker .subroutineDec ∉ vs.lexemes := by
  simp [Variables.lexemes, notMem_separated, nameLexemes]

theorem ClassVariables.notMem_lexemes (vs : ClassVariables) :
    Lexeme.marker .subroutineDec ∉ vs.lexemes := by
  simp [ClassVariables.lexemes, vs.declared.notMem_lexemes]

/-- Whatever entries spell a subroutine, they begin with its marker, and there is no other. -/
theorem Subroutine.isRoutine {s : Subroutine} {es : List Entry} (h : Spells s.lexemes es) :
    IsRoutine es := by
  obtain ⟨first, tail, rfl, rfl, htail⟩ := h
  refine ⟨tail, rfl, fun hmem => ?_⟩
  have hparameters : Lexeme.marker .subroutineDec ∉ separated parameterLexemes s.parameters :=
    notMem_separated (fun p => by simp [parameterLexemes]) s.parameters
  have hlocals : Lexeme.marker .subroutineDec ∉ s.locals.flatMap localLexemes := by
    simp [localLexemes, Variables.notMem_lexemes]
  have hbody := notMem_statements s.body
  have hlexeme := htail.marker_mem hmem
  simp [hparameters, hlocals, hbody] at hlexeme

end Grammar

end Jack
