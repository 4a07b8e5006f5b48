import Jack.Proofs.Compiler.Meaning
import Jack.Proofs.Grammar.Value
import Jack.Proofs.Vm.Functions

/-!
# Compiled expressions leave their value

The code of an expression that compiles runs to its end wherever it is placed, and leaves the value
that the expression has if its operators are applied from left to right. Apart from what the calls
in it do, it changes nothing but `pointer 1`.
-/

namespace Jack

open Grammar Vm

/-- The layout functions build a tree whose entries spell the expression. -/
theorem Grammar.finish_expression (e : Expression) (h : ∀ callee ∈ e.callees, callee.Splits) :
    ∃ root, (Assembly.expression {} e.fill).finish = .ok root ∧
      root.preorder = written e.lexemes := by
  obtain ⟨root, hroot, hentries⟩ := (e.adds_fill h).fills.finish .expression
  exact ⟨root, hroot, hentries.trans (written_expression e).symm⟩

/-- The code that is emitted for an expression leaves the value of the expression. -/
theorem Compiler.expression_evaluates {scope : Scope} {e : Expression} {root : Node}
    {bound n : Nat} {rest : List Entry} {labels : LabelSupply} {code : Code}
    {notices : Array Notice} {s : CompilerState}
    (hcallees : ∀ callee ∈ e.callees, callee.Splits)
    (hroot : (Assembly.expression {} e.fill).finish = .ok root)
    (hbound : root.size ≤ bound) (hrest : EndsExpression rest)
    (hrun : (Compiler.expression scope bound).run
      ⟨⟨root.preorder ++ rest, n⟩, labels, code, notices⟩ = .ok () s) :
    ∃ piece, s.code = code.extend piece ∧
      ∀ (functions : Functions) (before after : List Instruction) (stack : List Word) (m : Memory)
        (that temp : Word),
        ∃ w m' that' temp', e.eval functions.world scope (m, temp) = some (w, m', temp') ∧
          Machine.Runs functions.calls (before ++ (piece ++ after))
            ⟨before.length, stack, m, ⟨that, temp⟩⟩
            ⟨before.length + piece.length, w :: stack, m', ⟨that', temp'⟩⟩ ∧
          functions.world.Effects (m, temp) (m', temp') := by
  obtain ⟨root', hroot', hentries⟩ := finish_expression e hcallees
  cases hroot.symm.trans hroot'
  have hsize : e.size ≤ bound + 1 := by
    rw [Node.size_eq_length_preorder, hentries] at hbound
    rw [Expression.size]
    omega
  have hmeets := @Compiler.expression_meets labels notices scope e bound n code rest hsize hrest
  rw [hentries] at hrun
  rw [hrun] at hmeets
  rcases hmeets.ok_or_error with ⟨o, _, _, ho, hs, rfl⟩ | ⟨_, _, _, hs⟩
  · cases hs
    refine ⟨o.code, rfl, ?_⟩
    intro functions before after stack m that temp
    obtain ⟨w, ⟨m', temp'⟩, heval⟩ :=
      @Expression.exists_eval _ functions.world scope e n o ho (m, temp)
    have hoperand : o.eval functions.world (m, temp) = some (w, m', temp') := by
      rw [e.eval_translate ho, heval]
    have hplaced : Placed (before ++ (o.code ++ after)) before.length o.code := by
      have hlabels : definedLabels o.code = [] := o.definedLabels_code
      apply placed_append
      · rw [hlabels]
        exact .nil
      · rw [hlabels]
        exact List.forall_mem_nil _
    obtain ⟨that', hruns⟩ := Operand.runs that hplaced hoperand
    exact ⟨w, m', that', temp', heval, hruns, o.effects hoperand⟩
  · cases hs

/-! An expression whose operands call, move `pointer 1` and change `temp 0`. -/

/-- Multiplication, and a counter in `static 0` that all other calls return together with `temp 0`.
Every call adds one to both. -/
def countingFunctions : Functions where
  result name args m temp :=
    if name = Os.multiply then args.foldl (· * ·) 1 else temp + m.statics 0
  statics _ _ m _ := Function.update m.statics 0 (m.statics 0 + 1)
  heap _ _ m _ := m.heap
  temp _ _ _ temp := temp + 1
  that _ _ _ _ := 0

/-- `2 - Main.f(a[1]) * -Main.f(a[1])` -/
def countingExpression : Expression :=
  let call : Term := .call (.qualified "Main" "f") [.mk (arrayRead "1") []]
  .mk (.integer "2") [(.sub, call), (.mul, .unary .neg call)]

/-- From left to right this is `(2 - 5) * -7`, because the second call already sees what the first
one has changed. -/
theorem Compiler.expression_evaluates_countingExpression : ∃ root s,
    (∀ callee ∈ countingExpression.callees, callee.Splits) ∧
      (Assembly.expression {} countingExpression.fill).finish = .ok root ∧ root.size ≤ 100 ∧
      EndsExpression [.token .symbol ";"] ∧
      (Compiler.expression arrayScope 100).run
        ⟨⟨root.preorder ++ [.token .symbol ";"], 0⟩, .sequential 0, {}, #[]⟩ = .ok () s ∧
      ∃ m' that', m'.statics 0 = 3 ∧ Machine.Runs countingFunctions.calls s.code.toList
        ⟨0, [1], emptyMemory, ⟨7, 5⟩⟩ ⟨s.code.size, [21, 1], m', ⟨that', 8⟩⟩ := by
  have hcallees : ∀ callee ∈ countingExpression.callees, callee.Splits := by decide
  obtain ⟨root, hroot, hentries⟩ := finish_expression countingExpression hcallees
  have hsize : root.size ≤ 100 := by
    rw [Node.size_eq_length_preorder, hentries]
    decide
  have hrest : EndsExpression [.token .symbol ";"] :=
    endsExpression_symbol (by decide) (by decide)
  obtain ⟨s, hs⟩ : ∃ s, (Compiler.expression arrayScope 100).run
      ⟨⟨root.preorder ++ [.token .symbol ";"], 0⟩, .sequential 0, {}, #[]⟩ = .ok () s := by
    rw [hentries]
    exact ⟨_, rfl⟩
  obtain ⟨piece, hpiece, hruns⟩ := Compiler.expression_evaluates hcallees hroot hsize hrest hs
  have hcode : s.code.toList = piece := by
    rw [hpiece, Code.toList_extend]
    rfl
  obtain ⟨w, m', that', temp', heval, hrun, -⟩ :=
    hruns countingFunctions [] [] [1] emptyMemory 7 5
  obtain ⟨rfl, hm', rfl⟩ : w = 21 ∧ m'.statics 0 = 3 ∧ temp' = 8 := by
    cases heval
    exact ⟨by decide, by decide, by decide⟩
  rw [List.append_nil, List.nil_append, List.length_nil, Nat.zero_add, ← hcode,
    Code.length_toList] at hrun
  exact ⟨root, s, hcallees, hroot, hsize, hrest, hs, m', that', hm', hrun⟩

end Jack
