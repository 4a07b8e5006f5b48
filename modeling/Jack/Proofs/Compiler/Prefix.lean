import Jack.Proofs.Compiler.Calls
import Jack.Proofs.Compiler.Independence
import Jack.Proofs.Compiler.Truncation.Procedure

/-!
# Trees that are cut off

A tree that compiles does not compile any more if only its first entries are kept. The fault says
that an entry is missing, unless the last entry is the first identifier of a call: then it is taken
for a variable that is not declared.
-/

namespace Jack

open Grammar (LeadsCall Spells)

variable {labels labels' : Vm.LabelSupply} {unit : ClassCode}

/-- Where all entries compile, those kept fail, and it is known why. -/
theorem compileEntries_kept {w : Cut} (hlost : w.lost ≠ [])
    (h : (compileEntries labels w.whole).result = .ok unit) :
    ∃ fault, (compileEntries labels w.kept).result = .error fault ∧ w.Excuses fault := by
  let s : CompilerState := { cursor := { rest := w.kept }, labels }
  have hstart : w.fork.At 0 s := by
    refine ⟨?_, Nat.zero_le _⟩
    rw [Cut.entries_fork]
    rfl
  have hcover : w.kept.length ≤ w.whole.length := by
    rw [Cut.whole, List.length_append]
    exact Nat.le_add_right ..
  have hrun := Cut.truncates_classDec hlost (Nat.le_refl _) hcover s hstart _ .along
  unfold compileEntries at h ⊢
  have htwin : w.fork.twin s = { cursor := { rest := w.whole }, labels } := rfl
  rw [htwin] at hrun
  generalize (Compiler.classDec w.kept.length).run s = r at hrun ⊢
  generalize (Compiler.classDec w.whole.length).run _ = r' at hrun h
  cases hrun with
  | along _ _ hfalse => exact hfalse.elim
  | apart hfalse => exact hfalse.elim
  | excused hfault => exact ⟨_, rfl, hfault⟩
  | failed => cases h

/-- No tree that compiles is cut off anywhere to give another one that does. A tree with the first
entries only, but not all of them, fails because it ends too early, or because its last entry is an
unknown name that leads a call inside an expression of the whole tree. -/
theorem compile_truncated {root root' : Node} {options : Options}
    (h : (compile labels root options).result = .ok unit)
    (hbegins : root'.preorder <+: root.preorder) (hstrict : root'.preorder ≠ root.preorder) :
    ∃ fault, (compile labels' root' options).result = .error fault ∧
      ((∃ expected, fault = .endOfTree expected) ∨
        ∃ index name, index + 1 = root'.size ∧ fault = .unresolved name (.ofIndex index) ∧
          LeadsCall (options.entries root) index name) := by
  obtain ⟨lost, hlost⟩ := hbegins
  let w : Cut := ⟨options.entries root', lost.map options.entry⟩
  have hwhole : w.whole = options.entries root := by
    rw [Options.entries_eq_map, ← hlost, List.map_append, ← Options.entries_eq_map]
    rfl
  have hne : w.lost ≠ [] := by
    intro hnil
    rw [List.map_eq_nil_iff] at hnil
    rw [hnil, List.append_nil] at hlost
    exact hstrict hlost
  -- It compiles under the other supply as well.
  have hwholeResult : ∃ code', (compileEntries labels' w.whole).result =
      .ok ⟨unit.className, code'⟩ := by
    rw [compile_eq] at h
    obtain ⟨code', hresult, -⟩ := (Comparison.agree ⟨options.entries root, labels, labels'⟩).result h
    exact ⟨code', hwhole ▸ hresult⟩
  obtain ⟨code', hcode'⟩ := hwholeResult
  obtain ⟨c, -, hspells, -⟩ := compileEntries_ok hcode'
  obtain ⟨fault, hfault, hexcuses⟩ := compileEntries_kept hne hcode'
  refine ⟨fault, hfault, ?_⟩
  cases hexcuses with
  | endOfTree expected => exact .inl ⟨expected, rfl⟩
  | @unresolved n name e hend hterm hname hcall he =>
    have hsize : n + 1 + 1 = root'.size := by
      rw [hend, Node.size_eq_length_preorder, ← length_entries options root']
    have hleads := Grammar.Class.leadsCall hspells hterm hname hcall he
    exact .inr ⟨n + 1, name, hsize, rfl, hwhole ▸ hleads⟩

/-- `class Main { function int f(int x) { return Main`, where the tree ends. -/
def cutCallTree : Node :=
  .production .classDec
    [.token .keyword "class", .token .identifier "Main", .token .symbol openBrace,
      .production .subroutineDec
        [.token .keyword "function", .token .keyword "int", .token .identifier "f",
          .token .symbol "(",
          .production .parameterList [.token .keyword "int", .token .identifier "x"],
          .token .symbol ")",
          .production .subroutineBody
            [.token .symbol openBrace,
              .production .statements
                [.production .returnStatement
                  [.token .keyword "return",
                    .production .expression [.production .term [.token .identifier "Main"]]]]]]]

theorem compile_truncated_cutCallTree :
    (compile (.sequential 0) lastCommaTree).result = .ok lastCommaUnit ∧
      cutCallTree.preorder <+: lastCommaTree.preorder ∧
      cutCallTree.preorder ≠ lastCommaTree.preorder ∧
      (compile (.sequential 0) cutCallTree).result = .error (.unresolved "Main" ⟨20⟩) ∧
      ∃ fault, (compile (.sequential 0) cutCallTree).result = .error fault ∧
        ((∃ expected, fault = .endOfTree expected) ∨
          ∃ index name, index + 1 = cutCallTree.size ∧ fault = .unresolved name (.ofIndex index) ∧
            LeadsCall (({} : Options).entries lastCommaTree) index name) := by
  have hbegins : cutCallTree.preorder <+: lastCommaTree.preorder :=
    ⟨lastCommaTree.preorder.drop 21, by decide⟩
  have hstrict : cutCallTree.preorder ≠ lastCommaTree.preorder := by decide
  exact ⟨result_lastCommaTree, hbegins, hstrict, by rfl,
    compile_truncated result_lastCommaTree hbegins hstrict⟩

end Jack
