import Jack.Proofs.Compiler.Independence
import Jack.Proofs.Compiler.Local.Procedure

/-!
# Where a compilation fails

A compilation that fails reports the first thing that is wrong. Its fault describes the entry that
it names, and depends on nothing behind the entry after that one.
-/

namespace Jack

variable {labels : Vm.LabelSupply} {entries entries' : List Entry} {fault : Fault} {pos : Position}

theorem Fault.About.le {index : Nat} (h : fault.About entries index) : index ≤ entries.length := by
  have hentry {e : Entry} (he : entries[index]? = some e) : index ≤ entries.length :=
    Nat.le_of_lt (List.getElem?_eq_some_iff.1 he).1
  cases fault with
  | mismatch expected found pos => exact hentry h.choose_spec.1
  | endOfTree expected => exact h.elim
  | unresolved name pos => exact hentry h
  | constantRange value pos =>
    obtain hinteger | ⟨text, hstring, -⟩ := h
    · exact hentry hinteger
    · exact hentry hstring
  | limit what pos =>
    obtain ⟨kind, name, ls, -, hname, -⟩ | ⟨-, hle, -⟩ := h
    · exact hentry hname
    · exact hle

/-- Sequences that begin alike are the same if the first ends there. -/
theorem eq_of_take_eq {n : Nat} (h : entries'.take n = entries.take n) (hn : entries.length < n) :
    entries' = entries := by
  rw [List.take_of_length_le (Nat.le_of_lt hn)] at h
  have hlength := congrArg List.length h
  rw [List.length_take] at hlength
  rw [← h, List.take_of_length_le (by omega)]

/-- A compilation of the first sequence that fails is repeated on the second one, if the fault names
an entry whose successor is common. -/
theorem compileEntries_fork (w : Fork)
    (hresult : (compileEntries labels w.entries).result = .error fault)
    (hpos : fault.pos? = some pos) :
    ∃ p, pos = .ofIndex p ∧ fault.About w.entries p ∧
      (p + 1 < w.common.length →
        compileEntries labels w.entries' = compileEntries labels w.entries) := by
  let s : CompilerState := { cursor := { rest := w.entries }, labels }
  have hstart : w.At 0 s := ⟨rfl, Nat.zero_le _⟩
  have hcover : w.common.length ≤ w.entries'.length := by
    rw [Fork.entries', List.length_append]
    exact Nat.le_add_right ..
  have hrun := Fork.localFrom_classDec (Nat.le_refl _) hcover 0 (Nat.le_refl 0) s hstart
  unfold compileEntries at hresult ⊢
  cases hclass : (Compiler.classDec w.entries.length).run s with
  | ok name t =>
    rw [hclass] at hresult
    cases hresult
  | error fault' t =>
    rw [hclass] at hresult hrun
    cases hresult
    obtain ⟨p, hp, -, habout, htwin⟩ := hrun pos hpos
    refine ⟨p, hp, habout, fun hlt => ?_⟩
    have hclass' : (Compiler.classDec w.entries'.length).run
        { cursor := { rest := w.entries' }, labels } = .error fault (w.twin t) := htwin hlt
    rw [hclass']
    rfl

theorem compileEntries_local (hsize : entries.length < UInt32.size)
    (hresult : (compileEntries labels entries).result = .error fault)
    (hpos : fault.pos? = some pos)
    (hagree : entries'.take (pos.index + 2) = entries.take (pos.index + 2)) :
    fault.About entries pos.index ∧
      compileEntries labels entries' = compileEntries labels entries := by
  let w : Fork := ⟨entries.take (pos.index + 2), entries.drop (pos.index + 2),
    entries'.drop (pos.index + 2)⟩
  have hentries : w.entries = entries := List.take_append_drop ..
  have hentries' : w.entries' = entries' := by
    show entries.take (pos.index + 2) ++ entries'.drop (pos.index + 2) = entries'
    rw [← hagree, List.take_append_drop]
  rw [← hentries] at hresult
  obtain ⟨p, hp, habout, hlocal⟩ := compileEntries_fork w hresult hpos
  rw [hentries] at habout hlocal
  rw [hentries'] at hlocal
  -- The position has kept the whole index.
  have hindex : pos.index = p := by
    rw [hp, Position.index_ofIndex, Nat.mod_eq_of_lt (Nat.lt_of_le_of_lt habout.le hsize)]
  refine ⟨hindex ▸ habout, ?_⟩
  by_cases hlong : p + 1 < entries.length
  · apply hlocal
    rw [List.length_take]
    omega
  · -- The first sequence ends before the last entry that counts, and so does the second.
    rw [eq_of_take_eq hagree (by omega)]

/-- A tree of fewer than 2^32 nodes that does not compile fails with a fault that describes the node
it names, unless the tree is only too short. Every other tree that has the same entries up to the
one after that node, or ends there as well, fails in the same way. -/
theorem compile_local {root : Node} {options : Options} (hsize : root.size < UInt32.size)
    (hresult : (compile labels root options).result = .error fault)
    (hpos : fault.pos? = some pos) :
    fault.About (options.entries root) pos.index ∧
      ∀ root' : Node, (∀ i ≤ pos.index + 1, root'.preorder[i]? = root.preorder[i]?) →
        compile labels root' options = compile labels root options := by
  rw [compile_eq] at hresult
  have hlength : (options.entries root).length < UInt32.size := by
    rwa [length_entries, ← Node.size_eq_length_preorder]
  refine ⟨(compileEntries_local hlength hresult hpos rfl).1, fun root' hagree => ?_⟩
  have htake : (options.entries root').take (pos.index + 2) =
      (options.entries root).take (pos.index + 2) := by
    apply List.ext_getElem?
    intro i
    simp only [Options.entries_eq_map, List.getElem?_take, List.getElem?_map]
    split
    · rw [hagree i (by omega)]
    · rfl
  exact (compileEntries_local hlength hresult hpos htake).2

/-- `class Main { function void run() { do x[`, where the tree ends. -/
def danglingTree : Node :=
  .production .classDec
    [.token .keyword "class", .token .identifier "Main", .token .symbol openBrace,
      .production .subroutineDec
        [.token .keyword "function", .token .keyword "void", .token .identifier "run",
          .token .symbol "(", .production .parameterList [], .token .symbol ")",
          .production .subroutineBody
            [.token .symbol openBrace,
              .production .statements
                [.production .doStatement
                  [.token .keyword "do",
                    .production .expression
                      [.production .term [.token .identifier "x", .token .symbol "["]]]]]]]

theorem compile_local_danglingTree :
    danglingTree.size < UInt32.size ∧
      (compile (.sequential 0) danglingTree).result = .error (.unresolved "x" ⟨18⟩) ∧
      (Fault.unresolved "x" ⟨18⟩).About (({} : Options).entries danglingTree) 18 ∧
      ∀ root' : Node, (∀ i ≤ 19, root'.preorder[i]? = danglingTree.preorder[i]?) →
        compile (.sequential 0) root' = compile (.sequential 0) danglingTree := by
  have hsize : danglingTree.size < UInt32.size := by decide
  have hresult : (compile (.sequential 0) danglingTree).result =
      .error (.unresolved "x" ⟨18⟩) := by rfl
  exact ⟨hsize, hresult, compile_local hsize hresult rfl⟩

end Jack
