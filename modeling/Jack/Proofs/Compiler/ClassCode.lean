import Jack.Compiler.ClassCode
import Jack.Proofs.Compiler.Declaration
import Jack.Proofs.Grammar.Fault
import Jack.Proofs.Grammar.Layout

/-!
# Trees that are laid out from a class

The compiler and the layout functions agree: the tree of a class compiles to the translation of the
class, or fails with the first fault of the translation, which never blames the shape of the tree.
-/

namespace Jack

open Grammar

theorem map_mapText_unpad {es : List Entry} (h : ∀ e ∈ es, unpad e.text = e.text) :
    es.map (Entry.mapText unpad) = es := by
  refine (List.map_congr_left fun e he => ?_).trans (List.map_id es)
  cases e with
  | production kind => rfl
  | token kind text => exact congrArg (Entry.token kind) (h _ he)

/-- A class whose callees can be split and whose texts are not padded compiles to its translation
once it is laid out, or fails with the first fault of the translation. The shape of the tree is
never blamed. -/
theorem compile_layout (labels : Vm.LabelSupply) (options : Options) (c : Grammar.Class)
    (hcallees : ∀ callee ∈ c.callees, callee.Splits)
    (htexts : options.unpad = true → ∀ e ∈ written c.lexemes, unpad e.text = e.text) :
    ∃ root, (c.layout {}).finish = .ok root ∧
      (compile labels root options).result = (c.translate labels).map (.ofRoutines c.name) ∧
      ∀ fault, (compile labels root options).result = .error fault →
        fault.isStructural = false := by
  obtain ⟨root, hroot, hentries⟩ := c.finish_layout hcallees
  have hcompile : compile labels root options = compileEntries labels (written c.lexemes) := by
    rw [compile, hentries]
    split
    · next hunpad => rw [map_mapText_unpad (htexts hunpad)]
    · rfl
  refine ⟨root, hroot, ?_, fun fault hfault => ?_⟩
  · rw [hcompile, compileEntries_written]
  · rw [hcompile, compileEntries_written] at hfault
    cases ht : c.translate labels with
    | ok rs =>
      rw [ht] at hfault
      cases hfault
    | error f =>
      rw [ht] at hfault
      cases hfault
      exact (c.wellShaped labels).not_structural fault ht

/-- `class Sum { static Array a; function void fill(int n) { while (n) { let a[n] = Sum.at(n); }
return; } }` -/
def sumClass : Grammar.Class where
  name := "Sum"
  declarations := [⟨.static, rfl, ⟨"Array", "a", []⟩⟩]
  subroutines :=
    [⟨⟨.function, "void", "fill"⟩, [("int", "n")], [],
      [.loop (.mk (.variable "n") [])
          [.assignElement "a" (.mk (.variable "n") [])
            (.mk (.call (.qualified "Sum" "at") [.mk (.variable "n") []]) [])],
        .returnNothing]⟩]

theorem compile_layout_sumClass :
    (∀ callee ∈ sumClass.callees, callee.Splits) ∧
      (∀ e ∈ written sumClass.lexemes, unpad e.text = e.text) ∧
      ∃ root, (sumClass.layout {}).finish = .ok root ∧
        (compile (.sequential 0) root).result =
          (sumClass.translate (.sequential 0)).map (.ofRoutines "Sum") ∧
        ∀ fault, (compile (.sequential 0) root).result = .error fault →
          fault.isStructural = false := by
  have htexts : ∀ e ∈ written sumClass.lexemes, unpad e.text = e.text := by decide
  have hcallees : ∀ callee ∈ sumClass.callees, callee.Splits := by decide
  exact ⟨hcallees, htexts, compile_layout (.sequential 0) {} sumClass hcallees fun _ => htexts⟩

end Jack
