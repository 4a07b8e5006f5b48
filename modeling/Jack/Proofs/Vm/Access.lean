import Jack.Compiler.Idiom

/-!
# Accesses to variables

Code reads and writes the variables of the source in some order. Between these accesses stand
instructions that touch no variable, though they may use a few cells of their own.
-/

namespace Jack

/-- A use of a variable. -/
inductive Use where
  | read (name : String)
  | write (name : String)
deriving DecidableEq, Repr

/-- What a use is compiled to, if the name is a variable. -/
def Use.instruction? (symbol? : String → Option Symbol) : Use → Option Vm.Instruction
  | read name => (symbol? name).map fun symbol => symbol.slot.push
  | write name => (symbol? name).map fun symbol => symbol.slot.pop

namespace Vm

/-- The cells that hold no variable: the base addresses, the cell at the second one, and what is
kept while that address moves. -/
def scratch : List Slot := [⟨.pointer, 0⟩, ⟨.pointer, 1⟩, ⟨.that, 0⟩, ⟨.temp, 0⟩]

namespace Instruction

/-- The cell that an instruction reads or writes. A constant is in no cell. -/
def cell? : Instruction → Option Slot
  | push .constant _ => none
  | push segment index | pop segment index => some ⟨segment, index⟩
  | _ => none

/-- An instruction that touches no variable, and no constant above the limit. -/
def Auxiliary (limit : Nat) : Instruction → Prop
  | push .constant n => n ≤ limit
  | push segment index | pop segment index => ⟨segment, index⟩ ∈ scratch
  | _ => True

theorem Auxiliary.cell {limit : Nat} {i : Instruction} {slot : Slot} (h : i.Auxiliary limit)
    (hslot : i.cell? = some slot) : slot ∈ scratch := by
  cases i with
  | push segment index => cases segment <;> cases hslot <;> exact h
  | pop segment index => cases segment <;> cases hslot <;> exact h
  | _ => cases hslot

theorem Auxiliary.mono {limit limit' : Nat} (hle : limit ≤ limit') {i : Instruction}
    (h : i.Auxiliary limit) : i.Auxiliary limit' := by
  cases i with
  | push segment index =>
    cases segment with
    | constant => exact Nat.le_trans h hle
    | _ => exact h
  | pop segment index => cases segment <;> exact h
  | _ => trivial

end Instruction

theorem cell?_push (symbol : Symbol) : symbol.slot.push.cell? = some symbol.slot := by
  unfold Symbol.slot Slot.push
  cases symbol.kind <;> rfl

theorem cell?_pop (symbol : Symbol) : symbol.slot.pop.cell? = some symbol.slot := rfl

/-- A use touches the cell of a variable. -/
theorem cell?_of_use {symbol? : String → Option Symbol} {use : Use} {i : Instruction}
    (h : use.instruction? symbol? = some i) :
    ∃ name symbol, symbol? name = some symbol ∧ i.cell? = some symbol.slot := by
  cases use with
  | read name =>
    obtain ⟨symbol, hsymbol, rfl⟩ := Option.map_eq_some_iff.1 h
    exact ⟨name, symbol, hsymbol, cell?_push symbol⟩
  | write name =>
    obtain ⟨symbol, hsymbol, rfl⟩ := Option.map_eq_some_iff.1 h
    exact ⟨name, symbol, hsymbol, cell?_pop symbol⟩

/-- Code whose accesses to variables are the uses, in this order. -/
inductive Follows (limit : Nat) (symbol? : String → Option Symbol) :
    List Use → List Instruction → Prop where
  | nil : Follows limit symbol? [] []
  | access {use : Use} {i : Instruction} {uses : List Use} {is : List Instruction} :
    use.instruction? symbol? = some i → Follows limit symbol? uses is →
      Follows limit symbol? (use :: uses) (i :: is)
  | auxiliary {i : Instruction} {uses : List Use} {is : List Instruction} :
    i.Auxiliary limit → Follows limit symbol? uses is → Follows limit symbol? uses (i :: is)

namespace Follows

variable {limit : Nat} {symbol? : String → Option Symbol} {uses uses' : List Use}
  {is is' : List Instruction}

theorem append (h : Follows limit symbol? uses is) (h' : Follows limit symbol? uses' is') :
    Follows limit symbol? (uses ++ uses') (is ++ is') := by
  induction h with
  | nil => exact h'
  | access huse _ ih => exact .access huse ih
  | auxiliary hi _ ih => exact .auxiliary hi ih

theorem of_auxiliary (h : ∀ i ∈ is, i.Auxiliary limit) : Follows limit symbol? [] is := by
  induction is with
  | nil => exact .nil
  | cons i is ih =>
    apply auxiliary (h i (List.mem_cons_self ..))
    exact ih fun j hj => h j (List.mem_cons_of_mem _ hj)

/-- What comes after the last access. -/
theorem before (h : Follows limit symbol? uses is) (is' : List Instruction)
    (h' : ∀ i ∈ is', i.Auxiliary limit) :
    Follows limit symbol? uses (is ++ is') := by
  have happend := h.append (of_auxiliary h')
  rwa [List.append_nil] at happend

/-- What comes before the first access. -/
theorem after (h : Follows limit symbol? uses is) (is' : List Instruction)
    (h' : ∀ i ∈ is', i.Auxiliary limit) :
    Follows limit symbol? uses (is' ++ is) := (of_auxiliary h').append h

theorem mono {limit' : Nat} (hle : limit ≤ limit') (h : Follows limit symbol? uses is) :
    Follows limit' symbol? uses is := by
  induction h with
  | nil => exact .nil
  | access huse _ ih => exact .access huse ih
  | auxiliary hi _ ih => exact .auxiliary (hi.mono hle) ih

/-- A cell holds a variable, or the code uses it for itself. -/
theorem cell (h : Follows limit symbol? uses is) {i : Instruction} (hi : i ∈ is) {slot : Slot}
    (hslot : i.cell? = some slot) :
    slot ∈ scratch ∨ ∃ name symbol, symbol? name = some symbol ∧ symbol.slot = slot := by
  induction h with
  | nil => cases hi
  | access huse _ ih =>
    rcases List.mem_cons.1 hi with rfl | hi
    · obtain ⟨name, symbol, hsymbol, hcell⟩ := cell?_of_use huse
      rw [hslot] at hcell
      exact .inr ⟨name, symbol, hsymbol, (Option.some.inj hcell).symm⟩
    · exact ih hi
  | auxiliary hj _ ih =>
    rcases List.mem_cons.1 hi with rfl | hi
    · exact .inl (hj.cell hslot)
    · exact ih hi

/-- No variable is a constant, so all constants obey the limit. -/
theorem constant_le (h : Follows limit symbol? uses is) {n : Nat}
    (hn : .push .constant n ∈ is) : n ≤ limit := by
  induction h with
  | nil => cases hn
  | access huse _ ih =>
    rcases List.mem_cons.1 hn with rfl | hn
    · obtain ⟨name, symbol, -, hcell⟩ := cell?_of_use huse
      cases hcell
    · exact ih hn
  | auxiliary hj _ ih =>
    rcases List.mem_cons.1 hn with rfl | hn
    · exact hj
    · exact ih hn

end Follows

end Vm

end Jack
