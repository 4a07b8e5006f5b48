import Mathlib.Data.List.Dedup
import Mathlib.Data.List.Perm.Basic
import Jack.Proofs.Grammar.Calls
import Jack.Proofs.Grammar.Variables

/-!
# Passing arguments

A caller counts the arguments that it pushes, the receiver first. A subroutine counts the names of
its parameters instead, each of them once. The two counts agree up to the first name that is
repeated.
-/

namespace Jack

variable {ds : List Declaration} {d : Declaration} {kind : Storage}

/-- The first declaration of a name takes the next index of its kind. -/
theorem symbolNamed?_symbolsOf_first {before after : List Declaration}
    (h : d.name ∉ before.map Declaration.name) :
    symbolNamed? (symbolsOf (before ++ d :: after)) d.name =
      some ⟨d.name, d.declaredType, d.kind, symbolCount (symbolsOf before) d.kind⟩ := by
  rw [symbolsOf, List.foldl_append, List.foldl_cons]
  apply symbolNamed?_foldl
  have hnew : d.name ∉ (symbolsOf before).map Symbol.name := mt names_symbolsOf.1 h
  have hnone : symbolNamed? (symbolsOf before) d.name = none := by
    rw [← Option.not_isSome_iff_eq_none, isSome_symbolNamed?]
    exact hnew
  rw [show before.foldl addSymbol [] = symbolsOf before from rfl, addSymbol_of_not_mem hnew]
  show List.find? _ (_ ++ _) = _
  rw [List.find?_append, show List.find? _ (symbolsOf before) = none from hnone]
  simp

/-- Declarations of one kind have as many symbols as there are different names. -/
theorem symbolCount_symbolsOf_kind (h : ∀ d ∈ ds, d.kind = kind) :
    symbolCount (symbolsOf ds) kind = (ds.map Declaration.name).dedup.length := by
  have hkind : ∀ s ∈ symbolsOf ds, decide (s.kind = kind) = true := fun s hs =>
    decide_eq_true (kind_symbolsOf (P := (· = kind)) h s hs)
  have hperm : ((symbolsOf ds).map Symbol.name).Perm (ds.map Declaration.name).dedup := by
    rw [List.perm_ext_iff_of_nodup (numbered_symbolsOf ds).names (List.nodup_dedup _)]
    intro name
    rw [names_symbolsOf, List.mem_dedup]
  rw [symbolCount, List.countP_eq_length.2 hkind, ← hperm.length_eq, List.length_map]

end Jack

namespace Jack.Grammar

open Vm

/-! ## Callers -/

/-- The calls in the code of a routine are those of its subroutine, with all their arguments. -/
structure MakesCalls (c : Class) (s : Subroutine) (r : Routine) : Prop where
  calls : callsIn r.code = s.invocations.map (Invocation.call c.name (c.symbol? s))
  limit : ∀ call ∈ callsIn r.code, call.2 ≤ argumentLimit
  /-- The receiver and the arguments are pushed one after the other, right before the call. -/
  pushes : ∀ callee arguments, .source callee arguments ∈ s.invocations →
    ∃ scope os, Scope.className scope = c.name ∧ scope.lookup? = c.symbol? s ∧
      List.Forall₂ (fun e o => ∃ pos, Expression.translate scope pos e = .ok o) arguments os ∧
      operandsCode (receiverOperands (c.symbol? s) callee ++ os) ++
        [.call (functionName c.name (c.symbol? s) callee)
          ((receiverOperands (c.symbol? s) callee).length + arguments.length)] <:+: r.code

theorem Subroutine.makesCalls {c : Class} {classTable : SymbolTable} {labels : LabelSupply}
    {pos : Nat} {s : Subroutine} {r : Routine} (hclass : classTable.Lists c.symbols)
    (h : s.translate c.name classTable labels pos = .ok r) : MakesCalls c s r := by
  obtain ⟨scope, hscope, hperforms⟩ := s.performs h
  obtain ⟨hname, hlookup⟩ : scope.className = c.name ∧ scope.lookup? = c.symbol? s := by
    have hsubroutine := Subroutine.lists_symbols hscope
    obtain ⟨_, _, _, -, -, -, rfl⟩ := Subroutine.scope_ok hscope
    exact ⟨rfl, lookup?_eq hclass hsubroutine⟩
  have hcalls := hperforms.callsIn_eq
  rw [hname, hlookup] at hcalls
  refine ⟨hcalls, ?_, ?_⟩
  · intro call hcall
    rw [hcalls] at hcall
    obtain ⟨inv, hinv, rfl⟩ := List.mem_map.1 hcall
    obtain ⟨os, hos, -⟩ := hperforms.exists_infix hinv
    rw [← hname, ← hlookup, ← hos.length_eq]
    exact hos.limit
  · intro callee arguments hmem
    obtain ⟨os, hos, hinfix⟩ := hperforms.exists_infix hmem
    have hlength := hos.length_eq
    obtain ⟨os', rfl, hoperands⟩ := hos.operands callee arguments rfl
    rw [hlength, Invocation.call, hname, hlookup] at hinfix
    exact ⟨scope, os', hname, hlookup, hoperands, hinfix⟩

/-! ## Subroutines -/

namespace Subroutine

/-- The names of what is passed in front of a parameter: the receiver of a method, and the
parameters before it. -/
def namesBefore (s : Subroutine) (i : Nat) : List String :=
  (if s.signature.kind = .method then ["this"] else []) ++ (s.parameters.take i).map Prod.snd

/-- Where callers put the argument for a parameter. The receiver comes first. -/
def position (s : Subroutine) (i : Nat) : Nat :=
  if s.signature.kind = .method then i + 1 else i

theorem length_namesBefore {s : Subroutine} {i : Nat} (hi : i ≤ s.parameters.length) :
    (s.namesBefore i).length = s.position i := by
  rw [namesBefore, position, List.length_append, List.length_map, List.length_take_of_le hi]
  split
  · rw [List.length_singleton, Nat.add_comm]
  · rw [List.length_nil, Nat.zero_add]

/-- Only a repeated name makes a difference. -/
theorem length_dedup_namesBefore {s : Subroutine} {i : Nat} (hi : i ≤ s.parameters.length) :
    (s.namesBefore i).dedup.length = s.position i ↔ (s.namesBefore i).Nodup := by
  rw [← length_namesBefore hi]
  constructor
  · intro hlength
    rw [← List.dedup_eq_self]
    exact (List.dedup_sublist _).eq_of_length hlength
  · intro hnodup
    rw [hnodup.dedup]

/-- What a subroutine declares, around one of its parameters. -/
theorem variables_eq {className : String} {s : Subroutine} {i : Nat} {p : String × String}
    (hp : s.parameters[i]? = some p) :
    ∃ before after, s.variables className = before ++ ⟨p.2, p.1, .argument⟩ :: after ∧
      before.map Declaration.name = s.namesBefore i ∧ ∀ d ∈ before, d.kind = .argument := by
  obtain ⟨hi, hget⟩ := List.getElem?_eq_some_iff.1 hp
  have hsplit : s.parameters = s.parameters.take i ++ p :: s.parameters.drop (i + 1) := by
    rw [← hget, List.getElem_cons_drop, List.take_append_drop]
  have hparameters : parameterVariables s.parameters =
      parameterVariables (s.parameters.take i) ++
        ⟨p.2, p.1, .argument⟩ :: parameterVariables (s.parameters.drop (i + 1)) := by
    conv_lhs => rw [hsplit]
    rw [parameterVariables, List.map_append, List.map_cons]
    rfl
  refine ⟨receiverVariables className s.signature.kind ++
    parameterVariables (s.parameters.take i),
    parameterVariables (s.parameters.drop (i + 1)) ++
      s.locals.flatMap (Variables.declarations .localVar), ?_, ?_, ?_⟩
  · rw [Subroutine.variables, hparameters]
    simp only [List.append_assoc, List.cons_append]
  · rw [List.map_append, namesBefore, receiverVariables, parameterVariables, List.map_map]
    split <;> rfl
  · intro d hd
    rcases List.mem_append.1 hd with hd | hd
    · unfold receiverVariables at hd
      split at hd
      · rw [List.mem_singleton.1 hd]
      · cases hd
    · obtain ⟨p, -, rfl⟩ := List.mem_map.1 hd
      rfl

end Subroutine

/-- A parameter takes the argument that is numbered by the different names before it. -/
theorem Class.symbol?_parameter {c : Class} {s : Subroutine} {i : Nat} {p : String × String}
    (hp : s.parameters[i]? = some p) (hfirst : p.2 ∉ s.namesBefore i) :
    c.symbol? s p.2 = some ⟨p.2, p.1, .argument, (s.namesBefore i).dedup.length⟩ := by
  obtain ⟨before, after, hvariables, hnames, hkind⟩ :=
    @Subroutine.variables_eq c.name s i p hp
  have hnamed : symbolNamed? (s.symbols c.name) p.2 =
      some ⟨p.2, p.1, .argument, (s.namesBefore i).dedup.length⟩ := by
    rw [Subroutine.symbols, hvariables, ← hnames, ← symbolCount_symbolsOf_kind hkind]
    exact @symbolNamed?_symbolsOf_first ⟨p.2, p.1, .argument⟩ before after (hnames ▸ hfirst)
  rw [Class.symbol?, hnamed]

/-- The uses of a parameter, in the code of a routine, go to the argument that is numbered by the
different names before it. -/
structure SeatsParameters (c : Class) (s : Subroutine) (r : Routine) : Prop where
  /-- The code accesses each variable that is used at the slot of its symbol, and no other. -/
  uses : Follows (max maxConstant (symbolCount c.symbols .field)) (c.symbol? s)
    (s.uses (c.symbol? s)) r.code
  slot : ∀ i p, s.parameters[i]? = some p → p.2 ∉ s.namesBefore i →
    c.symbol? s p.2 = some ⟨p.2, p.1, .argument, (s.namesBefore i).dedup.length⟩
  /-- This is where callers put it exactly if no name before it is repeated. -/
  seat : ∀ i p, s.parameters[i]? = some p → p.2 ∉ s.namesBefore i →
    ((c.symbol? s p.2).map Symbol.slot = some ⟨.argument, s.position i⟩ ↔
      (s.namesBefore i).Nodup)

theorem Subroutine.seatsParameters {c : Class} {classTable : SymbolTable} {labels : LabelSupply}
    {pos : Nat} {s : Subroutine} {r : Routine} (hclass : classTable.Lists c.symbols)
    (h : s.translate c.name classTable labels pos = .ok r) : SeatsParameters c s r := by
  refine ⟨(Subroutine.keepsSlots hclass h).uses, ?_, ?_⟩
  · exact fun i p hp hfirst => Class.symbol?_parameter hp hfirst
  · intro i p hp hfirst
    obtain ⟨hi, -⟩ := List.getElem?_eq_some_iff.1 hp
    rw [← length_dedup_namesBefore (Nat.le_of_lt hi), Class.symbol?_parameter hp hfirst]
    simp [Symbol.slot, Segment.ofStorage]

end Jack.Grammar
