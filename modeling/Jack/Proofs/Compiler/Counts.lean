import Jack.Proofs.Compiler.Arrival
import Jack.Proofs.Compiler.FaultSite
import Jack.Proofs.Compiler.Prefix
import Jack.Proofs.Compiler.Slots

/-!
# Declared names are counted exactly

The code of a class says how many local variables each subroutine has and how large an object is.
Both are numbers of different names, each counted for the kind of its first declaration. The same
numbers decide which declaration is one too many.
-/

namespace Jack.Grammar

open Vm

/-- The code of a routine begins with the number of its local variables, and nothing else in it is a
header. A constructor then allocates a word for each field. -/
structure Measured (c : Class) (s : Subroutine) (r : Routine) : Prop where
  header : ∃ body, r.code = .function (c.name ++ "." ++ s.signature.name)
      (nameCount (s.variables c.name) .localVar) :: body ∧
    ∀ name locals, .function name locals ∉ body
  allocation : s.signature.kind = .constructor →
    [.push .constant (nameCount c.variables .field), .call Os.alloc 1, .pop .pointer 0] <+:
      r.code.tail

theorem Subroutine.measured {c : Class} {classTable : SymbolTable} {labels : LabelSupply}
    {pos : Nat} {s : Subroutine} {r : Routine} (hclass : classTable.Lists c.symbols)
    (h : s.translate c.name classTable labels pos = .ok r) : Measured c s r := by
  obtain ⟨scope, cmds, pos', hscope, -, hr⟩ := Subroutine.translate_scope h
  have hlocals : scope.subroutineTable.count .localVar =
      nameCount (s.variables c.name) .localVar := by
    rw [(Subroutine.lists_symbols hscope).count]
    exact symbolCount_eq_nameCount _ _
  have hfields : classTable.count .field = nameCount c.variables .field := by
    rw [hclass.count]
    exact symbolCount_eq_nameCount _ _
  have hname : scope.qualify s.signature.name = c.name ++ "." ++ s.signature.name := by
    obtain ⟨_, _, _, -, -, -, rfl⟩ := Subroutine.scope_ok hscope
    rfl
  rw [hname, hlocals, hfields] at hr
  rw [hr]
  refine ⟨⟨_, rfl, function_not_mem _⟩, fun hkind => ?_⟩
  rw [Routine.code, List.tail_cons, commandsCode_append, commandsCode_prologue, hkind]
  exact List.prefix_append _ _

end Jack.Grammar

namespace Jack

open Compiler Grammar

variable {labels : Vm.LabelSupply} {before after : List Entry} {kind : Storage}
  {ds : List Declaration} {name : String}

/-- A compilation that succeeds has reached all names that it declares. -/
theorem reached_of_ok {unit : ClassCode} (hbefore : BeforeDeclared before kind ds)
    (h : (compileEntries labels (before ++ .token .identifier name :: after)).result = .ok unit) :
    Reached labels before := by
  let w : Cut := ⟨before, .token .identifier name :: after⟩
  have hlost : w.lost ≠ [] := List.cons_ne_nil _ _
  obtain ⟨fault, hfault, hexcuses⟩ := compileEntries_kept hlost h
  cases hexcuses with
  | endOfTree expected => exact ⟨expected, hfault⟩
  | @unresolved n unknown e hend hterm hname hcall he =>
    -- Nothing is called in front of a declared name.
    have hkept : before[n]? = some (.production .term) := by
      rw [← hterm]
      exact (List.getElem?_append_left (by omega : n < w.kept.length)).symm
    exact absurd hkept (hbefore.getElem?_ne_term hend)

theorem arrives_of_reached (hbefore : BeforeDeclared before kind ds)
    (hreached : Reached labels before) : Arrives labels before kind ds := by
  cases hbefore with
  | inClass className vss declaredType names hkind hspells =>
    exact arrives_inClass hkind hspells hreached
  | inSubroutine signature receiverType hlocal hends =>
    exact arrives_inSubroutine receiverType hlocal hends hreached

/-- The bound of a compilation covers all entries. -/
theorem Arrives.run (h : Arrives labels before kind ds) (rest : List Entry) :
    ∃ (m : Compiler String) (l : Vm.LabelSupply) (c : Vm.Code) (ns : Array Notice),
      AwaitsName kind ds m ∧
      (classDec (before ++ rest).length).run ⟨⟨before ++ rest, 0⟩, labels, {}, #[]⟩ =
        m.run ⟨⟨rest, before.length⟩, l, c, ns⟩ := by
  have hbound : before.length ≤ (before ++ rest).length := by
    rw [List.length_append]
    exact Nat.le_add_right ..
  obtain ⟨m, hm, hrun⟩ := h _ hbound
  obtain ⟨l, c, ns, hrest⟩ := hrun rest
  exact ⟨m, l, c, ns, hm, hrest⟩

/-- Without room for the name there is a fault at its entry. -/
theorem Arrives.result_of_exhausted (h : Arrives labels before kind ds)
    (hname : Exhausted ds name kind) (after : List Entry) :
    (compileEntries labels (before ++ .token .identifier name :: after)).result =
      .error (.limit (kind.name ++ " variables") (.ofIndex before.length)) := by
  obtain ⟨m, l, c, ns, hm, hrun⟩ := h.run (.token .identifier name :: after)
  obtain ⟨s, hfault⟩ := hm.run_of_exhausted hname
  unfold compileEntries
  rw [hrun, hfault]

/-- With room for the name, or if it is declared already, the compilation gets past it. -/
theorem Arrives.run_of_room (h : Arrives labels before kind ds) (hname : ¬Exhausted ds name kind)
    (after : List Entry) :
    ∃ (m : Compiler String) (l : Vm.LabelSupply) (c : Vm.Code) (ns : Array Notice),
      StopsShort m ∧
      (classDec (before ++ .token .identifier name :: after).length).run
          ⟨⟨before ++ .token .identifier name :: after, 0⟩, labels, {}, #[]⟩ =
        m.run ⟨⟨after, before.length + 1⟩, l, c, ns⟩ := by
  obtain ⟨m, l, c, ns, hm, hrun⟩ := h.run (.token .identifier name :: after)
  obtain ⟨m', hm', hproceeds⟩ := hm.run_of_room hname
  obtain ⟨l', c', ns', hpast⟩ := hproceeds after before.length l c ns
  exact ⟨m', l', c', ns', hm', hrun.trans hpast⟩

theorem Arrives.reached_of_room (h : Arrives labels before kind ds)
    (hname : ¬Exhausted ds name kind) : Reached labels (before ++ [.token .identifier name]) := by
  obtain ⟨m, l, c, ns, hm, hrun⟩ := h.run_of_room hname []
  obtain ⟨expected, s, hmissing⟩ := hm.missing ⟨⟨[], before.length + 1⟩, l, c, ns⟩ rfl
  refine ⟨expected, ?_⟩
  unfold compileEntries
  rw [hrun, hmissing]

/-- As far as one entry behind the name, no limit is exceeded. -/
theorem Arrives.result_ne_limit (h : Arrives labels before kind ds)
    (hname : ¬Exhausted ds name kind) (hafter : after.length ≤ 1) (what : String)
    (pos : Position) :
    (compileEntries labels (before ++ .token .identifier name :: after)).result ≠
      .error (.limit what pos) := by
  obtain ⟨m, l, c, ns, hm, hrun⟩ := h.run_of_room hname after
  have hshort : EndsShort (m.run ⟨⟨after, before.length + 1⟩, l, c, ns⟩) := by
    rcases Nat.le_one_iff_eq_zero_or_eq_one.1 hafter with hnone | hone
    · obtain rfl := List.eq_nil_of_length_eq_zero hnone
      obtain ⟨expected, s, hmissing⟩ := hm.missing ⟨⟨[], before.length + 1⟩, l, c, ns⟩ rfl
      rw [hmissing]
      exact nofun
    · exact hm.short _ hone
  unfold compileEntries
  rw [hrun]
  cases hresult : m.run ⟨⟨after, before.length + 1⟩, l, c, ns⟩ with
  | ok className s => exact nofun
  | error fault s =>
    rw [hresult] at hshort
    intro heq
    exact hshort what pos (Except.error.inj heq)

/-- A fault about the name depends on one entry behind it at most, so the name is one too many
wherever it is reported to be. -/
theorem Arrives.exhausted_of_result (h : Arrives labels before kind ds)
    (hsize : (before ++ .token .identifier name :: after).length < UInt32.size)
    (hresult : (compileEntries labels (before ++ .token .identifier name :: after)).result =
      .error (.limit (kind.name ++ " variables") (.ofIndex before.length))) :
    Exhausted ds name kind := by
  by_contra hname
  have hlength : before.length < UInt32.size := by
    rw [List.length_append] at hsize
    omega
  have hindex : (Position.ofIndex before.length).index = before.length := by
    rw [Position.index_ofIndex, Nat.mod_eq_of_lt hlength]
  -- Cut off behind the entry after the name, the tree would fail with the same fault.
  have hagree : (before ++ .token .identifier name :: after.take 1).take (before.length + 2) =
      (before ++ .token .identifier name :: after).take (before.length + 2) := by
    rw [List.take_length_add_append, List.take_length_add_append, List.take_succ_cons,
      List.take_succ_cons, List.take_take]
    rfl
  rw [← hindex] at hagree
  have hsame := (compileEntries_local hsize hresult rfl hagree).2
  rw [← hsame] at hresult
  exact h.result_ne_limit hname (List.length_take_le 1 after) _ _ hresult

/-- The counts in the code of a class are those of its declarations, however they are divided and
repeated. A compilation that reaches a name to be declared exceeds the limit at its node if and only
if the name is new and 65535 different names of the kind are declared before it in the same scope.
Otherwise the compilation gets past the name, and one that succeeds has reached all of them. -/
theorem compile_counts (labels : Vm.LabelSupply) (options : Options) :
    (∀ root unit, (compile labels root options).result = .ok unit →
      ∃ c rs, Spells (Grammar.Class.lexemes c) (options.entries root) ∧
        c.translate labels = .ok rs ∧
        unit.code.toList = routinesCode rs ∧
        List.Forall₂ (Measured c) c.subroutines rs) ∧
    (∀ root unit, (compile labels root options).result = .ok unit →
      ∀ before kind ds, BeforeDeclared before kind ds →
        ∀ name after, options.entries root = before ++ .token .identifier name :: after →
          Reached labels before ∧ ¬Exhausted ds name kind) ∧
    ∀ before kind ds, BeforeDeclared before kind ds → Reached labels before →
      ∀ root name after, options.entries root = before ++ .token .identifier name :: after →
        (Exhausted ds name kind → (compile labels root options).result =
          .error (.limit (kind.name ++ " variables") (.ofIndex before.length))) ∧
        (¬Exhausted ds name kind → Reached labels (before ++ [.token .identifier name])) ∧
        (root.size < UInt32.size → ((compile labels root options).result =
          .error (.limit (kind.name ++ " variables") (.ofIndex before.length)) ↔
            Exhausted ds name kind)) := by
  refine ⟨?_, ?_, ?_⟩
  · intro root unit h
    rw [compile_eq] at h
    obtain ⟨c, rs, hspells, hrs, hunit, -⟩ := compileEntries_ok h
    refine ⟨c, rs, hspells, hrs, by rw [hunit]; rfl, ?_⟩
    obtain ⟨table, htable, hrs⟩ := bind_eq_ok hrs
    apply (forall₂_translateSubroutines c.subroutines hrs).imp
    rintro s r ⟨labels', pos, hr⟩
    exact Subroutine.measured (Class.lists_symbols htable) hr
  · intro root unit h before kind ds hbefore name after hentries
    rw [compile_eq, hentries] at h
    have hreached := reached_of_ok hbefore h
    refine ⟨hreached, fun hname => ?_⟩
    rw [(arrives_of_reached hbefore hreached).result_of_exhausted hname after] at h
    cases h
  · intro before kind ds hbefore hreached root name after hentries
    have harrives := arrives_of_reached hbefore hreached
    rw [compile_eq, hentries]
    have hexceeds (hname : Exhausted ds name kind) := harrives.result_of_exhausted hname after
    refine ⟨hexceeds, harrives.reached_of_room, fun hsize => ⟨fun hresult => ?_, hexceeds⟩⟩
    rw [Node.size_eq_length_preorder, ← length_entries options root, hentries] at hsize
    exact harrives.exhausted_of_result hsize hresult

/-- The second parameter has the name of the first, and the compilation gets past it. -/
theorem compile_counts_pairTree :
    (compile (.sequential 0) pairTree).result = .ok pairUnit ∧
      (∃ c rs, Spells (Grammar.Class.lexemes c) (({} : Options).entries pairTree) ∧
        c.translate (.sequential 0) = .ok rs ∧ pairUnit.code.toList = routinesCode rs ∧
        List.Forall₂ (Measured c) c.subroutines rs) ∧
      BeforeDeclared ((({} : Options).entries pairTree).take 21) .argument
        [⟨"this", "Pair", .argument⟩, ⟨"x", "int", .argument⟩] ∧
      Reached (.sequential 0) ((({} : Options).entries pairTree).take 21) ∧
      pairTree.size < UInt32.size ∧
      Reached (.sequential 0)
        ((({} : Options).entries pairTree).take 21 ++ [.token .identifier "x"]) ∧
      ((compile (.sequential 0) pairTree).result =
        .error (.limit "argument variables" (.ofIndex 21)) ↔
          Exhausted [⟨"this", "Pair", .argument⟩, ⟨"x", "int", .argument⟩] "x" .argument) := by
  have hcompile : (compile (.sequential 0) pairTree).result = .ok pairUnit := by rfl
  let signature : Signature := ⟨.method, "int", "store"⟩
  have hends : EndsIn ((({} : Options).entries pairTree).take 21)
      (subroutineHead signature ++ (listed parameterLexemes [("int", "x")] ++ [.type "int"])) :=
    ⟨(({} : Options).entries pairTree).take 11, _, by rfl, spells_written _⟩
  have hbefore : BeforeDeclared ((({} : Options).entries pairTree).take 21) .argument
      [⟨"this", "Pair", .argument⟩, ⟨"x", "int", .argument⟩] :=
    .inSubroutine signature "Pair" (.parameter [("int", "x")] "int") hends
  have hsize : pairTree.size < UInt32.size := by decide
  have hentries : ({} : Options).entries pairTree = (({} : Options).entries pairTree).take 21 ++
      .token .identifier "x" :: (({} : Options).entries pairTree).drop 22 := by rfl
  obtain ⟨hmeasured, hreaches, hdeclared⟩ := compile_counts (.sequential 0) {}
  obtain ⟨hreached, hrepeated⟩ := hreaches _ _ hcompile _ _ _ hbefore _ _ hentries
  obtain ⟨-, hpast, hlimit⟩ := hdeclared _ _ _ hbefore hreached _ _ _ hentries
  exact ⟨hcompile, hmeasured pairTree pairUnit hcompile, hbefore, hreached, hsize,
    hpast hrepeated, hlimit hsize⟩

end Jack
