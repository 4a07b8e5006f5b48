import Mathlib.Data.List.Induction
import Jack.Proofs.Scope.Symbols

/-!
# Calls on a symbol table

A symbol table is used through two calls: to define a name, which may be refused, and to start a
new scope, which forgets everything. Whatever the calls were, the table holds the definitions that
succeeded since the last start of a scope, and the symbols of each kind are numbered from zero on
in the order in which they were defined.
-/

namespace Jack

/-- Every symbol is counted under its own kind and no other. -/
theorem length_eq_symbolCounts (symbols : List Symbol) :
    symbols.length = symbolCount symbols .static + symbolCount symbols .field +
      symbolCount symbols .argument + symbolCount symbols .localVar := by
  induction symbols with
  | nil => rfl
  | cons symbol symbols ih =>
    have hcons := fun kind => symbolCount_append [symbol] symbols kind
    simp only [List.singleton_append, symbolCount_singleton] at hcons
    simp only [hcons, List.length_cons, ih]
    cases symbol.kind <;> simp +arith

namespace SymbolTable

theorem toList_eq_map (table : SymbolTable) : table.toList = table.symbols.toList.map Prod.snd := by
  show table.symbols.foldr (fun _ symbol symbols => symbol :: symbols) [] = _
  rw [Std.TreeMap.foldr_eq_foldr_toList]
  exact (List.foldr_cons_eq_append (f := Prod.snd)).trans (List.append_nil _)

theorem exists_refusal_iff {table : SymbolTable} {name type : String} {kind : Storage} :
    (∃ refusal, table.define name type kind = .error refusal) ↔
      table.contains name = true ∨ table.count kind = slotLimit := by
  constructor
  · rintro ⟨refusal | refusal, h⟩
    · exact .inl (define_eq_duplicate_iff.1 h)
    · exact .inr (define_eq_full_iff.1 h).2
  · intro h
    cases hname : table.contains name with
    | true => exact ⟨.duplicate, define_eq_duplicate_iff.2 hname⟩
    | false =>
      rw [hname, or_iff_right Bool.false_ne_true] at h
      exact ⟨.full, define_eq_full_iff.2 ⟨hname, h⟩⟩

/-- A call that changes a symbol table. -/
inductive Call where
  | define (d : Declaration)
  | startScope

/-- A symbol table in use. -/
structure Session where
  table : SymbolTable := .empty
  /-- The symbols that were defined since the scope started, in the order of their definitions. -/
  symbols : List Symbol := []

namespace Session

/-- Carries out a call. A refused definition leaves the table as it is. -/
def perform (s : Session) : Call → Session
  | .define d =>
    match s.table.define d.name d.declaredType d.kind with
    | .ok table => ⟨table, s.symbols ++ (table.get? d.name).toList⟩
    | .error _ => s
  | .startScope => {}

/-- A new table after some calls. -/
def run (calls : List Call) : Session := calls.foldl perform {}

theorem run_append_singleton (calls : List Call) (call : Call) :
    run (calls ++ [call]) = (run calls).perform call := by
  rw [run, List.foldl_append]
  rfl

theorem perform_of_ok {s : Session} {d : Declaration} {table : SymbolTable}
    (h : s.table.define d.name d.declaredType d.kind = .ok table) :
    s.perform (.define d) =
      ⟨table, s.symbols ++ [⟨d.name, d.declaredType, d.kind, s.table.count d.kind⟩]⟩ := by
  rw [perform, h]
  simp only [get?_of_define h, if_true, Option.toList_some]

theorem perform_of_error {s : Session} {d : Declaration} {refusal : Refusal}
    (h : s.table.define d.name d.declaredType d.kind = .error refusal) :
    s.perform (.define d) = s := by
  rw [perform, h]

/-- What the table of a session and the symbols that were defined have to do with each other. -/
structure Sound (s : Session) : Prop where
  lists : s.table.Lists s.symbols
  names : (s.symbols.map Symbol.name).Nodup
  /-- The indices of a kind are dense, and a later symbol has a greater one. -/
  indices : ∀ kind, (s.symbols.filter fun symbol => symbol.kind = kind).map Symbol.index =
    List.range (symbolCount s.symbols kind)
  count_le : ∀ kind, symbolCount s.symbols kind ≤ slotLimit

theorem sound_empty : Sound {} := ⟨Lists.empty, .nil, fun _ => rfl, fun _ => Nat.zero_le _⟩

theorem Sound.define {s : Session} (h : s.Sound) {d : Declaration} {table : SymbolTable}
    (hdefine : s.table.define d.name d.declaredType d.kind = .ok table) :
    (s.perform (.define d)).Sound := by
  have haccepted : ¬ ∃ refusal, s.table.define d.name d.declaredType d.kind = .error refusal := by
    rintro ⟨refusal, hrefusal⟩
    cases hdefine.symm.trans hrefusal
  -- The name is new and its kind has room, or else the definition would have been refused.
  rw [exists_refusal_iff, not_or] at haccepted
  obtain ⟨hfresh, hroom⟩ := haccepted
  have hnew : d.name ∉ s.symbols.map Symbol.name := fun hmem => hfresh (h.lists.contains_iff.2 hmem)
  have hlists := h.lists.define hdefine
  rw [addSymbol_of_not_mem hnew] at hlists
  rw [perform_of_ok hdefine, h.lists.count]
  refine ⟨hlists, ?_, fun kind => ?_, fun kind => ?_⟩
  · show (List.map Symbol.name (s.symbols ++ _)).Nodup
    rw [List.map_append, List.nodup_append']
    refine ⟨h.names, List.nodup_singleton _, ?_⟩
    rw [List.map_singleton, List.disjoint_singleton]
    exact hnew
  · show List.map Symbol.index (List.filter _ (s.symbols ++ _)) = List.range (symbolCount (_ ++ _) _)
    rw [List.filter_append, List.map_append, h.indices, symbolCount_append, symbolCount_singleton]
    by_cases hkind : d.kind = kind
    · -- The new symbol takes the count as its index, which is the next number.
      rw [List.filter_cons_of_pos (by simpa using hkind), if_pos hkind, List.range_succ, ← hkind]
      rfl
    · rw [List.filter_cons_of_neg (by simpa using hkind), if_neg hkind]
      exact List.append_nil _
  · show symbolCount (s.symbols ++ _) kind ≤ slotLimit
    rw [symbolCount_append, symbolCount_singleton]
    by_cases hkind : d.kind = kind
    · rw [if_pos hkind, ← hkind]
      rw [h.lists.count] at hroom
      exact Nat.lt_of_le_of_ne (h.count_le d.kind) hroom
    · rw [if_neg hkind]
      exact h.count_le kind

/-- Every call keeps the table in step with what was defined. -/
theorem Sound.perform {s : Session} (h : s.Sound) (call : Call) : (s.perform call).Sound := by
  cases call with
  | startScope => exact sound_empty
  | define d =>
    cases hdefine : s.table.define d.name d.declaredType d.kind with
    | ok table => exact h.define hdefine
    | error refusal =>
      rw [perform_of_error hdefine]
      exact h

theorem run_sound (calls : List Call) : (run calls).Sound := by
  induction calls using List.reverseRecOn with
  | nil => exact sound_empty
  | append_singleton calls call ih =>
    rw [run_append_singleton]
    exact ih.perform call

/-! ## The table of a sound session -/

namespace Sound

variable {s : Session}

theorem get?_eq_some_iff (h : s.Sound) {name : String} {symbol : Symbol} :
    s.table.get? name = some symbol ↔ symbol.name = name ∧ symbol ∈ s.symbols := by
  rw [h.lists.get?]
  constructor
  · exact fun hfound => (symbolNamed?_eq_some hfound).symm
  · rintro ⟨rfl, hmem⟩
    obtain ⟨other, hother⟩ := Option.isSome_iff_exists.1
      (isSome_symbolNamed?.2 (List.mem_map_of_mem hmem))
    obtain ⟨hmem', hname⟩ := symbolNamed?_eq_some hother
    rw [hother, List.inj_on_of_nodup_map h.names hmem' hmem hname]

/-- The table holds exactly the symbols that were defined. -/
theorem toList_perm (h : s.Sound) : s.table.toList.Perm s.symbols := by
  -- Neither list repeats a pair, so it is enough that they have the same ones.
  have hpairs : s.table.symbols.toList.Perm (s.symbols.map fun symbol => (symbol.name, symbol)) := by
    have hkeys : s.table.symbols.toList.Nodup := by
      refine Std.TreeMap.distinct_keys_toList.imp fun hne heq => hne ?_
      rw [heq]
      exact Std.ReflCmp.compare_self
    have hsymbols : (s.symbols.map fun symbol => (symbol.name, symbol)).Nodup :=
      .map (fun _ _ heq => congrArg Prod.snd heq) h.names.of_map
    rw [List.perm_ext_iff_of_nodup hkeys hsymbols]
    rintro ⟨name, symbol⟩
    rw [Std.TreeMap.mem_toList_iff_getElem?_eq_some, List.mem_map]
    refine h.get?_eq_some_iff.trans ⟨?_, ?_⟩
    · rintro ⟨rfl, hmem⟩
      exact ⟨symbol, hmem, rfl⟩
    · rintro ⟨other, hmem, heq⟩
      cases heq
      exact ⟨rfl, hmem⟩
  rw [toList_eq_map]
  have := hpairs.map Prod.snd
  rwa [List.map_map, show Prod.snd ∘ (fun symbol : Symbol => (symbol.name, symbol)) = id from rfl,
    List.map_id] at this

theorem size_eq (h : s.Sound) : s.table.size = s.table.count .static + s.table.count .field +
    s.table.count .argument + s.table.count .localVar := by
  have hlength : s.table.size = s.symbols.length := by
    rw [← h.toList_perm.length_eq, toList_eq_map, List.length_map, Std.TreeMap.length_toList]
    rfl
  rw [hlength, length_eq_symbolCounts, funext h.lists.count]

end Sound

/-! ## Where symbols come from -/

/-- The definition of the symbol succeeded, with the next free index of its kind, and no scope has
started since. -/
def Defines (calls : List Call) (symbol : Symbol) : Prop :=
  ∃ before later,
    calls = before ++ .define symbol.declaration :: later ∧
    (∃ table, (run before).table.define symbol.name symbol.declaredType symbol.kind = .ok table) ∧
    (run before).table.count symbol.kind = symbol.index ∧
    ∀ call ∈ later, call ≠ .startScope

theorem defines_append_singleton {calls : List Call} {call : Call} {symbol : Symbol} :
    Defines (calls ++ [call]) symbol ↔
      (call = .define symbol.declaration ∧
        (∃ table,
          (run calls).table.define symbol.name symbol.declaredType symbol.kind = .ok table) ∧
        (run calls).table.count symbol.kind = symbol.index) ∨
      (Defines calls symbol ∧ call ≠ .startScope) := by
  constructor
  · rintro ⟨before, later, hcalls, htable, hcount, hlater⟩
    -- The definition is the last call itself, or the last call comes after it.
    rcases List.eq_nil_or_concat later with rfl | ⟨later, last, rfl⟩
    · obtain ⟨rfl, hcall⟩ := List.append_inj' hcalls rfl
      exact .inl ⟨List.singleton_inj.1 hcall, htable, hcount⟩
    · rw [List.concat_eq_append] at hcalls hlater
      have hsplit : calls ++ [call] = (before ++ .define symbol.declaration :: later) ++ [last] := by
        simpa using hcalls
      obtain ⟨rfl, hcall⟩ := List.append_inj' hsplit rfl
      rw [List.singleton_inj.1 hcall]
      refine .inr ⟨⟨before, later, rfl, htable, hcount, fun call hcall => ?_⟩, ?_⟩
      · exact hlater call (List.mem_append_left _ hcall)
      · exact hlater last (List.mem_append_right _ (List.mem_singleton_self last))
  · rintro (⟨rfl, htable, hcount⟩ | ⟨⟨before, later, rfl, htable, hcount, hlater⟩, hcall⟩)
    · exact ⟨calls, [], rfl, htable, hcount, nofun⟩
    · refine ⟨before, later ++ [call], by simp, htable, hcount, fun other hother => ?_⟩
      rcases List.mem_append.1 hother with hother | hother
      · exact hlater other hother
      · rw [List.mem_singleton.1 hother]
        exact hcall

theorem mem_symbols_run_iff {calls : List Call} {symbol : Symbol} :
    symbol ∈ (run calls).symbols ↔ Defines calls symbol := by
  induction calls using List.reverseRecOn with
  | nil =>
    refine ⟨nofun, ?_⟩
    rintro ⟨before, later, hcalls, -⟩
    simp at hcalls
  | append_singleton calls call ih =>
    rw [defines_append_singleton, run_append_singleton, ← ih]
    cases call with
    | startScope => simp only [perform, List.not_mem_nil, reduceCtorEq, false_and, ne_eq,
        not_true_eq_false, and_false, or_false]
    | define d =>
      rw [Call.define.injEq]
      cases hdefine : (run calls).table.define d.name d.declaredType d.kind with
      | ok table =>
        rw [perform_of_ok hdefine, List.mem_append, List.mem_singleton, or_comm]
        refine or_congr ⟨?_, ?_⟩ (by simp)
        · rintro rfl
          exact ⟨rfl, ⟨table, hdefine⟩, rfl⟩
        · rintro ⟨rfl, -, hcount⟩
          exact congrArg (Symbol.mk _ _ _) hcount.symm
      | error refusal =>
        rw [perform_of_error hdefine]
        constructor
        · exact fun hmem => .inr ⟨hmem, nofun⟩
        · rintro (⟨rfl, ⟨table, htable⟩, -⟩ | ⟨hmem, -⟩)
          · cases hdefine.symm.trans htable
          · exact hmem

/-- What the table of a scope is, whatever calls were made before. It holds the symbols that were
defined since the scope started. The indices of each kind are those below its count, in the order
of the definitions, and no count is greater than a slot number can be. The size is the sum of the
counts. A name has the symbol of its one definition that succeeded since the scope started. Last, a
definition is refused exactly if its name is defined or its kind is full, and then it changes
nothing. -/
theorem run_represents (calls : List Call) :
    (run calls).table.toList.Perm (run calls).symbols ∧
      (∀ kind, ((run calls).symbols.filter fun symbol => symbol.kind = kind).map Symbol.index =
        List.range ((run calls).table.count kind)) ∧
      (∀ kind, (run calls).table.count kind ≤ slotLimit) ∧
      (run calls).table.size = (run calls).table.count .static + (run calls).table.count .field +
        (run calls).table.count .argument + (run calls).table.count .localVar ∧
      (∀ name symbol, (run calls).table.get? name = some symbol ↔
        symbol.name = name ∧ Defines calls symbol) ∧
      ∀ d, ((∃ refusal, (run calls).table.define d.name d.declaredType d.kind = .error refusal) ↔
          (run calls).table.contains d.name = true ∨ (run calls).table.count d.kind = slotLimit) ∧
        ((∃ refusal, (run calls).table.define d.name d.declaredType d.kind = .error refusal) →
          run (calls ++ [.define d]) = run calls) := by
  have h := run_sound calls
  refine ⟨h.toList_perm, fun kind => ?_, fun kind => ?_, h.size_eq, fun name symbol => ?_, fun d =>
    ⟨exists_refusal_iff, ?_⟩⟩
  · rw [h.lists.count]
    exact h.indices kind
  · rw [h.lists.count]
    exact h.count_le kind
  · rw [h.get?_eq_some_iff, mem_symbols_run_iff]
  · rintro ⟨refusal, hrefusal⟩
    rw [run_append_singleton, perform_of_error hrefusal]

end Session

end SymbolTable

end Jack
