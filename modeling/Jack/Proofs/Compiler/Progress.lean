import Jack.Proofs.Compiler.Local
import Jack.Proofs.Grammar.CallSites
import Jack.Proofs.Scope.Count

/-!
# How far a run has come

A run that has read some entries goes on as another compiler does behind them. What this other
compiler is follows from the lexemes that the entries spell and from the table that the
declarations among them have filled.

Several compilers are followed at once, since the bounds of their repetitions differ. It is enough
that one of them finds nothing wrong with the entries and some others behind them.
-/

namespace Jack.Grammar

theorem Spells.reads {l : Lexeme} {es : List Entry} (h : Spells [l] es) : l.Reads es := by
  obtain ⟨first, _, rfl, hl, rfl⟩ := h
  rwa [List.append_nil]

/-- Lexemes that one entry each is read as. -/
theorem Spells.length_eq {ls : List Lexeme} {es : List Entry} (h : Spells ls es)
    (hls : Lexeme.lastComma ∉ ls) : es.length = ls.length := by
  induction ls generalizing es with
  | nil =>
    obtain rfl : es = [] := h
    rfl
  | cons l ls ih =>
    obtain ⟨first, rest, rfl, hl, hrest⟩ := h
    -- Only the comma after a last argument may be missing.
    have hfirst : first.length = 1 := by
      cases l with
      | marker kind => rw [show first = [.production kind] from hl, List.length_singleton]
      | keyword text | symbol text =>
        obtain ⟨kind, rfl⟩ := hl
        rfl
      | token kind text => rw [show first = [.token kind text] from hl, List.length_singleton]
      | type text => rcases hl with rfl | rfl <;> rfl
      | lastComma => exact absurd (List.mem_cons_self ..) hls
    rw [List.length_append, hfirst, ih hrest fun h => hls (List.mem_cons_of_mem _ h),
      List.length_cons, Nat.add_comm]

end Jack.Grammar

namespace Jack.Compiler

open Grammar (Lexeme Spells separated)

variable {α β γ ι : Type} {m m' m'' : Compiler α} {f : α → Compiler β}
  {used used' es rest : List Entry} {ls ls' : List Lexeme}

/-- Once it has read the entries, the first compiler goes on as the second, whatever follows. -/
def Proceeds (m : Compiler α) (used : List Entry) (m' : Compiler α) : Prop :=
  ∀ rest n l c ns, ∃ l' c' ns', m.run ⟨⟨used ++ rest, n⟩, l, c, ns⟩ =
    m'.run ⟨⟨rest, n + used.length⟩, l', c', ns'⟩

/-- Nothing is wrong but that the tree may have ended too early. -/
def Faultless (r : EStateM.Result Fault CompilerState α) : Prop :=
  ∀ fault s, r = .error fault s → fault.pos? = none

/-- Some run on the entries finds nothing wrong with them. -/
def Accepts (m : Compiler α) (es : List Entry) : Prop :=
  ∃ n l c ns, Faultless (m.run ⟨⟨es, n⟩, l, c, ns⟩)

theorem Faultless.of_bind {s : CompilerState} (h : Faultless ((m >>= f).run s)) :
    Faultless (m.run s) := by
  intro fault t hrun
  apply h fault t
  rw [EStateM.run_bind, hrun]

theorem Faultless.of_run {s t : CompilerState} {a : α} (h : Faultless ((m >>= f).run s))
    (hrun : m.run s = .ok a t) : Faultless ((f a).run t) := by
  rw [EStateM.run_bind, hrun] at h
  exact h

theorem proceeds_refl (m : Compiler α) : Proceeds m [] m := fun _ _ l c ns => ⟨l, c, ns, rfl⟩

theorem Proceeds.trans (h : Proceeds m used m') (h' : Proceeds m' used' m'') :
    Proceeds m (used ++ used') m'' := by
  intro rest n l c ns
  obtain ⟨l₁, c₁, ns₁, hrun⟩ := h (used' ++ rest) n l c ns
  obtain ⟨l₂, c₂, ns₂, hrun'⟩ := h' rest (n + used.length) l₁ c₁ ns₁
  refine ⟨l₂, c₂, ns₂, ?_⟩
  rw [List.append_assoc, hrun, hrun', List.length_append, Nat.add_assoc]

theorem Proceeds.bind (h : Proceeds m used m') : Proceeds (m >>= f) used (m' >>= f) := by
  intro rest n l c ns
  obtain ⟨l', c', ns', hrun⟩ := h rest n l c ns
  exact ⟨l', c', ns', by rw [EStateM.run_bind, EStateM.run_bind, hrun]⟩

theorem Accepts.of_bind (h : Accepts (m >>= f) es) : Accepts m es := by
  obtain ⟨n, l, c, ns, hfaultless⟩ := h
  exact ⟨n, l, c, ns, hfaultless.of_bind⟩

theorem Proceeds.accepts (h : Proceeds m used m') (haccepts : Accepts m (used ++ rest)) :
    Accepts m' rest := by
  obtain ⟨n, l, c, ns, hfaultless⟩ := haccepts
  obtain ⟨l', c', ns', hrun⟩ := h rest n l c ns
  rw [hrun] at hfaultless
  exact ⟨n + used.length, l', c', ns', hfaultless⟩

/-! ## One entry -/

theorem proceeds_read {expected : String} {select : Entry → Option α} {e : Entry} {a : α}
    (h : select e = some a) : Proceeds (read expected select >>= f) [e] (f a) := by
  intro rest n l c ns
  refine ⟨l, c, ns, ?_⟩
  rw [List.singleton_append, EStateM.run_bind, run_read h]
  rfl

theorem proceeds_marker {f : Unit → Compiler β} (p : Production) :
    Proceeds (marker p >>= f) [.production p] (f ()) := proceeds_read (if_pos rfl)

theorem proceeds_word {f : Unit → Compiler β} (kind : TokenKind) (text : String) :
    Proceeds (word text >>= f) [.token kind text] (f ()) := proceeds_read (if_pos rfl)

theorem proceeds_identifier {f : String → Compiler β} (name : String) :
    Proceeds (identifier >>= f) [.token .identifier name] (f name) := proceeds_read rfl

theorem proceeds_type {f : String → Compiler β} {declaredType : String}
    (h : (Lexeme.type declaredType).Reads used) : Proceeds (type >>= f) used (f declaredType) := by
  rcases h with rfl | rfl
  · exact proceeds_read rfl
  · exact proceeds_read rfl

theorem proceeds_keyword {expected text : String} {meaning? : String → Option α} {a : α}
    (h : meaning? text = some a) :
    Proceeds (keyword expected meaning? >>= f) [.token .keyword text] (f a) := proceeds_read h

theorem proceeds_accept {f : Bool → Compiler β} (e : Entry) :
    Proceeds (accept e >>= f) [e] (f true) := by
  intro rest n l c ns
  refine ⟨l, c, ns, ?_⟩
  rw [List.singleton_append, EStateM.run_bind, run_accept_self]
  rfl

theorem proceeds_note {f : Unit → Compiler β} {m' : Compiler β} (notice : Notice)
    (h : Proceeds (f ()) used m') : Proceeds (note notice >>= f) used m' :=
  fun rest n l c ns => h rest n l c (ns.push notice)

theorem proceeds_position {f : Position → Compiler β} {m' : Compiler β}
    (h : ∀ pos, Proceeds (f pos) used m') : Proceeds (position >>= f) used m' :=
  fun rest n l c ns => h (.ofIndex n) rest n l c ns

/-- The marker is looked at before it is passed. -/
theorem proceeds_atProduction {f : Bool → Compiler β} {m' : Compiler β} (p : Production)
    (h : Proceeds (f true) (.production p :: used) m') :
    Proceeds (atProduction p >>= f) (.production p :: used) m' := by
  intro rest n l c ns
  obtain ⟨l', c', ns', hrun⟩ := h rest n l c ns
  refine ⟨l', c', ns', ?_⟩
  rw [EStateM.run_bind, run_atProduction, List.cons_append, List.head?_cons, decide_eq_true rfl]
  exact hrun

theorem proceeds_advance {f : Unit → Compiler β} (e : Entry) :
    Proceeds (advance >>= f) [e] (f ()) := fun _ _ l c ns => ⟨l, c, ns, rfl⟩

theorem proceeds_atSymbol {f : Bool → Compiler β} {m' : Compiler β} {text : String} {e : Entry}
    (h : Proceeds (f (decide (e = .token .symbol text))) (e :: used) m') :
    Proceeds (atSymbol text >>= f) (e :: used) m' := by
  intro rest n l c ns
  obtain ⟨l', c', ns', hrun⟩ := h rest n l c ns
  refine ⟨l', c', ns', ?_⟩
  rw [EStateM.run_bind, run_atSymbol, List.cons_append, List.head?_cons]
  simp only [Option.some.injEq]
  exact hrun

theorem Accepts.word {f : Unit → Compiler β} {text : String} {e : Entry}
    (h : Accepts (word text >>= f) (e :: es)) : e.text = text := by
  obtain ⟨n, l, c, ns, hfaultless⟩ := h.of_bind
  by_contra htext
  have hrun : (Compiler.word text).run ⟨⟨e :: es, n⟩, l, c, ns⟩ =
      .error (.mismatch ("'" ++ text ++ "'") e.describe (.ofIndex n)) ⟨⟨e :: es, n⟩, l, c, ns⟩ := by
    simp only [Compiler.word, read, EStateM.run_bind, run_peek?, List.head?_cons, Option.bind_some,
      if_neg htext]
    rfl
  cases hfaultless _ _ hrun

/-! ## Filling a table -/

variable {fm : ι → SymbolTable → Compiler α} {fm' fm'' : ι → SymbolTable → Compiler α}
  {ds added added' : List Declaration} {table : SymbolTable}

/-- If one of the compilers accepts entries that begin by spelling the lexemes, then all read these
alike, and the table has grown by the declarations added when they go on. -/
def Fills (m : ι → SymbolTable → Compiler α) (ls : List Lexeme) (added : List Declaration)
    (m' : ι → SymbolTable → Compiler α) : Prop :=
  ∀ table ds used rest i, table.Tallies ds → Spells ls used → Accepts (m i table) (used ++ rest) →
    ∃ table', table'.Tallies (ds ++ added) ∧ ∀ i, Proceeds (m i table) used (m' i table')

theorem fills_refl (fm : ι → SymbolTable → Compiler α) : Fills fm [] [] fm := by
  intro table ds used rest i htable hspells _
  obtain rfl : used = [] := hspells
  exact ⟨table, by rwa [List.append_nil], fun i => proceeds_refl _⟩

theorem Fills.trans (h : Fills fm ls added fm') (h' : Fills fm' ls' added' fm'') :
    Fills fm (ls ++ ls') (added ++ added') fm'' := by
  intro table ds used rest i htable hspells haccepts
  obtain ⟨used₁, used₂, rfl, hspells₁, hspells₂⟩ := hspells.split
  rw [List.append_assoc] at haccepts
  obtain ⟨table₁, htable₁, hproceeds₁⟩ := h table ds used₁ _ i htable hspells₁ haccepts
  have haccepts₁ := (hproceeds₁ i).accepts haccepts
  obtain ⟨table₂, htable₂, hproceeds₂⟩ := h' table₁ _ used₂ rest i htable₁ hspells₂ haccepts₁
  refine ⟨table₂, ?_, fun i => (hproceeds₁ i).trans (hproceeds₂ i)⟩
  rwa [← List.append_assoc]

/-- Lexemes that declare nothing. -/
theorem fills_of_proceeds
    (h : ∀ used i table, Spells ls used → Proceeds (fm i table) used (fm' i table)) :
    Fills fm ls [] fm' := by
  intro table ds used rest i htable hspells _
  exact ⟨table, by rwa [List.append_nil], fun i => h used i table hspells⟩

/-- The compiler reads the lexemes as one declaration. -/
abbrev Declares (item : SymbolTable → Compiler SymbolTable) (ls : List Lexeme) (d : Declaration) :
    Prop :=
  Fills (fun (_ : Unit) table => item table) ls [d] fun _ table => pure table

theorem Declares.then {item : SymbolTable → Compiler SymbolTable} {d : Declaration}
    {f : ι → SymbolTable → Compiler β} (h : Declares item ls d) :
    Fills (fun i table => item table >>= f i) ls [d] f := by
  intro table ds used rest i htable hspells haccepts
  obtain ⟨table', htable', hproceeds⟩ := h table ds used rest () htable hspells haccepts.of_bind
  exact ⟨table', htable', fun i => (hproceeds ()).bind⟩

/-! ## Declared names -/

variable {className declaredType name : String} {kind : Storage} {n : Nat} {l : Vm.LabelSupply}
  {c : Vm.Code} {ns : Array Notice}

theorem run_declareName :
    (declareName className kind declaredType table).run
        ⟨⟨.token .identifier name :: rest, n⟩, l, c, ns⟩ =
      (define className table name declaredType kind (.ofIndex n)).run
        ⟨⟨rest, n + 1⟩, l, c, ns⟩ := rfl

/-- The fault names the entry of the name. -/
theorem run_declareName_of_exhausted (h : table.Tallies ds) (hexhausted : Exhausted ds name kind) :
    (declareName className kind declaredType table).run
        ⟨⟨.token .identifier name :: rest, n⟩, l, c, ns⟩ =
      .error (.limit (kind.name ++ " variables") (.ofIndex n)) ⟨⟨rest, n + 1⟩, l, c, ns⟩ := by
  rw [run_declareName, define, h.define_eq_full_iff.2 hexhausted]
  rfl

theorem proceeds_declareName (h : table.Tallies ds) (hroom : ¬Exhausted ds name kind) :
    ∃ table', table'.Tallies (ds ++ [⟨name, declaredType, kind⟩]) ∧
      Proceeds (declareName className kind declaredType table) [.token .identifier name]
        (pure table') := by
  cases hdefine : table.define name declaredType kind with
  | ok table' =>
    refine ⟨table', h.define hdefine declaredType, fun rest n l c ns => ⟨l, c, ns, ?_⟩⟩
    rw [List.singleton_append, run_declareName, define, hdefine]
    rfl
  | error refusal =>
    cases refusal with
    | duplicate =>
      -- The name is reported, and the table already holds it.
      let notice : Notice := .duplicateIgnored className kind name
      refine ⟨table, h.duplicate hdefine declaredType, fun rest n l c ns =>
        ⟨l, c, ns.push notice, ?_⟩⟩
      rw [List.singleton_append, run_declareName, define, hdefine]
      rfl
    | full => exact absurd (h.define_eq_full_iff.1 hdefine) hroom

theorem declares_name (name : String) :
    Declares (declareName className kind declaredType) [.token .identifier name]
      ⟨name, declaredType, kind⟩ := by
  intro table ds used rest _ htable hspells haccepts
  obtain rfl : used = [.token .identifier name] := hspells.reads
  have hroom : ¬Exhausted ds name kind := by
    intro hexhausted
    obtain ⟨n, l, c, ns, hfaultless⟩ := haccepts
    cases hfaultless _ _ (run_declareName_of_exhausted htable hexhausted)
  obtain ⟨table', htable', hproceeds⟩ := proceeds_declareName htable hroom
  exact ⟨table', htable', fun _ => hproceeds⟩

/-! ## Items with commas -/

/-- Items with a comma between any two. -/
def items (item : SymbolTable → Compiler SymbolTable) :
    (bound : Nat) → SymbolTable → Compiler SymbolTable
  | 0, table => item table
  | bound + 1, table => do
    let table ← item table
    if ← accept comma then items item bound table else pure table

/-- What follows an item. -/
def moreItems (item : SymbolTable → Compiler SymbolTable) :
    (bound : Nat) → SymbolTable → Compiler SymbolTable
  | 0, table => pure table
  | bound + 1, table => do if ← accept comma then items item bound table else pure table

/-- Items up to a word that ends them. -/
def itemsUntil (item : SymbolTable → Compiler SymbolTable) (stop : String)
    (f : SymbolTable → Compiler β) (bound : Nat) (table : SymbolTable) : Compiler β :=
  items item bound table >>= fun table => word stop >>= fun _ => f table

/-- What follows an item, up to the word that ends all. -/
def moreItemsUntil (item : SymbolTable → Compiler SymbolTable) (stop : String)
    (f : SymbolTable → Compiler β) (bound : Nat) (table : SymbolTable) : Compiler β :=
  moreItems item bound table >>= fun table => word stop >>= fun _ => f table

theorem declareNames_eq (bound : Nat) : ∀ table,
    declareNames className kind declaredType bound table =
      items (declareName className kind declaredType) bound table := by
  induction bound with
  | zero => exact fun table => rfl
  | succ bound ih =>
    intro table
    simp only [declareNames, items, ih]

theorem parameters_eq (bound : Nat) : ∀ table,
    parameters className bound table = items (parameters.parameter className) bound table := by
  induction bound with
  | zero => exact fun table => rfl
  | succ bound ih =>
    intro table
    simp only [parameters, items, ih]

section

variable {item : SymbolTable → Compiler SymbolTable} {stop : String} {bound : ι → Nat}
  {f : ι → SymbolTable → Compiler β} {d : Declaration}

theorem itemsUntil_eq (item : SymbolTable → Compiler SymbolTable) (stop : String)
    (f : SymbolTable → Compiler β) (bound : Nat) (table : SymbolTable) :
    itemsUntil item stop f bound table = item table >>= moreItemsUntil item stop f bound := by
  have hitems : items item bound table = item table >>= moreItems item bound := by
    cases bound with
    | zero => exact (bind_pure (item table)).symm
    | succ bound => rfl
  rw [itemsUntil, hitems, bind_assoc]
  rfl

/-- Without a comma the word is next. -/
theorem run_moreItemsUntil_of_ne {f : SymbolTable → Compiler β} (hes : es.head? ≠ some comma)
    (bound : Nat) : (moreItemsUntil item stop f bound table).run ⟨⟨es, n⟩, l, c, ns⟩ =
      (word stop >>= fun _ => f table).run ⟨⟨es, n⟩, l, c, ns⟩ := by
  cases bound with
  | zero => rfl
  | succ bound =>
    rw [moreItemsUntil, moreItems, bind_assoc, EStateM.run_bind, run_accept_of_ne hes]
    rfl

theorem accepts_moreItemsUntil {f : SymbolTable → Compiler β} {bound : Nat} {e : Entry}
    (h : Accepts (moreItemsUntil item stop f bound table) (e :: es)) :
    e = comma ∨ e.text = stop := by
  by_cases hcomma : e = comma
  · exact .inl hcomma
  · have hhead : (e :: es).head? ≠ some comma := fun h => hcomma (Option.some.inj h)
    obtain ⟨n, l, c, ns, hfaultless⟩ := h
    rw [run_moreItemsUntil_of_ne hhead] at hfaultless
    have hword : Accepts (word stop >>= fun _ => f table) (e :: es) := ⟨n, l, c, ns, hfaultless⟩
    exact .inr hword.word

/-- A comma behind an item leads to the next one. -/
theorem fills_itemComma (h : Declares item ls d) (hstop : stop ≠ ",") :
    Fills (fun i table => itemsUntil item stop (f i) (bound i + 1) table) (ls ++ [.symbol ","]) [d]
      fun i table => itemsUntil item stop (f i) (bound i) table := by
  have hitem : Fills (fun i table => itemsUntil item stop (f i) (bound i + 1) table) ls [d]
      fun i table => moreItemsUntil item stop (f i) (bound i + 1) table := by
    simp only [itemsUntil_eq]
    exact h.then
  have hcomma : Fills (fun i table => moreItemsUntil item stop (f i) (bound i + 1) table)
      [.symbol ","] [] fun i table => itemsUntil item stop (f i) (bound i) table := by
    intro table ds used rest i htable hspells haccepts
    obtain ⟨tokenKind, rfl⟩ := hspells.reads
    -- Only a symbol is taken for a comma here.
    obtain hcomma | hstop' := accepts_moreItemsUntil haccepts
    · refine ⟨table, by rwa [List.append_nil], fun i => ?_⟩
      rw [hcomma]
      simp only [moreItemsUntil, moreItems, bind_assoc]
      exact proceeds_accept comma
    · exact absurd hstop'.symm hstop
  exact hitem.trans hcomma

/-- The last item is followed by the word that ends all. -/
theorem fills_itemStop (h : Declares item ls d) (hstop : stop ≠ ",") :
    Fills (fun i table => itemsUntil item stop (f i) (bound i) table) (ls ++ [.symbol stop]) [d]
      f := by
  have hitem : Fills (fun i table => itemsUntil item stop (f i) (bound i) table) ls [d]
      fun i table => moreItemsUntil item stop (f i) (bound i) table := by
    simp only [itemsUntil_eq]
    exact h.then
  have hword : Fills (fun i table => moreItemsUntil item stop (f i) (bound i) table)
      [.symbol stop] [] f := by
    apply fills_of_proceeds
    intro used i table hspells
    obtain ⟨tokenKind, rfl⟩ := hspells.reads
    intro rest n l c ns
    have hhead : ([Entry.token tokenKind stop] ++ rest).head? ≠ some comma :=
      fun h => hstop (Entry.token.inj (Option.some.inj h)).2
    rw [run_moreItemsUntil_of_ne hhead]
    exact proceeds_word tokenKind stop rest n l c ns
  exact hitem.trans hword

variable {δ : Type} {lexemes : δ → List Lexeme} {declaration : δ → Declaration}

/-- Items with a comma behind each. -/
theorem fills_listed (h : ∀ x, Declares item (lexemes x) (declaration x)) (hstop : stop ≠ ",")
    (xs : List δ) : ∀ bound : ι → Nat, Fills
      (fun i table => itemsUntil item stop (f i) (bound i + xs.length) table) (listed lexemes xs)
      (xs.map declaration) fun i table => itemsUntil item stop (f i) (bound i) table := by
  induction xs with
  | nil => exact fun bound => fills_refl _
  | cons x xs ih => exact fun bound => (fills_itemComma (h x) hstop).trans (ih bound)

/-- All items, and the word that ends them. -/
theorem fills_separated (h : ∀ x, Declares item (lexemes x) (declaration x)) (hstop : stop ≠ ",")
    (x : δ) (xs : List δ) (hbound : ∀ i, xs.length ≤ bound i) :
    Fills (fun i table => itemsUntil item stop (f i) (bound i) table)
      (separated lexemes (x :: xs) ++ [.symbol stop]) ((x :: xs).map declaration) f := by
  -- All items but the last one have a comma behind them.
  obtain ⟨front, last, hlast⟩ : ∃ front last, x :: xs = front ++ [last] :=
    ⟨_, _, (List.dropLast_append_getLast (List.cons_ne_nil x xs)).symm⟩
  have hlength : front.length = xs.length := by
    have hlength := congrArg List.length hlast
    rw [List.length_append, List.length_cons, List.length_singleton] at hlength
    omega
  have hsum : bound = fun i => bound i - xs.length + front.length := by
    funext i
    have hle := hbound i
    omega
  rw [hlast, separated_concat, List.map_append, List.append_assoc, hsum]
  exact (fills_listed h hstop front _).trans (fills_itemStop (h last) hstop)

end

end Jack.Compiler
