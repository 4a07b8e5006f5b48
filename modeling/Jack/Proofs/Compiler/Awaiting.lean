import Jack.Proofs.Compiler.Progress
import Jack.Proofs.Grammar.Variables

/-!
# Names that are about to be declared

Among the entries of a declaration there are places where the next step declares a name. Which names
are declared before in the same table can be read off the lexemes that lead there.
-/

namespace Jack.Compiler

open Grammar

variable {α β γ ι : Type} {m m' : Compiler α} {f : α → Compiler β}
  {used es rest : List Entry} {ls head : List Lexeme} {className declaredType : String}
  {kind : Storage} {table : SymbolTable} {ds : List Declaration}

/-! ## Runs that come to the end -/

/-- No entry is left, or one is missing. -/
def EndsDry : EStateM.Result Fault CompilerState α → Prop
  | .ok _ t => t.cursor.rest = []
  | .error fault _ => ∃ expected, fault = .endOfTree expected

/-- No entry is left, or there is a fault that is about no limit. -/
def EndsShort : EStateM.Result Fault CompilerState α → Prop
  | .ok _ t => t.cursor.rest = []
  | .error fault _ => ∀ what pos, fault ≠ .limit what pos

/-- Where no entry is left, none is needed or the fault says that it is missing. -/
def Dry (m : Compiler α) : Prop := ∀ s, s.cursor.rest = [] → EndsDry (m.run s)

/-- One more entry at least is needed, and no limit is met at the first one. -/
structure StopsShort (m : Compiler α) : Prop where
  missing : ∀ s, s.cursor.rest = [] → ∃ expected t, m.run s = .error (.endOfTree expected) t
  short : ∀ s, s.cursor.rest.length = 1 → EndsShort (m.run s)

theorem EndsDry.short {r : EStateM.Result Fault CompilerState α} (h : EndsDry r) :
    EndsShort r := by
  cases r with
  | ok a t => exact h
  | error fault t =>
    obtain ⟨expected, rfl⟩ := h
    exact nofun

theorem dry_pure (a : α) : Dry (pure a) := fun _ hs => hs

theorem Dry.bind (h : Dry m) (hf : ∀ a, Dry (f a)) : Dry (m >>= f) := by
  intro s hs
  have hm := h s hs
  rw [EStateM.run_bind]
  cases hrun : m.run s with
  | ok a t =>
    rw [hrun] at hm
    exact hf a t hm
  | error fault t =>
    rw [hrun] at hm
    exact hm

theorem StopsShort.bind (h : StopsShort m) (hf : ∀ a, Dry (f a)) : StopsShort (m >>= f) := by
  constructor
  · intro s hs
    obtain ⟨expected, t, hrun⟩ := h.missing s hs
    exact ⟨expected, t, by rw [EStateM.run_bind, hrun]⟩
  · intro s hs
    have hm := h.short s hs
    rw [EStateM.run_bind]
    cases hrun : m.run s with
    | ok a t =>
      rw [hrun] at hm
      exact (hf a t hm).short
    | error fault t =>
      rw [hrun] at hm
      exact hm

/-- Nothing can be read where nothing is left, whatever would come afterwards. -/
theorem dry_read (expected : String) (select : Entry → Option α) :
    Dry (read expected select >>= f) := by
  intro s hs
  obtain ⟨⟨rest, n⟩, l, c, ns⟩ := s
  obtain rfl : rest = [] := hs
  exact ⟨expected, rfl⟩

theorem dry_atProduction {f : Bool → Compiler β} (p : Production) (hf : Dry (f false)) :
    Dry (atProduction p >>= f) := by
  intro s hs
  obtain ⟨⟨rest, n⟩, l, c, ns⟩ := s
  obtain rfl : rest = [] := hs
  exact hf ⟨⟨[], n⟩, l, c, ns⟩ rfl

theorem dry_emitAll (is : List Vm.Instruction) : Dry (emitAll is) := by
  intro s hs
  obtain ⟨⟨rest, n⟩, l, c, ns⟩ := s
  rw [run_emitAll]
  exact hs

theorem dry_declareName {f : SymbolTable → Compiler β} :
    Dry (declareName className kind declaredType table >>= f) := by
  rw [declareName, bind_assoc]
  refine Dry.bind (fun s hs => hs) fun pos => ?_
  rw [bind_assoc]
  exact dry_read _ _

theorem dry_parameter {f : SymbolTable → Compiler β} :
    Dry (parameters.parameter className table >>= f) := by
  rw [parameters.parameter, bind_assoc]
  exact dry_read _ _

theorem dry_classVarDecs (bound : Nat) (table : SymbolTable) :
    Dry (classVarDecs className bound table) := by
  cases bound with
  | zero => exact dry_pure table
  | succ bound => exact dry_atProduction _ (dry_pure table)

theorem dry_varDecs (bound : Nat) (table : SymbolTable) :
    Dry (varDecs className bound table) := by
  cases bound with
  | zero => exact dry_pure table
  | succ bound => exact dry_atProduction _ (dry_pure table)

theorem dry_subroutineDecs (classTable : SymbolTable) (bound : Nat) :
    Dry (subroutineDecs className classTable bound) := by
  cases bound with
  | zero => exact dry_pure ()
  | succ bound => exact dry_atProduction _ (dry_pure ())

theorem dry_classRest (classTable : SymbolTable) (bound : Nat) :
    Dry (classRest className classTable bound) :=
  (dry_subroutineDecs classTable bound).bind fun _ => dry_read _ _

theorem stopsShort_word (text : String) : StopsShort (word text) := by
  constructor
  · intro s hs
    obtain ⟨⟨rest, n⟩, l, c, ns⟩ := s
    obtain rfl : rest = [] := hs
    exact ⟨_, _, rfl⟩
  · intro s hs
    obtain ⟨⟨rest, n⟩, l, c, ns⟩ := s
    obtain ⟨e, rfl⟩ := List.length_eq_one_iff.1 hs
    by_cases htext : e.text = text
    · rw [word, run_read (if_pos htext)]
      exact rfl
    · simp only [word, read, EStateM.run_bind, run_peek?, List.head?_cons, Option.bind_some,
        if_neg htext]
      intro what pos heq
      cases heq

theorem stopsShort_moreItemsUntil {item : SymbolTable → Compiler SymbolTable} {stop : String}
    {f : SymbolTable → Compiler β} (hitem : ∀ table g, Dry (item table >>= (g : _ → Compiler β)))
    (hf : ∀ table, Dry (f table)) (bound : Nat) (table : SymbolTable) :
    StopsShort (moreItemsUntil item stop f bound table) := by
  have hstop : StopsShort (word stop >>= fun _ => f table) :=
    (stopsShort_word stop).bind fun _ => hf table
  constructor
  · intro s hs
    obtain ⟨⟨rest, n⟩, l, c, ns⟩ := s
    obtain rfl : rest = [] := hs
    have hhead : ([] : List Entry).head? ≠ some comma := nofun
    rw [run_moreItemsUntil_of_ne hhead]
    exact hstop.missing _ rfl
  · intro s hs
    obtain ⟨⟨rest, n⟩, l, c, ns⟩ := s
    obtain ⟨e, rfl⟩ := List.length_eq_one_iff.1 hs
    by_cases hcomma : e = comma
    · cases bound with
      | zero => exact hstop.short _ hs
      | succ bound =>
        -- The comma is the last entry, and so the next item is missing.
        have hmore : Dry (itemsUntil item stop f bound table) := by
          rw [itemsUntil_eq]
          exact hitem table _
        rw [hcomma, moreItemsUntil, moreItems, bind_assoc, EStateM.run_bind, run_accept_self]
        exact (hmore _ rfl).short
    · have hhead : [e].head? ≠ some comma := fun h => hcomma (Option.some.inj h)
      rw [run_moreItemsUntil_of_ne hhead]
      exact hstop.short _ hs

/-! ## Compilers that await a name -/

/-- The next step declares a name, in a table that the declarations have filled. More than the name
is needed then. -/
def AwaitsName (kind : Storage) (ds : List Declaration) (m : Compiler α) : Prop :=
  ∃ className declaredType table k, table.Tallies ds ∧ (∀ table, StopsShort (k table)) ∧
    m = declareName className kind declaredType table >>= k

theorem AwaitsName.bind (h : AwaitsName kind ds m) (hf : ∀ a, Dry (f a)) :
    AwaitsName kind ds (m >>= f) := by
  obtain ⟨className, declaredType, table, k, htable, hk, rfl⟩ := h
  refine ⟨className, declaredType, table, fun table => k table >>= f, htable, ?_, bind_assoc ..⟩
  exact fun table => (hk table).bind hf

section

variable {name : String} {n : Nat} {l : Vm.LabelSupply} {c : Vm.Code} {ns : Array Notice}

/-- If there is no room for the name, the fault names its entry, whatever follows. -/
theorem AwaitsName.run_of_exhausted (h : AwaitsName kind ds m) (hname : Exhausted ds name kind) :
    ∃ s, m.run ⟨⟨.token .identifier name :: rest, n⟩, l, c, ns⟩ =
      .error (.limit (kind.name ++ " variables") (.ofIndex n)) s := by
  obtain ⟨className, declaredType, table, k, htable, hk, rfl⟩ := h
  refine ⟨⟨⟨rest, n + 1⟩, l, c, ns⟩, ?_⟩
  rw [EStateM.run_bind, run_declareName_of_exhausted htable hname]

/-- If there is room for the name, or it is declared already, the run gets past it. -/
theorem AwaitsName.run_of_room (h : AwaitsName kind ds m) (hname : ¬Exhausted ds name kind) :
    ∃ m', StopsShort m' ∧ Proceeds m [.token .identifier name] m' := by
  obtain ⟨className, declaredType, table, k, htable, hk, rfl⟩ := h
  obtain ⟨table', -, hproceeds⟩ := proceeds_declareName htable hname
  exact ⟨k table', hk table', hproceeds.bind⟩

end

theorem awaitsName_itemsUntil {stop : String} {f : SymbolTable → Compiler β} {bound : Nat}
    (htable : table.Tallies ds) (hf : ∀ table, Dry (f table)) :
    AwaitsName kind ds
      (itemsUntil (declareName className kind declaredType) stop f bound table) := by
  refine ⟨className, declaredType, table, _, htable, fun table => ?_, itemsUntil_eq ..⟩
  exact stopsShort_moreItemsUntil (fun table g => dry_declareName) hf bound table

/-- Behind the type of a parameter, its name is next. -/
theorem awaitsName_parameter {stop : String} {f : SymbolTable → Compiler β} {bound : Nat}
    (htable : table.Tallies ds) (hf : ∀ table, Dry (f table)) :
    AwaitsName .argument ds (declareName className .argument declaredType table >>=
      moreItemsUntil (parameters.parameter className) stop f bound) :=
  ⟨className, declaredType, table, _, htable,
    fun table => stopsShort_moreItemsUntil (fun _ _ => dry_parameter) hf bound table, rfl⟩

/-- As the compilers fill the table, they come to a name of the kind. -/
def ComesTo (m : ι → SymbolTable → Compiler α) (ls : List Lexeme) (kind : Storage)
    (added : List Declaration) : Prop :=
  ∀ table ds used rest i, table.Tallies ds → Spells ls used → Accepts (m i table) (used ++ rest) →
    ∀ i, ∃ m', AwaitsName kind (ds ++ added) m' ∧ Proceeds (m i table) used m'

section

variable {fm fm' : ι → SymbolTable → Compiler α} {ls' : List Lexeme}
  {added added' : List Declaration}

theorem Fills.comesTo (h : Fills fm ls added fm')
    (hawaits : ∀ i table ds, table.Tallies ds → AwaitsName kind ds (fm' i table)) :
    ComesTo fm ls kind added := by
  intro table ds used rest i htable hspells haccepts
  obtain ⟨table', htable', hproceeds⟩ := h table ds used rest i htable hspells haccepts
  exact fun i => ⟨fm' i table', hawaits i table' _ htable', hproceeds i⟩

theorem ComesTo.after (h' : ComesTo fm' ls' kind added') (h : Fills fm ls added fm') :
    ComesTo fm (ls ++ ls') kind (added ++ added') := by
  intro table ds used rest i htable hspells haccepts
  obtain ⟨used₁, used₂, rfl, hspells₁, hspells₂⟩ := hspells.split
  rw [List.append_assoc] at haccepts
  obtain ⟨table₁, htable₁, hproceeds⟩ := h table ds used₁ _ i htable hspells₁ haccepts
  have haccepts₁ := (hproceeds i).accepts haccepts
  intro i
  obtain ⟨m', hm', hproceeds'⟩ := h' table₁ _ used₂ rest _ htable₁ hspells₂ haccepts₁ i
  exact ⟨m', List.append_assoc ds added added' ▸ hm', (hproceeds i).trans hproceeds'⟩

end

/-! ## Declarations in a row -/

/-- Each round reads a head, which says what kind the variables are of, and then the variables. -/
def Repeats (className : String) (decs : Nat → SymbolTable → Compiler SymbolTable)
    (kind : Storage) (head : List Lexeme) : Prop :=
  ∀ {β : Type} (f : SymbolTable → Compiler β) bound declaredType used table,
    Spells (head ++ [.type declaredType]) used →
    Proceeds (decs (bound + 1) table >>= f) used
      (itemsUntil (declareName className kind declaredType) ";"
        (fun table => decs bound table >>= f) bound table)

theorem repeats_classVarDecs (hkind : kind.isClassLevel = true) :
    Repeats className (classVarDecs className) kind
      [.marker .classVarDec, .token .keyword kind.name] := by
  intro β f bound declaredType used table hspells
  obtain ⟨_, _, rfl, rfl, _, _, rfl, rfl, hspells⟩ := hspells
  have htype := hspells.reads
  have hkeyword : Storage.ofClassKeyword? kind.name = some kind :=
    Storage.ofClassKeyword?_eq_some_iff.2 ⟨hkind, rfl⟩
  simp only [classVarDecs, bind_assoc]
  apply proceeds_atProduction
  simp only [if_true, declareTyped, declareNames_eq, bind_assoc, pure_bind]
  exact (proceeds_advance _).trans ((proceeds_keyword hkeyword).trans (proceeds_type htype))

theorem repeats_varDecs :
    Repeats className (varDecs className) .localVar [.marker .varDec, .keyword "var"] := by
  intro β f bound declaredType used table hspells
  obtain ⟨_, _, rfl, rfl, _, _, rfl, ⟨tokenKind, rfl⟩, hspells⟩ := hspells
  have htype := hspells.reads
  simp only [varDecs, bind_assoc]
  apply proceeds_atProduction
  simp only [if_true, declareTyped, declareNames_eq, bind_assoc, pure_bind]
  exact (proceeds_advance _).trans ((proceeds_word _ _).trans (proceeds_type htype))

theorem length_le_flatMap {δ : Type} {g : δ → List Lexeme} (h : ∀ x, 0 < (g x).length)
    (xs : List δ) : xs.length ≤ (xs.flatMap g).length := by
  induction xs with
  | nil => exact Nat.le_refl _
  | cons x xs ih =>
    have hpos := h x
    rw [List.flatMap_cons, List.length_append, List.length_cons]
    omega

theorem length_le_listed {δ : Type} (item : δ → List Lexeme) (xs : List δ) :
    xs.length ≤ (listed item xs).length := by
  apply length_le_flatMap
  intro x
  rw [List.length_append]
  exact Nat.succ_pos _

theorem length_variables (vs : Variables) : vs.lexemes.length = 2 * vs.more.length + 3 := by
  simp [Variables.lexemes, Variables.names, separated, nameLexemes]
  omega

section

variable {decs : Nat → SymbolTable → Compiler SymbolTable} {bound : ι → Nat}
  {f : ι → SymbolTable → Compiler β}

theorem fills_variables (h : Repeats className decs kind head) (vs : Variables)
    (hbound : ∀ i, vs.more.length ≤ bound i) :
    Fills (fun i table => decs (bound i + 1) table >>= f i) (head ++ vs.lexemes)
      (vs.declarations kind) fun i table => decs (bound i) table >>= f i := by
  have hhead : Fills (fun i table => decs (bound i + 1) table >>= f i)
      (head ++ [.type vs.declaredType]) [] fun i table =>
        itemsUntil (declareName className kind vs.declaredType) ";"
          (fun table => decs (bound i) table >>= f i) (bound i) table :=
    fills_of_proceeds fun used i table hspells => h (f i) (bound i) _ used table hspells
  have hname (name : String) : Declares (declareName className kind vs.declaredType)
      (nameLexemes name) ⟨name, vs.declaredType, kind⟩ := declares_name name
  have hnames : Fills _ (separated nameLexemes vs.names ++ [.symbol ";"]) (vs.declarations kind)
      fun i table => decs (bound i) table >>= f i :=
    fills_separated hname (by decide) vs.first vs.more hbound
  have hlexemes : head ++ vs.lexemes = head ++ [.type vs.declaredType] ++
      (separated nameLexemes vs.names ++ [.symbol ";"]) := by
    simp only [Variables.lexemes, List.append_assoc]
  rw [hlexemes]
  exact hhead.trans hnames

/-- A row of declarations is read round by round. -/
theorem fills_declarations {δ : Type} {headOf : δ → List Lexeme} {kindOf : δ → Storage}
    {variablesOf : δ → Variables} (h : ∀ x, Repeats className decs (kindOf x) (headOf x))
    (xs : List δ) : ∀ bound : ι → Nat,
    (∀ i, (xs.flatMap fun x => headOf x ++ (variablesOf x).lexemes).length ≤
      bound i + xs.length) →
    Fills (fun i table => decs (bound i + xs.length) table >>= f i)
      (xs.flatMap fun x => headOf x ++ (variablesOf x).lexemes)
      (xs.flatMap fun x => (variablesOf x).declarations (kindOf x))
      fun i table => decs (bound i) table >>= f i := by
  induction xs with
  | nil => exact fun bound _ => fills_refl _
  | cons x xs ih =>
    intro bound hbound
    -- Each round takes one from the bound, and what remains has to cover the names of the round.
    simp only [List.flatMap_cons, List.length_append, length_variables, List.length_cons] at hbound
    have hfirst : Fills (fun i table => decs (bound i + xs.length + 1) table >>= f i)
        (headOf x ++ (variablesOf x).lexemes) ((variablesOf x).declarations (kindOf x))
        fun i table => decs (bound i + xs.length) table >>= f i := by
      apply fills_variables (h x)
      intro i
      have hle := hbound i
      omega
    have hmore := ih bound fun i => by
      have hle := hbound i
      omega
    exact hfirst.trans hmore

/-- Within a declaration, every name is awaited. -/
theorem comesTo_name (h : Repeats className decs kind head) (hdecs : ∀ b table, Dry (decs b table))
    (hf : ∀ i table, Dry (f i table)) (declaredType : String) (names : List String) :
    ComesTo (fun i table => decs (bound i + names.length + 1) table >>= f i)
      (head ++ [.type declaredType] ++ listed nameLexemes names) kind
      (names.map (⟨·, declaredType, kind⟩)) := by
  have hhead : Fills (fun i table => decs (bound i + names.length + 1) table >>= f i)
      (head ++ [.type declaredType]) [] fun i table =>
        itemsUntil (declareName className kind declaredType) ";"
          (fun table => decs (bound i + names.length) table >>= f i) (bound i + names.length)
          table :=
    fills_of_proceeds fun used i table hspells => h (f i) _ _ used table hspells
  have hname (name : String) : Declares (declareName className kind declaredType)
      (nameLexemes name) ⟨name, declaredType, kind⟩ := declares_name name
  have hnames := hhead.trans (fills_listed hname (by decide) names _)
  apply hnames.comesTo
  intro i table ds htable
  exact awaitsName_itemsUntil htable fun table => (hdecs _ table).bind (hf i)

/-- Behind complete declarations, the names of one more are awaited. -/
theorem comesTo_declared {δ : Type} {headOf : δ → List Lexeme} {kindOf : δ → Storage}
    {variablesOf : δ → Variables} (h : ∀ x, Repeats className decs (kindOf x) (headOf x))
    (xs : List δ) (hhead : Repeats className decs kind head)
    (hdecs : ∀ b table, Dry (decs b table)) (hf : ∀ i table, Dry (f i table))
    (declaredType : String) (names : List String)
    (hbound : ∀ i, ((xs.flatMap fun x => headOf x ++ (variablesOf x).lexemes) ++
      (head ++ [Lexeme.type declaredType] ++ listed nameLexemes names)).length ≤ bound i) :
    ComesTo (fun i table => decs (bound i) table >>= f i)
      ((xs.flatMap fun x => headOf x ++ (variablesOf x).lexemes) ++
        (head ++ [Lexeme.type declaredType] ++ listed nameLexemes names)) kind
      ((xs.flatMap fun x => (variablesOf x).declarations (kindOf x)) ++
        names.map (⟨·, declaredType, kind⟩)) := by
  have hrounds : xs.length ≤
      (xs.flatMap fun x => headOf x ++ (variablesOf x).lexemes).length := by
    apply length_le_flatMap
    intro x
    rw [List.length_append, length_variables]
    omega
  have hnames := length_le_listed nameLexemes names
  simp only [List.length_append, List.length_singleton] at hbound
  -- What the rounds and the names do not use up remains.
  obtain ⟨extra, rfl⟩ : ∃ extra : ι → Nat,
      bound = fun i => extra i + names.length + 1 + xs.length := by
    refine ⟨fun i => bound i - names.length - 1 - xs.length, funext fun i => ?_⟩
    have hle := hbound i
    show bound i = bound i - names.length - 1 - xs.length + names.length + 1 + xs.length
    omega
  refine (comesTo_name hhead hdecs hf declaredType names).after (fills_declarations h xs _ ?_)
  intro i
  have hle := hbound i
  dsimp only at hle
  omega

end

/-! ## Parameters -/

/-- Parameters, if there are any, up to the parenthesis behind them. -/
def parametersUntil (className : String) (f : SymbolTable → Compiler β) (bound : Nat)
    (table : SymbolTable) : Compiler β :=
  (do if ← atSymbol ")" then pure table else parameters className bound table) >>=
    fun table => word ")" >>= fun _ => f table

theorem declares_parameter (p : String × String) :
    Declares (parameters.parameter className) (parameterLexemes p) ⟨p.2, p.1, .argument⟩ := by
  have htype : Fills (fun (_ : Unit) table => parameters.parameter className table) [.type p.1] []
      fun _ table => declareName className .argument p.1 table :=
    fills_of_proceeds fun used _ table hspells => proceeds_type hspells.reads
  exact htype.trans (declares_name p.2)

section

variable {bound : ι → Nat} {f : ι → SymbolTable → Compiler β} {declaredType : String}
  {fm' : ι → SymbolTable → Compiler β} {added : List Declaration}

theorem run_parametersUntil_of_ne {f : SymbolTable → Compiler β} {bound n : Nat}
    {l : Vm.LabelSupply} {c : Vm.Code} {ns : Array Notice}
    (hes : es.head? ≠ some (.token .symbol ")")) :
    (parametersUntil className f bound table).run ⟨⟨es, n⟩, l, c, ns⟩ =
      (itemsUntil (parameters.parameter className) ")" f bound table).run
        ⟨⟨es, n⟩, l, c, ns⟩ := by
  rw [parametersUntil, bind_assoc, EStateM.run_bind, run_atSymbol, decide_eq_false hes, itemsUntil,
    ← funext (parameters_eq bound)]
  rfl

/-- A type is no parenthesis, so parameters are read where one begins. -/
theorem fills_parametersUntil
    (h : Fills
      (fun i table => itemsUntil (parameters.parameter className) ")" (f i) (bound i) table)
      (.type declaredType :: ls) added fm') :
    Fills (fun i table => parametersUntil className (f i) (bound i) table)
      (.type declaredType :: ls) added fm' := by
  intro table ds used rest i htable hspells haccepts
  have hhead (more : List Entry) : (used ++ more).head? ≠ some (.token .symbol ")") := by
    obtain ⟨_, _, rfl, rfl | rfl, -⟩ := hspells
    · exact nofun
    · exact nofun
  have haccepts' : Accepts
      (itemsUntil (parameters.parameter className) ")" (f i) (bound i) table) (used ++ rest) := by
    obtain ⟨n, l, c, ns, hfaultless⟩ := haccepts
    rw [run_parametersUntil_of_ne (hhead rest)] at hfaultless
    exact ⟨n, l, c, ns, hfaultless⟩
  obtain ⟨table', htable', hproceeds⟩ := h table ds used rest i htable hspells haccepts'
  refine ⟨table', htable', fun i more n l c ns => ?_⟩
  rw [run_parametersUntil_of_ne (hhead more)]
  exact hproceeds i more n l c ns

/-- Without parameters there is a parenthesis at once. It cannot be taken for a type, since a marker
and no name comes next. -/
theorem fills_noParameters (p : Production) :
    Fills (fun i table => parametersUntil className (fun table => marker p >>= fun _ => f i table)
      (bound i) table) [.symbol ")", .marker p] [] f := by
  intro table ds used rest i htable hspells haccepts
  obtain ⟨_, _, rfl, ⟨tokenKind, rfl⟩, hspells⟩ := hspells
  obtain rfl := hspells.reads
  by_cases hsymbol : tokenKind = .symbol
  · subst hsymbol
    refine ⟨table, by rwa [List.append_nil], fun i => ?_⟩
    simp only [parametersUntil, bind_assoc]
    apply proceeds_atSymbol
    simp only [decide_true, if_true, pure_bind]
    exact (proceeds_word .symbol ")").trans (proceeds_marker p)
  · have hhead : (([.token tokenKind ")"] ++ [.production p] : List Entry) ++ rest).head? ≠
        some (.token .symbol ")") := fun h => hsymbol (Entry.token.inj (Option.some.inj h)).1
    -- Any other token is read as the type of a parameter or not at all, and the marker is no name.
    obtain ⟨n, l, c, ns, hfaultless⟩ := haccepts
    rw [run_parametersUntil_of_ne hhead, itemsUntil_eq] at hfaultless
    cases tokenKind with
    | symbol => exact absurd rfl hsymbol
    | keyword | identifier | integerConstant | stringConstant => cases hfaultless _ _ rfl

/-- All parameters, the parenthesis and the marker behind it. -/
theorem fills_parameters (p : Production) (ps : List (String × String))
    (hbound : ∀ i, ps.length ≤ bound i) :
    Fills (fun i table => parametersUntil className (fun table => marker p >>= fun _ => f i table)
      (bound i) table) (separated parameterLexemes ps ++ [.symbol ")", .marker p])
      (parameterVariables ps) f := by
  cases ps with
  | nil => exact fills_noParameters p
  | cons q ps =>
    have hparameter (q : String × String) : Declares (parameters.parameter className)
        (parameterLexemes q) ⟨q.2, q.1, .argument⟩ := declares_parameter q
    have hitems : Fills _ (separated parameterLexemes (q :: ps) ++ [.symbol ")"])
        (parameterVariables (q :: ps)) fun i table => marker p >>= fun _ => f i table :=
      fills_separated hparameter (by decide) q ps fun i => Nat.le_of_succ_le (hbound i)
    have hmarker : Fills (fun i table => marker p >>= fun _ => f i table) [.marker p] [] f :=
      fills_of_proceeds fun used i table hspells => hspells.reads ▸ proceeds_marker p
    have hall := hitems.trans hmarker
    rw [List.append_assoc, List.append_nil] at hall
    exact fills_parametersUntil hall

/-- Among the parameters, every name is awaited. -/
theorem comesTo_parameter (hf : ∀ i table, Dry (f i table)) (ps : List (String × String))
    (declaredType : String) (hbound : ∀ i, ps.length ≤ bound i) :
    ComesTo (fun i table => parametersUntil className (f i) (bound i) table)
      (listed parameterLexemes ps ++ [.type declaredType]) .argument (parameterVariables ps) := by
  obtain ⟨extra, rfl⟩ : ∃ extra : ι → Nat, bound = fun i => extra i + ps.length :=
    ⟨fun i => bound i - ps.length, funext fun i => (Nat.sub_add_cancel (hbound i)).symm⟩
  have hlisted : Fills _ (listed parameterLexemes ps) (parameterVariables ps) fun i table =>
      itemsUntil (parameters.parameter className) ")" (f i) (extra i) table :=
    fills_listed declares_parameter (by decide) ps extra
  have htype : Fills (fun i table =>
        itemsUntil (parameters.parameter className) ")" (f i) (extra i) table)
      [.type declaredType] [] fun i table =>
        declareName className .argument declaredType table >>=
          moreItemsUntil (parameters.parameter className) ")" (f i) (extra i) := by
    apply fills_of_proceeds
    intro used i table hspells
    rw [itemsUntil_eq, parameters.parameter, bind_assoc]
    exact proceeds_type hspells.reads
  have hall := hlisted.trans htype
  rw [List.append_nil] at hall
  have hawaits (i : ι) (table : SymbolTable) (ds : List Declaration) (htable : table.Tallies ds) :
      AwaitsName .argument ds (declareName className .argument declaredType table >>=
        moreItemsUntil (parameters.parameter className) ")" (f i) (extra i)) :=
    awaitsName_parameter htable (hf i)
  cases ps with
  | nil => exact (fills_parametersUntil hall).comesTo hawaits
  | cons q ps => exact (fills_parametersUntil hall).comesTo hawaits

end

end Jack.Compiler
