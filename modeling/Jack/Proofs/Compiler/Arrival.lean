import Jack.Proofs.Compiler.Awaiting
import Jack.Proofs.Compiler.Ending
import Jack.Proofs.Compiler.Local.Procedure

/-!
# Runs up to a declared name

A name is declared somewhere in a tree. If nothing is wrong with what stands in front of it, then
every compilation of a tree that begins so comes to the name, with a table that holds what is
declared before it in the same scope.
-/

namespace Jack.Grammar

open Vm

/-! ## Places of declared names -/

/-- What a class begins with. -/
def classHead (name : String) : List Lexeme :=
  [.marker .classDec, .keyword "class", .token .identifier name, .symbol openBrace]

/-- What a subroutine begins with, in front of its parameters. -/
def subroutineHead (signature : Signature) : List Lexeme :=
  [.marker .subroutineDec, .token .keyword signature.kind.keyword, .type signature.returnType,
    .token .identifier signature.name, .symbol "(", .marker .parameterList]

/-- A declaration up to one of its names, and the names before it. -/
def declarationTo (head : List Lexeme) (declaredType : String) (names : List String) :
    List Lexeme :=
  head ++ [.type declaredType] ++ listed nameLexemes names

/-- What a subroutine has in front of a declared name, behind its head, then the kind of the
variable and the declarations before it that are written in the subroutine. -/
inductive BeforeLocal : List Lexeme → Storage → List Declaration → Prop where
  | parameter (ps : List (String × String)) (declaredType : String) :
    BeforeLocal (listed parameterLexemes ps ++ [.type declaredType]) .argument
      (parameterVariables ps)
  | localVariable (ps : List (String × String)) (vss : List Variables) (declaredType : String)
    (names : List String) :
    BeforeLocal
      (separated parameterLexemes ps ++ [.symbol ")", .marker .subroutineBody] ++
        ([.symbol openBrace] ++ (vss.flatMap localLexemes ++
          declarationTo [.marker .varDec, .keyword "var"] declaredType names)))
      .localVar
      (parameterVariables ps ++ (vss.flatMap (Variables.declarations .localVar) ++
        names.map (⟨·, declaredType, .localVar⟩)))

/-- What a class has in front of a declared name, the kind of the variable, and what is declared in
the same scope before. The last marker of a subroutine shows where the scope begins. The type of the
receiver is of no account. -/
inductive BeforeDeclared : List Entry → Storage → List Declaration → Prop where
  | inClass {entries : List Entry} (className : String) (vss : List ClassVariables)
    {kind : Storage} (declaredType : String) (names : List String) :
    kind.isClassLevel = true →
    Spells (classHead className ++ (vss.flatMap ClassVariables.lexemes ++
      declarationTo [.marker .classVarDec, .token .keyword kind.name] declaredType names)) entries →
    BeforeDeclared entries kind
      ((vss.flatMap fun vs => vs.declared.declarations vs.kind) ++
        names.map (⟨·, declaredType, kind⟩))
  | inSubroutine {entries : List Entry} (signature : Signature) {ls : List Lexeme} {kind : Storage}
    {ds : List Declaration} (receiverType : String) :
    BeforeLocal ls kind ds → EndsIn entries (subroutineHead signature ++ ls) →
    BeforeDeclared entries kind (receiverVariables receiverType signature.kind ++ ds)

/-! ## Lexemes of declarations -/

variable {ls ls' : List Lexeme} {kind : Storage} {ds : List Declaration} {es : List Entry}

/-- Whether a lexeme is read as one entry and begins no term. -/
def Lexeme.isDeclarative : Lexeme → Bool
  | .lastComma | .marker .term => false
  | _ => true

/-- All lexemes may stand in declarations. -/
def Declarative (ls : List Lexeme) : Prop := ∀ l ∈ ls, l.isDeclarative = true

@[simp] theorem declarative_nil : Declarative [] := List.forall_mem_nil _

@[simp] theorem declarative_cons {l : Lexeme} :
    Declarative (l :: ls) ↔ l.isDeclarative = true ∧ Declarative ls := List.forall_mem_cons

@[simp] theorem declarative_append :
    Declarative (ls ++ ls') ↔ Declarative ls ∧ Declarative ls' := List.forall_mem_append

@[simp] theorem declarative_flatMap {α : Type} {g : α → List Lexeme} {xs : List α} :
    Declarative (xs.flatMap g) ↔ ∀ x ∈ xs, Declarative (g x) := List.forall_mem_flatMap

theorem declarative_variables (vs : Variables) : Declarative vs.lexemes := by
  simp [Variables.lexemes, Variables.names, separated, nameLexemes, Lexeme.isDeclarative]

theorem declarative_parameters (ps : List (String × String)) :
    Declarative (separated parameterLexemes ps) := by
  cases ps with
  | nil => exact declarative_nil
  | cons p ps => simp [separated, parameterLexemes, Lexeme.isDeclarative]

theorem declarative_classVariables (vss : List ClassVariables) (kind : Storage)
    (declaredType : String) (names : List String) :
    Declarative (vss.flatMap ClassVariables.lexemes ++
      declarationTo [.marker .classVarDec, .token .keyword kind.name] declaredType names) := by
  simp [declarationTo, ClassVariables.lexemes, listed, nameLexemes, declarative_variables,
    Lexeme.isDeclarative]

theorem declarative_local (h : BeforeLocal ls kind ds) : Declarative ls := by
  cases h with
  | parameter ps declaredType => simp [listed, parameterLexemes, Lexeme.isDeclarative]
  | localVariable ps vss declaredType names =>
    simp [declarationTo, localLexemes, listed, nameLexemes, declarative_variables,
      declarative_parameters, Lexeme.isDeclarative]

theorem Spells.length_of_declarative (h : Spells ls es) (hls : Declarative ls) :
    es.length = ls.length := by
  apply h.length_eq
  intro hmem
  cases hls _ hmem

theorem Spells.term_notMem (h : Spells ls es) (hls : Declarative ls) :
    Entry.production .term ∉ es := by
  intro hmem
  cases hls _ (h.marker_mem hmem)

/-- What stands in front of a declared name ends in declarations. -/
theorem BeforeDeclared.exists_declarative (h : BeforeDeclared es kind ds) :
    ∃ ls, EndsIn es ls ∧ 2 ≤ ls.length ∧ Declarative ls := by
  cases h with
  | inClass className vss declaredType names hkind hspells =>
    refine ⟨_, ⟨[], es, rfl, hspells⟩, ?_, ?_⟩
    · simp [classHead]
    · rw [declarative_append]
      exact ⟨by simp [classHead, Lexeme.isDeclarative],
        declarative_classVariables vss kind declaredType names⟩
  | inSubroutine signature receiverType hlocal hends =>
    refine ⟨_, hends, ?_, ?_⟩
    · simp [subroutineHead]
    · rw [declarative_append]
      exact ⟨by simp [subroutineHead, Lexeme.isDeclarative], declarative_local hlocal⟩

/-- The marker of a term does not stand right before the last entry. -/
theorem BeforeDeclared.getElem?_ne_term (h : BeforeDeclared es kind ds) {n : Nat}
    (hn : n + 2 = es.length) : es[n]? ≠ some (.production .term) := by
  obtain ⟨ls, ⟨front, used, rfl, hspells⟩, hlength, hls⟩ := h.exists_declarative
  rw [List.length_append, hspells.length_of_declarative hls] at hn
  intro hterm
  rw [List.getElem?_append_right (by omega)] at hterm
  exact hspells.term_notMem hls (List.mem_of_getElem? hterm)

end Jack.Grammar

namespace Jack.Compiler

open Grammar

variable {className : String} {classTable : SymbolTable} {kind : Storage} {ds : List Declaration}
  {ls : List Lexeme} {used rest : List Entry} {bound : Nat}

/-- The bounds that cover so many entries. -/
abbrev Covering (entries : Nat) : Type := { bound : Nat // entries ≤ bound }

/-! ## Class variables -/

theorem proceeds_classHead (h : Spells (classHead className) used) (bound : Nat) :
    Proceeds (classDec bound) used (classVarDecs className bound .empty >>= fun table =>
      classRest className table bound) := by
  obtain ⟨_, _, rfl, rfl, _, _, rfl, ⟨kind, rfl⟩, _, _, rfl, rfl, hbrace⟩ := h
  obtain ⟨brace, rfl⟩ := hbrace.reads
  refine (proceeds_marker _).trans ((proceeds_word _ _).trans ((proceeds_identifier _).trans ?_))
  exact proceeds_note _ (proceeds_word _ _)

/-- A class is read through its variables, up to a name. -/
theorem exists_awaitsName_classVariable {declaredType : String} {vss : List ClassVariables}
    {names : List String} {bound₀ : Nat} (hkind : kind.isClassLevel = true)
    (hspells : Spells (classHead className ++ (vss.flatMap ClassVariables.lexemes ++
      declarationTo [.marker .classVarDec, .token .keyword kind.name] declaredType names)) used)
    (haccepts : Accepts (classDec bound₀) (used ++ rest)) (hbound₀ : used.length ≤ bound₀)
    (hbound : used.length ≤ bound) :
    ∃ m, AwaitsName kind ((vss.flatMap fun vs => vs.declared.declarations vs.kind) ++
      names.map (⟨·, declaredType, kind⟩)) m ∧ Proceeds (classDec bound) used m := by
  obtain ⟨used₁, used₂, rfl, hhead, hspells₂⟩ := hspells.split
  -- The bounds of all repetitions cover what is read by them.
  have hlength := hspells₂.length_of_declarative
    (declarative_classVariables vss kind declaredType names)
  rw [List.length_append] at hbound₀ hbound
  have hrounds (vs : ClassVariables) : Repeats className (classVarDecs className) vs.kind
      [.marker .classVarDec, .token .keyword vs.kind.name] := repeats_classVarDecs vs.classLevel
  have hroom (b : Covering used₂.length) : (vss.flatMap ClassVariables.lexemes ++
      declarationTo [.marker .classVarDec, .token .keyword kind.name] declaredType names).length ≤
      b.val := hlength ▸ b.property
  have hcomes : ComesTo
      (fun (b : Covering used₂.length) table =>
        classVarDecs className b.val table >>= fun table => classRest className table b.val)
      (vss.flatMap ClassVariables.lexemes ++
        declarationTo [.marker .classVarDec, .token .keyword kind.name] declaredType names) kind
      ((vss.flatMap fun vs => vs.declared.declarations vs.kind) ++
        names.map (⟨·, declaredType, kind⟩)) :=
    comesTo_declared hrounds vss (repeats_classVarDecs hkind) dry_classVarDecs
      (fun (b : Covering used₂.length) table => dry_classRest table b.val) declaredType names
      hroom
  have haccepts₂ : Accepts (classVarDecs className bound₀ .empty >>= fun table =>
      classRest className table bound₀) (used₂ ++ rest) := by
    rw [List.append_assoc] at haccepts
    exact (proceeds_classHead hhead bound₀).accepts haccepts
  let b₀ : Covering used₂.length := ⟨bound₀, by omega⟩
  let b : Covering used₂.length := ⟨bound, by omega⟩
  obtain ⟨m, hm, hproceeds⟩ := hcomes .empty [] used₂ rest b₀ .empty hspells₂ haccepts₂ b
  exact ⟨m, hm, (proceeds_classHead hhead bound).trans hproceeds⟩

/-! ## Variables of a subroutine -/

/-- A subroutine behind its variables. -/
def routineRest (className : String) (classTable : SymbolTable) (signature : Signature)
    (bound : Nat) (table : SymbolTable) : Compiler Unit := do
  let scope : Scope := { className, classTable, signature, subroutineTable := table }
  let locals := table.count .localVar
  note (.subroutineStarted signature.kind className signature.name locals)
  emit (.function (scope.qualify signature.name) locals)
  emitAll (signature.kind.prologue (classTable.count .field))
  statements scope bound
  word closeBrace

/-- A subroutine behind its parameters. -/
def routineBody (className : String) (classTable : SymbolTable) (signature : Signature)
    (bound : Nat) (table : SymbolTable) : Compiler Unit := do
  word openBrace
  let table ← varDecs className bound table
  routineRest className classTable signature bound table

theorem subroutineDec_eq_parametersUntil (bound : Nat) :
    subroutineDec className classTable bound = (do
      marker .subroutineDec
      let kind ← keyword "'constructor', 'function' or 'method'" SubroutineKind.ofKeyword?
      let returnType ← type
      let name ← identifier
      word "("
      marker .parameterList
      let table ← defineReceiver className kind (← position)
      parametersUntil className (fun table => marker .subroutineBody >>= fun _ =>
        routineBody className classTable ⟨kind, returnType, name⟩ bound table) bound table) := by
  simp only [subroutineDec, parameterList_eq, parametersUntil, routineBody, routineRest, bind_assoc]

/-- There is always room for the receiver. -/
theorem defineReceiver_eq (className declaredType : String) (kind : SubroutineKind) :
    ∃ table, SymbolTable.Tallies table (receiverVariables declaredType kind) ∧
      ∀ pos, defineReceiver className kind pos = pure table := by
  unfold defineReceiver receiverVariables
  by_cases hkind : kind = .method
  · obtain ⟨table, htable⟩ := Fork.define_this className
    simp only [hkind, if_true, define, htable]
    exact ⟨table, SymbolTable.Tallies.empty.define htable declaredType, fun _ => rfl⟩
  · simp only [hkind, if_false]
    exact ⟨.empty, .empty, fun _ => rfl⟩

theorem exists_proceeds_subroutineHead (className : String) (classTable : SymbolTable)
    {signature : Signature} (declaredType : String)
    (h : Spells (subroutineHead signature) used) :
    ∃ table, SymbolTable.Tallies table (receiverVariables declaredType signature.kind) ∧
      ∀ bound, Proceeds (subroutineDec className classTable bound) used
        (parametersUntil className (fun table => marker .subroutineBody >>= fun _ =>
          routineBody className classTable signature bound table) bound table) := by
  obtain ⟨_, _, rfl, rfl, _, _, rfl, rfl, _, _, rfl, htype, _, _, rfl, rfl, _, _, rfl,
    ⟨open', rfl⟩, hmarker⟩ := h
  obtain rfl := hmarker.reads
  obtain ⟨table, htable, hreceiver⟩ := defineReceiver_eq className declaredType signature.kind
  refine ⟨table, htable, fun bound => ?_⟩
  rw [subroutineDec_eq_parametersUntil]
  refine (proceeds_marker _).trans ((proceeds_keyword (SubroutineKind.ofKeyword?_keyword _)).trans
    ((proceeds_type htype).trans ((proceeds_identifier _).trans ((proceeds_word _ _).trans ?_))))
  refine (proceeds_marker .parameterList).trans (proceeds_position fun pos => ?_)
  rw [hreceiver, pure_bind]
  exact proceeds_refl _

theorem dry_routineRest (signature : Signature) (bound : Nat) (table : SymbolTable) :
    Dry (routineRest className classTable signature bound table) := by
  refine Dry.bind (fun s hs => hs) fun _ => Dry.bind (fun s hs => hs) fun _ =>
    (dry_emitAll _).bind fun _ => ?_
  rw [statements, bind_assoc]
  exact dry_read _ _

theorem length_le_parameters (ps : List (String × String)) :
    ps.length ≤ (separated parameterLexemes ps).length := by
  cases ps with
  | nil => exact Nat.le_refl _
  | cons p ps =>
    have hmore : ps.length ≤ (ps.flatMap fun q => .symbol "," :: parameterLexemes q).length := by
      apply length_le_flatMap
      exact fun q => Nat.succ_pos _
    rw [separated, List.length_append, List.length_cons, Nat.add_comm]
    exact Nat.add_le_add (by decide : 1 ≤ 2) hmore

theorem comesTo_local {ι : Type} {bound : ι → Nat} (signature : Signature)
    (h : BeforeLocal ls kind ds) (hbound : ∀ i, ls.length ≤ bound i) :
    ComesTo
      (fun i table => parametersUntil className
        (fun table => marker .subroutineBody >>= fun _ =>
          routineBody className classTable signature (bound i) table)
        (bound i) table)
      ls kind ds := by
  cases h with
  | parameter ps declaredType =>
    apply comesTo_parameter fun i table => dry_read _ _
    have hps := length_le_listed parameterLexemes ps
    intro i
    have hle := hbound i
    rw [List.length_append] at hle
    omega
  | localVariable ps vss declaredType names =>
    simp only [List.length_append] at hbound
    have hparameters (i : ι) : ps.length ≤ bound i := by
      have hps := length_le_parameters ps
      have hle := hbound i
      omega
    have hvariables (i : ι) : (vss.flatMap localLexemes ++
        declarationTo [.marker .varDec, .keyword "var"] declaredType names).length ≤ bound i := by
      have hle := hbound i
      rw [List.length_append]
      omega
    have hrounds (vs : Variables) : Repeats className (varDecs className) .localVar
        [.marker .varDec, .keyword "var"] := repeats_varDecs
    have hcomes : ComesTo
        (fun i table => varDecs className (bound i) table >>= fun table =>
          routineRest className classTable signature (bound i) table)
        (vss.flatMap localLexemes ++
          declarationTo [.marker .varDec, .keyword "var"] declaredType names) .localVar
        (vss.flatMap (Variables.declarations .localVar) ++
          names.map (⟨·, declaredType, .localVar⟩)) :=
      comesTo_declared hrounds vss repeats_varDecs dry_varDecs
        (fun i table => dry_routineRest signature (bound i) table) declaredType names hvariables
    have hbrace : Fills (fun i table => routineBody className classTable signature (bound i) table)
        [.symbol openBrace] [] fun i table => varDecs className (bound i) table >>= fun table =>
          routineRest className classTable signature (bound i) table := by
      apply fills_of_proceeds
      intro used i table hspells
      obtain ⟨brace, rfl⟩ := hspells.reads
      exact proceeds_word brace openBrace
    exact (hcomes.after hbrace).after (fills_parameters .subroutineBody ps hparameters)

/-- A subroutine is read through its parameters and variables, up to a name. -/
theorem exists_awaitsName_local {signature : Signature} {bound₀ : Nat} (receiverType : String)
    (h : BeforeLocal ls kind ds) (hspells : Spells (subroutineHead signature ++ ls) used)
    (haccepts : Accepts (subroutineDec className classTable bound₀) (used ++ rest))
    (hbound₀ : used.length ≤ bound₀ + 1) (hbound : used.length ≤ bound + 1) :
    ∃ m, AwaitsName kind (receiverVariables receiverType signature.kind ++ ds) m ∧
      Proceeds (subroutineDec className classTable bound) used m := by
  obtain ⟨used₁, used₂, rfl, hhead, hspells₂⟩ := hspells.split
  have hlength₁ : used₁.length = 6 := hhead.length_eq (by simp [subroutineHead])
  have hlength₂ := hspells₂.length_of_declarative (declarative_local h)
  rw [List.length_append] at hbound₀ hbound
  obtain ⟨table, htable, hproceeds⟩ :=
    exists_proceeds_subroutineHead className classTable receiverType hhead
  have hcomes : ComesTo (fun (b : Covering ls.length) table => parametersUntil className
      (fun table => marker .subroutineBody >>= fun _ =>
        routineBody className classTable signature b.val table) b.val table) ls kind ds :=
    comesTo_local signature h Subtype.property
  rw [List.append_assoc] at haccepts
  have haccepts₂ := (hproceeds bound₀).accepts haccepts
  let b₀ : Covering ls.length := ⟨bound₀, by omega⟩
  let b : Covering ls.length := ⟨bound, by omega⟩
  obtain ⟨m, hm, hproceeds₂⟩ := hcomes table _ used₂ rest b₀ htable hspells₂ haccepts₂ b
  exact ⟨m, hm, (hproceeds bound).trans hproceeds₂⟩

/-- What comes behind the subroutine needs entries of its own. -/
theorem awaitsName_classEnd {m : Compiler Unit} (name : String) (h : AwaitsName kind ds m) :
    AwaitsName kind ds (m >>= fun _ => subroutineDecs className classTable bound >>= fun _ =>
      classEnd name) :=
  h.bind fun _ => (dry_subroutineDecs classTable bound).bind fun _ => dry_read _ _

end Jack.Compiler

namespace Jack

open Compiler Grammar

/-- The end of the entries is reached: a tree that consists of them fails to compile only because it
ends there. -/
def Reached (labels : Vm.LabelSupply) (entries : List Entry) : Prop :=
  ∃ expected, (compileEntries labels entries).result = .error (.endOfTree expected)

variable {labels : Vm.LabelSupply} {before after : List Entry} {kind : Storage}
  {ds : List Declaration} {name : String}

/-- A compilation that begins with these entries awaits the name behind them. -/
def Arrives (labels : Vm.LabelSupply) (before : List Entry) (kind : Storage)
    (ds : List Declaration) : Prop :=
  ∀ bound, before.length ≤ bound → ∃ m : Compiler String, AwaitsName kind ds m ∧
    ∀ rest, ∃ l c ns, (classDec bound).run ⟨⟨before ++ rest, 0⟩, labels, {}, #[]⟩ =
      m.run ⟨⟨rest, before.length⟩, l, c, ns⟩

theorem Reached.faultless (h : Reached labels before) :
    Faultless ((classDec before.length).run ⟨⟨before, 0⟩, labels, {}, #[]⟩) := by
  intro fault s hrun
  obtain ⟨expected, h⟩ := h
  unfold compileEntries at h
  rw [hrun] at h
  cases h
  rfl

theorem arrives_inClass {className declaredType : String} {vss : List ClassVariables}
    {names : List String} (hkind : kind.isClassLevel = true)
    (hspells : Spells (classHead className ++ (vss.flatMap ClassVariables.lexemes ++
      declarationTo [.marker .classVarDec, .token .keyword kind.name] declaredType names)) before)
    (hreached : Reached labels before) :
    Arrives labels before kind ((vss.flatMap fun vs => vs.declared.declarations vs.kind) ++
      names.map (⟨·, declaredType, kind⟩)) := by
  have haccepts : Accepts (classDec before.length) (before ++ []) := by
    rw [List.append_nil]
    exact ⟨0, labels, {}, #[], hreached.faultless⟩
  intro bound hbound
  obtain ⟨m, hm, hproceeds⟩ :=
    exists_awaitsName_classVariable hkind hspells haccepts (Nat.le_refl _) hbound
  refine ⟨m, hm, fun rest => ?_⟩
  obtain ⟨l, c, ns, hrun⟩ := hproceeds rest 0 labels {} #[]
  rw [Nat.zero_add] at hrun
  exact ⟨l, c, ns, hrun⟩

theorem arrives_inSubroutine {signature : Signature} {ls : List Lexeme} (receiverType : String)
    (hlocal : BeforeLocal ls kind ds) (hends : EndsIn before (subroutineHead signature ++ ls))
    (hreached : Reached labels before) :
    Arrives labels before kind (receiverVariables receiverType signature.kind ++ ds) := by
  obtain ⟨front, last, rfl, hspells⟩ := hends
  have hmarker : last.head? = some routineMarker := by
    obtain ⟨_, _, rfl, rfl, -⟩ := hspells
    rfl
  obtain ⟨head, row, rfl, hhead, hrow⟩ := exists_first_marker hmarker front
  have hpos : 0 < last.length := by
    obtain ⟨tail, rfl⟩ := List.head?_eq_some_iff.1 hmarker
    exact Nat.succ_pos _
  have hlength : (head ++ row ++ last).length = head.length + (row ++ last).length := by
    rw [List.append_assoc, List.length_append]
  -- The subroutines in front of the last one compile, and nothing is wrong with its beginning.
  have hfaultless : Faultless ((classDec (head ++ row ++ last).length).run
      ⟨⟨head ++ (row ++ last), 0⟩, labels, {}, #[]⟩) := by
    rw [← List.append_assoc]
    exact hreached.faultless
  obtain ⟨className, table, ns, hopens, hrest⟩ := exists_opens_of_run hhead hrow
    (by simp only [List.length_append]; omega) hfaultless
  obtain ⟨is, bound₀, hroutines, hbound₀, haccepts⟩ :=
    exists_routines_of_run hmarker _ (by omega) hrow hrest
  obtain ⟨count, hcount, hrun⟩ := hopens.run_classDec hroutines hmarker hrow
  intro bound hbound
  simp only [List.length_append] at hbound
  obtain ⟨left, rfl⟩ : ∃ left, bound = left + 1 + count := ⟨bound - 1 - count, by omega⟩
  rw [← List.append_nil last] at haccepts
  obtain ⟨m, hm, hproceeds⟩ := exists_awaitsName_local receiverType hlocal hspells haccepts
    hbound₀ (by omega : last.length ≤ left + 1)
  have hawaits : AwaitsName kind (receiverVariables receiverType signature.kind ++ ds)
      (m >>= fun _ => subroutineDecs className table left >>= fun _ => classEnd className) :=
    awaitsName_classEnd className hm
  refine ⟨_, hawaits, fun rest => ?_⟩
  obtain ⟨l, c, ns, hlast⟩ := hrun left rest (by omega)
  have hname : Proceeds (subroutineDec className table left >>= fun _ =>
      subroutineDecs className table left >>= fun _ => classEnd className) last
      (m >>= fun _ => subroutineDecs className table left >>= fun _ => classEnd className) :=
    hproceeds.bind
  obtain ⟨l', c', ns', hrun'⟩ := hname rest (head.length + row.length) l c ns
  refine ⟨l', c', ns', ?_⟩
  rw [hlast, hrun', List.length_append, List.length_append]

end Jack
