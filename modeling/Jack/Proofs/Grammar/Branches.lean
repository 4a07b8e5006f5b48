import Jack.Proofs.Grammar.Ids

/-!
# Statements that take a label id

Every `if` and every `while` takes one id. In a tree these statements begin with their markers, and
in structured code they are the commands with an id: the same statements in the same order.
-/

namespace Jack

/-- Whether an entry begins a statement that takes a label id. -/
def Entry.takesLabel : Entry → Bool
  | .production .ifStatement | .production .whileStatement => true
  | _ => false

/-- The markers of the statements that take a label id. -/
def branchMarkers (entries : List Entry) : List Entry := entries.filter Entry.takesLabel

/-- The number of statements that take a label id. -/
def branchCount (entries : List Entry) : Nat := (branchMarkers entries).length

@[simp] theorem branchMarkers_append (es es' : List Entry) :
    branchMarkers (es ++ es') = branchMarkers es ++ branchMarkers es' := List.filter_append es es'

theorem branchCount_take_succ {entries : List Entry} {n : Nat} {e : Entry}
    (he : entries[n]? = some e) :
    branchCount (entries.take (n + 1)) =
      branchCount (entries.take n) + if e.takesLabel then 1 else 0 := by
  rw [branchCount, List.take_add_one, he, branchMarkers_append, List.length_append]
  show _ + (List.filter _ [e]).length = _
  rw [List.filter_singleton]
  cases e.takesLabel <;> rfl

/-- Only the texts of tokens change, and these are no markers. -/
theorem branchMarkers_mapText (f : String → String) (entries : List Entry) :
    branchMarkers (entries.map (Entry.mapText f)) = branchMarkers entries := by
  induction entries with
  | nil => rfl
  | cons e entries ih =>
    cases e with
    | token kind text => exact ih
    | production p =>
      show branchMarkers ([_] ++ List.map (Entry.mapText f) entries) = branchMarkers ([_] ++ _)
      rw [branchMarkers_append, branchMarkers_append, ih]
      rfl

end Jack

namespace Jack.Vm

mutual

/-- The markers of the statements that took an id, with their ids. -/
def Command.branches : Command → List (Entry × LabelId)
  | .ifThen id _ onTrue => (.production .ifStatement, id) :: commandsBranches onTrue
  | .ifElse id _ onTrue onFalse =>
    (.production .ifStatement, id) :: (commandsBranches onTrue ++ commandsBranches onFalse)
  | .loop id _ body => (.production .whileStatement, id) :: commandsBranches body
  | .store .. | .storeElement .. | .drop _ | .leave _ | .leaveVoid _ => []

def commandsBranches : List Command → List (Entry × LabelId)
  | [] => []
  | c :: rest => c.branches ++ commandsBranches rest

end

def routinesBranches (rs : List Routine) : List (Entry × LabelId) :=
  rs.flatMap fun r => commandsBranches r.commands

@[simp] theorem commandsBranches_append (cs cs' : List Command) :
    commandsBranches (cs ++ cs') = commandsBranches cs ++ commandsBranches cs' := by
  induction cs with
  | nil => rfl
  | cons c cs ih =>
    rw [List.cons_append, commandsBranches, commandsBranches, ih, List.append_assoc]

mutual

theorem Command.map_snd_branches : (c : Command) → c.branches.map Prod.snd = c.ids
  | .ifThen id _ onTrue => congrArg (id :: ·) (map_snd_commandsBranches onTrue)
  | .ifElse id _ onTrue onFalse => by
    rw [Command.branches, List.map_cons, List.map_append, map_snd_commandsBranches onTrue,
      map_snd_commandsBranches onFalse]
    rfl
  | .loop id _ body => congrArg (id :: ·) (map_snd_commandsBranches body)
  | .store .. | .storeElement .. | .drop _ | .leave _ | .leaveVoid _ => rfl

theorem map_snd_commandsBranches : (cs : List Command) →
    (commandsBranches cs).map Prod.snd = commandsIds cs
  | [] => rfl
  | c :: rest => by
    rw [commandsBranches, List.map_append, c.map_snd_branches, map_snd_commandsBranches rest]
    rfl

end

theorem map_snd_routinesBranches (rs : List Routine) :
    (routinesBranches rs).map Prod.snd = routinesIds rs := by
  rw [routinesBranches, List.map_flatMap]
  exact List.flatMap_congr fun r _ => map_snd_commandsBranches r.commands

end Jack.Vm

namespace Jack.Grammar

open Vm

/-! ## Markers in the grammar -/

/-- The markers that lexemes are written with. -/
def lexemeMarkers (ls : List Lexeme) : List Entry := ls.flatMap fun l => branchMarkers l.entries

@[simp] theorem lexemeMarkers_nil : lexemeMarkers [] = [] := rfl

@[simp] theorem lexemeMarkers_cons (l : Lexeme) (ls : List Lexeme) :
    lexemeMarkers (l :: ls) = branchMarkers l.entries ++ lexemeMarkers ls := List.flatMap_cons

@[simp] theorem lexemeMarkers_append (ls ls' : List Lexeme) :
    lexemeMarkers (ls ++ ls') = lexemeMarkers ls ++ lexemeMarkers ls' := List.flatMap_append

/-- A lexeme has the same markers however it is written. -/
theorem Lexeme.Reads.branchMarkers_eq {l : Lexeme} {es : List Entry} (h : l.Reads es) :
    branchMarkers es = branchMarkers l.entries := by
  cases l with
  | marker kind => rw [show es = _ from h]; rfl
  | keyword text | symbol text =>
    obtain ⟨kind, rfl⟩ := h
    rfl
  | token kind text => rw [show es = _ from h]; rfl
  | type text => rcases h with rfl | rfl <;> rfl
  | lastComma => rcases h with rfl | rfl <;> rfl

theorem Spells.branchMarkers_eq {ls : List Lexeme} {es : List Entry} (h : Spells ls es) :
    branchMarkers es = lexemeMarkers ls := by
  induction ls generalizing es with
  | nil => rw [show es = [] from h]; rfl
  | cons l ls ih =>
    obtain ⟨first, rest, rfl, hl, hrest⟩ := h
    rw [branchMarkers_append, hl.branchMarkers_eq, ih hrest, lexemeMarkers_cons]

section

attribute [local simp] branchMarkers Entry.takesLabel Lexeme.entries List.filter_cons

theorem lexemeMarkers_callee (callee : Callee) : lexemeMarkers (calleeLexemes callee) = [] := by
  cases callee <;> simp [calleeLexemes]

theorem lexemeMarkers_separator (rest : List Expression) :
    branchMarkers (separator rest).entries = [] := by
  cases rest <;> simp [separator]

mutual

/-- There are no statements in an expression. -/
theorem Term.lexemeMarkers_eq : (t : Term) → lexemeMarkers t.lexemes = []
  | .integer _ | .string _ | .constant _ | .variable _ => by simp [Term.lexemes]
  | .element _ index => by simp [Term.lexemes, index.lexemeMarkers_eq]
  | .group inner => by simp [Term.lexemes, inner.lexemeMarkers_eq]
  | .unary _ operand => by simp [Term.lexemes, operand.lexemeMarkers_eq]
  | .call callee arguments => by
    simp [Term.lexemes, lexemeMarkers_callee, lexemeMarkers_arguments arguments]

theorem Expression.lexemeMarkers_eq : (e : Expression) → lexemeMarkers e.lexemes = []
  | .mk first operations => by
    simp [Expression.lexemes, first.lexemeMarkers_eq, lexemeMarkers_operations operations]

theorem lexemeMarkers_operations : (operations : List (BinaryOp × Term)) →
    lexemeMarkers (operationLexemes operations) = []
  | [] => rfl
  | (_, term) :: rest => by
    simp [operationLexemes, term.lexemeMarkers_eq, lexemeMarkers_operations rest]

theorem lexemeMarkers_arguments : (arguments : List Expression) →
    lexemeMarkers (argumentLexemes arguments) = []
  | [] => rfl
  | e :: rest => by
    rw [argumentLexemes, lexemeMarkers_append, lexemeMarkers_append, e.lexemeMarkers_eq,
      lexemeMarkers_arguments rest, lexemeMarkers_cons, lexemeMarkers_separator]
    rfl

end

theorem lexemeMarkers_condition (e : Expression) : lexemeMarkers (conditionLexemes e) = [] := by
  simp [conditionLexemes, e.lexemeMarkers_eq]

/-! ## Markers in the translation -/

variable {scope : Scope}

theorem branches_leaveWith (value : Option Operand) : (leaveWith scope value).branches = [] := by
  unfold leaveWith
  split <;> rfl

mutual

/-- A statement is translated into the command that it is. -/
theorem Statement.map_fst_branches : (s : Statement) → ∀ {labels pos cmd},
    s.translate scope labels pos = .ok cmd → cmd.branches.map Prod.fst = lexemeMarkers s.lexemes
  | .assign name value, labels, pos, cmd, h => by
    obtain ⟨target, v, -, -, rfl⟩ := Statement.translate_assign h
    simp [Statement.lexemes, Command.branches, value.lexemeMarkers_eq]
  | .assignElement name index value, labels, pos, cmd, h => by
    obtain ⟨base, i, v, -, -, -, rfl⟩ := Statement.translate_assignElement h
    simp [Statement.lexemes, Command.branches, index.lexemeMarkers_eq, value.lexemeMarkers_eq]
  | .ifThen condition onTrue, labels, pos, cmd, h => by
    obtain ⟨o, cmds, pos', -, hcmds, rfl⟩ := Statement.translate_ifThen h
    simp [Statement.lexemes, Command.branches, lexemeMarkers_condition,
      map_fst_translateStatements onTrue hcmds]
  | .ifElse condition onTrue onFalse, labels, pos, cmd, h => by
    obtain ⟨o, cmds, cmds', pos', pos'', -, hcmds, hcmds', rfl⟩ := Statement.translate_ifElse h
    simp [Statement.lexemes, Command.branches, lexemeMarkers_condition,
      map_fst_translateStatements onTrue hcmds, map_fst_translateStatements onFalse hcmds']
  | .loop condition body, labels, pos, cmd, h => by
    obtain ⟨o, cmds, pos', -, hcmds, rfl⟩ := Statement.translate_loop h
    simp [Statement.lexemes, Command.branches, lexemeMarkers_condition,
      map_fst_translateStatements body hcmds]
  | .doCall callee arguments, labels, pos, cmd, h => by
    obtain ⟨o, stop, -, rfl⟩ := Statement.translate_doCall h
    simp [Statement.lexemes, Command.branches, callLexemes, lexemeMarkers_callee,
      lexemeMarkers_arguments arguments]
  | .doExpression value, labels, pos, cmd, h => by
    obtain ⟨o, -, rfl⟩ := Statement.translate_doExpression h
    simp [Statement.lexemes, Command.branches, value.lexemeMarkers_eq]
  | .returnNothing, labels, pos, cmd, h => by
    cases h
    simp [Statement.lexemes, branches_leaveWith]
  | .returnValue value, labels, pos, cmd, h => by
    obtain ⟨o, -, rfl⟩ := Statement.translate_returnValue h
    simp [Statement.lexemes, branches_leaveWith, value.lexemeMarkers_eq]

theorem map_fst_translateStatements : (body : List Statement) → ∀ {labels pos cmds},
    translateStatements scope labels pos body = .ok cmds →
    (commandsBranches cmds).map Prod.fst = lexemeMarkers (statementLexemes body)
  | [], labels, pos, cmds, h => by
    cases h
    rfl
  | s :: rest, labels, pos, cmds, h => by
    obtain ⟨cmd, cmds', hcmd, hcmds', rfl⟩ := translateStatements_cons h
    rw [commandsBranches, List.map_append, s.map_fst_branches hcmd,
      map_fst_translateStatements rest hcmds', statementLexemes, lexemeMarkers_append]

end

theorem lexemeMarkers_separated {α : Type} {item : α → List Lexeme}
    (h : ∀ x, lexemeMarkers (item x) = []) (xs : List α) :
    lexemeMarkers (separated item xs) = [] := by
  have hflatMap (rest : List α) :
      lexemeMarkers (rest.flatMap fun y => .symbol "," :: item y) = [] := by
    induction rest with
    | nil => rfl
    | cons y rest ih => simp [h y, ih]
  cases xs with
  | nil => rfl
  | cons x rest => rw [separated, lexemeMarkers_append, h x, hflatMap rest]; rfl

theorem lexemeMarkers_flatMap {α : Type} {item : α → List Lexeme}
    (h : ∀ x, lexemeMarkers (item x) = []) (xs : List α) :
    lexemeMarkers (xs.flatMap item) = [] := by
  induction xs with
  | nil => rfl
  | cons x rest ih => rw [List.flatMap_cons, lexemeMarkers_append, h x, ih]; rfl

theorem lexemeMarkers_name (name : String) : lexemeMarkers (nameLexemes name) = [] := by
  simp [nameLexemes]

theorem lexemeMarkers_parameter (p : String × String) :
    lexemeMarkers (parameterLexemes p) = [] := by
  simp [parameterLexemes]

theorem Variables.lexemeMarkers_eq (vs : Variables) : lexemeMarkers vs.lexemes = [] := by
  simp [Variables.lexemes, lexemeMarkers_separated lexemeMarkers_name]

theorem lexemeMarkers_local (vs : Variables) : lexemeMarkers (localLexemes vs) = [] := by
  simp [localLexemes, vs.lexemeMarkers_eq]

theorem ClassVariables.lexemeMarkers_eq (vs : ClassVariables) :
    lexemeMarkers vs.lexemes = [] := by
  simp [ClassVariables.lexemes, vs.declared.lexemeMarkers_eq]

/-- All `if` and `while` statements of a subroutine are in its body. -/
theorem Subroutine.lexemeMarkers_eq (s : Subroutine) :
    lexemeMarkers s.lexemes = lexemeMarkers (statementLexemes s.body) := by
  simp [Subroutine.lexemes, lexemeMarkers_separated lexemeMarkers_parameter,
    lexemeMarkers_flatMap lexemeMarkers_local]

theorem branches_prologue (fields : Nat) (kind : SubroutineKind) :
    commandsBranches (prologue fields kind) = [] := by
  cases kind <;> rfl

theorem map_fst_translateSubroutines {className : String} {classTable : SymbolTable}
    (ss : List Subroutine) : ∀ {labels pos rs},
    translateSubroutines className classTable labels pos ss = .ok rs →
    (routinesBranches rs).map Prod.fst = lexemeMarkers (ss.flatMap Subroutine.lexemes) := by
  induction ss with
  | nil =>
    intro labels pos rs h
    cases h
    rfl
  | cons s ss ih =>
    intro labels pos rs h
    obtain ⟨r, rs', hr, hrs', rfl⟩ := translateSubroutines_cons h
    obtain ⟨scope, cmds, pos', -, hcmds, rfl⟩ := Subroutine.translate_ok hr
    rw [List.flatMap_cons, lexemeMarkers_append, s.lexemeMarkers_eq, ← ih hrs',
      ← map_fst_translateStatements s.body hcmds]
    show (commandsBranches (prologue _ _ ++ cmds) ++ routinesBranches rs').map _ = _
    rw [commandsBranches_append, branches_prologue, List.nil_append, List.map_append]

theorem Class.map_fst_branches {c : Class} {labels : LabelSupply} {rs : List Routine}
    (h : c.translate labels = .ok rs) :
    (routinesBranches rs).map Prod.fst = lexemeMarkers c.lexemes := by
  obtain ⟨table, -, hrs⟩ := bind_eq_ok h
  rw [map_fst_translateSubroutines c.subroutines hrs]
  simp [Class.lexemes, lexemeMarkers_flatMap ClassVariables.lexemeMarkers_eq]

end

/-- Entries have as many markers as the class that they spell has branches. -/
theorem Class.branches_eq {c : Class} {labels : LabelSupply} {rs : List Routine}
    {entries : List Entry} (hspells : Spells c.lexemes entries)
    (h : c.translate labels = .ok rs) : c.branches = branchCount entries := by
  have hmarkers := congrArg List.length (c.map_fst_branches h)
  have hids := congrArg List.length (map_snd_routinesBranches rs)
  rw [List.length_map] at hmarkers hids
  rw [branchCount, hspells.branchMarkers_eq, ← hmarkers, hids, c.ids_translate h, idsOf,
    List.length_map, List.length_range']

/-- The same for one subroutine. -/
theorem Subroutine.branches_eq {s : Subroutine} {className : String} {table : SymbolTable}
    {labels : LabelSupply} {pos : Nat} {r : Routine} {entries : List Entry}
    (hspells : Spells s.lexemes entries) (h : s.translate className table labels pos = .ok r) :
    branchesIn s.body = branchCount entries := by
  obtain ⟨scope, cmds, pos', -, hcmds, rfl⟩ := Subroutine.translate_ok h
  have hmarkers := congrArg List.length (map_fst_translateStatements s.body hcmds)
  have hids := congrArg List.length (map_snd_commandsBranches cmds)
  rw [List.length_map] at hmarkers hids
  rw [branchCount, hspells.branchMarkers_eq, s.lexemeMarkers_eq, ← hmarkers, hids,
    ids_translateStatements s.body hcmds, idsOf, List.length_map, List.length_range']

/-- The statements with an id are those of the entries in order, each with the next id. -/
theorem Class.branches_translate {c : Class} {labels : LabelSupply} {rs : List Routine}
    {entries : List Entry} (hspells : Spells c.lexemes entries)
    (h : c.translate labels = .ok rs) :
    routinesBranches rs = (branchMarkers entries).zip (idsOf labels c.branches) := by
  apply List.zip_of_prod
  · rw [hspells.branchMarkers_eq, c.map_fst_branches h]
  · rw [map_snd_routinesBranches, c.ids_translate h]

end Jack.Grammar
