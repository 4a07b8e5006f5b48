import Jack.Proofs.Compiler.Lockstep.Procedure
import Jack.Proofs.Compiler.Soundness.Expression

/-!
# Faults and the nodes they name

A fault is about the node that it names, and a compiler that fails has looked at no entry behind the
one after that node. So two trees that agree up to there fail with the same fault.

Two sequences of entries are compared that begin with the same ones. Each step of a compilation of
the first is repeated by a compilation of the second as long as what it has looked at is common.
-/

namespace Jack

open Compiler
open Grammar (Lexeme Expression Spells separated callLexemes nameLexemes parameterLexemes)

/-! ## What a fault is about -/

/-- The entries end in some that spell the lexemes. -/
def EndsIn (es : List Entry) (ls : List Lexeme) : Prop :=
  ∃ before last, es = before ++ last ∧ Spells ls last

/-- Items with a comma after each. -/
def listed {α : Type} (item : α → List Lexeme) (xs : List α) : List Lexeme :=
  xs.flatMap fun x => item x ++ [.symbol ","]

/-- What a declaration of variables of one type begins with. -/
inductive DeclarationHead : Storage → List Lexeme → Prop where
  | classVariable {kind : Storage} : kind.isClassLevel = true →
    DeclarationHead kind [.marker .classVarDec, .token .keyword kind.name]
  | localVariable : DeclarationHead .localVar [.marker .varDec, .keyword "var"]

/-- What stands in front of a name that is declared. -/
inductive BeforeName : Storage → List Lexeme → Prop where
  | variable {kind : Storage} {head : List Lexeme} (type : String) (names : List String) :
    DeclarationHead kind head → BeforeName kind (head ++ [.type type] ++ listed nameLexemes names)
  | parameter (parameters : List (String × String)) (type : String) :
    BeforeName .argument
      (.marker .parameterList :: listed parameterLexemes parameters ++ [.type type])

/-- How a fault describes the entry that it names. Where a call has too many arguments, the fault
names what comes after the argument that is one too many, or after the call if it is the receiver
that makes it one too many. There the entries may end. -/
def Fault.About (entries : List Entry) (index : Nat) : Fault → Prop
  | mismatch _ found _ => ∃ e, entries[index]? = some e ∧ found = e.describe
  | unresolved name _ => entries[index]? = some (.token .identifier name)
  | constantRange value _ =>
    entries[index]? = some (.token .integerConstant value) ∨
      ∃ text, entries[index]? = some (.token .stringConstant text) ∧
        (value = text ∨ ∃ c ∈ text.toList, value = String.singleton c)
  | limit what _ =>
    (∃ kind name ls, what = kind.name ++ " variables" ∧
      entries[index]? = some (.token .identifier name) ∧ BeforeName kind ls ∧
      EndsIn (entries.take index) ls) ∨
    what = "arguments in one call" ∧ index ≤ entries.length ∧
      ((∃ arguments, arguments.length = argumentLimit + 1 ∧
        EndsIn (entries.take index)
          (.marker .expressionList :: separated Expression.lexemes arguments)) ∨
      ∃ callee arguments, arguments.length = argumentLimit ∧
        EndsIn (entries.take index) (callLexemes callee arguments))
  | endOfTree _ => False

/-! ## What has been read -/

section

variable {α : Type} (item : α → List Lexeme) (xs : List α) (x : α)

theorem listed_concat : listed item (xs ++ [x]) = listed item xs ++ item x ++ [.symbol ","] := by
  rw [listed, List.flatMap_append, List.flatMap_singleton, ← List.append_assoc]
  rfl

theorem separated_concat : separated item (xs ++ [x]) = listed item xs ++ item x := by
  induction xs with
  | nil => exact List.append_nil _
  | cons y rest ih =>
    have hrest : (rest ++ [x]).flatMap (fun z => Lexeme.symbol "," :: item z) =
        .symbol "," :: separated item (rest ++ [x]) := by
      cases rest <;> rfl
    -- The comma behind the first item is the one in front of the others.
    show item y ++ (rest ++ [x]).flatMap (fun z => Lexeme.symbol "," :: item z) = _
    rw [hrest, ih]
    simp only [listed, List.flatMap_cons, List.append_assoc, List.cons_append, List.nil_append]

end

section

variable {entries es used : List Entry} {ls ls' : List Lexeme} {l : Lexeme} {e : Entry} {n : Nat}

theorem EndsIn.append (h : EndsIn es ls) (h' : Spells ls' used) : EndsIn (es ++ used) (ls ++ ls') := by
  obtain ⟨before, last, rfl, hlast⟩ := h
  exact ⟨before, last ++ used, List.append_assoc .., hlast.append h'⟩

theorem take_succ_of_getElem? (he : entries[n]? = some e) :
    entries.take (n + 1) = entries.take n ++ [e] := by
  rw [List.take_add_one, he]
  rfl

theorem EndsIn.read (h : EndsIn (entries.take n) ls) (he : entries[n]? = some e)
    (hl : l.Reads [e]) : EndsIn (entries.take (n + 1)) (ls ++ [l]) := by
  rw [take_succ_of_getElem? he]
  exact h.append (.singleton hl)

theorem endsIn_read (he : entries[n]? = some e) (hl : l.Reads [e]) :
    EndsIn (entries.take (n + 1)) [l] := by
  have hnil : EndsIn (entries.take n) [] := ⟨entries.take n, [], (List.append_nil _).symm, rfl⟩
  exact hnil.read he hl

end

/-! ## Two sequences with a common beginning -/

/-- Two sequences of entries that begin with the same ones. -/
structure Fork where
  common : List Entry
  tail : List Entry
  tail' : List Entry

namespace Fork

/-- The first sequence. -/
def entries (w : Fork) : List Entry := w.common ++ w.tail

/-- The second sequence. -/
def entries' (w : Fork) : List Entry := w.common ++ w.tail'

theorem length_common_le (w : Fork) : w.common.length ≤ w.entries.length := by
  rw [entries, List.length_append]
  exact Nat.le_add_right ..

/-- The state is at an index of the first sequence. -/
structure At (w : Fork) (n : Nat) (s : CompilerState) : Prop where
  cursor : s.cursor = ⟨w.entries.drop n, n⟩
  le : n ≤ w.entries.length

/-- The same state at the same index of the second sequence. -/
def twin (w : Fork) (s : CompilerState) : CompilerState :=
  { s with cursor := ⟨w.entries'.drop s.cursor.passed, s.cursor.passed⟩ }

/-- What happens from an index of the first sequence on. A run that succeeds has looked at no entry
behind the one it ends at. A run that fails, with a fault that names an entry, is about that entry,
which it has not left behind by more than one, and it has looked at no entry behind the next. If all
that was looked at is common then the second compiler does the same on the second sequence. -/
def Local {α : Type} (w : Fork) (n : Nat) (m m' : Compiler α) (Q : Nat → α → Prop) : Prop :=
  ∀ s, w.At n s →
    match m.run s with
    | .ok a t => ∃ n', n ≤ n' ∧ w.At n' t ∧ Q n' a ∧
      (n' < w.common.length → m'.run (w.twin s) = .ok a (w.twin t))
    | .error fault t => ∀ pos, fault.pos? = some pos → ∃ p, pos = .ofIndex p ∧ n ≤ p + 1 ∧
      fault.About w.entries p ∧
      (p + 1 < w.common.length → m'.run (w.twin s) = .error fault (w.twin t))

variable {w : Fork} {α β : Type} {m m' : Compiler α} {f f' : α → Compiler β} {n : Nat}
  {Q R : Nat → α → Prop} {S : Nat → β → Prop} {s : CompilerState} {e : Entry}

theorem At.current? (h : w.At n s) : s.cursor.current? = w.entries[n]? := by
  rw [Cursor.current?, h.cursor]
  exact List.head?_drop

/-- The second compilation sees the same entry as the first, if it is common. -/
theorem At.current?_twin (h : w.At n s) (hn : n < w.common.length) :
    (w.twin s).cursor.current? = w.entries[n]? := by
  rw [Cursor.current?, twin, h.cursor]
  dsimp only
  rw [List.head?_drop, entries', entries, List.getElem?_append_left hn,
    List.getElem?_append_left hn]

theorem At.position (h : w.At n s) : s.cursor.position = .ofIndex n := by
  rw [Cursor.position, h.cursor]

/-! ## Rules -/

theorem local_pure {a : α} (h : Q n a) : w.Local n (pure a) (pure a) Q :=
  fun _ hs => ⟨n, Nat.le_refl n, hs, h, fun _ => rfl⟩

theorem Local.mono (h : w.Local n m m' Q) (hQ : ∀ n' a, n ≤ n' → Q n' a → R n' a) :
    w.Local n m m' R := by
  intro s hs
  have hm := h s hs
  cases hrun : m.run s with
  | ok a t =>
    rw [hrun] at hm
    obtain ⟨n', hle, ht, hQ', htwin⟩ := hm
    exact ⟨n', hle, ht, hQ n' a hle hQ', htwin⟩
  | error fault t =>
    rw [hrun] at hm
    exact hm

theorem Local.bind (h : w.Local n m m' Q)
    (hf : ∀ n' a, n ≤ n' → Q n' a → w.Local n' (f a) (f' a) S) :
    w.Local n (m >>= f) (m' >>= f') S := by
  intro s hs
  have hm := h s hs
  rw [EStateM.run_bind, EStateM.run_bind]
  cases hrun : m.run s with
  | error fault t =>
    rw [hrun] at hm
    intro pos hpos
    obtain ⟨p, hp, hle, habout, htwin⟩ := hm pos hpos
    exact ⟨p, hp, hle, habout, fun hlt => by rw [htwin hlt]⟩
  | ok a t =>
    rw [hrun] at hm
    obtain ⟨n', hle, ht, hQ, htwin⟩ := hm
    have hfa := hf n' a hle hQ t ht
    dsimp only
    split
    · next b u hb =>
      rw [hb] at hfa
      obtain ⟨n'', hle', hu, hS, htwin'⟩ := hfa
      refine ⟨n'', Nat.le_trans hle hle', hu, hS, fun hlt => ?_⟩
      rw [htwin (Nat.lt_of_le_of_lt hle' hlt)]
      exact htwin' hlt
    · next fault u hb =>
      rw [hb] at hfa
      intro pos hpos
      obtain ⟨p, hp, hle', habout, htwin'⟩ := hfa pos hpos
      refine ⟨p, hp, Nat.le_trans hle hle', habout, fun hlt => ?_⟩
      -- What the first step has looked at lies before the entry after the fault.
      rw [htwin (Nat.lt_of_le_of_lt hle' hlt)]
      exact htwin' hlt

theorem local_throw {fault : Fault} {p : Nat} (hpos : fault.pos? = some (.ofIndex p))
    (hn : n ≤ p + 1) (habout : fault.About w.entries p) :
    w.Local n (throw fault : Compiler α) (throw fault) Q := by
  intro s _ pos hpos'
  rw [hpos] at hpos'
  exact ⟨p, (Option.some.inj hpos').symm, hn, habout, fun _ => rfl⟩

/-- The index is that of an entry or one more. -/
theorem local_of_le (h : n ≤ w.entries.length → w.Local n m m' Q) : w.Local n m m' Q :=
  fun s hs => h hs.le s hs

theorem local_position {f f' : Position → Compiler α}
    (h : w.Local n (f (.ofIndex n)) (f' (.ofIndex n)) Q) :
    w.Local n (position >>= f) (position >>= f') Q := by
  intro s hs
  have hposition : (w.twin s).cursor.position = .ofIndex n := by
    rw [← hs.position]
    rfl
  have hf := h s hs
  rw [← hs.position] at hf
  show match (f s.cursor.position).run s with
    | .ok a t => ∃ n', n ≤ n' ∧ w.At n' t ∧ Q n' a ∧
      (n' < w.common.length → (f' (w.twin s).cursor.position).run (w.twin s) = .ok a (w.twin t))
    | .error fault t => ∀ pos, fault.pos? = some pos → ∃ p, pos = .ofIndex p ∧ n ≤ p + 1 ∧
      fault.About w.entries p ∧ (p + 1 < w.common.length →
        (f' (w.twin s).cursor.position).run (w.twin s) = .error fault (w.twin t))
  exact hf

/-! ## Looking at the current entry -/

/-- The step looks at the current entry and leaves every state as it is. -/
theorem local_look (look : Option Entry → α)
    (hlook : ∀ s, m.run s = .ok (look s.cursor.current?) s) :
    w.Local n m m fun n' a => n' = n ∧ a = look w.entries[n]? := by
  intro s hs
  rw [hlook s, hs.current?]
  refine ⟨n, Nat.le_refl n, hs, ⟨rfl, rfl⟩, fun hn => ?_⟩
  rw [hlook (w.twin s), hs.current?_twin hn]

theorem local_current? : w.Local n current? current? fun n' e? => n' = n ∧ e? = w.entries[n]? :=
  local_look id fun _ => rfl

theorem local_peek? (select : Entry → Option α) :
    w.Local n (peek? select) (peek? select) fun n' a => n' = n ∧ a = w.entries[n]?.bind select :=
  local_look (Option.bind · select) fun _ => rfl

theorem local_atProduction (p : Production) :
    w.Local n (atProduction p) (atProduction p) fun n' b =>
      n' = n ∧ b = decide (w.entries[n]? = some (.production p)) :=
  local_look (fun e => decide (e = some (.production p))) fun _ => rfl

theorem local_atSymbol (text : String) :
    w.Local n (atSymbol text) (atSymbol text) fun n' _ => n' = n :=
  (local_look (fun e => decide (e = some (.token .symbol text))) fun _ => rfl).mono
    fun _ _ _ h => h.1

theorem local_atCall : w.Local n atCall atCall fun n' _ => n' = n := by
  apply (local_atSymbol "(").bind
  rintro _ isOwn _ rfl
  cases isOwn with
  | true => exact local_pure rfl
  | false => exact local_atSymbol "."

theorem local_mismatch (expected : String) :
    w.Local n (mismatch expected : Compiler α) (mismatch expected) Q := by
  apply local_current?.bind
  rintro _ e? _ ⟨rfl, he⟩
  cases e? with
  | some e =>
    apply local_position
    exact local_throw rfl (Nat.le_succ _) ⟨e, he.symm, rfl⟩
  | none =>
    -- The fault names no entry.
    intro s _ pos hpos
    cases hpos

/-! ## Passing entries -/

/-- The state after the current entry. -/
def pass (s : CompilerState) : CompilerState := { s with cursor := s.cursor.advance }

theorem At.pass (h : w.At n s) (hn : n < w.entries.length) : w.At (n + 1) (pass s) := by
  refine ⟨?_, hn⟩
  show s.cursor.advance = _
  rw [h.cursor, List.drop_eq_getElem_cons hn]
  rfl

/-- A common entry is passed in both sequences. -/
theorem At.twin_pass (h : w.At n s) (hn : n < w.common.length) :
    w.twin (Fork.pass s) = Fork.pass (w.twin s) := by
  have hlt : n < w.entries.length := Nat.lt_of_lt_of_le hn w.length_common_le
  have hlt' : n < w.entries'.length := by
    rw [entries', List.length_append]
    omega
  simp only [twin, Fork.pass, h.cursor, List.drop_eq_getElem_cons hlt,
    List.drop_eq_getElem_cons hlt', Cursor.advance]

theorem local_advance (he : w.entries[n]? = some e) :
    w.Local n advance advance fun n' _ => n' = n + 1 := by
  intro s hs
  refine ⟨n + 1, Nat.le_succ n, hs.pass (List.getElem?_eq_some_iff.1 he).1, rfl, fun hn => ?_⟩
  show EStateM.Result.ok () (pass (w.twin s)) = .ok () (w.twin (pass s))
  rw [hs.twin_pass (Nat.lt_of_succ_lt hn)]

theorem local_read (expected : String) (select : Entry → Option α) :
    w.Local n (read expected select) (read expected select) fun n' a =>
      n' = n + 1 ∧ ∃ e, w.entries[n]? = some e ∧ select e = some a := by
  apply (local_peek? select).bind
  rintro _ a? _ ⟨rfl, ha⟩
  cases a? with
  | none => exact local_mismatch expected
  | some a =>
    obtain ⟨e, he, hselect⟩ := Option.bind_eq_some_iff.1 ha.symm
    apply (local_advance he).bind
    rintro _ _ _ rfl
    exact local_pure ⟨rfl, e, he, hselect⟩

theorem local_marker (p : Production) :
    w.Local n (marker p) (marker p) fun n' _ =>
      n' = n + 1 ∧ w.entries[n]? = some (.production p) := by
  refine (local_read _ _).mono ?_
  rintro _ _ _ ⟨rfl, e, he, hselect⟩
  split at hselect
  · next h => exact ⟨rfl, h ▸ he⟩
  · cases hselect

theorem local_word {text : String} (htext : text ≠ "") :
    w.Local n (word text) (word text) fun n' _ =>
      n' = n + 1 ∧ ∃ kind, w.entries[n]? = some (.token kind text) := by
  refine (local_read _ _).mono ?_
  rintro _ _ _ ⟨rfl, e, he, hselect⟩
  split at hselect
  · next h =>
    cases e with
    | production p => exact absurd h.symm htext
    | token kind text' =>
      obtain rfl : text' = text := h
      exact ⟨rfl, kind, he⟩
  · cases hselect

theorem local_identifier :
    w.Local n identifier identifier fun n' name =>
      n' = n + 1 ∧ w.entries[n]? = some (.token .identifier name) := by
  refine (local_read _ _).mono ?_
  rintro _ _ _ ⟨rfl, e, he, hselect⟩
  split at hselect
  · cases hselect
    exact ⟨rfl, he⟩
  · cases hselect

theorem local_type :
    w.Local n type type fun n' name =>
      n' = n + 1 ∧ ∃ e, w.entries[n]? = some e ∧ (Lexeme.type name).Reads [e] := by
  refine (local_read _ _).mono ?_
  rintro _ _ _ ⟨rfl, e, he, hselect⟩
  split at hselect
  · cases hselect
    exact ⟨rfl, _, he, .inl rfl⟩
  · cases hselect
    exact ⟨rfl, _, he, .inr rfl⟩
  · cases hselect

theorem local_keyword (expected : String) (meaning? : String → Option α) :
    w.Local n (keyword expected meaning?) (keyword expected meaning?) fun n' a =>
      n' = n + 1 ∧ ∃ text, w.entries[n]? = some (.token .keyword text) ∧
        meaning? text = some a := by
  refine (local_read _ _).mono ?_
  rintro _ _ _ ⟨rfl, e, he, hselect⟩
  split at hselect
  · exact ⟨rfl, _, he, hselect⟩
  · cases hselect

theorem local_accept (e : Entry) :
    w.Local n (accept e) (accept e) fun n' accepted =>
      if accepted then n' = n + 1 ∧ w.entries[n]? = some e else n' = n := by
  apply local_current?.bind
  rintro _ _ _ ⟨rfl, rfl⟩
  split
  · next he =>
    apply (local_advance he).bind
    rintro _ _ _ rfl
    exact local_pure ⟨rfl, he⟩
  · exact local_pure rfl

theorem run_accept_throw (e : Entry) (fault : Fault) (s : CompilerState) :
    (accept e >>= fun _ => throw fault : Compiler α).run s =
      .error fault (if s.cursor.current? = some e then pass s else s) := by
  show ((if s.cursor.current? = some e then (do advance; return true) else return false) >>=
    fun _ => throw fault : Compiler α).run s = _
  split <;> rfl

/-- The same fault follows whether or not the entry is there. If it is, it has been passed, but what
comes after it has not been looked at. -/
theorem local_accept_throw (e : Entry) {fault : Fault} (hpos : fault.pos? = some (.ofIndex n))
    (habout : fault.About w.entries n) :
    w.Local (n + 1) (accept e >>= fun _ => throw fault : Compiler α)
      (accept e >>= fun _ => throw fault) Q := by
  intro s hs
  rw [run_accept_throw]
  intro pos hpos'
  rw [hpos] at hpos'
  -- Only the entry after the one that the fault names decides what is passed.
  refine ⟨n, (Option.some.inj hpos').symm, Nat.le_refl _, habout, fun hn => ?_⟩
  rw [run_accept_throw, hs.current?_twin hn, hs.current?, ← hs.twin_pass hn]
  split <;> rfl

/-! ## Output -/

/-- A step that neither looks at entries nor passes one. -/
theorem local_silent {m : Compiler α}
    (h : ∀ s, ∃ a t, m.run s = .ok a t ∧ t.cursor = s.cursor ∧
      m.run (w.twin s) = .ok a (w.twin t)) :
    w.Local n m m fun n' _ => n' = n := by
  intro s hs
  obtain ⟨a, t, hrun, hcursor, htwin⟩ := h s
  rw [hrun]
  exact ⟨n, Nat.le_refl n, ⟨hcursor.trans hs.cursor, hs.le⟩, rfl, fun _ => htwin⟩

theorem local_emit (i : Vm.Instruction) : w.Local n (emit i) (emit i) fun n' _ => n' = n :=
  local_silent fun _ => ⟨(), _, rfl, rfl, rfl⟩

theorem local_takeLabel : w.Local n takeLabel takeLabel fun n' _ => n' = n :=
  local_silent fun _ => ⟨_, _, rfl, rfl, rfl⟩

theorem local_note (notice : Notice) : w.Local n (note notice) (note notice) fun n' _ => n' = n :=
  local_silent fun _ => ⟨(), _, rfl, rfl, rfl⟩

theorem local_emitAll (is : List Vm.Instruction) :
    w.Local n (emitAll is) (emitAll is) fun n' _ => n' = n := by
  induction is with
  | nil => exact local_pure rfl
  | cons i is ih =>
    apply (local_emit i).bind
    rintro _ _ _ rfl
    exact ih

/-! ## Beyond the common entries -/

/-- Behind the common entries nothing is said of the second compiler. -/
theorem Local.stop (hn : w.common.length ≤ n) (h : w.Local n m m Q) : w.Local n m m' Q := by
  intro s hs
  have hm := h s hs
  cases hrun : m.run s with
  | ok a t =>
    rw [hrun] at hm
    obtain ⟨n', hle, ht, hQ, -⟩ := hm
    exact ⟨n', hle, ht, hQ, fun hlt => by omega⟩
  | error fault t =>
    rw [hrun] at hm
    intro pos hpos
    obtain ⟨p, hp, hle, habout, -⟩ := hm pos hpos
    exact ⟨p, hp, hle, habout, fun hlt => by omega⟩

/-- What is known of the entries that a run passes may be used after it. -/
theorem Local.and_yields {R : Reading α} (h : w.Local n m m' Q)
    (hm : ∀ l, Yields m (w.entries.drop n) l R) :
    w.Local n m m' fun n' a => Q n' a ∧ ∃ used k is,
      w.entries.take n' = w.entries.take n ++ used ∧ R used k is a := by
  intro s hs
  have hlocal := h s hs
  obtain ⟨cursor, labels, code, notices⟩ := s
  obtain rfl : cursor = ⟨w.entries.drop n, n⟩ := hs.cursor
  cases hrun : m.run ⟨⟨w.entries.drop n, n⟩, labels, code, notices⟩ with
  | error fault t =>
    rw [hrun] at hlocal
    exact hlocal
  | ok a t =>
    rw [hrun] at hlocal
    obtain ⟨n', hle, ht, hQ, htwin⟩ := hlocal
    obtain ⟨used, rest, k, is, ns', hdrop, rfl, hR⟩ := (hm labels).ok hrun
    -- Where the run ends tells how many entries it has passed.
    obtain ⟨-, rfl⟩ := Cursor.mk.inj ht.cursor
    refine ⟨n + used.length, hle, ht, ⟨hQ, used, k, is, ?_, hR⟩, htwin⟩
    rw [List.take_add, hdrop, List.take_left]

/-! ## Everywhere -/

/-- What happens from wherever at least `d` entries are passed. At least `e` are passed then. -/
def LocalFrom {α : Type} (w : Fork) (d e : Nat) (m m' : Compiler α) : Prop :=
  ∀ n, d ≤ n → w.Local n m m' fun n' _ => e ≤ n'

variable {d e g : Nat}

theorem LocalFrom.bind (h : w.LocalFrom d e m m') (hf : ∀ a, w.LocalFrom e g (f a) (f' a)) :
    w.LocalFrom d g (m >>= f) (m' >>= f') :=
  fun n hn => (h n hn).bind fun n' a _ hn' => hf a n' hn'

/-- What follows does the same from everywhere. -/
theorem Local.then (h : w.Local n m m' Q) (hn : d ≤ n) (hf : ∀ a, w.LocalFrom d e (f a) (f' a)) :
    w.Local n (m >>= f) (m' >>= f') fun n' _ => e ≤ n' :=
  h.bind fun n' a hle _ => hf a n' (Nat.le_trans hn hle)

theorem Local.ge (h : w.Local n m m' Q) (hn : d ≤ n) : w.Local n m m' fun n' _ => d ≤ n' :=
  h.mono fun _ _ hle _ => Nat.le_trans hn hle

theorem localFrom_of {Q : Nat → Nat → α → Prop} (h : ∀ n, w.Local n m m' (Q n)) :
    w.LocalFrom d d m m' :=
  fun n hn => (h n).ge hn

theorem localFrom_pure (a : α) : w.LocalFrom d d (pure a) (pure a) := fun _ hn => local_pure hn

theorem LocalFrom.weaken (h : w.LocalFrom d e m m') (hg : g ≤ e) : w.LocalFrom d g m m' :=
  fun n hn => (h n hn).mono fun _ _ _ he => Nat.le_trans hg he

theorem LocalFrom.steady (h : w.LocalFrom d (d + 1) m m') : w.LocalFrom d d m m' :=
  h.weaken (Nat.le_succ d)

theorem LocalFrom.stop (hd : w.common.length ≤ d) (h : w.LocalFrom d e m m) :
    w.LocalFrom d e m m' :=
  fun n hn => (h n hn).stop (Nat.le_trans hd hn)

theorem localFrom_marker (p : Production) : w.LocalFrom d (d + 1) (marker p) (marker p) := by
  intro n hn
  refine (local_marker p).mono ?_
  rintro _ _ _ ⟨rfl, -⟩
  exact Nat.succ_le_succ hn

theorem localFrom_word (text : String) : w.LocalFrom d d (word text) (word text) :=
  localFrom_of fun _ => local_read _ _

theorem localFrom_identifier : w.LocalFrom d d identifier identifier :=
  localFrom_of fun _ => local_identifier

theorem localFrom_type : w.LocalFrom d d type type := localFrom_of fun _ => local_type

theorem localFrom_keyword (expected : String) (meaning? : String → Option α) :
    w.LocalFrom d d (keyword expected meaning?) (keyword expected meaning?) :=
  localFrom_of fun _ => local_keyword expected meaning?

theorem localFrom_emit (i : Vm.Instruction) : w.LocalFrom d d (emit i) (emit i) :=
  localFrom_of fun _ => local_emit i

theorem localFrom_emitAll (is : List Vm.Instruction) : w.LocalFrom d d (emitAll is) (emitAll is) :=
  localFrom_of fun _ => local_emitAll is

theorem localFrom_takeLabel : w.LocalFrom d d takeLabel takeLabel :=
  localFrom_of fun _ => local_takeLabel

theorem localFrom_note (notice : Notice) : w.LocalFrom d d (note notice) (note notice) :=
  localFrom_of fun _ => local_note notice

theorem localFrom_peek? (select : Entry → Option α) :
    w.LocalFrom d d (peek? select) (peek? select) :=
  localFrom_of fun _ => local_peek? select

theorem localFrom_atProduction (p : Production) :
    w.LocalFrom d d (atProduction p) (atProduction p) :=
  localFrom_of fun _ => local_atProduction p

theorem localFrom_accept (e : Entry) : w.LocalFrom d d (accept e) (accept e) :=
  localFrom_of fun _ => local_accept e

end Fork

end Jack
