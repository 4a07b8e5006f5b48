import Jack.Proofs.Compiler.Independence
import Jack.Proofs.Text.Reading
import Jack.Proofs.Tree.Assembly
import Jack.Proofs.Tree.Padding

/-!
# Constants in the source

A term that is an integer or a string constant pushes exactly what is written, or fails at the token
because the machine cannot push it.
-/

namespace Jack

open Compiler
open Grammar (Adds adds_tokenTerm)
open Vm (LabelSupply)

variable {scope : Scope} {bound n : Nat} {rest : List Entry} {l : LabelSupply} {c : Vm.Code}
  {ns : Array Notice}

/-! ## Integers -/

theorem run_term_integer (text : String) :
    (term scope (bound + 1)).run
        ⟨⟨.production .term :: .token .integerConstant text :: rest, n⟩, l, c, ns⟩ =
      (integerTerm text (.ofIndex (n + 1))).run ⟨⟨rest, n + 2⟩, l, c, ns⟩ := rfl

theorem integerTerm_of_some {text : String} {k : Nat} {pos : Position}
    (h : Text.natural? text = some k) (hk : k ≤ maxConstant) :
    integerTerm text pos = emit (.push .constant k) := by
  rw [integerTerm, h, Option.filter_some, if_pos (decide_eq_true hk)]

theorem integerTerm_of_none {text : String} {pos : Position}
    (h : ∀ k, Text.natural? text = some k → maxConstant < k) :
    integerTerm text pos = throw (.constantRange text pos) := by
  rw [integerTerm]
  cases hk : Text.natural? text with
  | none => rfl
  | some k =>
    have hlt := h k hk
    rw [Option.filter_some, if_neg (by simpa using hlt)]

/-- What becomes of an integer constant whose term begins at an index. -/
structure ReadsInteger (text : String) (fits : Nat → Prop) : Prop where
  /-- A number that fits is pushed, and nothing else is. -/
  pushed : ∀ (scope : Scope) (bound n k : Nat) (rest : List Entry) (l : LabelSupply) (c : Vm.Code)
    (ns : Array Notice),
    (term scope (bound + 1)).run
        ⟨⟨.production .term :: .token .integerConstant text :: rest, n⟩, l, c, ns⟩ =
      .ok () ⟨⟨rest, n + 2⟩, l, c.extend [.push .constant k], ns⟩ ↔ fits k
  /-- Without a number that fits the token is out of range. -/
  refused : ∀ (scope : Scope) (bound n : Nat) (rest : List Entry) (l : LabelSupply) (c : Vm.Code)
    (ns : Array Notice),
    (term scope (bound + 1)).run
        ⟨⟨.production .term :: .token .integerConstant text :: rest, n⟩, l, c, ns⟩ =
      .error (.constantRange text (.ofIndex (n + 1))) ⟨⟨rest, n + 2⟩, l, c, ns⟩ ↔ ∀ k, ¬fits k

theorem readsInteger (text : String) :
    ReadsInteger text fun k => Text.natural? text = some k ∧ k ≤ maxConstant := by
  by_cases h : ∃ k, Text.natural? text = some k ∧ k ≤ maxConstant
  · obtain ⟨k, hk, hle⟩ := h
    constructor
    · intro scope bound n k' rest l c ns
      rw [run_term_integer, integerTerm_of_some hk hle, run_emit]
      constructor
      · intro h
        injection h with _ hstate
        injection hstate with _ _ hcode
        cases Vm.Code.extend_injective hcode
        exact ⟨hk, hle⟩
      · rintro ⟨hk', -⟩
        cases hk.symm.trans hk'
        rfl
    · intro scope bound n rest l c ns
      rw [run_term_integer, integerTerm_of_some hk hle, run_emit]
      exact ⟨nofun, fun hnone => absurd ⟨hk, hle⟩ (hnone k)⟩
  · have hnone : ∀ k, Text.natural? text = some k → maxConstant < k := fun k hk =>
      Nat.lt_of_not_le fun hle => h ⟨k, hk, hle⟩
    constructor
    · intro scope bound n k' rest l c ns
      rw [run_term_integer, integerTerm_of_none hnone, run_throw]
      exact ⟨nofun, fun hfits => absurd ⟨k', hfits⟩ h⟩
    · intro scope bound n rest l c ns
      rw [run_term_integer, integerTerm_of_none hnone, run_throw]
      exact ⟨fun _ k hfits => h ⟨k, hfits⟩, fun _ => rfl⟩

theorem ReadsInteger.congr {text : String} {fits fits' : Nat → Prop} (h : ReadsInteger text fits)
    (hfits : ∀ k, fits k ↔ fits' k) : ReadsInteger text fits' :=
  (funext fun k => propext (hfits k) : fits = fits') ▸ h

theorem space_notMem_repr (v : Int) : ' ' ∉ v.repr.toList := by
  have hnat (m : Nat) : ' ' ∉ m.repr.toList := fun hmem => by
    cases Text.isDigit_of_mem_repr hmem
  cases v with
  | ofNat m => exact hnat m
  | negSucc m =>
    show ' ' ∉ ("-" ++ (m + 1).repr).toList
    rw [String.toList_append, List.mem_append, not_or]
    exact ⟨by decide, hnat (m + 1)⟩

/-- An integer constant is pushed if and only if its text is a plus sign, which may be missing, and
digits that write a number the machine can push. Otherwise its token is out of range. The term that
is built for an integer writes it in decimal, which no stripping changes, so that exactly the
integers from zero on that the machine can push are pushed. -/
theorem integer_exact :
    (∀ text, ReadsInteger text fun k => Text.IsNumeral text k ∧ k ≤ 32767) ∧
      ∀ v : Int,
        Adds (fun a => a.integerTerm v)
          [.production .term, .token .integerConstant v.repr] ∧
        (∀ options : Options, options.entry (.token .integerConstant v.repr) =
          .token .integerConstant v.repr) ∧
        ReadsInteger v.repr fun k => v = k ∧ v ≤ 32767 := by
  refine ⟨fun text => (readsInteger text).congr fun k => ?_, fun v => ⟨?_, fun options => ?_, ?_⟩⟩
  · rw [Text.natural?_eq_some_iff]
    rfl
  · exact adds_tokenTerm .integerConstant v.repr
  · unfold Options.entry
    split
    · exact congrArg (Entry.token .integerConstant) (unpad_of_notMem (space_notMem_repr v))
    · rfl
  · refine (readsInteger v.repr).congr fun k => ?_
    rw [Text.natural?_int_repr]
    refine and_congr_right fun hk => ?_
    rw [hk]
    exact Int.ofNat_le.symm

/-- Leading zeros do not count, and a constant that is too large for 32 bits is out of range like
any other. -/
example : Text.natural? "+0032767" = some 32767 ∧ Text.natural? "4294967296" = some 4294967296 := by
  decide

/-! ## What a compilation comes to -/

/-- A compilation that succeeds has come to every term of the tree, and part of the code is emitted
there. Whatever stands in the place of the term, the compilation comes to it in the same state. If
the term there leads to where it led before, with other code, then this is put in the place of the
code of the term, and nothing else changes. -/
theorem compileEntries_exchange {labels : LabelSupply} {before : List Entry} {unit : ClassCode}
    (h : (compileEntries labels (before ++ .production .term :: rest)).result = .ok unit) :
    ∃ scope bound l c ns t during after,
      (term scope (bound + 1)).run ⟨⟨.production .term :: rest, before.length⟩, l, c, ns⟩ =
        .ok () t ∧
      t.code = c.extend during ∧ unit.code = c.extend (during ++ after) ∧
      ∀ rest', rest'.length = rest.length →
        Visits (term scope (bound + 1)) ⟨⟨.production .term :: rest', before.length⟩, l, c, ns⟩
          (classDec (before ++ .production .term :: rest').length)
          (.start labels (before ++ .production .term :: rest')) ∧
        ∀ during', (term scope (bound + 1)).run
            ⟨⟨.production .term :: rest', before.length⟩, l, c, ns⟩ =
              .ok () (t.facing t.cursor.rest (c.extend during')) →
          (compileEntries labels (before ++ .production .term :: rest')).result =
            .ok ⟨unit.className, c.extend (during' ++ after)⟩ := by
  obtain ⟨name, s, hrun, rfl, -⟩ := exists_run_of_compileEntries h
  obtain ⟨used, _, _, is, _, -, rfl, ⟨rfl, -⟩, -, hterms⟩ :=
    classDec_yields (Nat.le_refl _) _ _ _ _ _ hrun
  have hmarker : (before ++ .production .term :: rest)[before.length]? =
      some (.production .term) := by
    rw [List.getElem?_append_right (Nat.le_refl _), Nat.sub_self]
    rfl
  obtain ⟨scope, bound, ⟨cursor, l, c, ns⟩, t, before', during, after, rfl, hcursor, hc, hterm,
    ht, hother⟩ := hterms before.length hmarker
  rw [List.drop_left, Nat.zero_add] at hcursor
  cases hcursor
  obtain rfl : c = ({} : Vm.Code).extend before' := hc
  have hcode : t.code = ({} : Vm.Code).extend (before' ++ during) := ht
  refine ⟨scope, bound, l, _, ns, t, during, after, hterm, ?_, ?_, fun rest' hlength => ?_⟩
  · rw [hcode, Vm.Code.extend_extend]
  · show ({} : Vm.Code).extend (before' ++ during ++ after) = _
    rw [Vm.Code.extend_extend, List.append_assoc]
  · -- The recursion is bounded by the number of entries, which does not change.
    have hlength' : (before ++ .production .term :: rest').length =
        (before ++ .production .term :: rest).length := by
      rw [List.length_append, List.length_append, List.length_cons, List.length_cons, hlength]
    obtain ⟨hvisits, hleads⟩ := hother (.production .term :: rest') {} rfl
    rw [List.take_left] at hvisits hleads
    rw [← hlength'] at hvisits hleads
    refine ⟨hvisits, fun during' hterm' => ?_⟩
    rw [Vm.Code.extend_extend] at hterm'
    rw [compileEntries_of_ok (hleads during' hterm'), Vm.Code.extend_extend, ← List.append_assoc]
    rfl

/-! ## Strings -/

/-- The code that makes an empty string and adds characters to it. -/
def buildCode (text : String) : List Vm.Instruction :=
  [.push .constant text.length, .call Os.newString 1] ++
    text.toList.flatMap fun c => [.push .constant c.toNat, .call Os.appendChar 2]

/-- The length and the characters are constants of the machine. -/
def Buildable (text : String) : Prop :=
  text.length ≤ 32767 ∧ ∀ c ∈ text.toList, c.toNat ≤ 32767

/-- What is out of range in a string that cannot be built: the whole string if it is too long, and
otherwise its first character that is too large. -/
inductive OutOfRange (text : String) : String → Prop where
  | length (h : 32767 < text.length) : OutOfRange text text
  | character {before after : List Char} {c : Char} (hlength : text.length ≤ 32767)
      (htext : text.toList = before ++ c :: after) (hbefore : ∀ b ∈ before, b.toNat ≤ 32767)
      (hc : 32767 < c.toNat) : OutOfRange text (String.singleton c)

theorem stringTerm_of_buildable {text : String} {pos : Position} (h : Buildable text) :
    stringTerm text pos = emitAll (buildCode text) := by
  have hnone : (text.toList.find? fun c => decide (c.toNat > maxConstant)) = none :=
    List.find?_eq_none.2 fun c hc => by simpa [maxConstant] using h.2 c hc
  have hlength : ¬text.length > maxConstant := Nat.not_lt.2 h.1
  have hinstructions : stringInstructions text = .ok (buildCode text) := by
    rw [stringInstructions, if_neg hlength, hnone]
    rfl
  rw [stringTerm, hinstructions]

theorem stringTerm_of_not_buildable {text : String} (h : ¬Buildable text) :
    ∃ value, OutOfRange text value ∧
      ∀ pos, stringTerm text pos = throw (.constantRange value pos) := by
  by_cases hlength : text.length > maxConstant
  · refine ⟨text, .length hlength, fun pos => ?_⟩
    rw [stringTerm, stringInstructions, if_pos hlength]
  · have hsome : (text.toList.find? fun c => decide (c.toNat > maxConstant)) ≠ none := by
      intro hnone
      refine h ⟨Nat.le_of_not_lt hlength, fun c hc => ?_⟩
      simpa [maxConstant] using List.find?_eq_none.1 hnone c hc
    obtain ⟨c, hc⟩ := Option.ne_none_iff_exists'.1 hsome
    obtain ⟨hwide, before, after, htext, hbefore⟩ := List.find?_eq_some_iff_append.1 hc
    refine ⟨String.singleton c, .character (Nat.le_of_not_lt hlength) htext (fun b hb => ?_) ?_,
      fun pos => ?_⟩
    · simpa [maxConstant] using hbefore b hb
    · simpa [maxConstant] using hwide
    · rw [stringTerm, stringInstructions, if_neg hlength, hc]

theorem run_term_string (text : String) :
    (term scope (bound + 1)).run
        ⟨⟨.production .term :: .token .stringConstant text :: rest, n⟩, l, c, ns⟩ =
      (stringTerm text (.ofIndex (n + 1))).run ⟨⟨rest, n + 2⟩, l, c, ns⟩ := rfl

theorem run_term_of_buildable {text : String} (h : Buildable text) :
    (term scope (bound + 1)).run
        ⟨⟨.production .term :: .token .stringConstant text :: rest, n⟩, l, c, ns⟩ =
      .ok () ⟨⟨rest, n + 2⟩, l, c.extend (buildCode text), ns⟩ := by
  rw [run_term_string, stringTerm_of_buildable h, run_emitAll]

theorem run_term_of_not_buildable {text : String} (h : ¬Buildable text) :
    ∃ value, OutOfRange text value ∧ ∀ scope bound rest n l c ns,
      (term scope (bound + 1)).run
          ⟨⟨.production .term :: .token .stringConstant text :: rest, n⟩, l, c, ns⟩ =
        .error (.constantRange value (.ofIndex (n + 1))) ⟨⟨rest, n + 2⟩, l, c, ns⟩ := by
  obtain ⟨value, hvalue, hthrow⟩ := stringTerm_of_not_buildable h
  refine ⟨value, hvalue, fun scope bound rest n l c ns => ?_⟩
  rw [run_term_string, hthrow, run_throw]

/-- The calls that build a term from one string. -/
def stringTermCalls (s : String) : List Assembly.Call :=
  [.enter .term, .token .stringConstant s, .leave]

/-- The entries that calls on an assembly add, as they are read by default. -/
def readEntries (calls : List Assembly.Call) : List Entry :=
  (calls.filterMap Assembly.Call.entry?).map (Entry.mapText unpad)

theorem readEntries_append (calls calls' : List Assembly.Call) :
    readEntries (calls ++ calls') = readEntries calls ++ readEntries calls' := by
  rw [readEntries, List.filterMap_append, List.map_append]
  rfl

theorem entries_of_replay {calls : List Assembly.Call} {root : Node}
    (h : (Assembly.replay calls).finish = .ok root) :
    ({} : Options).entries root = readEntries calls := by
  show root.preorder.map (Entry.mapText unpad) = _
  rw [readEntries, ← Assembly.finish_replay_eq_ok_iff.1 h, Node.filterMap_traversal]

theorem compile_of_replay {before after : List Assembly.Call} {s : String} {root : Node}
    (h : (Assembly.replay (before ++ stringTermCalls s ++ after)).finish = .ok root)
    (labels : LabelSupply) :
    compile labels root = compileEntries labels (readEntries before ++
      .production .term :: .token .stringConstant (unpad s) :: readEntries after) := by
  rw [compile_eq, entries_of_replay h, readEntries_append, readEntries_append, List.append_assoc]
  rfl

/-- What a class compiles to whose code is known up to one string: the code that builds the string
stands between the code in front and the code behind. A string that is out of range is the fault. -/
inductive StringOutcome (className : String) (front back : List Vm.Instruction) (pos : Position)
    (text : String) : Except Fault ClassCode → Prop where
  | built {code : Vm.Code} (h : Buildable text)
    (hcode : code.toList = front ++ buildCode text ++ back) :
    StringOutcome className front back pos text (.ok ⟨className, code⟩)
  | outOfRange {value : String} (h : ¬Buildable text) (hvalue : OutOfRange text value) :
    StringOutcome className front back pos text (.error (.constantRange value pos))

/-- A string that is built into a tree loses a space on each side if it has one on both, and is
unchanged otherwise. What is left is built character by character where the term is compiled. A
compilation that succeeds has come to the term, and in the code of the class the code that builds
the string follows what was emitted by then. With any other string in its place, nothing but this
part of the code is another one. If a string is out of range, and the compilation comes to its term,
then the compilation fails at its token. -/
theorem compile_stringTerm {before after : List Assembly.Call} {s : String} {root : Node}
    (hroot : (Assembly.replay (before ++ stringTermCalls s ++ after)).finish = .ok root)
    (labels : LabelSupply) :
    let text := unpad s
    let rest := .production .term :: .token .stringConstant text :: readEntries after
    let entries := readEntries before ++ rest
    let n := (readEntries before).length
    (∀ a, (stringTermCalls s).foldl Assembly.perform a = a.tokenTerm .stringConstant s) ∧
      (∀ t, s = pad t → text = t) ∧ ((∀ t, s ≠ pad t) → text = s) ∧
      compile labels root = compileEntries labels entries ∧
      (Buildable text → ∀ scope bound l c ns,
        (term scope (bound + 1)).run ⟨⟨rest, n⟩, l, c, ns⟩ =
          .ok () ⟨⟨readEntries after, n + 2⟩, l, c.extend (buildCode text), ns⟩) ∧
      (∀ unit, (compile labels root).result = .ok unit →
        Buildable text ∧ ∃ scope bound l c ns back,
          Visits (term scope (bound + 1)) ⟨⟨rest, n⟩, l, c, ns⟩ (classDec entries.length)
            (.start labels entries) ∧
          unit.code.toList = c.toList ++ buildCode text ++ back ∧
          ∀ s' root', (Assembly.replay (before ++ stringTermCalls s' ++ after)).finish = .ok root' →
            StringOutcome unit.className c.toList back (.ofIndex (n + 1)) (unpad s')
              (compile labels root').result) ∧
      (¬Buildable text → ∃ value, OutOfRange text value ∧
        ∀ scope bound l c ns,
          Visits (term scope (bound + 1)) ⟨⟨rest, n⟩, l, c, ns⟩ (classDec entries.length)
            (.start labels entries) →
          (compile labels root).result = .error (.constantRange value (.ofIndex (n + 1)))) := by
  intro text rest entries n
  have hcompile : compile labels root = compileEntries labels entries :=
    compile_of_replay hroot labels
  refine ⟨fun _ => rfl, ?_, unpad_eq_self, hcompile, ?_, ?_, ?_⟩
  · rintro t rfl
    exact unpad_pad t
  · intro hbuildable scope bound l c ns
    exact run_term_of_buildable hbuildable
  · intro unit hunit
    rw [hcompile] at hunit
    obtain ⟨scope, bound, l, c, ns, t, during, back, hterm, ht, hcode, hother⟩ :=
      compileEntries_exchange hunit
    -- Otherwise the run would have ended at the term.
    have hbuildable : Buildable text := by
      by_contra hnot
      obtain ⟨value, -, hthrow⟩ := run_term_of_not_buildable hnot
      rw [hthrow] at hterm
      cases hterm
    rw [run_term_of_buildable hbuildable] at hterm
    cases hterm
    cases Vm.Code.extend_injective ht
    refine ⟨hbuildable, scope, bound, l, c, ns, back, (hother _ rfl).1, ?_, ?_⟩
    · rw [hcode, Vm.Code.toList_extend, List.append_assoc]
    · intro s' root' hroot'
      obtain ⟨hvisits, hleads⟩ :=
        hother (.token .stringConstant (unpad s') :: readEntries after) rfl
      rw [compile_of_replay hroot' labels]
      by_cases hbuildable' : Buildable (unpad s')
      · rw [hleads (buildCode (unpad s')) (run_term_of_buildable hbuildable')]
        refine .built hbuildable' ?_
        rw [Vm.Code.toList_extend, List.append_assoc]
      · obtain ⟨value, hvalue, hthrow⟩ := run_term_of_not_buildable hbuildable'
        rw [compileEntries_of_error (hvisits.error (hthrow ..))]
        exact .outOfRange hbuildable' hvalue
  · intro hnot
    obtain ⟨value, hvalue, hthrow⟩ := run_term_of_not_buildable hnot
    refine ⟨value, hvalue, fun scope bound l c ns hvisits => ?_⟩
    rw [hcompile, compileEntries_of_error (hvisits.error (hthrow ..))]

/-- `class Main { function String f() { return "..."; } }`: the calls in front of the term. -/
def callsBeforeTerm : List Assembly.Call :=
  [.enter .classDec, .token .keyword "class", .token .identifier "Main", .token .symbol openBrace,
    .enter .subroutineDec, .token .keyword "function", .token .identifier "String",
    .token .identifier "f", .token .symbol "(", .enter .parameterList, .leave, .token .symbol ")",
    .enter .subroutineBody, .token .symbol openBrace, .enter .statements, .enter .returnStatement,
    .token .keyword "return", .enter .expression]

/-- The calls behind the term. -/
def callsAfterTerm : List Assembly.Call :=
  [.leave, .token .symbol ";", .leave, .leave, .token .symbol closeBrace, .leave, .leave,
    .token .symbol closeBrace, .leave]

def stringTree (s : String) : Node :=
  .production .classDec
    [.token .keyword "class", .token .identifier "Main", .token .symbol openBrace,
      .production .subroutineDec
        [.token .keyword "function", .token .identifier "String", .token .identifier "f",
          .token .symbol "(", .production .parameterList [], .token .symbol ")",
          .production .subroutineBody
            [.token .symbol openBrace,
              .production .statements
                [.production .returnStatement
                  [.token .keyword "return",
                    .production .expression [.production .term [.token .stringConstant s]],
                    .token .symbol ";"]],
              .token .symbol closeBrace]],
      .token .symbol closeBrace]

theorem finish_stringTree (s : String) :
    (Assembly.replay (callsBeforeTerm ++ stringTermCalls s ++ callsAfterTerm)).finish =
      .ok (stringTree s) := rfl

/-- A letter between two spaces is built without the spaces, and nowhere as the string of three
characters that is written. -/
theorem compile_stringTree_spaces :
    (Assembly.replay (callsBeforeTerm ++ stringTermCalls " a " ++ callsAfterTerm)).finish =
        .ok (stringTree " a ") ∧
      Buildable " a " ∧
      ∃ unit, (compile (.sequential 0) (stringTree " a ")).result = .ok unit ∧
        unit.code.toList = [.function "Main.f" 0, .push .constant 1, .call Os.newString 1,
          .push .constant 97, .call Os.appendChar 2, .ret] ∧
        ¬buildCode " a " <:+: unit.code.toList := by
  have hresult : (compile (.sequential 0) (stringTree " a ")).result =
      .ok ⟨"Main", ⟨#[.function "Main.f" 0, .push .constant 1, .call Os.newString 1,
        .push .constant 97, .call Os.appendChar 2, .ret]⟩⟩ := by rfl
  have hbuildable : Buildable " a " := ⟨by decide, by simp⟩
  exact ⟨rfl, hbuildable, _, hresult, rfl, by decide⟩

def stringScope : Scope :=
  { className := "Main", classTable := .empty, signature := ⟨.function, "String", "f"⟩,
    subroutineTable := .empty }

/-- What stands before the term leads to it, whatever the term and the rest are. -/
theorem visits_stringTree (rest : List Entry) :
    Visits (term stringScope 20)
      ⟨⟨rest, 17⟩, .sequential 0, ({} : Vm.Code).extend [.function "Main.f" 0],
        #[.classStarted "Main", .subroutineStarted .function "Main" "f" 0]⟩
      (classDec 22) (.start (.sequential 0) (readEntries callsBeforeTerm ++ rest)) := by
  show Visits _ _ _ ⟨⟨.production .classDec :: .token .keyword "class" ::
    .token .identifier "Main" :: .token .symbol openBrace :: .production .subroutineDec ::
    .token .keyword "function" :: .token .identifier "String" :: .token .identifier "f" ::
    .token .symbol "(" :: .production .parameterList :: .token .symbol ")" ::
    .production .subroutineBody :: .token .symbol openBrace :: .production .statements ::
    .production .returnStatement :: .token .keyword "return" :: .production .expression :: rest,
    0⟩, .sequential 0, {}, #[]⟩
  refine .next (run_marker _) (.next (run_word _ _) (.next (run_identifier _) ?_))
  refine .next (run_note _) (.next (run_word _ _) (.next rfl ?_))
  refine .first (.next (run_atProduction _) (.of_pos rfl (.first ?_)))
  -- The subroutine.
  refine .next (run_marker _) (.next (run_read rfl) (.next (run_read rfl) ?_))
  refine .next (run_identifier _) (.next (run_word _ _) (.next rfl (.next (run_word _ _) ?_)))
  refine .next (run_marker _) (.next (run_word _ _) (.next rfl (.next (run_note _) ?_)))
  refine .next (run_emit _) (.next (run_emitAll _) (.first ?_))
  -- Its only statement.
  refine .next (run_marker _) (.next (run_peek? _) ?_)
  show Visits _ _ (returnStatement _ (expression _ 20) >>= fun _ => statementList _ 20) _
  refine .first (.next (run_marker _) (.next (run_word _ _) (.next (run_atProduction _) ?_)))
  dsimp only
  refine .of_pos rfl (.first (.next (run_marker _) (.first ?_)))
  exact .here

/-- Two letters are built one after the other, and a character that no constant can hold is out of
range. -/
theorem compile_stringTerm_stringTree :
    let entriesOf (s : String) : List Entry := readEntries callsBeforeTerm ++
      .production .term :: .token .stringConstant s :: readEntries callsAfterTerm
    (Assembly.replay (callsBeforeTerm ++ stringTermCalls "hi" ++ callsAfterTerm)).finish =
        .ok (stringTree "hi") ∧
      (∃ unit, (compile (.sequential 0) (stringTree "hi")).result = .ok unit ∧
        unit.code.toList = [.function "Main.f" 0, .push .constant 2, .call Os.newString 1,
          .push .constant 104, .call Os.appendChar 2, .push .constant 105, .call Os.appendChar 2,
          .ret] ∧
        Buildable "hi" ∧ ∃ scope bound l c ns back,
          Visits (term scope (bound + 1))
            ⟨⟨.production .term :: .token .stringConstant "hi" :: readEntries callsAfterTerm, 17⟩,
              l, c, ns⟩ (classDec 22) (.start (.sequential 0) (entriesOf "hi")) ∧
          unit.code.toList = c.toList ++ buildCode "hi" ++ back ∧
          ∀ s, StringOutcome "Main" c.toList back (.ofIndex 18) (unpad s)
            (compile (.sequential 0) (stringTree s)).result) ∧
      (Assembly.replay (callsBeforeTerm ++ stringTermCalls "耀" ++ callsAfterTerm)).finish =
        .ok (stringTree "耀") ∧
      ¬Buildable "耀" ∧
      ∃ value, OutOfRange "耀" value ∧
        (compile (.sequential 0) (stringTree "耀")).result =
          .error (.constantRange value (.ofIndex 18)) := by
  intro entriesOf
  have hresult : (compile (.sequential 0) (stringTree "hi")).result =
      .ok ⟨"Main", ⟨#[.function "Main.f" 0, .push .constant 2, .call Os.newString 1,
        .push .constant 104, .call Os.appendChar 2, .push .constant 105, .call Os.appendChar 2,
        .ret]⟩⟩ := by rfl
  obtain ⟨-, -, -, -, -, hbuilds, -⟩ := compile_stringTerm (finish_stringTree "hi") (.sequential 0)
  obtain ⟨hbuildable, scope, bound, l, c, ns, back, hvisits, hcode, hothers⟩ := hbuilds _ hresult
  have hnot : ¬Buildable "耀" := by simp [Buildable]
  obtain ⟨-, -, -, -, -, -, hrefused⟩ :=
    compile_stringTerm (finish_stringTree "耀") (.sequential 0)
  obtain ⟨value, hvalue, hfault⟩ := hrefused hnot
  have hvisits' := visits_stringTree
    (.production .term :: .token .stringConstant "耀" :: readEntries callsAfterTerm)
  refine ⟨finish_stringTree "hi", ⟨_, hresult, rfl, hbuildable, scope, bound, l, c, ns, back,
    hvisits, hcode, fun s => ?_⟩, finish_stringTree "耀", hnot, value, hvalue, ?_⟩
  · exact hothers s (stringTree s) (finish_stringTree s)
  · exact hfault stringScope 19 _ _ _ hvisits'

end Jack
