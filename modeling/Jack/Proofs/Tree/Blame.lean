import Jack.Proofs.Tree.Dump
import Jack.Proofs.Text.Reading

/-!
# The first bad value of a document

A document that is not the dump of a tree has values that do not have the form of their place.
Decoding reports the first of them in the order of the document, and the path of the error leads
through the document to this value, or to the payload of its only member.
-/

namespace Jack.Dump

/-! ## Ways through a document -/

/-- The part of a value that a step leads to. A member is entered only if the object has no other. -/
def Step.enter : Step → Json.Value → Option Json.Value
  | member name, .object [(only, payload)] => if name = only then some payload else none
  | item index, .array items => items[index]?
  | _, _ => none

/-- The value at the end of a way, whose first step is taken first. -/
def follow : List Step → Json.Value → Option Json.Value
  | [], value => some value
  | step :: way, value => (step.enter value).bind (follow way)

theorem follow_append (way way' : List Step) (value : Json.Value) :
    follow (way ++ way') value = (follow way value).bind (follow way') := by
  induction way generalizing value with
  | nil => rfl
  | cons step way ih =>
    rw [List.cons_append, follow, follow, Option.bind_assoc]
    exact Option.bind_congr fun part _ => ih part

theorem Step.enter_member {name : String} {payload : Json.Value} :
    (Step.member name).enter (.object [(name, payload)]) = some payload := if_pos rfl

theorem follow_step {path : Path} {root value part : Json.Value} {step : Step}
    (h : follow path.reverse root = some value) (hstep : step.enter value = some part) :
    follow (step :: path).reverse root = some part := by
  rw [List.reverse_cons, follow_append, h, Option.bind_some, follow, hstep]
  rfl

/-! ## The text of a way -/

def wayText (way : List Step) : List Char := way.flatMap fun step => step.text.toList

theorem toList_text (path : Path) : (Path.text path).toList = '$' :: wayText path.reverse := by
  induction path with
  | nil => rfl
  | cons step path ih =>
    show (Path.text path ++ step.text).toList = _
    rw [String.toList_append, ih, List.cons_append, List.reverse_cons, wayText, wayText,
      List.flatMap_append, List.flatMap_singleton]

theorem Step.text_ne_nil (step : Step) : step.text.toList ≠ [] := by
  cases step <;> simp [Step.text]

theorem wayText_item (index : Nat) (way : List Step) :
    wayText (.item index :: way) = '[' :: (index.repr.toList ++ ']' :: wayText way) := by
  simp [wayText, Step.text]

/-- An index ends at the bracket behind it. -/
theorem item_injective {i j : Nat} {cs ds : List Char}
    (h : i.repr.toList ++ ']' :: cs = j.repr.toList ++ ']' :: ds) : i = j ∧ cs = ds := by
  have hnot (n : Nat) : ']' ∉ n.repr.toList := fun hmem => by
    cases Text.isDigit_of_mem_repr hmem
  have hspan := congrArg (List.span (· != ']')) h
  rw [Text.span_append (hnot i), Text.span_append (hnot j)] at hspan
  have hij := congrArg Text.digits? (Prod.mk.inj hspan).1
  rw [Text.digits?_repr, Text.digits?_repr] at hij
  exact ⟨Option.some.inj hij, (List.cons.inj (Prod.mk.inj hspan).2).2⟩

/-- A member that is entered is the only one of its object. -/
theorem Step.enter_eq_some {step : Step} {value part : Json.Value}
    (h : step.enter value = some part) :
    (∃ name, step = .member name ∧ value = .object [(name, part)]) ∨
      ∃ index items, step = .item index ∧ value = .array items ∧ items[index]? = some part := by
  unfold Step.enter at h
  split at h
  · next name only payload =>
    split at h
    · next heq =>
      cases h
      exact .inl ⟨name, rfl, heq ▸ rfl⟩
    · cases h
  · next index items => exact .inr ⟨index, items, rfl, rfl, h⟩
  · cases h

/-- In one document, ways with the same text are the same. A name may hold dots and brackets, but
the document says where the name ends. -/
theorem follow_injective {way way' : List Step} {value target target' : Json.Value}
    (h : follow way value = some target) (h' : follow way' value = some target')
    (htext : wayText way = wayText way') : way = way' := by
  induction way generalizing way' value with
  | nil =>
    cases way' with
    | nil => rfl
    | cons step way' =>
      have hempty : step.text.toList ++ wayText way' = [] := htext.symm
      exact absurd (List.append_eq_nil_iff.1 hempty).1 step.text_ne_nil
  | cons step way ih =>
    cases way' with
    | nil =>
      have hempty : step.text.toList ++ wayText way = [] := htext
      exact absurd (List.append_eq_nil_iff.1 hempty).1 step.text_ne_nil
    | cons step' way' =>
      obtain ⟨part, hpart, hway⟩ := Option.bind_eq_some_iff.1 h
      obtain ⟨part', hpart', hway'⟩ := Option.bind_eq_some_iff.1 h'
      obtain ⟨name, rfl, rfl⟩ | ⟨index, items, rfl, rfl, hitem⟩ := step.enter_eq_some hpart
      · obtain ⟨name', rfl, heq⟩ | ⟨_, _, -, heq, -⟩ := step'.enter_eq_some hpart'
        · cases heq
          rw [ih hway hway' (List.append_cancel_left htext)]
        · cases heq
      · obtain ⟨_, -, heq⟩ | ⟨index', _, rfl, heq, hitem'⟩ := step'.enter_eq_some hpart'
        · cases heq
        · cases heq
          rw [wayText_item, wayText_item] at htext
          obtain ⟨rfl, hrest⟩ := item_injective (List.cons.inj htext).2
          rw [hitem] at hitem'
          cases hitem'
          rw [ih hway hway' hrest]

/-- Following a text from the root of a document leads to a value. -/
def Leads (root : Json.Value) (text : String) (target : Json.Value) : Prop :=
  ∃ path : Path, Path.text path = text ∧ follow path.reverse root = some target

/-- The text leads to no other value. -/
theorem Leads.unique {root target target' : Json.Value} {text : String}
    (h : Leads root text target) (h' : Leads root text target') : target' = target := by
  obtain ⟨path, rfl, hpath⟩ := h
  obtain ⟨path', htext, hpath'⟩ := h'
  have hway : wayText path'.reverse = wayText path.reverse := by
    have hlist := congrArg String.toList htext
    rw [toList_text, toList_text] at hlist
    exact (List.cons.inj hlist).2
  rw [follow_injective hpath' hpath hway, hpath] at hpath'
  exact (Option.some.inj hpath').symm

/-! ## Values that do not have their form -/

mutual

/-- The values that nodes of the tree would be decoded from, in the order of the document: a value
stands in front of its children, which are the items below its only member. Each comes with the path
to it. -/
def places (path : Path) : Json.Value → List (Path × Json.Value)
  | .object [(name, .array items)] =>
    (path, .object [(name, .array items)]) :: placesAll (.member name :: path) 0 items
  | value => [(path, value)]

/-- The same for the items of an array from an index on. -/
def placesAll (path : Path) (index : Nat) : List Json.Value → List (Path × Json.Value)
  | [] => []
  | value :: rest => places (.item index :: path) value ++ placesAll path (index + 1) rest

end

theorem places_of_ne {path : Path} {value : Json.Value}
    (h : ∀ name items, value ≠ .object [(name, .array items)]) :
    places path value = [(path, value)] := by
  unfold places
  split
  · exact absurd rfl (h _ _)
  · rfl

/-- What is wrong with a value at the end of a path, the checks in their order, and the part of the
value that is to blame: the value itself, or the payload of its only member. -/
inductive Blames (path : String) : Json.Value → Json.Value → TreeError → Prop where
  | notObject {value} (h : ∀ members, value ≠ .object members) :
    Blames path value value (.invalidNode path "expected an object")
  | memberCount {members} (h : members.length ≠ 1) :
    Blames path (.object members) (.object members)
      (.invalidNode path ("expected exactly one key, found " ++ members.length.repr))
  | unknownKind {name payload} (h : ∀ kind : NodeKind, kind.name ≠ name) :
    Blames path (.object [(name, payload)]) payload (.unknownKind name (path ++ ("." ++ name)))
  | notChildren {name payload} (kind : Production) (hname : kind.name = name)
      (harray : ∀ items, payload ≠ .array items) (hnull : payload ≠ .null)
      (hblank : ∀ text, payload = .string text → ¬Text.isBlank text) :
    Blames path (.object [(name, payload)]) payload
      (.invalidNode (path ++ ("." ++ name)) "expected an array of children")
  | notText {name payload} (kind : TokenKind) (hname : kind.name = name)
      (h : ∀ text, payload ≠ .string text) :
    Blames path (.object [(name, payload)]) payload
      (.invalidNode (path ++ ("." ++ name)) "expected token text")

/-- The path that an error about a value names. -/
def errorPath? : TreeError → Option String
  | .invalidNode path _ => some path
  | .unknownKind _ path => some path
  | _ => none

/-- The path of an error leads to what is to blame. -/
theorem Blames.leads {root value site : Json.Value} {path : Path} {error : TreeError}
    (h : Blames path.text value site error) (hvalue : follow path.reverse root = some value) :
    ∃ text, errorPath? error = some text ∧ Leads root text site := by
  have hmember {name : String} (heq : value = .object [(name, site)]) :
      Leads root (path.text ++ ("." ++ name)) site :=
    ⟨.member name :: path, rfl, follow_step hvalue (heq ▸ Step.enter_member)⟩
  cases h with
  | notObject | memberCount => exact ⟨_, rfl, path, rfl, hvalue⟩
  | unknownKind | notChildren | notText => exact ⟨_, rfl, hmember rfl⟩

/-- Every place is reached by its path. -/
def Reached (root : Json.Value) (found : List (Path × Json.Value)) : Prop :=
  ∀ place ∈ found, follow place.1.reverse root = some place.2

theorem reached_of_ne {root value : Json.Value} {path : Path}
    (h : follow path.reverse root = some value)
    (hvalue : ∀ name items, value ≠ .object [(name, .array items)]) :
    Reached root (places path value) := by
  rw [places_of_ne hvalue]
  exact List.forall_mem_singleton.2 h

mutual

theorem reached_places {root : Json.Value} : (value : Json.Value) → ∀ {path : Path},
    follow path.reverse root = some value → Reached root (places path value)
  | .object [(name, .array items)], path, h => by
    have hitems : Reached root (placesAll (.member name :: path) 0 items) :=
      reached_placesAll items [] (follow_step h Step.enter_member)
    rw [places]
    exact List.forall_mem_cons.2 ⟨h, hitems⟩
  | .object [], _, h | .object (_ :: _ :: _), _, h | .object [(_, .null)], _, h
  | .object [(_, .bool _)], _, h | .object [(_, .number _)], _, h | .object [(_, .string _)], _, h
  | .object [(_, .object _)], _, h | .null, _, h | .bool _, _, h | .number _, _, h
  | .string _, _, h | .array _, _, h => reached_of_ne h nofun

theorem reached_placesAll {root : Json.Value} : (items before : List Json.Value) →
    ∀ {path : Path}, follow path.reverse root = some (.array (before ++ items)) →
    Reached root (placesAll path before.length items)
  | [], _, _, _ => by
    rw [placesAll]
    exact List.forall_mem_nil _
  | item :: rest, before, path, h => by
    have hitem : (Step.item before.length).enter (.array (before ++ item :: rest)) = some item := by
      simp [Step.enter]
    have hrest : Reached root (placesAll path (before ++ [item]).length rest) := by
      apply reached_placesAll rest
      rwa [List.append_assoc]
    rw [List.length_append, List.length_singleton] at hrest
    rw [placesAll]
    exact List.forall_mem_append.2 ⟨reached_places item (follow_step h hitem), hrest⟩

end

/-! ## What decoding reports -/

/-- There is nothing to blame at a place. -/
def Sound (place : Path × Json.Value) : Prop :=
  ∀ site error, ¬Blames place.1.text place.2 site error

/-- The first of some places where something is wrong, with the error and what is to blame. -/
def First (found : List (Path × Json.Value)) (site : Json.Value) (error : TreeError) : Prop :=
  ∃ before path value after, found = before ++ (path, value) :: after ∧
    (∀ place ∈ before, Sound place) ∧ Blames path.text value site error

theorem First.append_right {found : List (Path × Json.Value)} {site : Json.Value}
    {error : TreeError} (h : First found site error) (more : List (Path × Json.Value)) :
    First (found ++ more) site error := by
  obtain ⟨before, path, value, after, rfl, hbefore, hblames⟩ := h
  exact ⟨before, path, value, after ++ more, by simp, hbefore, hblames⟩

theorem First.append_left {found : List (Path × Json.Value)} {site : Json.Value}
    {error : TreeError} (h : First found site error) {earlier : List (Path × Json.Value)}
    (hearlier : ∀ place ∈ earlier, Sound place) : First (earlier ++ found) site error := by
  obtain ⟨before, path, value, after, rfl, hbefore, hblames⟩ := h
  exact ⟨earlier ++ before, path, value, after, by simp,
    List.forall_mem_append.2 ⟨hearlier, hbefore⟩, hblames⟩

/-- A result of decoding tells of places what it should: none of them is wrong, or the fault is that
of the first one that is. -/
def Reports {α : Type} (found : List (Path × Json.Value)) : Except Fault α → Prop
  | .ok _ => ∀ place ∈ found, Sound place
  | .error fault => ∃ site, First found site fault.error

theorem Reports.map {α β : Type} {found : List (Path × Json.Value)} {result : Except Fault α}
    (h : Reports found result) (f : α → β) : Reports found (result.map f) := by
  cases result with
  | ok a => exact h
  | error fault => exact h

/-- Places in front of the others at which nothing is wrong. -/
theorem Reports.append_left {α : Type} {found : List (Path × Json.Value)} {result : Except Fault α}
    (h : Reports found result) {earlier : List (Path × Json.Value)}
    (hearlier : ∀ place ∈ earlier, Sound place) : Reports (earlier ++ found) result := by
  cases result with
  | ok a => exact List.forall_mem_append.2 ⟨hearlier, h⟩
  | error fault =>
    obtain ⟨site, hfirst⟩ := h
    exact ⟨site, hfirst.append_left hearlier⟩

theorem reports_error {α : Type} {path : Path} {value site : Json.Value} {fault : Fault}
    (h : Blames path.text value site fault.error) (after : List (Path × Json.Value)) :
    Reports ((path, value) :: after) (.error fault : Except Fault α) :=
  ⟨site, [], path, value, after, rfl, List.forall_mem_nil _, h⟩

theorem reports_unknownKind {α : Type} {path : Path} {name : String} {payload : Json.Value}
    (h : NodeKind.ofName? name = none) (after : List (Path × Json.Value)) :
    Reports ((path, .object [(name, payload)]) :: after)
      (.error ⟨.member name :: path, .unknownKind name⟩ : Except Fault α) := by
  have hblames : Blames path.text (.object [(name, payload)]) payload _ :=
    .unknownKind fun kind hname => by
      rw [← hname, NodeKind.ofName?_name] at h
      cases h
  exact reports_error hblames after

/-- What may stand for a node of a kind. -/
def Fits : NodeKind → Json.Value → Prop
  | .token _, payload => ∃ text, payload = .string text
  | .production _, payload =>
    (∃ items, payload = .array items) ∨ payload = .null ∨
      ∃ text, payload = .string text ∧ Text.isBlank text

theorem sound_of_fits {path : Path} {kind : NodeKind} {payload : Json.Value}
    (h : Fits kind payload) : Sound (path, .object [(kind.name, payload)]) := by
  intro site error hblames
  have hkind (kind' : NodeKind) (hname : kind'.name = kind.name) : kind = kind' :=
    Option.some.inj ((NodeKind.ofName?_name kind).symm.trans (NodeKind.ofName?_eq_some_iff.2 hname))
  cases hblames with
  | notObject hobject => exact hobject _ rfl
  | memberCount hlength => exact hlength rfl
  | unknownKind hunknown => exact hunknown kind rfl
  | notChildren kind' hname harray hnull hblank =>
    obtain rfl := hkind (.production kind') hname
    obtain ⟨items, rfl⟩ | rfl | ⟨text, rfl, htext⟩ := h
    · exact harray items rfl
    · exact hnull rfl
    · exact hblank text rfl htext
  | notText kind' hname htext =>
    obtain rfl := hkind (.token kind') hname
    obtain ⟨text, rfl⟩ := h
    exact htext text rfl

/-- A value without children is checked alone. -/
theorem reports_of_ne {path : Path} {value : Json.Value}
    (h : ∀ name items, value ≠ .object [(name, .array items)]) :
    Reports [(path, value)] (decode path value) := by
  have hok {kind : NodeKind} {payload : Json.Value} {node : Node} (hfits : Fits kind payload) :
      Reports [(path, .object [(kind.name, payload)])] (.ok node : Except Fault Node) :=
    List.forall_mem_singleton.2 (sound_of_fits hfits)
  unfold decode
  split
  · next name payload =>
    cases hkind : NodeKind.ofName? name with
    | none => exact reports_unknownKind hkind []
    | some kind =>
      obtain rfl := NodeKind.ofName?_eq_some_iff.1 hkind
      cases kind with
      | token kind =>
        dsimp only
        split
        · next text => exact hok ⟨text, rfl⟩
        · next htext => exact reports_error (.notText kind rfl htext) []
      | production kind =>
        dsimp only
        split
        · exact absurd rfl (h _ _)
        · exact hok (.inr (.inl rfl))
        · next text =>
          by_cases hblank : Text.isBlank text = true
          · rw [if_pos hblank]
            exact hok (.inr (.inr ⟨text, rfl, hblank⟩))
          · rw [if_neg hblank]
            have hother : ∀ text', Json.Value.string text = .string text' → ¬Text.isBlank text' :=
              fun text' heq => by
                cases heq
                exact hblank
            have harray (items : List Json.Value) : Json.Value.string text ≠ .array items := by
              intro heq
              cases heq
            have hnull : Json.Value.string text ≠ .null := by
              intro heq
              cases heq
            have hblames : Blames path.text (.object [(kind.name, .string text)]) (.string text) _ :=
              .notChildren kind rfl harray hnull hother
            exact reports_error hblames []
        · next harray hnull htext =>
          exact reports_error (.notChildren kind rfl harray hnull fun text h => (htext text h).elim) []
  · next members hmembers =>
    have hlength : members.length ≠ 1 := fun hone => by
      obtain ⟨member, rfl⟩ := List.length_eq_one_iff.1 hone
      exact hmembers _ _ rfl
    exact reports_error (.memberCount hlength) []
  · next hobject => exact reports_error (.notObject hobject) []

theorem reports_leaf {path : Path} {value : Json.Value}
    (h : ∀ name items, value ≠ .object [(name, .array items)]) :
    Reports (places path value) (decode path value) := by
  rw [places_of_ne h]
  exact reports_of_ne h

mutual

/-- The checks are made in the order of the document. -/
theorem reports_decode : (value : Json.Value) → ∀ path,
    Reports (places path value) (decode path value)
  | .object [(name, .array items)], path => by
    rw [places, decode]
    cases hkind : NodeKind.ofName? name with
    | none => exact reports_unknownKind hkind _
    | some kind =>
      obtain rfl := NodeKind.ofName?_eq_some_iff.1 hkind
      cases kind with
      | token kind =>
        have hblames : Blames path.text (.object [(kind.name, .array items)]) (.array items) _ :=
          .notText kind rfl nofun
        exact reports_error hblames _
      | production kind =>
        have hitems := reports_decodeAll items (.member kind.name :: path) 0 []
        have hfits : Fits (.production kind) (.array items) := .inl ⟨items, rfl⟩
        exact (hitems.map _).append_left (List.forall_mem_singleton.2 (sound_of_fits hfits))
  | .object [], _ | .object (_ :: _ :: _), _ | .object [(_, .null)], _
  | .object [(_, .bool _)], _ | .object [(_, .number _)], _ | .object [(_, .string _)], _
  | .object [(_, .object _)], _ | .null, _ | .bool _, _ | .number _, _
  | .string _, _ | .array _, _ => reports_leaf nofun

theorem reports_decodeAll : (items : List Json.Value) → ∀ path index newestFirst,
    Reports (placesAll path index items) (decodeAll path index newestFirst items)
  | [], _, _, _ => by
    rw [placesAll, decodeAll]
    exact List.forall_mem_nil _
  | item :: rest, path, index, newestFirst => by
    have hitem := reports_decode item (.item index :: path)
    rw [placesAll, decodeAll]
    cases hresult : decode (.item index :: path) item with
    | error fault =>
      rw [hresult] at hitem
      obtain ⟨site, hfirst⟩ := hitem
      exact ⟨site, hfirst.append_right _⟩
    | ok node =>
      rw [hresult] at hitem
      exact (reports_decodeAll rest path (index + 1) (node :: newestFirst)).append_left hitem

end

/-- A value is not the dump of a tree if and only if the decoding fails with the error of its first
bad value. The values in front of that one in the order of the document have the form of their
places. The path of the error leads through the value to what is to blame, and to nothing else. -/
theorem decode_blames_first (value : Json.Value) :
    (∀ node choice, dump choice node ≠ value) ↔
      ∃ before path offender after site error text,
        places [] value = before ++ (path, offender) :: after ∧
        (∀ place ∈ before, Sound place) ∧
        Blames (Path.text path) offender site error ∧
        (decode [] value).mapError Fault.error = .error error ∧
        follow path.reverse value = some offender ∧
        errorPath? error = some text ∧
        ∀ target, Leads value text target ↔ target = site := by
  constructor
  · intro hvalue
    have hreports := reports_decode value []
    cases hresult : decode [] value with
    | ok node =>
      obtain ⟨choice, hdump⟩ := exists_dump node hresult
      exact absurd hdump (hvalue node choice)
    | error fault =>
      rw [hresult] at hreports
      obtain ⟨site, before, path, offender, after, hplaces, hbefore, hblames⟩ := hreports
      have hreached : follow path.reverse value = some offender := by
        have hmem : (path, offender) ∈ places [] value := by
          rw [hplaces]
          exact List.mem_append_right _ (List.mem_cons_self ..)
        exact reached_places value rfl _ hmem
      obtain ⟨text, htext, hleads⟩ := hblames.leads hreached
      exact ⟨before, path, offender, after, site, fault.error, text, hplaces, hbefore, hblames, rfl,
        hreached, htext, fun target => ⟨hleads.unique, fun h => h ▸ hleads⟩⟩
  · rintro ⟨_, _, _, _, _, error, _, -, -, -, hresult, -⟩ node choice rfl
    rw [decode_dump [] choice node] at hresult
    cases hresult

/-- The first child has a bad child of its own, which stands in front of the second one. -/
example :
    (decode [] (.object [("class", .array [.object [("term", .array [.null])], .null])])).mapError
      Fault.error = .error (.invalidNode "$.class[0].term[0]" "expected an object") := by
  rfl

end Jack.Dump
