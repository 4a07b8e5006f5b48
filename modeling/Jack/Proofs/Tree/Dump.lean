import Mathlib.Data.List.Forall2
import Jack.Tree.Dump

/-!
# Dumps of trees

A tree has several dumps, since a production without children may be written in three ways. Decoding
takes every dump back to its tree and accepts nothing else.
-/

namespace Jack.Json

mutual

/-- The members of all objects in a value, at any depth and in the order of the document. -/
def Value.objects : Value → List (List (String × Value))
  | .object members => members :: memberObjects members
  | .array items => itemObjects items
  | .null | .bool _ | .number _ | .string _ => []

def itemObjects : List Value → List (List (String × Value))
  | [] => []
  | item :: rest => item.objects ++ itemObjects rest

def memberObjects : List (String × Value) → List (List (String × Value))
  | [] => []
  | (_, value) :: rest => value.objects ++ memberObjects rest

end

theorem Value.objects_singleton (name : String) (payload : Value) :
    (Value.object [(name, payload)]).objects = [(name, payload)] :: payload.objects := by
  simp only [Value.objects, memberObjects, List.append_nil]

end Jack.Json

namespace Jack.Dump

/-- How a production without children is written. -/
inductive EmptyForm where
  | array
  | null
  | blank (text : String) (isBlank : Text.isBlank text = true)

def EmptyForm.value : EmptyForm → Json.Value
  | array => .array []
  | null => .null
  | blank text _ => .string text

/-- The choice of a form for each production without children. A production is found by the indices
of the children on the way to it. -/
abbrev Choice := List Nat → EmptyForm

/-- The choice for the tree below a child. -/
def Choice.child (choice : Choice) (index : Nat) : Choice := fun way => choice (index :: way)

mutual

/-- The JSON value that writes a tree. -/
def dump (choice : Choice) : Node → Json.Value
  | .token kind text => .object [(kind.name, .string text)]
  | .production kind [] => .object [(kind.name, (choice []).value)]
  | .production kind (child :: rest) =>
    .object [(kind.name, .array (dumpAll choice 0 (child :: rest)))]

/-- The values of trees that stand side by side, the first with the given index. -/
def dumpAll (choice : Choice) (index : Nat) : List Node → List Json.Value
  | [] => []
  | node :: rest => dump (choice.child index) node :: dumpAll choice (index + 1) rest

end

/-! ## Decoding a dump -/

theorem decode_token (path : Path) (kind : TokenKind) (text : String) :
    decode path (.object [(kind.name, .string text)]) = .ok (.token kind text) := by
  have hkind : NodeKind.ofName? kind.name = some (.token kind) := NodeKind.ofName?_name (.token kind)
  simp only [decode, hkind]

theorem decode_array (path : Path) (kind : Production) (items : List Json.Value) :
    decode path (.object [(kind.name, .array items)]) =
      (decodeAll (.member kind.name :: path) 0 [] items).map (.production kind) := by
  have hkind : NodeKind.ofName? kind.name = some (.production kind) :=
    NodeKind.ofName?_name (.production kind)
  simp only [decode, hkind]

theorem decode_emptyForm (path : Path) (kind : Production) (form : EmptyForm) :
    decode path (.object [(kind.name, form.value)]) = .ok (.production kind []) := by
  have hkind : NodeKind.ofName? kind.name = some (.production kind) :=
    NodeKind.ofName?_name (.production kind)
  cases form with
  | array => simp only [EmptyForm.value, decode, hkind, decodeAll]; rfl
  | null => simp only [EmptyForm.value, decode, hkind]
  | blank text hblank => simp only [EmptyForm.value, decode, hkind, hblank, if_true]

mutual

theorem decode_dump (path : Path) (choice : Choice) : (node : Node) →
    decode path (dump choice node) = .ok node
  | .token kind text => decode_token path kind text
  | .production kind [] => decode_emptyForm path kind (choice [])
  | .production kind (child :: rest) => by
    rw [dump, decode_array, decodeAll_dumpAll _ choice (child :: rest) 0 []]
    rfl

theorem decodeAll_dumpAll (path : Path) (choice : Choice) : (nodes : List Node) →
    ∀ index newestFirst, decodeAll path index newestFirst (dumpAll choice index nodes) =
      .ok (newestFirst.reverse ++ nodes)
  | [], _, newestFirst => by rw [dumpAll, decodeAll, List.append_nil]
  | node :: rest, index, newestFirst => by
    rw [dumpAll, decodeAll, decode_dump _ (choice.child index) node]
    show decodeAll path (index + 1) (node :: newestFirst) (dumpAll choice (index + 1) rest) = _
    rw [decodeAll_dumpAll path choice rest, List.reverse_cons, List.append_assoc,
      List.singleton_append]

end

/-! ## What is decoded is a dump -/

/-- A value that is decoded is an object of one of three forms. -/
theorem decode_eq_ok {path : Path} {value : Json.Value} {node : Node}
    (h : decode path value = .ok node) :
    (∃ kind text, value = .object [(TokenKind.name kind, .string text)] ∧
        node = .token kind text) ∨
      (∃ kind form, value = .object [(Production.name kind, EmptyForm.value form)] ∧
        node = .production kind []) ∨
      ∃ kind items children, value = .object [(Production.name kind, .array items)] ∧
        decodeAll (.member kind.name :: path) 0 [] items = .ok children ∧
        node = .production kind children := by
  unfold decode at h
  split at h
  · next name payload =>
    -- The name of the only member says what its value has to be.
    split at h
    · cases h
    · next kind hkind =>
      obtain rfl := NodeKind.ofName?_eq_some_iff.1 hkind
      split at h
      · cases h
        exact .inl ⟨kind, _, rfl, rfl⟩
      · cases h
    · next kind hkind =>
      obtain rfl := NodeKind.ofName?_eq_some_iff.1 hkind
      split at h
      · next items =>
        change (decodeAll (.member kind.name :: path) 0 [] items).map (.production kind) =
          .ok node at h
        cases hitems : decodeAll (.member kind.name :: path) 0 [] items with
        | ok children =>
          rw [hitems] at h
          cases h
          exact .inr (.inr ⟨kind, items, children, rfl, hitems, rfl⟩)
        | error fault =>
          rw [hitems] at h
          cases h
      · cases h
        exact .inr (.inl ⟨kind, .null, rfl, rfl⟩)
      · next text =>
        by_cases hblank : Text.isBlank text = true
        · rw [if_pos hblank] at h
          cases h
          exact .inr (.inl ⟨kind, .blank text hblank, rfl, rfl⟩)
        · rw [if_neg hblank] at h
          cases h
      · cases h
  · cases h
  · cases h

/-- Every item has been decoded, somewhere in the document. -/
theorem decodeAll_eq_ok {path : Path} (items : List Json.Value) : ∀ {index newestFirst nodes},
    decodeAll path index newestFirst items = .ok nodes →
    ∃ children, nodes = newestFirst.reverse ++ children ∧
      List.Forall₂ (fun node item => ∃ path, decode path item = .ok node) children items := by
  induction items with
  | nil =>
    intro index newestFirst nodes h
    rw [decodeAll] at h
    cases h
    exact ⟨[], (List.append_nil _).symm, .nil⟩
  | cons item rest ih =>
    intro index newestFirst nodes h
    rw [decodeAll] at h
    cases hitem : decode (.item index :: path) item with
    | error fault =>
      rw [hitem] at h
      cases h
    | ok node =>
      rw [hitem] at h
      obtain ⟨children, rfl, hchildren⟩ := ih h
      refine ⟨node :: children, ?_, .cons ⟨_, hitem⟩ hchildren⟩
      rw [List.reverse_cons, List.append_assoc, List.singleton_append]

/-- The indices in front of the first one do not matter. -/
theorem dumpAll_congr {choice choice' : Choice} (nodes : List Node) : ∀ {index},
    (∀ i, index ≤ i → choice.child i = choice'.child i) →
    dumpAll choice index nodes = dumpAll choice' index nodes := by
  induction nodes with
  | nil =>
    intro index _
    rfl
  | cons node rest ih =>
    intro index h
    rw [dumpAll, dumpAll, h index (Nat.le_refl index), ih fun i hi => h i (by omega)]

/-- The choice for children, put together from that for the first and that for the others. -/
def Choice.before (first rest : Choice) (index : Nat) : Choice
  | [] => .array
  | i :: way => if i = index then first way else rest (i :: way)

theorem Choice.child_before_self (first rest : Choice) (index : Nat) :
    (first.before rest index).child index = first := by
  funext way
  exact if_pos rfl

theorem Choice.child_before_of_ne (first rest : Choice) {index i : Nat} (h : i ≠ index) :
    (first.before rest index).child i = rest.child i := by
  funext way
  exact if_neg h

mutual

theorem exists_dump : (node : Node) → ∀ {path value}, decode path value = .ok node →
    ∃ choice, dump choice node = value
  | .token kind text, path, value, h => by
    rcases decode_eq_ok h with ⟨_, _, rfl, hnode⟩ | ⟨_, _, -, hnode⟩ | ⟨_, _, _, -, -, hnode⟩
    · cases hnode
      exact ⟨fun _ => .array, rfl⟩
    · cases hnode
    · cases hnode
  | .production kind [], path, value, h => by
    rcases decode_eq_ok h with ⟨_, _, -, hnode⟩ | ⟨_, form, rfl, hnode⟩ | ⟨_, items, _, rfl, hitems,
      hnode⟩
    · cases hnode
    · cases hnode
      exact ⟨fun _ => form, rfl⟩
    · cases hnode
      obtain ⟨children, hnil, hchildren⟩ := decodeAll_eq_ok items hitems
      obtain rfl : children = [] := hnil.symm
      cases hchildren
      exact ⟨fun _ => .array, rfl⟩
  | .production kind (child :: rest), path, value, h => by
    rcases decode_eq_ok h with ⟨_, _, -, hnode⟩ | ⟨_, _, -, hnode⟩ | ⟨_, items, _, rfl, hitems, hnode⟩
    · cases hnode
    · cases hnode
    · cases hnode
      obtain ⟨children, hcons, hchildren⟩ := decodeAll_eq_ok items hitems
      obtain rfl : children = child :: rest := hcons.symm
      obtain ⟨choice, hdump⟩ := exists_dumpAll (child :: rest) 0 hchildren
      exact ⟨choice, by rw [dump, hdump]⟩

theorem exists_dumpAll : (nodes : List Node) → ∀ index {items},
    List.Forall₂ (fun node item => ∃ path, decode path item = .ok node) nodes items →
    ∃ choice, dumpAll choice index nodes = items
  | [], index, items, h => by
    cases h
    exact ⟨fun _ => .array, rfl⟩
  | node :: rest, index, items, h => by
    cases h with
    | cons hnode hrest =>
      obtain ⟨path, hnode⟩ := hnode
      obtain ⟨choice, rfl⟩ := exists_dump node hnode
      obtain ⟨choice', rfl⟩ := exists_dumpAll rest (index + 1) hrest
      refine ⟨choice.before choice' index, ?_⟩
      rw [dumpAll, Choice.child_before_self, dumpAll_congr rest fun i hi =>
        Choice.child_before_of_ne choice choice' (by omega : i ≠ index)]

end

/-! ## The objects of a dump -/

/-- The object of a node has one member, which is named for the kind of the node. Its value is the
text of a token. -/
def Holds (entry : Entry) (members : List (String × Json.Value)) : Prop :=
  ∃ payload, members = [(entry.kind.name, payload)] ∧
    ∀ kind text, entry = .token kind text → payload = .string text

theorem objects_emptyForm (form : EmptyForm) : form.value.objects = [] := by
  cases form with
  | array => simp only [EmptyForm.value, Json.Value.objects, Json.itemObjects]
  | null => simp only [EmptyForm.value, Json.Value.objects]
  | blank text _ => simp only [EmptyForm.value, Json.Value.objects]

mutual

theorem holds_dump (choice : Choice) : (node : Node) →
    List.Forall₂ Holds node.preorder (dump choice node).objects
  | .token kind text => by
    rw [dump, Json.Value.objects_singleton, Node.preorder_token, Json.Value.objects]
    have htext : ∀ kind' text', Entry.token kind text = .token kind' text' →
        Json.Value.string text = .string text' := by
      intro kind' text' h
      cases h
      rfl
    exact .cons ⟨_, rfl, htext⟩ .nil
  | .production kind [] => by
    rw [dump, Json.Value.objects_singleton, Node.preorder_production, objects_emptyForm]
    exact .cons ⟨_, rfl, nofun⟩ .nil
  | .production kind (child :: rest) => by
    rw [dump, Json.Value.objects_singleton, Node.preorder_production, Json.Value.objects]
    exact .cons ⟨_, rfl, nofun⟩ (holds_dumpAll choice (child :: rest) 0)

theorem holds_dumpAll (choice : Choice) : (nodes : List Node) → ∀ index,
    List.Forall₂ Holds (Node.preorderAll nodes) (Json.itemObjects (dumpAll choice index nodes))
  | [], _ => by
    rw [dumpAll, Json.itemObjects]
    exact .nil
  | node :: rest, index => by
    rw [dumpAll, Json.itemObjects, Node.preorderAll, List.flatMap_cons]
    exact List.rel_append (holds_dump (choice.child index) node)
      (holds_dumpAll choice rest (index + 1))

end

/-- However the productions without children are written, a dump is decoded to its tree. Whatever
value is decoded is the dump of exactly one tree, and its objects stand in the order of the nodes:
each has one member, named for the kind of its node, and a token's text is copied as it is. -/
theorem decode_iff_dump :
    (∀ node choice, decode [] (dump choice node) = .ok node) ∧
      ∀ value,
        ((∃ node, decode [] value = .ok node) ↔ ∃! node, ∃ choice, dump choice node = value) ∧
        ∀ node, decode [] value = .ok node → List.Forall₂ Holds node.preorder value.objects := by
  refine ⟨fun node choice => decode_dump [] choice node, fun value => ⟨⟨?_, ?_⟩, ?_⟩⟩
  · rintro ⟨node, hnode⟩
    refine ⟨node, exists_dump node hnode, ?_⟩
    -- Another tree with this dump would be decoded from it as well.
    rintro node' ⟨choice, rfl⟩
    rw [decode_dump [] choice node'] at hnode
    exact Except.ok.inj hnode
  · rintro ⟨node, ⟨choice, rfl⟩, -⟩
    exact ⟨node, decode_dump [] choice node⟩
  · intro node hnode
    obtain ⟨choice, rfl⟩ := exists_dump node hnode
    exact holds_dump choice node

end Jack.Dump
