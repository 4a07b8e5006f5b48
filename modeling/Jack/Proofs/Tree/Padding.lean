import Jack.Proofs.Compiler.Soundness

/-!
# Padding is transparent

The analyzer pads the text of every token. A compilation that strips padding treats the padded
tree as a compilation that does not strip treats the tree itself: padding is removed from each
token exactly once, also where the text is empty or has spaces of its own, and no production is
touched.
-/

namespace Jack

namespace Node

mutual

/-- Changes the text of every token and leaves productions alone. -/
def mapText (g : String → String) : Node → Node
  | .production kind children => .production kind (mapTextAll g children)
  | .token kind text => .token kind (g text)

/-- Changes the text of every token in trees that stand side by side. -/
def mapTextAll (g : String → String) : List Node → List Node
  | [] => []
  | node :: rest => mapText g node :: mapTextAll g rest

end

/-- The tree as the analyzer writes it: the text of every token has a space on each side. -/
def padded (node : Node) : Node := node.mapText pad

mutual

/-- A fold over a tree with other texts is a fold over the tree that changes each text when it is
met. -/
theorem fold_mapText {β : Type} (g : String → String) (f : β → Nat → Entry → β) (depth : Nat)
    (b : β) : ∀ node : Node,
    (node.mapText g).fold f depth b = node.fold (fun b d e => f b d (e.mapText g)) depth b
  | .production kind children => by
    simp only [mapText, fold]
    exact foldAll_mapTextAll g f (depth + 1) _ children
  | .token kind text => rfl

theorem foldAll_mapTextAll {β : Type} (g : String → String) (f : β → Nat → Entry → β)
    (depth : Nat) (b : β) : ∀ nodes : List Node,
    foldAll f depth b (mapTextAll g nodes) =
      foldAll (fun b d e => f b d (e.mapText g)) depth b nodes
  | [] => rfl
  | node :: rest => by
    simp only [mapTextAll, foldAll]
    rw [fold_mapText g f depth b node]
    exact foldAll_mapTextAll g f depth _ rest

end

mutual

/-- To gather something of every node and then map it is to gather what it is mapped to. -/
theorem map_fold_cons {α β : Type} (h : α → β) (k : Nat → Entry → α) (depth : Nat) (as : List α) :
    ∀ node : Node,
    (node.fold (fun as d e => k d e :: as) depth as).map h =
      node.fold (fun bs d e => h (k d e) :: bs) depth (as.map h)
  | .production kind children => by
    simp only [fold]
    exact map_foldAll_cons h k (depth + 1) _ children
  | .token kind text => rfl

theorem map_foldAll_cons {α β : Type} (h : α → β) (k : Nat → Entry → α) (depth : Nat)
    (as : List α) : ∀ nodes : List Node,
    (foldAll (fun as d e => k d e :: as) depth as nodes).map h =
      foldAll (fun bs d e => h (k d e) :: bs) depth (as.map h) nodes
  | [] => rfl
  | node :: rest => by
    simp only [foldAll]
    rw [map_foldAll_cons h k depth _ rest, map_fold_cons h k depth as node]

end

/-- Other texts leave the kinds, the order and the depths of the nodes as they are. -/
theorem outline_mapText (g : String → String) (node : Node) :
    (node.mapText g).outline = node.outline.map fun (depth, e) => (depth, e.mapText g) := by
  unfold outline
  rw [fold_mapText, List.map_reverse, map_fold_cons]
  rfl

theorem preorder_mapText (g : String → String) (node : Node) :
    (node.mapText g).preorder = node.preorder.map (Entry.mapText g) := by
  unfold preorder
  rw [fold_mapText, List.map_reverse, map_fold_cons _ fun _ e => e]
  rfl

end Node

/-- Only a text with a space on both sides is changed. -/
theorem unpad_eq_self {s : String} (h : ∀ t, s ≠ pad t) : unpad s = s := by
  unfold unpad
  split
  · next inner hs =>
    split
    · next hlast =>
      obtain ⟨middle, rfl⟩ := List.getLast?_eq_some_iff.1 hlast
      have hpad : s = pad (String.ofList middle) := by
        rw [← String.toList_inj, hs]
        simp [pad]
      exact absurd hpad (h _)
    · rfl
  · rfl

theorem unpad_of_notMem {s : String} (h : ' ' ∉ s.toList) : unpad s = s := by
  apply unpad_eq_self
  rintro t rfl
  exact h (by simp [pad])

/-- Stripping the padding of a padded tree gives back the entries of the tree. -/
theorem Options.entries_padded (root : Node) :
    ({ unpad := true } : Options).entries root.padded =
      ({ unpad := false } : Options).entries root := by
  have htext : Jack.unpad ∘ pad = id := funext unpad_pad
  have hentry : Entry.mapText Jack.unpad ∘ Entry.mapText pad = id := funext fun e => by
    rw [Function.comp_apply, Entry.mapText_mapText, htext, Entry.mapText_id, id]
  show root.padded.preorder.map (Entry.mapText Jack.unpad) = root.preorder
  rw [Node.padded, Node.preorder_mapText, List.map_map, hentry, List.map_id]

/-- Padding changes nothing but the texts of tokens, and a compilation that strips it has the same
outcome as one of the tree without padding that does not strip: the same code of the same class or
the same fault at the same position, the same label ids taken and the same notices. -/
theorem compile_padded (labels : Vm.LabelSupply) (root : Node) :
    root.padded.outline = root.outline.map (fun (depth, e) => (depth, e.mapText pad)) ∧
      compile labels root.padded { unpad := true } = compile labels root { unpad := false } := by
  refine ⟨Node.outline_mapText pad root, ?_⟩
  rw [compile_eq, compile_eq, Options.entries_padded]

end Jack
