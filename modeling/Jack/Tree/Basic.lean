import Jack.Lexicon.NodeKind

/-!
# Parse trees

A tree is a production with its children or a token with its text. Consumers see a tree as the
sequence of its entries in pre-order, in which productions are markers without an end.
-/

namespace Jack

/-- A node of a parse tree with everything below it. -/
inductive Node where
  | production (kind : Production) (children : List Node)
  | token (kind : TokenKind) (text : String)
deriving Inhabited, Repr

/-- What the pre-order walk shows of one node. -/
inductive Entry where
  | production (kind : Production)
  | token (kind : TokenKind) (text : String)
deriving DecidableEq, Inhabited, Repr

namespace Entry

/-- The kind of the node. -/
def kind : Entry → NodeKind
  | production k => .production k
  | token k _ => .token k

/-- The text of a token. A production has the empty text. -/
def text : Entry → String
  | production _ => ""
  | token _ s => s

/-- Changes the text of a token and leaves productions alone. -/
def mapText (f : String → String) : Entry → Entry
  | production k => production k
  | token k s => token k (f s)

@[simp] theorem kind_mapText (f : String → String) (e : Entry) : (e.mapText f).kind = e.kind := by
  cases e <;> rfl

theorem mapText_mapText (f g : String → String) (e : Entry) :
    (e.mapText f).mapText g = e.mapText (g ∘ f) := by
  cases e <;> rfl

theorem mapText_id (e : Entry) : e.mapText id = e := by
  cases e <;> rfl

end Entry

namespace Node

/-- The kind of the topmost node. -/
def kind : Node → NodeKind
  | production k _ => .production k
  | token k _ => .token k

/-- The topmost node alone. -/
def entry : Node → Entry
  | production k _ => .production k
  | token k s => .token k s

mutual

/-- Folds over the nodes in pre-order, each with its depth. -/
def fold {β : Type} (f : β → Nat → Entry → β) (depth : Nat) (b : β) : Node → β
  | .production kind children => foldAll f (depth + 1) (f b depth (.production kind)) children
  | .token kind text => f b depth (.token kind text)

/-- Folds over trees that stand side by side. -/
def foldAll {β : Type} (f : β → Nat → Entry → β) (depth : Nat) (b : β) : List Node → β
  | [] => b
  | node :: rest => foldAll f depth (fold f depth b node) rest

end

/-- The nodes in pre-order, each with its depth below the root. -/
def outline (node : Node) : List (Nat × Entry) :=
  (node.fold (fun entries depth entry => (depth, entry) :: entries) 0 []).reverse

/-- The nodes in pre-order. -/
def preorder (node : Node) : List Entry :=
  (node.fold (fun entries _ entry => entry :: entries) 0 []).reverse

/-- The number of nodes. -/
def size (node : Node) : Nat := node.fold (fun n _ _ => n + 1) 0 0

/-- Trees that stand side by side, as one sequence of entries. -/
def preorderAll (nodes : List Node) : List Entry := nodes.flatMap preorder

/-- A fold that ignores depths is a fold over the pre-order. -/
theorem fold_eq_foldl {β : Type} (f : β → Entry → β) (node : Node) (depth : Nat) (b : β) :
    node.fold (fun b _ e => f b e) depth b = node.preorder.foldl f b := by
  have gather : ∀ (node : Node) (d d' : Nat) (b : β) (es : List Entry),
      node.fold (fun b _ e => f b e) d (es.reverse.foldl f b) =
        (node.fold (fun es _ e => e :: es) d' es).reverse.foldl f b := by
    intro node
    induction node using Node.rec
      (motive_2 := fun nodes => ∀ (d d' : Nat) (b : β) (es : List Entry),
        foldAll (fun b _ e => f b e) d (es.reverse.foldl f b) nodes =
          (foldAll (fun es _ e => e :: es) d' es nodes).reverse.foldl f b) with
    | production k children ih =>
      intro d d' b es
      have := ih (d + 1) (d' + 1) b (.production k :: es)
      simpa only [fold, List.reverse_cons, List.foldl_append, List.foldl_cons, List.foldl_nil]
        using this
    | token k s =>
      intro d d' b es
      simp only [fold, List.reverse_cons, List.foldl_append, List.foldl_cons, List.foldl_nil]
    | nil => rfl
    | cons node rest ihNode ihRest d d' b es =>
      simp only [foldAll]
      rw [ihNode d d', ihRest d d']
  exact gather node depth 0 b []

theorem foldAll_eq_foldl {β : Type} (f : β → Entry → β) (nodes : List Node) (depth : Nat) (b : β) :
    foldAll (fun b _ e => f b e) depth b nodes = (preorderAll nodes).foldl f b := by
  induction nodes generalizing b with
  | nil => rfl
  | cons node rest ih =>
    simp only [foldAll, preorderAll, List.flatMap_cons, List.foldl_append]
    rw [fold_eq_foldl, ih]
    rfl

theorem preorder_production (k : Production) (children : List Node) :
    (production k children).preorder = .production k :: preorderAll children := by
  have hwalk := foldAll_eq_foldl (fun (es : List Entry) e => e :: es) children 1 [.production k]
  simp only [preorder, fold]
  rw [hwalk, List.foldl_flip_cons_eq_append]
  simp only [List.reverse_append, List.reverse_reverse, List.reverse_singleton,
    List.singleton_append, List.map_id_fun', id]

theorem preorder_token (k : TokenKind) (s : String) : (token k s).preorder = [.token k s] := rfl

theorem size_eq_length_preorder (node : Node) : node.size = node.preorder.length := by
  unfold size
  rw [fold_eq_foldl (fun n _ => n + 1)]
  suffices h : ∀ (es : List Entry) (n : Nat), es.foldl (fun n _ => n + 1) n = n + es.length by
    rw [h, Nat.zero_add]
  intro es
  induction es with
  | nil => intro n; rfl
  | cons e es ih => intro n; simp only [List.foldl_cons, ih, List.length_cons]; omega

end Node

end Jack
