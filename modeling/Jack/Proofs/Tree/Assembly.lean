import Mathlib.Data.List.Induction
import Mathlib.Logic.Function.Iterate
import Jack.Tree.Assembly
import Jack.Tree.Cursor

/-!
# Assembling trees call by call

A tree can be walked so that its productions are entered and left. Whoever repeats these calls on an
assembly gets the tree back, and every other sequence of calls is refused: the first misuse is
reported, or else what is unfinished.
-/

namespace Jack

namespace Assembly

/-- One call on an assembly. -/
inductive Call where
  | enter (kind : Production)
  | leave
  | token (kind : TokenKind) (text : String)
deriving DecidableEq, Repr

def perform (a : Assembly) : Call → Assembly
  | .enter kind => a.enter kind
  | .leave => a.leave
  | .token kind text => a.token kind text

/-- The calls on an assembly that is empty at first. -/
def replay (calls : List Call) : Assembly := calls.foldl perform {}

/-- The entry that a call adds, if it adds one. -/
def Call.entry? : Call → Option Entry
  | enter kind => some (.production kind)
  | leave => none
  | token kind text => some (.token kind text)

end Assembly

open Assembly (Call)

mutual

/-- The calls that build a tree. -/
def Node.traversal : Node → List Call
  | .production kind children => .enter kind :: (traversalAll children ++ [.leave])
  | .token kind text => [.token kind text]

def traversalAll : List Node → List Call
  | [] => []
  | node :: rest => node.traversal ++ traversalAll rest

end

@[simp] theorem traversalAll_append (nodes nodes' : List Node) :
    traversalAll (nodes ++ nodes') = traversalAll nodes ++ traversalAll nodes' := by
  induction nodes with
  | nil => rfl
  | cons node rest ih => simp only [List.cons_append, traversalAll, ih, List.append_assoc]

theorem traversalAll_singleton (node : Node) : traversalAll [node] = node.traversal := by
  simp only [traversalAll, List.append_nil]

mutual

/-- Calls that leave a production add nothing, and the others come in pre-order. -/
theorem Node.filterMap_traversal : (node : Node) →
    node.traversal.filterMap Call.entry? = node.preorder
  | .production kind children => by
    rw [Node.traversal, Node.preorder_production]
    simp only [List.filterMap_cons, List.filterMap_append, List.filterMap_nil, List.append_nil,
      Call.entry?, filterMap_traversalAll children]
  | .token kind text => rfl

theorem filterMap_traversalAll : (nodes : List Node) →
    (traversalAll nodes).filterMap Call.entry? = Node.preorderAll nodes
  | [] => rfl
  | node :: rest => by
    rw [traversalAll, List.filterMap_append, node.filterMap_traversal, filterMap_traversalAll rest]
    rfl

end

namespace Assembly

/-! ## Misuse -/

/-- The productions that have been entered and not left, the innermost first. -/
def openAfter (calls : List Call) : List Production :=
  calls.foldl (fun opened call => match call with
    | .enter kind => kind :: opened
    | .leave => opened.tail
    | .token .. => opened) []

/-- What is wrong with a call after others. With nothing open there is nothing to leave, and once
something has been added the root is complete. -/
def misuse? (before : List Call) : Call → Option TreeError
  | .leave => if openAfter before = [] then some .unbalancedClose else none
  | .enter _ | .token .. =>
    if openAfter before = [] ∧ before ≠ [] then some .multipleRoots else none

/-- There is no misuse among the calls. -/
def Clean (calls : List Call) : Prop :=
  ∀ before call after, calls = before ++ call :: after → misuse? before call = none

/-- What a sequence of calls results in. -/
inductive Verdict (calls : List Call) : Except TreeError Node → Prop where
  | misuse {before : List Call} {call : Call} {after : List Call} {error : TreeError} :
    calls = before ++ call :: after → Clean before → misuse? before call = some error →
      Verdict calls (.error error)
  | unclosed {outermost : Production} :
    Clean calls → (openAfter calls).getLast? = some outermost →
      Verdict calls (.error (.unclosedProduction outermost.name))
  | empty : calls = [] → Verdict calls (.error .empty)
  | complete {root : Node} :
    Clean calls → openAfter calls = [] → calls ≠ [] → root.traversal = calls →
      Verdict calls (.ok root)

theorem clean_nil : Clean [] := by
  intro before call after h
  cases before <;> cases h

theorem clean_concat {calls : List Call} {call : Call} (h : Clean calls)
    (hcall : misuse? calls call = none) : Clean (calls ++ [call]) := by
  intro before call' after heq
  rcases List.eq_nil_or_concat after with rfl | ⟨after', last, rfl⟩
  · -- The last call is the one that is added.
    obtain ⟨rfl, hlast⟩ := List.append_inj' heq rfl
    cases hlast
    exact hcall
  · have heq' : calls ++ [call] = (before ++ call' :: after') ++ [last] := by
      rw [heq, List.append_assoc, List.cons_append, List.concat_eq_append]
    exact h before call' after' (List.append_inj' heq' rfl).1

theorem Clean.of_append {calls calls' : List Call} (h : Clean (calls ++ calls')) : Clean calls := by
  intro before call after heq
  apply h before call (after ++ calls')
  rw [heq, List.append_assoc, List.cons_append]

theorem Clean.last {calls : List Call} {call : Call} (h : Clean (calls ++ [call])) :
    misuse? calls call = none := h calls call [] rfl

/-- Calls are clean, or one of them is the first misuse. -/
theorem clean_or_misuse (calls : List Call) :
    Clean calls ∨ ∃ before call after error, calls = before ++ call :: after ∧ Clean before ∧
      misuse? before call = some error := by
  induction calls using List.reverseRecOn with
  | nil => exact .inl clean_nil
  | append_singleton calls call ih =>
    rcases ih with hclean | ⟨before, call', after, error, rfl, hclean, herror⟩
    · cases herror : misuse? calls call with
      | none => exact .inl (clean_concat hclean herror)
      | some error => exact .inr ⟨calls, call, [], error, rfl, hclean, herror⟩
    · refine .inr ⟨before, call', after ++ [call], error, ?_, hclean, herror⟩
      rw [List.append_assoc, List.cons_append]

/-! ## What an assembly remembers -/

/-- The calls that lead to an assembly without misuse. -/
def history (a : Assembly) : List Call :=
  traversalAll a.root.toList ++ a.opened.reverse.flatMap fun p =>
    .enter p.kind :: traversalAll p.newestFirst.reverse

/-- The assembly has been built by the calls, none of which was a misuse. Until the last production
is left there is no root. -/
structure BuiltBy (calls : List Call) (a : Assembly) : Prop where
  misuse_eq : a.misuse = none
  opened_or_root : a.opened = [] ∨ a.root = none
  history_eq : a.history = calls

theorem replay_concat (calls : List Call) (call : Call) :
    replay (calls ++ [call]) = (replay calls).perform call := List.foldl_append

theorem openAfter_concat (calls : List Call) (call : Call) :
    openAfter (calls ++ [call]) = match call with
      | .enter kind => kind :: openAfter calls
      | .leave => (openAfter calls).tail
      | .token .. => openAfter calls := List.foldl_append

theorem map_kind_add (a : Assembly) (node : Node) :
    (a.add node).opened.map OpenProduction.kind = a.opened.map OpenProduction.kind := by
  unfold add
  split
  · next h => rw [h]; rfl
  · rfl
  · rfl

/-- Also after a misuse, productions are entered and left. -/
theorem map_kind_replay (calls : List Call) :
    (replay calls).opened.map OpenProduction.kind = openAfter calls := by
  induction calls using List.reverseRecOn with
  | nil => rfl
  | append_singleton calls call ih =>
    rw [replay_concat, openAfter_concat, ← ih]
    cases call with
    | enter kind =>
      show (enter _ kind).opened.map _ = _
      unfold enter
      split <;> rfl
    | leave =>
      show (leave _).opened.map _ = _
      unfold leave
      split
      · next h => rw [map_kind_add, h]; rfl
      · next h =>
        show (replay calls).opened.map _ = _
        rw [h]
        rfl
    | token kind text => exact map_kind_add ..

theorem history_push (inner : OpenProduction) (outer : List OpenProduction) (root : Option Node)
    (misuse : Option TreeError) :
    history ⟨inner :: outer, root, misuse⟩ =
      history ⟨outer, root, misuse⟩ ++ .enter inner.kind :: traversalAll inner.newestFirst.reverse := by
  simp only [history, List.reverse_cons, List.flatMap_append, List.flatMap_singleton,
    List.append_assoc]

theorem opened_replay_eq_nil {calls : List Call} :
    (replay calls).opened = [] ↔ openAfter calls = [] := by
  rw [← map_kind_replay, List.map_eq_nil_iff]

/-- A node is added to the innermost open production or becomes the root. -/
theorem BuiltBy.add {calls : List Call} {a : Assembly} (h : BuiltBy calls a) (node : Node)
    (hroot : a.root = none) : BuiltBy (calls ++ node.traversal) (a.add node) := by
  obtain ⟨opened, root, misuse⟩ := a
  obtain ⟨rfl, -, rfl⟩ := h
  obtain rfl : root = none := hroot
  cases opened with
  | nil =>
    refine ⟨rfl, .inl rfl, ?_⟩
    show traversalAll [node] ++ [] = node.traversal
    rw [traversalAll_singleton, List.append_nil]
  | cons inner outer =>
    refine ⟨rfl, .inr rfl, ?_⟩
    show history ⟨{ inner with newestFirst := node :: inner.newestFirst } :: outer, none, none⟩ = _
    rw [history_push, history_push, List.reverse_cons, traversalAll_append,
      traversalAll_singleton, List.append_assoc, List.cons_append]

theorem BuiltBy.enter {calls : List Call} {a : Assembly} (h : BuiltBy calls a) (kind : Production)
    (hroot : a.root = none) : BuiltBy (calls ++ [.enter kind]) (a.enter kind) := by
  obtain ⟨opened, root, misuse⟩ := a
  obtain ⟨rfl, -, rfl⟩ := h
  obtain rfl : root = none := hroot
  have henter : Assembly.enter ⟨opened, none, none⟩ kind = ⟨{ kind } :: opened, none, none⟩ := by
    simp [Assembly.enter]
  rw [henter]
  exact ⟨rfl, .inr rfl, history_push ..⟩

theorem BuiltBy.leave {calls : List Call} {a : Assembly} (h : BuiltBy calls a)
    (hopened : a.opened ≠ []) : BuiltBy (calls ++ [.leave]) a.leave := by
  obtain ⟨_ | ⟨inner, outer⟩, root, misuse⟩ := a
  · exact absurd rfl hopened
  obtain ⟨rfl, hroot, rfl⟩ := h
  obtain rfl : root = none := hroot.resolve_left nofun
  -- Without the innermost production the calls are those that led to it.
  have houter : BuiltBy (history ⟨outer, none, none⟩) ⟨outer, none, none⟩ := ⟨rfl, .inr rfl, rfl⟩
  have hadd := houter.add (.production inner.kind inner.newestFirst.reverse) rfl
  rw [history_push, List.append_assoc, List.cons_append]
  exact hadd

/-- As long as something is open, or nothing has been added, there is no root. -/
theorem BuiltBy.root_eq {calls : List Call} (h : BuiltBy calls (replay calls))
    (hroom : ¬(openAfter calls = [] ∧ calls ≠ [])) : (replay calls).root = none := by
  by_cases hcalls : calls = []
  · rw [hcalls]
    rfl
  · have hopened : (replay calls).opened ≠ [] := by
      rw [Ne, opened_replay_eq_nil]
      exact fun hnil => hroom ⟨hnil, hcalls⟩
    exact h.opened_or_root.resolve_left hopened

theorem builtBy_replay {calls : List Call} (h : Clean calls) : BuiltBy calls (replay calls) := by
  induction calls using List.reverseRecOn with
  | nil => exact ⟨rfl, .inl rfl, rfl⟩
  | append_singleton calls call ih =>
    have hbuilt := ih h.of_append
    have hcall := h.last
    rw [replay_concat]
    cases call with
    | enter kind =>
      have hroom : ¬(openAfter calls = [] ∧ calls ≠ []) := by
        intro hfull
        rw [misuse?, if_pos hfull] at hcall
        cases hcall
      exact hbuilt.enter kind (hbuilt.root_eq hroom)
    | leave =>
      have hopened : (replay calls).opened ≠ [] := by
        intro hnil
        rw [misuse?, if_pos (opened_replay_eq_nil.1 hnil)] at hcall
        cases hcall
      exact hbuilt.leave hopened
    | token kind text =>
      have hroom : ¬(openAfter calls = [] ∧ calls ≠ []) := by
        intro hfull
        rw [misuse?, if_pos hfull] at hcall
        cases hcall
      exact hbuilt.add (.token kind text) (hbuilt.root_eq hroom)

/-! ## Misuse is remembered -/

theorem misuse_fail {a : Assembly} {error error' : TreeError} (h : a.misuse = some error) :
    (a.fail error').misuse = some error := by
  show (a.misuse <|> some error') = some error
  rw [h]
  rfl

theorem misuse_add {a : Assembly} {node : Node} {error : TreeError} (h : a.misuse = some error) :
    (a.add node).misuse = some error := by
  unfold add
  split
  · exact h
  · exact h
  · exact misuse_fail h

/-- Whatever is called later, the first misuse stays. -/
theorem misuse_perform {a : Assembly} {error : TreeError} (h : a.misuse = some error)
    (call : Call) : (a.perform call).misuse = some error := by
  cases call with
  | enter kind =>
    show (a.enter kind).misuse = _
    unfold enter
    split
    · exact misuse_fail h
    · exact h
  | leave =>
    show a.leave.misuse = _
    unfold leave
    split
    · exact misuse_add h
    · exact misuse_fail h
  | token kind text => exact misuse_add h

theorem misuse_foldl {error : TreeError} (calls : List Call) : ∀ {a : Assembly},
    a.misuse = some error → (calls.foldl perform a).misuse = some error := by
  induction calls with
  | nil => exact fun h => h
  | cons call calls ih => exact fun h => ih (misuse_perform h call)

/-- Calls without misuse that left nothing open have completed the root. -/
theorem BuiltBy.isSome_root {calls : List Call} {a : Assembly} (h : BuiltBy calls a)
    (hopened : a.opened = []) (hcalls : calls ≠ []) : a.root.isSome = true := by
  obtain ⟨opened, root, misuse⟩ := a
  obtain ⟨-, -, rfl⟩ := h
  obtain rfl : opened = [] := hopened
  cases root with
  | none => exact absurd rfl hcalls
  | some root => rfl

/-- With nothing open a call that would add to a complete root is a misuse at once. -/
theorem misuse_add_of_full {a : Assembly} {root : Node} (hmisuse : a.misuse = none)
    (hopened : a.opened = []) (hroot : a.root = some root) (node : Node) :
    (a.add node).misuse = some .multipleRoots := by
  obtain ⟨opened, _, misuse⟩ := a
  obtain rfl : misuse = none := hmisuse
  obtain rfl : opened = [] := hopened
  obtain rfl := hroot
  rfl

/-- The first misuse is noticed. -/
theorem misuse_replay_concat {calls : List Call} {call : Call} {error : TreeError}
    (h : Clean calls) (hcall : misuse? calls call = some error) :
    (replay (calls ++ [call])).misuse = some error := by
  have hbuilt := builtBy_replay h
  -- Calls that add are refused once the root is complete.
  have hfull : (if openAfter calls = [] ∧ calls ≠ [] then some TreeError.multipleRoots else none) =
      some error → error = .multipleRoots ∧ (replay calls).opened = [] ∧
        ∃ root, (replay calls).root = some root := by
    intro hmany
    obtain ⟨⟨hnil, hcalls⟩, ⟨⟩⟩ := Option.ite_none_right_eq_some.1 hmany
    have hopened := opened_replay_eq_nil.2 hnil
    exact ⟨rfl, hopened, Option.isSome_iff_exists.1 (hbuilt.isSome_root hopened hcalls)⟩
  rw [replay_concat]
  cases call with
  | enter kind =>
    obtain ⟨rfl, hopened, root, hroot⟩ := hfull hcall
    show (enter _ kind).misuse = _
    simp [enter, fail, hopened, hroot, hbuilt.misuse_eq]
  | leave =>
    obtain ⟨hnil, ⟨⟩⟩ := Option.ite_none_right_eq_some.1 hcall
    show (leave _).misuse = _
    simp [leave, fail, opened_replay_eq_nil.2 hnil, hbuilt.misuse_eq]
  | token kind text =>
    obtain ⟨rfl, hopened, root, hroot⟩ := hfull hcall
    exact misuse_add_of_full hbuilt.misuse_eq hopened hroot _

/-! ## Replaying a walk -/

mutual

/-- The calls that build a tree add it as a whole. -/
theorem foldl_traversal : (node : Node) → (a : Assembly) →
    node.traversal.foldl perform a = a.add node
  | .token .., _ => rfl
  | .production kind children, a => by
    have hfill := foldl_traversalAll children { kind } a.opened (a.enter kind)
      (by unfold enter; split <;> rfl)
    rw [Node.traversal, List.foldl_cons, List.foldl_append]
    show ((traversalAll children).foldl perform (a.enter kind)).leave = _
    rw [hfill]
    show ({ a.enter kind with opened := a.opened } : Assembly).add
      (.production kind (children.reverse ++ []).reverse) = _
    rw [List.append_nil, List.reverse_reverse]
    obtain ⟨_ | ⟨inner, outer⟩, _ | root, _ | misuse⟩ := a <;> rfl

/-- Within an open production they add children. -/
theorem foldl_traversalAll : (nodes : List Node) → (inner : OpenProduction) →
    (outer : List OpenProduction) → (a : Assembly) → a.opened = inner :: outer →
      (traversalAll nodes).foldl perform a = { a with
        opened := { inner with newestFirst := nodes.reverse ++ inner.newestFirst } :: outer }
  | [], inner, outer, a, h => by
    obtain ⟨_, root, misuse⟩ := a
    obtain rfl := h
    rfl
  | node :: rest, inner, outer, a, h => by
    have hadd : a.add node = { a with
        opened := { inner with newestFirst := node :: inner.newestFirst } :: outer } := by
      rw [add, h]
    rw [traversalAll, List.foldl_append, foldl_traversal node a, hadd,
      foldl_traversalAll rest _ outer _ rfl, List.reverse_cons, List.append_assoc]
    rfl

end

theorem finish_replay_traversal (root : Node) : (replay root.traversal).finish = .ok root := by
  rw [replay, foldl_traversal]
  rfl

/-! ## What comes of a sequence of calls -/

theorem finish_of_misuse {a : Assembly} {error : TreeError} (h : a.misuse = some error) :
    a.finish = .error error := by
  rw [finish, h]

theorem finish_of_opened {a : Assembly} {outermost : OpenProduction} (hmisuse : a.misuse = none)
    (h : a.opened.getLast? = some outermost) :
    a.finish = .error (.unclosedProduction outermost.kind.name) := by
  rw [finish, hmisuse, h]

/-- With nothing open the calls so far are the walk of the root. -/
theorem BuiltBy.exists_root {calls : List Call} {a : Assembly} (h : BuiltBy calls a)
    (hopened : a.opened = []) (hcalls : calls ≠ []) : ∃ root : Node, root.traversal = calls := by
  obtain ⟨root, hroot⟩ := Option.isSome_iff_exists.1 (h.isSome_root hopened hcalls)
  have hhistory := h.history_eq
  rw [history, hopened, hroot] at hhistory
  refine ⟨root, ?_⟩
  rw [← hhistory]
  show root.traversal = traversalAll [root] ++ []
  rw [traversalAll_singleton, List.append_nil]

/-- An assembly finishes with the verdict on its calls. -/
theorem Verdict.finish_eq {calls : List Call} {result : Except TreeError Node}
    (h : Verdict calls result) : (replay calls).finish = result := by
  cases h with
  | @misuse before call after error heq hclean herror =>
    have hfirst := misuse_replay_concat hclean herror
    have hreplay : replay calls = after.foldl perform (replay (before ++ [call])) := by
      rw [heq, replay, replay, ← List.foldl_append, List.append_assoc, List.singleton_append]
    rw [hreplay]
    exact finish_of_misuse (misuse_foldl after hfirst)
  | @unclosed outermost hclean hlast =>
    have hbuilt := builtBy_replay hclean
    rw [← map_kind_replay, List.getLast?_map] at hlast
    obtain ⟨p, hp, rfl⟩ := Option.map_eq_some_iff.1 hlast
    exact finish_of_opened hbuilt.misuse_eq hp
  | empty heq =>
    rw [heq]
    rfl
  | @complete root hclean hopen hcalls hwalk =>
    rw [← hwalk]
    exact finish_replay_traversal root

/-- There is a verdict on every sequence of calls. -/
theorem exists_verdict (calls : List Call) : ∃ result, Verdict calls result := by
  rcases clean_or_misuse calls with hclean | ⟨before, call, after, error, rfl, hclean, herror⟩
  · by_cases hopen : openAfter calls = []
    · by_cases hcalls : calls = []
      · exact ⟨_, .empty hcalls⟩
      · have hbuilt := builtBy_replay hclean
        obtain ⟨root, hwalk⟩ := hbuilt.exists_root (opened_replay_eq_nil.2 hopen) hcalls
        exact ⟨_, .complete hclean hopen hcalls hwalk⟩
    · exact ⟨_, .unclosed hclean (List.getLast?_eq_some_getLast hopen)⟩
  · exact ⟨_, .misuse rfl hclean herror⟩

theorem finish_replay_eq_iff {calls : List Call} {result : Except TreeError Node} :
    (replay calls).finish = result ↔ Verdict calls result := by
  constructor
  · intro h
    obtain ⟨result', hverdict⟩ := exists_verdict calls
    rw [← h, hverdict.finish_eq]
    exact hverdict
  · exact Verdict.finish_eq

/-- The tree that is finished is the only one whose walk makes these calls. -/
theorem finish_replay_eq_ok_iff {calls : List Call} {root : Node} :
    (replay calls).finish = .ok root ↔ root.traversal = calls := by
  constructor
  · intro h
    cases finish_replay_eq_iff.1 h with
    | complete _ _ _ hwalk => exact hwalk
  · intro hwalk
    rw [← hwalk]
    exact finish_replay_traversal root

end Assembly

/-! ## Reading the tree back -/

namespace Cursor

/-- Where a cursor stands after some moves. -/
theorem iterate_advance (k : Nat) (c : Cursor) :
    advance^[k] c = ⟨c.rest.drop k, c.passed + min k c.rest.length⟩ := by
  induction k generalizing c with
  | zero => simp
  | succ k ih =>
    rw [Function.iterate_succ_apply, ih]
    obtain ⟨_ | ⟨entry, rest⟩, passed⟩ := c
    · simp [advance]
    · simp only [advance, List.drop_succ_cons, List.length_cons, Nat.succ_min_succ]
      congr 1
      omega

end Cursor

namespace Assembly

/-- What a sequence of calls finishes with is exactly the verdict on it. A finished tree is the only
one whose walk makes these calls, and a cursor reads from it what they added, in that order: after
`k` moves it is at entry `k`, and once past the last entry it stays there. Every tree is finished by
the calls of its walk. -/
theorem finish_replay :
    (∀ calls result, (replay calls).finish = result ↔ Verdict calls result) ∧
    (∀ calls root, (replay calls).finish = .ok root →
      (∀ other : Node, other.traversal = calls ↔ other = root) ∧
      root.preorder = calls.filterMap Call.entry? ∧
      (Cursor.ofNode root).size = root.size ∧
      ∀ k, let c := Cursor.advance^[k] (.ofNode root)
        c.current? = (calls.filterMap Call.entry?)[k]? ∧
        c.position.index = min k root.size % UInt32.size ∧
        (c.atEnd = true ↔ root.size ≤ k) ∧
        (c.atEnd = true → c.advance = c)) ∧
    ∀ root : Node, (replay root.traversal).finish = .ok root := by
  refine ⟨fun _ _ => finish_replay_eq_iff, ?_, finish_replay_traversal⟩
  intro calls root hfinish
  have hwalk := finish_replay_eq_ok_iff.1 hfinish
  have hentries : root.preorder = calls.filterMap Call.entry? := by
    rw [← hwalk, Node.filterMap_traversal]
  refine ⟨?_, hentries, Cursor.size_ofNode root, ?_⟩
  · intro other
    constructor
    · intro hother
      have h := finish_replay_eq_ok_iff.2 hother
      rw [hfinish] at h
      cases h
      rfl
    · rintro rfl
      exact hwalk
  · intro k c
    have hc : c = ⟨root.preorder.drop k, 0 + min k root.preorder.length⟩ :=
      Cursor.iterate_advance k (.ofNode root)
    rw [← hentries, Node.size_eq_length_preorder, hc, Nat.zero_add]
    refine ⟨List.head?_drop, Position.index_ofIndex _, ?_, Cursor.advance_of_atEnd⟩
    show (root.preorder.drop k).isEmpty = true ↔ _
    rw [List.isEmpty_iff, List.drop_eq_nil_iff]

end Assembly

end Jack
