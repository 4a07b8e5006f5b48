import Jack.Proofs.Vm.Machine
import Jack.Proofs.Vm.Structured

/-!
# The values of operands

The code of an operand puts its value on the stack and leaves the values below alone. Only the
scratch cells may change, apart from what the calls in it do.
-/

namespace Jack

open Vm

/-! ## Operators -/

def UnaryOp.apply : UnaryOp → Word → Word
  | neg, x => -x
  | not, x => ~~~x

namespace Vm

/-- What an evaluation works on: a state in which there is a memory, and what called functions do to
the state. -/
structure World (σ : Type) where
  memory : σ → Memory
  /-- The result of a call and the state after it. -/
  perform : String → List Word → σ → Word × σ

/-- The state is nothing but the memory. -/
def Calls.world (calls : Calls) : World Memory := ⟨id, calls.perform⟩

end Vm

variable {σ : Type}

/-- Products and quotients are left to called functions. -/
def BinaryOp.apply (world : World σ) (op : BinaryOp) (x y : Word) (s : σ) : Word × σ :=
  match op with
  | add => (x + y, s)
  | sub => (x - y, s)
  | mul => world.perform Os.multiply [x, y] s
  | div => world.perform Os.divide [x, y] s
  | and => (x &&& y, s)
  | or => (x ||| y, s)
  | less => (.ofBool (x.slt y), s)
  | greater => (.ofBool (y.slt x), s)
  | equal => (.ofBool (x == y), s)

end Jack

namespace Jack.Vm

variable {σ : Type} (world : World σ)

mutual

/-- The value of an operand and the state after it. -/
def Operand.eval : Operand → σ → Option (Word × σ)
  | .push segment index, s => ((world.memory s).read? segment index).map (·, s)
  | .unary op operand, s => do
    let (x, s) ← operand.eval s
    return (op.apply x, s)
  | .binary op left right, s => do
    let (x, s) ← left.eval s
    let (y, s) ← right.eval s
    return op.apply world x y s
  | .call name arguments, s => do
    let (xs, s) ← evalOperands arguments s
    return world.perform name xs s
  | .fetch address, s => do
    let (x, s) ← address.eval s
    return ((world.memory s).heap x, s)

/-- The values of operands, computed from first to last. -/
def evalOperands : List Operand → σ → Option (List Word × σ)
  | [], s => some ([], s)
  | o :: rest, s => do
    let (x, s) ← o.eval s
    let (xs, s) ← evalOperands rest s
    return (x :: xs, s)

end

/-- States of the world are what can be seen of the memory and the scratch cells of a machine. -/
structure World.Shows (world : World σ) (calls : Scratch → Calls) (view : Memory → Scratch → σ) :
    Prop where
  memory_view : ∀ m scratch, world.memory (view m scratch) = m
  /-- The cell `pointer 1` is not seen. -/
  view_that : ∀ m scratch that, view m { scratch with that } = view m scratch
  perform_view : ∀ name args m scratch,
    let (result, memory) := (calls scratch).perform name args m
    world.perform name args (view m scratch) =
      (result, view memory ((calls scratch).scratch name args m scratch))

theorem Calls.shows (calls : Calls) : calls.world.Shows (fun _ => calls) fun m _ => m :=
  ⟨fun _ _ => rfl, fun _ _ _ => rfl, fun _ _ _ _ => rfl⟩

variable {world} {is : List Instruction} {stack : List Word} {m : Memory} {scratch : Scratch}
  {start : Nat}

section

variable {calls : Scratch → Calls} {view : Memory → Scratch → σ}

/-! ## Single steps -/

theorem runs_of_execute {s s' : Machine} {x : Instruction} (hx : is[s.pc]? = some x)
    (h : s.execute? (calls s.scratch) is x = some s') : s.Runs calls is s' := by
  apply Relation.ReflTransGen.single
  rw [Machine.step?, hx]
  exact h

theorem Machine.read?_of_memory {s : Machine} {segment : Segment} {i : Nat} {w : Word}
    (h : s.memory.read? segment i = some w) : s.read? segment i = some w := by
  unfold Machine.read?
  split
  · cases h
  · cases h
  · cases h
  · exact h

theorem runs_push {segment : Segment} {i : Nat} {w : Word}
    (hx : is[start]? = some (.push segment i)) (hw : m.read? segment i = some w) :
    Machine.Runs calls is ⟨start, stack, m, scratch⟩ ⟨start + 1, w :: stack, m, scratch⟩ := by
  apply runs_of_execute hx
  have hread : Machine.read? ⟨start, stack, m, scratch⟩ segment i = some w :=
    Machine.read?_of_memory hw
  rw [Machine.execute?, hread]
  rfl

/-- The state that is seen after some code, which leaves one value. -/
def Leaves (calls : Scratch → Calls) (view : Memory → Scratch → σ) (is : List Instruction)
    (s : Machine) (stop : Nat) (stack : List Word) (result : Word × σ) : Prop :=
  ∃ m scratch, view m scratch = result.2 ∧
    s.Runs calls is ⟨stop, result.1 :: stack, m, scratch⟩

theorem leaves_call (hshows : world.Shows calls view) {name : String} {args : Nat}
    {xs : List Word} (hx : is[start]? = some (.call name args)) (hargs : xs.length = args) :
    Leaves calls view is ⟨start, xs.reverse ++ stack, m, scratch⟩ (start + 1) stack
      (world.perform name xs (view m scratch)) := by
  rw [hshows.perform_view]
  refine ⟨_, _, rfl, runs_of_execute hx ?_⟩
  subst hargs
  -- The topmost values, turned round, are the arguments.
  have hlength : xs.length ≤ (xs.reverse ++ stack).length := by
    rw [List.length_append, List.length_reverse]
    omega
  have htake : ((xs.reverse ++ stack).take xs.length).reverse = xs := by
    rw [List.take_left' List.length_reverse, List.reverse_reverse]
  have hdrop : (xs.reverse ++ stack).drop xs.length = stack :=
    List.drop_left' List.length_reverse
  rw [Machine.execute?, if_pos hlength]
  dsimp only
  rw [htake, hdrop]
  rfl

/-- What follows the code of the operand of a unary operator. -/
theorem runs_unary {op : UnaryOp} {x : Word} (hx : is[start]? = some op.instruction) :
    Machine.Runs calls is ⟨start, x :: stack, m, scratch⟩
      ⟨start + 1, op.apply x :: stack, m, scratch⟩ := by
  apply runs_of_execute hx
  cases op <;> rfl

theorem leaves_binary (hshows : world.Shows calls view) {op : BinaryOp} {x y : Word}
    (hx : is[start]? = some op.instruction) :
    Leaves calls view is ⟨start, y :: x :: stack, m, scratch⟩ (start + 1) stack
      (op.apply world x y (view m scratch)) := by
  have hcall {name : String} (hx : is[start]? = some (.call name 2)) :=
    @leaves_call σ world is stack m scratch start calls view hshows name 2 [x, y] hx rfl
  cases op with
  | mul => exact hcall hx
  | div => exact hcall hx
  | add | sub | and | or | less | greater | equal =>
    exact ⟨m, scratch, rfl, runs_of_execute hx rfl⟩

theorem runs_fetchElement {x : Word} (h : Placed is start fetchElement) :
    Machine.Runs calls is ⟨start, x :: stack, m, scratch⟩
      ⟨start + 2, m.heap x :: stack, m, { scratch with that := x }⟩ := by
  have hpop : Machine.Runs calls is ⟨start, x :: stack, m, scratch⟩
      ⟨start + 1, stack, m, { scratch with that := x }⟩ := runs_of_execute h.head rfl
  have hpush : Machine.Runs calls is ⟨start + 1, stack, m, { scratch with that := x }⟩
      ⟨start + 2, m.heap (x + .ofNat 16 0) :: stack, m, { scratch with that := x }⟩ :=
    runs_of_execute h.tail.head rfl
  have hzero : x + .ofNat 16 0 = x := BitVec.add_zero x
  rw [hzero] at hpush
  exact hpop.trans hpush

/-! ## Operands -/

theorem length_of_evalOperands {os : List Operand} : ∀ {s xs s'},
    evalOperands world os s = some (xs, s') → xs.length = os.length := by
  induction os with
  | nil =>
    intro s xs s' h
    cases h
    rfl
  | cons o os ih =>
    intro s xs s' h
    obtain ⟨⟨x, s₁⟩, -, h⟩ := Option.bind_eq_some_iff.1 h
    obtain ⟨⟨xs', s₂⟩, hxs, h⟩ := Option.bind_eq_some_iff.1 h
    cases h
    rw [List.length_cons, ih hxs, List.length_cons]

mutual

/-- The code of an operand leaves its value. -/
theorem Operand.leaves (hshows : world.Shows calls view) : (o : Operand) →
    ∀ {start stack m scratch result}, Placed is start o.code →
    o.eval world (view m scratch) = some result →
    Leaves calls view is ⟨start, stack, m, scratch⟩ (start + o.code.length) stack result
  | .push segment index, start, stack, m, scratch, result, hcode, h => by
    obtain ⟨w, hw, rfl⟩ := Option.map_eq_some_iff.1 h
    rw [hshows.memory_view] at hw
    exact ⟨m, scratch, rfl, runs_push hcode.head hw⟩
  | .unary op operand, start, stack, m, scratch, result, hcode, h => by
    obtain ⟨⟨y, s₁⟩, hy, h⟩ := Option.bind_eq_some_iff.1 h
    cases h
    rw [Operand.code] at hcode ⊢
    obtain ⟨m₁, scratch₁, hview, hoperand⟩ := operand.leaves hshows hcode.left hy
    rw [List.length_append, ← Nat.add_assoc]
    exact ⟨m₁, scratch₁, hview, hoperand.trans (runs_unary hcode.right.head)⟩
  | .binary op left right, start, stack, m, scratch, result, hcode, h => by
    obtain ⟨⟨y, s₁⟩, hy, h⟩ := Option.bind_eq_some_iff.1 h
    obtain ⟨⟨z, s₂⟩, hz, h⟩ := Option.bind_eq_some_iff.1 h
    cases h
    rw [Operand.code] at hcode ⊢
    have hleft : Leaves calls view is ⟨start, stack, m, scratch⟩ _ stack (y, s₁) :=
      left.leaves hshows hcode.left.left hy
    obtain ⟨m₁, scratch₁, rfl, hleft⟩ := hleft
    -- The value of the left operand waits below that of the right one.
    have hright : Leaves calls view is ⟨_, y :: stack, m₁, scratch₁⟩ _ (y :: stack) (z, s₂) :=
      right.leaves hshows hcode.left.right hz
    obtain ⟨m₂, scratch₂, rfl, hright⟩ := hright
    have hinstruction := hcode.right.head
    rw [List.length_append, ← Nat.add_assoc] at hinstruction
    obtain ⟨m₃, scratch₃, hview, hfinish⟩ := leaves_binary hshows hinstruction
    rw [List.length_append, List.length_append, ← Nat.add_assoc, ← Nat.add_assoc]
    exact ⟨m₃, scratch₃, hview, (hleft.trans hright).trans hfinish⟩
  | .call name arguments, start, stack, m, scratch, result, hcode, h => by
    obtain ⟨⟨xs, s₁⟩, hxs, h⟩ := Option.bind_eq_some_iff.1 h
    cases h
    rw [Operand.code] at hcode ⊢
    obtain ⟨m₁, scratch₁, rfl, harguments⟩ := leaves_operands hshows arguments hcode.left hxs
    obtain ⟨m₂, scratch₂, hview, hfinish⟩ :=
      leaves_call hshows hcode.right.head (length_of_evalOperands hxs)
    rw [List.length_append, ← Nat.add_assoc]
    exact ⟨m₂, scratch₂, hview, harguments.trans hfinish⟩
  | .fetch address, start, stack, m, scratch, result, hcode, h => by
    obtain ⟨⟨y, s₁⟩, hy, h⟩ := Option.bind_eq_some_iff.1 h
    cases h
    rw [Operand.code] at hcode ⊢
    obtain ⟨m₁, scratch₁, rfl, haddress⟩ := address.leaves hshows hcode.left hy
    rw [List.length_append, ← Nat.add_assoc, hshows.memory_view]
    exact ⟨m₁, _, hshows.view_that m₁ scratch₁ y, haddress.trans (runs_fetchElement hcode.right)⟩

/-- The values of several operands are left in reverse, the last one on top. -/
theorem leaves_operands (hshows : world.Shows calls view) : (os : List Operand) →
    ∀ {start stack m scratch xs s'}, Placed is start (operandsCode os) →
    evalOperands world os (view m scratch) = some (xs, s') →
    ∃ m' scratch', view m' scratch' = s' ∧ Machine.Runs calls is ⟨start, stack, m, scratch⟩
      ⟨start + (operandsCode os).length, xs.reverse ++ stack, m', scratch'⟩
  | [], start, stack, m, scratch, xs, s', hcode, h => by
    cases h
    exact ⟨m, scratch, rfl, .refl⟩
  | o :: rest, start, stack, m, scratch, xs, s', hcode, h => by
    obtain ⟨⟨y, s₁⟩, hy, h⟩ := Option.bind_eq_some_iff.1 h
    obtain ⟨⟨ys, s₂⟩, hys, h⟩ := Option.bind_eq_some_iff.1 h
    cases h
    rw [operandsCode] at hcode ⊢
    obtain ⟨m₁, scratch₁, rfl, hfirst⟩ := o.leaves hshows hcode.left hy
    obtain ⟨m₂, scratch₂, hview, hrest⟩ := leaves_operands hshows rest hcode.right hys
    rw [List.length_append, ← Nat.add_assoc, List.reverse_cons, List.append_assoc]
    exact ⟨m₂, scratch₂, hview, hfirst.trans hrest⟩

end

end

variable {calls : Calls}

/-- With the same calls everywhere, the memory is the one that the evaluation ends with. -/
theorem Operand.reaches {o : Operand} {x : Word} {m' : Memory}
    (hplaced : Placed is start o.code) (h : o.eval calls.world m = some (x, m')) :
    ∃ scratch', Machine.Reaches calls is ⟨start, stack, m, scratch⟩
      ⟨start + o.code.length, x :: stack, m', scratch'⟩ := by
  have hleaves : Leaves (fun _ => calls) (fun m _ => m) is ⟨start, stack, m, scratch⟩
      (start + o.code.length) stack (x, m') := o.leaves calls.shows hplaced h
  obtain ⟨_, scratch', rfl, hruns⟩ := hleaves
  exact ⟨scratch', hruns⟩

/-! ## Statements -/

theorem reaches_pop {segment : Segment} {i : Nat} {w : Word} {m' : Memory}
    (hx : is[start]? = some (.pop segment i)) (hm' : m.write? segment i w = some m') :
    Machine.Reaches calls is ⟨start, w :: stack, m, scratch⟩ ⟨start + 1, stack, m', scratch⟩ := by
  apply runs_of_execute hx
  show Machine.write? ⟨start + 1, stack, m, scratch⟩ segment i w = _
  unfold Machine.write?
  split
  · cases hm'
  · cases hm'
  · cases hm'
  · rw [hm']
    rfl

theorem reaches_discard {w : Word} (hx : is[start]? = some discard) :
    ∃ scratch', Machine.Reaches calls is ⟨start, w :: stack, m, scratch⟩
      ⟨start + 1, stack, m, scratch'⟩ :=
  ⟨_, runs_of_execute hx rfl⟩

/-- The scratch cells hold the value and the address for three steps only, in which nothing else is
computed. -/
theorem reaches_storeElement {w address : Word} (h : Placed is start storeElement) :
    ∃ scratch', Machine.Reaches calls is ⟨start, w :: address :: stack, m, scratch⟩
      ⟨start + 4, stack, m.store address w, scratch'⟩ := by
  have hvalue : Machine.Reaches calls is ⟨start, w :: address :: stack, m, scratch⟩
      ⟨start + 1, address :: stack, m, { scratch with temp := w }⟩ := runs_of_execute h.head rfl
  have haddress : Machine.Reaches calls is
      ⟨start + 1, address :: stack, m, { scratch with temp := w }⟩
      ⟨start + 2, stack, m, ⟨address, w⟩⟩ := runs_of_execute h.tail.head rfl
  have hagain : Machine.Reaches calls is ⟨start + 2, stack, m, ⟨address, w⟩⟩
      ⟨start + 3, w :: stack, m, ⟨address, w⟩⟩ := runs_of_execute h.tail.tail.head rfl
  have hstore : Machine.Reaches calls is ⟨start + 3, w :: stack, m, ⟨address, w⟩⟩
      ⟨start + 4, stack, m.store (address + .ofNat 16 0) w, ⟨address, w⟩⟩ :=
    runs_of_execute h.tail.tail.tail.head rfl
  have hzero : address + .ofNat 16 0 = address := BitVec.add_zero address
  rw [hzero] at hstore
  exact ⟨_, ((hvalue.trans haddress).trans hagain).trans hstore⟩

theorem reaches_label {name : String} (hx : is[start]? = some (.label name)) :
    Machine.Reaches calls is ⟨start, stack, m, scratch⟩ ⟨start + 1, stack, m, scratch⟩ :=
  runs_of_execute hx rfl

theorem reaches_goto {name : String} {target : Nat} (hx : is[start]? = some (.goto name))
    (hname : labelIndex? is name = some target) :
    Machine.Reaches calls is ⟨start, stack, m, scratch⟩ ⟨target, stack, m, scratch⟩ := by
  apply runs_of_execute hx
  rw [Machine.execute?, hname]
  rfl

theorem reaches_ifGoto {name : String} {target : Nat} {w : Word}
    (hx : is[start]? = some (.ifGoto name)) (hname : labelIndex? is name = some target)
    (hw : w ≠ 0) :
    Machine.Reaches calls is ⟨start, w :: stack, m, scratch⟩ ⟨target, stack, m, scratch⟩ := by
  apply runs_of_execute hx
  show (if w = 0 then _ else _) = _
  rw [if_neg hw, hname]
  rfl

theorem reaches_ifGoto_zero {name : String} (hx : is[start]? = some (.ifGoto name)) :
    Machine.Reaches calls is ⟨start, 0 :: stack, m, scratch⟩ ⟨start + 1, stack, m, scratch⟩ :=
  runs_of_execute hx rfl

end Jack.Vm
