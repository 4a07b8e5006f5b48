import Jack.Proofs.Vm.Evaluation

/-!
# Called functions that use `temp 0`

A called function may read and change `temp 0`, and it may leave anything in `pointer 1`, but on
`pointer 1` nothing else that it does depends. So operands are evaluated on the memory together with
`temp 0`, and nothing but calls changes these.
-/

namespace Jack.Vm

/-- What called functions do. The last word is the value of `temp 0`. -/
structure Functions where
  result : String → List Word → Memory → Word → Word
  statics : String → List Word → Memory → Word → Nat → Word
  heap : String → List Word → Memory → Word → Word → Word
  temp : String → List Word → Memory → Word → Word
  /-- What becomes of `pointer 1`. -/
  that : String → List Word → Memory → Scratch → Word

namespace Functions

variable (functions : Functions)

/-- What is called in front of these scratch cells. -/
def calls (scratch : Scratch) : Calls where
  result name args m := functions.result name args m scratch.temp
  statics name args m := functions.statics name args m scratch.temp
  heap name args m := functions.heap name args m scratch.temp
  scratch name args m s := ⟨functions.that name args m s, functions.temp name args m s.temp⟩

/-- A state is the memory together with `temp 0`. -/
def world : World (Memory × Word) where
  memory := Prod.fst
  perform name args s :=
    let (m, temp) := s
    (functions.result name args m temp,
      { m with
        statics := functions.statics name args m temp
        heap := functions.heap name args m temp },
      functions.temp name args m temp)

theorem shows : functions.world.Shows functions.calls fun m scratch => (m, scratch.temp) :=
  ⟨fun _ _ => rfl, fun _ _ _ => rfl, fun _ _ _ _ => rfl⟩

end Functions

/-! ## What an evaluation changes -/

/-- The state after any number of calls. -/
def World.Effects {σ : Type} (world : World σ) : σ → σ → Prop :=
  Relation.ReflTransGen fun s s' => ∃ name args, s' = (world.perform name args s).2

section

variable {σ : Type} {world : World σ}

theorem World.effects_perform (name : String) (args : List Word) (s : σ) :
    world.Effects s (world.perform name args s).2 :=
  .single ⟨name, args, rfl⟩

theorem effects_apply (op : BinaryOp) (x y : Word) (s : σ) :
    world.Effects s (op.apply world x y s).2 := by
  cases op with
  | mul => exact World.effects_perform Os.multiply [x, y] s
  | div => exact World.effects_perform Os.divide [x, y] s
  | add | sub | and | or | less | greater | equal => exact .refl

mutual

/-- Nothing but calls changes the state. -/
theorem Operand.effects : (o : Operand) → ∀ {s result}, o.eval world s = some result →
    world.Effects s result.2
  | .push segment index, s, result, h => by
    obtain ⟨w, -, rfl⟩ := Option.map_eq_some_iff.1 h
    exact .refl
  | .unary op operand, s, result, h => by
    obtain ⟨⟨x, s₁⟩, hx, h⟩ := Option.bind_eq_some_iff.1 h
    have heffects : world.Effects s s₁ := operand.effects hx
    cases h
    exact heffects
  | .binary op left right, s, result, h => by
    obtain ⟨⟨x, s₁⟩, hx, h⟩ := Option.bind_eq_some_iff.1 h
    obtain ⟨⟨y, s₂⟩, hy, h⟩ := Option.bind_eq_some_iff.1 h
    cases h
    have hoperands : world.Effects s s₂ := (left.effects hx).trans (right.effects hy)
    exact hoperands.trans (effects_apply op x y s₂)
  | .call name arguments, s, result, h => by
    obtain ⟨⟨xs, s₁⟩, hxs, h⟩ := Option.bind_eq_some_iff.1 h
    cases h
    exact (effects_evalOperands arguments hxs).trans (World.effects_perform name xs s₁)
  | .fetch address, s, result, h => by
    obtain ⟨⟨x, s₁⟩, hx, h⟩ := Option.bind_eq_some_iff.1 h
    have heffects : world.Effects s s₁ := address.effects hx
    cases h
    exact heffects

theorem effects_evalOperands : (os : List Operand) → ∀ {s result},
    evalOperands world os s = some result → world.Effects s result.2
  | [], s, result, h => by
    cases h
    exact .refl
  | o :: rest, s, result, h => by
    obtain ⟨⟨x, s₁⟩, hx, h⟩ := Option.bind_eq_some_iff.1 h
    obtain ⟨⟨xs, s₂⟩, hxs, h⟩ := Option.bind_eq_some_iff.1 h
    have heffects : world.Effects s s₂ := (o.effects hx).trans (effects_evalOperands rest hxs)
    cases h
    exact heffects

end

end

/-- The code of an operand leaves its value, and apart from the state it evaluates to, the machine
has only another `pointer 1`. -/
theorem Operand.runs {functions : Functions} {is : List Instruction} {o : Operand} {start : Nat}
    {stack : List Word} {m m' : Memory} {temp temp' w : Word} (that : Word)
    (hplaced : Placed is start o.code)
    (heval : o.eval functions.world (m, temp) = some (w, m', temp')) :
    ∃ that', Machine.Runs functions.calls is ⟨start, stack, m, ⟨that, temp⟩⟩
      ⟨start + o.code.length, w :: stack, m', ⟨that', temp'⟩⟩ := by
  have hleaves : Leaves functions.calls (fun m scratch => (m, scratch.temp)) is
      ⟨start, stack, m, ⟨that, temp⟩⟩ (start + o.code.length) stack (w, m', temp') :=
    o.leaves functions.shows hplaced heval
  obtain ⟨_, ⟨that', _⟩, hview, hruns⟩ := hleaves
  cases hview
  exact ⟨that', hruns⟩

end Jack.Vm
