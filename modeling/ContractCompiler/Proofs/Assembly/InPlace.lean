import ContractCompiler.Proofs.Lowering.Rules

/-!
# Building code in place

A builder can be changed in place: each slot is moved by itself, the counters are changed one after
the other, and the instruction is appended last. A step that fails half way through would leave a
builder that is neither the old one nor the new one. It never does, since each step makes all its
checks before its first change.
-/

namespace ContractCompiler

/-! ## Checks first -/

namespace Build

variable {α β : Type}

/-- The step changes nothing, whether it fails or not. -/
def Looks (x : Build α) : Prop :=
  ∀ b, (∃ a, x b = .ok a b) ∨ ∃ e, x b = .error e b

/-- The step never fails. -/
def Succeeds (x : Build α) : Prop :=
  ∀ b, ∃ a b', x b = .ok a b'

/-- The step changes nothing if it fails. -/
def Atomic (x : Build α) : Prop :=
  ∀ b e b', x b = .error e b' → b' = b

theorem bind_ok {x : Build α} {f : α → Build β} {b b' : Builder} {a : α} (h : x b = .ok a b') :
    (x >>= f) b = f a b' := by
  change EStateM.bind x f b = _
  rw [EStateM.bind, h]

theorem bind_error {x : Build α} {f : α → Build β} {b b' : Builder} {e : CodeFault}
    (h : x b = .error e b') : (x >>= f) b = .error e b' := by
  change EStateM.bind x f b = _
  rw [EStateM.bind, h]

theorem Succeeds.pure (a : α) : Succeeds (Pure.pure a : Build α) :=
  fun b => ⟨a, b, rfl⟩

theorem Succeeds.change (f : Builder → Builder) : Succeeds (modify f : Build Unit) :=
  fun b => ⟨(), f b, rfl⟩

theorem Succeeds.bind {x : Build α} {f : α → Build β} (hx : Succeeds x)
    (hf : ∀ a, Succeeds (f a)) : Succeeds (x >>= f) := by
  intro b
  obtain ⟨a, b₁, h⟩ := hx b
  rw [bind_ok h]
  exact hf a b₁

theorem Succeeds.atomic {x : Build α} (hx : Succeeds x) : Atomic x := by
  intro b e b' h
  obtain ⟨a, b₁, hok⟩ := hx b
  rw [hok] at h
  cases h

/-- A look at the builder may come before a step that changes nothing if it fails. -/
theorem Atomic.look_bind {x : Build α} {f : α → Build β} (hx : Looks x)
    (hf : ∀ a, Atomic (f a)) : Atomic (x >>= f) := by
  intro b e b' h
  rcases hx b with ⟨a, hok⟩ | ⟨e', herror⟩
  · rw [bind_ok hok] at h
    exact hf a b e b' h
  · rw [bind_error herror] at h
    cases h
    rfl

/-- Changes that never fail may come after a step that changes nothing if it fails. -/
theorem Atomic.bind_succeeds {x : Build α} {f : α → Build β} (hx : Atomic x)
    (hf : ∀ a, Succeeds (f a)) : Atomic (x >>= f) := by
  intro b e b' h
  cases hrun : x b with
  | ok a b₁ =>
    rw [bind_ok hrun] at h
    obtain ⟨c, b₂, hok⟩ := hf a b₁
    rw [hok] at h
    cases h
  | error e₁ b₁ =>
    rw [bind_error hrun] at h
    cases h
    exact hx b _ _ hrun

end Build

/-! ## Change by change -/

namespace Builder.InPlace

open Build (Looks Succeeds Atomic)

variable {α : Type}

/-- A look at the builder, which may be refused. -/
def look (f : Builder → Except CodeFault α) : Build α := fun b =>
  match f b with
  | .ok a => .ok a b
  | .error e => .error e b

/-- Puts a slot on top. -/
def pushSlot (t : StackType) : Build Unit :=
  modify fun b => { b with stack := t :: b.stack }

/-- Takes away the slot that is `n` below the top. -/
def takeSlot (n : Nat) : Build (Option StackType) :=
  modifyGet fun b => (b.stack[n]?, { b with stack := b.stack.eraseIdx n })

/-- Puts a slot below the upper `n`. -/
def putSlot (n : Nat) (t : StackType) : Build Unit :=
  modify fun b => { b with stack := b.stack.take n ++ t :: b.stack.drop n }

/-- Takes away the upper `n` slots. -/
def dropSlots (n : Nat) : Build Unit :=
  modify fun b => { b with stack := b.stack.drop n }

/-- Joins the slot that is `n` below the top with another. -/
def joinSlot (n : Nat) (t : StackType) : Build Unit :=
  modify fun b => { b with stack := b.stack.modify n (StackType.join · t) }

/-- Puts slots on top, one after the other. -/
def pushSlots : List StackType → Build Unit
  | [] => pure ()
  | t :: ts => do
    pushSlot t
    pushSlots ts

/-- Joins the slots from the one `n` below the top on downwards with others, one after the other. -/
def joinSlots : List StackType → (n : Nat) → Build Unit
  | [], _ => pure ()
  | t :: ts, n => do
    joinSlot n t
    joinSlots ts (n + 1)

/-- Whether there are as many slots as an operation takes. -/
def checkDepth (op : Opcode) (stack : StackShape) : Except CodeFault Unit :=
  if stack.length < op.pops.length then .error (.underflow op op.pops.length stack.length)
  else .ok ()

/-- Moves the slots as an operation does. -/
def moveSlots (op : Opcode) (operands : List Operand) : Build Unit :=
  match op with
  | .dup => do
    let t ← look fun b => StackEffect.peek op 0 b.stack
    pushSlot t
  | .dup2 => do
    let a ← look fun b => StackEffect.peek op 1 b.stack
    let t ← look fun b => StackEffect.peek op 0 b.stack
    pushSlot a
    pushSlot t
  | .dig => do
    let n ← look fun _ => StackEffect.depthOperand op operands
    let t ← look fun b => StackEffect.peek op n b.stack
    pushSlot t
  | .swap => do
    let _ ← look fun b => StackEffect.peek op 1 b.stack
    let t? ← takeSlot 0
    t?.forM (putSlot 1)
  | .cover => do
    let n ← look fun _ => StackEffect.depthOperand op operands
    let _ ← look fun b => StackEffect.peek op n b.stack
    let t? ← takeSlot 0
    t?.forM (putSlot n)
  | .uncover => do
    let n ← look fun _ => StackEffect.depthOperand op operands
    let _ ← look fun b => StackEffect.peek op n b.stack
    let t? ← takeSlot n
    t?.forM pushSlot
  | _ => do
    look fun b => checkDepth op b.stack
    look fun b => StackEffect.checkTypes op op.pops (b.stack.take op.pops.length).reverse 1
    dropSlots op.pops.length
    pushSlots op.pushes

/-- Appends an operation: the checks, the slots, the counters, and the instruction last. -/
def push (op : Opcode) (operands : List Operand) : Build Unit := do
  let cost ← look fun b => match op.costAt b.version with
    | none => .error (.unavailable op b.version)
    | some cost => .ok cost
  look fun b => checkMode op b.mode
  look fun _ => if operands.length ≠ op.params.length then .error (.operandCount op operands.length)
    else .ok ()
  moveSlots op operands
  modify fun b => { b with metrics := b.metrics.addOp cost }
  modify fun b => { b with metrics := b.metrics.setDepth b.stack.length }
  modify fun b => { b with emitted := .op op operands :: b.emitted }

/-- The effect of a call: the arguments go, a value may come, and the depth is noted. -/
def callEffect (args : Nat) (returnsValue : Bool) : Build Unit := do
  look fun b =>
    if b.stack.length < args then .error (.callUnderflow args b.stack.length) else .ok ()
  dropSlots args
  if returnsValue then pushSlot .any
  modify fun b => { b with metrics := b.metrics.setDepth b.stack.length }

/-- Joins the slots with those of another way to the same place. -/
def merge (other : StackShape) : Build Unit := do
  look fun b => if other.length ≠ b.stack.length then
    .error (.unbalancedBranches b.stack.length other.length) else .ok ()
  joinSlots other 0

/-! ### No change before a check -/

theorem look_looks (f : Builder → Except CodeFault α) : Looks (look f) := by
  intro b
  unfold look
  cases f b with
  | ok a => exact .inl ⟨a, rfl⟩
  | error e => exact .inr ⟨e, rfl⟩

theorem takeSlot_succeeds (n : Nat) : Succeeds (takeSlot n) :=
  fun b => ⟨b.stack[n]?, { b with stack := b.stack.eraseIdx n }, rfl⟩

theorem forM_succeeds {f : StackType → Build Unit} (hf : ∀ t, Succeeds (f t))
    (t? : Option StackType) : Succeeds (t?.forM f) := by
  cases t? with
  | none => exact .pure ()
  | some t => exact hf t

theorem pushSlots_succeeds (ts : List StackType) : Succeeds (pushSlots ts) := by
  induction ts with
  | nil => exact .pure ()
  | cons t ts ih => exact .bind (.change _) fun _ => ih

theorem joinSlots_succeeds (ts : List StackType) (n : Nat) : Succeeds (joinSlots ts n) := by
  induction ts generalizing n with
  | nil => exact .pure ()
  | cons t ts ih => exact .bind (.change _) fun _ => ih (n + 1)

theorem moveSlots_atomic (op : Opcode) (operands : List Operand) :
    Atomic (moveSlots op operands) := by
  unfold moveSlots
  split
  · exact .look_bind (look_looks _) fun t => (Succeeds.change _).atomic
  · refine .look_bind (look_looks _) fun a => .look_bind (look_looks _) fun t => ?_
    exact (Succeeds.bind (.change _) fun _ => .change _).atomic
  · refine .look_bind (look_looks _) fun n => .look_bind (look_looks _) fun t => ?_
    exact (Succeeds.change _).atomic
  · refine .look_bind (look_looks _) fun _ => ?_
    exact ((takeSlot_succeeds 0).bind (forM_succeeds fun t => .change _)).atomic
  · refine .look_bind (look_looks _) fun n => .look_bind (look_looks _) fun _ => ?_
    exact ((takeSlot_succeeds 0).bind (forM_succeeds fun t => .change _)).atomic
  · refine .look_bind (look_looks _) fun n => .look_bind (look_looks _) fun _ => ?_
    exact ((takeSlot_succeeds n).bind (forM_succeeds fun t => .change _)).atomic
  · refine .look_bind (look_looks _) fun _ => .look_bind (look_looks _) fun _ => ?_
    exact (Succeeds.bind (.change _) fun _ => pushSlots_succeeds _).atomic

theorem push_atomic (op : Opcode) (operands : List Operand) : Atomic (push op operands) := by
  refine .look_bind (look_looks _) fun cost => .look_bind (look_looks _) fun _ => ?_
  refine .look_bind (look_looks _) fun _ => ?_
  refine .bind_succeeds (moveSlots_atomic op operands) fun _ => ?_
  exact .bind (.change _) fun _ => .bind (.change _) fun _ => .change _

theorem callEffect_atomic (args : Nat) (returnsValue : Bool) :
    Atomic (callEffect args returnsValue) := by
  refine .look_bind (look_looks _) fun _ => (Succeeds.bind (.change _) fun _ => ?_).atomic
  cases returnsValue with
  | true => exact .bind (.change _) fun _ => .change _
  | false => exact .change _

theorem merge_atomic (other : StackShape) : Atomic (merge other) :=
  .look_bind (look_looks _) fun _ => (joinSlots_succeeds other 0).atomic

/-! ### The same steps -/

theorem look_bind {β : Type} {f : Builder → Except CodeFault α} {g : α → Build β} (b : Builder) :
    (look f >>= g) b = match f b with
      | .ok a => g a b
      | .error e => .error e b := by
  cases h : f b with
  | ok a => exact Build.bind_ok (by rw [look, h])
  | error e => exact Build.bind_error (by rw [look, h])

theorem pushSlots_run (ts : List StackType) (b : Builder) :
    pushSlots ts b = .ok () { b with stack := ts.reverse ++ b.stack } := by
  induction ts generalizing b with
  | nil => rfl
  | cons t ts ih =>
    have hrest := ih { b with stack := t :: b.stack }
    rw [List.reverse_cons, List.append_assoc]
    exact hrest

/-- The slots above `done.length` are joined already. -/
theorem joinSlots_run (b : Builder) (done : List StackType) {rest ts : List StackType}
    (hstack : b.stack = done ++ rest) (hlength : ts.length = rest.length) :
    joinSlots ts done.length b =
      .ok () { b with stack := done ++ List.zipWith StackType.join rest ts } := by
  induction ts generalizing b done rest with
  | nil =>
    obtain rfl := List.eq_nil_of_length_eq_zero hlength.symm
    rw [List.zipWith_nil_right, ← hstack]
    rfl
  | cons t ts ih =>
    obtain ⟨t', rest, rfl⟩ := List.exists_cons_of_length_eq_add_one hlength.symm
    have hjoined : joinSlot done.length t b =
        .ok () { b with stack := (done ++ [StackType.join t' t]) ++ rest } := by
      have hstack' : b.stack.modify done.length (StackType.join · t) =
          (done ++ [StackType.join t' t]) ++ rest := by
        simp [hstack, List.modify_eq_take_drop]
      rw [← hstack']
      rfl
    have hrest := ih { b with stack := (done ++ [StackType.join t' t]) ++ rest } _ rfl
      (Nat.succ.inj hlength)
    rw [joinSlots, Build.bind_ok hjoined]
    rw [List.length_append] at hrest
    rw [List.zipWith_cons_cons]
    simpa using hrest

/-- The end of a step that only changes the slots. -/
def settle (b : Builder) : Except CodeFault StackShape → EStateM.Result CodeFault Builder Unit
  | .ok stack => .ok () { b with stack }
  | .error e => .error e b

/-- What a step does to the slots, with nothing else changed. -/
def Sets (x : Build Unit) (f : StackShape → Except CodeFault StackShape) : Prop :=
  ∀ b, x b = settle b (f b.stack)

namespace Sets

theorem change (g : StackShape → StackShape) :
    Sets (modify fun b => { b with stack := g b.stack }) fun stack => pure (g stack) :=
  fun _ => rfl

/-- A change may come before others as long as none of them fails. -/
theorem change_bind {x : Build Unit} {f : StackShape → StackShape} (g : StackShape → StackShape)
    (h : Sets x fun stack => pure (f stack)) :
    Sets ((modify fun b => { b with stack := g b.stack }) >>= fun _ => x)
      fun stack => pure (f (g stack)) :=
  fun b => h { b with stack := g b.stack }

theorem look_bind (g : StackShape → Except CodeFault α) {x : α → Build Unit}
    {f : α → StackShape → Except CodeFault StackShape} (h : ∀ a, Sets (x a) (f a)) :
    Sets (look (fun b => g b.stack) >>= x) fun stack => g stack >>= fun a => f a stack := by
  intro b
  rw [InPlace.look_bind]
  change _ = settle b (g b.stack >>= fun a => f a b.stack)
  cases g b.stack with
  | error e => rfl
  | ok a => exact h a b

theorem pushSlots (ts : List StackType) :
    Sets (InPlace.pushSlots ts) fun stack => pure (ts.reverse ++ stack) :=
  fun b => pushSlots_run ts b

/-- A slot that was found is taken away and put down elsewhere. -/
theorem move (op : Opcode) (n : Nat) (put : StackType → StackShape → StackShape) :
    Sets (do
        let _ ← look fun b => StackEffect.peek op n b.stack
        let t? ← takeSlot n
        t?.forM fun t => modify fun b => { b with stack := put t b.stack })
      fun stack => do
        let t ← StackEffect.peek op n stack
        return put t (stack.eraseIdx n) := by
  intro b
  rw [InPlace.look_bind]
  change _ = settle b (StackEffect.peek op n b.stack >>= fun t => pure (put t (b.stack.eraseIdx n)))
  unfold StackEffect.peek
  cases ht : b.stack[n]? with
  | none => rfl
  | some t =>
    have htake : takeSlot n b = .ok (some t) { b with stack := b.stack.eraseIdx n } := by
      rw [← ht]
      rfl
    exact Build.bind_ok htake

end Sets

theorem moveSlots_sets (op : Opcode) (operands : List Operand) :
    Sets (moveSlots op operands) (StackEffect.apply op operands) := by
  unfold moveSlots
  split
  case h_1 => exact .look_bind _ fun t => .change _
  case h_2 => exact .look_bind _ fun a => .look_bind _ fun t => .change_bind _ (.change _)
  case h_3 =>
    exact .look_bind (fun _ => StackEffect.depthOperand .dig operands) fun n =>
      .look_bind _ fun t => .change _
  case h_4 =>
    intro b
    obtain ⟨emitted, stack, version, mode, metrics, nextLabel⟩ := b
    rcases stack with _ | ⟨t, _ | ⟨t', stack⟩⟩ <;> rfl
  case h_5 =>
    refine .look_bind (fun _ => StackEffect.depthOperand .cover operands) fun n b => ?_
    obtain ⟨emitted, stack, version, mode, metrics, nextLabel⟩ := b
    cases stack with
    | nil => rfl
    | cons t stack =>
      rw [InPlace.look_bind]
      dsimp only
      cases StackEffect.peek .cover n (t :: stack) <;> rfl
  case h_6 =>
    exact .look_bind (fun _ => StackEffect.depthOperand .uncover operands) fun n =>
      .move .uncover n List.cons
  case h_7 =>
    have hmoves : op.moves = false := by cases op <;> first | rfl | contradiction
    have hreplace : StackEffect.apply op operands = (fun stack => do
        checkDepth op stack
        StackEffect.checkTypes op op.pops (stack.take op.pops.length).reverse 1
        pure (op.pushes.reverse ++ stack.drop op.pops.length)) := by
      funext stack
      rw [Lower.apply_eq_replace hmoves, StackEffect.replace, checkDepth]
      split <;> rfl
    rw [hreplace]
    refine .look_bind _ fun _ => ?_
    refine .look_bind (fun stack =>
      StackEffect.checkTypes op op.pops (stack.take op.pops.length).reverse 1) fun _ => ?_
    exact .change_bind (List.drop op.pops.length) (.pushSlots op.pushes)

theorem push_eq (op : Opcode) (operands : List Operand) :
    push op operands = Builder.push op operands := by
  funext b
  unfold push Builder.push step
  dsimp only
  rw [Lower.pushed_match, look_bind]
  cases op.costAt b.version with
  | none => rfl
  | some cost =>
    dsimp only
    rw [look_bind]
    cases checkMode op b.mode with
    | error e => rfl
    | ok _ =>
      dsimp only
      rw [look_bind]
      by_cases hparams : operands.length = op.params.length
      · rw [if_neg (Decidable.not_not.2 hparams), if_pos hparams]
        have hmoved := moveSlots_sets op operands b
        cases happly : StackEffect.apply op operands b.stack with
        | error e =>
          rw [happly] at hmoved
          exact Build.bind_error hmoved
        | ok stack =>
          rw [happly] at hmoved
          exact Build.bind_ok hmoved
      · rw [if_pos hparams, if_neg hparams]

theorem callEffect_eq (args : Nat) (returnsValue : Bool) :
    callEffect args returnsValue = Builder.callEffect args returnsValue := by
  funext b
  unfold callEffect
  rw [look_bind]
  by_cases hdepth : b.stack.length < args
  · rw [if_pos hdepth]
    simp only [Builder.callEffect, step, if_pos hdepth]
  · rw [if_neg hdepth]
    simp only [Builder.callEffect, step, if_neg hdepth]
    cases returnsValue <;> rfl

theorem merge_eq (other : StackShape) : merge other = Builder.merge other := by
  funext b
  unfold merge
  rw [look_bind]
  by_cases hlength : other.length = b.stack.length
  · rw [if_neg (Decidable.not_not.2 hlength)]
    simp only [Builder.merge, step, if_neg (Decidable.not_not.2 hlength)]
    exact joinSlots_run b [] rfl hlength
  · rw [if_pos hlength]
    simp only [Builder.merge, step, if_pos hlength]

end Builder.InPlace

/-! ## No trace of a failure -/

namespace Builder

theorem pushed_code {b b' : Builder} {op : Opcode} {operands : List Operand}
    (h : push op operands b = .ok () b') :
    b'.code = b.code ++ [.op op operands] ∧ b'.nextLabel = b.nextLabel := by
  obtain ⟨_, _, -, -, -, -, rfl⟩ := Lower.pushed_eq_ok (step_eq_ok h)
  exact ⟨List.reverse_cons, rfl⟩

/-- The steps that can fail are the same when made in place, one change after the other. If one of
them fails, the builder is what it was: the code, the slots, the counters and the number of the next
label. If an operation is appended, it is the only instruction that is new. -/
theorem push_callEffect_merge_atomic (b : Builder) :
    (∀ op operands, InPlace.push op operands b = push op operands b ∧
      (∀ e b', push op operands b = .error e b' → b' = b) ∧
      ∀ b', push op operands b = .ok () b' →
        b'.code = b.code ++ [.op op operands] ∧ b'.nextLabel = b.nextLabel) ∧
    (∀ args returnsValue, InPlace.callEffect args returnsValue b = callEffect args returnsValue b ∧
      ∀ e b', callEffect args returnsValue b = .error e b' → b' = b) ∧
    (∀ other, InPlace.merge other b = merge other b ∧
      ∀ e b', merge other b = .error e b' → b' = b) := by
  refine ⟨fun op operands => ?_, fun args returnsValue => ?_, fun other => ?_⟩
  · rw [← InPlace.push_eq]
    refine ⟨rfl, InPlace.push_atomic op operands b, fun b' h => ?_⟩
    rw [InPlace.push_eq] at h
    exact pushed_code h
  · rw [← InPlace.callEffect_eq]
    exact ⟨rfl, InPlace.callEffect_atomic args returnsValue b⟩
  · rw [← InPlace.merge_eq]
    exact ⟨rfl, InPlace.merge_atomic other b⟩

end Builder

end ContractCompiler
