import ContractCompiler.Proofs.Lowering.Expressions
import ContractCompiler.Proofs.Semantics.Following

/-!
# The code of expressions does what they mean

The code of an expression of the integer fragment leaves its value on top of the stack, and the
slots of names hold the values that the evaluation gives them. By induction over the code that is
emitted.
-/

namespace ContractCompiler

open Builder (definedLabels)

/-! ## The machine while a function runs -/

/-- What is below the frame of a function: the rest of the stack, and the places to return to. -/
structure Below where
  stack : List Value
  frames : List Nat

/-- The machine at an instruction of a function, with temporary values above the slots of its
frame. -/
def Below.machine (b : Below) (pc : Nat) (temps : List Value) (values : List UInt64) : Machine :=
  ⟨pc, temps ++ (values.map .uint ++ b.stack), b.frames, []⟩

/-- `b.Lands pc before after`: with a result, `before` holds already, or the machine has got to `pc`
in a frame that `after` asks for. -/
def Below.Lands {α : Type} (b : Below) (pc : Nat) (before : α → Machine → Prop)
    (after : α → List Value → List UInt64 → Prop) (a : α) (m : Machine) : Prop :=
  before a m ∨ ∃ temps values, after a temps values ∧ m = b.machine pc temps values

variable {b : Below} {code : List Instruction} {bound pc : Nat} {temps : List Value}
  {values : List UInt64}

/-- An operation that goes on in the same frame. -/
theorem Below.step {b : Below} {c : Opcode} {operands : List Operand} {temps' : List Value}
    {values' : List UInt64} (h : code[pc]? = some (.op c operands))
    (hexec : (b.machine pc temps values).exec code c operands =
      .next (b.machine (pc + 1) temps' values')) :
    (b.machine pc temps values).step code = .next (b.machine (pc + 1) temps' values') :=
  Machine.step_op h hexec

theorem Below.step_label {l : String} (h : code[pc]? = some (.label l)) :
    (b.machine pc temps values).step code = .next (b.machine (pc + 1) temps values) :=
  Machine.step_label h

/-- A jump to a label. -/
theorem Below.step_branch (hnodup : (definedLabels code).Nodup) {l : String} {pc' : Nat}
    (h : code[pc]? = some (.op .branch [.label l])) (hl : code[pc']? = some (.label l)) :
    (b.machine pc temps values).step code = .next (b.machine pc' temps values) := by
  refine Machine.step_op h ?_
  show Machine.jump code _ l _ _ = _
  rw [Machine.jump, findIdx?_label hnodup hl]
  rfl

/-- A conditional jump that is taken. -/
theorem Below.step_bz (hnodup : (definedLabels code).Nodup) {l : String} {pc' : Nat}
    (h : code[pc]? = some (.op .bz [.label l])) (hl : code[pc']? = some (.label l)) :
    (b.machine pc (.uint 0 :: temps) values).step code = .next (b.machine pc' temps values) := by
  refine Machine.step_op h ?_
  show Machine.jump code _ l _ _ = _
  rw [Machine.jump, findIdx?_label hnodup hl]
  rfl

/-- A conditional jump that is not taken. -/
theorem Below.step_bz_next {l : String} {v : UInt64} (hv : v ≠ 0)
    (h : code[pc]? = some (.op .bz [.label l])) :
    (b.machine pc (.uint v :: temps) values).step code =
      .next (b.machine (pc + 1) temps values) := by
  refine Machine.step_op h ?_
  simp [Machine.exec, Machine.branchIf, Below.machine, hv, Machine.goOn]

theorem toUInt64_true : true.toUInt64 = 1 := rfl

theorem toUInt64_false : false.toUInt64 = 0 := rfl

/-- An operation does what the operator means: it leaves the result, or fails. -/
theorem Opcode.compute?_eq {o : BinaryOperator} {c : Opcode} (ho : o.uintOpcode? = some c)
    (hne : o ≠ .eq ∧ o ≠ .ne) (x y : UInt64) :
    (∃ v, o.result x y = .ok v ∧ c.compute? x y = some (some v)) ∨
      (o.result x y = .error (.ended ⟨.failed, []⟩) ∧ c.compute? x y = some none) := by
  cases o <;> cases ho <;>
    simp only [BinaryOperator.result, Opcode.compute?, ofTruth, exactly, checked, UInt64.size]
  all_goals grind [toUInt64_true, toUInt64_false]

/-- An operator on the two values on top gives what it means, or fails as it does. -/
theorem Below.follows_operator {o : BinaryOperator} {c : Opcode} (ho : o.uintOpcode? = some c)
    (h : code[pc]? = some (.op c [])) (x y : UInt64) :
    (b.machine pc (.uint y :: .uint x :: temps) values).Follows code bound (o.result x y)
      fun v m => m = b.machine (pc + 1) (.uint v :: temps) values := by
  by_cases heq : o = .eq
  · subst heq
    cases ho
    have hstep : (b.machine pc (.uint y :: .uint x :: temps) values).step code =
        .next (b.machine (pc + 1) (.uint ((x == y) == true).toUInt64 :: temps) values) :=
      b.step h rfl
    refine .step hstep (.done ?_)
    by_cases hxy : x = y
    · simp [hxy, toUInt64_true]
    · have hbeq : (x == y) = false := by simpa using hxy
      simp [hxy, hbeq, toUInt64_false]
  by_cases hne : o = .ne
  · subst hne
    cases ho
    have hstep : (b.machine pc (.uint y :: .uint x :: temps) values).step code =
        .next (b.machine (pc + 1) (.uint ((x == y) == false).toUInt64 :: temps) values) :=
      b.step h rfl
    refine .step hstep (.done ?_)
    by_cases hxy : x = y
    · simp [hxy, toUInt64_false]
    · have hbeq : (x == y) = false := by simpa using hxy
      simp [hxy, hbeq, toUInt64_true]
  have hexec : (b.machine pc (.uint y :: .uint x :: temps) values).exec code c [] =
      (b.machine pc (.uint y :: .uint x :: temps) values).compute c := by
    cases o <;> cases ho <;> first | rfl | contradiction
  rcases Opcode.compute?_eq ho ⟨heq, hne⟩ x y with ⟨v, hv, hc⟩ | ⟨hfail, hc⟩
  · rw [hv]
    refine .step (b.step h ?_) (.done rfl)
    rw [hexec]
    simp [Machine.compute, Below.machine, hc, Machine.goOn]
  · rw [hfail]
    have hstep : (b.machine pc (.uint y :: .uint x :: temps) values).step code =
        .done ⟨.failed, []⟩ := by
      refine Machine.step_op h ?_
      rw [hexec]
      simp [Machine.compute, Below.machine, hc, Machine.finish]
    refine .ended (n := 1) ?_
    rw [Machine.run, hstep]

/-! ## What is given -/

/-- The value of a truth value's name. -/
def truthOf? (n : String) : Option UInt64 :=
  if n = "true" then some 1 else if n = "false" then some 0 else none

/-- What is given of the names that a function with some parameters may read: no value is known to
be a byte string, and a name without a slot is that of a truth value. -/
structure Setting.Reads (S : Setting) (params : List String) (readable : String → Bool) : Prop where
  held : ∀ k, S.held k → k ≠ .bytes
  constant : ∀ n v, n ∉ params → readable n = true →
    Lower.constant? S.lower.entry n = some v → truthOf? n = some v
  notType : ∀ n, n ∉ params → readable n = true → transactionCode? n = none

/-- What is given of the code around: its labels are in order, and the code of a function does what
calls of that function mean. -/
structure Setting.Linked (S : Setting) (code : List Instruction) (env : EvalEnv) : Prop where
  nodup : (definedLabels code).Nodup
  entry : env.entry = S.lower.entry
  calls : ∀ f sig, S.callable f → S.check.isEntry f = false →
    S.lower.signatures.lookup f = some sig →
      ∃ place : Nat, code[place]? = some (.label f) ∧
        ∀ (b : Below) (back : Nat) (args : List UInt64), args.length = sig.arity →
          Machine.Follows code env.bound
            ⟨place, args.reverse.map .uint ++ b.stack, back :: b.frames, []⟩ (env.calls f args)
            fun v m => v.isSome = sig.returnsValue ∧
              m = ⟨back, v.toList.map .uint ++ b.stack, b.frames, []⟩

/-! ## Types of values -/

variable {S : Setting} {names params : List String} {readable : String → Bool} {env : EvalEnv}

/-- A place that is read from the ledger is not of the fragment. -/
theorem not_integral_of_load {place : Variable} {load : Load Expr} {entry : Entry} {r : Reading}
    (hload : Load.ofSteps? place.steps = some load) (hr : Reading.ofLoad? entry load = some r) :
    (Expr.var place).isIntegral readable ≠ true := by
  cases place with
  | name n span =>
    cases hload
    cases hr
  | index | member => simp [Expr.isIntegral]

/-- Of the values of integral expressions, none is known to be a byte string. -/
theorem Emits.ne_bytes (hheld : ∀ k, S.held k → k ≠ .bytes) {cs : CheckState} {t : Nat} {e : Expr}
    {piece : List Instruction} {k : StackType}
    (h : Emits S names cs t (.expr e) piece (some k)) (he : e.isIntegral readable = true) :
    k ≠ .bytes := by
  generalize hitem : Item.expr e = item at h
  generalize hleft : some k = left at h
  induction h generalizing e k with
  | bytes | hash | cast =>
    cases hitem
    simp [Expr.isIntegral] at he
  | uint | not | typeTest | constant =>
    cases hitem
    cases hleft
    exact StackType.noConfusion
  | complement _ _ ih =>
    cases hitem
    cases hleft
    rw [Expr.isIntegral] at he
    rw [if_neg (ih he rfl rfl)]
    exact StackType.noConfusion
  | assign _ _ _ _ ih =>
    cases hitem
    cases hleft
    rw [Expr.isIntegral] at he
    exact ih he rfl rfl
  | choice _ _ _ _ _ _ ihl ihr =>
    cases hitem
    cases hleft
    simp only [Expr.isIntegral, Bool.and_eq_true] at he
    have hl := ihl he.1.2 rfl rfl
    have hr := ihr he.2 rfl rfl
    unfold StackType.join
    split
    · exact hr
    · exact StackType.noConfusion
  | operator _ _ _ htakes _ ihl ihr =>
    cases hitem
    cases hleft
    rw [Expr.isIntegral_operator htakes.1, Bool.and_eq_true] at he
    have hl := ihl he.1 rfl rfl
    have hr := ihr he.2 rfl rfl
    unfold BinaryOperator.resultOf
    split
    · exact StackType.noConfusion
    · rw [if_pos ⟨hl, hr⟩]
      exact StackType.noConfusion
  | call =>
    cases hitem
    split at hleft
    · cases hleft
      exact StackType.noConfusion
    · cases hleft
  | «local» _ _ hk _ _ =>
    cases hitem
    cases hleft
    exact hheld _ hk
  | place hload hr _ _ _ =>
    cases hitem
    exact absurd he (not_integral_of_load hload hr)
  | readDirect | readIndexed | argsNil | argsCons | test | testType | testsNil | testsCons =>
    cases hitem

/-! ## The simulation -/

/-- `Gives code bound names t piece x tops ok`: with `t` temporary values above the slots of `names`,
`piece` does what `x` does; it leaves the values `tops` of a result, which is `ok`. -/
def Gives {α : Type} (code : List Instruction) (bound : Nat) (names : List String) (t : Nat)
    (piece : List Instruction) (x : Eval α) (tops : α → List Value) (ok : α → Prop) : Prop :=
  ∀ (b : Below) (pc : Nat) (temps : List Value) (values : List UInt64) (σ : Store),
    temps.length = t → Stands code pc piece → σ.Laid names values →
      (b.machine pc temps values).Follows code bound (x σ) fun r m =>
        ok r.1 ∧ ∃ values', r.2.Laid names values' ∧
          m = b.machine (pc + piece.length) (tops r.1 ++ temps) values'

/-- `piece` leaves the value of an expression. -/
abbrev GivesValue (code : List Instruction) (bound : Nat) (names : List String) (t : Nat)
    (piece : List Instruction) (x : Eval UInt64) : Prop :=
  Gives code bound names t piece x (fun v => [.uint v]) fun _ => True

/-- `piece` leaves the value of an expression, if it has one, which it does if `left` says so. -/
abbrev GivesResult (code : List Instruction) (bound : Nat) (names : List String) (t : Nat)
    (piece : List Instruction) (x : Eval (Option UInt64)) (left : Option StackType) : Prop :=
  Gives code bound names t piece x (fun v => v.toList.map .uint) fun v => v.isSome = left.isSome

/-- The code of an item does what the item means. -/
def Item.Simulated (code : List Instruction) (env : EvalEnv) (readable : String → Bool)
    (names : List String) (t : Nat) (piece : List Instruction) (left : Option StackType) :
    Item → Prop
  | .expr e => e.isIntegral readable = true →
    GivesResult code env.bound names t piece (e.eval env) left
  | .args es => (∀ e ∈ es, e.isIntegral readable = true) →
    Gives code env.bound names t piece (Expr.evalArguments env es) (fun vs => vs.reverse.map .uint)
      fun vs => vs.length = es.length
  | .test tested _ v => tested.isIntegral readable = true → v.isIntegral readable = true →
    Gives code env.bound names t piece (Eval.equal (tested.evalValue env) (v.evalValue env))
      (fun r => [.uint r.toUInt64]) fun _ => True
  -- The outcome of the tests before is on the stack.
  | .tests tested _ vs => tested.isIntegral readable = true →
    (∀ v ∈ vs, v.isIntegral readable = true) →
      ∀ (first : Bool) (b : Below) (pc : Nat) (temps : List Value) (values : List UInt64)
        (σ : Store), temps.length = t → Stands code pc piece → σ.Laid names values →
          (b.machine pc (.uint first.toUInt64 :: temps) values).Follows code env.bound
            (Eval.anyEqual (tested.evalValue env) (vs.map (Expr.evalValue env)) σ) fun r m =>
              ∃ values', r.2.Laid names values' ∧
                m = b.machine (pc + piece.length) (.uint (first || r.1).toUInt64 :: temps) values'
  | .read _ _ => True

section Gives

variable {t : Nat} {piece piece' : List Instruction} {e l r c : Expr} {span span' : Span}
  {k : StackType} {n : String} {σ : Store}

theorem add_length_append : pc + (piece ++ piece').length = pc + piece.length + piece'.length := by
  rw [List.length_append, Nat.add_assoc]

theorem GivesResult.value (h : GivesResult code env.bound names t piece (e.eval env) (some k)) :
    GivesValue code env.bound names t piece (e.evalValue env) := by
  intro b pc temps values σ ht hstands hσ
  refine (h b pc temps values σ ht hstands hσ).bind ?_
  rintro ⟨v, σ'⟩ m ⟨hsome, values', hσ', rfl⟩
  cases v with
  | none => cases hsome
  | some v => exact .done ⟨trivial, values', hσ', rfl⟩

/-- An operation on the value on top. -/
theorem GivesValue.unary {o : UnaryOperator} {op : Opcode}
    (hexec : ∀ (b : Below) pc temps values v, (b.machine pc (.uint v :: temps) values).exec code op [] =
      .next (b.machine (pc + 1) (.uint (o.result v) :: temps) values))
    (he : GivesValue code env.bound names t piece (e.evalValue env)) :
    GivesResult code env.bound names t (piece ++ plain [op]) ((Expr.unary o e span).eval env)
      (some .uint64) := by
  intro b pc temps values σ ht hstands hσ
  obtain ⟨hpiece, hop⟩ := stands_append.1 hstands
  rw [Expr.eval]
  refine (he b pc temps values σ ht hpiece hσ).bind ?_
  rintro ⟨v, σ'⟩ m ⟨-, values', hσ', rfl⟩
  refine .step (b.step (stands_cons.1 hop).1 (hexec _ _ _ _ _)) (.done ⟨rfl, values', hσ', ?_⟩)
  rw [add_length_append]
  rfl

/-- The value on top goes into the slot of a name. -/
theorem Below.steps_store (hσ : σ.Laid names values) (hn : n ∈ names) {j : Nat}
    (hj : temps.length + 1 + names.idxOf n = j) (hmax : j ≤ maxImmediate)
    (hstands : Stands code pc (Lower.replaceCode j)) (v : UInt64) :
    ∃ k, Machine.Steps code k (b.machine pc (.uint v :: temps) values)
      (b.machine (pc + (Lower.replaceCode j).length) temps (values.set (names.idxOf n) v)) := by
  obtain ⟨w, -, hw⟩ := hσ.exists_value hn
  obtain ⟨hlt, hget⟩ := List.getElem?_eq_some_iff.1 hw
  have hsplit : values.map Value.uint = (values.take (names.idxOf n)).map .uint ++
      .uint w :: (values.drop (names.idxOf n + 1)).map .uint := by
    rw [← List.map_cons, ← List.map_append, ← hget, List.getElem_cons_drop, List.take_append_drop]
  have hset : (values.set (names.idxOf n) v).map Value.uint =
      (values.take (names.idxOf n)).map .uint ++
        .uint v :: (values.drop (names.idxOf n + 1)).map .uint := by
    rw [List.set_eq_take_append_cons_drop, if_pos hlt, List.map_append, List.map_cons]
  have hlen : (temps ++ (values.take (names.idxOf n)).map Value.uint).length + 1 = j := by
    rw [← hj]
    simp
    omega
  have hsteps := @Machine.steps_replace code pc j
    ((values.drop (names.idxOf n + 1)).map .uint ++ b.stack) _ (.uint v) (.uint w) b.frames [] hlen
    hmax hstands
  unfold Below.machine
  rw [hsplit, hset]
  simpa only [List.append_assoc, List.cons_append] using hsteps

/-- The code of an assignment. -/
theorem GivesValue.assign (hn : n ∈ names) (hmax : t + 2 + names.idxOf n ≤ maxImmediate)
    (he : GivesValue code env.bound names t piece (e.evalValue env)) :
    GivesResult code env.bound names t
      (piece ++ plain [.dup] ++ Lower.replaceCode (t + 2 + names.idxOf n))
      ((Expr.binary .assign (.var (.name n span)) e span').eval env) (some k) := by
  intro b pc temps values σ ht hstands hσ
  obtain ⟨hstands, hreplace⟩ := stands_append.1 hstands
  obtain ⟨hpiece, hdup⟩ := stands_append.1 hstands
  rw [Expr.eval]
  refine (he b pc temps values σ ht hpiece hσ).bind ?_
  rintro ⟨v, σ'⟩ m ⟨-, values', hσ', rfl⟩
  have hstep : (b.machine (pc + piece.length) (.uint v :: temps) values').step code =
      .next (b.machine (pc + piece.length + 1) (.uint v :: .uint v :: temps) values') :=
    b.step (stands_cons.1 hdup).1 rfl
  have hlen : (Value.uint v :: temps).length + 1 + names.idxOf n = t + 2 + names.idxOf n := by
    rw [List.length_cons, ht]
  rw [add_length_append] at hreplace
  obtain ⟨j, hsteps⟩ := b.steps_store hσ' hn hlen hmax hreplace v
  refine .step hstep (.steps hsteps (.done ⟨rfl, _, hσ'.set hn v, ?_⟩))
  rw [add_length_append, add_length_append]
  rfl

theorem GivesResult.lands (h : GivesResult code env.bound names t piece (e.eval env) (some k))
    (ht : temps.length = t) (hstands : Stands code pc piece) (hσ : σ.Laid names values) :
    (b.machine pc temps values).Follows code env.bound (e.eval env σ)
      (b.Lands (pc + piece.length) (fun _ _ => False) fun r temps' values' =>
        r.1.isSome = true ∧ r.2.Laid names values' ∧ temps' = r.1.toList.map .uint ++ temps) := by
  refine (h b pc temps values σ ht hstands hσ).imp ?_
  rintro r m ⟨hsome, values', hσ', rfl⟩
  exact .inr ⟨_, values', ⟨hsome, hσ', rfl⟩, rfl⟩

theorem Eval.lift_bind {α β : Type} (x : Except Stop α) (f : α → Eval β) (σ : Store) :
    (do let a ← x; f a : Eval β) σ = x >>= fun a => f a σ := by
  cases x <;> rfl

theorem Expr.eval_operator {o : BinaryOperator} (ho : o.uintOpcode?.isSome) :
    (Expr.binary o l r span).eval env = (do
      let x ← l.evalValue env
      let y ← r.evalValue env
      let v ← o.result x y
      return some v) := by
  revert ho
  cases o <;> simp [Expr.eval, Expr.evalValue, BinaryOperator.uintOpcode?]

/-! ### Choices -/

/-- The code of a choice between two pieces of code. -/
abbrev choiceCode (cc cl cr : List Instruction) (elseLabel endLabel : String) : List Instruction :=
  cc ++ [.op .bz [.label elseLabel]] ++ cl ++
    [.op .branch [.label endLabel], .label elseLabel] ++ cr ++ [.label endLabel]

/-- Where the parts of a choice are. -/
theorem stands_choice {cc cl cr : List Instruction} {elseLabel endLabel : String}
    (h : Stands code pc (choiceCode cc cl cr elseLabel endLabel)) :
    Stands code pc cc ∧ code[pc + cc.length]? = some (.op .bz [.label elseLabel]) ∧
      Stands code (pc + cc.length + 1) cl ∧
      code[pc + cc.length + 1 + cl.length]? = some (.op .branch [.label endLabel]) ∧
      code[pc + cc.length + 1 + cl.length + 1]? = some (.label elseLabel) ∧
      Stands code (pc + cc.length + 1 + cl.length + 2) cr ∧
      code[pc + cc.length + 1 + cl.length + 2 + cr.length]? = some (.label endLabel) := by
  simp only [stands_append, stands_cons, List.length_append, List.length_cons, List.length_nil,
    Nat.add_assoc, Nat.zero_add, Nat.reduceAdd] at h ⊢
  obtain ⟨⟨⟨⟨⟨hc, hbz, -⟩, hl⟩, hbranch, helse, -⟩, hr⟩, hend, -⟩ := h
  exact ⟨hc, hbz, hl, hbranch, helse, hr, hend⟩

/-- A choice between two pieces of code does what the chosen one does, and both get to its end. -/
theorem Below.choice {α : Type} (hnodup : (definedLabels code).Nodup)
    {cc cl cr : List Instruction} {elseLabel endLabel : String}
    (hstands : Stands code pc (choiceCode cc cl cr elseLabel endLabel))
    {v : UInt64} {left right : Except Stop α} {before : α → Machine → Prop}
    {after : α → List Value → List UInt64 → Prop}
    (hl : (b.machine (pc + cc.length + 1) temps values).Follows code bound left
      (b.Lands (pc + cc.length + 1 + cl.length) before after))
    (hr : (b.machine (pc + cc.length + 1 + cl.length + 2) temps values).Follows code bound right
      (b.Lands (pc + cc.length + 1 + cl.length + 2 + cr.length) before after)) :
    (b.machine (pc + cc.length) (.uint v :: temps) values).Follows code bound
      (if v = 0 then right else left)
      (b.Lands (pc + (choiceCode cc cl cr elseLabel endLabel).length) before after) := by
  obtain ⟨-, hbz, -, hbranch, helse, -, hend⟩ := stands_choice hstands
  have hpc : pc + (choiceCode cc cl cr elseLabel endLabel).length =
      pc + cc.length + 1 + cl.length + 2 + cr.length + 1 := by
    simp only [List.length_append, List.length_cons, List.length_nil]
    omega
  rw [hpc]
  by_cases hv : v = 0
  · subst hv
    rw [if_pos rfl]
    refine .step (b.step_bz hnodup hbz helse) (.step (b.step_label helse) (hr.andSteps ?_))
    rintro a m (hbefore | ⟨temps', values', hafter, rfl⟩)
    · exact ⟨0, m, .refl, .inl hbefore⟩
    · exact ⟨1, _, .step (b.step_label hend) .refl, .inr ⟨temps', values', hafter, rfl⟩⟩
  · rw [if_neg hv]
    refine .step (b.step_bz_next hv hbz) (hl.andSteps ?_)
    rintro a m (hbefore | ⟨temps', values', hafter, rfl⟩)
    · exact ⟨0, m, .refl, .inl hbefore⟩
    · exact ⟨2, _, .step (b.step_branch hnodup hbranch hend) (.step (b.step_label hend) .refl),
        .inr ⟨temps', values', hafter, rfl⟩⟩

/-- The code of a choice. -/
theorem GivesValue.choice (hnodup : (definedLabels code).Nodup) {cc cl cr : List Instruction}
    {elseLabel endLabel : String} {kl kr : StackType}
    (hc : GivesValue code env.bound names t cc (c.evalValue env))
    (hl : GivesResult code env.bound names t cl (l.eval env) (some kl))
    (hr : GivesResult code env.bound names t cr (r.eval env) (some kr)) :
    GivesResult code env.bound names t (choiceCode cc cl cr elseLabel endLabel)
      ((Expr.binary .ternary c (.binary .colon l r span) span').eval env) (some k) := by
  intro b pc temps values σ ht hstands hσ
  obtain ⟨hcc, -, hcl, -, -, hcr, -⟩ := stands_choice hstands
  rw [Expr.eval]
  refine (hc b pc temps values σ ht hcc hσ).bind ?_
  rintro ⟨v, σ₁⟩ m ⟨-, values₁, hσ₁, rfl⟩
  have hfollows := b.choice hnodup hstands (hl.lands ht hcl hσ₁) (hr.lands ht hcr hσ₁) (v := v)
  show Machine.Follows code env.bound _ ((if v = 0 then r.eval env else l.eval env) σ₁) _
  rw [ite_apply]
  refine hfollows.imp ?_
  rintro a m (hno | ⟨temps', values', ⟨hok, hlaid, rfl⟩, rfl⟩)
  · exact hno.elim
  · exact ⟨hok, values', hlaid, rfl⟩

/-! ### Operators, calls and names -/

/-- The code of an operator. -/
theorem GivesValue.operator {o : BinaryOperator} {op : Opcode} (ho : o.uintOpcode? = some op)
    {cl cr : List Instruction} (hl : GivesValue code env.bound names t cl (l.evalValue env))
    (hr : GivesValue code env.bound names (t + 1) cr (r.evalValue env)) :
    GivesResult code env.bound names t (cl ++ cr ++ plain [op])
      ((Expr.binary o l r span).eval env) (some k) := by
  intro b pc temps values σ ht hstands hσ
  obtain ⟨hstands, hop⟩ := stands_append.1 hstands
  obtain ⟨hcl, hcr⟩ := stands_append.1 hstands
  rw [Expr.eval_operator (by rw [ho]; rfl)]
  refine (hl b pc temps values σ ht hcl hσ).bind ?_
  rintro ⟨x, σ₁⟩ m ⟨-, values₁, hσ₁, rfl⟩
  refine (hr b _ (.uint x :: temps) values₁ σ₁ (by rw [List.length_cons, ht]) hcr hσ₁).bind ?_
  rintro ⟨y, σ₂⟩ m ⟨-, values₂, hσ₂, rfl⟩
  have hpc := (stands_cons.1 hop).1
  rw [add_length_append] at hpc
  show Machine.Follows code env.bound _ ((do let v ← o.result x y; return some v : Eval _) σ₂) _
  rw [Eval.lift_bind]
  refine (b.follows_operator ho hpc x y).bind ?_
  rintro v m rfl
  refine .done ⟨rfl, values₂, hσ₂, ?_⟩
  rw [add_length_append, add_length_append]
  rfl

theorem Eval.read_of_bound {v : UInt64} (h : σ n = some v) : Eval.read n σ = .ok (v, σ) := by
  unfold Eval.read
  dsimp only [bind, StateT.bind, Except.bind, get, getThe, MonadStateOf.get, StateT.get, pure,
    Except.pure]
  rw [h]
  rfl

theorem Eval.read_of_truth {v : UInt64} (h : σ n = none) (hv : truthOf? n = some v) :
    Eval.read n σ = .ok (v, σ) := by
  unfold Eval.read
  dsimp only [bind, StateT.bind, Except.bind, get, getThe, MonadStateOf.get, StateT.get, pure,
    Except.pure]
  rw [h]
  unfold truthOf? at hv
  dsimp only
  split at hv
  · cases hv
    rw [if_pos ‹_›]
    rfl
  · rw [if_neg ‹_›]
    split at hv
    · cases hv
      rw [if_pos ‹_›]
      rfl
    · cases hv

/-- The code that reads a slot. -/
theorem givesResult_local (hn : n ∈ names) (hmax : t + names.idxOf n ≤ maxImmediate) :
    GivesResult code env.bound names t [.op .dig [.uint (UInt64.ofNat (t + names.idxOf n))]]
      ((Expr.var (.name n span)).eval env) (some k) := by
  intro b pc temps values σ ht hstands hσ
  obtain ⟨v, hv, hget⟩ := hσ.exists_value hn
  have hslot : (temps ++ (values.map Value.uint ++ b.stack))[t + names.idxOf n]? = some (.uint v) := by
    have hlt : names.idxOf n < (values.map Value.uint).length := by
      rw [List.length_map, hσ.length]
      exact List.idxOf_lt_length_of_mem hn
    rw [List.getElem?_append_right (by omega), ht, Nat.add_sub_cancel_left,
      List.getElem?_append_left hlt, List.getElem?_map, hget]
    rfl
  rw [Expr.eval]
  show Machine.Follows code env.bound _ (Eval.read n σ >>= fun r => pure (some r.1, r.2)) _
  rw [Eval.read_of_bound hv]
  exact .step (Machine.step_op (stands_cons.1 hstands).1 (Machine.exec_dig hslot hmax))
    (.done ⟨rfl, values, hσ, rfl⟩)

/-- The code of a constant. -/
theorem givesResult_constant {v : UInt64} (hn : n ∉ names) (hv : truthOf? n = some v) :
    GivesResult code env.bound names t [.op .pushint [.uint v]]
      ((Expr.var (.name n span)).eval env) (some k) := by
  intro b pc temps values σ _ hstands hσ
  rw [Expr.eval]
  show Machine.Follows code env.bound _ (Eval.read n σ >>= fun r => pure (some r.1, r.2)) _
  rw [Eval.read_of_truth (hσ.unbound n hn) hv]
  exact .step (b.step (stands_cons.1 hstands).1 rfl) (.done ⟨rfl, values, hσ, rfl⟩)

/-- The code of a call. -/
theorem Gives.call (hlinked : S.Linked code env) {f : String} {sig : Signature} {args : List Expr}
    (hsig : S.lower.signatures.lookup f = some sig) (harity : args.length = sig.arity)
    (hentry : S.check.isEntry f = false) (hcallable : S.callable f)
    (hargs : Gives code env.bound names t piece (Expr.evalArguments env args)
      (fun vs => vs.reverse.map .uint) fun vs => vs.length = args.length) :
    GivesResult code env.bound names t (piece ++ [.op .callsub [.label f]])
      ((Expr.call f args span).eval env) (if sig.returnsValue then some .any else none) := by
  intro b pc temps values σ ht hstands hσ
  obtain ⟨hpiece, hcall⟩ := stands_append.1 hstands
  obtain ⟨place, hplace, hfollows⟩ := hlinked.calls f sig hcallable hentry hsig
  rw [Expr.eval]
  refine (hargs b pc temps values σ ht hpiece hσ).bind ?_
  rintro ⟨vs, σ'⟩ m ⟨hlen, values', hσ', rfl⟩
  -- For the function, all that is on the stack but its arguments is below its frame.
  let below : Below := ⟨temps ++ (values'.map .uint ++ b.stack), b.frames⟩
  have hstep : (b.machine (pc + piece.length) (vs.reverse.map .uint ++ temps) values').step code =
      .next ⟨place, vs.reverse.map .uint ++ below.stack, (pc + piece.length + 1) :: below.frames, []⟩ := by
    refine Machine.step_op (stands_cons.1 hcall).1 ?_
    show Machine.jump code _ f _ _ = _
    rw [Machine.jump, findIdx?_label hlinked.nodup hplace]
    simp [Below.machine, below]
  refine .step hstep ?_
  show Machine.Follows code env.bound _ (env.calls f vs >>= fun v => pure (v, σ')) _
  refine (hfollows below _ vs (hlen.trans harity)).bind ?_
  rintro v m ⟨hsome, rfl⟩
  refine .done ⟨?_, values', hσ', ?_⟩
  · show v.isSome = _
    rw [hsome]
    cases sig.returnsValue <;> rfl
  · rw [add_length_append]
    simp [Below.machine, below]


/-! ### Tests of a switch -/

/-- The code that tests an expression against a value. -/
theorem GivesValue.test {ct cv : List Instruction}
    (ht : GivesValue code env.bound names t ct (l.evalValue env))
    (hv : GivesValue code env.bound names (t + 1) cv (r.evalValue env)) :
    Gives code env.bound names t (ct ++ cv ++ plain [.eq])
      (Eval.equal (l.evalValue env) (r.evalValue env)) (fun r => [.uint r.toUInt64])
      fun _ => True := by
  intro b pc temps values σ hlen hstands hσ
  obtain ⟨hstands, hop⟩ := stands_append.1 hstands
  obtain ⟨hct, hcv⟩ := stands_append.1 hstands
  unfold Eval.equal
  refine (ht b pc temps values σ hlen hct hσ).bind ?_
  rintro ⟨x, σ₁⟩ m ⟨-, values₁, hσ₁, rfl⟩
  refine (hv b _ (.uint x :: temps) values₁ σ₁ (by rw [List.length_cons, hlen]) hcv hσ₁).bind ?_
  rintro ⟨y, σ₂⟩ m ⟨-, values₂, hσ₂, rfl⟩
  have hpc := (stands_cons.1 hop).1
  rw [add_length_append] at hpc
  have hstep : (b.machine (pc + ct.length + cv.length) (.uint y :: .uint x :: temps) values₂).step code =
      .next (b.machine (pc + ct.length + cv.length + 1)
        (.uint ((x == y) == true).toUInt64 :: temps) values₂) :=
    b.step hpc rfl
  refine .step hstep (.done ⟨trivial, values₂, hσ₂, ?_⟩)
  rw [add_length_append, add_length_append, beq_true]
  rfl

/-- The code that joins the outcome of a test to that of the tests before it. -/
theorem Below.step_or {first second : Bool} (h : code[pc]? = some (.op .logicOr [])) :
    (b.machine pc (.uint second.toUInt64 :: .uint first.toUInt64 :: temps) values).step code =
      .next (b.machine (pc + 1) (.uint (first || second).toUInt64 :: temps) values) := by
  refine b.step h ?_
  cases first <;> cases second <;> rfl

end Gives

/-- The code of an expression of the fragment does what the expression means. -/
theorem Emits.simulated (hreads : S.Reads params readable) (hlinked : S.Linked code env)
    (hparams : params ⊆ names) {cs : CheckState} {t : Nat} {item : Item}
    {piece : List Instruction} {left : Option StackType}
    (h : Emits S names cs t item piece left) :
    item.Simulated code env readable names t piece left := by
  have hno : ∀ {n : String} {c : UInt64} {span : Span}, n ∉ names → transactionCode? n = some c →
      (Expr.var (.name n span)).isIntegral readable ≠ true := by
    intro n c span hn hc hread
    have hnone := hreads.notType n (fun hmem => hn (hparams hmem)) hread
    rw [hc] at hnone
    cases hnone
  induction h with
  | uint =>
    intro _ b pc temps values σ _ hstands hσ
    exact .step (b.step (stands_cons.1 hstands).1 rfl) (.done ⟨rfl, values, hσ, rfl⟩)
  | bytes | cast | hash =>
    intro he
    simp [Expr.isIntegral] at he
  | not _ ih =>
    intro he
    rw [Expr.isIntegral] at he
    refine (ih he).value.unary fun b pc temps values v => ?_
    by_cases hv : v = 0
    · simp [Machine.exec, Below.machine, Machine.goOn, UnaryOperator.result, hv, toUInt64_true]
    · have hbeq : (v == 0) = false := by simpa using hv
      simp [Machine.exec, Below.machine, Machine.goOn, UnaryOperator.result, hv, hbeq,
        toUInt64_false]
  | complement he' _ ih =>
    intro he
    rw [Expr.isIntegral] at he
    have hk := he'.ne_bytes hreads.held he
    rw [complementOps, if_neg hk]
    rw [if_neg hk]
    exact (ih he).value.unary fun _ _ _ _ _ => rfl
  | assign hn hmax _ _ ih =>
    intro he
    rw [Expr.isIntegral] at he
    exact (ih he).value.assign hn hmax
  | choice _ _ _ _ _ ihc ihl ihr =>
    intro he
    simp only [Expr.isIntegral, Bool.and_eq_true] at he
    exact (ihc he.1.1).value.choice hlinked.nodup (ihl he.1.2) (ihr he.2)
  | @typeTest _ _ o _ _ _ _ _ _ _ _ ho _ _ hc hnot _ _ _ =>
    intro he
    have hop : o.uintOpcode?.isSome = true := by
      rcases ho with rfl | rfl <;> rfl
    rw [Expr.isIntegral_operator hop, Bool.and_eq_true] at he
    exact absurd he.2 (hno hnot hc)
  | operator hl _ hr htakes _ ihl ihr =>
    intro he
    rw [Expr.isIntegral_operator htakes.1, Bool.and_eq_true] at he
    obtain ⟨op, hop⟩ := Option.isSome_iff_exists.1 htakes.1
    have hemitted := And.intro (hl.ne_bytes hreads.held he.1) (hr.ne_bytes hreads.held he.2)
    rw [BinaryOperator.emitted, if_pos hemitted, hop]
    exact (ihl he.1).value.operator hop (ihr he.2).value
  | call hf hsig harity hentry hcallable _ ih =>
    intro he
    rw [Expr.isIntegral, Bool.and_eq_true, Expr.areIntegral_eq, List.all_eq_true] at he
    exact (ih he.2).call hlinked hsig harity hentry hcallable
  | «local» hn hmax _ _ _ => exact fun _ => givesResult_local hn hmax
  | constant hn hv _ =>
    intro he
    rw [Expr.isIntegral] at he
    exact givesResult_constant hn (hreads.constant _ _ (fun hmem => hn (hparams hmem)) he hv)
  | place hload hr _ _ _ => exact fun he => absurd he (not_integral_of_load hload hr)
  | readDirect | readIndexed => trivial
  | argsNil =>
    intro _ b pc temps values σ _ _ hσ
    exact .done ⟨rfl, values, hσ, rfl⟩
  | argsCons _ _ _ ih ihs =>
    intro hes b pc temps values σ ht hstands hσ
    obtain ⟨he, hes⟩ := List.forall_mem_cons.1 hes
    obtain ⟨hcode, hcodes⟩ := stands_append.1 hstands
    rw [Expr.evalArguments]
    refine ((ih he).value b pc temps values σ ht hcode hσ).bind ?_
    rintro ⟨v, σ₁⟩ m ⟨-, values₁, hσ₁, rfl⟩
    refine (ihs hes b _ (.uint v :: temps) values₁ σ₁ (by rw [List.length_cons, ht]) hcodes hσ₁).bind ?_
    rintro ⟨vs, σ₂⟩ m ⟨hlen, values₂, hσ₂, rfl⟩
    refine .done ⟨congrArg (· + 1) hlen, values₂, hσ₂, ?_⟩
    rw [add_length_append]
    simp
  | test ht hv iht ihv =>
    intro htested hvalue
    have hemitted := And.intro (ht.ne_bytes hreads.held htested) (hv.ne_bytes hreads.held hvalue)
    rw [BinaryOperator.emitted, if_pos hemitted]
    exact (iht htested).value.test (ihv hvalue).value
  | testType _ _ hc hnot _ _ _ => exact fun _ hvalue => absurd hvalue (hno hnot hc)
  | testsNil =>
    intro _ _ first b pc temps values σ _ _ hσ
    exact .done ⟨values, hσ, by rw [Bool.or_false]; rfl⟩
  | testsCons _ _ _ ih ihs =>
    intro htested hvs first b pc temps values σ ht hstands hσ
    obtain ⟨hv, hvs⟩ := List.forall_mem_cons.1 hvs
    obtain ⟨hstands, hrest⟩ := stands_append.1 hstands
    obtain ⟨htest, hor⟩ := stands_append.1 hstands
    rw [List.map_cons, Eval.anyEqual]
    refine (ih htested hv b pc (.uint first.toUInt64 :: temps) values σ
      (by rw [List.length_cons, ht]) htest hσ).bind ?_
    rintro ⟨second, σ₁⟩ m ⟨-, values₁, hσ₁, rfl⟩
    rw [add_length_append] at hrest
    refine .step (b.step_or (stands_cons.1 hor).1) ?_
    refine (ihs htested hvs (first || second) b _ temps values₁ σ₁ ht hrest hσ₁).bind ?_
    rintro ⟨third, σ₂⟩ m ⟨values₂, hσ₂, rfl⟩
    refine .done ⟨values₂, hσ₂, ?_⟩
    rw [add_length_append, add_length_append, Bool.or_assoc]

end ContractCompiler
