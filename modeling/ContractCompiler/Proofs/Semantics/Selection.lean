import ContractCompiler.Lowering.Stmt
import ContractCompiler.Proofs.Semantics.Evaluation
import ContractCompiler.Proofs.Syntax.Descendants
import ContractCompiler.Proofs.Syntax.ExprProvenance

/-!
# Which case of a switch is run

A switch is lowered as a chain of conditionals, each of which tests the values of one case. What the
chain does is told here for every way to give expressions a meaning, so that the tested value may as
well come from the ledger: all that is asked is that `==` and `||` do on integers what they should, and
that an expression without assignments and calls leaves the state alone.
-/

namespace ContractCompiler

/-! ## Meanings -/

/-- Whether an expression has no assignment and no call in it. -/
def Expr.isPlain (e : Expr) : Bool :=
  (Node.expr e).assignments.isEmpty && (Node.expr e).calls.isEmpty

/-- What expressions do in states of type `σ`. An evaluation that does not go on stops with an `ε`: the
program fails or ends, or the function is left. -/
structure Meaning (σ ε : Type) where
  /-- The value of an expression. A call may have none. -/
  value : Expr → StateT σ (Except ε) (Option Value)
  /-- Leaving a function. -/
  leaving : Leaving → Option Expr → StateT σ (Except ε) Unit
  /-- Entering a block whose own expressions assign some names. -/
  enter : List String → σ → σ
  /-- Leaving such a block, which was entered in the state `before`. -/
  exit : List String → (before : σ) → σ → σ
  /-- Stops since a condition is no integer. -/
  stuck : ε
  /-- Stops since a loop has reached the bound on its iterations. -/
  timeout : ε
  bound : Nat
  /-- Integers are equal if they are the same. The left one is evaluated first. -/
  value_eq : ∀ (span : Span) {l r : Expr} {s s₁ s₂ : σ} {x y : UInt64},
    value l s = .ok (some (.uint x), s₁) → value r s₁ = .ok (some (.uint y), s₂) →
      value (.binary .eq l r span) s = .ok (some (.uint (if x = y then 1 else 0)), s₂)
  /-- One of two integers is not zero. Both are evaluated, the left one first. -/
  value_or : ∀ (span : Span) {l r : Expr} {s s₁ s₂ : σ} {x y : UInt64},
    value l s = .ok (some (.uint x), s₁) → value r s₁ = .ok (some (.uint y), s₂) →
      value (.binary .or l r span) s = .ok (some (.uint (if x ≠ 0 ∨ y ≠ 0 then 1 else 0)), s₂)
  /-- Only assignments and calls change the state. -/
  value_plain : ∀ {e : Expr} {s s' : σ} {v : Option Value}, e.isPlain = true →
    value e s = .ok (v, s') → s' = s
  /-- A block that assigns nothing has no names of its own. -/
  enter_nil : ∀ s, enter [] s = s
  exit_nil : ∀ before s, exit [] before s = s

namespace Meaning

variable {σ ε : Type} (M : Meaning σ ε)

/-- The integer that an expression is in a state, if it is one. -/
def int? (e : Expr) (s : σ) : Option UInt64 :=
  match M.value e s with
  | .ok (some (.uint v), _) => some v
  | _ => none

/-- Whether a condition holds. -/
def condition (e : Expr) : StateT σ (Except ε) Bool := do
  match ← M.value e with
  | some (.uint v) => return v != 0
  | _ => throw M.stuck

/-- A loop that tests first. -/
def whileDo (c : StateT σ (Except ε) Bool) (body : StateT σ (Except ε) Unit) :
    Nat → StateT σ (Except ε) Unit
  | 0 => throw M.timeout
  | n + 1 => do
    if ← c then
      body
      whileDo c body n

/-- A loop that tests last. -/
def doWhile (body : StateT σ (Except ε) Unit) (c : StateT σ (Except ε) Bool) :
    Nat → StateT σ (Except ε) Unit
  | 0 => throw M.timeout
  | n + 1 => do
    body
    if ← c then
      doWhile body c n

/-- Whether the tested value is one of some values. It is evaluated anew for each of them. -/
def anyEqual (tested : Expr) : List Expr → StateT σ (Except ε) Bool
  | [] => return false
  | v :: vs => do
    let first ← M.condition (.binary .eq tested v v.span)
    let rest ← anyEqual tested vs
    return first || rest

/-- What is done between entering a block and leaving it. -/
def inBlock (names : List String) (body : StateT σ (Except ε) Unit) :
    StateT σ (Except ε) Unit := do
  let before ← get
  set (M.enter names before)
  body
  modify (M.exit names before)

mutual

/-- What a statement does. -/
def stmt : Stmt → StateT σ (Except ε) Unit
  | .ifElse c t none _ => do
    if ← M.condition c then block t
  | .ifElse c t (some e) _ => do
    if ← M.condition c then block t else block e
  | .whileDo c b _ => M.whileDo (M.condition c) (block b) M.bound
  | .doWhile b c _ => M.doWhile (block b) (M.condition c) M.bound
  | .switch tested cs none _ => cases tested (return ()) cs
  | .switch tested cs (some d) _ => cases tested (block d) cs
  | .leave kind value _ => M.leaving kind value
  | .expr e => do
    let _ ← M.value e

/-- What statements in a row do. -/
def stmts : List Stmt → StateT σ (Except ε) Unit
  | [] => return ()
  | s :: ss => do
    stmt s
    stmts ss

/-- What a block does. -/
def block : Block → StateT σ (Except ε) Unit
  | ⟨ss, _⟩ => M.inBlock (Stmt.assignedNames ss) (stmts ss)

/-- What the cases of a switch do. -/
def cases (tested : Expr) (otherwise : StateT σ (Except ε) Unit) :
    List Case → StateT σ (Except ε) Unit
  | [] => otherwise
  | ⟨values, b, _⟩ :: cs => do
    if ← M.anyEqual tested values then block b else cases tested otherwise cs

end

/-- What is done in all other cases, if something is. -/
def otherwise : Option Block → StateT σ (Except ε) Unit
  | none => return ()
  | some b => M.block b

/-- What the chain of a switch does. A switch without cases has none. -/
def chain (tested : Expr) (d : Option Block) (cs : List Case) : StateT σ (Except ε) Unit :=
  match Stmt.ifChain tested d cs with
  | some link => M.stmt link
  | none => M.otherwise d

/-- The first case that has a value among its own. -/
def selected? (s : σ) (t : UInt64) (cs : List Case) : Option Case :=
  cs.find? fun c => c.values.any fun v => M.int? v s == some t

end Meaning

/-! ## Plain expressions -/

namespace Expr

theorem isPlain_iff {e : Expr} :
    e.isPlain = true ↔ (Node.expr e).assignments = [] ∧ (Node.expr e).calls = [] := by
  rw [isPlain, Bool.and_eq_true, List.isEmpty_iff, List.isEmpty_iff]

theorem isPlain_unary {o : UnaryOperator} {e : Expr} {span : Span} :
    (unary o e span).isPlain = true ↔ e.isPlain = true := by
  have hassignments : (Node.expr (unary o e span)).assignments = (Node.expr e).assignments :=
    Node.found_unary Node.assignment? o e span
  have hcalls : (Node.expr (unary o e span)).calls = (Node.expr e).calls :=
    Node.found_unary Node.call? o e span
  rw [isPlain_iff, isPlain_iff, hassignments, hcalls]

theorem not_isPlain_assign {l r : Expr} {span : Span} :
    (binary .assign l r span).isPlain ≠ true := by
  intro h
  have hnil := (isPlain_iff.1 h).1
  rw [Node.assignments, Node.descendants_eq] at hnil
  cases hnil

theorem not_isPlain_call {f : String} {args : List Expr} {span : Span} :
    (call f args span).isPlain ≠ true := by
  intro h
  have hnil := (isPlain_iff.1 h).2
  rw [Node.calls, Node.descendants_eq] at hnil
  cases hnil

theorem isPlain_binary {o : BinaryOperator} (ho : o ≠ .assign) {l r : Expr} {span : Span} :
    (binary o l r span).isPlain = true ↔ l.isPlain = true ∧ r.isPlain = true := by
  have hassignments : (Node.expr (binary o l r span)).assignments =
      (Node.expr l).assignments ++ (Node.expr r).assignments := by
    have hnone : (Node.expr (binary o l r span)).assignment? = none := by
      cases o <;> first | rfl | exact absurd rfl ho
    have hfound := Node.found_binary Node.assignment? o l r span
    rw [hnone] at hfound
    exact hfound
  have hcalls : (Node.expr (binary o l r span)).calls =
      (Node.expr l).calls ++ (Node.expr r).calls :=
    Node.found_binary Node.call? o l r span
  rw [isPlain_iff, isPlain_iff, isPlain_iff, hassignments, hcalls, List.append_eq_nil_iff,
    List.append_eq_nil_iff, and_and_and_comm]

theorem assigned_of_isPlain {e : Expr} (h : e.isPlain = true) : e.assigned = [] := by
  have hassigned : e.assigned = (Node.expr e).assignments.filterMap fun a => a.target.asName? := by
    rw [Node.assignments, List.filterMap_filterMap]
    rfl
  rw [hassigned, (isPlain_iff.1 h).1]
  rfl

end Expr

/-- Plain tests that are joined one after the other are plain together. -/
theorem Expr.isPlain_foldl {tested e : Expr} {vs : List Expr} {span : Span} (he : e.isPlain = true)
    (hvs : ∀ v ∈ vs, (Expr.binary .eq tested v v.span).isPlain = true) :
    (vs.foldl (fun e v => .binary .or e (.binary .eq tested v v.span) span) e).isPlain = true := by
  induction vs generalizing e with
  | nil => exact he
  | cons v vs ih =>
    obtain ⟨hv, hvs⟩ := List.forall_mem_cons.1 hvs
    have ho : BinaryOperator.or ≠ .assign := by decide
    exact ih ((isPlain_binary ho).2 ⟨he, hv⟩) hvs

theorem Case.isPlain_condition {tested : Expr} {c : Case} (hne : c.values ≠ [])
    (htested : tested.isPlain = true) (hvalues : ∀ v ∈ c.values, v.isPlain = true) :
    (c.condition tested).isPlain = true := by
  obtain ⟨values, block, span⟩ := c
  have htest : ∀ v ∈ values, (Expr.binary .eq tested v v.span).isPlain = true := fun v hv =>
    (Expr.isPlain_binary (by decide)).2 ⟨htested, hvalues v hv⟩
  cases values with
  | nil => exact absurd rfl hne
  | cons v vs =>
    obtain ⟨hv, hvs⟩ := List.forall_mem_cons.1 htest
    exact Expr.isPlain_foldl hv hvs

namespace Meaning

variable {σ ε : Type} {M : Meaning σ ε} {s s' : σ} {e tested : Expr} {t : UInt64}

theorem value_of_int? (hplain : e.isPlain = true) (h : M.int? e s = some t) :
    M.value e s = .ok (some (.uint t), s) := by
  unfold int? at h
  split at h
  case h_1 v s' hvalue =>
    cases h
    rw [hvalue, M.value_plain hplain hvalue]
  case h_2 => cases h

/-! ## One link of a chain -/

/-- The expressions that decide which case is run: they have no assignment and no call, and are
integers in the state. -/
structure Decided (M : Meaning σ ε) (s : σ) (e : Expr) : Prop where
  plain : e.isPlain = true
  integer : (M.int? e s).isSome = true

/-- The tests of a case, one after the other onto the ones before, tell whether one of its values is
the tested one. -/
theorem value_tests {span : Span} {vs : List Expr} {b : Bool}
    (htested : M.value tested s = .ok (some (.uint t), s)) (hvs : ∀ v ∈ vs, M.Decided s v)
    (he : M.value e s = .ok (some (.uint (if b then 1 else 0)), s)) :
    M.value (vs.foldl (fun e v => .binary .or e (.binary .eq tested v v.span) span) e) s =
      .ok (some (.uint (if b || vs.any (M.int? · s == some t) then 1 else 0)), s) := by
  induction vs generalizing e b with
  | nil => simpa using he
  | cons v vs ih =>
    obtain ⟨hv, hvs⟩ := List.forall_mem_cons.1 hvs
    obtain ⟨x, hx⟩ := Option.isSome_iff_exists.1 hv.integer
    have htest := M.value_eq v.span htested (value_of_int? hv.plain hx)
    have hor := M.value_or span he htest
    have hbit : (if (if b then (1 : UInt64) else 0) ≠ 0 ∨ (if t = x then (1 : UInt64) else 0) ≠ 0
        then (1 : UInt64) else 0) = if b || M.int? v s == some t then 1 else 0 := by
      rw [hx]
      by_cases htx : t = x
      · simp [htx]
      · cases b <;> simp [htx, Ne.symm htx]
    rw [hbit] at hor
    rw [List.foldl_cons, ih hvs hor, List.any_cons, Bool.or_assoc]

/-- The condition of a case holds if one of its values is the tested one. -/
theorem value_condition {c : Case} (hne : c.values ≠ [])
    (htested : M.value tested s = .ok (some (.uint t), s)) (hvs : ∀ v ∈ c.values, M.Decided s v) :
    M.value (c.condition tested) s =
      .ok (some (.uint (if c.values.any (M.int? · s == some t) then 1 else 0)), s) := by
  obtain ⟨values, block, span⟩ := c
  cases values with
  | nil => exact absurd rfl hne
  | cons v vs =>
    obtain ⟨hv, hvs⟩ := List.forall_mem_cons.1 hvs
    obtain ⟨x, hx⟩ := Option.isSome_iff_exists.1 hv.integer
    have htest := M.value_eq v.span htested (value_of_int? hv.plain hx)
    have hbit : (if t = x then (1 : UInt64) else 0) = if M.int? v s == some t then 1 else 0 := by
      rw [hx]
      by_cases htx : t = x
      · simp [htx]
      · simp [htx, Ne.symm htx]
    rw [hbit] at htest
    exact value_tests htested hvs htest

theorem stmt_ifElse {c : Expr} {b : Block} {d : Option Block} {span : Span} {v : UInt64}
    (h : M.value c s = .ok (some (.uint v), s')) :
    M.stmt (.ifElse c b d span) s = if v = 0 then M.otherwise d s' else M.block b s' := by
  have hcondition : M.condition c s = .ok (v != 0, s') := by
    show (M.value c s >>= fun r => _) = _
    rw [h]
    rfl
  cases d with
  | none =>
    rw [stmt]
    show (M.condition c s >>= fun r => _) = _
    rw [hcondition]
    by_cases hv : v = 0
    · subst hv
      rfl
    · have hne : (v != 0) = true := bne_iff_ne.2 hv
      rw [if_neg hv, hne]
      rfl
  | some d =>
    rw [stmt]
    show (M.condition c s >>= fun r => _) = _
    rw [hcondition]
    by_cases hv : v = 0
    · subst hv
      rfl
    · have hne : (v != 0) = true := bne_iff_ne.2 hv
      rw [if_neg hv, hne]
      rfl

/-- A block with one statement that assigns nothing does what the statement does. -/
theorem block_single {link : Stmt} (span : Span) (h : Stmt.assignedNames [link] = []) :
    M.block ⟨[link], span⟩ s = M.stmt link s := by
  rw [block, h, stmts, stmts]
  show (((M.stmt link >>= fun _ => pure ()) (M.enter [] s)) >>= fun r =>
    Except.ok ((), M.exit [] s r.2)) = _
  rw [M.enter_nil, bind_pure_unit]
  cases M.stmt link s with
  | error => rfl
  | ok r =>
    show Except.ok ((), M.exit [] s r.2) = _
    rw [M.exit_nil]

/-- One link of a chain: its case is run, or the rest of the chain. -/
theorem chain_cons {c : Case} {cs : List Case} {d : Option Block}
    (hne : ∀ c' ∈ c :: cs, c'.values ≠ [])
    (htested : tested.isPlain = true) (ht : M.int? tested s = some t)
    (hvs : ∀ c' ∈ c :: cs, ∀ v ∈ c'.values, M.Decided s v) :
    M.chain tested d (c :: cs) s =
      if c.values.any (M.int? · s == some t) then M.block c.block s else M.chain tested d cs s := by
  have hvalue := value_condition (hne c List.mem_cons_self) (value_of_int? htested ht)
    (hvs c List.mem_cons_self)
  cases cs with
  | nil =>
    show M.stmt (.ifElse (c.condition tested) c.block d c.span) s = _
    rw [stmt_ifElse hvalue]
    cases c.values.any (M.int? · s == some t) <;> rfl
  | cons next cs =>
    obtain ⟨link, hlink, hnames⟩ : ∃ link, Stmt.ifChain tested d (next :: cs) = some link ∧
        Stmt.assignedNames [link] = [] := by
      have hplain := Case.isPlain_condition (hne next (by simp)) htested fun v hv =>
        (hvs next (by simp) v hv).plain
      have hassigned := Expr.assigned_of_isPlain hplain
      cases cs with
      | nil =>
        refine ⟨_, rfl, ?_⟩
        rw [Stmt.assignedNames_eq]
        simp [Stmt.ownExpressions, hassigned]
      | cons =>
        refine ⟨_, rfl, ?_⟩
        rw [Stmt.assignedNames_eq]
        simp [Stmt.ownExpressions, hassigned]
    have hrest : M.chain tested d (next :: cs) = M.stmt link := by
      rw [chain, hlink]
    rw [hrest, chain, Stmt.ifChain, hlink]
    show M.stmt (.ifElse (c.condition tested) c.block (some ⟨[link], next.span⟩) c.span) s = _
    rw [stmt_ifElse hvalue]
    cases c.values.any (M.int? · s == some t) with
    | true => rfl
    | false => exact block_single next.span hnames

/-! ## Chains -/

/-- A switch is lowered as its chain of conditionals, and the chain runs the first case that has the
tested value among its own; if there is none, it does what is done in all other cases. -/
theorem ifChain_selects (M : Meaning σ ε) {tested : Expr} {cs : List Case} {d : Option Block}
    {span : Span} {s : σ} {t : UInt64} (hne : ∀ c ∈ cs, c.values ≠ [])
    (htested : tested.isPlain = true) (ht : M.int? tested s = some t)
    (hvs : ∀ c ∈ cs, ∀ v ∈ c.values, v.isPlain = true ∧ (M.int? v s).isSome = true) :
    (Stmt.switch tested cs d span).lower = Lower.within "switch"
      (match Stmt.ifChain tested d cs with
        | some link => link.lower
        | none => (d.map Block.lower).getD (return false)) ∧
    M.chain tested d cs s =
      match M.selected? s t cs with
      | some c => M.block c.block s
      | none => M.otherwise d s := by
  refine ⟨Stmt.lower_switch tested cs d span hne, ?_⟩
  have hdecided : ∀ c ∈ cs, ∀ v ∈ c.values, M.Decided s v := fun c hc v hv =>
    ⟨(hvs c hc v hv).1, (hvs c hc v hv).2⟩
  clear hvs
  induction cs with
  | nil => rfl
  | cons c cs ih =>
    rw [chain_cons hne htested ht hdecided, selected?, List.find?_cons]
    cases c.values.any (M.int? · s == some t) with
    | true => rfl
    | false =>
      exact ih (fun c' hc' => hne c' (List.mem_cons_of_mem _ hc'))
        fun c' hc' => hdecided c' (List.mem_cons_of_mem _ hc')

end Meaning

/-! ## The evaluator for integers -/

namespace Eval

/-- An evaluation that leaves the store as it is. -/
def Keeps {α : Type} (x : Eval α) : Prop :=
  ∀ ⦃s : Store⦄ ⦃r : α × Store⦄, x s = .ok r → r.2 = s

variable {α β : Type}

theorem Keeps.pure (a : α) : Keeps (pure a) := by
  rintro s r ⟨⟩
  rfl

theorem Keeps.throw (e : Stop) : Keeps (throw e : Eval α) := by
  rintro s r ⟨⟩

theorem Keeps.lift (x : Except Stop α) : Keeps (liftM x : Eval α) := by
  intro s r h
  cases x with
  | error e => cases h
  | ok a =>
    cases h
    rfl

theorem Keeps.bind {x : Eval α} {f : α → Eval β} (hx : Keeps x) (hf : ∀ a, Keeps (f a)) :
    Keeps (x >>= f) := by
  intro s r h
  obtain ⟨⟨a, s'⟩, ha, hb⟩ := ok_of_bind h
  obtain rfl : s' = s := hx ha
  exact hf a hb

theorem Keeps.value {x : Eval (Option UInt64)} (hx : Keeps x) : Keeps (Eval.value x) :=
  hx.bind fun
    | some v => .pure v
    | none => .throw _

theorem Keeps.read (n : String) : Keeps (Eval.read n) := by
  have hget : Keeps (get : Eval Store) := by
    rintro s r ⟨⟩
    rfl
  refine hget.bind fun s => ?_
  split
  · exact .pure _
  · split
    · exact .pure _
    · split
      · exact .pure _
      · exact .throw _

end Eval

/-- Both operands are evaluated, unless there is an assignment or a choice between two. -/
theorem Expr.eval_binary {env : EvalEnv} {o : BinaryOperator} {l r : Expr} {span : Span}
    (hassign : o ≠ .assign) (hternary : ∀ a b s, o = .ternary → r ≠ .binary .colon a b s) :
    (Expr.binary o l r span).eval env = (do
      let x ← Eval.value (l.eval env)
      let y ← Eval.value (r.eval env)
      let v ← o.result x y
      return some v) := by
  rw [Expr.eval]
  · rintro n s rfl
    exact absurd rfl hassign
  · rintro a b s rfl rfl
    exact hternary a b s rfl rfl

/-- An operator that takes both its operands keeps the store if they do. -/
theorem Eval.Keeps.binary {x y : Eval (Option UInt64)} (o : BinaryOperator) (hx : Keeps x)
    (hy : Keeps y) : Keeps (do
      let a ← Eval.value x
      let b ← Eval.value y
      let v ← o.result a b
      return some v) :=
  hx.value.bind fun _ => hy.value.bind fun _ => (Keeps.lift _).bind fun _ => .pure _

/-- Only assignments and calls change the store. -/
theorem Expr.eval_keeps (env : EvalEnv) :
    ∀ {e : Expr}, e.isPlain = true → (e.eval env).Keeps
  | .uint v _, _ => by
    rw [Expr.eval]
    exact .pure _
  | .bytes _ _, _ => by
    rw [Expr.eval]
    exact .throw _
  | .unary _ e _, h => by
    rw [Expr.eval]
    exact (Expr.eval_keeps env (isPlain_unary.1 h)).value.bind fun _ => .pure _
  | .binary o l r _, h => by
    by_cases hassign : o = .assign
    · subst hassign
      exact absurd h not_isPlain_assign
    obtain ⟨hl, hr⟩ := (isPlain_binary hassign).1 h
    have hl := Expr.eval_keeps env hl
    by_cases hternary : ∃ a b s, o = .ternary ∧ r = .binary .colon a b s
    · obtain ⟨a, b, s, rfl, rfl⟩ := hternary
      have hcolon : BinaryOperator.colon ≠ .assign := by decide
      obtain ⟨ha, hb⟩ := (isPlain_binary hcolon).1 hr
      rw [Expr.eval]
      refine hl.value.bind fun x => ?_
      split
      · exact Expr.eval_keeps env hb
      · exact Expr.eval_keeps env ha
    · rw [Expr.eval_binary hassign fun a b s ho h => hternary ⟨a, b, s, ho, h⟩]
      exact .binary o hl (Expr.eval_keeps env hr)
  | .call _ _ _, h => absurd h not_isPlain_call
  | .var (.name n _), _ => by
    rw [Expr.eval]
    exact (Eval.Keeps.read n).bind fun _ => .pure _
  | .var (.index _ _ _), _ => by
    rw [Expr.eval]
    · exact .throw _
    · rintro _ _ ⟨⟩
  | .var (.member _ _ _), _ => by
    rw [Expr.eval]
    · exact .throw _
    · rintro _ _ ⟨⟩

/-- Why a statement does not go on: the evaluation stops, or the function is left. -/
abbrev Halt := Stop ⊕ Option UInt64

namespace Eval

variable {α : Type}

/-- An evaluation, whose stops are halts. -/
def halting (x : Eval α) : StateT Store (Except Halt) α := fun s =>
  match x s with
  | .ok r => .ok r
  | .error e => .error (.inl e)

/-- An evaluation that may leave the function, which is a halt. -/
def flowing (x : Eval Flow) : StateT Store (Except Halt) Unit := fun s =>
  match x s with
  | .ok (.next, s') => .ok ((), s')
  | .ok (.leave v, _) => .error (.inr v)
  | .error e => .error (.inl e)

theorem halting_bind {β : Type} (x : Eval α) (f : α → Eval β) :
    halting (x >>= f) = halting x >>= fun a => halting (f a) := by
  funext s
  show (match x s >>= fun r => f r.1 r.2 with
    | .ok r => .ok r
    | .error e => .error (.inl e) : Except Halt (β × Store)) =
      (halting x s >>= fun r => halting (f r.1) r.2)
  unfold halting
  cases x s <;> rfl

theorem flowing_bind (x : Eval α) (f : α → Eval Flow) :
    flowing (x >>= f) = halting x >>= fun a => flowing (f a) := by
  funext s
  show (match x s >>= fun r => f r.1 r.2 with
    | .ok (.next, s') => .ok ((), s')
    | .ok (.leave v, _) => .error (.inr v)
    | .error e => .error (.inl e) : Except Halt (Unit × Store)) =
      (halting x s >>= fun r => flowing (f r.1) r.2)
  unfold halting
  cases x s <;> rfl

theorem flowing_andThen (x y : Eval Flow) :
    flowing (andThen x y) = (do flowing x; flowing y) := by
  funext s
  show flowing (andThen x y) s = (flowing x s >>= fun r => flowing y r.2)
  unfold flowing andThen
  dsimp only [bind, StateT.bind]
  rcases x s with e | ⟨_ | v, s'⟩ <;> rfl

theorem flowing_inBlock (names : List String) (x : Eval Flow) :
    flowing (inBlock names x) = (do
      let before ← get
      set (before.bind names)
      flowing x
      modify fun s => s.unbind before names) := by
  funext s
  show (match x (s.bind names) >>= fun r => Except.ok (r.1, r.2.unbind s names) with
    | .ok (.next, s') => .ok ((), s')
    | .ok (.leave v, _) => .error (.inr v)
    | .error e => .error (.inl e) : Except Halt (Unit × Store)) =
      (flowing x (s.bind names) >>= fun r => .ok ((), r.2.unbind s names))
  unfold flowing
  match x (s.bind names) with
  | .ok (.next, s') => rfl
  | .ok (.leave v, s') => rfl
  | .error e => rfl

end Eval

namespace EvalEnv

/-- The value that an expression has for the evaluator. -/
def value (env : EvalEnv) (e : Expr) : StateT Store (Except Halt) (Option Value) :=
  Option.map Value.uint <$> (e.eval env).halting

variable {env : EvalEnv}

theorem value_eq_ok_iff {e : Expr} {s s' : Store} {v : Option Value} :
    env.value e s = .ok (v, s') ↔ ∃ w, e.eval env s = .ok (w, s') ∧ v = w.map .uint := by
  show ((e.eval env).halting s >>= fun r => .ok (r.1.map Value.uint, r.2)) = _ ↔ _
  unfold Eval.halting
  match e.eval env s with
  | .error e =>
    constructor
    · rintro ⟨⟩
    · rintro ⟨w, ⟨⟩, -⟩
  | .ok (w, s₁) =>
    constructor
    · rintro ⟨⟩
      exact ⟨w, rfl, rfl⟩
    · rintro ⟨w', ⟨⟩, rfl⟩
      rfl

theorem value_eq_uint_iff {e : Expr} {s s' : Store} {v : UInt64} :
    env.value e s = .ok (some (.uint v), s') ↔ e.eval env s = .ok (some v, s') := by
  rw [value_eq_ok_iff]
  constructor
  · rintro ⟨w, hw, hv⟩
    obtain ⟨v', rfl, ⟨⟩⟩ := Option.map_eq_some_iff.1 hv.symm
    exact hw
  · intro h
    exact ⟨some v, h, rfl⟩

/-- An operator gives the result on the values of both its operands. -/
theorem value_binary {o : BinaryOperator} {l r : Expr} {s s₁ s₂ : Store} {x y v : UInt64}
    (hassign : o ≠ .assign) (hternary : o ≠ .ternary) (span : Span)
    (hl : env.value l s = .ok (some (.uint x), s₁)) (hr : env.value r s₁ = .ok (some (.uint y), s₂))
    (hv : o.result x y = .ok v) :
    env.value (.binary o l r span) s = .ok (some (.uint v), s₂) := by
  rw [value_eq_uint_iff] at hl hr ⊢
  rw [Expr.eval_binary hassign fun _ _ _ ho => absurd ho hternary]
  have hx : Eval.value (l.eval env) s = .ok (x, s₁) := by
    show (l.eval env s >>= fun r => _) = _
    rw [hl]
    rfl
  have hy : Eval.value (r.eval env) s₁ = .ok (y, s₂) := by
    show (r.eval env s₁ >>= fun r => _) = _
    rw [hr]
    rfl
  show (Eval.value (l.eval env) s >>= fun a => Eval.value (r.eval env) a.2 >>= fun b => _) = _
  rw [hx]
  show (Eval.value (r.eval env) s₁ >>= fun b => _) = _
  rw [hy]
  show ((liftM (o.result x y) : Eval UInt64) s₂ >>= fun c => _) = _
  rw [hv]
  rfl

/-- What the evaluator for integers says. -/
def meaning (env : EvalEnv) : Meaning Store Halt where
  value := env.value
  leaving kind value := (env.leaving kind value).flowing
  enter names s := s.bind names
  exit names before s := s.unbind before names
  stuck := .inl .stuck
  timeout := .inl .timeout
  bound := env.bound
  value_eq span {l r s s₁ s₂ x y} hl hr := value_binary (by decide) (by decide) span hl hr rfl
  value_or span {l r s s₁ s₂ x y} hl hr := value_binary (by decide) (by decide) span hl hr rfl
  value_plain {e s s' v} hplain h := by
    obtain ⟨w, hw, -⟩ := value_eq_ok_iff.1 h
    exact Expr.eval_keeps env hplain hw
  enter_nil s := by
    funext n
    simp [Store.bind]
  exit_nil before s := by
    funext n
    simp [Store.unbind]

/-! What it says of statements is what the evaluator does. -/

theorem meaning_condition (e : Expr) : env.meaning.condition e = (do
    let v ← (e.evalValue env).halting
    return v != 0) := by
  show (Option.map Value.uint <$> (e.eval env).halting >>= fun r => _) = _
  rw [Expr.evalValue, Eval.value, Eval.halting_bind, bind_map_left, bind_assoc]
  congr 1
  funext v
  cases v <;> rfl

/-- A choice by a condition is a choice by its value. -/
theorem meaning_choose (e : Expr) (x y : Eval Flow) :
    (do if ← env.meaning.condition e then x.flowing else y.flowing) =
      Eval.flowing (do if (← e.evalValue env) = 0 then y else x) := by
  rw [meaning_condition, Eval.flowing_bind, bind_assoc]
  congr 1
  funext v
  rw [pure_bind]
  by_cases hv : v = 0
  · subst hv
    rfl
  · rw [if_neg hv, if_pos (bne_iff_ne.2 hv)]

theorem meaning_whileDo (e : Expr) (x : Eval Flow) (n : Nat) :
    env.meaning.whileDo (env.meaning.condition e) x.flowing n =
      (Eval.whileDo (e.evalValue env) x n).flowing := by
  induction n with
  | zero => rfl
  | succ n ih =>
    rw [Meaning.whileDo, ih, Eval.whileDo, ← Eval.flowing_andThen]
    exact meaning_choose e _ (return .next)

theorem meaning_doWhile (e : Expr) (x : Eval Flow) (n : Nat) :
    env.meaning.doWhile x.flowing (env.meaning.condition e) n =
      (Eval.doWhile x (e.evalValue env) n).flowing := by
  induction n with
  | zero => rfl
  | succ n ih =>
    rw [Meaning.doWhile, ih, Eval.doWhile, Eval.flowing_andThen]
    exact congrArg _ (funext fun _ => meaning_choose e _ (return .next))

/-- A test of two values for being equal, by the operator. -/
theorem meaning_equal (tested v : Expr) (span : Span) :
    env.meaning.condition (.binary .eq tested v span) =
      (Eval.equal (tested.evalValue env) (v.evalValue env)).halting := by
  have hvalue : (Expr.binary .eq tested v span).evalValue env = (do
      let x ← tested.evalValue env
      let y ← v.evalValue env
      return if x = y then 1 else 0) := by
    have hassign : BinaryOperator.eq ≠ .assign := by decide
    have hternary : BinaryOperator.eq ≠ .ternary := by decide
    rw [Expr.evalValue, Expr.eval_binary hassign fun _ _ _ ho => absurd ho hternary, Eval.value,
      bind_assoc]
    congr 1
    funext x
    rw [bind_assoc]
    rfl
  rw [meaning_condition, hvalue, Eval.halting_bind, Eval.equal, Eval.halting_bind, bind_assoc]
  congr 1
  funext x
  rw [Eval.halting_bind, Eval.halting_bind, bind_assoc]
  congr 1
  funext y
  by_cases hxy : x = y
  · rw [if_pos hxy, beq_iff_eq.2 hxy]
    rfl
  · rw [if_neg hxy, beq_eq_false_iff_ne.2 hxy]
    rfl

theorem meaning_anyEqual (tested : Expr) (vs : List Expr) :
    env.meaning.anyEqual tested vs =
      (Eval.anyEqual (tested.evalValue env) (vs.map (Expr.evalValue env))).halting := by
  induction vs with
  | nil => rfl
  | cons v vs ih =>
    rw [Meaning.anyEqual, List.map_cons, Eval.anyEqual, ih, meaning_equal, Eval.halting_bind]
    congr 1
    funext first
    rw [Eval.halting_bind]
    rfl

mutual

theorem meaning_stmt (env : EvalEnv) : ∀ st : Stmt, env.meaning.stmt st = (st.eval env).flowing
  | .ifElse c t none _ => by
    rw [Meaning.stmt, Stmt.eval, meaning_block env t]
    exact meaning_choose c _ (return .next)
  | .ifElse c t (some e) _ => by
    rw [Meaning.stmt, Stmt.eval, meaning_block env t, meaning_block env e]
    exact meaning_choose c _ _
  | .whileDo c b _ => by
    rw [Meaning.stmt, Stmt.eval, meaning_block env b]
    exact meaning_whileDo c _ _
  | .doWhile b c _ => by
    rw [Meaning.stmt, Stmt.eval, meaning_block env b]
    exact meaning_doWhile c _ _
  | .switch tested cs none _ => by
    rw [Meaning.stmt, Stmt.eval]
    exact meaning_cases env tested (return .next) cs
  | .switch tested cs (some d) _ => by
    rw [Meaning.stmt, Stmt.eval, meaning_block env d]
    exact meaning_cases env tested _ cs
  | .leave kind value _ => by
    rw [Meaning.stmt, Stmt.eval]
    rfl
  | .expr e => by
    rw [Meaning.stmt, Stmt.eval, Eval.flowing_bind]
    show Functor.map _ _ >>= _ = _
    rw [bind_map_left]
    rfl

theorem meaning_stmts (env : EvalEnv) :
    ∀ ss : List Stmt, env.meaning.stmts ss = (Stmt.evalList env ss).flowing
  | [] => by
    rw [Meaning.stmts, Stmt.evalList]
    rfl
  | st :: ss => by
    rw [Meaning.stmts, Stmt.evalList, meaning_stmt env st, meaning_stmts env ss,
      Eval.flowing_andThen]

theorem meaning_block (env : EvalEnv) : ∀ b : Block, env.meaning.block b = (b.eval env).flowing
  | ⟨ss, _⟩ => by
    rw [Meaning.block, Block.eval, meaning_stmts env ss, Eval.flowing_inBlock]
    rfl

theorem meaning_cases (env : EvalEnv) (tested : Expr) (otherwise : Eval Flow) :
    ∀ cs : List Case, env.meaning.cases tested otherwise.flowing cs =
      (Case.evalList env tested otherwise cs).flowing
  | [] => by rw [Meaning.cases, Case.evalList]
  | ⟨values, b, _⟩ :: cs => by
    rw [Meaning.cases, Case.evalList, meaning_block env b, meaning_cases env tested otherwise cs,
      meaning_anyEqual, Eval.flowing_bind]
    congr 1
    funext v
    cases v <;> rfl

end

end EvalEnv

/-- In a switch where two cases have the tested value, the first of them is run, and it has it only
as its last value. -/
theorem Meaning.ifChain_selects_repeated :
    let env : EvalEnv := ⟨.approval, fun _ _ => .error .stuck, 0⟩
    let x : Expr := .var (.name "x" default)
    let number (v : UInt64) : Expr := .uint v default
    let returning (v : UInt64) : Block := ⟨[.leave .returning (some (number v)) default], default⟩
    let cs : List Case := [⟨[number 1], returning 10, default⟩,
      ⟨[number 3, number 2], returning 20, default⟩, ⟨[number 2], returning 30, default⟩]
    let s : Store := fun n => if n = "x" then some 2 else none
    env.meaning.chain x none cs s = ((returning 20).eval env).flowing s := by
  intro env x number returning cs s
  have hselects := (@Meaning.ifChain_selects _ _ env.meaning x cs none default s 2
    (by decide) (by decide +kernel) rfl (by decide +kernel)).2
  rw [hselects, ← EvalEnv.meaning_block]
  rfl

end ContractCompiler
