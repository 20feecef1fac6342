import ContractCompiler.Proofs.Typing.Programs

/-!
# Names without a value

The analysis takes a name for declared once the text before assigns it. But some parts of the text
may be passed over when a program runs: an arm of a choice, the values of a case after the first,
and the tested expression of a switch without cases. A name that such a part declares is pending,
until it is assigned in a part that is not passed over.
-/

namespace ContractCompiler

/-- The names among `ns` that are not known. -/
def CheckState.unknown (cs : CheckState) (ns : List String) : List String :=
  ns.filter fun n => (cs.scopes.lookup? n).isNone

mutual

/-- The names that are pending after an expression, if `ns` are before it. -/
def Expr.pending? (env : CheckEnv) (cs : CheckState) (ns : List String) :
    Expr → Option (List String)
  | .uint _ _ | .bytes _ _ => some ns
  | .unary _ e _ => e.pending? env cs ns
  | .binary .assign (.var (.name n _)) value _ => do
    let ns ← value.pending? env cs ns
    return ns.filter (· ≠ n)
  | .binary .ternary c (.binary .colon l r _) _ => do
    let cs₁ := (c.check env).after cs
    let cs₂ := (l.check env).after cs₁
    let ns ← c.pending? env cs ns
    let left ← l.pending? env cs₁ ns
    -- Where the arm on the right is taken, the other one has declared its names in vain.
    let right ← r.pending? env cs₂ (ns ++ cs₁.unknown l.assigned)
    return left ++ cs₂.unknown r.assigned ++ right
  | .binary .colon e _ _ => e.pending? env cs ns
  | .binary _ l r _ => do
    let ns ← l.pending? env cs ns
    r.pending? env ((l.check env).after cs) ns
  | .call _ args _ => Expr.pendingList? env cs ns args
  | .var place => place.pending? env cs ns

/-- The names that are pending after expressions in a row. -/
def Expr.pendingList? (env : CheckEnv) (cs : CheckState) (ns : List String) :
    List Expr → Option (List String)
  | [] => some ns
  | e :: es => do
    let ns ← e.pending? env cs ns
    Expr.pendingList? env ((e.check env).after cs) ns es

/-- The names that are pending after a place is read. -/
def Variable.pending? (env : CheckEnv) (cs : CheckState) (ns : List String) :
    Variable → Option (List String)
  | .name n _ => if n ∈ ns then none else some ns
  | .index base i _ => do
    let ns ← base.pending? env cs ns
    i.pending? env ((base.check env).after cs) ns
  | .member owner _ _ => owner.pending? env cs ns

end

/-- The names that are pending after the tested expression of a switch, which is passed over if
there are no cases. -/
def Expr.pendingTested? (env : CheckEnv) (cs : CheckState) (ns : List String) (cases : List Case)
    (tested : Expr) : Option (List String) :=
  if cases.isEmpty then some (ns ++ cs.unknown tested.assigned) else tested.pending? env cs ns

/-- The state after the values of a case. -/
def Expr.afterValues (env : CheckEnv) (cs : CheckState) (es : List Expr) : CheckState :=
  es.foldl (fun cs e => (e.check env).after cs) cs

mutual

/-- The names that are pending after a statement. -/
def Stmt.pending? (env : CheckEnv) (cs : CheckState) (ns : List String) :
    Stmt → Option (List String)
  | .ifElse c a none _ => do
    let ns ← c.pending? env cs ns
    let _ ← a.pending? env ((c.check env).after cs) ns
    return ns
  | .ifElse c a (some b) _ => do
    let cs₁ := (c.check env).after cs
    let ns ← c.pending? env cs ns
    let left ← a.pending? env cs₁ ns
    let right ← b.pending? env ((a.check env).after cs₁) ns
    return left ++ right
  | .whileDo c b _ => do
    let ns ← c.pending? env cs ns
    let _ ← b.pending? env ((c.check env).after cs) ns
    return ns
  | .doWhile b c _ => do
    let ns ← b.pending? env cs ns
    c.pending? env ((b.check env).after cs) ns
  | .switch tested cases none _ => do
    let ns ← tested.pendingTested? env cs ns cases
    Case.pendingList? env ((tested.check env).after cs) ns (fun _ ns => some ns) cases
  | .switch tested cases (some b) _ => do
    let ns ← tested.pendingTested? env cs ns cases
    Case.pendingList? env ((tested.check env).after cs) ns (fun cs ns => b.pending? env cs ns) cases
  | .leave _ none _ => some ns
  | .leave _ (some e) _ | .expr e => e.pending? env cs ns

/-- The names that are pending after statements in a row. -/
def Stmt.pendingList? (env : CheckEnv) (cs : CheckState) (ns : List String) :
    List Stmt → Option (List String)
  | [] => some ns
  | s :: ss => do
    let ns ← s.pending? env cs ns
    Stmt.pendingList? env ((s.check env).after cs) ns ss

/-- The names that are pending after a block. -/
def Block.pending? (env : CheckEnv) (cs : CheckState) (ns : List String) :
    Block → Option (List String)
  | ⟨ss, _⟩ => Stmt.pendingList? env { cs with scopes := cs.scopes.push .clear } ns ss

/-- The names that are pending after the cases of a switch, by what is pending in the end where none
of them is taken. -/
def Case.pendingList? (env : CheckEnv) (cs : CheckState) (ns : List String)
    (otherwise : CheckState → List String → Option (List String)) :
    List Case → Option (List String)
  | [] => otherwise cs ns
  | ⟨values, b, _⟩ :: cases => do
    let cs₁ := Expr.afterValues env cs values
    let cs₂ := (b.check env).after cs₁
    let ns ← Expr.pendingList? env cs ns values
    let taken ← b.pending? env cs₁ ns
    let passed ← Case.pendingList? env cs₂ ns otherwise cases
    return taken ++ cs₂.unknown (cases.flatMap fun c => c.values.flatMap Expr.assigned) ++ passed

end

/-- No name is read in a body while it is pending. -/
def Function.ReadsDeclared (p : Program) (mode : Mode) (f : Function) : Prop :=
  (f.body.pending? (p.checkEnv mode f) (f.startState mode) []).isSome

instance (p : Program) (mode : Mode) (f : Function) : Decidable (f.ReadsDeclared p mode) :=
  inferInstanceAs (Decidable (_ = true))

/-! ## Equations -/

variable {env : CheckEnv} {cs cs' : CheckState} {ns ns' : List String}

/-- What is pending in the end of a switch, where no case is taken. -/
def Block.pendingElse? (env : CheckEnv) :
    Option Block → CheckState → List String → Option (List String)
  | none, _, ns => some ns
  | some b, cs, ns => b.pending? env cs ns

theorem Stmt.pending?_switch (tested : Expr) (cases : List Case) (otherwise : Option Block)
    (span : Span) :
    (Stmt.switch tested cases otherwise span).pending? env cs ns =
      (tested.pendingTested? env cs ns cases).bind fun ns =>
        Case.pendingList? env ((tested.check env).after cs) ns (Block.pendingElse? env otherwise)
          cases := by
  cases otherwise <;> rfl

theorem Expr.pending?_operator {o : BinaryOperator} (ho : o.uintOpcode?.isSome) (l r : Expr)
    (span : Span) :
    (Expr.binary o l r span).pending? env cs ns =
      (l.pending? env cs ns).bind fun ns => r.pending? env ((l.check env).after cs) ns := by
  rw [Expr.pending?]
  · rfl
  all_goals
    intros
    subst_vars
    cases ho

theorem Expr.afterValues_eq {τ : TypeId} {es : List Expr}
    (h : checkCaseValues env τ es cs = .ok ((), cs')) : Expr.afterValues env cs es = cs' := by
  induction es generalizing cs with
  | nil =>
    simp only [checkCaseValues, Check.pure_eq_ok] at h
    exact h.2
  | cons e es ih =>
    obtain ⟨τe, cs₁, he, -, -, hes⟩ := checkCaseValues_cons.1 h
    rw [afterValues, List.foldl_cons, Check.after_eq he]
    exact ih hes

end ContractCompiler
