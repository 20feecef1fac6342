import ContractCompiler.Proofs.Typing.Pending

/-!
# Values of definite types

The analysis accepts more than there is code for. A name may be evaluated that stands for no value,
a cast may lead to a structure, and a variable may be taken for a hash algorithm. A byte string that
is joined to a value of type any, or kept in a variable of that type, is of type any from then on,
although the code knows it for a byte string. What does none of this is definite.
-/

namespace ContractCompiler

/-- Whether an expression is of a type of values. -/
def Expr.hasValue (env : CheckEnv) (cs : CheckState) (e : Expr) : Bool :=
  (e.type? env cs).any env.types.isValue

/-- Whether an expression is the name of a type. -/
def Expr.namesType (cs : CheckState) (e : Expr) : Bool :=
  e.asName?.any fun n => (cs.scopes.lookup? n).any (·.type == .type)

/-- Whether an expression is of type any, though its part `right`, which is checked from `cs'` on,
is a byte string. -/
def Expr.losesBytes (env : CheckEnv) (cs : CheckState) (e : Expr) (cs' : CheckState)
    (right : Expr) : Bool :=
  e.type? env cs == some .any && right.type? env cs' == some .bytes

/-- Whether an expression names a hash algorithm. -/
def Expr.namesHash (e : Expr) : Bool :=
  e.asName?.any Builtin.hashValues.contains

mutual

/-- Whether an expression that is checked from `cs` on is definite. -/
def Expr.isDefinite (env : CheckEnv) (cs : CheckState) : Expr → Bool
  | .uint _ _ | .bytes _ _ => true
  | .unary _ e _ => e.isDefinite env cs
  | .binary .assign target value span =>
    value.isDefinite env cs && !(Expr.binary .assign target value span).losesBytes env cs cs value
  | .binary .ternary c (.binary .colon l r _) _ =>
    let cs₁ := (c.check env).after cs
    c.isDefinite env cs && l.isDefinite env cs₁ && r.isDefinite env ((l.check env).after cs₁)
  | .binary .colon e target span =>
    e.isDefinite env cs && (Expr.binary .colon e target span).hasValue env cs
  | .binary o l r span =>
    if (o == .eq || o == .ne) && r.namesType cs then l.isDefinitePlace env cs
    else
      let cs₁ := (l.check env).after cs
      l.isDefinite env cs && r.isDefinite env cs₁ &&
        !(Expr.binary o l r span).losesBytes env cs cs₁ r
  | .call f args _ =>
    if f = Builtin.hashFunction.1 then
      match args with
      | [input, algorithm] => input.isDefinite env cs && algorithm.namesHash
      | _ => true
    else Expr.areDefinite env cs args
  | .var place => place.isDefinite env cs && (Expr.var place).hasValue env cs

/-- Whether the indexes of an expression are definite, if it is a place. -/
def Expr.isDefinitePlace (env : CheckEnv) (cs : CheckState) : Expr → Bool
  | .var place => place.isDefinite env cs
  | _ => true

/-- Whether expressions in a row are definite. -/
def Expr.areDefinite (env : CheckEnv) (cs : CheckState) : List Expr → Bool
  | [] => true
  | e :: es => e.isDefinite env cs && Expr.areDefinite env ((e.check env).after cs) es

/-- Whether the indexes of a place are definite. -/
def Variable.isDefinite (env : CheckEnv) (cs : CheckState) : Variable → Bool
  | .name _ _ => true
  | .index base i _ => base.isDefinite env cs && i.isDefinite env ((base.check env).after cs)
  | .member owner _ _ => owner.isDefinite env cs

end

/-- Whether an expression whose value is not wanted is definite. -/
def Expr.isDefiniteStmt (env : CheckEnv) (cs : CheckState) : Expr → Bool
  | .binary .assign _ value _ => value.isDefinite env cs
  | e => e.isDefinite env cs

/-- Whether the tested expression of a switch is definite. There is no code for it if there are no
cases; then it must not declare anything. -/
def Expr.isDefiniteTested (env : CheckEnv) (cs : CheckState) (cases : List Case) (tested : Expr) :
    Bool :=
  if cases.isEmpty then tested.assigned.isEmpty else tested.isDefinite env cs

mutual

/-- Whether a statement that is checked from `cs` on is definite. -/
def Stmt.isDefinite (env : CheckEnv) (cs : CheckState) : Stmt → Bool
  | .ifElse c a none _ | .whileDo c a _ =>
    c.isDefinite env cs && a.isDefinite env ((c.check env).after cs)
  | .ifElse c a (some b) _ =>
    let cs₁ := (c.check env).after cs
    c.isDefinite env cs && a.isDefinite env cs₁ && b.isDefinite env ((a.check env).after cs₁)
  | .doWhile b c _ => b.isDefinite env cs && c.isDefinite env ((b.check env).after cs)
  | .switch tested cases none _ =>
    tested.isDefiniteTested env cs cases &&
      Case.areDefinite env ((tested.check env).after cs) (fun _ => true) cases
  | .switch tested cases (some b) _ =>
    tested.isDefiniteTested env cs cases &&
      Case.areDefinite env ((tested.check env).after cs) (fun cs => b.isDefinite env cs) cases
  | .leave _ none _ => true
  | .leave _ (some e) _ => e.isDefinite env cs
  | .expr e => e.isDefiniteStmt env cs

/-- Whether statements in a row are definite. -/
def Stmt.areDefinite (env : CheckEnv) (cs : CheckState) : List Stmt → Bool
  | [] => true
  | s :: ss => s.isDefinite env cs && Stmt.areDefinite env ((s.check env).after cs) ss

/-- Whether a block is definite. -/
def Block.isDefinite (env : CheckEnv) (cs : CheckState) : Block → Bool
  | ⟨ss, _⟩ => Stmt.areDefinite env { cs with scopes := cs.scopes.push .clear } ss

/-- Whether the cases of a switch are definite, and `otherwise` holds after them. -/
def Case.areDefinite (env : CheckEnv) (cs : CheckState) (otherwise : CheckState → Bool) :
    List Case → Bool
  | [] => otherwise cs
  | ⟨values, b, _⟩ :: cases =>
    let cs₁ := Expr.afterValues env cs values
    Expr.areDefinite env cs values && b.isDefinite env cs₁ &&
      Case.areDefinite env ((b.check env).after cs₁) otherwise cases

end

/-- The body of a function is definite. -/
def Function.IsDefinite (p : Program) (mode : Mode) (f : Function) : Prop :=
  f.body.isDefinite (p.checkEnv mode f) (f.startState mode) = true

instance (p : Program) (mode : Mode) (f : Function) : Decidable (f.IsDefinite p mode) :=
  inferInstanceAs (Decidable (_ = true))

/-! ## Parts of what is definite -/

variable {env : CheckEnv} {cs cs' cs₁ cs₂ : CheckState} {e c l r : Expr} {span span' : Span}
  {τ τr : TypeId}

theorem Expr.isDefinite_operator {o : BinaryOperator} (ho : o.uintOpcode?.isSome) :
    (Expr.binary o l r span).isDefinite env cs =
      if (o == .eq || o == .ne) && r.namesType cs then l.isDefinitePlace env cs
      else l.isDefinite env cs && r.isDefinite env ((l.check env).after cs) &&
        !(Expr.binary o l r span).losesBytes env cs ((l.check env).after cs) r := by
  rw [Expr.isDefinite]
  all_goals
    intros
    subst_vars
    cases ho

theorem Expr.isDefinite_call {f : String} (hf : f ≠ Builtin.hashFunction.1) {args : List Expr} :
    (Expr.call f args span).isDefinite env cs = Expr.areDefinite env cs args := by
  match args with
  | [] | [_] | [_, _] | _ :: _ :: _ :: _ =>
    rw [Expr.isDefinite, if_neg hf]
    all_goals simp

theorem Stmt.isDefinite_switch {tested : Expr} {cases : List Case} {otherwise : Option Block} :
    (Stmt.switch tested cases otherwise span).isDefinite env cs =
      (tested.isDefiniteTested env cs cases && Case.areDefinite env ((tested.check env).after cs)
        (fun cs => otherwise.all fun b => b.isDefinite env cs) cases) := by
  cases otherwise <;> rfl

/-- What is of type any has no byte string for its right part, unless that is lost. -/
theorem Expr.losesBytes_eq_false {cs₃ : CheckState} (he : e.check env cs = .ok (τ, cs'))
    (hr : r.check env cs₁ = .ok (τr, cs₃)) (h : e.losesBytes env cs cs₁ r = false)
    (hbytes : τr = .bytes) : τ ≠ .any := by
  rintro rfl
  subst hbytes
  rw [losesBytes, Expr.type?_eq he, Expr.type?_eq hr] at h
  exact absurd h (by decide)

theorem Expr.hasValue_eq (he : e.check env cs = .ok (τ, cs')) :
    e.hasValue env cs = env.types.isValue τ := by
  rw [hasValue, Expr.type?_eq he, Option.any_some]

end ContractCompiler
