import ContractCompiler.Proofs.Lowering.Programs

/-!
# Types on the stack

The analysis gives every expression a type. The code knows of a value on the stack only whether it
is an integer or a byte string, and less where two ways meet, where a value is stored and kept, or
where a function returns. The forms of operators go by what is known on the stack, so they go by the
types of the analysis as far as those show on the stack.
-/

namespace ContractCompiler

open Lower

variable {S : Setting} {names : List String} {cs cs' : CheckState} {τ : TypeId}

/-! ## What types show -/

/-- What the type of an expression shows of its value: nothing if it is no type of values, or if a
variable can hold anything. -/
def Expr.shownByType? (env : CheckEnv) (cs : CheckState) (e : Expr) : Option StackType :=
  (e.type? env cs).bind fun τ =>
    if env.types.isValue τ && !(τ == .any && e.asName?.isSome) then some (env.stackType τ) else none

/-- What is shown of the value of an operator on two values, by what is shown of those. -/
def BinaryOperator.shown? : (left right : Option StackType) → Option StackType
  | some .bytes, _ | _, some .bytes => some .bytes
  | some _, some _ => some .uint64
  | _, _ => none

/-- What the types that the analysis gives to its parts show of the value of an expression. -/
def Expr.shown? (env : CheckEnv) (cs : CheckState) : Expr → Option StackType
  | .unary .complement e _ =>
    (e.shown? env cs).map fun k => if k = .bytes then .bytes else .uint64
  | .binary .assign _ value _ => value.shown? env cs
  | .binary .ternary c (.binary .colon l r _) _ => do
    let left ← l.shown? env ((c.check env).after cs)
    let right ← r.shown? env ((l.check env).after ((c.check env).after cs))
    return right.join left
  | .binary o l r span =>
    if o.uintOpcode?.isSome && !(o.isComparison || o.isLogical) then
      BinaryOperator.shown? (l.shown? env cs) (r.shown? env ((l.check env).after cs))
    else (Expr.binary o l r span).shownByType? env cs
  | e => e.shownByType? env cs

section Shown

variable {env : CheckEnv} {e l r : Expr} {span : Span} {k : StackType}

/-- What is shown by the type of an expression. -/
theorem Expr.Sited.shownByType? (h : e.Sited S names cs cs' τ)
    (hk : e.shownByType? S.check cs = some k) :
    Builtin.checkedTypes.isValue τ ∧ (τ = .any → e.asName? = none) ∧ k = Builtin.stackType τ := by
  rw [Expr.shownByType?, Expr.type?_eq h.check, Option.bind_some, Option.ite_none_right_eq_some,
    S.stackType_eq, S.types_eq] at hk
  obtain ⟨hif, hk⟩ := hk
  simp only [Bool.and_eq_true, Bool.not_eq_true', Bool.and_eq_false_iff, beq_eq_false_iff_ne,
    Option.isSome_eq_false_iff, Option.isNone_iff_eq_none] at hif
  exact ⟨hif.1, fun hany => hif.2.resolve_left (absurd hany), (Option.some.inj hk).symm⟩

end Shown

/-! ## What is known on the stack -/

namespace Known

/-- The type that the analysis gives to an operand. -/
def type? (x : Known) : Option TypeId :=
  x.expr.type? x.env x.state

/-- What the types of its parts show of an operand. -/
def shown? (x : Known) : Option StackType :=
  x.expr.shown? x.env x.state

end Known

section Follows

variable {t : Nat} {e : Expr} {code : List Instruction} {k : StackType}

end Follows

end ContractCompiler
