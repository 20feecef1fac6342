import ContractCompiler.Lowering.Expr

/-!
# The integer fragment

The part of the language that computes with integers only: no byte strings, no casts, no hashes,
and no places but names.
-/

namespace ContractCompiler

mutual

/-- Whether an expression computes with integers only, and reads `readable` names only. -/
def Expr.isIntegral (readable : String → Bool) : Expr → Bool
  | .uint _ _ => true
  | .bytes _ _ => false
  | .unary _ e _ => e.isIntegral readable
  | .binary .assign _ r _ => r.isIntegral readable
  | .binary .ternary c (.binary .colon l r _) _ =>
    c.isIntegral readable && l.isIntegral readable && r.isIntegral readable
  | .binary .colon _ _ _ => false
  | .binary _ l r _ => l.isIntegral readable && r.isIntegral readable
  | .call f args _ => f != Builtin.hashFunction.1 && Expr.areIntegral readable args
  | .var (.name n _) => readable n
  | .var _ => false

/-- Whether several expressions compute with integers only. -/
def Expr.areIntegral (readable : String → Bool) : List Expr → Bool
  | [] => true
  | e :: es => e.isIntegral readable && Expr.areIntegral readable es

end

theorem Expr.areIntegral_eq (readable : String → Bool) (es : List Expr) :
    Expr.areIntegral readable es = es.all (Expr.isIntegral readable) := by
  induction es with
  | nil => rfl
  | cons e es ih => rw [Expr.areIntegral, ih, List.all_cons]

theorem Expr.isIntegral_operator {o : BinaryOperator} (ho : o.uintOpcode?.isSome) {l r : Expr}
    {span : Span} (readable : String → Bool) :
    (Expr.binary o l r span).isIntegral readable =
      (l.isIntegral readable && r.isIntegral readable) := by
  revert ho
  cases o <;> simp [Expr.isIntegral, BinaryOperator.uintOpcode?]

mutual

/-- Whether a statement computes with integers only. The message of a failure does not count, and
a switch must have cases, each with values. -/
def Stmt.isIntegral (readable : String → Bool) : Stmt → Bool
  | .ifElse c t none _ => c.isIntegral readable && t.isIntegral readable
  | .ifElse c t (some e) _ =>
    c.isIntegral readable && t.isIntegral readable && e.isIntegral readable
  | .whileDo c b _ => c.isIntegral readable && b.isIntegral readable
  | .doWhile b c _ => b.isIntegral readable && c.isIntegral readable
  | .switch t cases none _ =>
    t.isIntegral readable && !cases.isEmpty && Case.areIntegral readable cases
  | .switch t cases (some d) _ =>
    t.isIntegral readable && !cases.isEmpty && Case.areIntegral readable cases &&
      d.isIntegral readable
  | .leave .throwing _ _ => true
  | .leave _ value _ => value.all (Expr.isIntegral readable)
  | .expr e => e.isIntegral readable

/-- Whether several statements compute with integers only. -/
def Stmt.areIntegral (readable : String → Bool) : List Stmt → Bool
  | [] => true
  | s :: ss => s.isIntegral readable && Stmt.areIntegral readable ss

/-- Whether a block computes with integers only. -/
def Block.isIntegral (readable : String → Bool) : Block → Bool
  | ⟨ss, _⟩ => Stmt.areIntegral readable ss

/-- Whether cases compute with integers only, and have values. -/
def Case.areIntegral (readable : String → Bool) : List Case → Bool
  | [] => true
  | ⟨values, block, _⟩ :: cs =>
    !values.isEmpty && values.all (Expr.isIntegral readable) && block.isIntegral readable &&
      Case.areIntegral readable cs

end

end ContractCompiler
