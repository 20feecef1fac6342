import Mathlib.Algebra.Order.BigOperators.Group.List
import Mathlib.Algebra.Order.Group.Nat
import ContractCompiler.Proofs.Syntax.Amendment
import ContractCompiler.Syntax.Printer

/-!
# Relocated syntax

Spacing and comments change where tokens stand, but not which tokens there are. A relocation says
where each of them stands now. A relocated syntax tree differs from the tree in its spans only, so
whatever does not look at spans is the same of both.
-/

namespace ContractCompiler

/-- A change of places that keeps tokens apart by their offsets: what stands at an offset is moved
to another. -/
structure Relocation extends Amendment where
  offset : Nat → Nat
  offset_extent : ∀ e : Extent, (extent e).offset = offset e.offset
  constant_eq : ∀ (e : Extent) (value : UInt64), constant e value = value
  injective : ∀ {a b : Nat}, offset a = offset b → a = b

namespace Relocation

open Amendment

variable (σ : Relocation)

/-- A relocated token. -/
def token (t : Token) : Token :=
  { t with offset := (σ.extent t.extent).offset, len := (σ.extent t.extent).len }

@[simp] theorem start_span (s : Span) : (σ.span s).start = σ.offset s.start :=
  σ.offset_extent s.first

/-! ## What stays the same -/

mutual

theorem display_expr : ∀ e : Expr, (σ.expr e).display = e.display
  | .uint v s => by rw [expr, constant_eq, Expr.display, Expr.display]
  | .bytes v s => rfl
  | .unary op e s => by
    rw [expr, Expr.display, display_expr e, Expr.display]
  | .binary op l r s => by
    rw [expr, Expr.display, display_expr l, display_expr r, Expr.display]
  | .call f args s => by
    rw [expr, Expr.display, displayList_exprs args, Expr.display]
  | .var v => by
    rw [expr, Expr.display, display_place v, Expr.display]

theorem displayList_exprs : ∀ es : List Expr,
    Expr.displayList (σ.exprs es) = Expr.displayList es
  | [] => rfl
  | e :: es => by
    rw [exprs, Expr.displayList, display_expr e, displayList_exprs es, Expr.displayList]

theorem display_place : ∀ v : Variable, (σ.place v).display = v.display
  | .name n s => rfl
  | .index base i s => by
    rw [place, Variable.display, display_place base, display_expr i, Variable.display]
  | .member owner m s => by
    rw [place, Variable.display, display_place owner, Variable.display]

end

@[simp] theorem asName?_expr (e : Expr) : (σ.expr e).asName? = e.asName? := by
  cases e with
  | var v => cases v <;> rfl
  | _ => rfl

/-- What does not look at spans is found on a relocated tree as well. -/
theorem found_node {α : Type} {find : Node → Option α} (hfind : ∀ n, find (σ.node n) = find n)
    (n : Node) : (σ.node n).found find = n.found find := by
  induction hw : n.weight using Nat.strongRecOn generalizing n with
  | _ w ih =>
    rw [Node.found_eq, Node.found_eq, hfind, children_node, List.flatMap_map]
    congr 1
    exact List.flatMap_congr fun c hc =>
      ih c.weight (hw ▸ Node.weight_lt_of_mem_children hc) c rfl

/-! ## Nothing is moved -/

/-- The relocation that moves nothing. -/
def refl : Relocation :=
  ⟨⟨id, fun _ value => value⟩, id, fun _ => rfl, fun _ _ => rfl, id⟩

@[simp] theorem span_refl (s : Span) : refl.span s = s := rfl

mutual

theorem expr_refl : ∀ e : Expr, refl.expr e = e
  | .uint v s => rfl
  | .bytes v s => rfl
  | .unary op e s => by rw [expr, expr_refl e, span_refl]
  | .binary op l r s => by rw [expr, expr_refl l, expr_refl r, span_refl]
  | .call f args s => by rw [expr, exprs_refl args, span_refl]
  | .var v => by rw [expr, place_refl v]

theorem exprs_refl : ∀ es : List Expr, refl.exprs es = es
  | [] => rfl
  | e :: es => by rw [exprs, expr_refl e, exprs_refl es]

theorem place_refl : ∀ v : Variable, refl.place v = v
  | .name n s => rfl
  | .index base i s => by rw [place, place_refl base, expr_refl i, span_refl]
  | .member owner m s => by rw [place, place_refl owner, span_refl]

end

theorem map_expr_refl (es : List Expr) : es.map refl.expr = es := by
  rw [← exprs_eq, exprs_refl]

mutual

theorem stmt_refl : ∀ s : Stmt, refl.stmt s = s
  | .ifElse c t none s => by rw [stmt, expr_refl, block_refl t, span_refl]
  | .ifElse c t (some e) s => by rw [stmt, expr_refl, block_refl t, block_refl e, span_refl]
  | .whileDo c b s => by rw [stmt, expr_refl, block_refl b, span_refl]
  | .doWhile b c s => by rw [stmt, expr_refl, block_refl b, span_refl]
  | .switch e cs none s => by rw [stmt, expr_refl, cases_refl cs, span_refl]
  | .switch e cs (some d) s => by rw [stmt, expr_refl, cases_refl cs, block_refl d, span_refl]
  | .leave kind none s => by rw [stmt, Option.map_none, span_refl]
  | .leave kind (some e) s => by rw [stmt, Option.map_some, expr_refl, span_refl]
  | .expr e => by rw [stmt, expr_refl]

theorem stmts_refl : ∀ ss : List Stmt, refl.stmts ss = ss
  | [] => rfl
  | s :: ss => by rw [stmts, stmt_refl s, stmts_refl ss]

theorem block_refl : ∀ b : Block, refl.block b = b
  | ⟨ss, s⟩ => by rw [block, stmts_refl ss, span_refl]

theorem cases_refl : ∀ cs : List Case, refl.cases cs = cs
  | [] => rfl
  | ⟨values, b, s⟩ :: cs => by
    rw [cases, map_expr_refl, block_refl b, span_refl, cases_refl cs]

end

theorem function_refl (f : Function) : refl.function f = f := by
  rw [function, block_refl, span_refl]

end Relocation

end ContractCompiler
