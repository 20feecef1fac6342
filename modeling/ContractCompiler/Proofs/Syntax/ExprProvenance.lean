import Mathlib.Data.List.Forall2
import ContractCompiler.Syntax.ExprReader
import ContractCompiler.Proofs.Syntax.Descendants

/-!
# Names and cut tokens

The places where the names of an expression stand, and the ways in which the tokens of an expression
are cut.
-/

namespace ContractCompiler

theorem ok_of_bind {ε α β : Type} {x : Except ε α} {f : α → Except ε β} {b : β}
    (h : x >>= f = .ok b) : ∃ a, x = .ok a ∧ f a = .ok b := by
  cases x with
  | error e => cases h
  | ok a => exact ⟨a, rfl, h⟩

theorem forall₂_of_mapM {ε α β : Type} {f : α → Except ε β} {as : List α} {bs : List β}
    (h : as.mapM f = .ok bs) : List.Forall₂ (fun a b => f a = .ok b) as bs := by
  induction as generalizing bs with
  | nil =>
    rw [List.mapM_nil] at h
    cases h
    exact .nil
  | cons a as ih =>
    rw [List.mapM_cons] at h
    obtain ⟨b, hb, h⟩ := ok_of_bind h
    obtain ⟨bs', hbs, h⟩ := ok_of_bind h
    cases h
    exact .cons hb (ih hbs)

/-! ## Places of names -/

/-- The offset of the name that a node is, if it is one. -/
def Node.nameOffset? : Node → Option Nat
  | place (.name _ span) => some span.start
  | _ => none

/-- The offsets of the names in an expression, in source order. -/
def Expr.nameOffsets (e : Expr) : List Nat :=
  (Node.expr e).found Node.nameOffset?

/-- The offsets of the names in a place, in source order. -/
def Variable.nameOffsets (v : Variable) : List Nat :=
  (Node.place v).found Node.nameOffset?

namespace Expr

@[simp] theorem nameOffsets_uint (v : UInt64) (span : Span) : (uint v span).nameOffsets = [] := by
  rw [nameOffsets, Node.found_eq]
  rfl

@[simp] theorem nameOffsets_bytes (v : List UInt8) (span : Span) :
    (bytes v span).nameOffsets = [] := by
  rw [nameOffsets, Node.found_eq]
  rfl

@[simp] theorem nameOffsets_unary (op : UnaryOperator) (e : Expr) (span : Span) :
    (unary op e span).nameOffsets = e.nameOffsets :=
  Node.found_unary _ op e span

@[simp] theorem nameOffsets_binary (op : BinaryOperator) (l r : Expr) (span : Span) :
    (binary op l r span).nameOffsets = l.nameOffsets ++ r.nameOffsets :=
  Node.found_binary _ op l r span

@[simp] theorem nameOffsets_call (f : String) (args : List Expr) (span : Span) :
    (call f args span).nameOffsets = args.flatMap nameOffsets :=
  Node.found_call _ f args span

@[simp] theorem nameOffsets_var (v : Variable) : (var v).nameOffsets = v.nameOffsets :=
  Node.found_var _ v

end Expr

namespace Variable

@[simp] theorem nameOffsets_name (n : String) (span : Span) :
    (name n span).nameOffsets = [span.start] :=
  Node.found_name _ n span

@[simp] theorem nameOffsets_index (base : Variable) (i : Expr) (span : Span) :
    (index base i span).nameOffsets = base.nameOffsets ++ i.nameOffsets :=
  Node.found_index _ base i span

@[simp] theorem nameOffsets_member (owner : Variable) (m : String) (span : Span) :
    (member owner m span).nameOffsets = owner.nameOffsets :=
  Node.found_member _ owner m span

end Variable

/-! ## Cutting tokens -/

namespace Run

variable {β : Type} {sep : Symbol → Option β}

/-- The tokens of pieces, each with its separator. -/
def pieces (parts : List (List Token × Token × β)) : List Token :=
  parts.flatMap fun part => part.1 ++ [part.2.1]

theorem splitFrom_eq {toks piece : List Token} {depth : Nat}
    {done parts : List (List Token × Token × β)} {last : List Token}
    (h : splitFrom sep toks depth piece done = (parts, last)) :
    pieces parts ++ last = pieces done.reverse ++ piece.reverse ++ toks := by
  fun_induction splitFrom sep toks depth piece done with
  | case1 =>
    cases h
    simp
  | case2 _ _ _ _ _ _ ih => simpa using ih h
  | case3 _ _ _ _ _ _ _ _ ih => simpa [pieces] using ih h
  | case4 _ _ _ _ _ _ _ _ ih => simpa using ih h

/-- Splitting loses no token. -/
theorem split_eq {toks : List Token} {parts : List (List Token × Token × β)} {last : List Token}
    (h : split sep toks = (parts, last)) : toks = pieces parts ++ last := by
  simpa [pieces] using (splitFrom_eq h).symm

theorem collectOnto_eq {toks acc run rest : List Token} {closers : List Symbol}
    (h : collectOnto toks closers acc = .ok (run, rest)) : run.reverse ++ rest = acc.reverse ++ toks := by
  fun_induction collectOnto toks closers acc with
  | case1 => cases h; simp
  | case2 | case7 => cases h
  | case4 => cases h; simp
  | case3 _ _ _ _ _ ih | case5 _ _ _ _ _ _ ih | case6 _ _ _ _ _ _ _ ih
  | case8 _ _ _ _ _ _ _ _ ih => simpa using ih h

/-- A run and what follows it are all the tokens. -/
theorem collect_eq {toks run rest : List Token} (h : collect toks = .ok (run, rest)) :
    toks = run ++ rest := by
  obtain ⟨⟨acc, rest'⟩, hcollect, h⟩ := ok_of_bind h
  cases h
  simpa using (collectOnto_eq hcollect).symm

end Run

end ContractCompiler
