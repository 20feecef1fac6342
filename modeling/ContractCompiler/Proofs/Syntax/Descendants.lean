import ContractCompiler.Lowering.Reach

/-!
# Walking a syntax tree

The walk over a stack of nodes finds what a recursion over the tree finds: a node, then what is
below its children, one after the other.
-/

namespace ContractCompiler

namespace Node

/-- What was visited before stays in front. -/
theorem visit_acc (stack acc : List Node) : visit stack acc = acc.reverse ++ visit stack [] := by
  induction hw : weightAll stack using Nat.strongRecOn generalizing stack acc with
  | _ w ih =>
    cases stack with
    | nil => simp [visit]
    | cons n rest =>
      have hlt : weightAll (n.children ++ rest) < w := by
        have hweight := weight_eq n
        rw [weightAll_cons] at hw
        rw [weightAll_append]
        omega
      rw [visit, visit, ih _ hlt _ (n :: acc) rfl, ih _ hlt _ [n] rfl]
      simp

/-- Nodes that are still to be visited are visited one after the other. -/
theorem visit_eq (stack : List Node) : visit stack [] = stack.flatMap descendants := by
  induction hw : weightAll stack using Nat.strongRecOn generalizing stack with
  | _ w ih =>
    cases stack with
    | nil => simp [visit]
    | cons n rest =>
      have hweight := weight_eq n
      rw [weightAll_cons] at hw
      have hlt : weightAll (n.children ++ rest) < w := by
        rw [weightAll_append]
        omega
      have hchildren : weightAll n.children < w := by omega
      rw [visit, visit_acc, ih _ hlt _ rfl, List.flatMap_append, List.flatMap_cons, descendants,
        visit, List.append_nil, visit_acc, ih _ hchildren _ rfl]
      simp

/-- A node comes before what is below its children. -/
theorem descendants_eq (n : Node) : n.descendants = n :: n.children.flatMap descendants := by
  rw [descendants, visit, List.append_nil, visit_acc, visit_eq]
  rfl

/-- `n.Below m`: the node `m` is `n`, or it stands somewhere below `n`. -/
inductive Below : Node → Node → Prop where
  | refl {n : Node} : Below n n
  | child {n c m : Node} (hc : c ∈ n.children) (h : Below c m) : Below n m

theorem Below.trans {n m k : Node} (h : n.Below m) (h' : m.Below k) : n.Below k := by
  induction h with
  | refl => exact h'
  | child hc _ ih => exact .child hc (ih h')

theorem weight_lt_of_mem_children {n c : Node} (hc : c ∈ n.children) : c.weight < n.weight := by
  obtain ⟨before, after, hsplit⟩ := List.append_of_mem hc
  rw [weight_eq n, hsplit, weightAll_append, weightAll_cons]
  omega

/-- The walk meets what stands below a node. -/
theorem mem_descendants_iff {n m : Node} : m ∈ n.descendants ↔ n.Below m := by
  constructor
  · induction hw : n.weight using Nat.strongRecOn generalizing n with
    | _ w ih =>
      intro h
      rw [descendants_eq, List.mem_cons, List.mem_flatMap] at h
      rcases h with rfl | ⟨c, hc, h⟩
      · exact .refl
      · exact .child hc (ih _ (hw ▸ weight_lt_of_mem_children hc) rfl h)
  · intro h
    induction h with
    | refl =>
      rw [descendants_eq]
      exact List.mem_cons_self
    | child hc _ ih =>
      rw [descendants_eq]
      exact List.mem_cons_of_mem _ (List.mem_flatMap.2 ⟨_, hc, ih⟩)

/-- What is found from a node on downwards. -/
def found {α : Type} (find : Node → Option α) (n : Node) : List α :=
  n.descendants.filterMap find

theorem found_eq {α : Type} (find : Node → Option α) (n : Node) :
    n.found find = (find n).toList ++ n.children.flatMap (found find) := by
  rw [found, descendants_eq, List.filterMap_cons, List.filterMap_flatMap]
  cases find n <;> rfl

/-- What is found below a child is found below the node. -/
theorem found_subset {α : Type} (find : Node → Option α) {n child : Node}
    (h : child ∈ n.children) : child.found find ⊆ n.found find := by
  intro a ha
  rw [found_eq find n]
  exact List.mem_append_right _ (List.mem_flatMap.2 ⟨child, h, ha⟩)

section Constructors

variable {α : Type} (find : Node → Option α)

theorem found_unary (op : UnaryOperator) (e : Expr) (span : Span) :
    (expr (.unary op e span)).found find =
      (find (expr (.unary op e span))).toList ++ (expr e).found find := by
  rw [found_eq]
  simp [children, ofExpr]

theorem found_binary (op : BinaryOperator) (l r : Expr) (span : Span) :
    (expr (.binary op l r span)).found find =
      (find (expr (.binary op l r span))).toList ++ ((expr l).found find ++ (expr r).found find) := by
  rw [found_eq]
  simp [children, ofExpr]

theorem found_call (f : String) (args : List Expr) (span : Span) :
    (expr (.call f args span)).found find =
      (find (expr (.call f args span))).toList ++ args.flatMap fun e => (expr e).found find := by
  rw [found_eq]
  simp [children, ofExpr, List.flatMap_map]

theorem found_var (v : Variable) :
    (expr (.var v)).found find = (find (expr (.var v))).toList ++ (place v).found find := by
  rw [found_eq]
  simp [children, ofExpr]

theorem found_name (n : String) (span : Span) :
    (place (.name n span)).found find = (find (place (.name n span))).toList := by
  rw [found_eq]
  simp [children, ofVariable]

theorem found_index (base : Variable) (i : Expr) (span : Span) :
    (place (.index base i span)).found find =
      (find (place (.index base i span))).toList ++
        ((place base).found find ++ (expr i).found find) := by
  rw [found_eq]
  simp [children, ofVariable]

theorem found_member (owner : Variable) (m : String) (span : Span) :
    (place (.member owner m span)).found find =
      (find (place (.member owner m span))).toList ++ (place owner).found find := by
  rw [found_eq]
  simp [children, ofVariable]

end Constructors

/-- The name that a node assigns, if it is an assignment to a name. -/
def assignedName? (n : Node) : Option String :=
  n.assignment?.bind fun a => a.target.asName?

/-- The name of the function that a node calls, if it is a call. -/
def calledName? (n : Node) : Option String :=
  n.call?.map Call.callee

/-- The case that a node is, if it is one. -/
def case? : Node → Option Case
  | case c => some c
  | _ => none

/-- The names of the functions that are called from a node on downwards. -/
def called (n : Node) : List String :=
  n.found calledName?

/-- What is called below a node that is no call itself is called below its children. -/
theorem called_children {n : Node} (h : n.calledName? = none) :
    n.called = n.children.flatMap called := by
  rw [called, found_eq, h]
  rfl

theorem called_eq (n : Node) : n.called = n.calls.map Call.callee := by
  rw [called, found, calls, List.map_filterMap]
  rfl

end Node

/-! ## Names that are assigned and called -/

/-- The names that an expression assigns. -/
def Expr.assigned (e : Expr) : List String :=
  (Node.expr e).found Node.assignedName?

/-- The names that the indexes of a place assign. -/
def Variable.assigned (v : Variable) : List String :=
  (Node.place v).found Node.assignedName?

/-- The names of the functions that an expression calls. -/
def Expr.called (e : Expr) : List String :=
  (Node.expr e).called

/-- The names of the functions that the indexes of a place call. -/
def Variable.called (v : Variable) : List String :=
  (Node.place v).called

@[simp] theorem Node.called_expr (e : Expr) : (Node.expr e).called = e.called :=
  rfl

theorem Stmt.assignedNames_eq (ss : List Stmt) :
    Stmt.assignedNames ss = (ss.flatMap ownExpressions).flatMap Expr.assigned := by
  rw [Stmt.assignedNames, List.filterMap_flatMap]
  congr 1
  funext e
  rw [Node.assignments, List.filterMap_filterMap]
  rfl

namespace Expr

@[simp] theorem assigned_uint (v : UInt64) (span : Span) : (uint v span).assigned = [] := by
  rw [assigned, Node.found_eq]
  rfl

@[simp] theorem assigned_bytes (v : List UInt8) (span : Span) :
    (bytes v span).assigned = [] := by
  rw [assigned, Node.found_eq]
  rfl

@[simp] theorem assigned_unary (op : UnaryOperator) (e : Expr) (span : Span) :
    (unary op e span).assigned = e.assigned :=
  Node.found_unary _ op e span

@[simp] theorem assigned_assign (n : String) (r : Expr) (span span' : Span) :
    (binary .assign (.var (.name n span)) r span').assigned = n :: r.assigned := by
  rw [assigned, Node.found_binary, Node.found_var, Node.found_name]
  rfl

theorem assigned_binary {op : BinaryOperator} (h : op ≠ .assign) (l r : Expr) (span : Span) :
    (binary op l r span).assigned = l.assigned ++ r.assigned := by
  have hnone : (Node.expr (binary op l r span)).assignedName? = none := by
    cases op <;> first | rfl | exact absurd rfl h
  rw [assigned, Node.found_binary, hnone]
  rfl

@[simp] theorem assigned_call (f : String) (args : List Expr) (span : Span) :
    (call f args span).assigned = args.flatMap assigned :=
  Node.found_call _ f args span

@[simp] theorem assigned_var (v : Variable) : (var v).assigned = v.assigned :=
  Node.found_var _ v

@[simp] theorem called_uint (v : UInt64) (span : Span) : (uint v span).called = [] := by
  rw [called, Node.called, Node.found_eq]
  rfl

@[simp] theorem called_bytes (v : List UInt8) (span : Span) : (bytes v span).called = [] := by
  rw [called, Node.called, Node.found_eq]
  rfl

@[simp] theorem called_unary (op : UnaryOperator) (e : Expr) (span : Span) :
    (unary op e span).called = e.called :=
  Node.found_unary _ op e span

@[simp] theorem called_binary (op : BinaryOperator) (l r : Expr) (span : Span) :
    (binary op l r span).called = l.called ++ r.called :=
  Node.found_binary _ op l r span

@[simp] theorem called_call (f : String) (args : List Expr) (span : Span) :
    (call f args span).called = f :: args.flatMap called :=
  Node.found_call _ f args span

@[simp] theorem called_var (v : Variable) : (var v).called = v.called :=
  Node.found_var _ v

end Expr

namespace Variable

@[simp] theorem assigned_name (n : String) (span : Span) : (name n span).assigned = [] :=
  Node.found_name _ n span

@[simp] theorem assigned_index (base : Variable) (i : Expr) (span : Span) :
    (index base i span).assigned = base.assigned ++ i.assigned :=
  Node.found_index _ base i span

@[simp] theorem assigned_member (owner : Variable) (m : String) (span : Span) :
    (member owner m span).assigned = owner.assigned :=
  Node.found_member _ owner m span

@[simp] theorem called_name (n : String) (span : Span) : (name n span).called = [] :=
  Node.found_name _ n span

@[simp] theorem called_index (base : Variable) (i : Expr) (span : Span) :
    (index base i span).called = base.called ++ i.called :=
  Node.found_index _ base i span

@[simp] theorem called_member (owner : Variable) (m : String) (span : Span) :
    (member owner m span).called = owner.called :=
  Node.found_member _ owner m span

end Variable

end ContractCompiler
