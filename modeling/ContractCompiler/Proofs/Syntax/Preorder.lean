import Mathlib.Data.List.Basic
import Mathlib.Logic.Function.Iterate
import ContractCompiler.Proofs.Syntax.Descendants

/-!
# The order of a walk

The walk over a stack of nodes meets a node before its parts and the parts in source order. It meets
what stands at each place of the tree once, and ends.
-/

namespace ContractCompiler

/-! ## Recursion over the syntax -/

mutual

/-- The nodes of an expression in source order, each before its parts. -/
def Expr.preorder : Expr → List Node
  | .uint value span => [.expr (.uint value span)]
  | .bytes value span => [.expr (.bytes value span)]
  | .unary op operand span => .expr (.unary op operand span) :: operand.preorder
  | .binary op left right span =>
    .expr (.binary op left right span) :: (left.preorder ++ right.preorder)
  | .call callee args span => .expr (.call callee args span) :: Expr.preorderList args
  | .var place => .expr (.var place) :: place.preorder

/-- The nodes of several expressions. -/
def Expr.preorderList : List Expr → List Node
  | [] => []
  | e :: es => e.preorder ++ Expr.preorderList es

/-- The nodes of a place. -/
def Variable.preorder : Variable → List Node
  | .name name span => [.place (.name name span)]
  | .index base index span => .place (.index base index span) :: (base.preorder ++ index.preorder)
  | .member owner member span => .place (.member owner member span) :: owner.preorder

end

mutual

/-- The nodes of a statement in source order, each before its parts. -/
def Stmt.preorder : Stmt → List Node
  | .ifElse condition thenBlock none span =>
    .stmt (.ifElse condition thenBlock none span) :: (condition.preorder ++ thenBlock.preorder)
  | .ifElse condition thenBlock (some elseBlock) span =>
    .stmt (.ifElse condition thenBlock (some elseBlock) span) ::
      (condition.preorder ++ thenBlock.preorder ++ elseBlock.preorder)
  | .whileDo condition body span =>
    .stmt (.whileDo condition body span) :: (condition.preorder ++ body.preorder)
  | .doWhile body condition span =>
    .stmt (.doWhile body condition span) :: (body.preorder ++ condition.preorder)
  | .switch tested cases none span =>
    .stmt (.switch tested cases none span) :: (tested.preorder ++ Case.preorderList cases)
  | .switch tested cases (some otherwise) span =>
    .stmt (.switch tested cases (some otherwise) span) ::
      (tested.preorder ++ Case.preorderList cases ++ otherwise.preorder)
  | .leave kind none span => [.stmt (.leave kind none span)]
  | .leave kind (some value) span => .stmt (.leave kind (some value) span) :: value.preorder
  | .expr e => .stmt (.expr e) :: e.preorder

/-- The nodes of several statements. -/
def Stmt.preorderList : List Stmt → List Node
  | [] => []
  | s :: ss => s.preorder ++ Stmt.preorderList ss

/-- The nodes of a block. -/
def Block.preorder : Block → List Node
  | ⟨stmts, span⟩ => .block ⟨stmts, span⟩ :: Stmt.preorderList stmts

/-- The nodes of a case. -/
def Case.preorder : Case → List Node
  | ⟨values, block, span⟩ =>
    .case ⟨values, block, span⟩ :: (Expr.preorderList values ++ block.preorder)

/-- The nodes of several cases. -/
def Case.preorderList : List Case → List Node
  | [] => []
  | c :: cs => c.preorder ++ Case.preorderList cs

end

namespace Node

/-- The nodes of a tree in source order, each before its parts. -/
def preorder : Node → List Node
  | program p => program p :: p.functions.flatMap fun f => function f :: f.body.preorder
  | function f => function f :: f.body.preorder
  | block b => b.preorder
  | stmt s => s.preorder
  | case c => c.preorder
  | expr e => e.preorder
  | place v => v.preorder

theorem preorderList_expr (es : List Expr) :
    Expr.preorderList es = (es.map expr).flatMap preorder := by
  induction es with
  | nil => rfl
  | cons e es ih => rw [Expr.preorderList, ih]; rfl

theorem preorderList_stmt (ss : List Stmt) :
    Stmt.preorderList ss = (ss.map stmt).flatMap preorder := by
  induction ss with
  | nil => rfl
  | cons s ss ih => rw [Stmt.preorderList, ih]; rfl

theorem preorderList_case (cs : List Case) :
    Case.preorderList cs = (cs.map case).flatMap preorder := by
  induction cs with
  | nil => rfl
  | cons c cs ih => rw [Case.preorderList, ih]; rfl

/-- The recursion goes through the children of a node, one after the other. -/
theorem preorder_eq (n : Node) : n.preorder = n :: n.children.flatMap preorder := by
  cases n with
  | program p => simp [preorder, children, List.flatMap_map]
  | function f => simp [preorder, children]
  | block b =>
    cases b
    simp [preorder, children, Block.preorder, preorderList_stmt]
  | stmt s =>
    cases s with
    | ifElse c t e _ => cases e <;> simp [preorder, children, ofStmt, Stmt.preorder]
    | switch t cs d _ =>
      cases d <;> simp [preorder, children, ofStmt, Stmt.preorder, preorderList_case]
    | leave _ v _ => cases v <;> simp [preorder, children, ofStmt, Stmt.preorder]
    | _ => simp [preorder, children, ofStmt, Stmt.preorder]
  | case c =>
    cases c
    simp [preorder, children, Case.preorder, preorderList_expr]
  | expr e => cases e <;> simp [preorder, children, ofExpr, Expr.preorder, preorderList_expr]
  | place v => cases v <;> simp [preorder, children, ofVariable, Variable.preorder]

/-- The walk meets the nodes that the recursion over the syntax lists. -/
theorem descendants_eq_preorder (n : Node) : n.descendants = n.preorder := by
  induction hw : n.weight using Nat.strongRecOn generalizing n with
  | _ w ih =>
    rw [descendants_eq, preorder_eq]
    congr 1
    exact List.flatMap_congr fun c hc => ih _ (hw ▸ weight_lt_of_mem_children hc) c rfl

/-! ## Steps of the walk -/

/-- Takes a node from a stack, and puts its children in its place. -/
def advance : List Node → List Node
  | [] => []
  | n :: rest => n.children ++ rest

/-- The walk meets what is on top of the stack after each step. -/
theorem getElem?_flatMap_descendants (stack : List Node) (k : Nat) :
    (stack.flatMap descendants)[k]? = (advance^[k] stack).head? := by
  induction k generalizing stack with
  | zero =>
    cases stack with
    | nil => rfl
    | cons n rest => simp [descendants_eq n]
  | succ k ih =>
    rw [Function.iterate_succ_apply, ← ih]
    cases stack with
    | nil => rfl
    | cons n rest => simp [descendants_eq n, advance]

/-! ## Places -/

/-- The node that is reached by going to the child of each number in turn. -/
def at? : Node → List Nat → Option Node
  | n, [] => some n
  | n, i :: path => n.children[i]?.bind fun c => c.at? path

/-- `paths` leads to every place below a node once, in the order in which the walk meets it. -/
structure Tour (n : Node) (paths : List (List Nat)) : Prop where
  sorted : paths.Pairwise (· < ·)
  complete : ∀ path, path ∈ paths ↔ (n.at? path).isSome
  met : paths.map n.at? = n.descendants.map some

/-- Paths to all places below the last children of a node, from paths to those below each of them. -/
theorem exists_paths_children {n : Node} (before : List Node) {cs : List Node}
    (hn : n.children = before ++ cs) (hcs : ∀ c ∈ cs, ∃ paths, c.Tour paths) :
    ∃ paths : List (List Nat), paths.Pairwise (· < ·) ∧
      (∀ path, path ∈ paths ↔
        ∃ i rest, path = i :: rest ∧ before.length ≤ i ∧ (n.at? path).isSome) ∧
      paths.map n.at? = (cs.flatMap descendants).map some := by
  induction cs generalizing before with
  | nil =>
    refine ⟨[], .nil, fun path => ⟨fun h => absurd h List.not_mem_nil, ?_⟩, rfl⟩
    rintro ⟨i, rest, rfl, hi, hsome⟩
    rw [List.append_nil] at hn
    rw [at?, hn, List.getElem?_eq_none hi] at hsome
    cases hsome
  | cons c cs ih =>
    obtain ⟨⟨first, hfirst⟩, hcs⟩ := List.forall_mem_cons.1 hcs
    obtain ⟨others, hsorted, hcomplete, hmet⟩ :=
      ih (before ++ [c]) (by rw [hn, List.append_assoc]; rfl) hcs
    have hat : ∀ rest, n.at? (before.length :: rest) = c.at? rest := by
      intro rest
      rw [at?, hn, List.getElem?_append_right (Nat.le_refl _), Nat.sub_self]
      rfl
    refine ⟨first.map (before.length :: ·) ++ others, ?_, fun path => ?_, ?_⟩
    · refine List.pairwise_append.2 ⟨?_, hsorted, ?_⟩
      · refine List.pairwise_map.2 (hfirst.sorted.imp fun h => ?_)
        exact List.cons_lt_cons_iff.2 (.inr ⟨rfl, h⟩)
      · intro path hpath path' hpath'
        obtain ⟨rest, -, rfl⟩ := List.mem_map.1 hpath
        obtain ⟨i, rest', rfl, hi, -⟩ := (hcomplete path').1 hpath'
        rw [List.length_append] at hi
        exact List.cons_lt_cons_iff.2 (.inl hi)
    · rw [List.mem_append, List.mem_map, hcomplete]
      constructor
      · rintro (⟨rest, hrest, rfl⟩ | ⟨i, rest, rfl, hi, hsome⟩)
        · refine ⟨_, rest, rfl, Nat.le_refl _, ?_⟩
          rw [hat]
          exact (hfirst.complete rest).1 hrest
        · refine ⟨i, rest, rfl, ?_, hsome⟩
          rw [List.length_append] at hi
          exact Nat.le_of_add_right_le hi
      · rintro ⟨i, rest, rfl, hi, hsome⟩
        rcases Nat.eq_or_lt_of_le hi with rfl | hlt
        · rw [hat] at hsome
          exact .inl ⟨rest, (hfirst.complete rest).2 hsome, rfl⟩
        · rw [List.length_append]
          exact .inr ⟨i, rest, rfl, hlt, hsome⟩
    · rw [List.map_append, List.map_map, hmet, List.flatMap_cons, List.map_append, ← hfirst.met]
      congr 1
      exact List.map_congr_left fun rest _ => hat rest

theorem exists_tour (n : Node) : ∃ paths, n.Tour paths := by
  induction hw : n.weight using Nat.strongRecOn generalizing n with
  | _ w ih =>
    obtain ⟨paths, hsorted, hcomplete, hmet⟩ := exists_paths_children (n := n) [] rfl
      fun c hc => ih _ (hw ▸ weight_lt_of_mem_children hc) c rfl
    refine ⟨[] :: paths, List.pairwise_cons.2 ⟨fun path hpath => ?_, hsorted⟩, fun path => ?_, ?_⟩
    · obtain ⟨i, rest, rfl, -⟩ := (hcomplete path).1 hpath
      exact List.nil_lt_cons i rest
    · cases path with
      | nil => exact ⟨fun _ => rfl, fun _ => List.mem_cons_self⟩
      | cons i rest =>
        rw [List.mem_cons, hcomplete]
        constructor
        · rintro (h | ⟨-, -, -, -, hsome⟩)
          · cases h
          · exact hsome
        · exact fun hsome => .inr ⟨i, rest, rfl, Nat.zero_le i, hsome⟩
    · rw [List.map_cons, hmet, descendants_eq]
      rfl

/-- What is found among the nodes is found at the places. -/
theorem Tour.found {α : Type} {n : Node} {paths : List (List Nat)} (h : n.Tour paths)
    (find : Node → Option α) :
    n.descendants.filterMap find = paths.filterMap fun path => (n.at? path).bind find := by
  calc n.descendants.filterMap find
    _ = (n.descendants.map some).filterMap (·.bind find) := by rw [List.filterMap_map]; rfl
    _ = (paths.map n.at?).filterMap (·.bind find) := by rw [h.met]
    _ = paths.filterMap fun path => (n.at? path).bind find := by rw [List.filterMap_map]; rfl

/-- A walk from a node meets the node and then what is below its children, one after the other: all
nodes that the syntax lists, each place once and in order. So it finds every call, every assignment
and every departure. -/
theorem walk_preorder (n : Node) :
    n.descendants = n :: n.children.flatMap descendants ∧
    n.descendants = n.preorder ∧
    (∀ k, n.descendants[k]? = (advance^[k] [n]).head?) ∧
    ∃ paths : List (List Nat), paths.Pairwise (· < ·) ∧
      (∀ path, path ∈ paths ↔ (n.at? path).isSome) ∧
      n.calls = paths.filterMap (fun path => (n.at? path).bind call?) ∧
      n.assignments = paths.filterMap (fun path => (n.at? path).bind assignment?) ∧
      n.departures = paths.filterMap (fun path => (n.at? path).bind departure?) := by
  obtain ⟨paths, hpaths⟩ := n.exists_tour
  refine ⟨descendants_eq n, descendants_eq_preorder n, fun k => ?_, paths, hpaths.sorted,
    hpaths.complete, hpaths.found call?, hpaths.found assignment?, hpaths.found departure?⟩
  rw [← getElem?_flatMap_descendants, List.flatMap_singleton]

end Node

end ContractCompiler
