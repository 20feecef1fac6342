import ContractCompiler.Syntax.Node

/-!
# Reachable functions

The functions that an entry needs: itself, and those called from a function that it needs, in
the order in which a breadth-first walk along the calls meets them.
-/

namespace ContractCompiler

namespace Program

/-- The functions of a program that are not in `seen`. -/
def unseen (p : Program) (seen : List String) : List Function :=
  p.functions.filter fun f => !seen.contains f.name

/-- The functions that calls of some names add to those in `seen`, each once. -/
def newCallees (p : Program) (seen : List String) : List String → List Function
  | [] => []
  | n :: ns =>
    match p.function? n with
    | none => newCallees p seen ns
    | some f =>
      if seen.contains f.name then newCallees p seen ns
      else f :: newCallees p (f.name :: seen) ns

/-- Seeing one more function of the program leaves fewer unseen. -/
theorem length_unseen_cons_lt {p : Program} {seen : List String} {f : Function}
    (hf : f ∈ p.functions) (hn : f.name ∉ seen) :
    (p.unseen (f.name :: seen)).length < (p.unseen seen).length := by
  have hsub : p.unseen (f.name :: seen) = (p.unseen seen).filter fun g => g.name != f.name := by
    simp only [unseen, List.filter_filter]
    congr 1
    funext g
    by_cases h : g.name = f.name <;> simp [h]
  rw [hsub]
  refine List.length_filter_lt_length_iff_exists.2 ⟨f, ?_, by simp⟩
  simp [unseen, hf, hn]

/-- New callees are taken from the unseen functions. -/
theorem length_newCallees_le (p : Program) (seen names : List String) :
    (p.newCallees seen names).length +
        (p.unseen ((p.newCallees seen names).reverse.map Function.name ++ seen)).length ≤
      (p.unseen seen).length := by
  fun_induction newCallees p seen names with
  | case1 => simp
  | case2 _ _ _ _ ih => exact ih
  | case3 _ _ _ _ _ _ ih => exact ih
  | case4 seen n ns f hf hn ih =>
    have hmem : f ∈ p.functions := List.mem_of_find?_eq_some hf
    have := length_unseen_cons_lt (p := p) hmem (by simpa using hn)
    simp only [List.reverse_cons, List.map_append, List.map_cons, List.map_nil,
      List.append_assoc, List.singleton_append, List.length_cons]
    omega

/-- The names that a function calls, in source order. -/
def callees (f : Function) : List String :=
  (Node.function f).calls.map Node.Call.callee

/-- Walks the functions of a queue and those they call, onto `acc`. -/
def reachFrom (p : Program) (queue : List Function) (seen : List String) (acc : List Function) :
    List Function :=
  match queue with
  | [] => acc.reverse
  | f :: rest =>
    let new := p.newCallees seen (callees f)
    reachFrom p (rest ++ new) (new.reverse.map Function.name ++ seen) (f :: acc)
termination_by queue.length + (p.unseen seen).length
decreasing_by
  have := length_newCallees_le p seen (callees f)
  simp only [List.length_append, List.length_cons]
  omega

/-- The functions that `main` needs, `main` first. -/
def reachable (p : Program) (main : Function) : List Function :=
  p.reachFrom [main] [main.name] []

end Program

end ContractCompiler
