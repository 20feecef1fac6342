import ContractCompiler.Source
import ContractCompiler.Proofs.Syntax.TokenRanges
import ContractCompiler.Proofs.Token.Division

/-!
# Where the names of a program stand

A program covers the tokens of its text, which stand at different places. So no two names of a program
stand at the same place.
-/

namespace ContractCompiler

mutual

/-- There are no cases in an expression. -/
theorem Expr.found_case : ∀ e : Expr, (Node.expr e).found Node.case? = []
  | .uint _ _ | .bytes _ _ => by rw [Node.found_eq]; rfl
  | .unary op e span => by rw [Node.found_unary, e.found_case]; rfl
  | .binary op l r span => by rw [Node.found_binary, l.found_case, r.found_case]; rfl
  | .call f args span => by
    rw [Node.found_call, Expr.found_case_list args]
    rfl
  | .var v => by rw [Node.found_var, v.found_case]; rfl

theorem Expr.found_case_list : ∀ es : List Expr,
    es.flatMap (fun e => (Node.expr e).found Node.case?) = []
  | [] => rfl
  | e :: es => by rw [List.flatMap_cons, e.found_case, Expr.found_case_list es]; rfl

theorem Variable.found_case : ∀ v : Variable, (Node.place v).found Node.case? = []
  | .name n span => by rw [Node.found_name]; rfl
  | .index base i span => by rw [Node.found_index, base.found_case, i.found_case]; rfl
  | .member owner m span => by rw [Node.found_member, owner.found_case]; rfl

end

/-- A program is read from the tokens of its text. -/
theorem Source.tokens_of_program {text : List Char} {p : Program} (h : Source.program text = .ok p) :
    ∃ toks, Source.tokens text = .ok toks ∧ Program.ofTokens toks = .ok p := by
  obtain ⟨toks, htoks, h⟩ := ok_of_bind h
  refine ⟨toks, htoks, ?_⟩
  cases hp : Program.ofTokens toks with
  | error e =>
    rw [hp] at h
    cases h
  | ok p' =>
    rw [hp] at h
    cases h
    rfl

/-- No two names of a program stand at the same place, and every case has a value. -/
theorem Source.program_eq_ok {text : List Char} {p : Program} (h : Source.program text = .ok p) :
    ((Node.program p).found Node.nameOffset?).Nodup ∧
      ∀ c ∈ (Node.program p).found Node.case?, c.values ≠ [] := by
  obtain ⟨toks, htoks, hp⟩ := Source.tokens_of_program h
  by_cases hnone : p.functions = []
  · have hfound : ∀ {α : Type} (find : Node → Option α), find (.program p) = none →
        (Node.program p).found find = [] := by
      intro α find hfind
      rw [Node.found_eq, hfind, Node.children, hnone]
      rfl
    rw [hfound _ rfl, hfound _ rfl]
    exact ⟨List.nodup_nil, List.forall_mem_nil _⟩
  · have hcovers := Program.ofTokens_covers hp hnone
    refine ⟨?_, fun c hc => hcovers.values_ne_nil hc⟩
    have hordered := (Source.tokens_eq_ok_iff.1 htoks).1.ordered.sublist
      (List.filter_sublist (p := (!·.isComment)))
    exact ((List.pairwise_map.2 hordered).sublist hcovers.names).imp Nat.ne_of_lt

end ContractCompiler
