import ContractCompiler.Proofs.Lowering.Agreement

/-!
# What suits a layout

What is asked of expressions, statements and blocks for their code to fit a layout is asked of their
parts as well, and scopes that belong to a layout still do so after a check.
-/

namespace ContractCompiler

/-! ## The names of a block -/

section Names

variable {names : List String}

/-- The names that a block brings in are those that it assigns and that have no slot. -/
theorem mem_newNames {assigned : List String} {n : String} :
    n ∈ newNames names assigned ↔ n ∈ assigned ∧ n ∉ names := by
  induction assigned generalizing names with
  | nil => simp [newNames]
  | cons m ns ih =>
    rw [newNames]
    split
    case isTrue hm =>
      rw [ih, List.mem_cons]
      constructor
      · exact fun h => ⟨.inr h.1, h.2⟩
      · rintro ⟨rfl | hn, hnot⟩
        · exact absurd hm hnot
        · exact ⟨hn, hnot⟩
    case isFalse hm =>
      rw [List.mem_cons, ih, List.mem_cons, List.mem_cons]
      by_cases hnm : n = m
      · subst hnm
        simp [hm]
      · simp [hnm]

theorem subset_newNames (names assigned : List String) :
    assigned ⊆ (newNames names assigned).reverse ++ names := by
  intro n hn
  by_cases hmem : n ∈ names
  · exact List.mem_append_right _ hmem
  · exact List.mem_append_left _ (List.mem_reverse.2 (mem_newNames.2 ⟨hn, hmem⟩))

/-- A block that assigns names of the layout only makes no slots. -/
theorem newNames_eq_nil {assigned : List String} (h : assigned ⊆ names) :
    newNames names assigned = [] := by
  refine List.eq_nil_iff_forall_not_mem.2 fun n hn => ?_
  obtain ⟨hassigned, hnot⟩ := mem_newNames.1 hn
  exact hnot (h hassigned)

end Names

variable {S : Setting} {names : List String}

/-! ## Scopes after a check -/

/-- After a check, the scopes still belong to the layout. -/
theorem Scopes.Fits.check {cs cs' : CheckState} {e : Expr} {τ : TypeId}
    (hΓ : cs.scopes.Fits S.check.mode names) (hcheck : e.check S.check cs = .ok (τ, cs'))
    (hs : e.assigned ⊆ names) : cs'.scopes.Fits S.check.mode names := by
  have hgrows := (e.check_accepts hΓ.proper hcheck).grows
  rw [S.types_eq] at hgrows
  exact hΓ.grows hgrows hs

theorem Scopes.Fits.check_place {cs cs' : CheckState} {v : Variable} {f : Field}
    (hΓ : cs.scopes.Fits S.check.mode names) (hcheck : v.check S.check cs = .ok (f, cs'))
    (hs : v.assigned ⊆ names) : cs'.scopes.Fits S.check.mode names := by
  have hgrows := (v.check_accepts hΓ.proper hcheck).grows
  rw [S.types_eq] at hgrows
  exact hΓ.grows hgrows hs

/-! ## Parts of expressions that suit a layout -/

namespace Expr.Suits

variable {e l r c : Expr} {span span' : Span}

theorem operand {op : UnaryOperator} (h : (Expr.unary op e span).Suits S names) :
    e.Suits S names :=
  h.part (by simp) (by simp) (by simp [Expr.isIntegral])

theorem value {n : String} (h : (Expr.binary .assign (.var (.name n span)) r span').Suits S names) :
    r.Suits S names :=
  h.part (by simp) (by simp) (by simp [Expr.isIntegral])

theorem condition (h : (Expr.binary .ternary c (.binary .colon l r span) span').Suits S names) :
    c.Suits S names :=
  h.part (by simp [assigned_binary]) (by simp) (by simp +contextual [Expr.isIntegral])

theorem arms (h : (Expr.binary .ternary c (.binary .colon l r span) span').Suits S names) :
    l.Suits S names ∧ r.Suits S names :=
  ⟨h.part (by simp [assigned_binary]) (by simp) (by simp +contextual [Expr.isIntegral]),
    h.part (by simp [assigned_binary]) (by simp) (by simp +contextual [Expr.isIntegral])⟩

theorem cast (h : (Expr.binary .colon l r span).Suits S names) :
    l.Suits S names ∧ S.held .bytes :=
  ⟨h.part (by simp [assigned_binary]) (by simp) (by simp [Expr.isIntegral]),
    by simpa [Expr.isIntegral] using h.integral⟩

theorem operands {o : BinaryOperator} (ho : o.uintOpcode?.isSome)
    (h : (Expr.binary o l r span).Suits S names) : l.Suits S names ∧ r.Suits S names := by
  have hassign : o ≠ .assign := by
    rintro rfl
    cases ho
  constructor
  · refine h.part (by simp [assigned_binary hassign]) (by simp) fun readable hint => ?_
    rw [Expr.isIntegral_operator ho, Bool.and_eq_true] at hint
    exact hint.1
  · refine h.part (by simp [assigned_binary hassign]) (by simp) fun readable hint => ?_
    rw [Expr.isIntegral_operator ho, Bool.and_eq_true] at hint
    exact hint.2

theorem argument {f : String} {args : List Expr} (h : (Expr.call f args span).Suits S names)
    (he : e ∈ args) : e.Suits S names := by
  refine h.part ?_ ?_ fun readable hint => ?_
  · rw [assigned_call]
    exact fun n hn => List.mem_flatMap.2 ⟨e, he, hn⟩
  · rw [called_call]
    exact fun n hn => List.mem_cons_of_mem _ (List.mem_flatMap.2 ⟨e, he, hn⟩)
  · rw [Expr.isIntegral, Expr.areIntegral_eq, Bool.and_eq_true, List.all_eq_true] at hint
    exact hint.2 e he

end Expr.Suits

/-! ## Statements that suit a layout -/

/-- What is asked of a node for the code of everything below it: functions that may be called,
cases with values, results only from functions that are known to return some, and no entry but
the one that is lowered. -/
structure Node.Sound (S : Setting) (n : Node) : Prop where
  called : ∀ f ∈ n.called, f ≠ Builtin.hashFunction.1 → S.callable f
  cases : ∀ c ∈ n.found Node.case?, c.values ≠ []
  returns : ∀ d ∈ n.departures, d.kind = .returning → d.value.isSome →
    S.check.currentReturns = true
  main : S.check.isEntry S.check.current = true → S.main = true

theorem Node.Sound.child {n child : Node} (h : n.Sound S) (hc : child ∈ n.children) :
    child.Sound S where
  called := fun f hf => h.called f (Node.found_subset _ hc hf)
  cases := fun c hcase => h.cases c (Node.found_subset _ hc hcase)
  returns := fun d hd => h.returns d (Node.found_subset Node.departure? hc hd)
  main := h.main

/-- Only integers are computed with, as `p` tells, unless byte strings are admitted. -/
def Setting.Admits (S : Setting) (p : (String → Bool) → Bool) : Prop :=
  S.held .bytes ∨ ∃ readable, p readable = true

theorem Setting.Admits.part {p q : (String → Bool) → Bool} (h : S.Admits p)
    (himp : ∀ readable, p readable = true → q readable = true) : S.Admits q := by
  rcases h with hheld | ⟨readable, hp⟩
  · exact .inl hheld
  · exact .inr ⟨readable, himp readable hp⟩

/-- What is asked of a block for its code. -/
structure Block.Suits (S : Setting) (b : Block) : Prop where
  sound : (Node.block b).Sound S
  integral : S.Admits fun readable => b.isIntegral readable

/-- What is asked of a statement for its code to fit a layout. -/
structure Stmt.Suits (S : Setting) (names : List String) (st : Stmt) : Prop where
  sound : (Node.stmt st).Sound S
  assigned : ∀ e ∈ st.ownExpressions, e.assigned ⊆ names
  integral : S.Admits fun readable => st.isIntegral readable

theorem Stmt.Suits.expr {st : Stmt} {e : Expr} (h : st.Suits S names)
    (hown : e ∈ st.ownExpressions) (hchild : Node.expr e ∈ Node.ofStmt st)
    (himp : ∀ readable, st.isIntegral readable = true → e.isIntegral readable = true) :
    e.Suits S names where
  assigned := h.assigned e hown
  called := (h.sound.child hchild).called
  integral := h.integral.part himp

theorem Stmt.Suits.block {st : Stmt} {b : Block} (h : st.Suits S names)
    (hchild : Node.block b ∈ Node.ofStmt st)
    (himp : ∀ readable, st.isIntegral readable = true → b.isIntegral readable = true) :
    b.Suits S where
  sound := h.sound.child hchild
  integral := h.integral.part himp

/-- What is asked of a case for its code to fit a layout. -/
structure Case.Suits (S : Setting) (names : List String) (c : Case) : Prop where
  values_ne : c.values ≠ []
  values : ∀ v ∈ c.values, v.Suits S names
  block : c.block.Suits S

theorem Case.areIntegral_mem {readable : String → Bool} {cases : List Case}
    (h : Case.areIntegral readable cases = true) {c : Case} (hc : c ∈ cases) :
    c.values.all (Expr.isIntegral readable) = true ∧ c.block.isIntegral readable = true := by
  induction cases with
  | nil => cases hc
  | cons c' cases ih =>
    cases c'
    simp only [Case.areIntegral, Bool.and_eq_true] at h
    rcases List.mem_cons.1 hc with rfl | hc
    · exact ⟨h.1.1.2, h.1.2⟩
    · exact ih h.2 hc

/-- The cases of a switch that suits a layout suit it as well. -/
theorem Stmt.Suits.case {tested : Expr} {cases : List Case} {otherwise : Option Block} {span : Span}
    (h : (Stmt.switch tested cases otherwise span).Suits S names) {c : Case} (hc : c ∈ cases) :
    c.Suits S names := by
  have hchild : Node.case c ∈ Node.ofStmt (.switch tested cases otherwise span) := by
    simp [Node.ofStmt, hc]
  have hcase := h.sound.child hchild
  have hint : ∀ readable, (Stmt.switch tested cases otherwise span).isIntegral readable = true →
      Case.areIntegral readable cases = true := by
    intro readable
    cases otherwise <;> simp +contextual [Stmt.isIntegral]
  refine ⟨hcase.cases c ?_, fun v hv => ⟨?_, ?_, ?_⟩, ?_, ?_⟩
  · rw [Node.found_eq]
    exact List.mem_append_left _ List.mem_cons_self
  · refine h.assigned v (List.mem_cons_of_mem _ ?_)
    exact List.mem_flatMap.2 ⟨c, hc, hv⟩
  · have hvalue : Node.expr v ∈ (Node.case c).children := by simp [Node.children, hv]
    exact (hcase.child hvalue).called
  · refine h.integral.part fun readable hreadable => ?_
    exact List.all_eq_true.1 (Case.areIntegral_mem (hint readable hreadable) hc).1 v hv
  · exact hcase.child (by simp [Node.children])
  · exact h.integral.part fun readable hreadable =>
      (Case.areIntegral_mem (hint readable hreadable) hc).2

/-- The statements of a block suit the layout with the slots of the block. -/
theorem Block.Suits.stmt {ss : List Stmt} {span : Span} (h : Block.Suits S ⟨ss, span⟩) {st : Stmt}
    (hst : st ∈ ss) :
    st.Suits S ((newNames names (Stmt.assignedNames ss)).reverse ++ names) where
  sound := h.sound.child (by simp [Node.children, hst])
  assigned := by
    intro e he n hn
    refine subset_newNames names _ ?_
    rw [Stmt.assignedNames_eq]
    exact List.mem_flatMap.2 ⟨e, List.mem_flatMap.2 ⟨st, hst, he⟩, hn⟩
  integral := by
    refine h.integral.part fun readable hreadable => ?_
    rw [Block.isIntegral] at hreadable
    clear h
    induction ss with
    | nil => cases hst
    | cons s ss ih =>
      rw [Stmt.areIntegral, Bool.and_eq_true] at hreadable
      rcases List.mem_cons.1 hst with rfl | hst
      · exact hreadable.1
      · exact ih hst hreadable.2

/-- The scopes of a block belong to the layout with the slots of the block. -/
theorem Scopes.Fits.push {cs cs' : CheckState} {ss : List Stmt}
    (hΓ : cs.scopes.Fits S.check.mode names)
    (h : Stmt.checkList S.check ss { cs with scopes := cs.scopes.push .clear } = .ok ((), cs')) :
    (cs.scopes.push .clear).Fits S.check.mode
      ((newNames names (Stmt.assignedNames ss)).reverse ++ names) where
  frames := List.cons_ne_nil _ _
  root := hΓ.root
  declared := by
    intro n f hn
    obtain ⟨hmem, hvar⟩ := hΓ.declared n f hn
    exact ⟨List.mem_append_right _ hmem, hvar⟩
  plain := by
    intro n hn hnone
    have hgrows := (Stmt.checkList_accepts ss (hΓ.proper.push .clear) h).grows
    rcases List.mem_append.1 hn with hnew | hmem
    · have hassigned := (mem_newNames.1 (List.mem_reverse.1 hnew)).1
      rcases hgrows.assignable n hassigned with hroot | hsome
      · exact hroot
      · have hnone' : lookupFrames (cs.scopes.push .clear).frames n = none := hnone
        rw [hnone'] at hsome
        cases hsome
    · exact hΓ.plain n hmem hnone
  hidden := hΓ.hidden

/-- After a block, the scopes belong to the layout as before it. -/
theorem Scopes.Fits.check_block {cs cs' : CheckState} {b : Block}
    (hΓ : cs.scopes.Fits S.check.mode names) (h : b.check S.check cs = .ok ((), cs')) :
    cs'.scopes.Fits S.check.mode names := by
  rw [(b.check_accepts hΓ.proper h).2]
  exact hΓ

theorem Scopes.Fits.check_caseValues {τ : TypeId} : ∀ {vs : List Expr} {cs cs' : CheckState},
    cs.scopes.Fits S.check.mode names → checkCaseValues S.check τ vs cs = .ok ((), cs') →
    (∀ v ∈ vs, v.Suits S names) → cs'.scopes.Fits S.check.mode names
  | [], cs, cs', hΓ, h, hs => by
    simp only [checkCaseValues, Check.pure_eq_ok] at h
    obtain ⟨-, rfl⟩ := h
    exact hΓ
  | v :: vs, cs, cs', hΓ, h, hs => by
    obtain ⟨τv, cs₁, hv, -, -, hvs⟩ := checkCaseValues_cons.1 h
    have hsuits := List.forall_mem_cons.1 hs
    exact (hΓ.check hv hsuits.1.assigned).check_caseValues hvs hsuits.2

/-- The condition of a case assigns what the tested expression and the values assign. -/
theorem Case.testedNames_subset {tested : Expr} {cases : List Case}
    (ht : tested.assigned ⊆ names)
    (hs : ∀ c ∈ cases, c.values ≠ [] ∧ ∀ v ∈ c.values, v.assigned ⊆ names) :
    Case.testedNames tested cases ⊆ names := by
  cases cases with
  | nil => exact List.nil_subset _
  | cons c cases =>
    obtain ⟨values, block, span⟩ := c
    have hc := hs _ List.mem_cons_self
    rw [Case.testedNames, Stmt.assignedNames_eq]
    simp only [Stmt.ownExpressions, List.flatMap_cons, List.flatMap_nil, List.append_nil]
    match values, hc.1 with
    | v :: vs, _ =>
      have htest : ∀ v' ∈ v :: vs, (Expr.binary .eq tested v' v'.span).assigned ⊆ names := by
        intro v' hv'
        rw [Expr.assigned_binary (by decide)]
        exact List.append_subset.2 ⟨ht, hc.2 v' hv'⟩
      have hfold : ∀ (vs : List Expr) (e : Expr), e.assigned ⊆ names →
          (∀ v' ∈ vs, (Expr.binary .eq tested v' v'.span).assigned ⊆ names) →
          (vs.foldl (fun e v => Expr.binary .or e (.binary .eq tested v v.span) span)
            e).assigned ⊆ names := by
        intro vs
        induction vs with
        | nil => exact fun e he _ => he
        | cons v' vs ih =>
          intro e he hvs
          obtain ⟨hv', hvs⟩ := List.forall_mem_cons.1 hvs
          refine ih _ ?_ hvs
          rw [Expr.assigned_binary (by decide)]
          exact List.append_subset.2 ⟨he, hv'⟩
      obtain ⟨hv, hvs⟩ := List.forall_mem_cons.1 htest
      exact hfold vs _ hv hvs

end ContractCompiler
