import ContractCompiler.Proofs.Lowering.Control

/-!
# The tests of a switch

A switch tests its expression anew against every value of every case. The tests of one case are
joined from left to right; none of them makes a slot, since the names that they assign have slots
already.
-/

namespace ContractCompiler

open Lower

variable {G : Rigour} {S : Setting} {names : List String} {temps : List StackType} {s : LowerState}
  {tested v : Expr} {vs : List Expr} {cs₀ cs₀' cs cs' : CheckState} {τ τv : TypeId} {span : Span}

/-- A value that names a type is not definite. -/
theorem Expr.Sited.namesType_of_isDefinite (hv : v.Sited S names cs cs' τ)
    (hdef : v.isDefinite S.check cs = true) : Lower.namesType names v = false := by
  cases hn : v.asName? with
  | none => rw [Lower.namesType, hn]
  | some n =>
    obtain ⟨span', rfl⟩ := Expr.eq_name_of_asName? hn
    rw [Expr.isDefinite, Expr.hasValue_eq hv.check, S.types_eq, Bool.and_eq_true] at hdef
    exact hv.fits.namesType_eq_false hv.check hdef.2

/-- A test against the name of a type asks for the type of a transaction. -/
theorem Expr.test_type {n : String} {text : String} (hgrants : S.Grants) (hnot : ¬G.strict)
    (ht : tested.Sited S names cs₀ cs₀' τ) (hv : (Expr.var (.name n span)).Sited S names cs cs' τv)
    (hn : n ∉ names) (hs : s.Ready G S names temps cs₀) :
    (Lower.typeTest .eq tested.codeSteps? (.var (.name n span)) text).Ends G.faults S.lower s
      fun _ s' => ∃ code,
        Emits S names cs temps.length (.test tested cs₀ (.var (.name n span))) code (some .uint64) ∧
        s.Writes S s' code ∧ s'.Ready G S names (.uint64 :: temps) cs' := by
  have hfail : G.faults (.typeTest text) := hs.regime.lenient hnot _ rfl
  cases tested with
  | var place =>
    refine .ready_typeTest hs.toLaid (fun _ => hfail) fun c r hc hr => ?_
    obtain ⟨f, hplace, -⟩ := ht.place
    obtain ⟨g, hname, -⟩ := hv.place
    have hreads := Reading.reads_ofTransaction? hr
    refine .of_index (Reading.ofTransaction?_valid hr) hreads (fun hstrict => absurd hstrict hnot)
      hs hplace (fun i hi => ?_) fun code s₁ hcode hw₁ hs₁ =>
        ⟨cs₀', Reading.type_ofTransaction? hr ▸ hs₁, fun s' hw hs' => ⟨_,
          .testType hr hcode hc hn (hgrants _ (.builtin hv.fits hn (check_name hname.check).1))
            (hgrants _ (.transaction hplace hr)),
          hw₁.trans hw, hs'.mono fun hstrict => absurd hstrict hnot⟩⟩
    obtain ⟨base, hbase⟩ := place.index?_of_steps (Reading.ofTransaction?_index hr hi)
    obtain ⟨g, cs₁, τi, hcheck, hsite, hvoid, hbytes⟩ := hplace.index_type hbase
      (hreads.single _ _ hbase) (Reading.steps_of_ofTransaction? hr hi) List.mem_cons_self
    exact ⟨base, g, cs₁, hbase, hcheck, (i.lowers hgrants).notBytes temps hsite
      (fun hstrict => absurd hstrict hnot) hvoid hbytes⟩
  | _ =>
    unfold Lower.typeTest
    simp only [Expr.asName?, Option.bind_some, Expr.codeSteps?]
    split
    · exact .fail hfail
    · exact .bind (.fail hfail)

/-- The test of an expression against a value of a case. What can hold anything where the value is
checked is known not to hold byte strings only, if need be once the tested expression was
evaluated. -/
theorem Expr.test_ends (hgrants : S.Grants) (span : Span) (ht : tested.Sited S names cs₀ cs₀' τ)
    (hvoid : τ ≠ .void) (htdef : G.strict → tested.isDefinite S.check cs₀ = true)
    (hv : v.Sited S names cs cs' τv) (hvvoid : τv ≠ .void)
    (hvdef : G.strict → v.isDefinite S.check cs = true) (hs : s.Ready G S names temps cs₀)
    (hany : G.strict → ∀ n, cs.HoldsAny n → s.Tame n ∨ cs₀'.HoldsAny n) :
    (Expr.binary .eq tested v span).lower.Ends G.faults S.lower s fun _ s' => ∃ code,
      Emits S names cs temps.length (.test tested cs₀ v) code (some .uint64) ∧
        s.Writes S s' code ∧ s'.Ready G S names (.uint64 :: temps) cs' := by
  rw [Expr.lower_operator rfl]
  refine .bind (.laid_isTypeName hs.toLaid ?_)
  cases htype : Lower.namesType names v with
  | false =>
    rw [if_neg (by simp)]
    refine .bind (((tested.lowers hgrants).value temps ht htdef hvoid s hs).mono
      fun _ s₁ ⟨ct, kt, ⟨hct, _⟩, _, hw₁, hs₁⟩ => ?_)
    have hs₁ := hs₁.mono fun hstrict n hn =>
      (hany hstrict n hn).elim (hw₁.tame n) (hs₁.tame hstrict n)
    refine .bind (((v.lowers hgrants).value (kt :: temps) hv hvdef hvvoid s₁ hs₁).mono
      fun _ s₂ ⟨cv, kv, ⟨hcv, _⟩, _, hw₂, hs₂⟩ => ?_)
    refine .ready_operator hs₂ rfl (fun _ h => absurd h (by decide)) fun s' _ hw hs' =>
      ⟨_, .test hct hcv, ?_, hs'⟩
    rw [List.append_assoc]
    exact hw₁.trans (hw₂.trans hw)
  | true =>
    have hnot : ¬G.strict := fun hstrict => by
      rw [hv.namesType_of_isDefinite (hvdef hstrict)] at htype
      cases htype
    rw [if_pos ⟨.inl rfl, rfl⟩]
    cases hn : v.asName? with
    | none =>
      rw [Lower.namesType, hn] at htype
      cases htype
    | some n =>
      obtain ⟨span', rfl⟩ := Expr.eq_name_of_asName? hn
      exact Expr.test_type hgrants hnot ht hv (not_mem_of_namesType htype) hs

/-- Further tests, each joined to the outcome of those before it. -/
theorem Expr.tests_ends {τ' : TypeId} {e : Expr} {R : List Instruction → Prop} (hgrants : S.Grants)
    (ht : tested.Sited S names cs₀ cs₀' τ) (hvoid : τ ≠ .void)
    (htdef : G.strict → tested.isDefinite S.check cs₀ = true)
    (hvs : Expr.ValuesSited S names cs cs' vs τ')
    (hdef : G.strict → Expr.areDefinite S.check cs vs = true) (hs : s.Ready G S names [] cs₀)
    (he : e.lower.Ends G.faults S.lower s fun _ s' => ∃ code, R code ∧ s.Writes S s' code ∧
      s'.Ready G S names [.uint64] cs) :
    (vs.foldl (fun e v => .binary .or e (.binary .eq tested v v.span) span) e).lower.Ends G.faults
      S.lower s fun _ s' => ∃ c cts, R c ∧ Emits S names cs 0 (.tests tested cs₀ vs) cts none ∧
        s.Writes S s' (c ++ cts) ∧ s'.Ready G S names [.uint64] cs' := by
  induction vs generalizing e cs R with
  | nil =>
    obtain ⟨-, rfl⟩ := Check.pure_eq_ok.1 hvs.check
    refine he.mono ?_
    rintro _ s' ⟨code, hR, hw, hs'⟩
    refine ⟨code, [], hR, .testsNil, ?_, hs'⟩
    rwa [List.append_nil]
  | cons v vs ih =>
    obtain ⟨τv, cs₁, hv, hvvoid, -, hrest⟩ := hvs.cons
    rw [Expr.areDefinite, Check.after_eq hv.check, Bool.and_eq_true, imp_and] at hdef
    have hjoined : (Expr.binary .or e (.binary .eq tested v v.span) span).lower.Ends G.faults
        S.lower s fun _ s' => ∃ code, (∃ c cv, R c ∧
          Emits S names cs 1 (.test tested cs₀ v) cv (some .uint64) ∧
          code = c ++ (cv ++ plain [.logicOr])) ∧ s.Writes S s' code ∧
          s'.Ready G S names [.uint64] cs₁ := by
      rw [Expr.lower_operator rfl]
      refine .bind (.laid_isTypeName hs.toLaid ?_)
      rw [if_neg (by simp)]
      refine .bind (he.mono ?_)
      rintro _ s₁ ⟨c, hR, hw₁, hs₁⟩
      refine .bind ((Expr.test_ends hgrants v.span ht hvoid htdef hv hvvoid hdef.1
        (hs.after hw₁.carries hs₁.toLaid) fun hstrict n hn =>
          .inl (hs₁.tame hstrict n hn)).mono ?_)
      rintro _ s₂ ⟨cv, hcv, hw₂, hs₂⟩
      exact .ready_operator hs₂ rfl (fun _ _ => ⟨by decide, by decide⟩) fun s' _ hw hs' =>
        ⟨_, ⟨c, cv, hR, hcv, rfl⟩, hw₁.trans (hw₂.trans hw), hs'⟩
    refine (ih hrest hdef.2 hjoined).mono ?_
    rintro _ s' ⟨_, cts, ⟨c, cv, hR, hcv, rfl⟩, hcts, hw, hs'⟩
    exact ⟨c, _, hR, .testsCons hcv hv.check hcts, by simpa using hw, hs'⟩

/-- The condition of a case. -/
theorem Case.condition_tests {τ' : TypeId} (hgrants : S.Grants) (b : Block) (span : Span)
    (ht : tested.Sited S names cs₀ cs₀' τ) (hvoid : τ ≠ .void)
    (htdef : G.strict → tested.isDefinite S.check cs₀ = true)
    (hvs : Expr.ValuesSited S names cs cs' (v :: vs) τ')
    (hdef : G.strict → Expr.areDefinite S.check cs (v :: vs) = true)
    (hs : s.Ready G S names [] cs₀)
    (hany : G.strict → ∀ n, cs.HoldsAny n → s.Tame n ∨ cs₀'.HoldsAny n) :
    Tests G S names cs' (Case.condition tested ⟨v :: vs, b, span⟩).lower (fun code _ =>
      ∃ τv cs₁ ct cts, v.check S.check cs = .ok (τv, cs₁) ∧
        Emits S names cs 0 (.test tested cs₀ v) ct (some .uint64) ∧
        Emits S names cs₁ 0 (.tests tested cs₀ vs) cts none ∧ code = ct ++ cts) s := by
  obtain ⟨τv, cs₁, hv, hvvoid, -, hrest⟩ := hvs.cons
  rw [Expr.areDefinite, Check.after_eq hv.check, Bool.and_eq_true, imp_and] at hdef
  have hfirst := Expr.test_ends hgrants v.span ht hvoid htdef hv hvvoid hdef.1 hs hany
  refine (Expr.tests_ends hgrants ht hvoid htdef hrest hdef.2 hs hfirst).mono ?_
  rintro _ s' ⟨ct, cts, hct, hcts, hw, hs'⟩
  exact ⟨_, .uint64, ⟨τv, cs₁, ct, cts, hv.check, hct, hcts, rfl⟩, fun _ => by decide, hw, hs'⟩

end ContractCompiler
