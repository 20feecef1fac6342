import ContractCompiler.Proofs.Lowering.Switches

/-!
# The code of statements

The code of an accepted statement is the one that `Performs` tells, and lowering it fails at most
for reasons that lie in the source. The induction goes over the syntax, with the layout as a
parameter: a block is lowered with its own slots on top of those around it. A variable that can hold
anything gets its value where it comes up, so it is known not to hold byte strings only from there
on, also where control never gets past that place.
-/

namespace ContractCompiler

open Lower
open TypeTable (isInteger)

variable {G : Rigour} {S : Setting} {names : List String} {cs cs' : CheckState} {τ : TypeId}

/-! ## Single statements -/

theorem Expr.lowerStmt_eq {e : Expr} (h : ∀ l r span, e ≠ .binary .assign l r span) :
    e.lowerStmt = (do
      let depth := (← Lower.builder).depth
      e.lower
      Lower.popMany ((← Lower.builder).depth - depth)) := by
  unfold Expr.lowerStmt
  split
  case h_1 l r span => exact absurd rfl (h l r span)
  case h_2 => rfl

theorem Expr.isDefiniteStmt_eq {env : CheckEnv} {e : Expr}
    (h : ∀ l r span, e ≠ .binary .assign l r span) :
    e.isDefiniteStmt env cs = e.isDefinite env cs := by
  unfold Expr.isDefiniteStmt
  split
  case h_1 l r span => exact absurd rfl (h l r span)
  case h_2 => rfl

/-- An expression as a statement: its value, if there is one, is stored or dropped. -/
theorem Expr.lowerStmt_runs (hgrants : S.Grants) {e : Expr} (h : e.Sited S names cs cs' τ)
    (hdef : G.strict → e.isDefiniteStmt S.check cs = true) :
    Runs G S names cs cs' (do e.lowerStmt; return false)
      (Performs S names cs (.stmt (.expr e))) := by
  intro s hs
  by_cases hassign : ∃ l r span, e = .binary .assign l r span
  · obtain ⟨l, r, span, rfl⟩ := hassign
    obtain ⟨n, span', rfl⟩ := check_assign_target h.check
    obtain ⟨τr, cs₁, hr, hvoid, hcases⟩ := h.value
    have hn : n ∈ names := h.suits.assigned (by simp)
    rw [Expr.lowerStmt]
    refine .bind (.ready_store cs₁ hs hn (((r.lowers hgrants).value [] hr hdef hvoid s hs).mono
      fun _ s₁ ⟨code, k, ⟨hcode, hk⟩, hheld, hw₁, hs₁⟩ => ⟨k, hheld, hs₁,
        fun s' hmax hw hs' htame => .pure ⟨_, .store hn ?_ hcode (hgrants _ ?_),
          (hw₁.trans hw).past hs.toLaid hs'.toLaid, fun hstrict m hm => ?_⟩⟩))
    · simpa using hmax
    · exact .store hr.fits hn
    · rcases hcases with ⟨-, -, -, rfl⟩ | ⟨f, -, -, -, -, -, rfl⟩
      · rcases hm.of_declare rfl with ⟨rfl, rfl⟩ | hbefore
        · exact htame ((hk hstrict).ne_bytes (by decide))
        · exact hs'.tame hstrict m hbefore
      · exact hs'.tame hstrict m hm
  · have hother : ∀ l r span, e ≠ .binary .assign l r span :=
      fun l r span heq => hassign ⟨l, r, span, heq⟩
    rw [Expr.isDefiniteStmt_eq hother] at hdef
    rw [Expr.lowerStmt_eq hother]
    refine .bind (.bind (.builder (.bind ((e.lowers hgrants [] h hdef s hs).mono
      fun _ s₁ ⟨code, left, ⟨hcode, _⟩, _, hw₁, hs₁⟩ => .bind (.builder ?_)))))
    have hcount : s₁.builder.depth - s.builder.depth = left.toList.length := by
      rw [hs₁.depth, hs.depth, List.append_nil, List.length_nil]
      omega
    obtain ⟨vars, hstack, hvars⟩ := hs₁.stack
    rw [hcount]
    refine .popMany hs₁.regime.toPermits (by rw [hstack]; simp) fun s' hgoes => .pure ?_
    have hs' : s'.Laid S names [] := by
      refine hs₁.toKept.laid hgoes.toNext ⟨vars, ?_, hvars⟩
      rw [hstack, List.append_nil, List.drop_left]
      rfl
    exact ⟨_, .discard hcode, (hw₁.trans hgoes.writes).past hs.toLaid hs',
      hs₁.tame.carry hgoes.adds.carries⟩

/-- Leaving a function: what ends the whole program is an integer. -/
theorem Stmt.leave_runs (hgrants : S.Grants) {kind : Leaving} {value : Option Expr} {span : Span}
    (hmain : G.strict → S.main = true → S.check.isEntry S.check.current = true)
    (h : (Stmt.leave kind value span).Sited S names cs cs')
    (hdef : G.strict → (Stmt.leave kind value span).isDefinite S.check cs = true) :
    Runs G S names cs cs' (do Lower.leaving kind value; return true)
      (Performs S names cs (.stmt (.leave kind value span))) := by
  suffices hends : ∀ s : LowerState, s.Ready G S names [] cs →
      (Lower.leaving kind value).Ends G.faults S.lower s fun _ s' => ∃ code,
        Performs S names cs (.stmt (.leave kind value span)) code true ∧
          s.Past S names s' code true ∧ s'.Knows G cs' by
    refine (Runs.leaving hends).mono ?_
    rintro code ends ⟨rfl, hcode⟩
    exact hcode
  intro s hs
  have hcheck := h.check
  rw [Stmt.check] at hcheck
  have hwell := checkLeaving_eq_ok hcheck
  clear hcheck
  unfold LeavesWell at hwell
  split at hwell
  case h_1 message span' =>
    subst hwell
    show (Lower.throwing (some (.bytes message span'))).Ends _ _ _ _
    refine .ready_throwing hs fun code s' happ hsig hp hknows => ⟨code, ?_, hp, hknows⟩
    cases hentry : S.lower.entry.isApplication with
    | true =>
      rw [happ hentry]
      exact .throwLogged hentry
    | false =>
      obtain ⟨text, rfl⟩ := hsig hentry
      exact .throwSilent hentry
  case h_2 => exact hwell.elim
  case h_3 e =>
    obtain ⟨τ, he, hvoid, hint⟩ := h.leave (by decide)
    refine .bind (((e.lowers hgrants).integer [] he hdef hvoid (hint (.inl rfl)) s hs).mono
      fun _ s₁ ⟨code, k, ⟨hcode, hk⟩, _, hw₁, hs₁⟩ => ?_)
    exact .ready_exit hw₁ hs.toLaid hs₁ hk fun s' hp hknows => ⟨_, .exit hcode, hp, hknows⟩
  case h_4 => exact hwell.elim
  case h_5 e =>
    obtain ⟨τ, he, hvoid, hint⟩ := h.leave (by decide)
    have hvalue := (e.lowers hgrants).value [] he hdef hvoid
    refine .bind (.get ?_)
    rw [hs.main]
    cases hm : S.main with
    | true =>
      refine .bind ((hvalue s hs).mono fun _ s₁ ⟨code, k, ⟨hcode, hk⟩, _, hw₁, hs₁⟩ => ?_)
      exact .ready_exit hw₁ hs.toLaid hs₁ (fun hstrict => (hk hstrict).ne_bytes
        (TypeTable.ne_bytes_of_isInteger (hint (.inr (hmain hstrict hm)))))
        fun s' hp hknows => ⟨_, .finish hm hcode, hp, hknows⟩
    | false =>
      have hreturns : S.check.currentReturns = true := by
        refine h.suits.sound.returns ⟨.returning, some e, span⟩ ?_ rfl rfl
        show _ ∈ Node.found _ _
        rw [Node.found_eq]
        exact List.mem_append_left _ List.mem_cons_self
      refine .bind ((hvalue s hs).mono fun _ s₁ ⟨code, k, ⟨hcode, _⟩, _, hw₁, hs₁⟩ => ?_)
      exact .ready_return hw₁ hs.toLaid hs₁ hm hreturns fun s' hmax hp hknows =>
        ⟨_, .ret hm hreturns hmax hcode, hp, hknows⟩
  case h_6 =>
    obtain ⟨rfl, hcurrent⟩ := hwell
    refine .bind (.get ?_)
    rw [hs.main]
    cases hm : S.main with
    | true =>
      refine .bind (.ready_op [] [.uint64] hs rfl rfl rfl rfl (fun _ => ⟨by decide, rfl⟩)
        fun s₁ hw₁ hs₁ => ?_)
      exact .ready_exit hw₁ hs.toLaid hs₁ (fun _ => by decide) fun s' hp hknows =>
        ⟨_, .finishNone hm, hp, hknows⟩
    | false =>
      have hreturns : S.check.currentReturns = false := by
        rcases hcurrent with hentry | hnone
        · rw [h.suits.sound.main hentry] at hm
          cases hm
        · exact hnone
      exact .ready_returnNothing hs hm hreturns fun s' hp hknows =>
        ⟨_, .retNone hm hreturns, hp, hknows⟩

/-- A condition is tested. -/
theorem Expr.Sited.tests {c : Expr} (hgrants : S.Grants) (h : c.Sited S names cs cs' τ)
    (hvoid : τ ≠ .void) (hint : isInteger τ) (hdef : G.strict → c.isDefinite S.check cs = true)
    (s : LowerState) (hs : s.Ready G S names [] cs) :
    Tests G S names cs' c.lower (fun code k => Emits S names cs 0 (.expr c) code (some k)) s :=
  ((c.lowers hgrants).integer [] h hdef hvoid hint s hs).mono
    fun _ _ ⟨code, k, ⟨hcode, hk⟩, _, hw, hs'⟩ => ⟨code, k, hcode, hk, hw, hs'⟩

/-! ## Statements made of others -/

/-- If a block is accepted, its code is the one that `Performs` tells. -/
def Block.Lowers (G : Rigour) (S : Setting) (b : Block) : Prop :=
  ∀ (names : List String) ⦃cs cs' : CheckState⦄, b.Sited S names cs cs' →
    (G.strict → b.isDefinite S.check cs = true) →
    Runs G S names cs cs' b.lower (Performs S names cs (.block b))

/-- If cases are accepted, they are a chain of conditionals. It starts where the tested expression
was checked, and is as far as `cs` once that was evaluated. -/
def Case.AllLower (G : Rigour) (S : Setting) (names : List String) (otherwise : Option Block)
    (cases : List Case) : Prop :=
  ∀ ⦃tested : Expr⦄ ⦃cs₀ cs₀' cs cs' : CheckState⦄ ⦃τ τ' : TypeId⦄,
    tested.Sited S names cs₀ cs₀' τ → τ ≠ .void →
    (G.strict → tested.isDefinite S.check cs₀ = true) →
    Case.ListSited S names cs cs' τ' cases otherwise →
    (G.strict → Case.areDefinite S.check cs
      (fun cs => otherwise.all fun b => b.isDefinite S.check cs) cases = true) → cases ≠ [] →
    ∃ link, Case.lowerChain tested (otherwise.map Block.lower) cases = some link ∧
      ∀ s : LowerState, s.Ready G S names [] cs₀ →
        (G.strict → ∀ n, cs.HoldsAny n → s.Tame n ∨ cs₀'.HoldsAny n) →
        link.Ends G.faults S.lower s
          (s.Through G S names cs' (Performs S names cs (.chain tested cs₀ cases otherwise)))

/-- A case, and the chain of the cases after it. -/
theorem Case.AllLower.cons {v : Expr} {vs : List Expr} {b : Block} {span : Span}
    {cases : List Case} {otherwise : Option Block} (hgrants : S.Grants) (hb : b.Lowers G S)
    (hother : ∀ d ∈ otherwise, d.Lowers G S) (ih : Case.AllLower G S names otherwise cases) :
    Case.AllLower G S names otherwise (⟨v :: vs, b, span⟩ :: cases) := by
  intro tested cs₀ cs₀' cs cs' τ τ' ht hvoid htdef hcases hdef _
  obtain ⟨cs₁, cs₂, hvs, hblock, hrest⟩ := hcases.cons
  simp only [Case.areDefinite, Expr.afterValues_eq hvs.check, Check.after_eq hblock.check,
    Bool.and_eq_true, imp_and] at hdef
  obtain ⟨⟨hvsdef, hbdef⟩, hrestdef⟩ := hdef
  have hthen := hb names hblock hbdef
  rw [Case.lowerChain]
  refine ⟨_, rfl, fun s hs hany => .ready_within hs fun s₁ hc₁ hs₁ => ?_⟩
  have hcondition := Case.condition_tests hgrants b span ht hvoid htdef hvs hvsdef hs₁
    fun hstrict n hn => (hany hstrict n hn).imp_left (hc₁.tame n)
  by_cases hne : cases = []
  · subst hne
    rw [Case.lowerChain]
    cases otherwise with
    | none =>
      obtain ⟨_, hcheck, rfl⟩ := hrest.check
      obtain ⟨-, rfl⟩ := Check.pure_eq_ok.1 (by simpa only [Case.checkList] using hcheck)
      refine (hcondition.ifThen hs₁.toLaid hthen).mono ?_
      rintro _ s' ⟨_, ⟨rfl, _, k, cb, ends', endLabel, ⟨τv, cs₃, ct, cts, hv, hct, hcts, rfl⟩, hcb,
        rfl⟩, hend⟩
      exact ⟨_, .chainLast hct hv hcts ⟨τ', hvs.check⟩ hcb, hend⟩
    | some d =>
      have hdef : G.strict → d.isDefinite S.check cs₂ = true := by
        simpa only [Case.areDefinite, Option.all_some] using hrestdef
      refine (hcondition.ifThenElse hs₁.toLaid hthen
        fun s₂ _ hs₂ => hother d rfl names hrest.last hdef s₂ hs₂).mono ?_
      rintro _ s' ⟨_, ⟨_, k, cb, cr, ends₁, ends₂, elseLabel, endLabel,
        ⟨τv, cs₃, ct, cts, hv, hct, hcts, rfl⟩, hcb, hcr, rfl, rfl⟩, hend⟩
      exact ⟨_, .chainCons hct hv hcts ⟨τ', hvs.check⟩ hcb hblock.check (.chainOtherwise hcr), hend⟩
  · obtain ⟨link, hlink, hchain⟩ := ih ht hvoid htdef hrest hrestdef hne
    rw [hlink]
    have hassigned : Case.testedNames tested cases ⊆ names :=
      Case.testedNames_subset ht.suits.assigned fun c hc =>
        ⟨(hrest.suits c hc).values_ne, fun v hv => ((hrest.suits c hc).values v hv).assigned⟩
    -- The tested expression is evaluated anew, with what was known before the first case.
    have hlinked := hcondition.ifThenElse hs₁.toLaid hthen fun s₂ hc₂ hs₂ =>
      .ready_link hs₂ hassigned fun s₃ hc₃ hs₃ =>
        hchain s₃ (hs₁.after (hc₂.trans hc₃) hs₃.toLaid) fun hstrict n hn =>
          .inl (hc₃.tame n (hs₂.tame hstrict n hn))
    refine hlinked.mono ?_
    rintro _ s' ⟨_, ⟨_, k, cb, cr, ends₁, ends₂, elseLabel, endLabel,
      ⟨τv, cs₃, ct, cts, hv, hct, hcts, rfl⟩, hcb, hcr, rfl, rfl⟩, hend⟩
    exact ⟨_, .chainCons hct hv hcts ⟨τ', hvs.check⟩ hcb hblock.check hcr, hend⟩

/-- A switch is the chain of its cases, or what is done in all other cases. -/
theorem Stmt.switch_runs {tested : Expr} {cases : List Case} {otherwise : Option Block}
    {span : Span} (h : (Stmt.switch tested cases otherwise span).Sited S names cs cs')
    (hdef : G.strict → (Stmt.switch tested cases otherwise span).isDefinite S.check cs = true)
    (hother : ∀ d ∈ otherwise, d.Lowers G S) (ih : Case.AllLower G S names otherwise cases) :
    Runs G S names cs cs' (match Case.lowerChain tested (otherwise.map Block.lower) cases with
      | some link => link
      | none => (otherwise.map Block.lower).getD (return false))
      (Performs S names cs (.stmt (.switch tested cases otherwise span))) := by
  obtain ⟨τ, cs₁, ht, hvoid, hcases⟩ := h.switch
  rw [Stmt.isDefinite_switch, Check.after_eq ht.check, Bool.and_eq_true, imp_and] at hdef
  obtain ⟨htdef, hdef⟩ := hdef
  intro s hs
  by_cases hne : cases = []
  · subst hne
    have hs₁ : s.Ready G S names [] cs₁ := hs.mono fun hstrict n hn => by
      have hgrows := (tested.check_accepts ht.fits.proper ht.check).grows
      rw [List.isEmpty_iff.1 (show tested.assigned.isEmpty = true from htdef hstrict)] at hgrows
      exact hs.tame hstrict n (hn.of_grows hgrows)
    rw [Case.lowerChain]
    cases otherwise with
    | none =>
      obtain ⟨_, hcheck, rfl⟩ := hcases.check
      obtain ⟨-, rfl⟩ := Check.pure_eq_ok.1 (by simpa only [Case.checkList] using hcheck)
      exact .pure ⟨[], .switch ht.check .chainNone, .nothing hs.toLaid, hs₁.tame⟩
    | some d =>
      have hdef : G.strict → d.isDefinite S.check cs₁ = true := by
        simpa only [Case.areDefinite, Option.all_some] using hdef
      exact ((hother d rfl names hcases.last hdef).mono fun code ends hcode =>
        .switch ht.check (.chainOtherwise hcode)) s hs₁
  · have htdef : G.strict → tested.isDefinite S.check cs = true := by
      rwa [Expr.isDefiniteTested, if_neg (by simpa using hne)] at htdef
    obtain ⟨link, hlink, hchain⟩ := ih ht hvoid htdef hcases hdef hne
    rw [hlink]
    refine (hchain s hs fun _ n hn => .inr hn).mono ?_
    rintro _ _ ⟨code, hcode, hend⟩
    exact ⟨code, .switch ht.check hcode, hend⟩

mutual

/-- The code of an accepted statement is the one that `Performs` tells. -/
theorem Stmt.lower_runs (hgrants : S.Grants)
    (hmain : G.strict → S.main = true → S.check.isEntry S.check.current = true) :
    ∀ (st : Stmt) (names : List String) {cs cs' : CheckState}, st.Sited S names cs cs' →
    (G.strict → st.isDefinite S.check cs = true) →
    Runs G S names cs cs' st.lower (Performs S names cs (.stmt st))
  | .ifElse c t none span, names, cs, cs', h, hdef => by
    obtain ⟨τ, cs₁, hc, hvoid, hint, ht⟩ := h.ifThen
    rw [Stmt.isDefinite, Check.after_eq hc.check, Bool.and_eq_true, imp_and] at hdef
    have hthen := t.lower_runs hgrants hmain names ht hdef.2
    have hcode : Runs G S names cs cs' (Lower.ifThen c.lower t.lower) _ := fun s hs =>
      (hc.tests hgrants hvoid hint hdef.1 s hs).ifThen hs.toLaid hthen
    rw [Stmt.lower]
    refine hcode.within.mono ?_
    rintro code ends ⟨rfl, cc, k, ca, ends', endLabel, hcc, hca, rfl⟩
    exact .ifThen hcc hc.check hca
  | .ifElse c t (some e) span, names, cs, cs', h, hdef => by
    obtain ⟨τ, cs₁, cs₂, hc, hvoid, hint, ht, he⟩ := h.ifElse
    simp only [Stmt.isDefinite, Check.after_eq hc.check, Check.after_eq ht.check,
      Bool.and_eq_true, imp_and] at hdef
    have hthen := t.lower_runs hgrants hmain names ht hdef.1.2
    have helse := e.lower_runs hgrants hmain names he hdef.2
    have hcode : Runs G S names cs cs' (Lower.ifThenElse c.lower t.lower e.lower) _ := fun s hs =>
      (hc.tests hgrants hvoid hint hdef.1.1 s hs).ifThenElse hs.toLaid hthen fun s₁ _ => helse s₁
    rw [Stmt.lower]
    refine hcode.within.mono ?_
    rintro code ends ⟨cc, k, ca, cb, ends₁, ends₂, elseLabel, endLabel, hcc, hca, hcb, rfl, rfl⟩
    exact .ifElse hcc hc.check hca ht.check hcb
  | .whileDo c b span, names, cs, cs', h, hdef => by
    obtain ⟨τ, cs₁, hc, hvoid, hint, hb⟩ := h.whileDo
    rw [Stmt.isDefinite, Check.after_eq hc.check, Bool.and_eq_true, imp_and] at hdef
    rw [Stmt.lower]
    refine (Runs.whileDo (hc.tests hgrants hvoid hint hdef.1)
      (b.lower_runs hgrants hmain names hb hdef.2)).within.mono ?_
    rintro code ends ⟨rfl, cc, k, ca, ends', startLabel, endLabel, hcc, hca, rfl⟩
    exact .whileDo hcc hc.check hca
  | .doWhile b c span, names, cs, cs', h, hdef => by
    obtain ⟨τ, cs₁, hb, hc, hvoid, hint⟩ := h.doWhile
    rw [Stmt.isDefinite, Check.after_eq hb.check, Bool.and_eq_true, imp_and] at hdef
    rw [Stmt.lower]
    refine ((b.lower_runs hgrants hmain names hb hdef.1).doWhile
      (hc.tests hgrants hvoid hint hdef.2)).within.mono ?_
    rintro code ends ⟨ca, cc, k, startLabel, hca, hcc, rfl⟩
    exact .doWhile hca hb.check hcc
  | .switch t cases none span, names, cs, cs', h, hdef => by
    rw [Stmt.lower, Lower.switch_eq fun c hc => (h.suits.case hc).values_ne]
    have hother : ∀ b ∈ (none : Option Block), b.Lowers G S := nofun
    exact (Stmt.switch_runs h hdef hother
      (Case.allLower hgrants hmain cases names hother)).within
  | .switch t cases (some d) span, names, cs, cs', h, hdef => by
    have hother : ∀ b ∈ some d, b.Lowers G S := by
      rintro _ ⟨⟩
      exact d.lower_runs hgrants hmain
    simp only [Stmt.lower]
    rw [Lower.switch_eq fun c hc => (h.suits.case hc).values_ne]
    exact (Stmt.switch_runs h hdef hother
      (Case.allLower hgrants hmain cases names hother)).within
  | .leave kind value span, names, cs, cs', h, hdef => by
    rw [Stmt.lower]
    exact (Stmt.leave_runs hgrants hmain h hdef).within
  | .expr e, names, cs, cs', h, hdef => by
    obtain ⟨τ, he⟩ := h.expr
    rw [Stmt.lower]
    exact Expr.lowerStmt_runs hgrants he hdef

/-- The code of accepted statements in a row. -/
theorem Stmt.lowerList_runs (hgrants : S.Grants)
    (hmain : G.strict → S.main = true → S.check.isEntry S.check.current = true) :
    ∀ (ss : List Stmt) (names : List String) {cs cs' : CheckState},
    Stmt.ListSited S names cs cs' ss → (G.strict → Stmt.areDefinite S.check cs ss = true) →
    MayRun G S names cs cs' (Stmt.lowerList ss) (Performs S names cs (.stmts ss))
  | [], names, cs, cs', h, _ => by
    obtain ⟨-, rfl⟩ := Check.pure_eq_ok.1 (by simpa only [Stmt.checkList] using h.check)
    rw [Stmt.lowerList]
    exact fun s hs => .pure ⟨[], .nil, .nothing hs.toLaid, fun _ => hs.tame⟩
  | st :: ss, names, cs, cs', h, hdef => by
    obtain ⟨cs₁, hst, hss⟩ := h.cons
    rw [Stmt.areDefinite, Check.after_eq hst.check, Bool.and_eq_true, imp_and] at hdef
    have hboth := (st.lower_runs hgrants hmain names hst hdef.1).andThen
      (Stmt.lowerList_runs hgrants hmain ss names hss hdef.2)
    rw [Stmt.lowerList]
    intro s hs
    refine (hboth s hs).mono ?_
    rintro ends s' ⟨_, ⟨rfl, hR⟩ | ⟨ca, cb, hca, hcb, rfl⟩, hend⟩
    · exact ⟨_, .last hR, hend⟩
    · exact ⟨_, .next hca hst.check hcb, hend⟩

/-- The code of an accepted block. -/
theorem Block.lower_runs (hgrants : S.Grants)
    (hmain : G.strict → S.main = true → S.check.isEntry S.check.current = true) :
    ∀ b : Block, b.Lowers G S
  | ⟨ss, span⟩ => by
    intro names cs cs' h hdef
    obtain ⟨cs₁, hss, -⟩ := h.body
    rw [Block.isDefinite] at hdef
    rw [Block.lower]
    have hscopes := (Block.check_accepts _ h.fits.proper h.check).2
    refine ((Stmt.lowerList_runs hgrants hmain ss _ hss hdef).block
      (fun n hn => show cs.HoldsAny n from hn) fun n hn => hn.of_scopes hscopes).mono ?_
    rintro code ends ⟨inner, hinner, rfl⟩
    exact .block rfl hinner

/-- The code of the cases of an accepted switch, as a chain of conditionals. -/
theorem Case.allLower (hgrants : S.Grants)
    (hmain : G.strict → S.main = true → S.check.isEntry S.check.current = true)
    {otherwise : Option Block} : ∀ (cases : List Case) (names : List String),
    (∀ d ∈ otherwise, d.Lowers G S) → Case.AllLower G S names otherwise cases
  | [], names, _ => by
    intro tested cs₀ cs₀' cs cs' τ τ' _ _ _ _ _ hne
    exact absurd rfl hne
  | ⟨[], b, span⟩ :: cases, names, _ => by
    intro tested cs₀ cs₀' cs cs' τ τ' _ _ _ hcases
    exact absurd rfl (hcases.suits _ List.mem_cons_self).values_ne
  | ⟨v :: vs, b, span⟩ :: cases, names, hother =>
    .cons hgrants (b.lower_runs hgrants hmain) hother
      (Case.allLower hgrants hmain cases names hother)

end

end ContractCompiler
