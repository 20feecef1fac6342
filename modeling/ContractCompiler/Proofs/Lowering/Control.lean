import ContractCompiler.Proofs.Lowering.Blocks
import ContractCompiler.Proofs.Lowering.Expressions

/-!
# The code of control flow

What conditionals, loops and departures do to a layout, given that the code of their parts meets
its specification. Where two ways meet, both must have left the slots alone; where a part never
gets to its end, the stack is taken from before it.
-/

namespace ContractCompiler

namespace Lower

open LowerState

variable {G : Rigour} {S : Setting} {names : List String} {cs cs' cs₁ cs₂ : CheckState}
  {c : Lower Unit} {a b : Lower Bool} {s : LowerState}
  {Rc : List Instruction → StackType → Prop} {Ra Rb : List Instruction → Bool → Prop}

/-! ## Conditionals and loops -/

/-- A value that is tested, of which `cs` is known then. -/
def Tests (G : Rigour) (S : Setting) (names : List String) (cs : CheckState) (x : Lower Unit)
    (R : List Instruction → StackType → Prop) (s : LowerState) : Prop :=
  x.Ends G.faults S.lower s fun _ s' => ∃ code k, R code k ∧ (G.strict → k ≠ .bytes) ∧
    s.Writes S s' code ∧ s'.Ready G S names [k] cs

/-- A conditional statement without an alternative. -/
theorem Tests.ifThen (hs : s.Laid S names []) (hc : Tests G S names cs₁ c Rc s)
    (ha : Runs G S names cs₁ cs' a Ra) :
    (Lower.ifThen c a).Ends G.faults S.lower s (s.Through G S names cs' fun code ends =>
      ends = false ∧ ∃ cc k ca ends' endLabel, Rc cc k ∧ Ra ca ends' ∧
        code = cc ++ [.op .bz [.label endLabel]] ++ ca ++ [.label endLabel]) := by
  refine .bind (Ends.mono hc fun _ s₁ ⟨cc, k, hRc, hk, hw₁, hs₁⟩ => ?_)
  refine .bind (.ready_freshLabel hs₁ fun endLabel s₂ ha₂ hs₂ => ?_)
  refine .bind (.ready_jumpIf (.inl rfl) hs₂ hk fun s₃ ha₃ hs₃ => .bind (.builder ?_))
  refine .bind ((ha s₃ hs₃).mono fun ends s₄ ⟨ca, hRa, hp₄, hknows⟩ => ?_)
  refine .bind (.label fun s₅ hnext => ?_)
  have hend : ∀ s', s₅.Adds s' [] → s'.Laid S names [] → s.Past S names s'
      (cc ++ [.op .bz [.label endLabel]] ++ ca ++ [.label endLabel]) false ∧ s'.Knows G cs' := by
    intro s' ha' hs'
    have hlast := hnext.adds.trans ha'
    have hbody := ha₂.trans (ha₃.trans hp₄.toAdds)
    refine ⟨⟨by simpa using hw₁.toAdds.trans (hbody.trans hlast), hs'.toKept, fun _ => hs',
      fun hcap => ?_⟩, hknows.carry hlast.carries⟩
    have hcap₄ := Nat.le_trans hlast.peak hcap
    exact .skip (hw₁.scans_laid hs hs₁.toLaid (Nat.le_trans hbody.peak hcap₄))
      (Domain.heights_jumpIf (.inl rfl)) (hp₄.scans hcap₄) (knownAfter_within _ rfl)
  cases ends with
  | true =>
    exact .bind (.laid_restore (hp₄.kept.next hnext) hs₃.stack fun s' ha' hs' =>
      .pure ⟨_, ⟨rfl, cc, k, ca, true, endLabel, hRc, hRa, rfl⟩, hend s' ha' hs'⟩)
  | false =>
    exact .bind (.laid_merge ((hp₄.laid rfl).same hnext) hs₃.stack rfl fun s' ha' hs' =>
      .pure ⟨_, ⟨rfl, cc, k, ca, false, endLabel, hRc, hRa, rfl⟩, hend s' ha' hs'⟩)

/-- A conditional statement. The alternative is looked at after the first block, also if control
does not get past that. -/
theorem Tests.ifThenElse (hs : s.Laid S names []) (hc : Tests G S names cs₁ c Rc s)
    (ha : Runs G S names cs₁ cs₂ a Ra)
    (hb : ∀ s₁, s.Carries s₁ → s₁.Ready G S names [] cs₂ →
      b.Ends G.faults S.lower s₁ (s₁.Through G S names cs' Rb)) :
    (Lower.ifThenElse c a b).Ends G.faults S.lower s (s.Through G S names cs' fun code ends =>
      ∃ cc k ca cb ends₁ ends₂ elseLabel endLabel, Rc cc k ∧ Ra ca ends₁ ∧ Rb cb ends₂ ∧
        ends = (ends₁ && ends₂) ∧ code = cc ++ [.op .bz [.label elseLabel]] ++ ca ++
          [.op .branch [.label endLabel], .label elseLabel] ++ cb ++ [.label endLabel]) := by
  refine .bind (Ends.mono hc fun _ s₁ ⟨cc, k, hRc, hk, hw₁, hs₁⟩ => ?_)
  refine .bind (.ready_freshLabel hs₁ fun elseLabel s₂ ha₂ hs₂ => ?_)
  refine .bind (.ready_freshLabel hs₂ fun endLabel s₃ ha₃ hs₃ => ?_)
  refine .bind (.ready_jumpIf (.inl rfl) hs₃ hk fun s₄ ha₄ hs₄ => .bind (.builder ?_))
  refine .bind ((ha s₄ hs₄).mono fun ends₁ s₅ ⟨ca, hRa, hp₅, hknows₅⟩ => .bind (.builder ?_))
  refine .bind (.bare (hp₅.machine ▸ hs₄.regime) rfl rfl rfl rfl (by decide) fun s₆ hnext₆ => ?_)
  refine .bind (.label fun s₇ hnext₇ => ?_)
  have hk₇ := (hp₅.kept.next hnext₆).next hnext₇
  refine .bind (.laid_restore hk₇ hs₄.stack fun s₈ ha₈ hl₈ => ?_)
  have hfirst := ha₂.trans (ha₃.trans (ha₄.trans hp₅.toAdds))
  have hbetween := hnext₆.adds.trans (hnext₇.adds.trans ha₈)
  have hbefore := hw₁.toAdds.trans (hfirst.trans hbetween)
  have hs₈ := (hs₄.after (hp₅.toAdds.trans hbetween).carries hl₈).mono
    (hknows₅.carry hbetween.carries)
  refine .bind ((hb s₈ hbefore.carries hs₈).mono fun ends₂ s₉ ⟨cb, hRb, hp₉, hknows₉⟩ => ?_)
  refine .bind (.label fun s₁₀ hnext₁₀ => ?_)
  have hk₁₀ := hp₉.kept.next hnext₁₀
  have hend : ∀ s', s₁₀.Adds s' [] → s'.Kept S names →
      ((ends₁ && ends₂) = false → s'.Laid S names []) → s.Past S names s'
        (cc ++ [.op .bz [.label elseLabel]] ++ ca ++ [.op .branch [.label endLabel],
          .label elseLabel] ++ cb ++ [.label endLabel]) (ends₁ && ends₂) ∧ s'.Knows G cs' := by
    intro s' ha' hk hs'
    have hlast := hnext₁₀.adds.trans ha'
    refine ⟨⟨by simpa using hbefore.trans (hp₉.toAdds.trans hlast), hk, hs', fun hcap => ?_⟩,
      hknows₉.carry hlast.carries⟩
    have hcap₉ := Nat.le_trans hlast.peak hcap
    have hcap₅ := Nat.le_trans (hbetween.trans hp₉.toAdds).peak hcap₉
    exact .choice (hw₁.scans_laid hs hs₁.toLaid (Nat.le_trans hfirst.peak hcap₅))
      (Domain.heights_jumpIf (.inl rfl)) (hp₅.scans hcap₅) (knownAfter_and_left _ _ rfl)
      (hp₉.scans hcap₉) (knownAfter_and_right _ _ rfl)
  have hcode : ∃ cc' k' ca' cb' ends₁' ends₂' elseLabel' endLabel', Rc cc' k' ∧ Ra ca' ends₁' ∧
      Rb cb' ends₂' ∧ (ends₁ && ends₂) = (ends₁' && ends₂') ∧ cc ++ [.op .bz [.label elseLabel]] ++
        ca ++ [.op .branch [.label endLabel], .label elseLabel] ++ cb ++ [.label endLabel] =
        cc' ++ [.op .bz [.label elseLabel']] ++ ca' ++ [.op .branch [.label endLabel'],
          .label elseLabel'] ++ cb' ++ [.label endLabel'] :=
    ⟨cc, k, ca, cb, ends₁, ends₂, elseLabel, endLabel, hRc, hRa, hRb, rfl, rfl⟩
  cases ends₁ with
  | true =>
    exact .bind (.pure (.pure
      ⟨_, hcode, hend s₁₀ .refl hk₁₀ fun hends => (hp₉.laid hends).same hnext₁₀⟩))
  | false =>
    cases ends₂ with
    | true =>
      exact .bind (.laid_restore hk₁₀ (hp₅.laid rfl).stack fun s' ha' hs' =>
        .pure ⟨_, hcode, hend s' ha' hs'.toKept fun _ => hs'⟩)
    | false =>
      exact .bind (.laid_merge ((hp₉.laid rfl).same hnext₁₀) (hp₅.laid rfl).stack rfl
        fun s' ha' hs' => .pure ⟨_, hcode, hend s' ha' hs'.toKept fun _ => hs'⟩)

theorem Runs.whileDo
    (hc : ∀ s : LowerState, s.Ready G S names [] cs → Tests G S names cs₁ c Rc s)
    (ha : Runs G S names cs₁ cs' a Ra) :
    Runs G S names cs cs' (Lower.whileDo c a) fun code ends => ends = false ∧
      ∃ cc k ca ends' startLabel endLabel, Rc cc k ∧ Ra ca ends' ∧
        code = [.label startLabel] ++ cc ++ [.op .bz [.label endLabel]] ++ ca ++
          [.op .branch [.label startLabel], .label endLabel] := by
  intro s hs
  refine .bind (.ready_freshLabel hs fun startLabel s₁ ha₁ hs₁ => ?_)
  refine .bind (.ready_freshLabel hs₁ fun endLabel s₂ ha₂ hs₂ => ?_)
  refine .bind (.ready_label hs₂ fun s₃ ha₃ hs₃ => ?_)
  refine .bind (Ends.mono (hc s₃ hs₃) fun _ s₄ ⟨cc, k, hRc, hk, hw₄, hs₄⟩ => ?_)
  refine .bind (.ready_jumpIf (.inl rfl) hs₄ hk fun s₅ ha₅ hs₅ => .bind (.builder ?_))
  refine .bind ((ha s₅ hs₅).mono fun ends s₆ ⟨ca, hRa, hp₆, hknows⟩ => ?_)
  refine .bind (.bare (hp₆.machine ▸ hs₅.regime) rfl rfl rfl rfl (by decide) fun s₇ hnext₇ => ?_)
  refine .bind (.label fun s₈ hnext₈ => ?_)
  refine .bind (.laid_restore ((hp₆.kept.next hnext₇).next hnext₈) hs₅.stack
    fun s' ha' hs' => .pure ?_)
  have hlast := hnext₇.adds.trans (hnext₈.adds.trans ha')
  have hbody := ha₅.trans hp₆.toAdds
  have hall := ha₁.trans (ha₂.trans (ha₃.trans (hw₄.toAdds.trans (hbody.trans hlast))))
  refine ⟨_, ⟨rfl, cc, k, ca, ends, startLabel, endLabel, hRc, hRa, rfl⟩,
    ⟨by simpa using hall, hs'.toKept, fun _ => hs', fun hcap => ?_⟩, hknows.carry hlast.carries⟩
  have hcap₆ := Nat.le_trans hlast.peak hcap
  exact .loop (hw₄.scans_laid hs₃.toLaid hs₄.toLaid (Nat.le_trans hbody.peak hcap₆))
    (Domain.heights_jumpIf (.inl rfl)) (hp₆.scans hcap₆) (knownAfter_within _ rfl)

theorem Runs.doWhile (ha : Runs G S names cs cs₁ a Ra)
    (hc : ∀ s : LowerState, s.Ready G S names [] cs₁ → Tests G S names cs' c Rc s) :
    Runs G S names cs cs' (Lower.doWhile a c) fun code ends => ∃ ca cc k startLabel, Ra ca ends ∧
      Rc cc k ∧
        code = [.label startLabel] ++ ca ++ cc ++ [.op .bnz [.label startLabel]] := by
  intro s hs
  refine .bind (.ready_freshLabel hs fun startLabel s₁ ha₁ hs₁ => ?_)
  refine .bind (.ready_label hs₁ fun s₂ ha₂ hs₂ => .bind (.builder ?_))
  refine .bind ((ha s₂ hs₂).mono fun ends s₃ ⟨ca, hRa, hp₃, hknows⟩ => ?_)
  refine .bind (.laid_restore hp₃.kept hs₂.stack fun s₄ ha₄ hl₄ => ?_)
  have hs₄ := (hs₂.after (hp₃.toAdds.trans ha₄).carries hl₄).mono (hknows.carry ha₄.carries)
  refine .bind (Ends.mono (hc s₄ hs₄) fun _ s₅ ⟨cc, k, hRc, hk, hw₅, hs₅⟩ => ?_)
  refine .bind (.ready_jumpIf (.inr rfl) hs₅ hk fun s' ha' hs' => .pure ?_)
  have hrest := ha₄.trans (hw₅.toAdds.trans ha')
  have hall := ha₁.trans (ha₂.trans (hp₃.toAdds.trans hrest))
  refine ⟨_, ⟨ca, cc, k, startLabel, hRa, hRc, rfl⟩,
    ⟨by simpa using hall, hs'.toKept, fun _ => hs'.toLaid, fun hcap => ?_⟩, hs'.tame⟩
  have hbody := hp₃.scans (Nat.le_trans hrest.peak hcap)
  cases ends with
  | true => exact .once hbody
  | false =>
    exact .again hbody (hw₅.scans_laid hl₄ hs₅.toLaid (Nat.le_trans ha'.peak hcap))
      (Domain.heights_jumpIf (.inr rfl)) .refl

/-- Statements in a row: what follows one that control does not get past is left out. -/
theorem Runs.andThen (ha : Runs G S names cs cs₁ a Ra) (hb : MayRun G S names cs₁ cs' b Rb) :
    MayRun G S names cs cs' (Lower.andThen a b) fun code ends => (ends = true ∧ Ra code true) ∨
      ∃ ca cb, Ra ca false ∧ Rb cb ends ∧ code = ca ++ cb := by
  intro s hs
  refine .bind ((ha s hs).mono fun ends s₁ ⟨ca, hRa, hp₁, hknows⟩ => ?_)
  cases ends with
  | true => exact .pure ⟨ca, .inl ⟨rfl, hRa⟩, hp₁, nofun⟩
  | false =>
    have hs₁ := (hs.after hp₁.carries (hp₁.laid rfl)).mono hknows
    refine (hb s₁ hs₁).mono fun ends s' ⟨cb, hRb, hp, hknows'⟩ =>
      ⟨ca ++ cb, .inr ⟨ca, cb, hRa, hRb, rfl⟩,
        ⟨hp₁.toAdds.trans hp.toAdds, hp.kept, hp.laid, fun hcap => ?_⟩, hknows'⟩
    exact (hp₁.scans (Nat.le_trans hp.peak hcap)).append (hp.scans hcap)

/-- A link of a chain in a block of its own, which makes no slots. -/
theorem Ends.ready_link {assigned : List String} {link : Lower Bool}
    (hs : s.Ready G S names [] cs) (hassigned : assigned ⊆ names)
    (h : ∀ s₁, s.Carries s₁ → s₁.Ready G S names [] cs →
      link.Ends G.faults S.lower s₁ (s₁.Through G S names cs' Ra)) :
    (Lower.block assigned (Lower.andThen link (return false))).Ends G.faults S.lower s
      (s.Through G S names cs' Ra) := by
  have hnew := newNames_eq_nil hassigned
  refine .ready_block hs fun s₁ hc₁ hs₁ => ?_
  simp only [hnew, List.reverse_nil, List.nil_append, List.not_mem_nil, not_false_eq_true,
    true_implies, List.length_nil, List.replicate_zero, ite_self, List.append_nil] at hs₁ ⊢
  refine .bind ((h s₁ hc₁ hs₁).mono fun ends s₂ ⟨code, hR, hp₂, hknows⟩ => ?_)
  have hend : ∃ inner, s₁.Past S names s₂ inner ends ∧ ∀ s', s.Past S names s' inner ends →
      (∀ n, s₂.Tame n → s'.Tame n) → s.Through G S names cs' Ra ends s' :=
    ⟨code, hp₂, fun s' hp htame => ⟨code, hR, hp, fun hstrict n hn =>
      htame n (hknows hstrict n hn)⟩⟩
  cases ends with
  | true => exact .pure hend
  | false => exact .pure hend

/-! ## Leaving a function -/

/-- Code after which control does not go on. -/
theorem Runs.leaving {x : Lower Unit} {R : List Instruction → Prop}
    (h : ∀ s : LowerState, s.Ready G S names [] cs → x.Ends G.faults S.lower s fun _ s' =>
      ∃ code, R code ∧ s.Past S names s' code true ∧ s'.Knows G cs') :
    Runs G S names cs cs' (do x; return true) fun code ends => ends = true ∧ R code := fun s hs =>
  .bind ((h s hs).mono fun _ _ ⟨code, hR, hrest⟩ => .pure ⟨code, ⟨rfl, hR⟩, hrest⟩)

variable {F : CodeFault → Prop} {env : LowerEnv} {post : Unit → LowerState → Prop} {k : StackType}
  {code : List Instruction}

/-- Ends the program with the value on top. -/
theorem Ends.ready_exit {s₀ : LowerState} (hw : s₀.Writes S s code) (hs₀ : s₀.Laid S names [])
    (hs : s.Ready G S names [k] cs) (hk : G.strict → k ≠ .bytes)
    (h : ∀ s', s₀.Past S names s' (code ++ plain [.exit]) true → s'.Knows G cs → post () s') :
    (op₀ .exit).Ends G.faults env s post :=
  .ready_taking [k] [] hs rfl rfl rfl rfl (suits_integer hk rfl (by decide)) fun s' ha _ hs' =>
    h s' (hw.stop hs₀ hs.toLaid ha hs'.toKept (.stop rfl rfl (Nat.le_add_left _ _) (Nat.zero_le _)
      rfl rfl nofun)) hs'.tame

theorem Ends.ready_err {s₀ : LowerState} (hw : s₀.Writes S s code) (hs₀ : s₀.Laid S names [])
    (hs : s.Ready G S names [] cs)
    (h : ∀ s', s₀.Past S names s' (code ++ plain [.err]) true → s'.Knows G cs → post () s') :
    (op₀ .err).Ends G.faults env s post :=
  .ready_taking [] [] hs rfl rfl rfl rfl (fun _ => ⟨by decide, rfl⟩) fun s' ha _ hs' =>
    h s' (hw.stop hs₀ hs.toLaid ha hs'.toKept (.stop rfl rfl (Nat.zero_le _) (Nat.zero_le _)
      rfl rfl nofun)) hs'.tame

theorem Ends.ready_throwing {message : List UInt8} {span : Span} (hs : s.Ready G S names [] cs)
    (h : ∀ code s', (S.lower.entry.isApplication = true → code =
        [.op .pushbytes [.bytes message], .op .log [], .op .err []]) →
      (S.lower.entry.isApplication = false → ∃ text, code = [.comment text, .op .err []]) →
      s.Past S names s' code true → s'.Knows G cs → post () s') :
    (throwing (some (.bytes message span))).Ends G.faults S.lower s post := by
  refine .bind (.read ?_)
  cases happ : S.lower.entry.isApplication with
  | true =>
    rw [happ] at h
    refine .bind (.ready_op [] [.bytes] hs rfl rfl rfl rfl (fun _ => ⟨by decide, rfl⟩)
      fun s₁ hw₁ hs₁ => ?_)
    refine .bind (.ready_op [.bytes] [] hs₁ rfl rfl rfl rfl (fun _ => ⟨by decide, rfl⟩)
      fun s₂ hw₂ hs₂ => ?_)
    exact .ready_err (hw₁.trans hw₂) hs.toLaid hs₂ fun s' => h _ s' (fun _ => rfl) nofun
  | false =>
    rw [happ] at h
    refine .bind (.comment fun s₁ hgoes => ?_)
    have hs₁ := hs.after hgoes.adds.carries (hs.toLaid.same hgoes.toNext)
    exact .ready_err hgoes.writes hs.toLaid hs₁ fun s' => h _ s' nofun fun _ => ⟨_, rfl⟩

/-- Drops all slots but the one on top, unless there are too many. -/
theorem Ends.dropBelowTop {rest : StackShape} (hF : Permits F s.builder.machine)
    (hstack : s.builder.stack = k :: rest)
    (hdeep : maxImmediate < rest.length → F (.tooManyBelow rest.length))
    (h : ∀ stack s', rest.length ≤ maxImmediate → s.Goes s' (dropCode rest.length) stack →
      stack.length = 1 → post () s') :
    Lower.dropBelowTop.Ends F env s post := by
  have hdepth : s.builder.depth = rest.length + 1 := congrArg List.length hstack
  refine .bind (.builder ?_)
  rw [hdepth, Nat.add_sub_cancel]
  match hn : rest.length with
  | 0 =>
    rw [hn] at h
    exact .pure (h _ s (Nat.zero_le _) .refl (hdepth.trans (congrArg _ hn)))
  | 1 =>
    rw [hn] at h hdepth
    obtain ⟨t, rfl⟩ := List.length_eq_one_iff.1 hn
    refine .bind (.moving [t, k] hF rfl rfl (by rw [hstack]; rfl) fun s₁ hnext₁ hnoted => ?_)
    have hswap := hnext₁.goes (fun _ => (⟨rfl, rfl, rfl, rfl⟩ : Instruction.Steps _ _ 2 2))
      (by rw [hdepth]) (by rw [hdepth]; rfl) hnoted
    refine .passing (hnext₁.machine ▸ hF) rfl rfl rfl
      (by rw [hnext₁.stack]; exact Nat.le_succ 1) fun s' hgoes => ?_
    rw [hnext₁.stack] at hgoes
    exact h _ s' (by decide) (hswap.trans hgoes) rfl
  | n + 2 =>
    rw [hn] at h hdeep hdepth
    refine .guard hdeep fun hmax => ?_
    have hle : n + 2 ≤ maxImmediate := Nat.le_of_not_lt hmax
    have hcover : StackEffect.apply .cover [.uint (UInt64.ofNat (n + 2))] s.builder.stack =
        .ok (rest.take (n + 2) ++ k :: rest.drop (n + 2)) := by
      rw [hstack]
      exact apply_cover hle (Nat.le_of_eq hn.symm)
    have hlen : (rest.take (n + 2) ++ k :: rest.drop (n + 2)).length = n + 3 := by
      rw [List.length_append, List.length_cons, List.length_take, List.length_drop, hn]
      omega
    refine .bind (.moving _ hF rfl rfl hcover fun s₁ hnext₁ hnoted => ?_)
    have hgoes₁ := hnext₁.goes (Instruction.cover_steps hle) (by rw [hdepth]) (by omega) hnoted
    refine .popMany (hnext₁.machine ▸ hF) (by rw [hnext₁.stack, hlen]; omega) fun s' hgoes => ?_
    rw [hnext₁.stack] at hgoes
    exact h _ s' hle (hgoes₁.trans hgoes) (by rw [List.length_drop, hlen]; omega)

/-- Drops the slots of all variables from below a value, and returns. -/
theorem Ends.ready_return {s₀ : LowerState} (hw : s₀.Writes S s code) (hs₀ : s₀.Laid S names [])
    (hs : s.Ready G S names [k] cs) (hmain : S.main = false)
    (hreturns : S.check.currentReturns = true)
    (h : ∀ s', names.length ≤ maxImmediate →
      s₀.Past S names s' (code ++ dropCode names.length ++ plain [.retsub]) true →
      s'.Knows G cs → post () s') :
    (do
      Lower.dropBelowTop
      op₀ .retsub : Lower Unit).Ends G.faults env s post := by
  obtain ⟨vars, hstack, hlen, -⟩ := hs.stack
  rw [← hlen] at h
  refine .bind (.dropBelowTop hs.regime.toPermits hstack (fun _ => hs.regime.tooManyBelow _)
    fun stack s₁ hmax hgoes hone => ?_)
  refine .bare (hgoes.machine ▸ hs.regime) rfl rfl rfl rfl (by decide) fun s' hnext => ?_
  have hdrop := hgoes.adds.trans hnext.adds
  refine h s' hmax ⟨?_, (hs.toKept.next hgoes.toNext).next hnext, nofun, fun hcap => ?_⟩
    (hs.tame.carry hdrop.carries)
  · rw [List.append_assoc]
    exact hw.toAdds.trans hdrop
  · have hcap₁ := Nat.le_trans hnext.adds.peak hcap
    have hvalue := hw.scans_laid hs₀ hs.toLaid (Nat.le_trans hgoes.peak hcap₁)
    have hdepth : s₁.builder.depth = 1 := (congrArg List.length hgoes.stack).trans hone
    have hscans := (hgoes.writes (S := S)).scans hcap₁
    rw [hs.depth, hdepth] at hscans
    exact (hvalue.append hscans).append (.stop rfl rfl (Nat.zero_le _) (Nat.zero_le _) rfl rfl
      fun _ _ => ⟨hmain, by rw [hreturns]; rfl⟩)

/-- Pops everything and returns. -/
theorem Ends.ready_returnNothing (hs : s.Ready G S names [] cs) (hmain : S.main = false)
    (hreturns : S.check.currentReturns = false)
    (h : ∀ s', s.Past S names s' (List.replicate names.length (.op .pop []) ++ plain [.retsub])
      true → s'.Knows G cs → post () s') :
    (do
      Lower.popMany (← Lower.builder).depth
      op₀ .retsub : Lower Unit).Ends G.faults env s post := by
  have hdepth : s.builder.depth = names.length := hs.depth
  refine .bind (.builder (.bind (.popMany hs.regime.toPermits (Nat.le_refl _) fun s₁ hgoes => ?_)))
  refine .bare (hgoes.machine ▸ hs.regime) rfl rfl rfl rfl (by decide) fun s' hnext => ?_
  have hall := hgoes.adds.trans hnext.adds
  have hempty : s₁.builder.depth = 0 := by
    rw [Builder.depth, hgoes.stack, List.length_drop]
    exact Nat.sub_self _
  have hscans : ∀ {cap}, s₁.peak ≤ cap → Scannable (S.heights cap) _ _ _ :=
    (hgoes.writes (S := S)).scans
  rw [hdepth] at hall
  rw [hdepth, hempty] at hscans
  refine h s' ⟨hall, (hs.toKept.next hgoes.toNext).next hnext, ?_, fun hcap => ?_⟩
    (hs.tame.carry hall.carries)
  · rintro ⟨⟩
  · exact (hscans (Nat.le_trans hnext.adds.peak hcap)).append (.stop rfl rfl (Nat.zero_le _)
      (Nat.zero_le _) rfl rfl fun _ _ => ⟨hmain, by rw [hreturns]; rfl⟩)

end Lower

end ContractCompiler
