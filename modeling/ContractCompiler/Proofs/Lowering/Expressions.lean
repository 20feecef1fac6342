import ContractCompiler.Proofs.Lowering.Occurrences

/-!
# The code of expressions

The code of an accepted expression is the one that `Emits` tells, and lowering it fails at most
for reasons that lie in the source, and for none at all that lies in a definite expression. The
induction goes over the syntax; its invariant is that the slots stay where they are and that just
the value of the expression comes on top.
-/

namespace ContractCompiler

open Lower

variable {G : Rigour} {S : Setting} {names : List String} {temps : List StackType}
  {cs cs' cs₁ cs₂ : CheckState} {τ : TypeId}

namespace Lower

open LowerState

/-! ## Code that leaves values -/

/-- `Leaves G S names temps cs cs' x R`: from `cs` to `cs'`, on values of types `temps` above the
slots of `names`, `x` emits some code and leaves a value or none, as `R` tells. -/
def Leaves (G : Rigour) (S : Setting) (names : List String) (temps : List StackType)
    (cs cs' : CheckState) (x : Lower Unit) (R : List Instruction → Option StackType → Prop) :
    Prop :=
  ∀ s : LowerState, s.Ready G S names temps cs → x.Ends G.faults S.lower s fun _ s' =>
    ∃ code left, R code left ∧ (∀ k ∈ left, S.held k) ∧ s.Writes S s' code ∧
      s'.Ready G S names (left.toList ++ temps) cs'

/-- Code that leaves a value in any case. -/
def Yields (G : Rigour) (S : Setting) (names : List String) (temps : List StackType)
    (cs cs' : CheckState) (x : Lower Unit) (R : List Instruction → StackType → Prop) : Prop :=
  ∀ s : LowerState, s.Ready G S names temps cs → x.Ends G.faults S.lower s fun _ s' =>
    ∃ code k, R code k ∧ S.held k ∧ s.Writes S s' code ∧ s'.Ready G S names (k :: temps) cs'

variable {F : CodeFault → Prop} {s : LowerState} {x : Lower Unit}

theorem Yields.mono {R R' : List Instruction → StackType → Prop}
    (h : Yields G S names temps cs cs' x R) (himp : ∀ code k, R code k → R' code k) :
    Yields G S names temps cs cs' x R' :=
  fun s hs => (h s hs).mono fun _ _ ⟨code, k, hR, hrest⟩ => ⟨code, k, himp code k hR, hrest⟩

/-- A choice leaves the value of one of its arms. -/
theorem Yields.choice {c l r : Lower Unit} {Rc Rl Rr : List Instruction → StackType → Prop}
    (hc : Yields G S names temps cs cs₁ c Rc) (htest : ∀ code k, Rc code k → G.strict → k ≠ .bytes)
    (hl : Yields G S names temps cs₁ cs₂ l Rl) (hr : Yields G S names temps cs₂ cs' r Rr) :
    Yields G S names temps cs cs' (Lower.choice c l r) fun code k =>
      ∃ cc kc cl kl cr kr elseLabel endLabel, Rc cc kc ∧ Rl cl kl ∧ Rr cr kr ∧
        k = kr.join kl ∧ code = cc ++ [.op .bz [.label elseLabel]] ++ cl ++
          [.op .branch [.label endLabel], .label elseLabel] ++ cr ++ [.label endLabel] := by
  intro s hs
  refine .bind (.ready_freshLabel hs fun elseLabel s₁ ha₁ hs₁ => ?_)
  refine .bind (.ready_freshLabel hs₁ fun endLabel s₂ ha₂ hs₂ => ?_)
  refine .bind ((hc s₂ hs₂).mono fun _ s₃ ⟨cc, kc, hRc, _, hw₃, hs₃⟩ => ?_)
  refine .bind (.ready_jumpIf (.inl rfl) hs₃ (htest cc kc hRc) fun s₄ ha₄ hs₄ => ?_)
  refine .bind (.builder ?_)
  refine .bind ((hl s₄ hs₄).mono fun _ s₅ ⟨cl, kl, hRl, hkl, hw₅, hs₅⟩ => .bind (.builder ?_))
  refine .bind (.ready_taking [] [] hs₅ rfl rfl rfl rfl (fun _ => ⟨by decide, rfl⟩)
    fun s₆ ha₆ _ hs₆ => ?_)
  refine .bind (.ready_label hs₆ fun s₇ ha₇ hs₇ => ?_)
  -- The other arm starts from the stack before the first one.
  refine .bind (.laid_restore hs₇.toKept hs₄.stack fun s₈ ha₈ hl₈ => ?_)
  have hs₈ := hs₇.after ha₈.carries hl₈
  refine .bind ((hr s₈ hs₈).mono fun _ s₉ ⟨cr, kr, hRr, hkr, hw₉, hs₉⟩ => ?_)
  refine .bind (.ready_label hs₉ fun s₁₀ ha₁₀ hs₁₀ => ?_)
  refine .laid_merge hs₁₀.toLaid hs₅.stack rfl fun s' ha hl' => ?_
  rw [List.zipWith_cons_cons, zipWith_join_self] at hl'
  refine ⟨_, _, ⟨cc, kc, cl, kl, cr, kr, elseLabel, endLabel, hRc, hRl, hRr, rfl, rfl⟩, ?_, ?_,
    hs₁₀.after ha.carries hl'⟩
  · unfold StackType.join
    split
    · exact hkr
    · exact S.held_any
  · have hend := ha₁₀.trans ha
    have hsecond := ha₆.trans (ha₇.trans (ha₈.trans hw₉.toAdds))
    have hfirst := ha₄.trans hw₅.toAdds
    have hall := ha₁.trans (ha₂.trans (hw₃.toAdds.trans (hfirst.trans (hsecond.trans hend))))
    refine Adds.writes_laid (by simpa using hall) hs.toLaid hl' fun hcap => ?_
    have hcap₉ := Nat.le_trans hend.peak hcap
    have hcap₅ := Nat.le_trans hsecond.peak hcap₉
    have hcap₃ := Nat.le_trans hfirst.peak hcap₅
    exact .choice (hw₃.scans_laid hs₂.toLaid hs₃.toLaid hcap₃) (Domain.heights_jumpIf (.inl rfl))
      (hw₅.scans_laid hs₄.toLaid hs₅.toLaid hcap₅) .refl
      (hw₉.scans_laid hl₈ hs₉.toLaid hcap₉) .refl

/-- A call: its arguments go, and a value may come. -/
theorem Ends.ready_call {f : String} {sig : Signature} {taken : List StackType}
    {post : Unit → LowerState → Prop} (hs : s.Ready G S names (taken ++ temps) cs)
    (hsig : S.lower.signatures.lookup f = some sig) (hlen : taken.length = sig.arity)
    (h : ∀ s', s.Writes S s' [.op .callsub [.label f]] →
      s'.Ready G S names ((if sig.returnsValue then [.any] else []) ++ temps) cs → post () s') :
    (do
      Lower.op .callsub [.label f]
      build (Builder.callEffect taken.length sig.returnsValue) : Lower Unit).Ends G.faults S.lower s
      post := by
  refine .bind (.ready_taking [] [] hs rfl rfl rfl rfl (fun _ => ⟨by decide, rfl⟩)
    fun s₁ ha₁ _ hs₁ => ?_)
  have hs₁ : s₁.Ready G S names (taken ++ temps) cs := hs₁
  obtain ⟨vars, hstack, hvars⟩ := hs₁.stack
  refine .callEffect (by rw [hs₁.length, List.length_append]; omega) fun s' hnext hnoted => ?_
  have hs' : s'.Laid S names ((if sig.returnsValue then [.any] else []) ++ temps) := by
    refine hs₁.toKept.laid hnext ⟨vars, ?_, hvars⟩
    rw [hstack, List.append_assoc, List.drop_left, List.append_assoc]
  have hall := ha₁.trans hnext.adds
  refine h s' ⟨by simpa using hall, fun hcap => ?_⟩ (hs.after hall.carries hs')
  have heffect : (Instruction.op .callsub [.label f]).Steps S.lower.signatures sig.arity
      (if sig.returnsValue then 1 else 0) := by
    refine ⟨rfl, ?_, rfl, rfl⟩
    simp [Instruction.effect?, hsig]
  refine heffect.scans ?_ ?_ (Nat.le_trans hnoted hcap)
  · rw [hs.depth, List.length_append]
    omega
  · rw [hs.depth, hs'.depth, List.length_append, List.length_append, ← hlen]
    split <;> simp <;> omega

/-- Whether an expression is the name of a type and not that of a variable. -/
def namesType (names : List String) (e : Expr) : Bool :=
  match e.asName? with
  | none => false
  | some n => decide (n ∉ names) && (Builtin.types.lookup? n).isSome

theorem not_mem_of_namesType {n : String} {span : Span}
    (h : namesType names (.var (.name n span)) = true) : n ∉ names := by
  simp only [namesType, Expr.asName?, Bool.and_eq_true, decide_eq_true_eq] at h
  exact h.1

theorem Ends.laid_isTypeName {env : LowerEnv} {e : Expr} {post : Bool → LowerState → Prop}
    (hs : s.Laid S names temps) (h : post (namesType names e) s) :
    (isTypeName e).Ends F env s post := by
  unfold isTypeName
  unfold namesType at h
  cases hn : e.asName? with
  | none =>
    rw [hn] at h
    exact .pure h
  | some n =>
    rw [hn] at h
    refine .bind (.slot? (.pure ?_))
    by_cases hmem : n ∈ names
    · obtain ⟨slot, hslot, -⟩ := hs.slot_of_mem hmem
      rw [hslot]
      simpa [hmem] using h
    · rw [hs.slot_of_not_mem hmem]
      simpa [hmem] using h

end Lower

/-- Only calls can leave nothing, and what leaves nothing is of the type of such calls. -/
theorem Emits.isSome {t : Nat} {e : Expr} {code : List Instruction}
    {left : Option StackType} (h : Emits S names cs t (.expr e) code left)
    (hcheck : e.check S.check cs = .ok (τ, cs')) (hτ : τ ≠ .void) : left.isSome := by
  cases h with
  | call hf hsig harity hentry hcallable hargs =>
    obtain ⟨sig', hsig', -, -, -, rfl⟩ := check_call hf hcheck
    rw [S.signatures_eq, hsig] at hsig'
    cases hsig'
    split
    case isTrue => rfl
    case isFalse hret => exact absurd (if_neg hret) hτ
  | place hload hr hread hname => cases hread <;> rfl
  | _ => rfl

/-! ## Expressions -/

/-- The type that an operand has as a name is found by the lowering as well. -/
theorem Scopes.Fits.namesType_eq_true {Γ : Scopes} {n : String} {span : Span} {mode : Mode}
    (hΓ : Γ.Fits mode names) (htype : (Γ.lookup? n).map Field.type = some .type) :
    namesType names (.var (.name n span)) = true := by
  obtain ⟨f, hf, hftype⟩ := Option.map_eq_some_iff.1 htype
  have hn := hΓ.not_mem_of_type htype
  have hsome := ((hΓ.of_not_mem hn hf).2.1 hftype).2
  simp [namesType, Expr.asName?, hn, hsome]

/-- An operand with a value is no name of a type. -/
theorem Scopes.Fits.namesType_eq_false {e : Expr} (hΓ : cs.scopes.Fits S.check.mode names)
    (hcheck : e.check S.check cs = .ok (τ, cs')) (hτ : Builtin.checkedTypes.isValue τ) : namesType names e = false := by
  unfold namesType
  cases hn : e.asName? with
  | none => rfl
  | some n =>
    obtain ⟨span, rfl⟩ := Expr.eq_name_of_asName? hn
    obtain ⟨f, hf, rfl, -⟩ := check_var hcheck
    obtain ⟨hlookup, -⟩ := check_name hf
    by_cases hmem : n ∈ names
    · simp [hmem]
    · simp [(hΓ.of_not_mem hmem hlookup).2.2 hτ]


theorem Variable.steps_ne_nil (v : Variable) : v.steps ≠ [] := by
  cases v <;> simp [Variable.steps]

/-- A place that is read as a name is one. -/
theorem Variable.eq_name_of_load {v : Variable} {n : String}
    (h : Load.ofSteps? v.steps = some (.named n)) : ∃ span, v = .name n span := by
  have hsteps : v.steps = [.name n] := by
    generalize v.steps = steps at h
    cases Load.serves h
    rfl
  cases v with
  | name m span =>
    cases hsteps
    exact ⟨span, rfl⟩
  | index base i span => simp [Variable.steps, List.append_eq_singleton_iff] at hsteps
  | member owner m span =>
    simp [Variable.steps, List.append_eq_singleton_iff, owner.steps_ne_nil] at hsteps

theorem Setting.held_resultOf {o : BinaryOperator} {kl kr : StackType} (hl : S.held kl)
    (hr : S.held kr) : S.held (o.resultOf kl kr) := by
  unfold BinaryOperator.resultOf
  split
  case isTrue => exact S.held_uint64
  case isFalse =>
    split
    case isTrue => exact S.held_uint64
    case isFalse hbytes =>
      rcases Decidable.not_and_iff_not_or_not.1 hbytes with h | h
      · rwa [Decidable.not_not.1 h] at hl
      · rwa [Decidable.not_not.1 h] at hr

/-- An expression that reads a place which is no name is of no use without byte strings. -/
theorem Expr.Suits.held_of_read {place : Variable} (hs : (Expr.var place).Suits S names)
    {entry : Entry} {load : Load Expr} {r : Reading}
    (hload : Load.ofSteps? place.steps = some load) (hr : Reading.ofLoad? entry load = some r) :
    S.held .bytes := by
  rcases hs.integral with hheld | ⟨readable, hint⟩
  · exact hheld
  · cases place with
    | name n span =>
      cases hload
      cases hr
    | _ => simp [Expr.isIntegral] at hint

/-- Reading a place, given that the code of its index yields what is no byte string. -/
theorem Lower.Reads.of_index {s : LowerState} {place : Variable} {r : Reading} {f : Field}
    {post : Unit → LowerState → Prop} (hvalid : r.Valid) (hreads : r.Reads place)
    (hmode : G.strict → r.code.mode ≠ .signature) (hs : s.Ready G S names temps cs)
    (hplace : place.Sited S names cs cs' f)
    (hindex : ∀ i, r.index = some i → ∃ base g cs₁, place.index? = some (base, i) ∧
      base.check S.check cs = .ok (g, cs₁) ∧ Yields G S names temps cs₁ cs' i.lower fun code k =>
        Emits S names cs₁ temps.length (.expr i) code (some k) ∧ (G.strict → k ≠ .bytes))
    (hpost : ∀ code s', Emits S names cs temps.length (.read place r) code (some r.type) →
      s.Writes S s' code → s'.Ready G S names (r.type :: temps) cs' → post () s') :
    Reads G.faults S s names temps post r := by
  have hcode := hvalid.code
  unfold Reads
  cases hi : r.index with
  | none =>
    rw [hi] at hcode
    obtain ⟨hplain, hpops, -⟩ := Reading.directCodes_spec _ hcode
    have htypes : StackEffect.checkTypes r.code r.code.pops [] 1 = .ok () := by
      rw [List.eq_nil_of_length_eq_zero hpops]
      rfl
    -- A place whose index is not computed has no code before its operation.
    have hgrows := (place.check_accepts hplace.fits.proper hplace.check).grows
    rw [Variable.assigned_of_literals (hreads.literal hi)] at hgrows
    have hs₁ : s.Ready G S names temps cs' :=
      hs.mono fun hstrict n hn => hs.tame hstrict n (hn.of_grows hgrows)
    exact ⟨hs₁.granted [] (Opcode.moves_of_isPlain hplain) hvalid.operands hpops.symm
      fun hstrict => ⟨hmode hstrict, htypes⟩, fun s' hw hs' =>
        hpost _ s' (.readDirect hvalid hi) hw (hs₁.after hw.carries hs')⟩
  | some i =>
    rw [hi] at hcode
    obtain ⟨hplain, hpops, -⟩ := Reading.indexedCodes_spec _ hcode
    obtain ⟨base, g, cs₁, hbase, hcheck, hyields⟩ := hindex i hi
    have hgrows := (base.check_accepts hplace.fits.proper hcheck).grows
    rw [Variable.assigned_of_literals (Variable.literals_of_indexes (hreads.single _ _ hbase))]
      at hgrows
    have hs₁ : s.Ready G S names temps cs₁ :=
      hs.mono fun hstrict n hn => hs.tame hstrict n (hn.of_grows hgrows)
    refine (hyields s hs₁).mono fun _ s₂ ⟨code, k, ⟨hemits, hk⟩, _, hw₂, hs₂⟩ =>
      ⟨k, hs₂.toLaid, ?_, fun s' hw hs' => ?_⟩
    · exact hs₂.granted [k] (Opcode.moves_of_isPlain hplain) hvalid.operands hpops.symm
        fun hstrict => ⟨hmode hstrict, Reading.indexedCodes_suit hcode (hk hstrict)⟩
    · exact hpost _ s' (.readIndexed hvalid hi hbase hcheck hemits) (hw₂.trans hw)
        (hs₂.after hw.carries hs')

/-- If an expression is accepted, its code is the one that `Emits` tells, and leaves what its type
admits if it is definite. -/
def Expr.Lowers (G : Rigour) (S : Setting) (names : List String) (e : Expr) : Prop :=
  ∀ (temps : List StackType) {cs cs' : CheckState} {τ : TypeId}, e.Sited S names cs cs' τ →
    (G.strict → e.isDefinite S.check cs = true) →
    Leaves G S names temps cs cs' e.lower fun code left =>
      Emits S names cs temps.length (.expr e) code left ∧ (G.strict → ∀ k ∈ left, τ.Admits k)

/-- If arguments are accepted, their code leaves a value for each of them. -/
def Expr.AllLower (G : Rigour) (S : Setting) (names : List String) (es : List Expr) : Prop :=
  ∀ (callee : String) (temps : List StackType) {cs cs' : CheckState},
    Expr.ArgumentsSited S names cs cs' es → (G.strict → Expr.areDefinite S.check cs es = true) →
    ∀ s : LowerState, s.Ready G S names temps cs →
      (Expr.lowerArguments callee es).Ends G.faults S.lower s fun _ s' => ∃ code taken,
        Emits S names cs temps.length (.args es) code none ∧ taken.length = es.length ∧
          s.Writes S s' code ∧ s'.Ready G S names (taken ++ temps) cs'

/-- The last index of a place has code, and is definite if the place is. -/
def Variable.IndexLowers (G : Rigour) (S : Setting) (names : List String) (v : Variable) : Prop :=
  ∀ ⦃cs cs₁ : CheckState⦄ ⦃g : Field⦄ ⦃base : Variable⦄ ⦃i : Expr⦄,
    (G.strict → v.isDefinite S.check cs = true) → v.index? = some (base, i) →
    base.check S.check cs = .ok (g, cs₁) →
    i.Lowers G S names ∧ (G.strict → i.isDefinite S.check cs₁ = true)

theorem Lower.Yields.leaves {e : Expr}
    (h : Yields G S names temps cs cs' e.lower fun code k =>
      Emits S names cs temps.length (.expr e) code (some k) ∧ (G.strict → τ.Admits k)) :
    Leaves G S names temps cs cs' e.lower fun code left =>
      Emits S names cs temps.length (.expr e) code left ∧ (G.strict → ∀ k ∈ left, τ.Admits k) := by
  intro s hs
  refine (h s hs).mono fun _ s' ⟨code, k, ⟨hcode, hk⟩, hheld, hw, hs'⟩ =>
    ⟨code, some k, ⟨hcode, fun hstrict _ hmem => ?_⟩, fun _ hmem => ?_, hw, hs'⟩
  · cases hmem
    exact hk hstrict
  · cases hmem
    exact hheld

namespace Expr.Lowers

variable {e l r c : Expr} {span span' : Span}

/-- Code that leaves a value, since the type is not that of calls which give nothing. -/
theorem value (h : e.Lowers G S names) (temps : List StackType) (he : e.Sited S names cs cs' τ)
    (hdef : G.strict → e.isDefinite S.check cs = true) (hτ : τ ≠ .void) :
    Yields G S names temps cs cs' e.lower fun code k =>
      Emits S names cs temps.length (.expr e) code (some k) ∧ (G.strict → τ.Admits k) := by
  intro s hs
  refine (h temps he hdef s hs).mono fun _ s' ⟨code, left, ⟨hcode, hk⟩, hheld, hw, hs'⟩ => ?_
  obtain ⟨k, rfl⟩ := Option.isSome_iff_exists.1 (hcode.isSome he.check hτ)
  exact ⟨code, k, ⟨hcode, fun hstrict => hk hstrict k rfl⟩, hheld k rfl, hw, hs'⟩

/-- Code of what is no byte string. -/
theorem notBytes (h : e.Lowers G S names) (temps : List StackType) (he : e.Sited S names cs cs' τ)
    (hdef : G.strict → e.isDefinite S.check cs = true) (hvoid : τ ≠ .void) (hτ : τ ≠ .bytes) :
    Yields G S names temps cs cs' e.lower fun code k =>
      Emits S names cs temps.length (.expr e) code (some k) ∧ (G.strict → k ≠ .bytes) := by
  refine (h.value temps he hdef hvoid).mono ?_
  rintro code k ⟨hcode, hk⟩
  exact ⟨hcode, fun hstrict => (hk hstrict).ne_bytes hτ⟩

/-- Code of an integer. -/
theorem integer (h : e.Lowers G S names) (temps : List StackType) (he : e.Sited S names cs cs' τ)
    (hdef : G.strict → e.isDefinite S.check cs = true) (hvoid : τ ≠ .void)
    (hτ : TypeTable.isInteger τ) : Yields G S names temps cs cs' e.lower fun code k =>
      Emits S names cs temps.length (.expr e) code (some k) ∧ (G.strict → k ≠ .bytes) :=
  h.notBytes temps he hdef hvoid (TypeTable.ne_bytes_of_isInteger hτ)

theorem not (ih : e.Lowers G S names) : (Expr.unary .not e span).Lowers G S names := by
  intro temps cs cs' τ h hdef
  obtain ⟨τe, he, hvoid, hint, rfl⟩ := h.operand_not
  refine Yields.leaves fun s hs => ?_
  rw [Expr.lower]
  refine .bind ((ih.integer temps he hdef hvoid hint s hs).mono ?_)
  rintro _ s₁ ⟨code, k, ⟨hcode, hk⟩, -, hw₁, hs₁⟩
  exact .ready_not hs₁ hk fun s' hw hs' =>
    ⟨_, _, ⟨.not hcode, fun _ => TypeId.admits_uint64⟩, S.held_uint64, hw₁.trans hw, hs'⟩

theorem complement (hgrants : S.Grants) (ih : e.Lowers G S names) :
    (Expr.unary .complement e span).Lowers G S names := by
  intro temps cs cs' τ h hdef
  obtain ⟨he, hvoid, -⟩ := h.operand_complement
  refine Yields.leaves fun s hs => ?_
  rw [Expr.lower]
  refine .bind ((ih.value temps he hdef hvoid s hs).mono ?_)
  rintro _ s₁ ⟨code, k, ⟨hcode, hk⟩, hheld, hw₁, hs₁⟩
  refine .ready_complement hs₁ fun s' hw hs' => ⟨_, _,
    ⟨.complement hcode (hgrants _ (.complement he hcode)), fun hstrict hbytes => hk hstrict ?_⟩, ?_,
    hw₁.trans hw, hs'⟩
  · by_contra hne
    rw [if_neg hne] at hbytes
    cases hbytes
  · split
    case isTrue hbytes => rwa [hbytes] at hheld
    case isFalse => exact S.held_uint64

/-- A byte string is not kept as something that can be anything. -/
theorem assign {n : String} (hgrants : S.Grants) (ih : r.Lowers G S names) :
    (Expr.binary .assign (.var (.name n span)) r span').Lowers G S names := by
  intro temps cs cs' τ h hdef
  obtain ⟨τr, cs₁, hr, hvoid, hcases⟩ := h.value
  rw [Expr.isDefinite, Bool.and_eq_true, Bool.not_eq_true', imp_and] at hdef
  obtain ⟨hdef, hkept⟩ := hdef
  have hn : n ∈ names := h.suits.assigned (by simp)
  refine Yields.leaves fun s hs => ?_
  rw [Expr.lower]
  refine .ready_assign cs₁ hs hn ((ih.value temps hr hdef hvoid s hs).mono ?_)
  rintro _ s₁ ⟨code, k, ⟨hcode, hk⟩, hheld, hw₁, hs₁⟩
  refine ⟨k, hheld, hs₁, fun s' hmax hw hs' htame => ⟨_, k,
    ⟨.assign hn hmax hcode (hgrants _ (.store h.fits hn)), fun hstrict hbytes => ?_⟩, hheld, ?_,
    hs'.mono fun hstrict m hm => ?_⟩⟩
  · have hbytes := hk hstrict hbytes
    rcases hcases with ⟨-, -, rfl, -⟩ | ⟨f, -, -, -, hcompat, rfl, -⟩
    · exact hbytes
    · have hkept := Expr.losesBytes_eq_false h.check hr.check (hkept hstrict) hbytes
      rw [hbytes] at hcompat
      exact TypeTable.eq_bytes_of_isCompatible hcompat hkept
  · rw [List.append_assoc]
    exact hw₁.trans hw
  · rcases hcases with ⟨-, -, -, rfl⟩ | ⟨f, -, -, -, -, -, rfl⟩
    · rcases hm.of_declare rfl with ⟨rfl, rfl⟩ | hbefore
      · exact htame ((hk hstrict).ne_bytes (by decide))
      · exact hs'.tame hstrict m hbefore
    · exact hs'.tame hstrict m hm

theorem choice (ihc : c.Lowers G S names) (ihl : l.Lowers G S names) (ihr : r.Lowers G S names) :
    (Expr.binary .ternary c (.binary .colon l r span) span').Lowers G S names := by
  intro temps cs cs' τ h hdef
  obtain ⟨τc, cs₁, τl, cs₂, τr, hc, hvc, hint, hl, hvl, hr, hvr, -, rfl⟩ := h.choice
  simp only [Expr.isDefinite, Check.after_eq hc.check, Check.after_eq hl.check,
    Bool.and_eq_true, imp_and] at hdef
  obtain ⟨⟨hdefc, hdefl⟩, hdefr⟩ := hdef
  have hchoice := (ihc.integer temps hc hdefc hvc hint).choice (fun _ _ hk => hk.2)
    (ihl.value temps hl hdefl hvl) (ihr.value temps hr hdefr hvr)
  refine Yields.leaves ?_
  rw [Expr.lower]
  refine hchoice.mono ?_
  rintro _ _ ⟨cc, kc, cl, kl, cr, kr, elseLabel, endLabel, hcc, hcl, hcr, rfl, rfl⟩
  exact ⟨.choice hcc.1 hc.check hcl.1 hl.check hcr.1,
    fun hstrict => (hcl.2 hstrict).choice (hcr.2 hstrict)⟩

/-- A cast leads to a type of values. -/
theorem cast (hgrants : S.Grants) (ih : l.Lowers G S names) :
    (Expr.binary .colon l r span).Lowers G S names := by
  intro temps cs cs' τ h hdef
  obtain ⟨τl, n, span', hl, hvoid, rfl, hlookup, htype⟩ := h.cast
  rw [Expr.isDefinite, Expr.hasValue_eq h.check, S.types_eq, Bool.and_eq_true, imp_and] at hdef
  obtain ⟨hdef, hvalue⟩ := hdef
  obtain ⟨f, hf, hftype⟩ := Option.map_eq_some_iff.1 htype
  have hnot := hl.fits_after.not_mem_of_type htype
  have hsame := ((hl.fits_after.of_not_mem hnot hf).2.1 hftype).1
  rw [S.types_eq, ← hsame] at hlookup
  refine Yields.leaves fun s hs => ?_
  rw [Expr.lower]
  refine .ready_cast cs' hs
    (fun hstrict => ⟨_, hlookup, Builtin.isCastable_of_isValue (hvalue hstrict)⟩)
    ((ih.value temps hl hdef hvoid s hs).mono ?_)
  rintro _ s₁ ⟨code, k, ⟨hcode, -⟩, -, hw₁, hs₁⟩
  refine ⟨k, hs₁, fun target s' htarget hcast hw hs' => ⟨_, _,
    ⟨.cast hcode hl.check htarget hcast (hgrants _ (.cast hl hcode htarget))
      (hgrants _ (.builtin hl.fits_after hnot hf)), fun _ hbytes => ?_⟩,
    S.held_of_bytes h.suits.cast.2 _, hw₁.trans hw, hs'⟩⟩
  cases hlookup.symm.trans htarget
  by_contra hne
  rw [castResult, if_neg hne] at hbytes
  split at hbytes <;> cases hbytes

/-- Operators have forms for their operands, and tests of types for what they test. -/
theorem operator {o : BinaryOperator} (hgrants : S.Grants) (ho : o.uintOpcode?.isSome)
    (ihl : l.Lowers G S names) (ihr : r.Lowers G S names)
    (ihi : ∀ place, l = .var place → place.IndexLowers G S names) :
    (Expr.binary o l r span).Lowers G S names := by
  intro temps cs cs' τ h hdef
  refine Yields.leaves fun s hs => ?_
  rw [Expr.lower_operator ho]
  refine .bind (.laid_isTypeName hs.toLaid ?_)
  rw [Expr.isDefinite_operator ho] at hdef
  rcases h.operator ho with
    ⟨place, n, span', target, f, hop, rfl, rfl, hlookup, htype, hplace, rfl⟩ |
    ⟨τl, cs₁, τr, hl, hvl, hr, hvr, hints, hvalue, hvalue', hcompat, rfl⟩
  · have hnames : Lower.namesType names (.var (.name n span')) = true :=
      h.fits.namesType_eq_true htype
    obtain ⟨htrans, hcode⟩ := check_typeTest hop htype hlookup h.check
    obtain ⟨g, hg, -⟩ := Option.map_eq_some_iff.1 htype
    rw [Expr.namesType_eq_true htype, Bool.and_true,
      if_pos (by rcases hop with rfl | rfl <;> rfl)] at hdef
    rw [if_pos ⟨hop, hnames⟩]
    refine .ready_typeTest hs.toLaid (fun hfail => ?_) fun c rd hc hrd => ?_
    · have hsome := Reading.ofTransaction?_isSome htrans
      rcases hfail with hnone | hnone
      · rw [hnone] at hcode
        cases hcode
      · rw [hnone] at hsome
        cases hsome
    have hnot := not_mem_of_namesType hnames
    have hreads := Reading.reads_ofTransaction? hrd
    refine .of_index (Reading.ofTransaction?_valid hrd) hreads
      (fun _ => Reading.mode_ofTransaction? hrd) hs hplace (fun i hi => ?_)
      fun code s₁ hcode hw₁ hs₁ => ⟨cs', Reading.type_ofTransaction? hrd ▸ hs₁, fun s' hw hs' =>
        ⟨_, _, ⟨.typeTest hop hrd hcode hc hnot (hgrants _ (.builtin h.fits hnot hg))
          (hgrants _ (.transaction hplace hrd)), fun _ => TypeId.admits_uint64⟩,
          S.held_uint64, hw₁.trans hw, hs'⟩⟩
    obtain ⟨base, hbase⟩ := place.index?_of_steps (Reading.ofTransaction?_index hrd hi)
    obtain ⟨g, cs₁, τi, hcheck, hsite, hvoid, hbytes⟩ := hplace.index_type hbase
      (hreads.single _ _ hbase) (Reading.steps_of_ofTransaction? hrd hi) List.mem_cons_self
    obtain ⟨ih, hdef⟩ := ihi place rfl hdef hbase hcheck
    exact ⟨base, g, cs₁, hbase, hcheck, ih.notBytes temps hsite hdef hvoid hbytes⟩
  · rw [S.types_eq] at hvalue'
    have hno : Lower.namesType names r = false := hl.fits_after.namesType_eq_false hr.check hvalue'
    rw [hr.namesType_eq_false h.fits hvalue', Bool.and_false, if_neg Bool.false_ne_true,
      Check.after_eq hl.check, Bool.and_eq_true, Bool.and_eq_true, Bool.not_eq_true', imp_and,
      imp_and] at hdef
    obtain ⟨⟨hdefl, hdefr⟩, hkept⟩ := hdef
    rw [if_neg (by rw [hno]; simp)]
    refine .bind ((ihl.value temps hl hdefl hvl s hs).mono
      fun _ s₁ ⟨cl, kl, ⟨hcl, hkl⟩, hheldl, hw₁, hs₁⟩ => ?_)
    refine .bind ((ihr.value (kl :: temps) hr hdefr hvr s₁ hs₁).mono
      fun _ s₂ ⟨cr, kr, ⟨hcr, hkr⟩, hheldr, hw₂, hs₂⟩ => ?_)
    refine .ready_operator hs₂ ho (fun hstrict hneeds => ?_) fun s' htakes hw hs' => ⟨_, _,
      ⟨.operator hcl hl.check hcr htakes (hgrants _ (.operator hl hr hcl hcr htakes)),
        fun hstrict => (hkl hstrict).operator (hkr hstrict) hcompat
          (Expr.losesBytes_eq_false h.check hr.check (hkept hstrict))⟩,
      S.held_resultOf hheldl hheldr, ?_, hs'⟩
    · obtain ⟨hil, hir⟩ := hints hneeds
      exact ⟨(hkl hstrict).ne_bytes (TypeTable.ne_bytes_of_isInteger hil),
        (hkr hstrict).ne_bytes (TypeTable.ne_bytes_of_isInteger hir)⟩
    · rw [List.append_assoc]
      exact hw₁.trans (hw₂.trans hw)

theorem hash {args : List Expr} (hgrants : S.Grants) (ih : ∀ e ∈ args, e.Lowers G S names) :
    (Expr.call Builtin.hashFunction.1 args span).Lowers G S names := by
  intro temps cs cs' τ h hdef
  obtain ⟨input, n, span', τi, rfl, hi, hvoid, -, rfl, htype⟩ := h.hash
  rw [Expr.isDefinite, if_pos rfl, Bool.and_eq_true, imp_and] at hdef
  have hbytes : S.held .bytes := by simpa [Expr.isIntegral] using h.suits.integral
  refine Yields.leaves fun s hs => ?_
  rw [Expr.lower, if_pos rfl]
  refine .ready_hash cs' hs (fun hstrict => hashOpcode?_isSome (hdef.2 hstrict))
    (((ih input List.mem_cons_self).value temps hi hdef.1 hvoid s hs).mono ?_)
  rintro _ s₁ ⟨code, k, ⟨hcode, -⟩, -, hw₁, hs₁⟩
  refine ⟨k, hs₁, fun c s' hc hw hs' => ⟨_, _, ⟨.hash hcode hi.check hc fun m hm => ?_,
    fun _ _ => rfl⟩, hbytes, hw₁.trans hw, hs'⟩⟩
  cases hm
  rw [S.builtin_eq] at htype
  obtain ⟨f, hf, -⟩ := Option.map_eq_some_iff.1 htype
  exact hgrants _ (.builtin hi.fits_after (hi.fits_after.not_mem_of_hash htype hc) hf)

theorem call {f : String} {args : List Expr} (hf : f ≠ Builtin.hashFunction.1)
    (ih : Expr.AllLower G S names args) : (Expr.call f args span).Lowers G S names := by
  intro temps cs cs' τ h hdef
  obtain ⟨sig, hsig, hentry, harity, -, rfl⟩ := check_call hf h.check
  rw [S.signatures_eq] at hsig
  rw [Expr.isDefinite_call hf] at hdef
  have hcallable : S.callable f := h.suits.called f (by simp) hf
  intro s hs
  rw [Expr.lower_call hf]
  refine .bind (.read ?_)
  rw [hsig]
  refine .bind ((ih f temps (h.arguments hf).1 hdef s hs).mono
    fun _ s₁ ⟨code, taken, hcode, hlen, hw₁, hs₁⟩ => ?_)
  rw [← hlen]
  refine .ready_call hs₁ hsig (hlen.trans harity) fun s' hw hs' =>
    ⟨_, _, ⟨.call hf hsig harity hentry hcallable hcode, ?_⟩, ?_, hw₁.trans hw, ?_⟩
  · intro _ k hk
    split at hk <;> cases hk
    exact nofun
  · intro k hk
    split at hk <;> cases hk
    exact S.held_any
  · cases hret : sig.returnsValue <;> simpa [hret] using hs'

/-- Names of values are variables or constants, and other places have operations. -/
theorem place {place : Variable} (hgrants : S.Grants) (ih : place.IndexLowers G S names) :
    (Expr.var place).Lowers G S names := by
  intro temps cs cs' τ h hdef
  obtain ⟨f, hplace, rfl, hloadable⟩ := h.place
  rw [Expr.isDefinite, Expr.hasValue_eq h.check, S.types_eq, Bool.and_eq_true, imp_and] at hdef
  obtain ⟨hdef, hvalue⟩ := hdef
  obtain ⟨load, hload⟩ := Option.isSome_iff_exists.1 hloadable
  refine Yields.leaves fun s hs => ?_
  rw [Expr.lower, place.codeSteps_eq, Load.ofSteps?_map hload]
  refine .laid_load hload hs.toLaid (fun hsig => ?_) (fun n hnamed => ?_) fun r hr => ?_
  · refine hs.regime.lenient (fun hstrict => ?_) _ rfl
    rw [hs.application hstrict] at hsig
    cases hsig
  · subst hnamed
    obtain ⟨span, rfl⟩ := place.eq_name_of_load hload
    obtain ⟨hf, -⟩ := check_name hplace.check
    have hgrows := (Variable.check_accepts _ hplace.fits.proper hplace.check).grows
    rw [Variable.assigned_name] at hgrows
    have hafter : ∀ {s' : LowerState} {k : StackType}, s'.Ready G S names (k :: temps) cs →
        s'.Ready G S names (k :: temps) cs' := fun hs' =>
      hs'.mono fun hstrict m hm => hs'.tame hstrict m (hm.of_grows hgrows)
    refine .ready_loadName hs (fun hn hnone => hs.regime.lenient (fun hstrict => ?_) _ rfl)
      (fun k s' hn hmax hheld hknown htame hw hs' => ⟨_, k,
        ⟨.local hn hmax hheld hknown (hgrants _ (.slot h.fits hn hf)), fun hstrict =>
          hplace.admits hn (hs.bytes hstrict) (hs.tame hstrict n) hknown htame⟩,
        hheld, hw, hafter hs'⟩)
      (fun v s' hn hv hw hs' => ⟨_, .uint64,
        ⟨.constant hn hv (hgrants _ (.builtin h.fits hn hf)), fun _ => TypeId.admits_uint64⟩, S.held_uint64, hw,
        hafter hs'⟩)
    rw [(hplace.fits.lookup?_of_not_mem hn).2] at hf
    have hsome := Builtin.constant?_isSome hf (hvalue hstrict) (hs.application hstrict)
    rw [hnone] at hsome
    cases hsome
  · have hreads := Reading.reads_ofLoad? hload hr
    obtain ⟨⟨g, hg⟩, hname⟩ := h.fits.root_of_check hplace.check
    have hroot : place.root ∉ names := by
      intro hmem
      obtain ⟨n, span, rfl⟩ := hname hmem
      cases hload
      cases hr
    refine .of_index (Reading.ofLoad?_valid hload hr) hreads
      (fun hstrict => Reading.mode_ofLoad? (hs.application hstrict) hload hr) hs hplace
      (fun i hi => ?_) fun code s' hcode hw hs' => ⟨_, _,
        ⟨.place hload hr hcode (hgrants _ (.builtin h.fits hroot hg)), fun hstrict => ?_⟩,
        S.held_of_bytes (h.suits.held_of_read hload hr) _, hw, hs'⟩
    · obtain ⟨base, hbase⟩ :=
        place.index?_of_steps (Load.index?_eq hload (Reading.ofLoad?_index hr hi))
      obtain ⟨g', rest, -, hsteps, -⟩ := place.check_steps hplace.check
      have hrow := Reading.mem_places (hsteps ▸ hload) hr
      obtain ⟨g, cs₁, τi, hcheck, hsite, hvoid, hbytes⟩ := hplace.index_type hbase
        (hreads.single _ _ hbase) hsteps hrow
      obtain ⟨ih, hdef⟩ := ih hdef hbase hcheck
      exact ⟨base, g, cs₁, hbase, hcheck, ih.notBytes temps hsite hdef hvoid hbytes⟩
    · rw [Reading.type_eq hplace.fits hplace.check hload hr (hvalue hstrict)]
      exact Builtin.eq_bytes_of_stackType

end Expr.Lowers

theorem Expr.AllLower.cons {e : Expr} {es : List Expr} (ih : e.Lowers G S names)
    (ihs : Expr.AllLower G S names es) : Expr.AllLower G S names (e :: es) := by
  intro callee temps cs cs' h hdef s hs
  obtain ⟨τ, cs₁, he, hvoid, hes⟩ := h.cons
  rw [Expr.areDefinite, Check.after_eq he.check, Bool.and_eq_true, imp_and] at hdef
  rw [Expr.lowerArguments]
  refine .bind (.bind (.builder (.bind ((ih.value temps he hdef.1 hvoid s hs).mono ?_))))
  rintro _ s₁ ⟨code, k, ⟨hcode, -⟩, -, hw₁, hs₁⟩
  refine .bind (.builder ?_)
  rw [if_neg (by rw [hs₁.depth, hs.depth, List.length_cons]; omega)]
  refine .pure ((ihs callee (k :: temps) hes hdef.2 s₁ hs₁).mono ?_)
  rintro _ s' ⟨code', taken, hcode', hlen, hw, hs'⟩
  refine ⟨_, taken ++ [k], .argsCons hcode he.check hcode', ?_, hw₁.trans hw, ?_⟩
  · rw [List.length_append, hlen]
    rfl
  · rw [List.append_assoc]
    exact hs'

mutual

/-- The code of an accepted expression. -/
theorem Expr.lowers (hgrants : S.Grants) : ∀ e : Expr, e.Lowers G S names
  | .uint v span => by
    intro temps cs cs' τ h _
    refine Yields.leaves fun s hs => ?_
    obtain ⟨rfl, rfl⟩ := Check.pure_eq_ok.1 (by simpa only [Expr.check] using h.check)
    rw [Expr.lower]
    exact .ready_op [] [.uint64] hs rfl rfl rfl rfl (fun _ => ⟨by decide, rfl⟩) fun s' hw hs' =>
      ⟨_, _, ⟨.uint, fun _ => TypeId.admits_uint64⟩, S.held_uint64, hw, hs'⟩
  | .bytes v span => by
    intro temps cs cs' τ h _
    refine Yields.leaves fun s hs => ?_
    obtain ⟨rfl, rfl⟩ := Check.pure_eq_ok.1 (by simpa only [Expr.check] using h.check)
    have hbytes : S.held .bytes := by simpa [Expr.isIntegral] using h.suits.integral
    rw [Expr.lower]
    exact .ready_op [] [.bytes] hs rfl rfl rfl rfl (fun _ => ⟨by decide, rfl⟩) fun s' hw hs' =>
      ⟨_, _, ⟨.bytes, fun _ _ => rfl⟩, hbytes, hw, hs'⟩
  | .unary .not e span => (e.lowers hgrants).not
  | .unary .complement e span => (e.lowers hgrants).complement hgrants
  | .binary o l r span => by
    rcases o.forms with rfl | rfl | rfl | rfl | rfl | ho
    · intro temps cs cs' τ h hdef
      obtain ⟨n, span', rfl⟩ := check_assign_target h.check
      exact (r.lowers hgrants).assign hgrants temps h hdef
    · intro temps cs cs' τ h hdef
      obtain ⟨left, right, span', rfl⟩ := check_ternary_arms h.check
      exact (l.lowers hgrants).choice (left.lowers hgrants) (right.lowers hgrants) temps h hdef
    · exact (l.lowers hgrants).cast hgrants
    · intro temps cs cs' τ h
      exact (check_range h.check).elim
    · intro temps cs cs' τ h
      exact (check_rangeInclusive h.check).elim
    · exact .operator hgrants ho (l.lowers hgrants) (r.lowers hgrants) fun place hl => by
        subst hl
        exact place.indexLowers hgrants
  | .call f args span => by
    by_cases hf : f = Builtin.hashFunction.1
    · subst hf
      exact .hash hgrants fun e he => e.lowers hgrants
    · exact .call hf (Expr.allLower hgrants args)
  | .var place => .place hgrants (place.indexLowers hgrants)

/-- The code of accepted arguments. -/
theorem Expr.allLower (hgrants : S.Grants) : ∀ es : List Expr, Expr.AllLower G S names es
  | [] => by
    intro callee temps cs cs' h _ s hs
    obtain ⟨-, rfl⟩ := Check.pure_eq_ok.1 h.check
    rw [Expr.lowerArguments]
    exact .pure ⟨[], [], .argsNil, rfl, .refl, hs⟩
  | e :: es => .cons (e.lowers hgrants) (Expr.allLower hgrants es)

/-- The code of the last index of a place. -/
theorem Variable.indexLowers (hgrants : S.Grants) : ∀ v : Variable, v.IndexLowers G S names
  | .name n span => by
    intro cs cs₁ g base i hdef hi
    cases hi
  | .index base i span => by
    rintro cs cs₁ g _ _ hdef ⟨⟩ hbase
    rw [Variable.isDefinite, Check.after_eq hbase, Bool.and_eq_true, imp_and] at hdef
    exact ⟨i.lowers hgrants, hdef.2⟩
  | .member owner m span => by
    intro cs cs₁ g base i hdef hi hbase
    rw [Variable.isDefinite] at hdef
    exact owner.indexLowers hgrants hdef hi hbase

end

end ContractCompiler
