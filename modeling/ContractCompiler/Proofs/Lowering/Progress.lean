import ContractCompiler.Proofs.Lowering.Programs

/-!
# Accepted sources have code

If the analysis accepts a source for an application and what it needs is definite, there is code
for all of its constructs on the newest machine. What can still go wrong is that a frame is too
large, or that a function has the name of a label.
-/

namespace ContractCompiler

open Lower

/-- Whether a fault says that a frame is too large for its code or that two labels clash, and
nothing of the constructs of the source. -/
def CodeFault.isLimit : CodeFault → Bool
  | duplicateLabel .. | tooManyBelow .. | slotTooDeep .. => true
  | _ => false

/-! ## The newest machine -/

/-- The newest version of the machine has every operation. -/
theorem Opcode.isAvailable_maxVersion (code : Opcode) : (code.costAt maxVersion).isSome := by
  cases code <;> rfl

/-- An application can use all operations but those of signatures. -/
theorem Builder.checkMode_application {entry : Entry} {code : Opcode}
    (happ : entry.isApplication = true) (hmode : code.mode ≠ .signature) :
    Builder.checkMode code (.single entry) = .ok () := by
  unfold Builder.checkMode
  split
  case h_1 => rfl
  case h_2 hsig => exact absurd hsig hmode
  case h_3 =>
    cases entry with
    | signature => cases happ
    | _ => rfl

/-- Types are known, and all that may go wrong is a limit. -/
def Lower.Rigour.definite : Rigour := ⟨True, fun fault => fault.isLimit = true⟩

/-- On the newest machine, an operation of applications that takes what suits it is not refused. -/
theorem Lower.Regime.definite {entry : Entry} (happ : entry.isApplication = true) :
    Regime .definite (maxVersion, .single entry) := by
  refine ⟨⟨⟨fun code _ hnone => ?_⟩, fun _ => rfl, fun _ => rfl⟩,
    fun hnot => absurd trivial hnot, ?_⟩
  · have hsome := code.isAvailable_maxVersion
    rw [hnone] at hsome
    cases hsome
  · intro s code operands hmachine hmoves hparams hlen hsuits fault hfault
    obtain ⟨hmode, htypes⟩ := hsuits trivial
    obtain ⟨cost, hcost⟩ := Option.isSome_iff_exists.1 code.isAvailable_maxVersion
    have hversion : s.builder.version = maxVersion := congrArg Prod.fst hmachine
    have hentry : s.builder.mode = .single entry := congrArg Prod.snd hmachine
    rw [pushed_match, hversion, hcost, hentry, Builder.checkMode_application happ hmode,
      apply_eq_checkTypes hmoves operands hlen, htypes] at hfault
    dsimp only at hfault
    rw [if_pos hparams] at hfault
    cases hfault

/-! ## Programs -/

/-- The functions that the entries of a mode need are definite. -/
def Program.IsDefinite (p : Program) (mode : Mode) : Prop :=
  ∀ entry ∈ mode.entries, ∀ main ∈ p.function? entry.functionName, ∀ f ∈ p.reachable main,
    f.IsDefinite p mode

instance (p : Program) (mode : Mode) : Decidable (p.IsDefinite mode) :=
  inferInstanceAs (Decidable (∀ entry ∈ mode.entries, ∀ main ∈ p.function? entry.functionName,
    ∀ f ∈ p.reachable main, f.IsDefinite p mode))

/-- What keeps an accepted program without code is a limit, if all that is needed is definite. -/
theorem Program.isLimit_of_generate {source text : List Char} {p : Program} {mode : Mode}
    {a : Analysis} {entry : Entry} {e : Diagnostic} (hp : Source.program source = .ok p)
    (ha : p.check mode text = .ok a) (hentry : entry ∈ mode.entries)
    (happ : entry.isApplication = true) (hdef : p.IsDefinite mode)
    (h : p.generate a.localType? maxVersion entry = .error e) :
    ∃ fault site, e = .code fault site ∧ fault.isLimit = true := by
  have hfree : p.Abides (.free a.localType?) mode := abides hp ha trivial
  have hcases := hfree.generate maxVersion hentry (fun _ _ _ _ => trivial) (Regime.definite happ)
    (fun _ => rfl) (fun _ => happ) (fun _ => trivial) fun _ => hdef entry hentry
  rw [h] at hcases
  exact hcases

/-- The programs of entries are all there, or one is not. -/
theorem Program.generateList_cases {p : Program} {localType? : Nat → Option StackType}
    {version : Nat} (entries : List Entry) :
    (∃ asms, p.generateList localType? version entries = .ok asms) ∨
      ∃ entry ∈ entries, ∃ e, p.generate localType? version entry = .error e ∧
        p.generateList localType? version entries = .error e := by
  induction entries with
  | nil => exact .inl ⟨[], rfl⟩
  | cons entry entries ih =>
    cases hfirst : p.generate localType? version entry with
    | error e =>
      refine .inr ⟨entry, List.mem_cons_self, e, hfirst, ?_⟩
      rw [generateList, hfirst]
      rfl
    | ok asm =>
      rcases ih with ⟨asms, hrest⟩ | ⟨entry', hmem, e, hentry, hrest⟩
      · refine .inl ⟨asm :: asms, ?_⟩
        rw [generateList, hfirst, hrest]
        rfl
      · refine .inr ⟨entry', List.mem_cons_of_mem _ hmem, e, hentry, ?_⟩
        rw [generateList, hfirst, hrest]
        rfl

/-! ## Sources -/

/-- A mode that makes sense and has an entry of an application has no others. -/
theorem Mode.isApplication_of_valid {mode : Mode} {entry : Entry} (hvalid : mode.fault? = none)
    (happ : mode.isApplication = true) (hentry : entry ∈ mode.entries) :
    entry.isApplication = true := by
  cases entry with
  | approval | clearState => rfl
  | signature =>
    have hmem : mode.contains .signature = true := (List.mem_filter.1 hentry).2
    unfold Mode.fault? at hvalid
    split at hvalid
    case isTrue => cases hvalid
    case isFalse =>
      split at hvalid
      case isTrue => cases hvalid
      case isFalse =>
        split at hvalid
        case isTrue => cases hvalid
        case isFalse hmixed =>
          have hsingle : mode = .single .signature := by simpa [hmem] using hmixed
          rw [hsingle] at happ
          exact absurd happ (by decide)

/-- A source that the analysis accepts. -/
theorem checkSource_eq_ok {text : List Char} {mode : Mode} {a : Analysis}
    (h : checkSource text mode = .ok a) :
    mode.fault? = none ∧ ∃ source p, Source.expand text = .ok source ∧
      Source.program source = .ok p ∧ p.check mode source = .ok a := by
  obtain ⟨_, hvalid, h⟩ := ok_of_bind h
  obtain ⟨source, hsource, h⟩ := ok_of_bind h
  obtain ⟨p, hp, ha⟩ := ok_of_bind h
  refine ⟨?_, source, p, hsource, hp, ha⟩
  unfold Mode.validate at hvalid
  split at hvalid
  case h_1 => cases hvalid
  case h_2 hnone => exact hnone

/-- The compilation of a source that the analysis accepts is the generation of its programs. -/
theorem compileAll_eq_generateAll {text source : List Char} {mode : Mode} {p : Program}
    {a : Analysis} (hvalid : mode.fault? = none) (hsource : Source.expand text = .ok source)
    (hp : Source.program source = .ok p) (ha : p.check mode source = .ok a) :
    compileAll text (.ofMode mode) = p.generateAll a.localType? maxVersion mode := by
  have hmode : mode.validate = .ok () := by rw [Mode.validate, hvalid]
  have hoptions : (Options.ofMode mode).validate = .ok () := by
    simp only [Options.validate, Options.ofMode, hmode]
    rfl
  unfold compileAll
  rw [hoptions]
  simp only [Options.ofMode, if_true, hsource]
  show (do
    let p ← Source.program source
    let a ← p.check mode source
    p.generateAll a.localType? Options.defaultVersion mode) = _
  rw [hp]
  show (do
    let a ← p.check mode source
    p.generateAll a.localType? Options.defaultVersion mode) = _
  rw [ha]
  rfl

/-- A source that the analysis accepts for an application, and whose needed functions are definite,
is compiled on the newest machine, unless a frame is too large or two labels clash. -/
theorem compileAll_of_definite {text : List Char} {mode : Mode} {a : Analysis}
    (happ : mode.isApplication = true) (hcheck : checkSource text mode = .ok a) :
    ∃ source p, Source.expand text = .ok source ∧ Source.program source = .ok p ∧
      (p.IsDefinite mode →
        (∃ asms, compileAll text (.ofMode mode) = .ok asms) ∨
        ∃ fault site, compileAll text (.ofMode mode) = .error (.code fault site) ∧
          fault.isLimit = true) := by
  obtain ⟨hvalid, source, p, hsource, hp, ha⟩ := checkSource_eq_ok hcheck
  refine ⟨source, p, hsource, hp, fun hdef => ?_⟩
  rw [compileAll_eq_generateAll hvalid hsource hp ha]
  rcases p.generateList_cases mode.entries with hok | ⟨entry, hentry, e, hgenerate, herror⟩
  · exact .inl hok
  · obtain ⟨fault, site, rfl, hlimit⟩ := Program.isLimit_of_generate hp ha hentry
      (Mode.isApplication_of_valid hvalid happ hentry) hdef hgenerate
    exact .inr ⟨fault, site, herror, hlimit⟩

/-- A source with a choice, a type test, casts, a hash and a value of any type, all definite. -/
theorem compileAll_of_definite_hash :
    ∃ text a, ∃ p : Program, text = "def f(x) {
          if (TxnGroup[0] == PaymentTransaction) { x = 7; } return x; }
        def ApprovalProgram() { a = Txn.Fee > 3 ? Txn.Note : Txn.Sender;
          switch (Hash(a, SHA256)) { case Txn.Lease { return f(1) : Uint64; } } return 1; }".toList ∧
      checkSource text (.single .approval) = .ok a ∧ p.IsDefinite (.single .approval) ∧
      ((∃ asms, compileAll text (.ofMode (.single .approval)) = .ok asms) ∨
        ∃ fault site, compileAll text (.ofMode (.single .approval)) = .error (.code fault site) ∧
          fault.isLimit = true) := by
  generalize htext : String.toList _ = text
  have hrun : (do
      let a ← checkSource text (.single .approval)
      let source ← Source.expand text
      let p ← Source.program source
      return decide (p.IsDefinite (.single .approval))) = Except.ok true := by
    subst htext
    rw [String.toList_ofList]
    decide +kernel
  obtain ⟨a, ha, hrun⟩ := ok_of_bind hrun
  obtain ⟨source, hsource, hrun⟩ := ok_of_bind hrun
  obtain ⟨p, hp, hrun⟩ := ok_of_bind hrun
  have hdef : p.IsDefinite (.single .approval) := of_decide_eq_true (Except.ok.inj hrun)
  obtain ⟨source', p', hsource', hp', hall⟩ := compileAll_of_definite (by decide) ha
  cases hsource.symm.trans hsource'
  cases hp.symm.trans hp'
  exact ⟨text, a, p, rfl, ha, hdef, hall hdef⟩

end ContractCompiler
