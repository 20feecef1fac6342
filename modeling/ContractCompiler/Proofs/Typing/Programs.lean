import Mathlib.Data.List.Forall2
import ContractCompiler.Proofs.Typing.Scoping

/-!
# Accepted programs

What is known of a program that follows the typing rules: its functions have different names, its
entries are there, and every body was checked with its parameters in scope.
-/

namespace ContractCompiler

/-! ## Functions -/

/-- The environment that the body of a function is checked in. -/
def Program.checkEnv (p : Program) (mode : Mode) (f : Function) : CheckEnv :=
  ⟨mode, Builtin.checkedTypes, Builtin.ids, p.signatures, f.name, f.returnsValue⟩

/-- The state that the body of a function is checked in: its parameters are declared. -/
def Function.startState (f : Function) (mode : Mode) : CheckState where
  scopes :=
    { Builtin.scopes mode with
      frames := ⟨.sealed, f.params.reverse.map (·, .var .any)⟩ :: (Builtin.scopes mode).frames }
  locals := 0
  localTypes := ∅

theorem lookup_map_pair {ns : List String} {n : String} {f : Field} :
    (ns.map (·, f)).lookup n = if n ∈ ns then some f else none := by
  induction ns with
  | nil => rfl
  | cons m ns ih =>
    by_cases hn : n = m
    · subst hn
      simp
    · rw [List.map_cons, Scopes.lookup_cons_ne hn, ih]
      simp [hn]

/-- In the frames that a body starts with, its parameters are known. -/
theorem Function.lookupFrames_startState (f : Function) (mode : Mode) (n : String) :
    Scopes.lookupFrames (f.startState mode).scopes.frames n =
      if n ∈ f.params then some (.var .any) else none := by
  simp only [startState, Scopes.lookupFrames, lookup_map_pair, List.mem_reverse]
  split <;> simp_all

theorem Function.root_startState (f : Function) (mode : Mode) :
    (f.startState mode).scopes.root = (Builtin.scopes mode).root := by
  rw [startState]

theorem Function.startState_proper (f : Function) (mode : Mode) :
    (f.startState mode).scopes.Proper where
  frames := List.cons_ne_nil _ _
  constant := by
    intro n g hn
    rw [f.root_startState] at hn
    exact (Builtin.sound hn).1

theorem declareParams_eq_ok {span : Span} {vars : List (String × Field)} {outer : List Frame}
    {ps : List String} {cs cs' : CheckState} (hframes : cs.scopes.frames = ⟨.sealed, vars⟩ :: outer)
    (h : declareParams span ps cs = .ok ((), cs')) :
    cs' = { cs with scopes := { cs.scopes with
        frames := ⟨.sealed, ps.reverse.map (·, .var .any) ++ vars⟩ :: outer } } ∧
      ps.Nodup ∧ ∀ q ∈ ps, vars.lookup q = none := by
  induction ps generalizing cs vars with
  | nil =>
    simp only [declareParams, Check.pure_eq_ok] at h
    obtain ⟨-, rfl⟩ := h
    refine ⟨?_, List.nodup_nil, List.forall_mem_nil _⟩
    obtain ⟨⟨root, frames⟩, locals, localTypes⟩ := cs
    cases hframes
    rfl
  | cons q ps ih =>
    rw [declareParams, Check.bind_eq_ok] at h
    obtain ⟨_, _, hget, h⟩ := h
    cases hget
    cases hdeclare : cs.scopes.declare? q (.var .any) with
    | none =>
      rw [hdeclare] at h
      exact absurd h Check.fail_ne_ok
    | some scopes =>
      rw [hdeclare] at h
      unfold Scopes.declare? at hdeclare
      rw [hframes] at hdeclare
      dsimp only at hdeclare
      split at hdeclare
      case isTrue => cases hdeclare
      case isFalse hnone =>
        cases hdeclare
        obtain ⟨_, _, hmod, h⟩ := Check.bind_eq_ok.1 h
        cases hmod
        obtain ⟨rfl, hnodup, hlookup⟩ := ih rfl h
        have hq : q ∉ ps := by
          intro hq
          have := hlookup q hq
          simp at this
        refine ⟨by simp, List.nodup_cons.2 ⟨hq, hnodup⟩, ?_⟩
        refine List.forall_mem_cons.2 ⟨Option.not_isSome_iff_eq_none.1 hnone, fun r hr => ?_⟩
        have hne : r ≠ q := by
          rintro rfl
          exact hq hr
        rw [← hlookup r hr, Scopes.lookup_cons_ne hne]

/-- The check of a function in a frame of its own: its parameters, then its body. -/
def Function.checkBody (mode : Mode) (sigs : List (String × Signature)) (f : Function) :
    Check Unit := do
  declareParams f.span f.params
  f.body.check ⟨mode, Builtin.checkedTypes, Builtin.ids, sigs, f.name, f.returnsValue⟩

theorem Function.check_eq (mode : Mode) (sigs : List (String × Signature)) (f : Function) :
    f.check mode sigs = (do
      let r ← f.checkBody mode sigs ⟨(Builtin.scopes mode).push .sealed, 0, ∅⟩
      return ⟨r.2.locals, r.2.localTypes⟩) :=
  rfl

/-- The body of a function that passes its check does so after its parameters are declared. -/
theorem Function.body_of_checkBody {mode : Mode} {sigs : List (String × Signature)} {f : Function}
    {cs' : CheckState}
    (h : f.checkBody mode sigs ⟨(Builtin.scopes mode).push .sealed, 0, ∅⟩ = .ok ((), cs')) :
    f.params.Nodup ∧
      f.body.check ⟨mode, Builtin.checkedTypes, Builtin.ids, sigs, f.name, f.returnsValue⟩
        (f.startState mode) = .ok ((), cs') := by
  obtain ⟨_, cs₁, hparams, hcheck⟩ := Check.bind_eq_ok.1 h
  obtain ⟨rfl, hnodup, -⟩ := declareParams_eq_ok rfl hparams
  refine ⟨hnodup, ?_⟩
  -- The built-in scopes must stay folded: they are large.
  simp only [Scopes.push, List.append_nil] at hcheck
  rw [startState]
  exact hcheck

/-- What is learned from a function that passes its check comes from its body. -/
theorem Function.check_eq_ok {p : Program} {mode : Mode} {f : Function} {facts : BodyFacts}
    (h : f.check mode p.signatures = .ok facts) :
    f.params.Nodup ∧ ∃ cs', f.body.check (p.checkEnv mode f) (f.startState mode) = .ok ((), cs') ∧
      facts = ⟨cs'.locals, cs'.localTypes⟩ := by
  rw [Function.check_eq] at h
  cases hbody : f.checkBody mode p.signatures ⟨(Builtin.scopes mode).push .sealed, 0, ∅⟩ with
  | error e =>
    rw [hbody] at h
    cases h
  | ok r =>
    rw [hbody] at h
    cases h
    obtain ⟨hnodup, hcheck⟩ := Function.body_of_checkBody hbody
    exact ⟨hnodup, r.2, hcheck, rfl⟩

/-! ## Programs -/

theorem exists_left_of_forall₂ {α β : Type} {R : α → β → Prop} {as : List α} {bs : List β}
    (h : List.Forall₂ R as bs) {b : β} (hb : b ∈ bs) : ∃ a ∈ as, R a b := by
  induction h with
  | nil => cases hb
  | @cons a b' as bs hab _ ih =>
    rcases List.mem_cons.1 hb with rfl | hb
    · exact ⟨a, List.mem_cons_self, hab⟩
    · obtain ⟨a', ha', h⟩ := ih hb
      exact ⟨a', List.mem_cons_of_mem _ ha', h⟩

theorem exists_right_of_forall₂ {α β : Type} {R : α → β → Prop} {as : List α} {bs : List β}
    (h : List.Forall₂ R as bs) {a : α} (ha : a ∈ as) : ∃ b ∈ bs, R a b :=
  exists_left_of_forall₂ h.flip ha

theorem checkNames_eq_ok {fs : List Function} {seen : List String}
    (h : checkNames fs seen = .ok ()) :
    (fs.map Function.name).Nodup ∧ ∀ f ∈ fs, f.name ∉ seen := by
  induction fs generalizing seen with
  | nil => exact ⟨List.nodup_nil, nofun⟩
  | cons f fs ih =>
    rw [checkNames] at h
    split at h
    case isTrue => cases h
    case isFalse hf =>
      obtain ⟨hnodup, hseen⟩ := ih h
      refine ⟨List.nodup_cons.2 ⟨fun hmem => ?_, hnodup⟩,
        List.forall_mem_cons.2 ⟨by simpa using hf, fun g hg hmem => ?_⟩⟩
      · obtain ⟨g, hg, hname⟩ := List.mem_map.1 hmem
        exact hseen g hg (hname ▸ List.mem_cons_self)
      · exact hseen g hg (List.mem_cons_of_mem _ hmem)

theorem checkEntries_eq_ok {p : Program} {names : List String}
    (h : checkEntries p names = .ok ()) :
    ∀ n ∈ names, ∃ main, p.function? n = some main ∧ main.params = [] := by
  induction names with
  | nil => exact List.forall_mem_nil _
  | cons n names ih =>
    rw [checkEntries] at h
    cases hmain : p.function? n with
    | none =>
      rw [hmain] at h
      cases h
    | some main =>
      simp only [hmain] at h
      split at h
      case isTrue hparams =>
        exact List.forall_mem_cons.2 ⟨⟨main, hmain, List.isEmpty_iff.1 hparams⟩, ih h⟩
      case isFalse => cases h

theorem checkBodies_cons {mode : Mode} {sigs : List (String × Signature)} {f : Function}
    {fs : List Function} {facts facts' : BodyFacts}
    (h : checkBodies mode sigs (f :: fs) facts = .ok facts') :
    ∃ own, f.check mode sigs = .ok own ∧
      checkBodies mode sigs fs (facts.combine own) = .ok facts' := by
  rw [checkBodies] at h
  split at h
  case h_1 => cases h
  case h_2 own hf => exact ⟨own, hf, h⟩

theorem checkBodies_eq_ok {mode : Mode} {sigs : List (String × Signature)} {fs : List Function}
    {facts facts' : BodyFacts} (h : checkBodies mode sigs fs facts = .ok facts') :
    ∀ f ∈ fs, ∃ own, f.check mode sigs = .ok own := by
  induction fs generalizing facts with
  | nil => nofun
  | cons f fs ih =>
    obtain ⟨own, hf, h⟩ := checkBodies_cons h
    exact List.forall_mem_cons.2 ⟨⟨own, hf⟩, ih h⟩

/-- A program that follows the rules in a mode. -/
structure Program.Accepted (p : Program) (mode : Mode) : Prop where
  nodup : (p.functions.map Function.name).Nodup
  not_hash : ∀ f ∈ p.functions, f.name ≠ Builtin.hashFunction.1
  entry : ∀ entry ∈ mode.entries,
    ∃ main, p.function? entry.functionName = some main ∧ main.params = []
  params : ∀ f ∈ p.functions, f.params.Nodup
  body : ∀ f ∈ p.functions,
    ∃ cs', f.body.check (p.checkEnv mode f) (f.startState mode) = .ok ((), cs')

theorem Program.checkRules_eq_ok {p : Program} {mode : Mode} {a : Analysis}
    (h : p.checkRules mode = .ok a) :
    checkNames p.functions [Builtin.hashFunction.1] = .ok () ∧
      checkEntries p mode.entryPoints = .ok () ∧
      ∃ facts, checkBodies mode p.signatures p.functions ⟨0, ∅⟩ = .ok facts ∧
        a = ⟨mode.entryPoints, p.functions.length, facts.locals, facts.localTypes⟩ := by
  unfold checkRules at h
  cases hnames : checkNames p.functions [Builtin.hashFunction.1] with
  | error e =>
    rw [hnames] at h
    cases h
  | ok _ =>
    cases hentries : checkEntries p mode.entryPoints with
    | error e =>
      rw [hnames, hentries] at h
      cases h
    | ok _ =>
      cases hbodies : checkBodies mode p.signatures p.functions ⟨0, ∅⟩ with
      | error e =>
        rw [hnames, hentries, hbodies] at h
        cases h
      | ok facts =>
        rw [hnames, hentries, hbodies] at h
        cases h
        exact ⟨rfl, rfl, facts, rfl, rfl⟩

theorem Program.check_eq_ok {p : Program} {mode : Mode} {text : List Char} {a : Analysis}
    (h : p.check mode text = .ok a) : mode.fault? = none ∧ p.checkRules mode = .ok a := by
  unfold Program.check at h
  cases hmode : mode.fault? with
  | some fault =>
    rw [hmode] at h
    cases h
  | none =>
    rw [hmode] at h
    cases hrules : p.checkRules mode with
    | error e =>
      rw [hrules] at h
      cases h
    | ok a' =>
      rw [hrules] at h
      cases h
      exact ⟨rfl, rfl⟩

theorem Program.accepted_of_checkRules {p : Program} {mode : Mode} {a : Analysis}
    (h : p.checkRules mode = .ok a) : p.Accepted mode := by
  obtain ⟨hnames, hentries, facts, hbodies, -⟩ := checkRules_eq_ok h
  obtain ⟨hnodup, hseen⟩ := checkNames_eq_ok hnames
  refine ⟨hnodup, fun f hf hname => hseen f hf (hname ▸ List.mem_cons_self), ?_, ?_, ?_⟩
  · exact fun entry hentry => checkEntries_eq_ok hentries _ (List.mem_map_of_mem hentry)
  · intro f hf
    obtain ⟨own, hown⟩ := checkBodies_eq_ok hbodies f hf
    exact (Function.check_eq_ok hown).1
  · intro f hf
    obtain ⟨own, hown⟩ := checkBodies_eq_ok hbodies f hf
    obtain ⟨-, cs', hcheck, -⟩ := Function.check_eq_ok hown
    exact ⟨cs', hcheck⟩

end ContractCompiler
