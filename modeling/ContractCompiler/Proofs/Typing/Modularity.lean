import Mathlib.Algebra.Ring.Nat
import ContractCompiler.Proofs.Syntax.ProgramProvenance
import ContractCompiler.Proofs.Typing.Relocation

/-!
# Checking functions one by one

A function is checked on its own, so the rules for a program come down to those for its functions.
They also do so for a checker that goes through all bodies with one state: the names of a function
stand in a sealed frame, which is gone when the function has been checked, and the notes of
different functions are made at different places.
-/

namespace ContractCompiler

/-- As much is learned: as many locals, and the same of each read. -/
structure BodyFacts.Same (a b : BodyFacts) : Prop where
  locals : b.locals = a.locals
  notes : ∀ o : Nat, b.localTypes[o]? = a.localTypes[o]?

namespace Relocation

theorem eq_of_movesFault_refl {e e' : TypeFaultAt} (h : refl.MovesFault e e') : e = e' := by
  rw [h, span_refl]

theorem FollowsFacts.same {a b : BodyFacts} (h : refl.FollowsFacts unlearned a b) : a.Same b where
  locals := h.locals.trans (Nat.zero_add _)
  notes := followsNotes_unlearned.1 h.notes

end Relocation

/-- Of the other functions, a function sees what is known of those that it calls. -/
theorem Function.check_congr {mode : Mode} {sigs sigs' : List (String × Signature)} {f : Function}
    (h : AgreeOnCalled sigs sigs' (.block f.body)) :
    Alike Eq BodyFacts.Same (f.check mode sigs) (f.check mode sigs') := by
  have halike := Relocation.alike_function (σ := Relocation.refl) mode f h
  rw [Relocation.function_refl] at halike
  exact halike.mono (fun _ _ => Relocation.eq_of_movesFault_refl)
    fun _ _ => Relocation.FollowsFacts.same

/-! ## One state for all functions -/

/-- Checks a function in the state that is left of those before it. -/
def Function.checkIn (mode : Mode) (sigs : List (String × Signature)) (f : Function) :
    Check Unit := do
  Check.enter .sealed
  f.checkBody mode sigs
  Check.leave

/-- Checks functions one after the other in one state. -/
def Function.checkAllIn (mode : Mode) (sigs : List (String × Signature)) :
    List Function → Check Unit
  | [] => return ()
  | f :: fs => do
    f.checkIn mode sigs
    Function.checkAllIn mode sigs fs

/-- The rules for a program, with one state that is handed on from function to function. -/
def Program.checkInTurn (p : Program) (mode : Mode) : Except TypeFaultAt Analysis := do
  checkNames p.functions [Builtin.hashFunction.1]
  checkEntries p mode.entryPoints
  let ((), s) ← (Function.checkAllIn mode p.signatures p.functions).run ⟨Builtin.scopes mode, 0, ∅⟩
  return ⟨mode.entryPoints, p.functions.length, s.locals, s.localTypes⟩

/-- The names of a function are gone after it: what is left is what there was before. -/
theorem Function.pop_of_checkBody {mode : Mode} {sigs : List (String × Signature)} {f : Function}
    {cs' : CheckState}
    (h : f.checkBody mode sigs ⟨(Builtin.scopes mode).push .sealed, 0, ∅⟩ = .ok ((), cs')) :
    cs'.scopes.pop = Builtin.scopes mode := by
  obtain ⟨-, hbody⟩ := Function.body_of_checkBody h
  rw [(Block.check_accepts _ (f.startState_proper mode) hbody).2, Function.startState]
  -- The built-in scopes must stay folded: they are large.
  generalize Builtin.scopes mode = scopes
  rfl

theorem Function.checkIn_eq {mode : Mode} {sigs : List (String × Signature)} {f : Function}
    {s : CheckState} :
    f.checkIn mode sigs s =
      f.checkBody mode sigs ⟨s.scopes.push .sealed, s.locals, s.localTypes⟩ >>= fun r =>
        .ok ((), { r.2 with scopes := r.2.scopes.pop }) :=
  rfl

/-- What a function leaves behind in the state is what it gives on its own, added to what was there.
The scopes are those that it found. -/
structure BodyFacts.AddedTo (own : BodyFacts) (s s' : CheckState) : Prop where
  scopes : s'.scopes = s.scopes
  locals : s'.locals = s.locals + own.locals
  notes : ∀ o : Nat, s'.localTypes[o]? = own.localTypes[o]?.or s.localTypes[o]?

/-- Whatever was checked before, a function is checked as on its own. -/
theorem Function.alike_checkIn {mode : Mode} {sigs sigs' : List (String × Signature)} {f : Function}
    {s : CheckState} (hs : s.scopes = Builtin.scopes mode)
    (h : AgreeOnCalled sigs sigs' (.block f.body)) :
    Alike Eq (fun own (r : Unit × CheckState) => own.AddedTo s r.2) (f.check mode sigs)
      (f.checkIn mode sigs' s) := by
  obtain ⟨scopes, locals, localTypes⟩ := s
  replace hs : Builtin.scopes mode = scopes := hs.symm
  have hagree : Relocation.refl.Agree ⟨locals, localTypes⟩ (f.checkBody mode sigs)
      (f.checkBody mode sigs') := by
    have hbody : Relocation.refl.Agree ⟨locals, localTypes⟩ (f.checkBody mode sigs)
        ((Relocation.refl.function f).checkBody mode sigs') := Relocation.agree_checkBody mode f h
    rw [Relocation.function_refl] at hbody
    exact hbody
  have halike := hagree _ _
    (Relocation.refl.follows_start (scopes.push .sealed) ⟨locals, localTypes⟩)
  have hpop : ∀ cs', f.checkBody mode sigs ⟨scopes.push .sealed, 0, ∅⟩ = .ok ((), cs') →
      cs'.scopes.pop = scopes := by
    intro cs' hcs'
    rw [← hs] at hcs' ⊢
    exact Function.pop_of_checkBody hcs'
  rw [Function.check_eq, Function.checkIn_eq, hs]
  cases hown : f.checkBody mode sigs ⟨scopes.push .sealed, 0, ∅⟩ with
  | error e =>
    rw [hown] at halike
    generalize f.checkBody mode sigs' ⟨scopes.push .sealed, locals, localTypes⟩ = x' at halike ⊢
    cases halike with
    | error he => exact .error (Relocation.eq_of_movesFault_refl he)
  | ok r =>
    rw [hown] at halike
    generalize f.checkBody mode sigs' ⟨scopes.push .sealed, locals, localTypes⟩ = x' at halike ⊢
    cases halike with
    | ok hr =>
      refine .ok ⟨?_, hr.2.locals, hr.2.notes⟩
      show Scopes.pop _ = scopes
      rw [hr.2.scopes]
      exact hpop _ hown

/-- All functions, one after the other, are checked as each on its own. -/
theorem Function.alike_checkAllIn {mode : Mode} {sigs : List (String × Signature)}
    (fs : List Function) {s : CheckState} {facts : BodyFacts}
    (hs : s.scopes = Builtin.scopes mode) (hfacts : facts.Same ⟨s.locals, s.localTypes⟩) :
    Alike Eq (fun facts' (r : Unit × CheckState) => facts'.Same ⟨r.2.locals, r.2.localTypes⟩)
      (checkBodies mode sigs fs facts) (Function.checkAllIn mode sigs fs s) := by
  induction fs generalizing s facts with
  | nil => exact .ok hfacts
  | cons f fs ih =>
    have hf : Alike Eq _ (f.check mode sigs) (f.checkIn mode sigs s) :=
      Function.alike_checkIn hs fun _ _ => rfl
    show Alike Eq _ _ (f.checkIn mode sigs s >>= fun r => Function.checkAllIn mode sigs fs r.2)
    rw [checkBodies]
    generalize f.check mode sigs = x at hf
    generalize f.checkIn mode sigs s = x' at hf
    cases hf with
    | error he => exact .error he
    | @ok own r hown =>
      have hscopes : r.2.scopes = Builtin.scopes mode := hown.scopes.trans hs
      refine ih hscopes ⟨?_, fun o => ?_⟩
      · show _ = facts.locals + _
        rw [← hfacts.locals]
        exact hown.locals
      · rw [BodyFacts.getElem?_combine, ← hfacts.notes o]
        exact hown.notes o

/-- What is learned from two checks of a program is the same. -/
structure Analysis.Same (a b : Analysis) : Prop where
  entryPoints : b.entryPoints = a.entryPoints
  functions : b.functions = a.functions
  locals : b.locals = a.locals
  notes : ∀ o : Nat, b.localTypes[o]? = a.localTypes[o]?

/-- With one state for all functions, the same programs are accepted, and as much is learned. -/
theorem Program.alike_checkInTurn (p : Program) (mode : Mode) :
    Alike Eq Analysis.Same (p.checkRules mode) (p.checkInTurn mode) := by
  have hscopes : (⟨Builtin.scopes mode, 0, ∅⟩ : CheckState).scopes = Builtin.scopes mode := by
    dsimp only
  have hbodies : Alike Eq _ (checkBodies mode p.signatures p.functions ⟨0, ∅⟩)
      (Function.checkAllIn mode p.signatures p.functions ⟨Builtin.scopes mode, 0, ∅⟩) :=
    Function.alike_checkAllIn p.functions hscopes ⟨rfl, fun _ => rfl⟩
  unfold Program.checkRules Program.checkInTurn
  cases checkNames p.functions [Builtin.hashFunction.1] with
  | error e => exact .error rfl
  | ok _ =>
    cases checkEntries p mode.entryPoints with
    | error e => exact .error rfl
    | ok _ => exact hbodies.bind fun facts r h => .ok ⟨rfl, rfl, h.locals, h.notes⟩

/-! ## Verdicts -/

/-- The functions of a program have different names, none of which is built in, and the entries are
among them, without parameters. -/
structure Program.Declared (p : Program) (mode : Mode) : Prop where
  nodup : (p.functions.map Function.name).Nodup
  not_hash : ∀ f ∈ p.functions, f.name ≠ Builtin.hashFunction.1
  entry : ∀ entry ∈ mode.entryPoints, ∃ main, p.function? entry = some main ∧ main.params = []

theorem checkNames_of_nodup {fs : List Function} {seen : List String}
    (hnodup : (fs.map Function.name).Nodup) (hseen : ∀ f ∈ fs, f.name ∉ seen) :
    checkNames fs seen = .ok () := by
  induction fs generalizing seen with
  | nil => rfl
  | cons f fs ih =>
    obtain ⟨hf, hseen⟩ := List.forall_mem_cons.1 hseen
    obtain ⟨hnot, hnodup⟩ := List.nodup_cons.1 hnodup
    rw [checkNames, if_neg (by simpa using hf)]
    refine ih hnodup fun g hg hmem => ?_
    rcases List.mem_cons.1 hmem with hname | hmem
    · exact hnot (hname ▸ List.mem_map_of_mem hg)
    · exact hseen g hg hmem

theorem checkEntries_of_found {p : Program} {entries : List String}
    (h : ∀ entry ∈ entries, ∃ main, p.function? entry = some main ∧ main.params = []) :
    checkEntries p entries = .ok () := by
  induction entries with
  | nil => rfl
  | cons entry entries ih =>
    obtain ⟨⟨main, hmain, hparams⟩, h⟩ := List.forall_mem_cons.1 h
    rw [checkEntries, hmain]
    show (if main.params.isEmpty then checkEntries p entries else _) = _
    rw [if_pos (List.isEmpty_iff.2 hparams), ih h]

/-- The bodies are accepted together if each is on its own. -/
theorem checkBodies_eq_ok_iff {mode : Mode} {sigs : List (String × Signature)} {fs : List Function}
    {facts facts' : BodyFacts} :
    checkBodies mode sigs fs facts = .ok facts' ↔
      ∃ owns, List.Forall₂ (fun f own => f.check mode sigs = .ok own) fs owns ∧
        facts' = owns.foldl BodyFacts.combine facts := by
  induction fs generalizing facts with
  | nil =>
    rw [checkBodies]
    constructor
    · rintro ⟨⟩
      exact ⟨[], .nil, rfl⟩
    · rintro ⟨_, ⟨⟩, rfl⟩
      rfl
  | cons f fs ih =>
    rw [checkBodies]
    cases hf : f.check mode sigs with
    | error e =>
      constructor
      · rintro ⟨⟩
      · rintro ⟨_, hall, -⟩
        cases hall with
        | cons hown _ => cases hf.symm.trans hown
    | ok own =>
      show checkBodies mode sigs fs (facts.combine own) = _ ↔ _
      rw [ih]
      constructor
      · rintro ⟨owns, howns, rfl⟩
        exact ⟨own :: owns, .cons hf howns, rfl⟩
      · rintro ⟨_, hall, rfl⟩
        cases hall with
        | cons hown howns =>
          cases hf.symm.trans hown
          exact ⟨_, howns, rfl⟩

/-- Nothing is noted twice. -/
def BodyFacts.Apart (a b : BodyFacts) : Prop :=
  ∀ o : Nat, a.localTypes[o]? = none ∨ b.localTypes[o]? = none

theorem BodyFacts.locals_foldl (owns : List BodyFacts) (facts : BodyFacts) :
    (owns.foldl combine facts).locals = facts.locals + (owns.map locals).sum := by
  induction owns generalizing facts with
  | nil => rfl
  | cons own owns ih =>
    rw [List.foldl_cons, ih, List.map_cons, List.sum_cons, ← Nat.add_assoc]
    rfl

/-- What was noted by one of two that have nothing in common. -/
theorem BodyFacts.combine_eq_some_iff {a b : BodyFacts} (h : a.Apart b) {o : Nat} {k : StackType} :
    (a.combine b).localTypes[o]? = some k ↔
      a.localTypes[o]? = some k ∨ b.localTypes[o]? = some k := by
  rw [getElem?_combine]
  rcases h o with ha | hb
  · simp [ha]
  · simp [hb]

theorem BodyFacts.Apart.combine {a b c : BodyFacts} (ha : a.Apart c) (hb : b.Apart c) :
    (a.combine b).Apart c := by
  intro o
  rw [getElem?_combine]
  rcases hb o with hb | hc
  · rcases ha o with ha | hc
    · exact .inl (by rw [hb, ha]; rfl)
    · exact .inr hc
  · exact .inr hc

/-- The notes of several that have nothing in common are those of each. -/
theorem BodyFacts.notes_foldl {facts : BodyFacts} {owns : List BodyFacts}
    (h : (facts :: owns).Pairwise Apart) {o : Nat} {k : StackType} :
    (owns.foldl combine facts).localTypes[o]? = some k ↔
      ∃ own ∈ facts :: owns, own.localTypes[o]? = some k := by
  induction owns generalizing facts with
  | nil => simp
  | cons own owns ih =>
    obtain ⟨hfacts, hrest⟩ := List.pairwise_cons.1 h
    obtain ⟨hown, hfacts⟩ := List.forall_mem_cons.1 hfacts
    obtain ⟨howns, hrest⟩ := List.pairwise_cons.1 hrest
    have hcombined : (facts.combine own :: owns).Pairwise Apart :=
      List.pairwise_cons.2 ⟨fun own' hmem => (hfacts own' hmem).combine (howns own' hmem), hrest⟩
    rw [List.foldl_cons, ih hcombined]
    simp only [List.exists_mem_cons_iff, combine_eq_some_iff hown, or_assoc]

/-- Functions without a name in common at one place have no note in common. -/
theorem Function.pairwise_apart {p : Program} {mode : Mode} {fs : List Function}
    {owns : List BodyFacts}
    (h : List.Forall₂ (fun f own => f.check mode p.signatures = .ok own) fs owns)
    (hfs : (fs.flatMap Function.nameOffsets).Nodup) : owns.Pairwise BodyFacts.Apart := by
  induction h with
  | nil => exact .nil
  | @cons f own fs owns hown howns ih =>
    rw [List.flatMap_cons, List.nodup_append] at hfs
    obtain ⟨-, hfs, hdisjoint⟩ := hfs
    refine List.pairwise_cons.2 ⟨fun own' hmem o => ?_, ih hfs⟩
    by_cases ho : o ∈ f.nameOffsets
    · obtain ⟨g, hg, hown'⟩ := exists_left_of_forall₂ howns hmem
      refine .inr (Function.check_notes hown' fun ho' => ?_)
      exact hdisjoint o ho o (List.mem_flatMap.2 ⟨g, hg, ho'⟩) rfl
    · exact .inl (Function.check_notes hown ho)

/-- What is learned from a program is what its bodies give, each on its own: the locals add up, and
no two bodies note the same place. -/
structure Analysis.Union (a : Analysis) (owns : List BodyFacts) : Prop where
  locals : a.locals = (owns.map BodyFacts.locals).sum
  notes : ∀ (o : Nat) (k : StackType),
    a.localTypes[o]? = some k ↔ ∃ own ∈ owns, own.localTypes[o]? = some k
  apart : owns.Pairwise BodyFacts.Apart

theorem Program.check_eq_ok_iff {p : Program} {mode : Mode} {text : List Char} {a : Analysis}
    (hmode : mode.fault? = none) : p.check mode text = .ok a ↔ p.checkRules mode = .ok a := by
  refine ⟨fun h => (check_eq_ok h).2, fun h => ?_⟩
  rw [Program.check, hmode, h]
  rfl

/-- A program follows the rules if its functions are declared well and each body follows them. -/
theorem Program.checkRules_isOk_iff {p : Program} {mode : Mode} :
    (∃ a, p.checkRules mode = .ok a) ↔
      p.Declared mode ∧ ∀ f ∈ p.functions, ∃ own, f.check mode p.signatures = .ok own := by
  constructor
  · rintro ⟨a, ha⟩
    obtain ⟨hnames, hentries, facts, hbodies, -⟩ := checkRules_eq_ok ha
    obtain ⟨hnodup, hseen⟩ := checkNames_eq_ok hnames
    exact ⟨⟨hnodup, fun f hf => by simpa using hseen f hf, checkEntries_eq_ok hentries⟩,
      checkBodies_eq_ok hbodies⟩
  · rintro ⟨hp, hbodies⟩
    have : Nonempty BodyFacts := ⟨⟨0, ∅⟩⟩
    choose! own hown using hbodies
    have howns : List.Forall₂ (fun f own => f.check mode p.signatures = .ok own) p.functions
        (p.functions.map own) := List.forall₂_map_right_iff.2 (List.forall₂_same.2 hown)
    unfold checkRules
    rw [checkNames_of_nodup hp.nodup fun f hf => by simpa using hp.not_hash f hf,
      checkEntries_of_found hp.entry, checkBodies_eq_ok_iff.2 ⟨_, howns, rfl⟩]
    exact ⟨_, rfl⟩

/-- What is learned from a program whose names all stand at different places. -/
theorem Program.union_of_checkRules {p : Program} {mode : Mode} {a : Analysis}
    (hp : (Node.program p).nameOffsets.Nodup) (ha : p.checkRules mode = .ok a) :
    ∃ owns, List.Forall₂ (fun f own => f.check mode p.signatures = .ok own) p.functions owns ∧
      a.Union owns := by
  obtain ⟨-, -, facts, hbodies, rfl⟩ := checkRules_eq_ok ha
  obtain ⟨owns, howns, rfl⟩ := checkBodies_eq_ok_iff.1 hbodies
  have hapart := Function.pairwise_apart howns (nodup_nameOffsets hp)
  refine ⟨owns, howns, ?_, fun o k => ?_, hapart⟩
  · exact (BodyFacts.locals_foldl owns _).trans (Nat.zero_add _)
  · have hempty : ∀ own ∈ owns, (⟨0, ∅⟩ : BodyFacts).Apart own :=
      fun _ _ _ => .inl Std.TreeMap.getElem?_emptyc
    rw [BodyFacts.notes_foldl (List.pairwise_cons.2 ⟨hempty, hapart⟩)]
    simp

/-- Another body in the place of a function's leaves what is known of the functions as it is. -/
theorem Program.signatures_replace {pre post : List Function} {g g' : Function} (span : Span)
    (hname : g'.name = g.name) (hsig : g'.signature = g.signature) :
    (⟨pre ++ g' :: post, span⟩ : Program).signatures =
      (⟨pre ++ g :: post, span⟩ : Program).signatures := by
  simp only [signatures, List.map_append, List.map_cons, hname, hsig]

/-- An entry stays one when a function gets another body. -/
theorem Program.Declared.replace {mode : Mode} {pre post : List Function} {g g' : Function}
    {span : Span} (h : (⟨pre ++ g :: post, span⟩ : Program).Declared mode)
    (hname : g'.name = g.name) (hparams : g'.params = g.params) :
    (⟨pre ++ g' :: post, span⟩ : Program).Declared mode where
  nodup := by
    have hnodup := h.nodup
    simp only [List.map_append, List.map_cons, hname] at hnodup ⊢
    exact hnodup
  not_hash := by
    have hnot := h.not_hash
    simp only [List.forall_mem_append, List.forall_mem_cons, hname] at hnot ⊢
    exact hnot
  entry := by
    intro entry hentry
    obtain ⟨main, hmain, hmainParams⟩ := h.entry entry hentry
    simp only [function?, List.find?_append, List.find?_cons, hname] at hmain ⊢
    cases hpre : pre.find? (·.name == entry) with
    | some f =>
      rw [hpre] at hmain
      cases hmain
      exact ⟨main, rfl, hmainParams⟩
    | none =>
      rw [hpre] at hmain
      cases hg : g.name == entry with
      | true =>
        rw [hg] at hmain
        cases hmain
        exact ⟨g', rfl, hparams.trans hmainParams⟩
      | false =>
        rw [hg] at hmain
        exact ⟨main, hmain, hmainParams⟩

/-- A program is checked function by function. It is accepted if its functions are declared well
and each body is accepted on its own; what is learned is the union of what the bodies give. A
checker that hands one state on from body to body comes to the same verdict, and what it says of a
function depends on nothing but the function, the mode and what is known of the functions by name.
So another body for one function changes nothing for the others. -/
theorem Program.check_modular {text : List Char} {p : Program} {mode : Mode}
    (hp : Source.program text = .ok p) (hmode : mode.fault? = none) :
    ((∃ a, p.check mode text = .ok a) ↔
      p.Declared mode ∧ ∀ f ∈ p.functions, ∃ own, f.check mode p.signatures = .ok own) ∧
    (∀ a, p.check mode text = .ok a →
      ∃ owns, List.Forall₂ (fun f own => f.check mode p.signatures = .ok own) p.functions owns ∧
        a.Union owns) ∧
    Alike Eq Analysis.Same (p.checkRules mode) (p.checkInTurn mode) ∧
    (∀ f ∈ p.functions, ∀ (sigs : List (String × Signature)) (s : CheckState),
      (∀ name, sigs.lookup name = p.signatures.lookup name) → s.scopes = Builtin.scopes mode →
      Alike Eq (fun own (r : Unit × CheckState) => own.AddedTo s r.2) (f.check mode p.signatures)
        (f.checkIn mode sigs s)) ∧
    (∀ (pre post : List Function) (g g' : Function), p.functions = pre ++ g :: post →
      g'.name = g.name → g'.params = g.params → g'.returnsValue = g.returnsValue →
      ∀ p' : Program, p' = ⟨pre ++ g' :: post, p.span⟩ →
        (∀ f ∈ pre ++ post, f.check mode p'.signatures = f.check mode p.signatures) ∧
        ((∃ a, p.check mode text = .ok a) →
          ((∃ a', p'.check mode text = .ok a') ↔
            ∃ own, g'.check mode p.signatures = .ok own))) := by
  simp only [check_eq_ok_iff hmode]
  refine ⟨checkRules_isOk_iff, fun a ha => union_of_checkRules (Source.program_eq_ok hp).1 ha,
    p.alike_checkInTurn mode, ?_, ?_⟩
  · intro f _ sigs s hsigs hs
    exact Function.alike_checkIn hs fun name _ => hsigs name
  · rintro pre post g g' hfunctions hname hparams hreturns _ rfl
    obtain ⟨functions, span⟩ := p
    obtain rfl : functions = pre ++ g :: post := hfunctions
    have hsig : g'.signature = g.signature := by
      rw [Function.signature, hparams, hreturns]
      rfl
    rw [signatures_replace span hname hsig]
    refine ⟨fun _ _ => rfl, fun haccepted => ?_⟩
    obtain ⟨hdeclared, hbodies⟩ := checkRules_isOk_iff.1 haccepted
    rw [checkRules_isOk_iff, signatures_replace span hname hsig]
    simp only [List.forall_mem_append, List.forall_mem_cons] at hbodies ⊢
    exact ⟨fun h => h.2.2.1,
      fun h => ⟨hdeclared.replace hname hparams, hbodies.1, h, hbodies.2.2⟩⟩

theorem Program.check_modular_same_local :
    ∃ text p a owns,
      text =
        "def ApprovalProgram()\x7bx=1;return f(x);\x7ddef f(y)\x7bx=y;z=x;return z;\x7d".toList ∧
      Source.program text = .ok p ∧ p.check (.single .approval) text = .ok a ∧ a.locals = 3 ∧
      p.functions.length = 2 ∧
      List.Forall₂ (fun f own => f.check (.single .approval) p.signatures = .ok own)
        p.functions owns ∧
      a.Union owns := by
  obtain ⟨text, htext⟩ : ∃ text, text =
    "def ApprovalProgram()\x7bx=1;return f(x);\x7ddef f(y)\x7bx=y;z=x;return z;\x7d".toList :=
    ⟨_, rfl⟩
  have hread : (Source.program text).toOption.map (fun p =>
      (p.functions.length, (p.check (.single .approval) text).toOption.map Analysis.locals)) =
        some (2, some 3) := by
    subst htext
    rw [String.toList_ofList]
    decide +kernel
  cases hp : Source.program text with
  | error e => simp [hp, Except.toOption] at hread
  | ok p =>
    cases ha : p.check (.single .approval) text with
    | error e => simp [hp, ha, Except.toOption] at hread
    | ok a =>
      simp [hp, ha, Except.toOption] at hread
      obtain ⟨owns, howns, hunion⟩ := (check_modular hp rfl).2.1 a ha
      exact ⟨text, p, a, owns, htext, hp, ha, hread.2, hread.1, howns, hunion⟩

end ContractCompiler
