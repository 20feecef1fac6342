import ContractCompiler.Proofs.Typing.Notes

/-!
# Checking relocated programs

A relocated program is checked with the same result: it is refused with the same fault, or accepted
with the same types. What is noted of a read is noted at the place that the read was moved to.
Because no two places become one, no note takes the place of another.

This stays so if the second check comes after others and goes on from what they learned, and if it
knows other signatures, as long as it knows the same of the functions that are called.
-/

namespace ContractCompiler

/-- Two outcomes of checking: both fail, with faults that are related, or the results are related. -/
inductive Alike {α β : Type} (E : TypeFaultAt → TypeFaultAt → Prop) (R : α → β → Prop) :
    Except TypeFaultAt α → Except TypeFaultAt β → Prop
  | ok {a : α} {b : β} (h : R a b) : Alike E R (.ok a) (.ok b)
  | error {e e' : TypeFaultAt} (h : E e e') : Alike E R (.error e) (.error e')

namespace Alike

variable {α α' β β' : Type} {E E' : TypeFaultAt → TypeFaultAt → Prop} {R R' : α → α' → Prop}
  {S : β → β' → Prop}

theorem bind {x : Except TypeFaultAt α} {x' : Except TypeFaultAt α'} {f : α → Except TypeFaultAt β}
    {f' : α' → Except TypeFaultAt β'} (hx : Alike E R x x')
    (hf : ∀ a a', R a a' → Alike E S (f a) (f' a')) : Alike E S (x >>= f) (x' >>= f') := by
  cases hx with
  | ok h => exact hf _ _ h
  | error h => exact .error h

theorem mono {x : Except TypeFaultAt α} {x' : Except TypeFaultAt α'} (hx : Alike E R x x')
    (hE : ∀ e e', E e e' → E' e e') (hR : ∀ a a', R a a' → R' a a') : Alike E' R' x x' := by
  cases hx with
  | ok h => exact .ok (hR _ _ h)
  | error h => exact .error (hE _ _ h)

end Alike

namespace Relocation

open Amendment

variable {σ : Relocation} {base : BodyFacts} {α β : Type}

/-! ## Checks that agree -/

/-- A fault, and the same fault where it was moved to. -/
def MovesFault (σ : Relocation) (e e' : TypeFaultAt) : Prop :=
  e' = ⟨σ.span e.span, e.fault⟩

/-- Notes at places, and the same notes at the places they were moved to, with some that were there
before. -/
def FollowsNotes (σ : Relocation) (before notes notes' : Std.TreeMap Nat StackType) : Prop :=
  ∀ o, notes'[σ.offset o]? = notes[o]?.or before[σ.offset o]?

/-- A state of checking, and the same state with its notes at the places they were moved to and
with what was learned before. -/
structure Follows (σ : Relocation) (base : BodyFacts) (s s' : CheckState) : Prop where
  scopes : s'.scopes = s.scopes
  locals : s'.locals = base.locals + s.locals
  notes : σ.FollowsNotes base.localTypes s.localTypes s'.localTypes

/-- From states that follow each other, both checks fail with the same fault, or both end with the
same result in such states. -/
def Agree (σ : Relocation) (base : BodyFacts) (x x' : Check α) : Prop :=
  ∀ s s', σ.Follows base s s' →
    Alike σ.MovesFault (fun r r' => r'.1 = r.1 ∧ σ.Follows base r.2 r'.2) (x s) (x' s')

namespace Agree

theorem pure {a : α} : σ.Agree base (Pure.pure a) (Pure.pure a) :=
  fun _ _ hs => .ok ⟨rfl, hs⟩

theorem fail {span : Span} {fault : TypeFault} :
    σ.Agree base (Check.fail span fault : Check α) (Check.fail (σ.span span) fault) :=
  fun _ _ _ => .error rfl

theorem bind {x x' : Check α} {f f' : α → Check β} (hx : σ.Agree base x x')
    (hf : ∀ a, σ.Agree base (f a) (f' a)) : σ.Agree base (x >>= f) (x' >>= f') := by
  intro s s' hs
  refine (hx s s' hs).bind fun (a, t) (a', t') ⟨ha, ht⟩ => ?_
  subst ha
  exact hf a' t t' ht

/-- Guards that say the same in both checks. -/
theorem refuse {c c' : Prop} [Decidable c] [Decidable c'] {span : Span} {fault : TypeFault}
    {x x' : Check α} (hc : c ↔ c') (hx : σ.Agree base x x') :
    σ.Agree base (if c then (do let _ ← (Check.fail span fault : Check Unit); x) else x)
      (if c' then (do let _ ← (Check.fail (σ.span span) fault : Check Unit); x') else x') := by
  by_cases h : c
  · rw [if_pos h, if_pos (hc.1 h)]
    exact bind fail fun _ => hx
  · rw [if_neg h, if_neg (mt hc.2 h)]
    exact hx

/-- Guards at the end that say the same in both checks. -/
theorem forbid {c c' : Prop} [Decidable c] [Decidable c'] {span : Span} {fault : TypeFault} {a : α}
    (hc : c ↔ c') :
    σ.Agree base (if c then Check.fail span fault else Pure.pure a)
      (if c' then Check.fail (σ.span span) fault else Pure.pure a) := by
  by_cases h : c
  · rw [if_pos h, if_pos (hc.1 h)]
    exact fail
  · rw [if_neg h, if_neg (mt hc.2 h)]
    exact pure

/-- A check that looks at the state. -/
theorem ofState {f f' : CheckState → Check α}
    (h : ∀ t t', σ.Follows base t t' → σ.Agree base (f t) (f' t')) :
    σ.Agree base (get >>= f) (get >>= f') :=
  fun s s' hs => h s s' hs s s' hs

theorem lookup? {name : String} : σ.Agree base (Check.lookup? name) (Check.lookup? name) := by
  refine ofState fun t t' ht => ?_
  rw [ht.scopes]
  exact pure

/-- A change of the names in scope, with so many more locals. -/
theorem scopes {f : Scopes → Scopes} {n : Nat} :
    σ.Agree base
      (modify fun s => { s with scopes := f s.scopes, locals := s.locals + n } : Check Unit)
      (modify fun s => { s with scopes := f s.scopes, locals := s.locals + n }) := by
  intro s s' hs
  refine .ok ⟨rfl, ?_, ?_, hs.notes⟩
  · show f s'.scopes = f s.scopes
    rw [hs.scopes]
  · show s'.locals + n = base.locals + (s.locals + n)
    rw [hs.locals, Nat.add_assoc]

/-- A note goes to the place that its place was moved to, and no other note is there. -/
theorem noteRead {offset : Nat} {type : StackType} :
    σ.Agree base (Check.noteRead offset type) (Check.noteRead (σ.offset offset) type) := by
  intro s s' hs
  refine .ok ⟨rfl, hs.scopes, hs.locals, fun o => ?_⟩
  show (s'.localTypes.insert (σ.offset offset) type)[σ.offset o]? =
    (s.localTypes.insert offset type)[o]?.or base.localTypes[σ.offset o]?
  rw [getElem?_insert_note, getElem?_insert_note, hs.notes o]
  by_cases ho : offset = o
  · rw [if_pos ho, if_pos (congrArg σ.offset ho), Option.some_or]
  · rw [if_neg ho, if_neg fun h => ho (σ.injective h)]

/-- To agree as a relation between checks in one mode. -/
def relation (σ : Relocation) (base : BodyFacts) (mode : Mode) : Check.Relation σ mode mode where
  Holds := σ.Agree base
  Reads _ := True
  pure := pure
  fail := fail
  bind := bind
  refuseEntry hc := refuse (hc rfl)
  forbidEntry hc := forbid (hc rfl)
  lookup? := lookup?
  scopes := scopes
  noteRead _ := noteRead

end Agree

/-! ## Functions -/

theorem agree_declareParams (s : Span) (params : List String) :
    σ.Agree base (declareParams s params) (declareParams (σ.span s) params) := by
  induction params with
  | nil => exact .pure
  | cons p ps ih =>
    refine .ofState fun t t' ht => ?_
    rw [ht.scopes]
    split
    · exact .fail
    · exact .bind (.scopes (f := fun _ => _) (n := 0)) fun _ => ih

/-- Whether a value is returned does not depend on where. -/
@[simp] theorem returnsValue_function (f : Function) :
    (σ.function f).returnsValue = f.returnsValue := by
  have hfound : ∀ g : Function, g.returnsValue =
      ((Node.function g).found fun n => n.departure?.map fun d =>
        d.kind == .returning && d.value.isSome).any id := by
    intro g
    rw [Function.returnsValue, Node.departures, Node.found, ← List.map_filterMap, List.any_map]
    rfl
  rw [hfound, hfound]
  congr 1
  refine σ.found_node (fun n => ?_) (.function f)
  cases n with
  | stmt s =>
    cases s with
    | leave kind value s => cases value <;> rfl
    | ifElse condition thenBlock elseBlock s => cases elseBlock <;> rfl
    | switch tested cases otherwise s => cases otherwise <;> rfl
    | whileDo | doWhile | expr => rfl
  | program | function | block | case | expr | place => rfl

@[simp] theorem signature_function (f : Function) : (σ.function f).signature = f.signature := by
  rw [Function.signature, returnsValue_function, Function.signature]
  rfl

/-- What is learned from a body, and the same with the notes where they were moved to and with what
was learned before. -/
structure FollowsFacts (σ : Relocation) (base facts facts' : BodyFacts) : Prop where
  locals : facts'.locals = base.locals + facts.locals
  notes : σ.FollowsNotes base.localTypes facts.localTypes facts'.localTypes

/-- Nothing was learned yet. -/
def unlearned : BodyFacts := ⟨0, ∅⟩

/-- With nothing learned before, the notes are those that were moved. -/
theorem followsNotes_unlearned {notes notes' : Std.TreeMap Nat StackType} :
    σ.FollowsNotes unlearned.localTypes notes notes' ↔ ∀ o, notes'[σ.offset o]? = notes[o]? := by
  simp only [FollowsNotes, unlearned, Std.TreeMap.getElem?_emptyc, Option.or_none]

theorem follows_start (σ : Relocation) (scopes : Scopes) (base : BodyFacts) :
    σ.Follows base ⟨scopes, 0, ∅⟩ ⟨scopes, base.locals, base.localTypes⟩ :=
  ⟨rfl, rfl, fun o => by rw [Std.TreeMap.getElem?_emptyc, Option.none_or]⟩

/-- The body of a relocated function is checked alike, with its parameters declared. -/
theorem agree_checkBody (mode : Mode) {sigs sigs' : List (String × Signature)} (f : Function)
    (h : AgreeOnCalled sigs sigs' (.block f.body)) :
    σ.Agree base (f.checkBody mode sigs) ((σ.function f).checkBody mode sigs') := by
  let env : CheckEnv := ⟨mode, Builtin.checkedTypes, Builtin.ids, sigs, f.name, f.returnsValue⟩
  have hbody := holds_block (Agree.relation σ base env.mode) f.body ⟨h, fun _ _ => trivial⟩
  unfold Function.checkBody
  rw [returnsValue_function]
  exact .bind (agree_declareParams f.span f.params) fun _ => hbody

/-- A relocated function is checked alike by those who know the same of the functions it calls. -/
theorem alike_function (mode : Mode) {sigs sigs' : List (String × Signature)} (f : Function)
    (h : AgreeOnCalled sigs sigs' (.block f.body)) :
    Alike σ.MovesFault (σ.FollowsFacts unlearned) (f.check mode sigs)
      ((σ.function f).check mode sigs') := by
  rw [Function.check_eq, Function.check_eq]
  refine (agree_checkBody mode f h _ _ (σ.follows_start _ unlearned)).bind fun r r' hr => ?_
  exact .ok ⟨hr.2.locals, hr.2.notes⟩

/-! ## Programs -/

theorem FollowsFacts.combine {a a' b b' : BodyFacts} (ha : σ.FollowsFacts base a a')
    (hb : σ.FollowsFacts unlearned b b') : σ.FollowsFacts base (a.combine b) (a'.combine b') := by
  constructor
  · show a'.locals + b'.locals = base.locals + (a.locals + b.locals)
    rw [ha.locals, hb.locals]
    simp only [unlearned]
    omega
  · intro o
    rw [BodyFacts.getElem?_combine, BodyFacts.getElem?_combine, ha.notes o, hb.notes o, unlearned,
      Std.TreeMap.getElem?_emptyc, Option.or_none, Option.or_assoc]

/-- Two faults are the same apart from their places. -/
def SameFault (e e' : TypeFaultAt) : Prop := e'.fault = e.fault

theorem alike_bodies (mode : Mode) (sigs : List (String × Signature)) (fs : List Function)
    {facts facts' : BodyFacts} (hfacts : σ.FollowsFacts unlearned facts facts') :
    Alike σ.MovesFault (σ.FollowsFacts unlearned) (checkBodies mode sigs fs facts)
      (checkBodies mode sigs (fs.map σ.function) facts') := by
  induction fs generalizing facts facts' with
  | nil => exact .ok hfacts
  | cons f fs ih =>
    have hf : Alike σ.MovesFault (σ.FollowsFacts unlearned) (f.check mode sigs)
        ((σ.function f).check mode sigs) := alike_function mode f fun _ _ => rfl
    rw [List.map_cons, checkBodies, checkBodies]
    generalize f.check mode sigs = x at hf
    generalize (σ.function f).check mode sigs = x' at hf
    cases hf with
    | ok h => exact ih (hfacts.combine h)
    | error h => exact .error h

theorem alike_names (fs : List Function) (seen : List String) :
    Alike σ.MovesFault Eq (checkNames fs seen) (checkNames (fs.map σ.function) seen) := by
  induction fs generalizing seen with
  | nil => exact .ok rfl
  | cons f fs ih =>
    rw [List.map_cons, checkNames, checkNames]
    show Alike σ.MovesFault Eq _ (if seen.contains f.name then _ else _)
    split
    · exact .error rfl
    · exact ih (f.name :: seen)

variable {p p' : Program}

theorem function?_relocated (hp : p'.functions = p.functions.map σ.function) (name : String) :
    p'.function? name = (p.function? name).map σ.function := by
  rw [Program.function?, hp, List.find?_map, Program.function?]
  rfl

theorem signatures_relocated (hp : p'.functions = p.functions.map σ.function) :
    p'.signatures = p.signatures := by
  rw [Program.signatures, hp, List.map_map, Program.signatures]
  refine List.map_congr_left fun f _ => ?_
  show ((σ.function f).name, (σ.function f).signature) = _
  rw [signature_function]
  rfl

/-- An entry that is missing is a fault of the whole program, whatever span that has. -/
theorem alike_entries (hp : p'.functions = p.functions.map σ.function) (entries : List String) :
    Alike SameFault Eq (checkEntries p entries) (checkEntries p' entries) := by
  induction entries with
  | nil => exact .ok rfl
  | cons entry entries ih =>
    rw [checkEntries, checkEntries, function?_relocated hp]
    cases p.function? entry with
    | none => exact .error rfl
    | some f =>
      show Alike SameFault Eq _ (if f.params.isEmpty then _ else _)
      dsimp only
      split
      · exact ih
      · exact .error rfl

/-- What is learned from a program, and the same with the notes where they were moved to. -/
structure FollowsAnalysis (σ : Relocation) (a a' : Analysis) : Prop where
  entryPoints : a'.entryPoints = a.entryPoints
  functions : a'.functions = a.functions
  locals : a'.locals = a.locals
  notes : ∀ o, a'.localTypes[σ.offset o]? = a.localTypes[o]?

theorem MovesFault.same {e e' : TypeFaultAt} (h : σ.MovesFault e e') : SameFault e e' := by
  subst h
  rfl

/-- A relocated program is refused for the same fault, or accepted with the same types. -/
theorem alike_checkRules (hp : p'.functions = p.functions.map σ.function) (mode : Mode) :
    Alike SameFault σ.FollowsAnalysis (p.checkRules mode) (p'.checkRules mode) := by
  unfold Program.checkRules
  rw [signatures_relocated hp, hp, List.length_map]
  refine ((alike_names p.functions _).mono (fun _ _ => MovesFault.same) fun _ _ h => h).bind fun _ _ _ => ?_
  refine (alike_entries hp mode.entryPoints).bind fun _ _ _ => ?_
  have hstart : σ.FollowsFacts unlearned unlearned unlearned :=
    ⟨rfl, followsNotes_unlearned.2 fun o => by
      rw [unlearned, Std.TreeMap.getElem?_emptyc, Std.TreeMap.getElem?_emptyc]⟩
  have hbodies := alike_bodies mode p.signatures p.functions hstart
  refine (hbodies.mono (fun _ _ => MovesFault.same) fun _ _ h => h).bind fun facts facts' hfacts => ?_
  exact .ok ⟨rfl, rfl, hfacts.locals.trans (Nat.zero_add _), followsNotes_unlearned.1 hfacts.notes⟩

end Relocation

end ContractCompiler
