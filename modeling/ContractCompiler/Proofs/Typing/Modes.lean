import ContractCompiler.Proofs.Typing.Induction
import ContractCompiler.Proofs.Typing.Programs

/-!
# Checking in two modes

A mode says which functions are entries. An entry must not be called, and it has rules of its own for
what it returns; so a body may be accepted in one mode and refused in another. But where both modes
accept a body, they have learned the same from it.
-/

namespace ContractCompiler

namespace Check

variable {α β : Type}

/-- If both checks succeed from one state, they have the same result and end in the same state. -/
def Consistent (x y : Check α) : Prop :=
  ∀ s r r', x s = .ok r → y s = .ok r' → r' = r

namespace Consistent

theorem refl {x : Check α} : Consistent x x :=
  fun _ _ _ h h' => Except.ok.inj (h'.symm.trans h)

theorem pure {a : α} : Consistent (Pure.pure a) (Pure.pure a) := refl

theorem fail {span : Span} {fault : TypeFault} {y : Check α} :
    Consistent (Check.fail span fault) y :=
  fun _ _ _ h => absurd h fail_ne_ok

theorem bind {x y : Check α} {f g : α → Check β} (hx : Consistent x y)
    (hf : ∀ a, Consistent (f a) (g a)) : Consistent (x >>= f) (y >>= g) := by
  intro s r r' h h'
  obtain ⟨a, t, ha, h⟩ := bind_eq_ok.1 h
  obtain ⟨a', t', ha', h'⟩ := bind_eq_ok.1 h'
  cases hx s (a, t) (a', t') ha ha'
  exact hf a t r r' h h'

/-- Guards may differ, as long as what comes after them does not. -/
theorem refuse {c c' : Prop} [Decidable c] [Decidable c'] {span : Span} {fault : TypeFault}
    {x y : Check α} (hx : Consistent x y) :
    Consistent (if c then (do let _ ← (Check.fail span fault : Check Unit); x) else x)
      (if c' then (do let _ ← (Check.fail span fault : Check Unit); y) else y) := by
  intro s r r' h h'
  exact hx s r r' (when_eq_ok.1 h).2 (when_eq_ok.1 h').2

/-- Guards at the end may differ. -/
theorem forbid {c c' : Prop} [Decidable c] [Decidable c'] {span : Span} {fault : TypeFault} {a : α} :
    Consistent (if c then (Check.fail span fault : Check α) else Pure.pure a)
      (if c' then Check.fail span fault else Pure.pure a) := by
  intro s r r' h h'
  split at h
  · exact fail s r r' h h'
  · split at h'
    · exact absurd h' fail_ne_ok
    · exact refl s r r' h h'

/-- To be consistent as a relation between checks in two modes. -/
def relation (mode mode' : Mode) : Check.Relation .refl mode mode' where
  Holds := Consistent
  Reads _ := True
  pure := refl
  fail := fail
  bind := bind
  refuseEntry _ := refuse
  forbidEntry _ := forbid
  lookup? := refl
  scopes := refl
  noteRead _ := refl

end Consistent

end Check

open Check (Consistent)

/-- A block that both modes accept teaches them the same. -/
theorem Block.check_consistent {env : CheckEnv} {mode : Mode} (b : Block) :
    Consistent (b.check env) (b.check { env with mode }) := by
  have h : Consistent (b.check env) ((Relocation.refl.block b).check { env with mode }) :=
    Relocation.holds_block (Consistent.relation env.mode mode) b
      ⟨fun _ _ => rfl, fun _ _ => trivial⟩
  rwa [Relocation.block_refl] at h

/-! ## Programs -/

/-- The built-in names are the same for all modes of an application. -/
theorem Builtin.scopes_congr {mode mode' : Mode} (h : mode'.isApplication = mode.isApplication) :
    scopes mode' = scopes mode := by
  rw [scopes_eq mode', scopes_eq mode, h]

section Programs

variable {sigs : List (String × Signature)} {mode mode' : Mode}

/-- Two modes with the same built-in names learn the same from a function that both accept. -/
theorem Function.check_consistent {f : Function} {facts facts' : BodyFacts}
    (hmode : mode'.isApplication = mode.isApplication) (h : f.check mode sigs = .ok facts)
    (h' : f.check mode' sigs = .ok facts') : facts' = facts := by
  have hbody : Consistent (f.checkBody mode sigs) (f.checkBody mode' sigs) :=
    .bind .refl fun _ => show Consistent
      (f.body.check ⟨mode, _, _, sigs, f.name, f.returnsValue⟩) _ from Block.check_consistent f.body
  rw [Function.check_eq] at h h'
  rw [Builtin.scopes_congr hmode] at h'
  obtain ⟨r, hr, h⟩ := ok_of_bind h
  obtain ⟨r', hr', h'⟩ := ok_of_bind h'
  cases hbody _ r r' hr hr'
  exact Except.ok.inj (h'.symm.trans h)

theorem checkBodies_consistent {fs : List Function} {facts own own' : BodyFacts}
    (hmode : mode'.isApplication = mode.isApplication)
    (h : checkBodies mode sigs fs facts = .ok own)
    (h' : checkBodies mode' sigs fs facts = .ok own') : own' = own := by
  induction fs generalizing facts with
  | nil => exact Except.ok.inj (h'.symm.trans h)
  | cons f fs ih =>
    rw [checkBodies] at h h'
    split at h
    · cases h
    · split at h'
      · cases h'
      · rename_i hf _ _ hf'
        cases Function.check_consistent hmode hf hf'
        exact ih h h'

/-- Two modes with the same built-in names learn the same of the local variables of a program that
both accept. -/
theorem Program.checkRules_consistent {p : Program} {a a' : Analysis}
    (hmode : mode'.isApplication = mode.isApplication) (h : p.checkRules mode = .ok a)
    (h' : p.checkRules mode' = .ok a') :
    a'.locals = a.locals ∧ a'.localTypes = a.localTypes := by
  obtain ⟨-, -, facts, hfacts, rfl⟩ := checkRules_eq_ok h
  obtain ⟨-, -, facts', hfacts', rfl⟩ := checkRules_eq_ok h'
  cases checkBodies_consistent hmode hfacts hfacts'
  exact ⟨rfl, rfl⟩

end Programs

end ContractCompiler
