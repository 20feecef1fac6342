import ContractCompiler.Proofs.Lowering.KnownTypes

/-!
# What is known of occurrences

The code of a body depends in some places on what is known of operands, or on what a name stands
for. All of these are known to stand in an accepted body.
-/

namespace ContractCompiler

variable {S : Setting} {names : List String} {cs cs' : CheckState} {t : Nat}
  {code : List Instruction}

/-- What is known of an occurrence in the code of an accepted body. -/
inductive Occurrence.Sound (S : Setting) : Occurrence → Prop where
  | complement {names cs cs' t e code k τ} (he : e.Sited S names cs cs' τ)
      (hcode : Emits S names cs t (.expr e) code (some k)) :
    Sound S (.complement ⟨S.check, e, cs, k⟩ (complementOps k))
  | operator {names cs cs₁ cs' t o l r cl cr kl kr τl τr} (hl : l.Sited S names cs cs₁ τl)
      (hr : r.Sited S names cs₁ cs' τr) (hcl : Emits S names cs t (.expr l) cl (some kl))
      (hcr : Emits S names cs₁ (t + 1) (.expr r) cr (some kr)) (htakes : o.Takes kl kr) :
    Sound S (.operator o ⟨S.check, l, cs, kl⟩ ⟨S.check, r, cs₁, kr⟩ (o.emitted kl kr))
  | cast {names cs cs' t e code k τ n target} (he : e.Sited S names cs cs' τ)
      (hcode : Emits S names cs t (.expr e) code (some k))
      (htype : Builtin.types.lookup? n = some target) :
    Sound S (.cast target ⟨S.check, e, cs, k⟩ (castOps target k))
  | slot {names cs n f} (hΓ : cs.scopes.Fits S.check.mode names) (hn : n ∈ names)
      (hlookup : cs.scopes.lookup? n = some f) : Sound S (.slot n cs)
  | store {names cs n} (hΓ : cs.scopes.Fits S.check.mode names) (hn : n ∈ names) :
    Sound S (.store n cs)
  | builtin {names cs n f} (hΓ : cs.scopes.Fits S.check.mode names) (hn : n ∉ names)
      (hlookup : cs.scopes.lookup? n = some f) : Sound S (.builtin n cs)
  | transaction {names cs cs' place f r} (hplace : place.Sited S names cs cs' f)
      (hr : Reading.ofTransaction? place.steps = some r) : Sound S (.transaction place cs)

/-- Everything that is known of occurrences in accepted code is enough for what is asked of them. -/
def Setting.Grants (S : Setting) : Prop :=
  ∀ o, o.Sound S → S.allowed o

/-- An operand that names a type has no code of its own. -/
theorem Emits.not_type {n : String} {span : Span} {left : Option StackType}
    (hΓ : cs.scopes.Fits S.check.mode names)
    (htype : (cs.scopes.lookup? n).map Field.type = some .type)
    (h : Emits S names cs' t (.expr (.var (.name n span))) code left) : False := by
  have hnot := hΓ.not_mem_of_type htype
  obtain ⟨f, hf, hftype⟩ := Option.map_eq_some_iff.1 htype
  cases h with
  | «local» hn => exact hnot hn
  | constant _ hv =>
    rw [(hΓ.lookup?_of_not_mem hnot).2] at hf
    have hinteger := Builtin.stackType_of_constant? hf (Option.isSome_iff_exists.2 ⟨_, hv⟩)
    rw [hftype, Builtin.stackType, Builtin.isEnum_basic _ (by simp)] at hinteger
    cases hinteger
  | place hload hr =>
    cases hload
    cases hr

/-- The operands of an operator that has code. -/
theorem Emits.operands {cs₁ : CheckState} {o : BinaryOperator} {l r : Expr} {span : Span}
    {kl kr : StackType} {τ τl : TypeId} {left : Option StackType}
    (h : Emits S names cs₁ t (.expr r) code left) (htakes : o.Takes kl kr)
    (hcheck : l.check S.check cs = .ok (τl, cs₁))
    (hsite : (Expr.binary o l r span).Sited S names cs cs' τ) :
    l.Sited S names cs cs₁ τl ∧ ∃ τr, r.Sited S names cs₁ cs' τr := by
  rcases hsite.operator htakes.1 with
    ⟨place, n, span, target, f, -, rfl, rfl, -, htype, -⟩ | ⟨τl, cs₁, τr, hl, -, hr, -⟩
  · exact (h.not_type hsite.fits htype).elim
  · cases hcheck.symm.trans hl.check
    exact ⟨hl, τr, hr⟩

end ContractCompiler
