import ContractCompiler.Proofs.Syntax.IntegerFragment
import ContractCompiler.Proofs.Typing.Notes

/-!
# Types of the integer fragment

Nothing that the integer fragment computes has the type of byte strings. So no variable gets that
type, and the analysis notes it for no read.
-/

namespace ContractCompiler

/-- No byte string has come up so far: no name is known as one, and no read was noted as one. -/
structure CheckState.Integral (cs : CheckState) : Prop where
  proper : cs.scopes.Proper
  names : ∀ n f, cs.scopes.lookup? n = some f → f.type ≠ .bytes
  notes : ∀ o : Nat, cs.localTypes[o]? ≠ some .bytes

section

variable {readable : String → Bool} {env : CheckEnv} {cs cs' : CheckState} {τ : TypeId}

theorem CheckEnv.stackType_ne_bytes (h : τ ≠ .bytes) : env.stackType τ ≠ .bytes := by
  unfold CheckEnv.stackType
  rw [if_neg h]
  split
  · exact StackType.noConfusion
  · split <;> exact StackType.noConfusion

/-- After a declaration, a name is known as before, or as what was declared. -/
theorem Scopes.lookup?_declare {Γ : Scopes} {n m : String} {f g : Field} (hΓ : Γ.frames ≠ [])
    (h : (Γ.declare n f).lookup? m = some g) : Γ.lookup? m = some g ∨ g = f := by
  obtain ⟨head, outer, hframes⟩ := List.exists_cons_of_ne_nil hΓ
  unfold Scopes.declare Scopes.declare? at h
  rw [hframes] at h
  dsimp only at h
  split at h
  case isTrue => exact .inl h
  case isFalse =>
    by_cases hmn : m = n
    · subst hmn
      simp only [Scopes.lookup?, Scopes.lookupFrames, Option.getD_some, List.lookup_cons_self,
        Option.some_or, Option.some.injEq] at h
      exact .inr h.symm
    · refine .inl ?_
      simp only [Scopes.lookup?, Scopes.lookupFrames, Option.getD_some,
        Scopes.lookup_cons_ne hmn] at h
      rw [Scopes.lookup?, hframes, Scopes.lookupFrames]
      exact h

theorem Scopes.Proper.declare {Γ : Scopes} (h : Γ.Proper) (n : String) (f : Field) :
    (Γ.declare n f).Proper := by
  obtain ⟨head, outer, hframes⟩ := List.exists_cons_of_ne_nil h.frames
  unfold Scopes.declare Scopes.declare?
  rw [hframes]
  dsimp only
  split
  · exact h
  · exact ⟨List.cons_ne_nil _ _, h.constant⟩

theorem CheckState.Integral.declare {n : String} {locals : Nat} (h : cs.Integral)
    (hτ : τ ≠ .bytes) :
    CheckState.Integral { cs with scopes := cs.scopes.declare n (.var τ), locals } where
  proper := h.proper.declare n _
  names := by
    intro m f hm
    rcases Scopes.lookup?_declare h.proper.frames hm with hm | rfl
    · exact h.names m f hm
    · exact hτ
  notes := h.notes

/-- Entering a block adds no names. -/
theorem CheckState.Integral.push (h : cs.Integral) :
    CheckState.Integral { cs with scopes := cs.scopes.push .clear } where
  proper := h.proper.push .clear
  names := h.names
  notes := h.notes

/-- A read of a name that is no byte string. -/
theorem check_name_integral {n : String} {span : Span} {f : Field} (hcs : cs.Integral)
    (h : (Variable.name n span).check env cs = .ok (f, cs')) :
    f.type ≠ .bytes ∧ cs'.Integral := by
  obtain ⟨hlookup, rfl⟩ := check_name h
  have htype := hcs.names n f hlookup
  refine ⟨htype, ?_⟩
  split
  · exact hcs
  · refine ⟨hcs.proper, hcs.names, fun o => ?_⟩
    show (cs.localTypes.insert span.start (env.stackType f.type))[o]? ≠ some .bytes
    rw [getElem?_insert_note]
    split
    · exact fun heq => CheckEnv.stackType_ne_bytes htype (Option.some.inj heq)
    · exact hcs.notes o

/-- A place of the fragment is a name. -/
theorem Variable.eq_name_of_integral {place : Variable}
    (h : (Expr.var place).isIntegral readable = true) :
    ∃ n span, place = .name n span := by
  cases place with
  | name n span => exact ⟨n, span, rfl⟩
  | _ => simp [Expr.isIntegral] at h

mutual

/-- No expression of the fragment is a byte string. -/
theorem Expr.check_integral : ∀ (e : Expr) {cs cs' : CheckState} {τ : TypeId},
    cs.Integral → e.isIntegral readable = true →
    e.check env cs = .ok (τ, cs') → τ ≠ .bytes ∧ cs'.Integral
  | .uint _ _, cs, cs', τ, hcs, _, h => by
    simp only [Expr.check, Check.pure_eq_ok] at h
    obtain ⟨rfl, rfl⟩ := h
    exact ⟨by decide, hcs⟩
  | .bytes _ _, cs, cs', τ, _, he, _ => by simp [Expr.isIntegral] at he
  | .unary .not e span, cs, cs', τ, hcs, he, h => by
    rw [Expr.isIntegral] at he
    obtain ⟨τe, hcheck, -, -, rfl⟩ := check_not h
    exact ⟨by decide, (e.check_integral hcs he hcheck).2⟩
  | .unary .complement e span, cs, cs', τ, hcs, he, h => by
    rw [Expr.isIntegral] at he
    exact e.check_integral hcs he (check_complement h).1
  | .binary o l r span, cs, cs', τ, hcs, he, h => by
    rcases o.forms with rfl | rfl | rfl | rfl | rfl | ho
    · obtain ⟨n, span', rfl⟩ := check_assign_target h
      rw [Expr.isIntegral] at he
      obtain ⟨τr, cs₁, hr, -, hcases⟩ := check_assign h
      obtain ⟨hτr, hcs₁⟩ := r.check_integral hcs he hr
      rcases hcases with ⟨-, -, rfl, rfl⟩ | ⟨f, hlookup, -, -, -, rfl, rfl⟩
      · exact ⟨hτr, hcs₁.declare hτr⟩
      · exact ⟨hcs.names n f hlookup, hcs₁⟩
    · obtain ⟨left, right, span', rfl⟩ := check_ternary_arms h
      simp only [Expr.isIntegral, Bool.and_eq_true] at he
      obtain ⟨τc, cs₁, τl, cs₂, τr, hc, -, -, hl, -, hr, -, -, rfl⟩ := check_choice h
      obtain ⟨-, hcs₁⟩ := l.check_integral hcs he.1.1 hc
      obtain ⟨hτl, hcs₂⟩ := left.check_integral hcs₁ he.1.2 hl
      obtain ⟨hτr, hcs'⟩ := right.check_integral hcs₂ he.2 hr
      refine ⟨?_, hcs'⟩
      split
      · exact hτr
      · exact hτl
    · simp [Expr.isIntegral] at he
    · exact (check_range h).elim
    · exact (check_rangeInclusive h).elim
    · rw [Expr.isIntegral_operator ho, Bool.and_eq_true] at he
      rcases check_operator ho h with
        ⟨place, n, span', target, f, -, rfl, -, rfl, -, -, hplace, rfl⟩ |
        ⟨-, τl, cs₁, τr, hl, -, hr, -, -, -, -, -, rfl⟩
      · obtain ⟨m, span'', rfl⟩ := Variable.eq_name_of_integral he.1
        exact ⟨by decide, (check_name_integral hcs hplace).2⟩
      · obtain ⟨hτl, hcs₁⟩ := l.check_integral hcs he.1 hl
        obtain ⟨-, hcs'⟩ := r.check_integral hcs₁ he.2 hr
        refine ⟨?_, hcs'⟩
        split
        · decide
        · exact hτl
  | .call f args span, cs, cs', τ, hcs, he, h => by
    rw [Expr.isIntegral, Bool.and_eq_true, bne_iff_ne] at he
    obtain ⟨sig, -, -, -, hargs, rfl⟩ := check_call he.1 h
    refine ⟨?_, Expr.checkArguments_integral args hcs he.2 hargs⟩
    unfold resultType
    split <;> decide
  | .var place, cs, cs', τ, hcs, he, h => by
    obtain ⟨n, span, rfl⟩ := Variable.eq_name_of_integral he
    obtain ⟨f, hf, rfl, -⟩ := check_var h
    exact check_name_integral hcs hf
termination_by e => sizeOf e

theorem Expr.checkArguments_integral : ∀ (es : List Expr) {cs cs' : CheckState},
    cs.Integral → Expr.areIntegral readable es = true →
    Expr.checkArguments env es cs = .ok ((), cs') → cs'.Integral
  | [], cs, cs', hcs, _, h => by
    simp only [Expr.checkArguments, Check.pure_eq_ok] at h
    obtain ⟨-, rfl⟩ := h
    exact hcs
  | e :: es, cs, cs', hcs, he, h => by
    rw [Expr.areIntegral, Bool.and_eq_true] at he
    obtain ⟨τe, cs₁, hcheck, -, hes⟩ := checkArguments_cons h
    obtain ⟨-, hcs₁⟩ := e.check_integral hcs he.1 hcheck
    exact Expr.checkArguments_integral es hcs₁ he.2 hes
termination_by es => sizeOf es

end

/-! ## Statements -/

theorem checkCaseValues_integral : ∀ (es : List Expr) {cs cs' : CheckState},
    cs.Integral → (∀ e ∈ es, e.isIntegral readable = true) →
    checkCaseValues env τ es cs = .ok ((), cs') → cs'.Integral
  | [], cs, cs', hcs, _, h => by
    simp only [checkCaseValues, Check.pure_eq_ok] at h
    obtain ⟨-, rfl⟩ := h
    exact hcs
  | e :: es, cs, cs', hcs, hall, h => by
    obtain ⟨he, hall⟩ := List.forall_mem_cons.1 hall
    obtain ⟨τe, cs₁, hcheck, -, -, hes⟩ := checkCaseValues_cons.1 h
    obtain ⟨-, hcs₁⟩ := e.check_integral hcs he hcheck
    exact checkCaseValues_integral es hcs₁ hall hes

theorem checkLeaving_integral {kind : Leaving} {value : Option Expr} {span : Span}
    (hcs : cs.Integral)
    (he : (Stmt.leave kind value span).isIntegral readable = true)
    (h : checkLeaving env kind value span cs = .ok ((), cs')) : cs'.Integral := by
  have hwell := checkLeaving_eq_ok h
  unfold LeavesWell at hwell
  split at hwell
  · exact hwell ▸ hcs
  · exact hwell.elim
  · obtain ⟨τ, hcheck, -⟩ := hwell
    exact (Expr.check_integral _ hcs he hcheck).2
  · exact hwell.elim
  · obtain ⟨τ, hcheck, -⟩ := hwell
    exact (Expr.check_integral _ hcs he hcheck).2
  · exact hwell.1 ▸ hcs

mutual

/-- No byte string comes up in a statement of the fragment. -/
theorem Stmt.check_integral : ∀ (s : Stmt) {cs cs' : CheckState},
    cs.Integral → s.isIntegral readable = true →
    s.check env cs = .ok ((), cs') → cs'.Integral
  | .ifElse c t none span, cs, cs', hcs, hs, h => by
    rw [Stmt.isIntegral, Bool.and_eq_true] at hs
    simp only [Stmt.check, Check.bind_eq_ok, checkCondition_eq_ok] at h
    obtain ⟨_, cs₁, ⟨τ, hc, -⟩, ht⟩ := h
    obtain ⟨-, hcs₁⟩ := c.check_integral hcs hs.1 hc
    exact t.check_integral hcs₁ hs.2 ht
  | .ifElse c t (some e) span, cs, cs', hcs, hs, h => by
    rw [Stmt.isIntegral, Bool.and_eq_true, Bool.and_eq_true] at hs
    simp only [Stmt.check, Check.bind_eq_ok, checkCondition_eq_ok] at h
    obtain ⟨_, cs₁, ⟨τ, hc, -⟩, _, cs₂, ht, he⟩ := h
    obtain ⟨-, hcs₁⟩ := c.check_integral hcs hs.1.1 hc
    have hcs₂ := t.check_integral hcs₁ hs.1.2 ht
    exact e.check_integral hcs₂ hs.2 he
  | .whileDo c b span, cs, cs', hcs, hs, h => by
    rw [Stmt.isIntegral, Bool.and_eq_true] at hs
    simp only [Stmt.check, Check.bind_eq_ok, checkCondition_eq_ok] at h
    obtain ⟨_, cs₁, ⟨τ, hc, -⟩, hb⟩ := h
    obtain ⟨-, hcs₁⟩ := c.check_integral hcs hs.1 hc
    exact b.check_integral hcs₁ hs.2 hb
  | .doWhile b c span, cs, cs', hcs, hs, h => by
    rw [Stmt.isIntegral, Bool.and_eq_true] at hs
    simp only [Stmt.check, Check.bind_eq_ok, checkCondition_eq_ok] at h
    obtain ⟨_, cs₁, hb, τ, hc, -⟩ := h
    have hcs₁ := b.check_integral hcs hs.1 hb
    exact (c.check_integral hcs₁ hs.2 hc).2
  | .switch t cases none span, cs, cs', hcs, hs, h => by
    simp only [Stmt.isIntegral, Bool.and_eq_true] at hs
    simp only [Stmt.check, Check.bind_eq_ok, checkValue_eq_ok] at h
    obtain ⟨τ, cs₁, ⟨ht, -⟩, hcases⟩ := h
    obtain ⟨-, hcs₁⟩ := t.check_integral hcs hs.1.1 ht
    exact Case.checkList_integral cases hcs₁ hs.2 hcases
  | .switch t cases (some d) span, cs, cs', hcs, hs, h => by
    simp only [Stmt.isIntegral, Bool.and_eq_true] at hs
    simp only [Stmt.check, Check.bind_eq_ok, checkValue_eq_ok] at h
    obtain ⟨τ, cs₁, ⟨ht, -⟩, _, cs₂, hcases, hd⟩ := h
    obtain ⟨-, hcs₁⟩ := t.check_integral hcs hs.1.1.1 ht
    have hcs₂ := Case.checkList_integral cases hcs₁ hs.1.2 hcases
    exact d.check_integral hcs₂ hs.2 hd
  | .leave kind value span, cs, cs', hcs, hs, h => by
    rw [Stmt.check] at h
    exact checkLeaving_integral hcs hs h
  | .expr e, cs, cs', hcs, hs, h => by
    rw [Stmt.isIntegral] at hs
    simp only [Stmt.check, Check.bind_eq_ok, Check.pure_eq_ok] at h
    obtain ⟨τ, _, he, -, rfl⟩ := h
    exact (e.check_integral hcs hs he).2

theorem Stmt.checkList_integral : ∀ (ss : List Stmt) {cs cs' : CheckState},
    cs.Integral → Stmt.areIntegral readable ss = true →
    Stmt.checkList env ss cs = .ok ((), cs') → cs'.Integral
  | [], cs, cs', hcs, _, h => by
    simp only [Stmt.checkList, Check.pure_eq_ok] at h
    obtain ⟨-, rfl⟩ := h
    exact hcs
  | s :: ss, cs, cs', hcs, hs, h => by
    rw [Stmt.areIntegral, Bool.and_eq_true] at hs
    simp only [Stmt.checkList, Check.bind_eq_ok] at h
    obtain ⟨_, cs₁, hfirst, hss⟩ := h
    have hcs₁ := s.check_integral hcs hs.1 hfirst
    exact Stmt.checkList_integral ss hcs₁ hs.2 hss

theorem Block.check_integral : ∀ (b : Block) {cs cs' : CheckState},
    cs.Integral → b.isIntegral readable = true →
    b.check env cs = .ok ((), cs') → cs'.Integral
  | ⟨ss, span⟩, cs, cs', hcs, hb, h => by
    rw [Block.isIntegral] at hb
    -- The names of the block are gone at its end.
    have hscopes := (Block.check_accepts _ hcs.proper h).2
    obtain ⟨cs₁, hss, rfl⟩ := checkBlock_eq_ok.1 h
    have hinner := Stmt.checkList_integral ss hcs.push hb hss
    refine ⟨?_, ?_, hinner.notes⟩
    · rw [hscopes]
      exact hcs.proper
    · rw [hscopes]
      exact hcs.names

theorem Case.checkList_integral {τ : TypeId} : ∀ (cases : List Case) {cs cs' : CheckState},
    cs.Integral → Case.areIntegral readable cases = true →
    Case.checkList env τ cases cs = .ok ((), cs') → cs'.Integral
  | [], cs, cs', hcs, _, h => by
    simp only [Case.checkList, Check.pure_eq_ok] at h
    obtain ⟨-, rfl⟩ := h
    exact hcs
  | ⟨values, block, span⟩ :: cases, cs, cs', hcs, hc, h => by
    simp only [Case.areIntegral, Bool.and_eq_true, List.all_eq_true] at hc
    simp only [Case.checkList, Check.bind_eq_ok] at h
    obtain ⟨_, cs₁, hvalues, _, cs₂, hblock, hcases⟩ := h
    have hcs₁ := checkCaseValues_integral values hcs hc.1.1.2 hvalues
    have hcs₂ := block.check_integral hcs₁ hc.1.2 hblock
    exact Case.checkList_integral cases hcs₂ hc.2 hcases

end

end

/-! ## Programs -/

/-- The names that a function of the fragment may read: its parameters, the names of the truth
values, and names that are not built in. -/
def Function.readable (f : Function) (mode : Mode) (n : String) : Bool :=
  f.params.contains n || n == "true" || n == "false" ||
    ((Builtin.scopes mode).root.lookup n).isNone

/-- Whether a program computes with integers only. -/
def Program.isIntegral (p : Program) (mode : Mode) : Bool :=
  p.functions.all fun f => f.body.isIntegral (f.readable mode)

/-- No built-in name is one of a byte string. -/
theorem Builtin.type_ne_bytes {mode : Mode} {n : String} {f : Field}
    (h : (Builtin.scopes mode).root.lookup n = some f) : f.type ≠ .bytes := by
  have hall : ∀ p ∈ Builtin.roots, p.2.type ≠ .bytes := by decide +kernel
  exact hall _ (Builtin.mem_roots h)

/-- A function starts without byte strings. -/
theorem Function.startState_integral (f : Function) (mode : Mode) :
    (f.startState mode).Integral where
  proper := f.startState_proper mode
  names := by
    intro n g hn
    unfold Scopes.lookup? at hn
    rw [f.lookupFrames_startState, f.root_startState] at hn
    split at hn
    case isTrue =>
      cases hn
      decide
    case isFalse => exact Builtin.type_ne_bytes hn
  notes := by
    intro o
    simp [startState]

/-- The analysis of a program of the fragment notes no byte string. -/
theorem Program.localType_ne_bytes {p : Program} {mode : Mode} {a : Analysis}
    (h : p.checkRules mode = .ok a) (hp : p.isIntegral mode = true) (o : Nat) :
    a.localTypes[o]? ≠ some .bytes := by
  obtain ⟨-, -, facts, hbodies, rfl⟩ := checkRules_eq_ok h
  intro ho
  rcases checkBodies_noted hbodies ho with hnone | ⟨f, hf, own, hown, hnoted⟩
  · simp at hnone
  · obtain ⟨-, cs', hcheck, rfl⟩ := Function.check_eq_ok hown
    have hbody : f.body.isIntegral (f.readable mode) = true := List.all_eq_true.1 hp f hf
    exact (f.body.check_integral (f.startState_integral mode) hbody hcheck).notes o hnoted

end ContractCompiler
