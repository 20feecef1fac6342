import ContractCompiler.Proofs.Syntax.Descendants
import ContractCompiler.Proofs.Typing.Acceptance

/-!
# Names while a body is checked

Checking an expression adds the names it assigns to the innermost frame, unless they are known
already, and touches nothing else; a block leaves the scopes as they were. A name that is
assigned is no built-in one, unless a frame hides that.
-/

namespace ContractCompiler

namespace Scopes

/-- From `Γ` to `Γ'`, names in `ns` were assigned: names that were not known have come into the
innermost frame, with a type of values, and all names in `ns` could be assigned. -/
structure Grows (types : TypeTable) (Γ Γ' : Scopes) (ns : List String) : Prop where
  root : Γ'.root = Γ.root
  frames : ∃ head head' outer, Γ.frames = head :: outer ∧ Γ'.frames = head' :: outer ∧
    head'.boundary = head.boundary ∧
    (∀ n f, head.vars.lookup n = some f → head'.vars.lookup n = some f) ∧
    ∀ n f, head'.vars.lookup n = some f → head.vars.lookup n = some f ∨
      (n ∈ ns ∧ Γ.root.lookup n = none ∧ lookupFrames Γ.frames n = none ∧
        ∃ τ, f = .var τ ∧ types.isValue τ)
  assignable : ∀ n ∈ ns, Γ.root.lookup n = none ∨ (lookupFrames Γ.frames n).isSome

variable {types : TypeTable} {Γ Γ' Γ'' : Scopes} {ns ns' : List String} {n : String} {f : Field}

theorem Grows.refl {head : Frame} {outer : List Frame} (h : Γ.frames = head :: outer) :
    Grows types Γ Γ [] where
  root := rfl
  frames := ⟨head, head, outer, h, h, rfl, fun _ _ h => h, fun _ _ h => .inl h⟩
  assignable := nofun

/-- Names that are known stay known, as what they are. -/
theorem Grows.kept (h : Grows types Γ Γ' ns) (hn : lookupFrames Γ.frames n = some f) :
    lookupFrames Γ'.frames n = some f := by
  obtain ⟨head, head', outer, hΓ, hΓ', hbound, hold, hnew⟩ := h.frames
  rw [hΓ'] 
  rw [hΓ] at hn
  unfold lookupFrames at hn ⊢
  cases hhead : head.vars.lookup n with
  | some g =>
    rw [hhead] at hn
    rw [hold n g hhead]
    exact hn
  | none =>
    rw [hhead] at hn
    cases hhead' : head'.vars.lookup n with
    | none =>
      rw [hbound]
      exact hn
    | some g =>
      rcases hnew n g hhead' with hsome | ⟨-, -, hnone, -⟩
      · rw [hhead] at hsome
        cases hsome
      · rw [hΓ, lookupFrames, hhead] at hnone
        rw [hn] at hnone
        cases hnone

/-- A name that is known afterwards was known before, or was assigned. -/
theorem Grows.known (h : Grows types Γ Γ' ns) (hn : lookupFrames Γ'.frames n = some f) :
    lookupFrames Γ.frames n = some f ∨
      (n ∈ ns ∧ Γ.root.lookup n = none ∧ lookupFrames Γ.frames n = none ∧
        ∃ τ, f = .var τ ∧ types.isValue τ) := by
  obtain ⟨head, head', outer, hΓ, hΓ', hbound, hold, hnew⟩ := h.frames
  rw [hΓ', lookupFrames] at hn
  cases hhead' : head'.vars.lookup n with
  | some g =>
    rw [hhead'] at hn
    cases hn
    rcases hnew n f hhead' with hsome | hassigned
    · left
      rw [hΓ, lookupFrames, hsome]
    · exact .inr hassigned
  | none =>
    left
    have hnone : head.vars.lookup n = none := by
      cases hhead : head.vars.lookup n with
      | none => rfl
      | some g =>
        rw [hold n g hhead] at hhead'
        cases hhead'
    rw [hhead', hbound] at hn
    rw [hΓ, lookupFrames, hnone]
    exact hn

theorem Grows.trans (h : Grows types Γ Γ' ns) (h' : Grows types Γ' Γ'' ns') :
    Grows types Γ Γ'' (ns ++ ns') where
  root := h'.root.trans h.root
  frames := by
    obtain ⟨head, head₁, outer, hΓ, hΓ', hbound, hold, hnew⟩ := h.frames
    obtain ⟨head₁', head₂, outer', hΓ₁, hΓ'', hbound', hold', hnew'⟩ := h'.frames
    rw [hΓ'] at hΓ₁
    cases hΓ₁
    refine ⟨head, head₂, outer, hΓ, hΓ'', hbound'.trans hbound,
      fun n f hn => hold' n f (hold n f hn), fun n f hn => ?_⟩
    rcases hnew' n f hn with hsome | ⟨hmem, hroot, hnone, hvar⟩
    · rcases hnew n f hsome with hsome | ⟨hmem, hassigned⟩
      · exact .inl hsome
      · exact .inr ⟨List.mem_append_left _ hmem, hassigned⟩
    · refine .inr ⟨List.mem_append_right _ hmem, h.root ▸ hroot, ?_, hvar⟩
      cases hlookup : lookupFrames Γ.frames n with
      | none => rfl
      | some g =>
        rw [h.kept hlookup] at hnone
        cases hnone
  assignable := by
    intro n hn
    rcases List.mem_append.1 hn with hn | hn
    · exact h.assignable n hn
    · rcases h'.assignable n hn with hroot | hsome
      · exact .inl (h.root ▸ hroot)
      · obtain ⟨f, hf⟩ := Option.isSome_iff_exists.1 hsome
        rcases h.known hf with hbefore | ⟨-, hroot, -⟩
        · exact .inr (by rw [hbefore]; rfl)
        · exact .inl hroot

theorem Grows.mono (h : Grows types Γ Γ' ns) (hsub : ns ⊆ ns')
    (hassign : ∀ n ∈ ns', Γ.root.lookup n = none ∨ (lookupFrames Γ.frames n).isSome) :
    Grows types Γ Γ' ns' where
  root := h.root
  frames := by
    obtain ⟨head, head', outer, hΓ, hΓ', hbound, hold, hnew⟩ := h.frames
    refine ⟨head, head', outer, hΓ, hΓ', hbound, hold, fun n f hn => ?_⟩
    rcases hnew n f hn with hsome | ⟨hmem, hassigned⟩
    · exact .inl hsome
    · exact .inr ⟨hsub hmem, hassigned⟩
  assignable := hassign

theorem lookup_cons_ne {m : String} {vars : List (String × Field)} (h : m ≠ n) :
    ((n, f) :: vars).lookup m = vars.lookup m := by
  have hbeq : (m == n) = false := by simpa using h
  simp [List.lookup_cons, hbeq]

/-- A name that is not known can be declared after its value was checked. -/
theorem Grows.declare {τ : TypeId} (h : Grows types Γ Γ' ns) (hroot : Γ.root.lookup n = none)
    (hnone : lookupFrames Γ.frames n = none) (hτ : types.isValue τ) :
    Grows types Γ (Γ'.declare n (.var τ)) (n :: ns) := by
  have hassign : ∀ m ∈ n :: ns, Γ.root.lookup m = none ∨ (lookupFrames Γ.frames m).isSome := by
    intro m hm
    rcases List.mem_cons.1 hm with rfl | hm
    · exact .inl hroot
    · exact h.assignable m hm
  obtain ⟨head, head', outer, hΓ, hΓ', hbound, hold, hnew⟩ := h.frames
  unfold Scopes.declare declare?
  rw [hΓ']
  dsimp only
  split
  case isTrue => exact h.mono (List.subset_cons_self n ns) hassign
  case isFalse hhead' =>
    refine ⟨h.root, ⟨head, _, outer, hΓ, rfl, hbound, fun m g hm => ?_, fun m g hm => ?_⟩,
      hassign⟩
    · have hne : m ≠ n := by
        rintro rfl
        rw [hold m g hm] at hhead'
        exact hhead' rfl
      show ((n, Field.var τ) :: head'.vars).lookup m = some g
      rw [lookup_cons_ne hne]
      exact hold m g hm
    · have hm' : ((n, Field.var τ) :: head'.vars).lookup m = some g := hm
      by_cases hmn : m = n
      · subst hmn
        simp only [List.lookup_cons, beq_self_eq_true, Option.some.injEq] at hm'
        exact .inr ⟨List.mem_cons_self, hroot, hnone, τ, hm'.symm, hτ⟩
      · rw [lookup_cons_ne hmn] at hm'
        rcases hnew m g hm' with hsome | ⟨hmem, hassigned⟩
        · exact .inl hsome
        · exact .inr ⟨List.mem_cons_of_mem _ hmem, hassigned⟩

/-- Scopes with a frame in use, whose built-in names cannot be assigned. -/
structure Proper (Γ : Scopes) : Prop where
  frames : Γ.frames ≠ []
  constant : ∀ n f, Γ.root.lookup n = some f → f.constReference = true

theorem Proper.grows (h : Proper Γ) : Grows types Γ Γ [] := by
  obtain ⟨head, outer, hΓ⟩ := List.exists_cons_of_ne_nil h.frames
  exact .refl hΓ

theorem Grows.proper (h : Grows types Γ Γ' ns) (hΓ : Proper Γ) : Proper Γ' where
  frames := by
    obtain ⟨_, head', outer, -, hΓ', -⟩ := h.frames
    rw [hΓ']
    exact List.cons_ne_nil _ _
  constant := by
    rw [h.root]
    exact hΓ.constant

/-- A name that can be assigned is no built-in one, unless a frame hides that. -/
theorem Proper.assignable (hΓ : Proper Γ) (h : Γ.lookup? n = some f)
    (hf : f.constReference = false) : (lookupFrames Γ.frames n).isSome := by
  unfold lookup? at h
  cases hn : lookupFrames Γ.frames n with
  | some g => rfl
  | none =>
    rw [hn] at h
    rw [hΓ.constant n f h] at hf
    cases hf

theorem lookup?_eq_none (h : Γ.lookup? n = none) :
    Γ.root.lookup n = none ∧ lookupFrames Γ.frames n = none := by
  unfold lookup? at h
  cases hf : lookupFrames Γ.frames n with
  | none =>
    rw [hf] at h
    exact ⟨h, rfl⟩
  | some g =>
    rw [hf] at h
    cases h

/-- A name is that of a parameter or of a variable of a block. -/
def IsLocal (Γ : Scopes) (n : String) : Prop :=
  (lookupFrames Γ.frames n).isSome

/-- A variable that is known afterwards was known before, or its name was not and is assigned. -/
theorem Grows.isLocal (h : Grows types Γ Γ' ns) (hn : Γ'.IsLocal n) :
    Γ.IsLocal n ∨ (n ∈ ns ∧ Γ.lookup? n = none) := by
  obtain ⟨f, hf⟩ := Option.isSome_iff_exists.1 hn
  rcases h.known hf with hbefore | ⟨hmem, hroot, hnone, -⟩
  · exact .inl (Option.isSome_iff_exists.2 ⟨f, hbefore⟩)
  · refine .inr ⟨hmem, ?_⟩
    rw [lookup?, hnone, hroot]
    rfl

/-- What is known after a name was declared is that name, or was known before. -/
theorem lookupFrames_of_declare {m : String} {g : Field}
    (h : lookupFrames (Γ.declare n f).frames m = some g) :
    (m = n ∧ g = f) ∨ lookupFrames Γ.frames m = some g := by
  unfold declare declare? at h
  cases hframes : Γ.frames with
  | nil =>
    rw [hframes] at h
    dsimp only at h
    split at h
    · rw [← hframes]
      exact .inr h
    · cases h
  | cons head outer =>
    rw [hframes] at h
    dsimp only at h
    split at h
    · rw [← hframes]
      exact .inr h
    · by_cases hmn : m = n
      · subst hmn
        simp only [Option.getD_some, lookupFrames, List.lookup_cons, beq_self_eq_true,
          Option.some.injEq] at h
        exact .inl ⟨rfl, h.symm⟩
      · right
        simpa only [Option.getD_some, lookupFrames, lookup_cons_ne hmn] using h

theorem IsLocal.of_declare {m : String} (h : (Γ.declare n f).IsLocal m) : m = n ∨ Γ.IsLocal m := by
  obtain ⟨g, hg⟩ := Option.isSome_iff_exists.1 h
  rcases lookupFrames_of_declare hg with ⟨hmn, -⟩ | hbefore
  · exact .inl hmn
  · exact .inr (Option.isSome_iff_exists.2 ⟨g, hbefore⟩)

end Scopes

/-! ## Built-in names -/

/-- Of a mode, only whether it is one of an application counts for the built-in names. -/
theorem Builtin.scopes_eq (mode : Mode) :
    scopes mode = scopes (.single (if mode.isApplication then .approval else .signature)) := by
  have hmode : mode.isApplication =
      (Mode.single (if mode.isApplication then .approval else .signature)).isApplication := by
    cases mode.isApplication <;> decide
  unfold scopes names
  rw [← hmode]

/-- The built-in names of applications and of signatures. -/
def Builtin.roots : List (String × Field) :=
  (scopes (.single .approval)).root ++ (scopes (.single .signature)).root

/-- The built-in names of a mode are those of an application or those of a signature. -/
theorem Builtin.mem_roots {mode : Mode} {n : String} {f : Field}
    (h : (Builtin.scopes mode).root.lookup n = some f) : (n, f) ∈ Builtin.roots := by
  obtain ⟨before, after, hroot, -⟩ := List.lookup_eq_some_iff.1 h
  have hmem : (n, f) ∈ (Builtin.scopes mode).root := by
    rw [hroot]
    exact List.mem_append_right _ List.mem_cons_self
  rw [Builtin.scopes_eq] at hmem
  split at hmem
  · exact List.mem_append_left _ hmem
  · exact List.mem_append_right _ hmem

/-- The basic types are no enumerations. -/
theorem Builtin.isEnum_basic : ∀ τ ∈ [TypeId.void, .any, .type, .uint64, .bytes],
    checkedTypes.isEnum τ = false := by
  decide +kernel

/-- Nothing that names a type, or that has no value, is a value. -/
theorem Builtin.not_isValue (h : τ = .type ∨ τ = .void) : ¬checkedTypes.isValue τ := by
  have henum : checkedTypes.isEnum τ = false := isEnum_basic τ (by rcases h with rfl | rfl <;> simp)
  rcases h with rfl | rfl <;> simp [TypeTable.isValue, TypeTable.isBasic, henum] <;> decide

/-- What holds of a built-in name: it is constant, the analysis and the lowering take the same
types by their names, and no name of a value names a type as well. -/
def Builtin.Sound (n : String) (f : Field) : Prop :=
  f.constReference = true ∧
    (f.type = .type → types.lookup? n = checkedTypes.lookup? n ∧ (types.lookup? n).isSome) ∧
    (checkedTypes.isValue f.type → types.lookup? n = none)

instance (n : String) (f : Field) : Decidable (Builtin.Sound n f) :=
  inferInstanceAs (Decidable (_ ∧ _))

/-- Built-in names of all modes are sound. -/
theorem Builtin.sound {mode : Mode} {n : String} {f : Field}
    (h : (Builtin.scopes mode).root.lookup n = some f) : Builtin.Sound n f := by
  have hall : ∀ p ∈ Builtin.roots, Builtin.Sound p.1 p.2 := by decide +kernel
  exact hall _ (Builtin.mem_roots h)

/-! ## Expressions -/

open Scopes

variable {env : CheckEnv} {cs cs' cs'' : CheckState} {ns ns' fs fs' : List String}

/-- A function that may be called: no entry, and known unless it is built in. -/
structure CheckEnv.MayCall (env : CheckEnv) (f : String) : Prop where
  entry : env.isEntry f = false
  known : f ≠ Builtin.hashFunction.1 → ∃ sig, env.signatures.lookup f = some sig

/-- From one state to another, something was accepted that assigns names in `ns` and calls
functions in `fs`, all of which may be called. -/
structure Accepts (env : CheckEnv) (cs cs' : CheckState) (ns fs : List String) : Prop where
  grows : Grows env.types cs.scopes cs'.scopes ns
  calls : ∀ f ∈ fs, env.MayCall f

theorem Accepts.refl (h : cs.scopes.Proper) : Accepts env cs cs [] [] :=
  ⟨h.grows, nofun⟩

theorem Accepts.trans (h : Accepts env cs cs' ns fs) (h' : Accepts env cs' cs'' ns' fs') :
    Accepts env cs cs'' (ns ++ ns') (fs ++ fs') where
  grows := h.grows.trans h'.grows
  calls := by
    intro f hf
    rcases List.mem_append.1 hf with hf | hf
    · exact h.calls f hf
    · exact h'.calls f hf

theorem Accepts.proper (h : Accepts env cs cs' ns fs) (hΓ : cs.scopes.Proper) :
    cs'.scopes.Proper :=
  h.grows.proper hΓ

mutual

/-- Checking an expression adds the names it assigns, and it calls what may be called. -/
theorem Expr.check_accepts : ∀ (e : Expr) {cs cs' : CheckState} {τ : TypeId},
    cs.scopes.Proper → e.check env cs = .ok (τ, cs') →
    Accepts env cs cs' e.assigned e.called
  | .uint _ _, cs, cs', τ, hΓ, h => by
    simp only [Expr.check, Check.pure_eq_ok] at h
    obtain ⟨-, rfl⟩ := h
    rw [Expr.assigned_uint, Expr.called_uint]
    exact .refl hΓ
  | .bytes _ _, cs, cs', τ, hΓ, h => by
    simp only [Expr.check, Check.pure_eq_ok] at h
    obtain ⟨-, rfl⟩ := h
    rw [Expr.assigned_bytes, Expr.called_bytes]
    exact .refl hΓ
  | .unary .not e span, cs, cs', τ, hΓ, h => by
    obtain ⟨τe, he, -⟩ := check_not h
    rw [Expr.assigned_unary, Expr.called_unary]
    exact e.check_accepts hΓ he
  | .unary .complement e span, cs, cs', τ, hΓ, h => by
    rw [Expr.assigned_unary, Expr.called_unary]
    exact e.check_accepts hΓ (check_complement h).1
  | .binary o l r span, cs, cs', τ, hΓ, h => by
    rw [Expr.called_binary]
    rcases o.forms with rfl | rfl | rfl | rfl | rfl | ho
    · obtain ⟨n, span', rfl⟩ := check_assign_target h
      obtain ⟨τr, cs₁, hr, -, hcases⟩ := check_assign h
      have hright := r.check_accepts hΓ hr
      rw [Expr.assigned_assign, Expr.called_var, Variable.called_name, List.nil_append]
      rcases hcases with ⟨hlookup, hvalue, -, rfl⟩ | ⟨f, hlookup, hconst, -, -, -, rfl⟩
      · obtain ⟨hroot, hnone⟩ := lookup?_eq_none hlookup
        exact ⟨hright.grows.declare hroot hnone hvalue, hright.calls⟩
      · refine ⟨hright.grows.mono (List.subset_cons_self _ _) fun m hm => ?_, hright.calls⟩
        rcases List.mem_cons.1 hm with rfl | hm
        · exact .inr (hΓ.assignable hlookup hconst)
        · exact hright.grows.assignable m hm
    · obtain ⟨left, right, span', rfl⟩ := check_ternary_arms h
      obtain ⟨τc, cs₁, τl, cs₂, τr, hc, -, -, hl, -, hr, -⟩ := check_choice h
      have hcond := l.check_accepts hΓ hc
      have hleft := left.check_accepts (hcond.proper hΓ) hl
      have hright := right.check_accepts (hleft.proper (hcond.proper hΓ)) hr
      rw [Expr.assigned_binary (by decide), Expr.assigned_binary (by decide),
        Expr.called_binary]
      exact hcond.trans (hleft.trans hright)
    · obtain ⟨τl, n, span', hl, -, rfl, -⟩ := check_cast h
      rw [Expr.assigned_binary (by decide), Expr.assigned_var, Variable.assigned_name,
        Expr.called_var, Variable.called_name, List.append_nil, List.append_nil]
      exact l.check_accepts hΓ hl
    · exact (check_range h).elim
    · exact (check_rangeInclusive h).elim
    · have hassign : o ≠ .assign := by
        rintro rfl
        cases ho
      rw [Expr.assigned_binary hassign]
      rcases check_operator ho h with
        ⟨place, n, span', target, f, -, rfl, -, rfl, -, -, hplace, -⟩ |
        ⟨-, τl, cs₁, τr, hl, -, hr, -⟩
      · rw [Expr.assigned_var, Expr.assigned_var, Variable.assigned_name, Expr.called_var,
          Expr.called_var, Variable.called_name, List.append_nil, List.append_nil]
        exact place.check_accepts hΓ hplace
      · have hleft := l.check_accepts hΓ hl
        exact hleft.trans (r.check_accepts (hleft.proper hΓ) hr)
  | .call f args span, cs, cs', τ, hΓ, h => by
    rw [Expr.assigned_call, Expr.called_call]
    by_cases hf : f = Builtin.hashFunction.1
    · subst hf
      obtain ⟨input, n, span', τi, rfl, hi, -, -, hentry, -⟩ := check_hash h
      have hinput := input.check_accepts hΓ hi
      simp only [List.flatMap_cons, List.flatMap_nil, Expr.assigned_var, Variable.assigned_name,
        Expr.called_var, Variable.called_name, List.append_nil]
      exact ⟨hinput.grows, List.forall_mem_cons.2 ⟨⟨hentry, nofun⟩, hinput.calls⟩⟩
    · obtain ⟨sig, hsig, hentry, -, hargs, -⟩ := check_call hf h
      have haccepts := Expr.checkArguments_accepts args hΓ hargs
      exact ⟨haccepts.grows, List.forall_mem_cons.2 ⟨⟨hentry, fun _ => ⟨sig, hsig⟩⟩, haccepts.calls⟩⟩
  | .var place, cs, cs', τ, hΓ, h => by
    obtain ⟨f, hf, -⟩ := check_var h
    rw [Expr.assigned_var, Expr.called_var]
    exact place.check_accepts hΓ hf
termination_by e => sizeOf e

theorem Expr.checkArguments_accepts : ∀ (es : List Expr) {cs cs' : CheckState},
    cs.scopes.Proper → Expr.checkArguments env es cs = .ok ((), cs') →
    Accepts env cs cs' (es.flatMap Expr.assigned) (es.flatMap Expr.called)
  | [], cs, cs', hΓ, h => by
    simp only [Expr.checkArguments, Check.pure_eq_ok] at h
    obtain ⟨-, rfl⟩ := h
    exact .refl hΓ
  | e :: es, cs, cs', hΓ, h => by
    obtain ⟨τe, cs₁, he, -, hes⟩ := checkArguments_cons h
    have hfirst := e.check_accepts hΓ he
    exact hfirst.trans (Expr.checkArguments_accepts es (hfirst.proper hΓ) hes)
termination_by es => sizeOf es

theorem Variable.check_accepts : ∀ (v : Variable) {cs cs' : CheckState} {f : Field},
    cs.scopes.Proper → v.check env cs = .ok (f, cs') →
    Accepts env cs cs' v.assigned v.called
  | .name n span, cs, cs', f, hΓ, h => by
    obtain ⟨-, rfl⟩ := check_name h
    rw [Variable.assigned_name, Variable.called_name]
    refine ⟨?_, nofun⟩
    split <;> exact hΓ.grows
  | .index base i span, cs, cs', f, hΓ, h => by
    obtain ⟨g, a, cs₁, τi, hbase, -, hi, -⟩ := check_index h
    have haccepts := base.check_accepts hΓ hbase
    rw [Variable.assigned_index, Variable.called_index]
    exact haccepts.trans (i.check_accepts (haccepts.proper hΓ) hi)
  | .member owner m span, cs, cs', f, hΓ, h => by
    obtain ⟨g, g', howner, -⟩ := check_member h
    rw [Variable.assigned_member, Variable.called_member]
    exact owner.check_accepts hΓ howner
termination_by v => sizeOf v

end

/-! ## Statements -/

theorem checkCaseValues_accepts {τ : TypeId} : ∀ (es : List Expr) {cs cs' : CheckState},
    cs.scopes.Proper → checkCaseValues env τ es cs = .ok ((), cs') →
    Accepts env cs cs' (es.flatMap Expr.assigned) (es.flatMap Expr.called)
  | [], cs, cs', hΓ, h => by
    simp only [checkCaseValues, Check.pure_eq_ok] at h
    obtain ⟨-, rfl⟩ := h
    exact .refl hΓ
  | e :: es, cs, cs', hΓ, h => by
    obtain ⟨τe, cs₁, he, -, -, hes⟩ := checkCaseValues_cons.1 h
    have hfirst := e.check_accepts hΓ he
    exact hfirst.trans (checkCaseValues_accepts es (hfirst.proper hΓ) hes)

theorem checkLeaving_accepts {kind : Leaving} {value : Option Expr} {span : Span}
    (hΓ : cs.scopes.Proper) (h : checkLeaving env kind value span cs = .ok ((), cs')) :
    Accepts env cs cs' (value.toList.flatMap Expr.assigned)
      (value.toList.flatMap Expr.called) := by
  have hwell := checkLeaving_eq_ok h
  unfold LeavesWell at hwell
  split at hwell
  · subst hwell
    simp only [Option.toList_some, List.flatMap_cons, List.flatMap_nil, Expr.assigned_bytes,
      Expr.called_bytes, List.append_nil]
    exact .refl hΓ
  · exact hwell.elim
  · obtain ⟨τ, he, -⟩ := hwell
    simpa using Expr.check_accepts _ hΓ he
  · exact hwell.elim
  · obtain ⟨τ, he, -⟩ := hwell
    simpa using Expr.check_accepts _ hΓ he
  · obtain ⟨rfl, -⟩ := hwell
    exact .refl hΓ

/-- Scopes with one more frame. -/
theorem Scopes.Proper.push {Γ : Scopes} (h : Γ.Proper) (boundary : Boundary) :
    (Γ.push boundary).Proper :=
  ⟨List.cons_ne_nil _ _, h.constant⟩

mutual

/-- Checking a statement adds the names that its own expressions assign. -/
theorem Stmt.check_accepts : ∀ (s : Stmt) {cs cs' : CheckState},
    cs.scopes.Proper → s.check env cs = .ok ((), cs') →
    Accepts env cs cs' (s.ownExpressions.flatMap Expr.assigned) (Node.stmt s).called
  | .ifElse c t none span, cs, cs', hΓ, h => by
    simp only [Stmt.check, Check.bind_eq_ok, checkCondition_eq_ok] at h
    obtain ⟨_, cs₁, ⟨τ, hc, -⟩, ht⟩ := h
    have hcond := c.check_accepts hΓ hc
    have hthen := (Block.check_accepts t (hcond.proper hΓ) ht).1
    rw [Node.called_children rfl]
    simpa [Stmt.ownExpressions, Node.children, Node.ofStmt] using hcond.trans hthen
  | .ifElse c t (some e) span, cs, cs', hΓ, h => by
    simp only [Stmt.check, Check.bind_eq_ok, checkCondition_eq_ok] at h
    obtain ⟨_, cs₁, ⟨τ, hc, -⟩, _, cs₂, ht, he⟩ := h
    have hcond := c.check_accepts hΓ hc
    have hthen := (Block.check_accepts t (hcond.proper hΓ) ht).1
    have helse := (Block.check_accepts e (hthen.proper (hcond.proper hΓ)) he).1
    rw [Node.called_children rfl]
    simpa [Stmt.ownExpressions, Node.children, Node.ofStmt] using
      hcond.trans (hthen.trans helse)
  | .whileDo c b span, cs, cs', hΓ, h => by
    simp only [Stmt.check, Check.bind_eq_ok, checkCondition_eq_ok] at h
    obtain ⟨_, cs₁, ⟨τ, hc, -⟩, hb⟩ := h
    have hcond := c.check_accepts hΓ hc
    have hbody := (Block.check_accepts b (hcond.proper hΓ) hb).1
    rw [Node.called_children rfl]
    simpa [Stmt.ownExpressions, Node.children, Node.ofStmt] using hcond.trans hbody
  | .doWhile b c span, cs, cs', hΓ, h => by
    simp only [Stmt.check, Check.bind_eq_ok, checkCondition_eq_ok] at h
    obtain ⟨_, cs₁, hb, τ, hc, -⟩ := h
    have hbody := (Block.check_accepts b hΓ hb).1
    have hcond := c.check_accepts (hbody.proper hΓ) hc
    rw [Node.called_children rfl]
    simpa [Stmt.ownExpressions, Node.children, Node.ofStmt] using hbody.trans hcond
  | .switch t cases none span, cs, cs', hΓ, h => by
    simp only [Stmt.check, Check.bind_eq_ok, checkValue_eq_ok] at h
    obtain ⟨τ, cs₁, ⟨ht, -⟩, hcases⟩ := h
    have htested := t.check_accepts hΓ ht
    have hrest := Case.checkList_accepts cases (htested.proper hΓ) hcases
    rw [Node.called_children rfl]
    simpa [Stmt.ownExpressions, Node.children, Node.ofStmt, List.flatMap_map,
      List.flatMap_assoc] using htested.trans hrest
  | .switch t cases (some d) span, cs, cs', hΓ, h => by
    simp only [Stmt.check, Check.bind_eq_ok, checkValue_eq_ok] at h
    obtain ⟨τ, cs₁, ⟨ht, -⟩, _, cs₂, hcases, hd⟩ := h
    have htested := t.check_accepts hΓ ht
    have hrest := Case.checkList_accepts cases (htested.proper hΓ) hcases
    have hother := (Block.check_accepts d (hrest.proper (htested.proper hΓ)) hd).1
    rw [Node.called_children rfl]
    simpa [Stmt.ownExpressions, Node.children, Node.ofStmt, List.flatMap_map,
      List.flatMap_assoc] using htested.trans (hrest.trans hother)
  | .leave kind value span, cs, cs', hΓ, h => by
    rw [Stmt.check] at h
    rw [Node.called_children rfl]
    simpa [Stmt.ownExpressions, Node.children, Node.ofStmt, List.flatMap_map] using
      checkLeaving_accepts hΓ h
  | .expr e, cs, cs', hΓ, h => by
    simp only [Stmt.check, Check.bind_eq_ok, Check.pure_eq_ok] at h
    obtain ⟨τ, _, he, -, rfl⟩ := h
    rw [Node.called_children rfl]
    simpa [Stmt.ownExpressions, Node.children, Node.ofStmt] using e.check_accepts hΓ he

theorem Stmt.checkList_accepts : ∀ (ss : List Stmt) {cs cs' : CheckState},
    cs.scopes.Proper → Stmt.checkList env ss cs = .ok ((), cs') →
    Accepts env cs cs' (Stmt.assignedNames ss) (ss.flatMap fun s => (Node.stmt s).called)
  | [], cs, cs', hΓ, h => by
    simp only [Stmt.checkList, Check.pure_eq_ok] at h
    obtain ⟨-, rfl⟩ := h
    exact .refl hΓ
  | s :: ss, cs, cs', hΓ, h => by
    simp only [Stmt.checkList, Check.bind_eq_ok] at h
    obtain ⟨_, cs₁, hs, hss⟩ := h
    have hfirst := s.check_accepts hΓ hs
    have hrest := Stmt.checkList_accepts ss (hfirst.proper hΓ) hss
    rw [Stmt.assignedNames_eq] at hrest ⊢
    rw [List.flatMap_cons, List.flatMap_append, List.flatMap_cons]
    exact hfirst.trans hrest

/-- A block leaves the scopes as they were. -/
theorem Block.check_accepts : ∀ (b : Block) {cs cs' : CheckState},
    cs.scopes.Proper → b.check env cs = .ok ((), cs') →
    Accepts env cs cs' [] (Node.block b).called ∧ cs'.scopes = cs.scopes
  | ⟨ss, span⟩, cs, cs', hΓ, h => by
    obtain ⟨cs₁, hss, rfl⟩ := checkBlock_eq_ok.1 h
    have hinner := Stmt.checkList_accepts ss (hΓ.push .clear) hss
    have hscopes : cs₁.scopes.pop = cs.scopes := by
      obtain ⟨head, head', outer, hΓ₀, hΓ₁, -⟩ := hinner.grows.frames
      have hroot : cs₁.scopes.root = cs.scopes.root := hinner.grows.root
      have houter : cs.scopes.frames = outer := (List.cons.inj hΓ₀).2
      unfold Scopes.pop
      rw [hΓ₁, List.tail_cons, hroot, ← houter]
    refine ⟨⟨?_, ?_⟩, hscopes⟩
    · show Grows _ _ cs₁.scopes.pop _
      rw [hscopes]
      exact hΓ.grows
    · rw [Node.called_children rfl]
      simpa [Node.children, List.flatMap_map] using hinner.calls

theorem Case.checkList_accepts {τ : TypeId} : ∀ (cases : List Case) {cs cs' : CheckState},
    cs.scopes.Proper → Case.checkList env τ cases cs = .ok ((), cs') →
    Accepts env cs cs' (cases.flatMap fun c => c.values.flatMap Expr.assigned)
      (cases.flatMap fun c => (Node.case c).called)
  | [], cs, cs', hΓ, h => by
    simp only [Case.checkList, Check.pure_eq_ok] at h
    obtain ⟨-, rfl⟩ := h
    exact .refl hΓ
  | ⟨values, block, span⟩ :: cases, cs, cs', hΓ, h => by
    simp only [Case.checkList, Check.bind_eq_ok] at h
    obtain ⟨_, cs₁, hvalues, _, cs₂, hblock, hcases⟩ := h
    have hfirst := checkCaseValues_accepts values hΓ hvalues
    have hthen := (Block.check_accepts block (hfirst.proper hΓ) hblock).1
    have hrest := Case.checkList_accepts cases (hthen.proper (hfirst.proper hΓ)) hcases
    rw [List.flatMap_cons, List.flatMap_cons, Node.called_children rfl]
    simpa [Node.children, List.flatMap_map] using hfirst.trans (hthen.trans hrest)

end

end ContractCompiler
