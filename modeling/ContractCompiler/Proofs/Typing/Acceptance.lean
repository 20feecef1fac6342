import ContractCompiler.Lowering.Expr

/-!
# What acceptance tells

A check that succeeds has gone through every rule for its construct. For each construct, what
that says about the parts, and about the state before and after.
-/

namespace ContractCompiler

open TypeTable (isBasic isInteger)

namespace Check

variable {α β : Type} {cs cs' : CheckState}

/-- The state after a check. -/
def after (check : Check α) (cs : CheckState) : CheckState :=
  match check cs with
  | .ok (_, cs') => cs'
  | .error _ => cs

theorem after_eq {check : Check α} {a : α} (h : check cs = .ok (a, cs')) :
    check.after cs = cs' := by
  rw [after, h]

theorem bind_eq_ok {x : Check α} {f : α → Check β} {b : β} :
    (x >>= f) cs = .ok (b, cs') ↔ ∃ a cs₁, x cs = .ok (a, cs₁) ∧ f a cs₁ = .ok (b, cs') := by
  show (x cs >>= fun r => f r.1 r.2) = _ ↔ _
  cases hx : x cs with
  | error e => simp [bind, Except.bind]
  | ok r =>
    constructor
    · intro h
      exact ⟨r.1, r.2, rfl, h⟩
    · rintro ⟨a, cs₁, heq, h⟩
      cases heq
      exact h

theorem pure_eq_ok {a b : α} : (pure a : Check α) cs = .ok (b, cs') ↔ a = b ∧ cs = cs' := by
  show Except.ok (a, cs) = .ok (b, cs') ↔ _
  simp

theorem fail_ne_ok {span : Span} {fault : TypeFault} {r : α × CheckState} :
    (Check.fail span fault : Check α) cs ≠ .ok r := nofun

/-- A guard lets a check through if it holds. -/
theorem unless_eq_ok {c : Prop} [Decidable c] {span : Span} {fault : TypeFault}
    {x : Check β} {b : β} :
    (if c then x else (do let _ ← (Check.fail span fault : Check Unit); x)) cs = .ok (b, cs') ↔
      c ∧ x cs = .ok (b, cs') := by
  split
  case isTrue hc => simp [hc]
  case isFalse hc =>
    constructor
    · rintro ⟨⟩
    · intro h
      exact absurd h.1 hc

/-- A guard lets a check through if it does not hold. -/
theorem when_eq_ok {c : Prop} [Decidable c] {span : Span} {fault : TypeFault}
    {x : Check β} {b : β} :
    (if c then (do let _ ← (Check.fail span fault : Check Unit); x) else x) cs = .ok (b, cs') ↔
      ¬c ∧ x cs = .ok (b, cs') := by
  split
  case isTrue hc =>
    constructor
    · rintro ⟨⟩
    · intro h
      exact absurd hc h.1
  case isFalse hc => simp [hc]

/-- A guard at the end of a check. -/
theorem ensure_eq_ok {c : Prop} [Decidable c] {span : Span} {fault : TypeFault} {u : Unit} :
    (if c then pure () else (Check.fail span fault : Check Unit)) cs = .ok (u, cs') ↔
      c ∧ cs' = cs := by
  split
  case isTrue hc =>
    rw [pure_eq_ok]
    simp [hc, eq_comm]
  case isFalse hc => simp [hc, fail_ne_ok]

theorem lookup?_eq_ok {name : String} {f : Option Field} :
    Check.lookup? name cs = .ok (f, cs') ↔ cs.scopes.lookup? name = f ∧ cs = cs' := by
  show Except.ok (cs.scopes.lookup? name, cs) = .ok (f, cs') ↔ _
  simp

end Check

open Check

variable {env : CheckEnv} {cs cs' : CheckState} {τ : TypeId}

/-- The type of an expression. -/
def Expr.type? (env : CheckEnv) (cs : CheckState) (e : Expr) : Option TypeId :=
  match e.check env cs with
  | .ok (τ, _) => some τ
  | .error _ => none

theorem Expr.type?_eq {e : Expr} (h : e.check env cs = .ok (τ, cs')) : e.type? env cs = some τ := by
  rw [Expr.type?, h]

theorem expectValue_eq_ok {e : Expr} {τ' : TypeId} :
    expectValue e τ cs = .ok (τ', cs') ↔ τ ≠ .void ∧ τ' = τ ∧ cs' = cs := by
  unfold expectValue
  split
  case isTrue h => simp [h, fail_ne_ok]
  case isFalse h =>
    rw [pure_eq_ok]
    simp [h, eq_comm]

theorem expectCondition_eq_ok {e : Expr} {u : Unit} :
    expectCondition env e τ cs = .ok (u, cs') ↔ τ ≠ .void ∧ isInteger τ ∧ cs' = cs := by
  unfold expectCondition
  rw [bind_eq_ok]
  simp only [expectValue_eq_ok]
  constructor
  · rintro ⟨τ', cs₁, ⟨hv, rfl, rfl⟩, h⟩
    obtain ⟨hi, rfl⟩ := ensure_eq_ok.1 h
    exact ⟨hv, hi, rfl⟩
  · rintro ⟨hv, hi, rfl⟩
    refine ⟨τ, cs', ⟨hv, rfl, rfl⟩, ?_⟩
    rw [if_pos hi]
    rfl

theorem typeOperand?_eq_ok {e : Expr} {r : Option TypeId} :
    e.typeOperand? env cs = .ok (r, cs') ↔ cs' = cs ∧
      r = e.asName?.bind fun n => (cs.scopes.lookup? n).bind fun f =>
        if f.type = .type then env.types.lookup? n else none := by
  unfold Expr.typeOperand?
  cases e.asName? with
  | none =>
    rw [pure_eq_ok]
    simp [eq_comm, and_comm]
  | some n =>
    simp only [bind_eq_ok, lookup?_eq_ok]
    constructor
    · rintro ⟨f, cs₁, ⟨rfl, rfl⟩, h⟩
      cases hf : cs.scopes.lookup? n with
      | none =>
        rw [hf] at h
        obtain ⟨rfl, rfl⟩ := pure_eq_ok.1 h
        simp [hf]
      | some f =>
        rw [hf] at h
        obtain ⟨rfl, rfl⟩ := pure_eq_ok.1 h
        simp [hf]
    · rintro ⟨rfl, rfl⟩
      refine ⟨_, _, ⟨rfl, rfl⟩, ?_⟩
      cases hf : cs'.scopes.lookup? n <;> simp [pure_eq_ok, hf]

/-! ## Expressions -/

/-- The forms of expressions with a binary operator. -/
theorem BinaryOperator.forms (o : BinaryOperator) : o = .assign ∨ o = .ternary ∨ o = .colon ∨
    o = .range ∨ o = .rangeInclusive ∨ o.uintOpcode?.isSome = true := by
  cases o <;> decide

theorem Expr.eq_name_of_asName? {e : Expr} {n : String} (h : e.asName? = some n) :
    ∃ span, e = .var (.name n span) := by
  cases e with
  | var place =>
    cases place with
    | name m span =>
      cases h
      exact ⟨span, rfl⟩
    | _ => cases h
  | _ => cases h

/-- An expression that names a type is a name, known as one of a type. -/
theorem typeOperand?_eq_some {scopes : Scopes} {e : Expr}
    (h : (e.asName?.bind fun n => (scopes.lookup? n).bind fun f =>
      if f.type = .type then env.types.lookup? n else none) = some τ) :
    ∃ n span, e = .var (.name n span) ∧ env.types.lookup? n = some τ ∧
      (scopes.lookup? n).map Field.type = some .type := by
  obtain ⟨n, hn, hlookup⟩ := Option.bind_eq_some_iff.1 h
  obtain ⟨f, hf, hif⟩ := Option.bind_eq_some_iff.1 hlookup
  obtain ⟨span, rfl⟩ := Expr.eq_name_of_asName? hn
  split at hif
  case isFalse => cases hif
  case isTrue htype =>
    refine ⟨n, span, rfl, hif, ?_⟩
    rw [hf, ← htype]
    rfl

-- Every theorem below opens one of these rules. Their equations are made here, once.
attribute [local simp] Expr.check Expr.checkArguments Expr.checkHash Variable.check

variable {e l r c : Expr} {span span' : Span}

theorem check_not (h : (Expr.unary .not e span).check env cs = .ok (τ, cs')) :
    ∃ τe, e.check env cs = .ok (τe, cs') ∧ τe ≠ .void ∧ isInteger τe ∧ τ = .uint64 := by
  simp only [Expr.check, bind_eq_ok, expectValue_eq_ok] at h
  obtain ⟨τe, cs₁, he, _, _, ⟨hvoid, rfl, rfl⟩, h⟩ := h
  split at h
  case isTrue hi =>
    obtain ⟨rfl, rfl⟩ := pure_eq_ok.1 h
    exact ⟨_, he, hvoid, hi, rfl⟩
  case isFalse => exact absurd h fail_ne_ok

theorem check_complement (h : (Expr.unary .complement e span).check env cs = .ok (τ, cs')) :
    e.check env cs = .ok (τ, cs') ∧ τ ≠ .void ∧ isBasic τ := by
  simp only [Expr.check, bind_eq_ok, expectValue_eq_ok] at h
  obtain ⟨τe, cs₁, he, _, _, ⟨hvoid, rfl, rfl⟩, h⟩ := h
  split at h
  case isTrue hb =>
    obtain ⟨rfl, rfl⟩ := pure_eq_ok.1 h
    exact ⟨he, hvoid, hb⟩
  case isFalse => exact absurd h fail_ne_ok

/-- Assignments declare a name that is not known, and otherwise ask for a name that can be
assigned and a value that suits it. -/
theorem check_assign {n : String}
    (h : (Expr.binary .assign (.var (.name n span)) r span').check env cs = .ok (τ, cs')) :
    ∃ τr cs₁, r.check env cs = .ok (τr, cs₁) ∧ τr ≠ .void ∧
      ((cs.scopes.lookup? n = none ∧ env.types.isValue τr ∧ τ = τr ∧
          cs' = { cs₁ with
            scopes := cs₁.scopes.declare n (.var τr), locals := cs₁.locals + 1 }) ∨
        ∃ f, cs.scopes.lookup? n = some f ∧ f.constReference = false ∧
          f.constMembers = false ∧ env.types.isCompatible f.type τr ∧ τ = f.type ∧
          cs' = cs₁) := by
  simp only [Expr.check, assignTo, bind_eq_ok, lookup?_eq_ok] at h
  obtain ⟨_, _, ⟨rfl, rfl⟩, h⟩ := h
  cases hf : cs.scopes.lookup? n with
  | none =>
    rw [hf] at h
    simp only [bind_eq_ok, expectValue_eq_ok, unless_eq_ok, pure_eq_ok] at h
    obtain ⟨_, cs₁, ⟨τr, _, hr, hvoid, rfl, rfl⟩, hvalue, _, _, hdecl, rfl, rfl⟩ := h
    refine ⟨_, _, hr, hvoid, .inl ⟨rfl, hvalue, rfl, ?_⟩⟩
    cases hdecl
    rfl
  | some f =>
    rw [hf] at h
    simp only [bind_eq_ok, expectValue_eq_ok, unless_eq_ok, when_eq_ok, pure_eq_ok] at h
    obtain ⟨hconst, _, cs₁, ⟨τr, _, hr, hvoid, rfl, rfl⟩, hcompat, rfl, rfl⟩ := h
    simp only [Bool.or_eq_true, not_or, Bool.not_eq_true] at hconst
    exact ⟨_, _, hr, hvoid, .inr ⟨f, rfl, hconst.1, hconst.2, hcompat, rfl, rfl⟩⟩

theorem check_assign_target (h : (Expr.binary .assign l r span).check env cs = .ok (τ, cs')) :
    ∃ n span', l = .var (.name n span') := by
  cases l with
  | var place =>
    cases place with
    | name n span' => exact ⟨n, span', rfl⟩
    | _ => exact absurd (by simpa only [Expr.check] using h) fail_ne_ok
  | _ => exact absurd (by simpa only [Expr.check] using h) fail_ne_ok

/-- A choice asks for a condition and for arms of types that suit each other. -/
theorem check_choice
    (h : (Expr.binary .ternary c (.binary .colon l r span) span').check env cs =
      .ok (τ, cs')) :
    ∃ τc cs₁ τl cs₂ τr, c.check env cs = .ok (τc, cs₁) ∧ τc ≠ .void ∧ isInteger τc ∧
      l.check env cs₁ = .ok (τl, cs₂) ∧ τl ≠ .void ∧ r.check env cs₂ = .ok (τr, cs') ∧
      τr ≠ .void ∧ env.types.isCompatible τl τr ∧ τ = if τl = .any then τr else τl := by
  simp only [Expr.check, bind_eq_ok, expectValue_eq_ok, expectCondition_eq_ok, unless_eq_ok,
    pure_eq_ok] at h
  obtain ⟨τc, _, hc, _, cs₁, ⟨hvc, hint, rfl⟩, τl, _, hl, _, cs₂, ⟨hvl, rfl, rfl⟩, τr, _, hr, _,
    _, ⟨hvr, rfl, rfl⟩, hcompat, rfl, rfl⟩ := h
  exact ⟨_, _, _, _, _, hc, hvc, hint, hl, hvl, hr, hvr, hcompat, rfl⟩

theorem check_ternary_arms (h : (Expr.binary .ternary c r span).check env cs = .ok (τ, cs')) :
    ∃ left right span', r = .binary .colon left right span' := by
  cases r with
  | binary o left right span' =>
    cases o with
    | colon => exact ⟨left, right, span', rfl⟩
    | _ => exact absurd (by simpa only [Expr.check] using h) fail_ne_ok
  | _ => exact absurd (by simpa only [Expr.check] using h) fail_ne_ok

/-- A cast names a type. -/
theorem check_cast (h : (Expr.binary .colon l r span).check env cs = .ok (τ, cs')) :
    ∃ τl n span', l.check env cs = .ok (τl, cs') ∧ τl ≠ .void ∧ r = .var (.name n span') ∧
      env.types.lookup? n = some τ ∧
      (cs'.scopes.lookup? n).map Field.type = some .type := by
  simp only [Expr.check, bind_eq_ok, expectValue_eq_ok, castType, typeOperand?_eq_ok] at h
  obtain ⟨τl, cs₁, hl, _, _, ⟨hvoid, rfl, rfl⟩, target, _, ⟨rfl, htarget⟩, h⟩ := h
  cases target with
  | none => exact absurd h fail_ne_ok
  | some target =>
    dsimp only at h
    split at h
    case isFalse => exact absurd h fail_ne_ok
    case isTrue =>
      obtain ⟨rfl, rfl⟩ := pure_eq_ok.1 h
      obtain ⟨n, span', rfl, hname, htype⟩ := typeOperand?_eq_some htarget.symm
      exact ⟨_, n, span', hl, hvoid, rfl, hname, htype⟩

theorem check_range (h : (Expr.binary .range l r span).check env cs = .ok (τ, cs')) : False := by
  rw [Expr.check] at h
  cases h

theorem check_rangeInclusive
    (h : (Expr.binary .rangeInclusive l r span).check env cs = .ok (τ, cs')) : False := by
  rw [Expr.check] at h
  cases h

/-- A test of the type of a transaction, or an operator on two values. -/
theorem check_operator {o : BinaryOperator} (ho : o.uintOpcode?.isSome)
    (h : (Expr.binary o l r span).check env cs = .ok (τ, cs')) :
    (∃ place n span' target f, (o = .eq ∨ o = .ne) ∧ l = .var place ∧
        (Expr.var place).isTransaction ∧ r = .var (.name n span') ∧
        env.types.lookup? n = some target ∧
        (cs.scopes.lookup? n).map Field.type = some .type ∧
        place.check env cs = .ok (f, cs') ∧ τ = .uint64) ∨
      ((o = .eq ∨ o = .ne → ∀ n span', r = .var (.name n span') →
          (cs.scopes.lookup? n).map Field.type = some .type → env.types.lookup? n = none) ∧
        ∃ τl cs₁ τr, l.check env cs = .ok (τl, cs₁) ∧ τl ≠ .void ∧
          r.check env cs₁ = .ok (τr, cs') ∧ τr ≠ .void ∧
          (o.needsIntegers → isInteger τl ∧ isInteger τr) ∧ env.types.isValue τl ∧
          env.types.isValue τr ∧ env.types.isCompatible τl τr ∧
          τ = if o.isComparison || o.isLogical then .uint64 else τl) := by
  rw [Expr.check, bind_eq_ok] at h
  rotate_left
  iterate 8 (intros; subst_vars; cases ho)
  obtain ⟨target, cs₀, htarget, h⟩ := h
  have hstate : cs₀ = cs ∧ target = if o = .eq ∨ o = .ne then
      r.asName?.bind fun n => (cs.scopes.lookup? n).bind fun f =>
        if f.type = .type then env.types.lookup? n else none else none := by
    split at htarget
    case isTrue hop =>
      rw [if_pos hop]
      exact typeOperand?_eq_ok.1 htarget
    case isFalse hop =>
      rw [if_neg hop]
      obtain ⟨rfl, rfl⟩ := pure_eq_ok.1 htarget
      exact ⟨rfl, rfl⟩
  obtain ⟨rfl, hnames⟩ := hstate
  cases target with
  | some target =>
    left
    split at hnames
    case isFalse => cases hnames
    case isTrue hop =>
      obtain ⟨n, span', rfl, hname, htype⟩ := typeOperand?_eq_some hnames.symm
      cases l with
      | var place =>
        dsimp only at h
        split at h
        case isFalse => exact absurd h fail_ne_ok
        case isTrue htrans =>
          simp only [bind_eq_ok, typeTestType, when_eq_ok, pure_eq_ok] at h
          obtain ⟨f, _, hplace, -, -, rfl, rfl⟩ := h
          exact ⟨place, n, span', target, f, hop, rfl, htrans, rfl, hname, htype, hplace, rfl⟩
      | _ => exact absurd h fail_ne_ok
  | none =>
    right
    refine ⟨?_, ?_⟩
    · rintro hop n span' rfl htype
      rw [if_pos hop] at hnames
      obtain ⟨f, hf, hftype⟩ := Option.map_eq_some_iff.1 htype
      simpa [Expr.asName?, hf, hftype] using hnames.symm
    · simp only [bind_eq_ok, expectValue_eq_ok, operatorType, when_eq_ok, unless_eq_ok,
        pure_eq_ok] at h
      obtain ⟨τl, cs₁, hl, _, _, ⟨hvl, rfl, rfl⟩, τr, cs₂, hr, _, _, ⟨hvr, rfl, rfl⟩, hints,
        hvalues, hcompat, rfl, rfl⟩ := h
      simp only [Bool.or_eq_true, Bool.not_eq_true', not_or, Bool.not_eq_false] at hvalues
      refine ⟨_, _, _, hl, hvl, hr, hvr, fun hn => ?_, hvalues.1, hvalues.2, hcompat, rfl⟩
      simpa [hn] using hints

/-- A type is found under its name. -/
theorem TypeTable.name_of_lookup? {t : TypeTable} {n : String} {id : TypeId}
    (h : t.lookup? n = some id) : t.name id = n := by
  suffices hbelow : ∀ size, t.lookupBelow n size = some id → t.name id = n from hbelow _ h
  intro size hsize
  induction size with
  | zero => cases hsize
  | succ size ih =>
    rw [TypeTable.lookupBelow] at hsize
    split at hsize
    case isFalse => exact ih hsize
    case isTrue hname =>
      cases hsize
      obtain ⟨d, hd, hdn⟩ := Option.any_eq_true _ _ |>.1 hname
      simpa [TypeTable.name, TypeTable.get?, hd] using hdn

/-- What is tested against the name of a type is a transaction, and the type is one of
transactions. -/
theorem check_typeTest {o : BinaryOperator} {place : Variable} {n : String} {target : TypeId}
    {span span' : Span} (ho : o = .eq ∨ o = .ne)
    (htype : (cs.scopes.lookup? n).map Field.type = some .type)
    (htarget : env.types.lookup? n = some target)
    (h : (Expr.binary o (.var place) (.var (.name n span')) span).check env cs = .ok (τ, cs')) :
    (Expr.var place).isTransaction = true ∧ (transactionCode? n).isSome = true := by
  obtain ⟨f, hf, hftype⟩ := Option.map_eq_some_iff.1 htype
  have hop : o.uintOpcode?.isSome := by rcases ho with rfl | rfl <;> rfl
  rw [Expr.check, bind_eq_ok] at h
  rotate_left
  iterate 8 (intros; subst_vars; cases hop)
  obtain ⟨t, cs₀, ht, h⟩ := h
  rw [if_pos ho] at ht
  obtain ⟨rfl, rfl⟩ := typeOperand?_eq_ok.1 ht
  simp only [Expr.asName?, Option.bind_some, hf, hftype, if_true, htarget] at h
  split at h
  case isFalse => exact absurd h fail_ne_ok
  case isTrue htrans =>
    simp only [bind_eq_ok, typeTestType, when_eq_ok, TypeTable.name_of_lookup? htarget] at h
    obtain ⟨g, _, -, hcode, -⟩ := h
    exact ⟨htrans, by simpa [Option.isNone_iff_eq_none, Option.ne_none_iff_isSome] using hcode⟩

/-- The algorithm of a hash is a name, and looking at it changes nothing. -/
theorem expectAlgorithm_eq_ok {algorithm : Expr} {u : Unit}
    (h : expectAlgorithm env algorithm cs = .ok (u, cs')) :
    cs' = cs ∧ ∃ n span, algorithm = .var (.name n span) ∧
      (cs.scopes.lookup? n).map Field.type = some env.builtin.hash := by
  unfold expectAlgorithm at h
  cases hn : algorithm.asName? with
  | none =>
    rw [hn] at h
    obtain ⟨field, cs₁, hfield, hg⟩ := bind_eq_ok.1 h
    obtain ⟨rfl, rfl⟩ := pure_eq_ok.1 hfield
    cases (ensure_eq_ok.1 hg).1
  | some n =>
    rw [hn] at h
    obtain ⟨field, cs₁, hfield, hg⟩ := bind_eq_ok.1 h
    obtain ⟨span, rfl⟩ := Expr.eq_name_of_asName? hn
    obtain ⟨rfl, rfl⟩ := lookup?_eq_ok.1 hfield
    obtain ⟨htype, rfl⟩ := ensure_eq_ok.1 hg
    exact ⟨rfl, n, span, rfl, htype⟩

/-- A hash has an input and an algorithm. -/
theorem check_hash {args : List Expr}
    (h : (Expr.call Builtin.hashFunction.1 args span).check env cs = .ok (τ, cs')) :
    ∃ input n span' τi, args = [input, .var (.name n span')] ∧
      input.check env cs = .ok (τi, cs') ∧ τi ≠ .void ∧ isBasic τi ∧
      env.isEntry Builtin.hashFunction.1 = false ∧ τ = .bytes ∧
      (cs'.scopes.lookup? n).map Field.type = some env.builtin.hash := by
  simp only [Expr.check, beq_self_eq_true, if_true, when_eq_ok, ne_eq, Decidable.not_not,
    Bool.not_eq_true] at h
  obtain ⟨hentry, harity, h⟩ := h
  match args, (show args.length = 2 from harity) with
  | [input, algorithm], _ =>
    simp only [Expr.checkHash, bind_eq_ok, expectValue_eq_ok, unless_eq_ok, pure_eq_ok] at h
    obtain ⟨_, cs₁, hi, _, _, ⟨hvoid, rfl, rfl⟩, hbasic, _, _, halg, rfl, rfl⟩ := h
    obtain ⟨rfl, n, span', rfl, htype⟩ := expectAlgorithm_eq_ok halg
    exact ⟨input, n, span', _, rfl, hi, hvoid, hbasic, hentry, rfl, htype⟩

/-- A call names a function that is no entry, and has as many arguments as that takes. -/
theorem check_call {f : String} {args : List Expr} (hf : f ≠ Builtin.hashFunction.1)
    (h : (Expr.call f args span).check env cs = .ok (τ, cs')) :
    ∃ sig, env.signatures.lookup f = some sig ∧ env.isEntry f = false ∧
      args.length = sig.arity ∧ Expr.checkArguments env args cs = .ok ((), cs') ∧
      τ = resultType sig := by
  have hbeq : (f == Builtin.hashFunction.1) = false := by simpa using hf
  simp only [Expr.check, hbeq, Bool.false_eq_true, if_false] at h
  cases hsig : env.signatures.lookup f with
  | none =>
    rw [hsig] at h
    exact absurd h fail_ne_ok
  | some sig =>
    simp only [hsig, when_eq_ok, bind_eq_ok, pure_eq_ok, ne_eq, Decidable.not_not, Bool.not_eq_true] at h
    obtain ⟨hentry, harity, _, _, hargs, rfl, rfl⟩ := h
    exact ⟨sig, rfl, hentry, harity, hargs, rfl⟩

theorem checkArguments_cons {es : List Expr}
    (h : Expr.checkArguments env (e :: es) cs = .ok ((), cs')) :
    ∃ τe cs₁, e.check env cs = .ok (τe, cs₁) ∧ τe ≠ .void ∧
      Expr.checkArguments env es cs₁ = .ok ((), cs') := by
  simp only [Expr.checkArguments, bind_eq_ok, expectValue_eq_ok, unless_eq_ok] at h
  obtain ⟨τe, cs₁, he, _, _, ⟨hvoid, rfl, rfl⟩, -, hes⟩ := h
  exact ⟨_, _, he, hvoid, hes⟩

/-! ## Places -/

/-- A name is known, and a read of one that can be assigned is noted. -/
theorem check_name {n : String} {f : Field}
    (h : (Variable.name n span).check env cs = .ok (f, cs')) :
    cs.scopes.lookup? n = some f ∧
      cs' = if f.constReference then cs else
        { cs with localTypes := cs.localTypes.insert span.start (env.stackType f.type) } := by
  simp only [Variable.check, bind_eq_ok, lookup?_eq_ok] at h
  obtain ⟨_, _, ⟨rfl, rfl⟩, h⟩ := h
  cases hf : cs.scopes.lookup? n with
  | none =>
    rw [hf] at h
    exact absurd h fail_ne_ok
  | some g =>
    simp only [hf] at h
    split at h
    case isTrue hconst =>
      obtain ⟨rfl, rfl⟩ := pure_eq_ok.1 h
      exact ⟨rfl, (if_pos hconst).symm⟩
    case isFalse hconst =>
      obtain ⟨_, _, hnote, h⟩ := bind_eq_ok.1 h
      obtain ⟨rfl, rfl⟩ := pure_eq_ok.1 h
      cases hnote
      exact ⟨rfl, (if_neg hconst).symm⟩

/-- The value of a place is read if the place is a name or can be read. -/
theorem check_var {place : Variable} (h : (Expr.var place).check env cs = .ok (τ, cs')) :
    ∃ f, place.check env cs = .ok (f, cs') ∧ τ = f.type ∧ place.isLoadable = true := by
  cases place with
  | name n span =>
    simp only [Expr.check, bind_eq_ok, pure_eq_ok] at h
    obtain ⟨f, _, hf, rfl, rfl⟩ := h
    exact ⟨f, hf, rfl, rfl⟩
  | _ =>
    simp only [Expr.check, bind_eq_ok, unless_eq_ok, pure_eq_ok] at h
    obtain ⟨f, _, hf, hload, rfl, rfl⟩ := h
    exact ⟨f, hf, rfl, hload⟩

theorem check_member {owner : Variable} {m : String} {f : Field}
    (h : (Variable.member owner m span).check env cs = .ok (f, cs')) :
    ∃ g g', owner.check env cs = .ok (g, cs') ∧ env.types.member? g.type m = some g' ∧
      f = g'.inside g := by
  simp only [Variable.check, bind_eq_ok] at h
  obtain ⟨g, _, hg, h⟩ := h
  cases hm : env.types.member? g.type m with
  | none =>
    rw [hm] at h
    exact absurd h fail_ne_ok
  | some g' =>
    rw [hm] at h
    obtain ⟨rfl, rfl⟩ := pure_eq_ok.1 h
    exact ⟨g, g', hg, hm, rfl⟩

theorem check_index {base : Variable} {i : Expr} {f : Field}
    (h : (Variable.index base i span).check env cs = .ok (f, cs')) :
    ∃ g a cs₁ τi, base.check env cs = .ok (g, cs₁) ∧ env.types.accessor? g.type = some a ∧
      i.check env cs₁ = .ok (τi, cs') ∧ τi ≠ .void ∧ f = a.element.inside g ∧
      (env.types.isCompatible τi a.index ∨ env.types.isAssignableFrom a.index τi) := by
  simp only [Variable.check, bind_eq_ok] at h
  obtain ⟨g, cs₁, hg, h⟩ := h
  cases ha : env.types.accessor? g.type with
  | none =>
    rw [ha] at h
    exact absurd h fail_ne_ok
  | some a =>
    simp only [ha, bind_eq_ok, expectValue_eq_ok, when_eq_ok, pure_eq_ok] at h
    obtain ⟨τi, _, hi, _, _, ⟨hvoid, rfl, rfl⟩, htype, rfl, rfl⟩ := h
    exact ⟨g, a, cs₁, _, hg, ha, hi, hvoid, rfl, by simpa [Classical.or_iff_not_imp_left] using htype⟩

/-! ## Statements -/

variable {u : Unit}

theorem checkValue_eq_ok :
    e.checkValue env cs = .ok (τ, cs') ↔ e.check env cs = .ok (τ, cs') ∧ τ ≠ .void := by
  simp only [Expr.checkValue, bind_eq_ok, expectValue_eq_ok]
  constructor
  · rintro ⟨_, _, he, hvoid, rfl, rfl⟩
    exact ⟨he, hvoid⟩
  · rintro ⟨he, hvoid⟩
    exact ⟨_, _, he, hvoid, rfl, rfl⟩

theorem checkCondition_eq_ok :
    e.checkCondition env cs = .ok (u, cs') ↔
      ∃ τ, e.check env cs = .ok (τ, cs') ∧ τ ≠ .void ∧ isInteger τ := by
  simp only [Expr.checkCondition, bind_eq_ok, expectCondition_eq_ok]
  constructor
  · rintro ⟨τ, _, he, hvoid, hint, rfl⟩
    exact ⟨τ, he, hvoid, hint⟩
  · rintro ⟨τ, he, hvoid, hint⟩
    exact ⟨τ, _, he, hvoid, hint, rfl⟩

/-- A block is checked with a frame of its own, which is dropped at its end. -/
theorem checkBlock_eq_ok {ss : List Stmt} :
    Block.check env ⟨ss, span⟩ cs = .ok (u, cs') ↔
      ∃ cs₁, Stmt.checkList env ss { cs with scopes := cs.scopes.push .clear } = .ok ((), cs₁) ∧
        cs' = { cs₁ with scopes := cs₁.scopes.pop } := by
  rw [Block.check, bind_eq_ok]
  constructor
  · rintro ⟨_, _, henter, h⟩
    cases henter
    obtain ⟨_, cs₁, hss, hleave⟩ := bind_eq_ok.1 h
    cases hleave
    exact ⟨cs₁, hss, rfl⟩
  · rintro ⟨cs₁, hss, rfl⟩
    exact ⟨(), _, rfl, bind_eq_ok.2 ⟨(), cs₁, hss, rfl⟩⟩

theorem checkCaseValues_cons {es : List Expr} :
    checkCaseValues env τ (e :: es) cs = .ok (u, cs') ↔
      ∃ τe cs₁, e.check env cs = .ok (τe, cs₁) ∧ τe ≠ .void ∧ env.types.isCompatible τe τ ∧
        checkCaseValues env τ es cs₁ = .ok (u, cs') := by
  simp only [checkCaseValues, bind_eq_ok, checkValue_eq_ok, unless_eq_ok]
  constructor
  · rintro ⟨τe, cs₁, ⟨he, hvoid⟩, hcompat, hes⟩
    exact ⟨τe, cs₁, he, hvoid, hcompat, hes⟩
  · rintro ⟨τe, cs₁, he, hvoid, hcompat, hes⟩
    exact ⟨τe, cs₁, ⟨he, hvoid⟩, hcompat, hes⟩

/-- What a statement that leaves a function must bring along. -/
def LeavesWell (env : CheckEnv) (cs cs' : CheckState) : Leaving → Option Expr → Prop
  | .throwing, some (.bytes _ _) => cs' = cs
  | .throwing, _ => False
  | .exiting, some e => ∃ τ, e.check env cs = .ok (τ, cs') ∧ τ ≠ .void ∧ isInteger τ
  | .exiting, none => False
  | .returning, some e => ∃ τ, e.check env cs = .ok (τ, cs') ∧ τ ≠ .void ∧
    (env.isEntry env.current = true → isInteger τ)
  | .returning, none =>
    cs' = cs ∧ (env.isEntry env.current = true ∨ env.currentReturns = false)

theorem checkLeaving_eq_ok {kind : Leaving} {value : Option Expr}
    (h : checkLeaving env kind value span cs = .ok (u, cs')) :
    LeavesWell env cs cs' kind value := by
  unfold checkLeaving at h
  split at h
  · exact (pure_eq_ok.1 h).2.symm
  · exact absurd h fail_ne_ok
  · simp only [bind_eq_ok, checkValue_eq_ok, ensure_eq_ok] at h
    obtain ⟨τ, cs₁, ⟨he, hvoid⟩, hint, rfl⟩ := h
    exact ⟨τ, he, hvoid, hint⟩
  · exact absurd h fail_ne_ok
  · simp only [bind_eq_ok, checkValue_eq_ok, when_eq_ok, ensure_eq_ok] at h
    obtain ⟨τ, cs₁, ⟨he, hvoid⟩, hint, -, rfl⟩ := h
    exact ⟨τ, he, hvoid, fun hentry => by simpa [hentry] using hint⟩
  · split at h
    case isTrue => exact absurd h fail_ne_ok
    case isFalse hret =>
      refine ⟨(pure_eq_ok.1 h).2.symm, ?_⟩
      simpa [Decidable.imp_iff_not_or] using hret

end ContractCompiler
