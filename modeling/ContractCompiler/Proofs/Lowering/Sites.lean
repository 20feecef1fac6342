import ContractCompiler.Proofs.Lowering.Suits
import ContractCompiler.Proofs.Typing.Notes

/-!
# Where code stands

Every piece of an accepted body is checked in some state, and its code stands in a layout that the
scopes of that state belong to. What is known of a piece is known of its parts.
-/

namespace ContractCompiler

open Lower
open TypeTable (isBasic isInteger)

variable {S : Setting} {names : List String} {cs cs' cs'' : CheckState} {os os' : List Nat}
  {τ : TypeId}

/-! ## Notes that the lowering relies on -/

/-- What the lowering takes for known of the places `os` is what was noted of them, up to the
state `cs`. Where only integers are held, there is nothing to know. -/
structure Noted (S : Setting) (os : List Nat) (cs : CheckState) : Prop where
  nodup : S.held .bytes → os.Nodup
  same : S.held .bytes → ∀ o ∈ os, S.lower.localType? o = cs.localTypes[o]?

/-- What was noted first is not overwritten by what was noted elsewhere. -/
theorem Noted.left (h : Noted S (os ++ os') cs') (hnotes : Notes cs cs' os') : Noted S os cs where
  nodup := fun hbytes => (List.nodup_append.1 (h.nodup hbytes)).1
  same := by
    intro hbytes o ho
    have hnot : o ∉ os' := fun ho' =>
      (List.nodup_append.1 (h.nodup hbytes)).2.2 o ho o ho' rfl
    rw [h.same hbytes o (List.mem_append_left _ ho), hnotes o hnot]

theorem Noted.right (h : Noted S (os ++ os') cs) : Noted S os' cs where
  nodup := fun hbytes => (List.nodup_append.1 (h.nodup hbytes)).2.1
  same := fun hbytes o ho => h.same hbytes o (List.mem_append_right _ ho)

/-! ## Expressions and places with their states -/

/-- An expression of type `τ` that is checked from `cs` to `cs'` and stands in the layout
`names`. -/
structure Expr.Sited (S : Setting) (names : List String) (cs cs' : CheckState) (e : Expr)
    (τ : TypeId) : Prop where
  fits : cs.scopes.Fits S.check.mode names
  check : e.check S.check cs = .ok (τ, cs')
  suits : e.Suits S names
  noted : Noted S e.nameOffsets cs'

/-- A place that is checked from `cs` to `cs'` and stands in the layout `names`. -/
structure Variable.Sited (S : Setting) (names : List String) (cs cs' : CheckState) (v : Variable)
    (f : Field) : Prop where
  fits : cs.scopes.Fits S.check.mode names
  check : v.check S.check cs = .ok (f, cs')
  suits : (Expr.var v).Suits S names
  noted : Noted S v.nameOffsets cs'

/-- Arguments that are checked from `cs` to `cs'` and stand in the layout `names`. -/
structure Expr.ArgumentsSited (S : Setting) (names : List String) (cs cs' : CheckState)
    (es : List Expr) : Prop where
  fits : cs.scopes.Fits S.check.mode names
  check : Expr.checkArguments S.check es cs = .ok ((), cs')
  suits : ∀ e ∈ es, e.Suits S names
  noted : Noted S (es.flatMap Expr.nameOffsets) cs'

/-- Values of a case that are checked from `cs` to `cs'` and stand in the layout `names`. -/
structure Expr.ValuesSited (S : Setting) (names : List String) (cs cs' : CheckState)
    (es : List Expr) (τ : TypeId) : Prop where
  fits : cs.scopes.Fits S.check.mode names
  check : checkCaseValues S.check τ es cs = .ok ((), cs')
  suits : ∀ e ∈ es, e.Suits S names
  noted : Noted S (es.flatMap Expr.nameOffsets) cs'

namespace Expr.Sited

variable {e l r c : Expr} {span span' : Span}

theorem fits_after (h : e.Sited S names cs cs' τ) : cs'.scopes.Fits S.check.mode names :=
  h.fits.check h.check h.suits.assigned

theorem operand_not (h : (Expr.unary .not e span).Sited S names cs cs' τ) :
    ∃ τe, e.Sited S names cs cs' τe ∧ τe ≠ .void ∧ isInteger τe ∧ τ = .uint64 := by
  obtain ⟨τe, he, hvoid, hint, rfl⟩ := check_not h.check
  exact ⟨τe, ⟨h.fits, he, h.suits.operand, by simpa using h.noted⟩, hvoid, hint, rfl⟩

theorem operand_complement (h : (Expr.unary .complement e span).Sited S names cs cs' τ) :
    e.Sited S names cs cs' τ ∧ τ ≠ .void ∧ isBasic τ := by
  obtain ⟨he, hvoid, hbasic⟩ := check_complement h.check
  exact ⟨⟨h.fits, he, h.suits.operand, by simpa using h.noted⟩, hvoid, hbasic⟩

/-- The value of an assignment. -/
theorem value {n : String}
    (h : (Expr.binary .assign (.var (.name n span)) r span').Sited S names cs cs' τ) :
    ∃ τr cs₁, r.Sited S names cs cs₁ τr ∧ τr ≠ .void ∧
      ((cs.scopes.lookup? n = none ∧ S.check.types.isValue τr ∧ τ = τr ∧
          cs' = { cs₁ with
            scopes := cs₁.scopes.declare n (.var τr), locals := cs₁.locals + 1 }) ∨
        ∃ f, cs.scopes.lookup? n = some f ∧ f.constReference = false ∧
          f.constMembers = false ∧ S.check.types.isCompatible f.type τr ∧ τ = f.type ∧
          cs' = cs₁) := by
  obtain ⟨τr, cs₁, hr, hvoid, hcases⟩ := check_assign h.check
  have hnoted : Noted S r.nameOffsets cs₁ := by
    have hright := h.noted
    rw [Expr.nameOffsets_binary] at hright
    rcases hcases with ⟨-, -, -, rfl⟩ | ⟨f, -, -, -, -, -, rfl⟩ <;>
      exact ⟨hright.right.nodup, hright.right.same⟩
  exact ⟨τr, cs₁, ⟨h.fits, hr, h.suits.value, hnoted⟩, hvoid, hcases⟩

/-- The condition and the arms of a choice. -/
theorem choice (h : (Expr.binary .ternary c (.binary .colon l r span) span').Sited S names cs cs' τ) :
    ∃ τc cs₁ τl cs₂ τr, c.Sited S names cs cs₁ τc ∧ τc ≠ .void ∧ isInteger τc ∧
      l.Sited S names cs₁ cs₂ τl ∧ τl ≠ .void ∧ r.Sited S names cs₂ cs' τr ∧ τr ≠ .void ∧
      S.check.types.isCompatible τl τr ∧ τ = if τl = .any then τr else τl := by
  obtain ⟨τc, cs₁, τl, cs₂, τr, hc, hvc, hint, hl, hvl, hr, hvr, hcompat, rfl⟩ :=
    check_choice h.check
  have hnoted := h.noted
  rw [Expr.nameOffsets_binary, Expr.nameOffsets_binary, ← List.append_assoc] at hnoted
  have hbefore := hnoted.left (r.check_notes hr)
  have hcs : c.Sited S names cs cs₁ τc :=
    ⟨h.fits, hc, h.suits.condition, hbefore.left (l.check_notes hl)⟩
  have hls : l.Sited S names cs₁ cs₂ τl := ⟨hcs.fits_after, hl, h.suits.arms.1, hbefore.right⟩
  have hrs : r.Sited S names cs₂ cs' τr := ⟨hls.fits_after, hr, h.suits.arms.2, hnoted.right⟩
  exact ⟨τc, cs₁, τl, cs₂, τr, hcs, hvc, hint, hls, hvl, hrs, hvr, hcompat, rfl⟩

/-- The operand of a cast, and the name of a type that it is cast to. -/
theorem cast (h : (Expr.binary .colon l r span).Sited S names cs cs' τ) :
    ∃ τl n span', l.Sited S names cs cs' τl ∧ τl ≠ .void ∧ r = .var (.name n span') ∧
      S.check.types.lookup? n = some τ ∧ (cs'.scopes.lookup? n).map Field.type = some .type := by
  obtain ⟨τl, n, span', hl, hvoid, rfl, hlookup, htype⟩ := check_cast h.check
  have hnoted := h.noted
  rw [Expr.nameOffsets_binary] at hnoted
  exact ⟨τl, n, span', ⟨h.fits, hl, h.suits.cast.1, hnoted.left .refl⟩, hvoid, rfl, hlookup,
    htype⟩

/-- An operator tests the type of a transaction, or has two operands with values. -/
theorem operator {o : BinaryOperator} (ho : o.uintOpcode?.isSome)
    (h : (Expr.binary o l r span).Sited S names cs cs' τ) :
    (∃ place n span' target f, (o = .eq ∨ o = .ne) ∧ l = .var place ∧
        r = .var (.name n span') ∧ S.check.types.lookup? n = some target ∧
        (cs.scopes.lookup? n).map Field.type = some .type ∧
        place.Sited S names cs cs' f ∧ τ = .uint64) ∨
      ∃ τl cs₁ τr, l.Sited S names cs cs₁ τl ∧ τl ≠ .void ∧ r.Sited S names cs₁ cs' τr ∧
        τr ≠ .void ∧ (o.needsIntegers → isInteger τl ∧ isInteger τr) ∧
        S.check.types.isValue τl ∧ S.check.types.isValue τr ∧
        S.check.types.isCompatible τl τr ∧
        τ = if o.isComparison || o.isLogical then .uint64 else τl := by
  have hnoted := h.noted
  rw [Expr.nameOffsets_binary] at hnoted
  rcases check_operator ho h.check with
    ⟨place, n, span', target, f, hop, rfl, -, rfl, hlookup, htype, hplace, rfl⟩ |
    ⟨-, τl, cs₁, τr, hl, hvl, hr, hvr, hints, hvalue, hvalue', hcompat, rfl⟩
  · rw [Expr.nameOffsets_var] at hnoted
    exact .inl ⟨place, n, span', target, f, hop, rfl, rfl, hlookup, htype,
      ⟨h.fits, hplace, (h.suits.operands ho).1, hnoted.left .refl⟩, rfl⟩
  · have hls : l.Sited S names cs cs₁ τl :=
      ⟨h.fits, hl, (h.suits.operands ho).1, hnoted.left (r.check_notes hr)⟩
    have hrs : r.Sited S names cs₁ cs' τr :=
      ⟨hls.fits_after, hr, (h.suits.operands ho).2, hnoted.right⟩
    exact .inr ⟨τl, cs₁, τr, hls, hvl, hrs, hvr, hints, hvalue, hvalue', hcompat, rfl⟩

/-- The input of a hash, and the name of its algorithm. -/
theorem hash {args : List Expr}
    (h : (Expr.call Builtin.hashFunction.1 args span).Sited S names cs cs' τ) :
    ∃ input n span' τi, args = [input, .var (.name n span')] ∧
      input.Sited S names cs cs' τi ∧ τi ≠ .void ∧ isBasic τi ∧ τ = .bytes ∧
      (cs'.scopes.lookup? n).map Field.type = some S.check.builtin.hash := by
  obtain ⟨input, n, span', τi, rfl, hi, hvoid, hbasic, -, rfl, htype⟩ := check_hash h.check
  have hnoted := h.noted
  rw [Expr.nameOffsets_call, List.flatMap_cons] at hnoted
  exact ⟨input, n, span', τi, rfl, ⟨h.fits, hi, h.suits.argument List.mem_cons_self,
    hnoted.left .refl⟩, hvoid, hbasic, rfl, htype⟩

/-- The arguments of a call. -/
theorem arguments {f : String} {args : List Expr} (hf : f ≠ Builtin.hashFunction.1)
    (h : (Expr.call f args span).Sited S names cs cs' τ) :
    Expr.ArgumentsSited S names cs cs' args ∧
      ∃ sig, S.check.signatures.lookup f = some sig ∧ τ = resultType sig := by
  obtain ⟨sig, hsig, -, -, hargs, rfl⟩ := check_call hf h.check
  exact ⟨⟨h.fits, hargs, fun e he => h.suits.argument he, by simpa using h.noted⟩, sig, hsig, rfl⟩

/-- The place that an expression reads. -/
theorem place {v : Variable} (h : (Expr.var v).Sited S names cs cs' τ) :
    ∃ f, v.Sited S names cs cs' f ∧ τ = f.type ∧ v.isLoadable = true := by
  obtain ⟨f, hv, rfl, hload⟩ := check_var h.check
  exact ⟨f, ⟨h.fits, hv, h.suits, by simpa using h.noted⟩, rfl, hload⟩

end Expr.Sited

theorem Expr.ArgumentsSited.cons {e : Expr} {es : List Expr}
    (h : ArgumentsSited S names cs cs' (e :: es)) :
    ∃ τ cs₁, e.Sited S names cs cs₁ τ ∧ τ ≠ .void ∧ ArgumentsSited S names cs₁ cs' es := by
  obtain ⟨τ, cs₁, he, hvoid, hes⟩ := checkArguments_cons h.check
  obtain ⟨hsuits, hsuits'⟩ := List.forall_mem_cons.1 h.suits
  have hnoted := h.noted
  rw [List.flatMap_cons] at hnoted
  have hsited : e.Sited S names cs cs₁ τ :=
    ⟨h.fits, he, hsuits, hnoted.left (Expr.checkArguments_notes es hes)⟩
  exact ⟨τ, cs₁, hsited, hvoid, hsited.fits_after, hes, hsuits', hnoted.right⟩

theorem Expr.ValuesSited.cons {e : Expr} {es : List Expr}
    (h : ValuesSited S names cs cs' (e :: es) τ) :
    ∃ τe cs₁, e.Sited S names cs cs₁ τe ∧ τe ≠ .void ∧ S.check.types.isCompatible τe τ ∧
      ValuesSited S names cs₁ cs' es τ := by
  obtain ⟨τe, cs₁, he, hvoid, hcompat, hes⟩ := checkCaseValues_cons.1 h.check
  obtain ⟨hsuits, hsuits'⟩ := List.forall_mem_cons.1 h.suits
  have hnoted := h.noted
  rw [List.flatMap_cons] at hnoted
  have hsited : e.Sited S names cs cs₁ τe :=
    ⟨h.fits, he, hsuits, hnoted.left (checkCaseValues_notes es hes)⟩
  exact ⟨τe, cs₁, hsited, hvoid, hcompat, hsited.fits_after, hes, hsuits', hnoted.right⟩

/-- What a member belongs to. -/
theorem Variable.Sited.owner {owner : Variable} {m : String} {span : Span} {f : Field}
    (h : (Variable.member owner m span).Sited S names cs cs' f) :
    ∃ g, owner.Sited S names cs cs' g := by
  obtain ⟨g, g', howner, -, -⟩ := check_member h.check
  have hbytes : S.held .bytes := by simpa [Expr.isIntegral] using h.suits.integral
  exact ⟨g, h.fits, howner, ⟨by simpa using h.suits.assigned, by simpa using h.suits.called,
    .inl hbytes⟩, by simpa using h.noted⟩

/-- The last index of a place, with the state it is checked in. It suits what it leads into. -/
theorem Variable.Sited.index : ∀ {v : Variable} {cs cs' : CheckState} {f : Field}
    {base : Variable} {i : Expr}, v.Sited S names cs cs' f → v.index? = some (base, i) →
    ∃ g cs₁ τ, base.check S.check cs = .ok (g, cs₁) ∧ i.Sited S names cs₁ cs' τ ∧ τ ≠ .void ∧
      ∃ a, S.check.types.accessor? g.type = some a ∧
        (S.check.types.isCompatible τ a.index ∨ S.check.types.isAssignableFrom a.index τ)
  | .name n span, cs, cs', f, base, i, h, hi => by cases hi
  | .index base i span, cs, cs', f, _, _, h, rfl => by
    obtain ⟨g, a, cs₁, τ, hbase, ha, hi, hvoid, -, hsuits⟩ := check_index h.check
    have hbytes : S.held .bytes := by simpa [Expr.isIntegral] using h.suits.integral
    have hassigned : base.assigned ⊆ names ∧ i.assigned ⊆ names := by
      simpa using h.suits.assigned
    have hnoted := h.noted
    rw [Variable.nameOffsets_index] at hnoted
    exact ⟨g, cs₁, τ, hbase, ⟨h.fits.check_place hbase hassigned.1, hi,
      ⟨hassigned.2, fun f hf => h.suits.called f (by simp [hf]), .inl hbytes⟩, hnoted.right⟩,
      hvoid, a, ha, hsuits⟩
  | .member owner m span, cs, cs', f, base, i, h, hi => by
    obtain ⟨g, howner⟩ := h.owner
    exact howner.index hi

theorem Variable.literals_of_indexes {v : Variable} (h : v.indexes = []) :
    ∀ i ∈ v.indexes, ∃ n span, i = .uint n span := by
  rw [h]
  nofun

/-- A place without indexes, or with literals for them, assigns nothing. -/
theorem Variable.assigned_of_literals : ∀ {v : Variable},
    (∀ i ∈ v.indexes, ∃ n span, i = .uint n span) → v.assigned = []
  | .name n span, _ => assigned_name n span
  | .index base i span, h => by
    rw [indexes_of_index? (v := .index base i span) rfl] at h
    obtain ⟨hbase, hi⟩ := List.forall_mem_append.1 h
    obtain ⟨n, span', rfl⟩ := hi i (List.mem_singleton_self i)
    rw [assigned_index, assigned_of_literals hbase, Expr.assigned_uint]
    rfl
  | .member owner m span, h => by
    rw [indexes, steps, List.filterMap_append, ← indexes] at h
    rw [assigned_member, assigned_of_literals (List.forall_mem_append.1 h).1]

/-! ## Built-in names -/

/-- The types of transactions are built-in types. -/
theorem Builtin.lookup?_of_transactionCode? {n : String} (h : (transactionCode? n).isSome) :
    (types.lookup? n).isSome := by
  have hcodes : ∀ n ∈ transactionCodes.map Prod.fst, (types.lookup? n).isSome := by decide +kernel
  exact hcodes n (mem_of_transactionCode? h)

/-- What is known on the stack of a value of a type. -/
def Builtin.stackType (τ : TypeId) : StackType :=
  if τ = .uint64 then .uint64
  else if τ = .bytes then .bytes
  else if checkedTypes.isEnum τ then .uint64
  else .any

theorem Builtin.stackType_any : stackType .any = .any := by
  rw [stackType, isEnum_basic _ (by simp)]
  rfl

theorem Setting.stackType_eq (S : Setting) (τ : TypeId) :
    S.check.stackType τ = Builtin.stackType τ := by
  rw [CheckEnv.stackType, S.types_eq, Builtin.stackType]

/-- Constants have types of integers, and in an application every name of a value is constant. -/
theorem Builtin.constant?_roots : ∀ p ∈ roots,
    (∀ entry ∈ [Entry.approval, .signature],
      (Lower.constant? entry p.1).isSome → stackType p.2.type = .uint64) ∧
    (checkedTypes.isValue p.2.type → (Lower.constant? .approval p.1).isSome) := by
  decide +kernel

theorem Builtin.stackType_of_constant? {mode : Mode} {n : String} {f : Field} {entry : Entry}
    (h : (Builtin.scopes mode).root.lookup n = some f) (hn : (Lower.constant? entry n).isSome) :
    stackType f.type = .uint64 := by
  have hentry : ∃ entry' ∈ [Entry.approval, .signature],
      Lower.constant? entry n = Lower.constant? entry' n := by
    cases entry with
    | approval => exact ⟨.approval, by simp, rfl⟩
    | clearState => exact ⟨.approval, by simp, rfl⟩
    | signature => exact ⟨.signature, by simp, rfl⟩
  obtain ⟨entry', hmem, heq⟩ := hentry
  rw [heq] at hn
  exact (constant?_roots _ (mem_roots h)).1 entry' hmem hn

/-- Types of values are no structures, and the lowering knows the enumerations among them. -/
theorem Builtin.kind_of_isValue (h : checkedTypes.isValue τ) :
    checkedTypes.struct? τ = none ∧ (checkedTypes.isEnum τ → types.isEnum τ) := by
  have hall : ∀ i < checkedTypes.defs.size, checkedTypes.isValue ⟨i⟩ →
      checkedTypes.struct? ⟨i⟩ = none ∧ (checkedTypes.isEnum ⟨i⟩ → types.isEnum ⟨i⟩) := by
    decide +kernel
  by_cases hlt : τ.index < checkedTypes.defs.size
  · exact hall τ.index hlt h
  · have hget : checkedTypes.get? τ = none := Array.getElem?_eq_none (Nat.not_lt.1 hlt)
    rw [TypeTable.struct?, TypeTable.isEnum, TypeTable.enumValues?, hget]
    exact ⟨rfl, nofun⟩

/-- Values have neither members nor elements. -/
theorem Builtin.struct?_of_isValue (h : checkedTypes.isValue τ) :
    checkedTypes.struct? τ = none :=
  (kind_of_isValue h).1

theorem Builtin.ancestry_of_isValue (h : checkedTypes.isValue τ) :
    checkedTypes.ancestry τ = [τ] := by
  have hparent : checkedTypes.parent? τ = none := by
    rw [TypeTable.parent?, struct?_of_isValue h]
    rfl
  rw [TypeTable.ancestry, hparent]

theorem Builtin.accessor?_of_isValue (h : checkedTypes.isValue τ) :
    checkedTypes.accessor? τ = none := by
  rw [TypeTable.accessor?, struct?_of_isValue h]
  rfl

theorem Builtin.member?_of_isValue (h : checkedTypes.isValue τ) (m : String) :
    checkedTypes.member? τ m = none := by
  simp [TypeTable.member?, ancestry_of_isValue h, struct?_of_isValue h]

/-- The name that a place starts with is known; it is built in unless it is all of the place. -/
theorem Scopes.Fits.root_of_check (hΓ : cs.scopes.Fits S.check.mode names) :
    ∀ {v : Variable} {cs' : CheckState} {f : Field}, v.check S.check cs = .ok (f, cs') →
    (∃ g, cs.scopes.lookup? v.root = some g) ∧ (v.root ∈ names → ∃ n span, v = .name n span)
  | .name n span, cs', f, h => ⟨⟨f, (check_name h).1⟩, fun _ => ⟨n, span, rfl⟩⟩
  | .index base i span, cs', f, h => by
    obtain ⟨g, a, cs₁, τ, hbase, ha, -⟩ := check_index h
    obtain ⟨hknown, hname⟩ := hΓ.root_of_check hbase
    refine ⟨hknown, fun hmem => ?_⟩
    obtain ⟨n, span', rfl⟩ := hname hmem
    obtain ⟨τ', rfl, hτ'⟩ := hΓ.of_mem hmem (check_name hbase).1
    rw [S.types_eq, show (Field.var τ').type = τ' from rfl, Builtin.accessor?_of_isValue hτ'] at ha
    cases ha
  | .member owner m span, cs', f, h => by
    obtain ⟨g, g', howner, hm, -⟩ := check_member h
    obtain ⟨hknown, hname⟩ := hΓ.root_of_check howner
    refine ⟨hknown, fun hmem => ?_⟩
    obtain ⟨n, span', rfl⟩ := hname hmem
    obtain ⟨τ', rfl, hτ'⟩ := hΓ.of_mem hmem (check_name howner).1
    rw [S.types_eq, show (Field.var τ').type = τ' from rfl, Builtin.member?_of_isValue hτ'] at hm
    cases hm

/-! ## Statements with their states -/

/-- A statement that is checked from `cs` to `cs'` and stands in the layout `names`. -/
structure Stmt.Sited (S : Setting) (names : List String) (cs cs' : CheckState) (st : Stmt) :
    Prop where
  fits : cs.scopes.Fits S.check.mode names
  check : st.check S.check cs = .ok ((), cs')
  suits : st.Suits S names
  noted : Noted S (Node.stmt st).nameOffsets cs'

/-- Statements in a row that are checked from `cs` to `cs'` and stand in the layout `names`. -/
structure Stmt.ListSited (S : Setting) (names : List String) (cs cs' : CheckState)
    (ss : List Stmt) : Prop where
  fits : cs.scopes.Fits S.check.mode names
  check : Stmt.checkList S.check ss cs = .ok ((), cs')
  suits : ∀ st ∈ ss, st.Suits S names
  noted : Noted S (ss.flatMap fun st => (Node.stmt st).nameOffsets) cs'

/-- A block that is checked from `cs` to `cs'` and stands in the layout `names`. -/
structure Block.Sited (S : Setting) (names : List String) (cs cs' : CheckState) (b : Block) :
    Prop where
  fits : cs.scopes.Fits S.check.mode names
  check : b.check S.check cs = .ok ((), cs')
  suits : b.Suits S
  noted : Noted S (Node.block b).nameOffsets cs'

/-- What is done in all other cases, if anything is, is checked from `cs` to `cs'`. -/
def Block.Checked (env : CheckEnv) (cs cs' : CheckState) : Option Block → Prop
  | none => cs' = cs
  | some b => b.check env cs = .ok ((), cs')

/-- Cases of a switch on a value of type `τ`, with what is done in all other cases, that are
checked from `cs` to `cs'` and stand in the layout `names`. -/
structure Case.ListSited (S : Setting) (names : List String) (cs cs' : CheckState) (τ : TypeId)
    (cases : List Case) (otherwise : Option Block) : Prop where
  fits : cs.scopes.Fits S.check.mode names
  check : ∃ cs₁, Case.checkList S.check τ cases cs = .ok ((), cs₁) ∧
    Block.Checked S.check cs₁ cs' otherwise
  suits : ∀ c ∈ cases, c.Suits S names
  suits_otherwise : ∀ b ∈ otherwise, b.Suits S
  noted : Noted S ((cases.flatMap fun c => (Node.case c).nameOffsets) ++
    otherwise.toList.flatMap fun b => (Node.block b).nameOffsets) cs'

section Statements

variable {e c tested : Expr} {b b' : Block} {st : Stmt} {ss : List Stmt} {span : Span}
  {cases : List Case} {otherwise : Option Block}

/-- The state after the values of a case does not depend on the type that they are compared
with. -/
theorem checkCaseValues_unique {env : CheckEnv} {τ τ' : TypeId} {vs : List Expr}
    (h : checkCaseValues env τ vs cs = .ok ((), cs'))
    (h' : checkCaseValues env τ' vs cs = .ok ((), cs'')) : cs' = cs'' := by
  induction vs generalizing cs with
  | nil =>
    simp only [checkCaseValues, Check.pure_eq_ok] at h h'
    exact h.2.symm.trans h'.2
  | cons v vs ih =>
    obtain ⟨_, cs₁, hv, -, -, hvs⟩ := checkCaseValues_cons.1 h
    obtain ⟨_, cs₁', hv', -, -, hvs'⟩ := checkCaseValues_cons.1 h'
    cases hv.symm.trans hv'
    exact ih hvs hvs'

theorem Block.Checked.notes {env : CheckEnv} (h : Block.Checked env cs cs' otherwise) :
    Notes cs cs' (otherwise.toList.flatMap fun b => (Node.block b).nameOffsets) := by
  cases otherwise with
  | none => exact h ▸ .refl
  | some b => simpa using b.check_notes h

theorem Block.Sited.fits_after (h : b.Sited S names cs cs') :
    cs'.scopes.Fits S.check.mode names :=
  h.fits.check_block h.check

/-- The condition and the block of a conditional statement without an alternative. -/
theorem Stmt.Sited.ifThen (h : (Stmt.ifElse c b none span).Sited S names cs cs') :
    ∃ τ cs₁, c.Sited S names cs cs₁ τ ∧ τ ≠ .void ∧ isInteger τ ∧ b.Sited S names cs₁ cs' := by
  have hcheck := h.check
  simp only [Stmt.check, Check.bind_eq_ok, checkCondition_eq_ok] at hcheck
  obtain ⟨_, cs₁, ⟨τ, hc, hvoid, hint⟩, hb⟩ := hcheck
  have hnoted := h.noted
  rw [Node.nameOffsets_children rfl] at hnoted
  simp only [Node.children, Node.ofStmt, List.flatMap_cons, List.flatMap_nil, Option.toList_none,
    List.map_nil, List.append_nil, Node.nameOffsets_expr] at hnoted
  have hcs : c.Sited S names cs cs₁ τ :=
    ⟨h.fits, hc, h.suits.expr (by simp [Stmt.ownExpressions]) (by simp [Node.ofStmt])
      (by simp +contextual [Stmt.isIntegral]), hnoted.left (b.check_notes hb)⟩
  exact ⟨τ, cs₁, hcs, hvoid, hint, hcs.fits_after, hb,
    h.suits.block (by simp [Node.ofStmt]) (by simp +contextual [Stmt.isIntegral]), hnoted.right⟩

/-- The condition and the blocks of a conditional statement. -/
theorem Stmt.Sited.ifElse (h : (Stmt.ifElse c b (some b') span).Sited S names cs cs') :
    ∃ τ cs₁ cs₂, c.Sited S names cs cs₁ τ ∧ τ ≠ .void ∧ isInteger τ ∧ b.Sited S names cs₁ cs₂ ∧
      b'.Sited S names cs₂ cs' := by
  have hcheck := h.check
  simp only [Stmt.check, Check.bind_eq_ok, checkCondition_eq_ok] at hcheck
  obtain ⟨_, cs₁, ⟨τ, hc, hvoid, hint⟩, _, cs₂, hb, hb'⟩ := hcheck
  have hnoted := h.noted
  rw [Node.nameOffsets_children rfl] at hnoted
  simp only [Node.children, Node.ofStmt, List.flatMap_cons, List.flatMap_nil, Option.toList_some,
    List.map_cons, List.map_nil, List.append_nil, Node.nameOffsets_expr, ← List.append_assoc]
    at hnoted
  have hbefore := hnoted.left (b'.check_notes hb')
  have hcs : c.Sited S names cs cs₁ τ :=
    ⟨h.fits, hc, h.suits.expr (by simp [Stmt.ownExpressions]) (by simp [Node.ofStmt])
      (by simp +contextual [Stmt.isIntegral]), hbefore.left (b.check_notes hb)⟩
  have hbs : b.Sited S names cs₁ cs₂ := ⟨hcs.fits_after, hb,
    h.suits.block (by simp [Node.ofStmt]) (by simp +contextual [Stmt.isIntegral]), hbefore.right⟩
  exact ⟨τ, cs₁, cs₂, hcs, hvoid, hint, hbs, hbs.fits_after, hb',
    h.suits.block (by simp [Node.ofStmt]) (by simp +contextual [Stmt.isIntegral]), hnoted.right⟩

/-- The condition and the body of a loop that tests first. -/
theorem Stmt.Sited.whileDo (h : (Stmt.whileDo c b span).Sited S names cs cs') :
    ∃ τ cs₁, c.Sited S names cs cs₁ τ ∧ τ ≠ .void ∧ isInteger τ ∧ b.Sited S names cs₁ cs' := by
  have hcheck := h.check
  simp only [Stmt.check, Check.bind_eq_ok, checkCondition_eq_ok] at hcheck
  obtain ⟨_, cs₁, ⟨τ, hc, hvoid, hint⟩, hb⟩ := hcheck
  have hnoted := h.noted
  rw [Node.nameOffsets_children rfl] at hnoted
  simp only [Node.children, Node.ofStmt, List.flatMap_cons, List.flatMap_nil,
    List.append_nil, Node.nameOffsets_expr] at hnoted
  have hcs : c.Sited S names cs cs₁ τ :=
    ⟨h.fits, hc, h.suits.expr (by simp [Stmt.ownExpressions]) (by simp [Node.ofStmt])
      (by simp +contextual [Stmt.isIntegral]), hnoted.left (b.check_notes hb)⟩
  exact ⟨τ, cs₁, hcs, hvoid, hint, hcs.fits_after, hb,
    h.suits.block (by simp [Node.ofStmt]) (by simp +contextual [Stmt.isIntegral]), hnoted.right⟩

/-- The body and the condition of a loop that tests last. -/
theorem Stmt.Sited.doWhile (h : (Stmt.doWhile b c span).Sited S names cs cs') :
    ∃ τ cs₁, b.Sited S names cs cs₁ ∧ c.Sited S names cs₁ cs' τ ∧ τ ≠ .void ∧ isInteger τ := by
  have hcheck := h.check
  simp only [Stmt.check, Check.bind_eq_ok, checkCondition_eq_ok] at hcheck
  obtain ⟨_, cs₁, hb, τ, hc, hvoid, hint⟩ := hcheck
  have hnoted := h.noted
  rw [Node.nameOffsets_children rfl] at hnoted
  simp only [Node.children, Node.ofStmt, List.flatMap_cons, List.flatMap_nil,
    List.append_nil, Node.nameOffsets_expr] at hnoted
  have hbs : b.Sited S names cs cs₁ := ⟨h.fits, hb,
    h.suits.block (by simp [Node.ofStmt]) (by simp +contextual [Stmt.isIntegral]),
    hnoted.left (c.check_notes hc)⟩
  exact ⟨τ, cs₁, hbs, ⟨hbs.fits_after, hc, h.suits.expr (by simp [Stmt.ownExpressions])
    (by simp [Node.ofStmt]) (by simp +contextual [Stmt.isIntegral]), hnoted.right⟩, hvoid, hint⟩

/-- The tested expression and the cases of a switch. -/
theorem Stmt.Sited.switch (h : (Stmt.switch tested cases otherwise span).Sited S names cs cs') :
    ∃ τ cs₁, tested.Sited S names cs cs₁ τ ∧ τ ≠ .void ∧
      Case.ListSited S names cs₁ cs' τ cases otherwise := by
  have hcheck : ∃ τ cs₁, tested.check S.check cs = .ok (τ, cs₁) ∧ τ ≠ .void ∧
      ∃ cs₂, Case.checkList S.check τ cases cs₁ = .ok ((), cs₂) ∧
        Block.Checked S.check cs₂ cs' otherwise := by
    have hcheck := h.check
    cases otherwise with
    | none =>
      simp only [Stmt.check, Check.bind_eq_ok, checkValue_eq_ok] at hcheck
      obtain ⟨τ, cs₁, ⟨ht, hvoid⟩, hcases⟩ := hcheck
      exact ⟨τ, cs₁, ht, hvoid, cs', hcases, rfl⟩
    | some d =>
      simp only [Stmt.check, Check.bind_eq_ok, checkValue_eq_ok] at hcheck
      obtain ⟨τ, cs₁, ⟨ht, hvoid⟩, _, cs₂, hcases, hd⟩ := hcheck
      exact ⟨τ, cs₁, ht, hvoid, cs₂, hcases, hd⟩
  obtain ⟨τ, cs₁, ht, hvoid, cs₂, hcases, hother⟩ := hcheck
  have hnoted : Noted S (tested.nameOffsets ++ ((cases.flatMap fun c => (Node.case c).nameOffsets) ++
      otherwise.toList.flatMap fun b => (Node.block b).nameOffsets)) cs' := by
    have hnoted := h.noted
    rw [Node.nameOffsets_children rfl] at hnoted
    simpa [Node.children, Node.ofStmt, Node.nameOffsets_expr, List.flatMap_map] using hnoted
  have hrest := (Case.checkList_notes cases hcases).trans (Block.Checked.notes hother)
  have hts : tested.Sited S names cs cs₁ τ :=
    ⟨h.fits, ht, h.suits.expr (by simp [Stmt.ownExpressions]) (by simp [Node.ofStmt])
      (fun readable => by cases otherwise <;> simp +contextual [Stmt.isIntegral]),
      hnoted.left hrest⟩
  refine ⟨τ, cs₁, hts, hvoid, hts.fits_after, ⟨cs₂, hcases, hother⟩, fun c hc => h.suits.case hc,
    ?_, hnoted.right⟩
  rintro d hd
  cases hd
  exact h.suits.block (by simp [Node.ofStmt]) (by simp +contextual [Stmt.isIntegral])

/-- The value that a statement brings along when it leaves a function. It is an integer if the
whole program ends with it. -/
theorem Stmt.Sited.leave {kind : Leaving}
    (h : (Stmt.leave kind (some e) span).Sited S names cs cs') (hkind : kind ≠ .throwing) :
    ∃ τ, e.Sited S names cs cs' τ ∧ τ ≠ .void ∧
      (kind = .exiting ∨ S.check.isEntry S.check.current = true → isInteger τ) := by
  have hcheck := h.check
  rw [Stmt.check] at hcheck
  have hvalue : ∃ τ, e.check S.check cs = .ok (τ, cs') ∧ τ ≠ .void ∧
      (kind = .exiting ∨ S.check.isEntry S.check.current = true → isInteger τ) := by
    have hwell := checkLeaving_eq_ok hcheck
    cases kind with
    | throwing => exact absurd rfl hkind
    | exiting =>
      obtain ⟨τ, he, hvoid, hint⟩ := hwell
      exact ⟨τ, he, hvoid, fun _ => hint⟩
    | returning =>
      obtain ⟨τ, he, hvoid, hint⟩ := hwell
      exact ⟨τ, he, hvoid, fun hend => hint (hend.resolve_left nofun)⟩
  obtain ⟨τ, he, hvoid, hint⟩ := hvalue
  have hnoted := h.noted
  rw [Node.nameOffsets_children rfl] at hnoted
  simp only [Node.children, Node.ofStmt, Option.toList_some, List.map_cons, List.map_nil,
    List.flatMap_cons, List.flatMap_nil, List.append_nil, Node.nameOffsets_expr] at hnoted
  refine ⟨τ, ⟨h.fits, he, h.suits.expr (by simp [Stmt.ownExpressions]) (by simp [Node.ofStmt])
    fun readable => ?_, hnoted⟩, hvoid, hint⟩
  cases kind with
  | throwing => exact absurd rfl hkind
  | _ => simp [Stmt.isIntegral]

/-- The expression of a statement that is one. -/
theorem Stmt.Sited.expr (h : (Stmt.expr e).Sited S names cs cs') :
    ∃ τ, e.Sited S names cs cs' τ := by
  have hcheck := h.check
  simp only [Stmt.check, Check.bind_eq_ok, Check.pure_eq_ok] at hcheck
  obtain ⟨τ, _, he, -, rfl⟩ := hcheck
  have hnoted := h.noted
  rw [Node.nameOffsets_children rfl] at hnoted
  simp only [Node.children, Node.ofStmt, List.flatMap_cons, List.flatMap_nil, List.append_nil,
    Node.nameOffsets_expr] at hnoted
  exact ⟨τ, h.fits, he, h.suits.expr (by simp [Stmt.ownExpressions]) (by simp [Node.ofStmt])
    (by simp [Stmt.isIntegral]), hnoted⟩

/-- The first of some statements, and the others. -/
theorem Stmt.ListSited.cons (h : Stmt.ListSited S names cs cs' (st :: ss)) :
    ∃ cs₁, st.Sited S names cs cs₁ ∧ Stmt.ListSited S names cs₁ cs' ss := by
  have hcheck := h.check
  simp only [Stmt.checkList, Check.bind_eq_ok] at hcheck
  obtain ⟨_, cs₁, hst, hss⟩ := hcheck
  obtain ⟨hsuits, hsuits'⟩ := List.forall_mem_cons.1 h.suits
  have hnoted := h.noted
  rw [List.flatMap_cons] at hnoted
  have hafter : cs₁.scopes.Fits S.check.mode names := by
    have hgrows := (st.check_accepts h.fits.proper hst).grows
    rw [S.types_eq] at hgrows
    refine h.fits.grows hgrows fun n hn => ?_
    obtain ⟨e, he, hn⟩ := List.mem_flatMap.1 hn
    exact hsuits.assigned e he hn
  exact ⟨cs₁, ⟨h.fits, hst, hsuits, hnoted.left (Stmt.checkList_notes ss hss)⟩, hafter, hss, hsuits',
    hnoted.right⟩

/-- The statements of a block, in the layout with the slots of the block. -/
theorem Block.Sited.body (h : Block.Sited S names cs cs' ⟨ss, span⟩) :
    ∃ cs₁, Stmt.ListSited S ((newNames names (Stmt.assignedNames ss)).reverse ++ names)
      { cs with scopes := cs.scopes.push .clear } cs₁ ss ∧
        cs' = { cs₁ with scopes := cs₁.scopes.pop } := by
  obtain ⟨cs₁, hss, rfl⟩ := checkBlock_eq_ok.1 h.check
  have hnoted := h.noted
  rw [Node.nameOffsets_children rfl] at hnoted
  simp only [Node.children, List.flatMap_map] at hnoted
  exact ⟨cs₁, ⟨h.fits.push hss, hss, fun st hst => h.suits.stmt hst, hnoted.nodup, hnoted.same⟩,
    rfl⟩

/-- The values and the block of the first case, and what comes after it. -/
theorem Case.ListSited.cons {values : List Expr}
    (h : Case.ListSited S names cs cs' τ (⟨values, b, span⟩ :: cases) otherwise) :
    ∃ cs₁ cs₂, Expr.ValuesSited S names cs cs₁ values τ ∧ b.Sited S names cs₁ cs₂ ∧
      Case.ListSited S names cs₂ cs' τ cases otherwise := by
  obtain ⟨cs₃, hcheck, hother⟩ := h.check
  simp only [Case.checkList, Check.bind_eq_ok] at hcheck
  obtain ⟨_, cs₁, hvalues, _, cs₂, hb, hcases⟩ := hcheck
  obtain ⟨hsuits, hsuits'⟩ := List.forall_mem_cons.1 h.suits
  have hrest := (Case.checkList_notes cases hcases).trans (Block.Checked.notes hother)
  have hnoted : Noted S (values.flatMap Expr.nameOffsets ++ (Node.block b).nameOffsets ++
      ((cases.flatMap fun c => (Node.case c).nameOffsets) ++
        otherwise.toList.flatMap fun b => (Node.block b).nameOffsets)) cs' := by
    have hnoted := h.noted
    rw [List.flatMap_cons, Node.nameOffsets_children rfl] at hnoted
    simpa [Node.children, List.flatMap_map, Node.nameOffsets_expr] using hnoted
  have hbefore := hnoted.left hrest
  have hafter := h.fits.check_caseValues hvalues hsuits.values
  exact ⟨cs₁, cs₂, ⟨h.fits, hvalues, hsuits.values, hbefore.left (b.check_notes hb)⟩,
    ⟨hafter, hb, hsuits.block, hbefore.right⟩, hafter.check_block hb, ⟨cs₃, hcases, hother⟩,
    hsuits', h.suits_otherwise, hnoted.right⟩

/-- What is done in all other cases. -/
theorem Case.ListSited.last (h : Case.ListSited S names cs cs' τ [] (some b)) :
    b.Sited S names cs cs' := by
  obtain ⟨cs₁, hcheck, hother⟩ := h.check
  simp only [Case.checkList, Check.pure_eq_ok] at hcheck
  obtain ⟨-, rfl⟩ := hcheck
  exact ⟨h.fits, hother, h.suits_otherwise b rfl, by simpa using h.noted⟩

end Statements

end ContractCompiler
