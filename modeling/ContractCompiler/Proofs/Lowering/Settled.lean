import Mathlib.Data.Set.Basic
import ContractCompiler.Proofs.Assembly.Cells
import ContractCompiler.Proofs.Lowering.Depths
import ContractCompiler.Proofs.Lowering.Straight
import ContractCompiler.Proofs.Typing.Pending

/-!
# Variables have values when they are read

A block makes room for its variables before any of them has a value. On every way through its code a
variable is read only after a value was moved into its slot, if its name is not pending.
-/

namespace ContractCompiler

open Builder (definedLabels)

section Idle

variable {env : CheckEnv}

/-- A name that is read is not pending. -/
theorem Variable.pending?_name {n : String} {span : Span} {cs : CheckState} {ns ns' : List String}
    (h : (Variable.name n span).pending? env cs ns = some ns') : n ∉ ns ∧ ns' = ns := by
  rw [pending?] at h
  split at h
  case isTrue => cases h
  case isFalse hn => exact ⟨hn, (Option.some.inj h).symm⟩

theorem Variable.literals_name (n : String) (span : Span) :
    ∀ i ∈ (Variable.name n span).indexes, ∃ v span', i = .uint v span' := nofun

theorem Variable.pending?_of_literals : ∀ {v : Variable} {cs : CheckState} {ns ns' : List String},
    (∀ i ∈ v.indexes, ∃ n span, i = .uint n span) → v.pending? env cs ns = some ns' → ns' = ns
  | .name n span, cs, ns, ns', _, h => (pending?_name h).2
  | .index base i span, cs, ns, ns', hi, h => by
    rw [indexes_of_index? (v := .index base i span) rfl] at hi
    obtain ⟨hbase, hi⟩ := List.forall_mem_append.1 hi
    obtain ⟨n, span', rfl⟩ := hi i (List.mem_singleton_self i)
    rw [pending?] at h
    obtain ⟨ns₁, hns₁, h⟩ := Option.bind_eq_some_iff.1 h
    cases h
    exact pending?_of_literals hbase hns₁
  | .member owner m span, cs, ns, ns', hi, h => by
    rw [indexes, steps, List.filterMap_append, ← indexes] at hi
    rw [pending?] at h
    exact pending?_of_literals (List.forall_mem_append.1 hi).1 h

theorem Variable.pending?_of_index? : ∀ {v base : Variable} {i : Expr} {cs : CheckState}
    {ns : List String}, v.index? = some (base, i) → v.pending? env cs ns =
      (base.pending? env cs ns).bind fun ns => i.pending? env ((base.check env).after cs) ns
  | .index base i _, _, _, cs, ns, rfl => by rw [pending?]; rfl
  | .member owner m _, base, i, cs, ns, h => by
    rw [pending?]
    exact Variable.pending?_of_index? (v := owner) h

end Idle

/-! ## Names with values -/

/-- The names of variables that are not pending. -/
def CheckState.valued (cs : CheckState) (ns : List String) : Set String :=
  {n | cs.scopes.IsLocal n ∧ n ∉ ns}

section Valued

variable {env : CheckEnv} {cs cs' : CheckState} {ns ns' as fs : List String}

theorem CheckState.valued_anti (h : ns ⊆ ns') : cs.valued ns' ⊆ cs.valued ns :=
  fun _ hn => ⟨hn.1, fun hmem => hn.2 (h hmem)⟩

/-- Names with values had them before, if those that are declared anew are pending. -/
theorem Accepts.valued_subset (h : Accepts env cs cs' as fs) (hns : ns ⊆ ns')
    (has : cs.unknown as ⊆ ns') : cs'.valued ns' ⊆ cs.valued ns := by
  rintro n ⟨hlocal, hn⟩
  rcases h.grows.isLocal hlocal with hlocal | ⟨hmem, hnone⟩
  · exact ⟨hlocal, fun hmem => hn (hns hmem)⟩
  · refine absurd (has ?_) hn
    exact List.mem_filter.2 ⟨hmem, by rw [hnone]; rfl⟩

theorem Accepts.valued_of_idle (h : Accepts env cs cs' [] fs) : cs'.valued ns ⊆ cs.valued ns :=
  h.valued_subset (List.Subset.refl ns) (List.nil_subset ns)

end Valued

/-! ## Slots with values -/

/-- The slots of a layout, in which the variables with names in `K` have values. -/
def Slots (names : List String) (K : Set String) (cells : List Cell) : Prop :=
  cells.length = names.length ∧ ∀ n ∈ names, n ∈ K → cells[names.idxOf n]? ≠ some .pushed

section Slots

variable {sigs : List (String × Signature)} {names new : List String} {K K' : Set String}
  {cells : List Cell} {t : Nat} {n : String} {st : Option (List Cell → Prop)}
  {code : List Instruction}

/-- Of the names that have slots, fewer need values. -/
theorem Slots.le (hK : ∀ n ∈ names, n ∈ K' → n ∈ K) :
    (Domain.cells sigs).le (Above t (Slots names K)) (Above t (Slots names K')) :=
  fun _ hcells => ⟨hcells.1, hcells.2.1, fun n hn hk => hcells.2.2 n hn (hK n hn hk)⟩

theorem Scannable.knows
    (h : Scannable (.cells sigs) st code (some (Above t (Slots names K)))) (hK : K' ⊆ K) :
    Scannable (.cells sigs) st code (some (Above t (Slots names K'))) :=
  h.relax (.of_le (Slots.le fun _ _ hk => hK hk))

theorem Scannable.knowsAfter {ends : Bool}
    (h : Scannable (.cells sigs) st code (knownAfter ends (Above t (Slots names K))))
    (hK : K' ⊆ K) :
    Scannable (.cells sigs) st code (knownAfter ends (Above t (Slots names K'))) := by
  cases ends with
  | true => exact h
  | false => exact h.knows hK

/-- A variable with a value can be read. -/
theorem Slots.read (h : Above t (Slots names K) cells) (hn : n ∈ names) (hk : n ∈ K) :
    ∃ c, cells[t + names.idxOf n]? = some c ∧ c ≠ .pushed := by
  obtain ⟨hlength, hslots, hvalues⟩ := h
  rw [List.length_drop] at hslots
  have hidx := List.idxOf_lt_length_of_mem hn
  have hvalue := hvalues n hn hk
  rw [List.getElem?_drop] at hvalue
  obtain ⟨c, hc⟩ : ∃ c, cells[t + names.idxOf n]? = some c :=
    ⟨_, List.getElem?_eq_getElem (by omega)⟩
  exact ⟨c, hc, fun hpushed => hvalue (by rw [hc, hpushed])⟩

/-- A value that is moved into a slot is that of the variable. -/
theorem Slots.set (h : Slots names K cells) (hn : n ∈ names) :
    Slots names (insert n K) (cells.set (names.idxOf n) .moved) := by
  refine ⟨by rw [List.length_set, h.1], fun m hm hk => ?_⟩
  by_cases hmn : m = n
  · subst hmn
    rw [List.getElem?_set_self (h.1 ▸ List.idxOf_lt_length_of_mem hm)]
    nofun
  · have hne : names.idxOf n ≠ names.idxOf m := fun heq => hmn ((List.idxOf_inj hn).1 heq).symm
    rw [List.getElem?_set_ne hne]
    exact h.2 m hm (hk.resolve_left hmn)

/-- The slots of new names lie above those of others. -/
theorem Slots.leave (hnew : ∀ n ∈ new, n ∉ names) :
    (Domain.cells sigs).le (Above 0 (Slots (new ++ names) K)) (Above new.length (Slots names K)) := by
  rintro cells ⟨-, hlength, hvalues⟩
  rw [List.drop_zero, List.length_append] at hlength
  refine ⟨by omega, by rw [List.length_drop]; omega, fun n hn hk => ?_⟩
  have hvalue := hvalues n (List.mem_append_right _ hn) hk
  rw [List.idxOf_append_of_notMem fun hmem => hnew n hmem hn] at hvalue
  rw [List.getElem?_drop]
  exact hvalue

/-- Variables with new names have no values yet. -/
theorem Slots.enter (hnew : ∀ n ∈ new, n ∉ names) :
    (Domain.cells sigs).le (Above new.length (Slots names K))
      (Above 0 (Slots (new ++ names) (K ∩ {n | n ∈ names}))) := by
  rintro cells ⟨hle, hlength, hvalues⟩
  rw [List.length_drop] at hlength
  refine ⟨Nat.zero_le _, by rw [List.drop_zero, List.length_append]; omega, fun n hn hk => ?_⟩
  have hvalue := hvalues n hk.2 hk.1
  rw [List.getElem?_drop] at hvalue
  rw [List.idxOf_append_of_notMem fun hmem => hnew n hmem hk.2]
  exact hvalue

/-- A block makes room for its variables and takes it away. -/
theorem Scannable.block {K'' : Set String} {ends : Bool} (hnew : ∀ n ∈ new, n ∉ names)
    (hcode : Scannable (.cells sigs) (some (Above 0 (Slots (new ++ names) (K ∩ {n | n ∈ names}))))
      code (knownAfter ends (Above 0 (Slots (new ++ names) K'))))
    (hK : ∀ n ∈ names, n ∈ K'' → n ∈ K') :
    Scannable (.cells sigs) (some (Above 0 (Slots names K)))
      (List.replicate new.length (.op .pushint [.uint 0]) ++ code ++
        if ends then [] else List.replicate new.length (.op .pop []))
      (knownAfter ends (Above 0 (Slots names K''))) := by
  have hpush : Scannable (.cells sigs) (some (Above (0 + 0) (Slots names K)))
      (List.replicate new.length (.op .pushint [.uint 0]))
      (some (Above (0 + new.length) (Slots names K))) :=
    (Turns.pushes ⟨rfl, rfl, rfl, rfl⟩ rfl new.length).cells
  rw [Nat.zero_add, Nat.zero_add] at hpush
  have hin := (hpush.relax (.of_le (Slots.enter hnew))).append hcode
  cases ends with
  | true => exact hin.append .nil
  | false =>
    have hpop : Scannable (.cells sigs) (some (Above (0 + new.length) (Slots names K')))
        (List.replicate new.length (.op .pop [])) (some (Above 0 (Slots names K'))) :=
      (Turns.pops new.length).cells
    rw [Nat.zero_add] at hpop
    exact ((hin.relax (.of_le (Slots.leave hnew))).append hpop).relax (.of_le (Slots.le hK))

/-- Replacing a cell puts the one on top in its place. -/
theorem cells_replaceCode {k : Nat} (hmax : k + 1 ≤ maxImmediate) (hk : k + 1 < cells.length) :
    (Lower.replaceCode (k + 1)).foldl (fun cells i => i.cells sigs cells) cells =
      cells.tail.set k .moved := by
  match cells with
  | v :: rest =>
    have hk : k < rest.length := Nat.lt_of_succ_lt_succ hk
    match k with
    | 0 =>
      obtain ⟨x, rest, rfl⟩ := List.exists_cons_of_length_pos hk
      rfl
    | m + 1 =>
      have hcover : (Instruction.op .cover [.uint (UInt64.ofNat (m + 2))]).cells sigs (v :: rest) =
          rest.take (m + 2) ++ .moved :: rest.drop (m + 2) := by
        show Cell.cover (UInt64.ofNat (m + 2)).toNat (v :: rest) = _
        rw [Lower.toNat_ofNat_of_le_maxImmediate hmax]
        rfl
      have hsome : (rest.take (m + 2) ++ .moved :: rest.drop (m + 2))[m + 1]? =
          some (rest.get ⟨m + 1, hk⟩) := by
        rw [List.getElem?_append_left (by rw [List.length_take]; omega), List.getElem?_take,
          if_pos (by omega), List.getElem?_eq_getElem hk]
        rfl
      have huncover : (Instruction.op .uncover [.uint (UInt64.ofNat (m + 1))]).cells sigs
          (rest.take (m + 2) ++ .moved :: rest.drop (m + 2)) =
            rest.get ⟨m + 1, hk⟩ :: rest.set (m + 1) .moved := by
        show Cell.uncover (UInt64.ofNat (m + 1)).toNat _ = _
        rw [Lower.toNat_ofNat_of_le_maxImmediate (Nat.le_of_succ_le hmax), Cell.uncover, hsome,
          Lower.eraseIdx_cover hk]
        rfl
      show (Instruction.op .pop []).cells sigs ((Instruction.op .uncover _).cells sigs
        ((Instruction.op .cover _).cells sigs (v :: rest))) = _
      rw [hcover, huncover]
      rfl

/-- Storing a value gives one to the variable. -/
theorem Scannable.store (hn : n ∈ names) (hmax : t + 1 + names.idxOf n ≤ maxImmediate) :
    Scannable (.cells sigs) (some (Above (t + 1) (Slots names K)))
      (Lower.replaceCode (t + 1 + names.idxOf n)) (some (Above t (Slots names (insert n K)))) := by
  have hidx := List.idxOf_lt_length_of_mem hn
  rw [show t + 1 + names.idxOf n = t + names.idxOf n + 1 by omega] at hmax ⊢
  refine .moves ?_ ?_
  · unfold Lower.replaceCode
    split <;> rfl
  · rintro cells ⟨hlength, hslots⟩
    have hall := hslots.1
    rw [List.length_drop] at hall
    rw [cells_replaceCode hmax (by omega)]
    refine ⟨by rw [List.length_set, List.length_tail]; omega, ?_⟩
    rw [List.drop_set, if_neg (by omega), Nat.add_sub_cancel_left, List.drop_tail]
    exact hslots.set hn

end Slots

/-! ## Expressions -/

namespace Item

/-- How many values there are above the temporaries before the code of an item. -/
def before : Item → Nat
  | tests _ _ _ => 1
  | _ => 0

/-- How many values there are above the temporaries after it. -/
def after : Item → Option StackType → Nat
  | args es, _ => es.length
  | tests _ _ _, _ => 1
  | _, left => left.toList.length

end Item

/-- What is pending before and after an item, where the variables with names in `K` have values. A
tested expression is evaluated anew for every value, and for the first before it. -/
def Item.Pends (env : CheckEnv) (cs : CheckState) (ns ns' : List String) (K : Set String) :
    Item → Prop
  | .expr e => e.pending? env cs ns = some ns' ∧ cs.valued ns ⊆ K
  | .args es => Expr.pendingList? env cs ns es = some ns' ∧ cs.valued ns ⊆ K
  | .read place r => place.pending? env cs ns = some ns' ∧ cs.valued ns ⊆ K ∧ r.Reads place
  | .test tested cs₀ v => v.pending? env cs ns = some ns' ∧ ∃ ns₀ ns₁,
      tested.pending? env cs₀ ns₀ = some ns₁ ∧ cs₀.valued ns₀ ⊆ K ∧
        cs.valued ns ⊆ K ∪ ((tested.check env).after cs₀).valued ns₁
  | .tests tested cs₀ vs => Expr.pendingList? env cs ns vs = some ns' ∧ cs.valued ns ⊆ K ∧
      ∃ ns₀ ns₁, tested.pending? env cs₀ ns₀ = some ns₁ ∧ cs₀.valued ns₀ ⊆ K

section Emitted

variable {S : Setting} {names : List String} {cs cs' : CheckState} {ns ns' : List String}
  {K : Set String}

theorem Expr.Sited.accepts {e : Expr} {τ : TypeId} (h : e.Sited S names cs cs' τ) :
    Accepts S.check cs cs' e.assigned e.called :=
  e.check_accepts h.fits.proper h.check

theorem Variable.Sited.accepts {v : Variable} {f : Field} (h : v.Sited S names cs cs' f) :
    Accepts S.check cs cs' v.assigned v.called :=
  v.check_accepts h.fits.proper h.check

/-- After an assignment what has a value had one before, apart from the name that is assigned. -/
theorem Expr.Sited.assigned_value {n : String} {r : Expr} {span span' : Span} {τ : TypeId}
    (h : (Expr.binary .assign (.var (.name n span)) r span').Sited S names cs cs' τ)
    (hns : (Expr.binary .assign (.var (.name n span)) r span').pending? S.check cs ns = some ns') :
    ∃ τr cs₁ ns₁, r.Sited S names cs cs₁ τr ∧ r.pending? S.check cs ns = some ns₁ ∧
      K ∪ cs'.valued ns' ⊆ insert n (K ∪ cs₁.valued ns₁) := by
  obtain ⟨τr, cs₁, hr, -, hcases⟩ := h.value
  rw [Expr.pending?] at hns
  obtain ⟨ns₁, hns₁, hns⟩ := Option.bind_eq_some_iff.1 hns
  cases hns
  refine ⟨τr, cs₁, ns₁, hr, hns₁, ?_⟩
  rintro m (hm | ⟨hlocal, hm⟩)
  · exact .inr (.inl hm)
  by_cases hmn : m = n
  · exact .inl hmn
  · have hlocal₁ : cs₁.scopes.IsLocal m := by
      rcases hcases with ⟨-, -, -, rfl⟩ | ⟨f, -, -, -, -, -, rfl⟩
      · exact (Scopes.IsLocal.of_declare hlocal).resolve_left hmn
      · exact hlocal
    exact .inr (.inr ⟨hlocal₁, fun hmem => hm (List.mem_filter.2 ⟨hmem, decide_eq_true hmn⟩)⟩)

/-- A place that is read without evaluating anything gives no variable a value. -/
theorem Variable.Sited.valued_subset {v : Variable} {f : Field} (h : v.Sited S names cs cs' f)
    (hv : ∀ i ∈ v.indexes, ∃ n span, i = .uint n span)
    (hns : v.pending? S.check cs ns = some ns') : cs'.valued ns' ⊆ cs.valued ns := by
  have haccepts := h.accepts
  rw [Variable.assigned_of_literals hv] at haccepts
  cases Variable.pending?_of_literals hv hns
  exact haccepts.valued_of_idle

/-- Reading a place leaves a value. -/
theorem Emits.read_left {names : List String} {cs : CheckState} {t : Nat} {place : Variable}
    {r : Reading} {code : List Instruction} {left : Option StackType}
    (h : Emits S names cs t (.read place r) code left) : left = some r.type := by
  cases h <;> rfl

/-- What an item stands for is checked from `cs` to `cs'`, in the layout of its code. -/
def Item.Sited (S : Setting) (names : List String) (cs cs' : CheckState) : Item → Prop
  | .expr e => ∃ τ, e.Sited S names cs cs' τ
  | .args es => Expr.ArgumentsSited S names cs cs' es
  | .read place _ => ∃ f, place.Sited S names cs cs' f
  | .test tested cs₀ v =>
    (∃ cs₀' τ, tested.Sited S names cs₀ cs₀' τ) ∧ ∃ τ, v.Sited S names cs cs' τ
  | .tests tested cs₀ vs =>
    (∃ cs₀' τ, tested.Sited S names cs₀ cs₀' τ) ∧ ∃ τ, Expr.ValuesSited S names cs cs' vs τ

/-- The place of a test of the type of a transaction, and the name of the type. -/
theorem Expr.Sited.typeTest {o : BinaryOperator} {place : Variable} {n : String} {c : UInt64}
    {span span' : Span} {τ : TypeId} (ho : o = .eq ∨ o = .ne) (hn : transactionCode? n = some c)
    (hnot : n ∉ names)
    (h : (Expr.binary o (.var place) (.var (.name n span)) span').Sited S names cs cs' τ) :
    ∃ f g, place.Sited S names cs cs' f ∧ cs.scopes.lookup? n = some g := by
  have hop : o.uintOpcode?.isSome = true := by rcases ho with rfl | rfl <;> rfl
  rcases h.operator hop with
    ⟨_, _, span₁, target, f, -, ⟨⟩, ⟨⟩, -, htype, hplace, -⟩ |
    ⟨τl, cs₁, τr, hl, -, hr, -, -, -, hvalue, -⟩
  · obtain ⟨g, hg, -⟩ := Option.map_eq_some_iff.1 htype
    exact ⟨f, g, hplace, hg⟩
  · -- A name of a value is not that of a type.
    rw [S.types_eq] at hvalue
    have hno := hr.fits.namesType_eq_false hr.check hvalue
    have hsome := Builtin.lookup?_of_transactionCode? (Option.isSome_iff_exists.2 ⟨_, hn⟩)
    simp [Lower.namesType, Expr.asName?, hnot, hsome] at hno

/-- Going through the code of an expression, variables are read that have values, and those that it
assigns have values afterwards. -/
theorem Emits.settles {t : Nat} {item : Item} {code : List Instruction} {left : Option StackType}
    (h : Emits S names cs t item code left) (hsite : item.Sited S names cs cs')
    (hpends : item.Pends S.check cs ns ns' K) :
    Scannable (.cells S.lower.signatures) (some (Above (t + item.before) (Slots names K))) code
      (some (Above (t + item.after left) (Slots names (K ∪ cs'.valued ns')))) := by
  induction h generalizing cs' ns ns' K with
  | uint =>
    obtain ⟨τ, hsite⟩ := hsite
    obtain ⟨hns, hK⟩ := hpends
    cases hns
    have haccepts := hsite.accepts
    rw [Expr.assigned_uint] at haccepts
    exact Turns.push.cells.knows (Set.union_subset subset_rfl (haccepts.valued_of_idle.trans hK))
  | bytes =>
    obtain ⟨τ, hsite⟩ := hsite
    obtain ⟨hns, hK⟩ := hpends
    cases hns
    have haccepts := hsite.accepts
    rw [Expr.assigned_bytes] at haccepts
    exact Turns.pushBytes.cells.knows
      (Set.union_subset subset_rfl (haccepts.valued_of_idle.trans hK))
  | not _ ih =>
    obtain ⟨τ, hsite⟩ := hsite
    obtain ⟨τe, he, -⟩ := hsite.operand_not
    exact (ih ⟨τe, he⟩ hpends).append (Turns.one ⟨rfl, rfl, rfl, rfl⟩ rfl).cells
  | @complement _ _ _ _ _ k _ _ ih =>
    obtain ⟨τ, hsite⟩ := hsite
    exact (ih ⟨τ, hsite.operand_complement.1⟩ hpends).append (Turns.complement k).cells
  | @assign cs t n right span span' code k hn hmax _ _ ih =>
    obtain ⟨τ, hsite⟩ := hsite
    obtain ⟨hns, hK⟩ := hpends
    obtain ⟨τr, cs₁, ns₁, hr, hns₁, hvalued⟩ := hsite.assigned_value hns
    exact (((ih ⟨τr, hr⟩ ⟨hns₁, hK⟩).append Turns.dup.cells).append (.store hn hmax)).knows hvalued
  | choice _ hcheck _ hcheck' _ ihc ihl ihr =>
    obtain ⟨τ, hsite⟩ := hsite
    obtain ⟨hns, hK⟩ := hpends
    obtain ⟨τc, cs₁, τl, cs₂, τr, hc, -, -, hl, -, hr, -⟩ := hsite.choice
    cases hcheck.symm.trans hc.check
    cases hcheck'.symm.trans hl.check
    rw [Expr.pending?, Check.after_eq hcheck, Check.after_eq hcheck'] at hns
    obtain ⟨ns₁, hns₁, hns⟩ := Option.bind_eq_some_iff.1 hns
    obtain ⟨nsl, hnsl, hns⟩ := Option.bind_eq_some_iff.1 hns
    obtain ⟨nsr, hnsr, hns⟩ := Option.bind_eq_some_iff.1 hns
    cases hns
    have hcond := ihc ⟨_, hc⟩ ⟨hns₁, hK⟩
    have hleft := ihl (K := K ∪ _) ⟨_, hl⟩ ⟨hnsl, Set.subset_union_right⟩
    -- The arm on the right starts without what the other one declares.
    have hstart := hl.accepts.valued_subset (List.subset_append_left ns₁ _)
      (List.subset_append_right _ _)
    have hright := ihr (K := K ∪ _) ⟨_, hr⟩ ⟨hnsr, hstart.trans Set.subset_union_right⟩
    refine .choice hcond (Domain.cells_jumpIf (.inl rfl)) (hleft.knows ?_) .refl
      (hright.knows ?_) .refl
    · refine Set.union_subset_union Set.subset_union_left (hr.accepts.valued_subset ?_ ?_)
      · exact List.subset_append_of_subset_left _ (List.subset_append_left _ _)
      · exact List.subset_append_of_subset_left _ (List.subset_append_right _ _)
    · exact Set.union_subset_union Set.subset_union_left
        (CheckState.valued_anti (List.subset_append_right _ _))
  | cast _ hcheck _ _ _ _ ih =>
    obtain ⟨τ, hsite⟩ := hsite
    obtain ⟨τl, n, span', hl, -⟩ := hsite.cast
    exact (ih ⟨_, hl⟩ hpends).append (Turns.cast _ _).cells
  | @typeTest _ _ o _ _ _ _ _ _ _ _ ho hr hread hn hnot _ _ ih =>
    obtain ⟨τ, hsite⟩ := hsite
    obtain ⟨hns, hK⟩ := hpends
    obtain ⟨f, g, hplace, -⟩ := hsite.typeTest ho hn hnot
    cases hread.read_left
    have hop : o.uintOpcode?.isSome = true := by rcases ho with rfl | rfl <;> rfl
    rw [Expr.pending?_operator hop] at hns
    obtain ⟨ns₁, hns₁, hns⟩ := Option.bind_eq_some_iff.1 hns
    cases (Variable.pending?_name hns).2
    exact (ih ⟨f, hplace⟩ ⟨hns₁, hK, Reading.reads_ofTransaction? hr⟩).append
      (Turns.typeTest _ _).cells
  | operator _ hcheck hcr htakes _ ihl ihr =>
    obtain ⟨τ, hsite⟩ := hsite
    obtain ⟨hns, hK⟩ := hpends
    obtain ⟨hl, τr, hr⟩ := hcr.operands htakes hcheck hsite
    rw [Expr.pending?_operator htakes.1, Check.after_eq hcheck] at hns
    obtain ⟨ns₁, hns₁, hns⟩ := Option.bind_eq_some_iff.1 hns
    have hleft := ihl ⟨_, hl⟩ ⟨hns₁, hK⟩
    have hright := ihr (K := K ∪ _) ⟨_, hr⟩ ⟨hns, Set.subset_union_right⟩
    refine ((hleft.append hright).append (Turns.operator htakes).cells).knows ?_
    exact Set.union_subset_union_left _ Set.subset_union_left
  | hash _ hcheck hc _ ih =>
    obtain ⟨τ, hsite⟩ := hsite
    obtain ⟨hns, hK⟩ := hpends
    obtain ⟨input, n, span', τi, hargs, hi, -⟩ := hsite.hash
    cases hargs
    rw [Expr.pending?, Expr.pendingList?] at hns
    obtain ⟨ns₁, hns₁, hns⟩ := Option.bind_eq_some_iff.1 hns
    rw [Expr.pendingList?] at hns
    obtain ⟨ns₂, hns₂, hns⟩ := Option.bind_eq_some_iff.1 hns
    cases hns
    cases (Variable.pending?_name hns₂).2
    exact (ih ⟨_, hi⟩ ⟨hns₁, hK⟩).append (Turns.hash _ hc).cells
  | @call _ t _ sig args _ _ hf hsig harity _ _ _ ih =>
    obtain ⟨τ, hsite⟩ := hsite
    have hcall := (Turns.call hsig).cells (t := t) (P := Slots names (K ∪ cs'.valued ns'))
    rw [← harity] at hcall
    refine (ih (hsite.arguments hf).1 hpends).append ?_
    cases hreturns : sig.returnsValue <;> rw [hreturns] at hcall <;> exact hcall
  | @«local» cs t n span _ hn hmax _ _ _ =>
    obtain ⟨τ, hsite⟩ := hsite
    obtain ⟨hns, hK⟩ := hpends
    obtain ⟨f, hplace, -⟩ := hsite.place
    have hvalued : n ∈ K :=
      hK ⟨hsite.fits.isLocal hn (check_name hplace.check).1, (Variable.pending?_name hns).1⟩
    have hleads : (Domain.cells S.lower.signatures).leads
        (.op .dig [.uint (UInt64.ofNat (t + names.idxOf n))]) (Above t (Slots names K))
        (Above (t + 1) (Slots names K)) := by
      intro cells hcells
      refine ⟨?_, Nat.succ_le_succ hcells.1, hcells.2⟩
      rintro _ ⟨⟩
      rw [Lower.toNat_ofNat_of_le_maxImmediate hmax]
      exact Slots.read hcells hn hvalued
    exact (Scannable.op rfl hleads rfl).knows (Set.union_subset subset_rfl
      ((hplace.valued_subset (Variable.literals_name n span) hns).trans hK))
  | @constant _ _ n span =>
    obtain ⟨τ, hsite⟩ := hsite
    obtain ⟨hns, hK⟩ := hpends
    obtain ⟨f, hplace, -⟩ := hsite.place
    exact Turns.push.cells.knows
      (Set.union_subset subset_rfl ((hplace.valued_subset (Variable.literals_name n span) hns).trans hK))
  | place hload hr _ _ ih =>
    obtain ⟨τ, hsite⟩ := hsite
    obtain ⟨hns, hK⟩ := hpends
    obtain ⟨f, hplace, -⟩ := hsite.place
    exact ih ⟨_, hplace⟩ ⟨hns, hK, Reading.reads_ofLoad? hload hr⟩
  | readDirect hr hindex =>
    obtain ⟨f, hsite⟩ := hsite
    obtain ⟨hns, hK, hreads⟩ := hpends
    exact (Turns.readDirect hr hindex).cells.knows
      (Set.union_subset subset_rfl ((hsite.valued_subset (hreads.literal hindex) hns).trans hK))
  | readIndexed hr hindex hplace hcheck _ ih =>
    obtain ⟨f, hsite⟩ := hsite
    obtain ⟨hns, hK, hreads⟩ := hpends
    obtain ⟨g, cs₁, τ, hbase, hi, -⟩ := hsite.index hplace
    cases hcheck.symm.trans hbase
    rw [Variable.pending?_of_index? hplace, Check.after_eq hcheck] at hns
    obtain ⟨ns₁, hns₁, hns⟩ := Option.bind_eq_some_iff.1 hns
    -- What comes before the index of a place has no code.
    have hliterals := Variable.literals_of_indexes (hreads.single _ _ hplace)
    cases Variable.pending?_of_literals hliterals hns₁
    have haccepts := Variable.check_accepts _ hsite.fits.proper hbase
    rw [Variable.assigned_of_literals hliterals] at haccepts
    exact (ih ⟨_, hi⟩ ⟨hns, haccepts.valued_of_idle.trans hK⟩).append
      (Turns.readIndexed hr hindex).cells
  | argsNil =>
    obtain ⟨hns, hK⟩ := hpends
    cases hns
    have haccepts := Expr.checkArguments_accepts [] hsite.fits.proper hsite.check
    exact Scannable.nil.knows (Set.union_subset subset_rfl (haccepts.valued_of_idle.trans hK))
  | @argsCons _ _ t e es _ _ _ _ _ hcheck _ ih ihs =>
    obtain ⟨hns, hK⟩ := hpends
    obtain ⟨τ, cs₁, he, -, hes⟩ := Expr.ArgumentsSited.cons hsite
    cases hcheck.symm.trans he.check
    rw [Expr.pendingList?, Check.after_eq hcheck] at hns
    obtain ⟨ns₁, hns₁, hns⟩ := Option.bind_eq_some_iff.1 hns
    have hrest := ihs (K := K ∪ _) hes ⟨hns, Set.subset_union_right⟩
    rw [show t + 1 + (Item.args es).after none = t + (Item.args (e :: es)).after none by
      simp only [Item.after, List.length_cons]; omega] at hrest
    refine ((ih ⟨_, he⟩ ⟨hns₁, hK⟩).append hrest).knows ?_
    exact Set.union_subset_union_left _ Set.subset_union_left
  | test _ _ iht ihv =>
    obtain ⟨⟨cs₀', τ, ht⟩, τv, hv⟩ := hsite
    obtain ⟨hns, ns₀, ns₁, hns₁, hK₀, hK⟩ := hpends
    rw [Check.after_eq ht.check] at hK
    refine (((iht ⟨_, ht⟩ ⟨hns₁, hK₀⟩).append (ihv ⟨_, hv⟩ ⟨hns, hK⟩)).append
      (Turns.operator ⟨rfl, fun _ => rfl⟩).cells).knows ?_
    exact Set.union_subset_union_left _ Set.subset_union_left
  | testType hr hread hn hnot _ _ ih =>
    obtain ⟨⟨cs₀', τ, ht⟩, τv, hv⟩ := hsite
    obtain ⟨hns, ns₀, ns₁, hns₁, hK₀, hK⟩ := hpends
    rw [Check.after_eq ht.check] at hK
    obtain ⟨f, hplace, -⟩ := ht.place
    obtain ⟨g, hname, -⟩ := hv.place
    cases hread.read_left
    refine ((ih ⟨f, hplace⟩ ⟨hns₁, hK₀, Reading.reads_ofTransaction? hr⟩).append
      (Turns.typeTest .eq _).cells).knows ?_
    exact Set.union_subset Set.subset_union_left
      ((hname.valued_subset (Variable.literals_name _ _) hns).trans hK)
  | testsNil =>
    obtain ⟨-, τ, hsite⟩ := hsite
    obtain ⟨hns, hK, -⟩ := hpends
    cases hns
    have haccepts := checkCaseValues_accepts [] hsite.fits.proper hsite.check
    exact Scannable.nil.knows (Set.union_subset subset_rfl (haccepts.valued_of_idle.trans hK))
  | testsCons _ hcheck _ ih ihs =>
    obtain ⟨ht, τ, hsite⟩ := hsite
    obtain ⟨hns, hK, ns₀, ns₁, hns₁, hK₀⟩ := hpends
    obtain ⟨τv, cs₁, hv, -, -, hvs⟩ := hsite.cons
    cases hcheck.symm.trans hv.check
    rw [Expr.pendingList?, Check.after_eq hcheck] at hns
    obtain ⟨ns₂, hns₂, hns⟩ := Option.bind_eq_some_iff.1 hns
    have hfirst := ih ⟨ht, _, hv⟩ ⟨hns₂, ns₀, ns₁, hns₁, hK₀, hK.trans Set.subset_union_left⟩
    have hrest := ihs (K := K ∪ _) ⟨ht, _, hvs⟩
      ⟨hns, Set.subset_union_right, ns₀, ns₁, hns₁, hK₀.trans Set.subset_union_left⟩
    refine ((hfirst.append (Turns.one (n := 2) ⟨rfl, rfl, rfl, rfl⟩ rfl).cells).append hrest).knows ?_
    exact Set.union_subset_union_left _ Set.subset_union_left

/-! ## Statements -/

/-- What a part stands for is checked from `cs` to `cs'`, in the layout of its code. -/
def Part.Sited (S : Setting) (names : List String) (cs cs' : CheckState) : Part → Prop
  | .stmt st => st.Sited S names cs cs'
  | .stmts ss => Stmt.ListSited S names cs cs' ss
  | .block b => b.Sited S names cs cs'
  | .chain tested cs₀ cases otherwise =>
    (∃ cs₀' τ, tested.Sited S names cs₀ cs₀' τ) ∧
      ∃ τ, Case.ListSited S names cs cs' τ cases otherwise

/-- What is pending before and after a part, where the variables with names in `K` have values. The
values of the first case are looked at after the tested expression has been evaluated once. -/
def Part.Pends (env : CheckEnv) (cs : CheckState) (ns ns' : List String) (K : Set String) :
    Part → Prop
  | .stmt st => st.pending? env cs ns = some ns' ∧ cs.valued ns ⊆ K
  | .stmts ss => Stmt.pendingList? env cs ns ss = some ns' ∧ cs.valued ns ⊆ K
  | .block b => b.pending? env cs ns = some ns' ∧ cs.valued ns ⊆ K
  | .chain tested cs₀ cases otherwise =>
    Case.pendingList? env cs ns (Block.pendingElse? env otherwise) cases = some ns' ∧
      (cases = [] → cs.valued ns ⊆ K) ∧
      (cases ≠ [] → ∃ ns₀ ns₁, tested.pending? env cs₀ ns₀ = some ns₁ ∧ cs₀.valued ns₀ ⊆ K ∧
        cs.valued ns ⊆ K ∪ ((tested.check env).after cs₀).valued ns₁)

theorem Block.Sited.valued_subset {b : Block} (h : b.Sited S names cs cs') :
    cs'.valued ns ⊆ cs.valued ns := by
  have hscopes := (b.check_accepts h.fits.proper h.check).2
  rintro n ⟨hlocal, hn⟩
  rw [hscopes] at hlocal
  exact ⟨hlocal, hn⟩

/-- What cases declare, their values assign. -/
theorem Case.ListSited.accepts {τ : TypeId} {cases : List Case} {otherwise : Option Block}
    (h : Case.ListSited S names cs cs' τ cases otherwise) :
    ∃ fs, Accepts S.check cs cs' (cases.flatMap fun c => c.values.flatMap Expr.assigned) fs := by
  obtain ⟨cs₁, hcases, hother⟩ := h.check
  have haccepts := Case.checkList_accepts cases h.fits.proper hcases
  cases otherwise with
  | none =>
    cases hother
    exact ⟨_, haccepts⟩
  | some b =>
    have hb := (b.check_accepts (haccepts.proper h.fits.proper) hother).1
    have hall := haccepts.trans hb
    rw [List.append_nil] at hall
    exact ⟨_, hall⟩

/-- The tests for the values of a case. -/
theorem Emits.settles_values {cs₀ cs₁ : CheckState} {tested v : Expr} {vs : List Expr}
    {ct cts : List Instruction} {k : StackType} {τ τv : TypeId}
    (hv : Emits S names cs 0 (.test tested cs₀ v) ct (some k))
    (hcheck : v.check S.check cs = .ok (τv, cs₁))
    (hvs : Emits S names cs₁ 0 (.tests tested cs₀ vs) cts none)
    (ht : ∃ cs₀' τ, tested.Sited S names cs₀ cs₀' τ)
    (hsite : Expr.ValuesSited S names cs cs' (v :: vs) τ)
    (hns : Expr.pendingList? S.check cs ns (v :: vs) = some ns')
    (htested : ∃ ns₀ ns₁, tested.pending? S.check cs₀ ns₀ = some ns₁ ∧ cs₀.valued ns₀ ⊆ K ∧
      cs.valued ns ⊆ K ∪ ((tested.check S.check).after cs₀).valued ns₁) :
    Scannable (.cells S.lower.signatures) (some (Above 0 (Slots names K))) (ct ++ cts)
      (some (Above 1 (Slots names (K ∪ cs'.valued ns')))) := by
  obtain ⟨τ₁, cs₁', hsv, -, -, hsvs⟩ := hsite.cons
  cases hcheck.symm.trans hsv.check
  rw [Expr.pendingList?, Check.after_eq hcheck] at hns
  obtain ⟨nsv, hnsv, hns⟩ := Option.bind_eq_some_iff.1 hns
  obtain ⟨ns₀, ns₁, htested, hK₀, hK⟩ := htested
  have hfirst := hv.settles ⟨ht, _, hsv⟩ ⟨hnsv, ns₀, ns₁, htested, hK₀, hK⟩
  have hrest := hvs.settles (K := K ∪ _) ⟨ht, _, hsvs⟩
    ⟨hns, Set.subset_union_right, ns₀, ns₁, htested, hK₀.trans Set.subset_union_left⟩
  exact (hfirst.append hrest).knows (Set.union_subset_union_left _ Set.subset_union_left)

theorem isMove_pops (k : Nat) :
    (List.replicate k (Instruction.op .pop [])).all Instruction.isMove := by
  rw [List.all_replicate]
  simp [Instruction.isMove, Instruction.label?, Instruction.jump?, Instruction.fallsThrough]

theorem isMove_dropCode (k : Nat) : (dropCode k).all Instruction.isMove := by
  match k with
  | 0 => rfl
  | 1 => rfl
  | k + 2 =>
    rw [dropCode, List.all_cons, isMove_pops]
    rfl

/-- Going through the code of a statement, variables are read that have values, and those that it
assigns on every way have values afterwards. -/
theorem Performs.settles {part : Part} {code : List Instruction} {ends : Bool}
    (h : Performs S names cs part code ends) (hsite : part.Sited S names cs cs')
    (hpends : part.Pends S.check cs ns ns' K) :
    Scannable (.cells S.lower.signatures) (some (Above 0 (Slots names K))) code
      (knownAfter ends (Above 0 (Slots names (K ∪ cs'.valued ns')))) := by
  induction h generalizing cs' ns ns' K with
  | nil =>
    obtain ⟨hns, hK⟩ := hpends
    cases hns
    have haccepts := Stmt.checkList_accepts [] hsite.fits.proper hsite.check
    exact Scannable.nil.knows (Set.union_subset subset_rfl (haccepts.valued_of_idle.trans hK))
  | last _ ih =>
    obtain ⟨hns, hK⟩ := hpends
    obtain ⟨cs₁, hst, -⟩ := hsite.cons
    obtain ⟨ns₁, hns₁, -⟩ := Option.bind_eq_some_iff.1 hns
    have hfirst := ih hst ⟨hns₁, hK⟩
    exact hfirst
  | next _ hcheck _ ih ihs =>
    obtain ⟨hns, hK⟩ := hpends
    obtain ⟨cs₁, hst, hss⟩ := hsite.cons
    cases hcheck.symm.trans hst.check
    rw [Stmt.pendingList?, Check.after_eq hcheck] at hns
    obtain ⟨ns₁, hns₁, hns⟩ := Option.bind_eq_some_iff.1 hns
    have hfirst := ih hst ⟨hns₁, hK⟩
    have hrest := ihs (K := K ∪ _) hss ⟨hns, Set.subset_union_right⟩
    exact (hfirst.append hrest).knowsAfter
      (Set.union_subset_union_left _ Set.subset_union_left)
  | @block names cs ss span new code ends hnew _ ih =>
    obtain ⟨hns, hK⟩ := hpends
    obtain ⟨cs₁, hbody, hcs'⟩ := hsite.body
    have hnot : ∀ n ∈ new.reverse, n ∉ names := by
      intro n hn
      rw [List.mem_reverse, ← hnew] at hn
      exact (mem_newNames.1 hn).2
    rw [← List.length_reverse]
    rw [hnew] at hbody
    refine .block hnot (ih hbody ⟨hns, ?_⟩) ?_
    · rintro n ⟨hlocal, hn⟩
      obtain ⟨f, hf⟩ := Option.isSome_iff_exists.1 hlocal
      exact ⟨hK ⟨hlocal, hn⟩, (hsite.fits.declared n f hf).1⟩
    · -- What the block leaves in scope was in scope before it.
      rintro n hn (hk | ⟨hlocal, hn'⟩)
      · exact .inl ⟨hk, hn⟩
      · rw [(Block.check_accepts _ hsite.fits.proper hsite.check).2] at hlocal
        have hgrows := (Stmt.checkList_accepts ss hbody.fits.proper hbody.check).grows
        obtain ⟨f, hf⟩ := Option.isSome_iff_exists.1 hlocal
        exact .inr ⟨Option.isSome_iff_exists.2 ⟨f, hgrows.kept hf⟩, hn'⟩
  | discard he =>
    obtain ⟨τ, hs⟩ := hsite.expr
    exact (he.settles ⟨_, hs⟩ hpends).append (Turns.pops _).cells
  | store hn hmax he _ =>
    obtain ⟨hns, hK⟩ := hpends
    obtain ⟨τ, hs⟩ := hsite.expr
    obtain ⟨τr, cs₁, ns₁, hr, hns₁, hvalued⟩ := hs.assigned_value (K := K) hns
    have hvalue := he.settles ⟨τr, hr⟩ ⟨hns₁, hK⟩
    exact (hvalue.append (.store hn (t := 0) hmax)).knows hvalued
  | ifThen hc hcheck _ ih =>
    obtain ⟨hns, hK⟩ := hpends
    obtain ⟨τ, cs₁, hcs, -, -, hbs⟩ := hsite.ifThen
    cases hcheck.symm.trans hcs.check
    rw [Stmt.pending?, Check.after_eq hcheck] at hns
    obtain ⟨ns₁, hns₁, hns⟩ := Option.bind_eq_some_iff.1 hns
    obtain ⟨nsb, hnsb, hns⟩ := Option.bind_eq_some_iff.1 hns
    cases hns
    have hcond := hc.settles ⟨_, hcs⟩ ⟨hns₁, hK⟩
    have hblock := ih (K := K ∪ _) hbs ⟨hnsb, Set.subset_union_right⟩
    refine (Scannable.skip hcond (Domain.cells_jumpIf (.inl rfl)) hblock ?_).knows
      (Set.union_subset_union_right K hbs.valued_subset)
    exact knownAfter_within _ (Slots.le fun _ _ hk => Set.mem_union_left _ hk)
  | ifElse hc hcheck _ hcheck' _ iha ihb =>
    obtain ⟨hns, hK⟩ := hpends
    obtain ⟨τ, cs₁, cs₂, hcs, -, -, has, hbs⟩ := hsite.ifElse
    cases hcheck.symm.trans hcs.check
    cases hcheck'.symm.trans has.check
    rw [Stmt.pending?, Check.after_eq hcheck, Check.after_eq hcheck'] at hns
    obtain ⟨ns₁, hns₁, hns⟩ := Option.bind_eq_some_iff.1 hns
    obtain ⟨nsa, hnsa, hns⟩ := Option.bind_eq_some_iff.1 hns
    obtain ⟨nsb, hnsb, hns⟩ := Option.bind_eq_some_iff.1 hns
    cases hns
    have hcond := hc.settles ⟨_, hcs⟩ ⟨hns₁, hK⟩
    have hleft := iha (K := K ∪ _) has ⟨hnsa, Set.subset_union_right⟩
    have hright := ihb (K := K ∪ _) hbs ⟨hnsb, has.valued_subset.trans Set.subset_union_right⟩
    refine .choice hcond (Domain.cells_jumpIf (.inl rfl)) hleft
      (knownAfter_and_left _ _ (Slots.le fun n _ hk => ?_)) hright
      (knownAfter_and_right _ _ (Slots.le fun n _ hk => ?_))
    · exact Set.union_subset_union Set.subset_union_left (hbs.valued_subset.trans
        (CheckState.valued_anti (List.subset_append_left _ _))) hk
    · exact Set.union_subset_union Set.subset_union_left
        (CheckState.valued_anti (List.subset_append_right _ _)) hk
  | whileDo hc hcheck _ ih =>
    obtain ⟨hns, hK⟩ := hpends
    obtain ⟨τ, cs₁, hcs, -, -, hbs⟩ := hsite.whileDo
    cases hcheck.symm.trans hcs.check
    rw [Stmt.pending?, Check.after_eq hcheck] at hns
    obtain ⟨ns₁, hns₁, hns⟩ := Option.bind_eq_some_iff.1 hns
    obtain ⟨nsb, hnsb, hns⟩ := Option.bind_eq_some_iff.1 hns
    cases hns
    have hcond := hc.settles ⟨_, hcs⟩ ⟨hns₁, hK⟩
    have hblock := ih (K := K ∪ _) hbs ⟨hnsb, Set.subset_union_right⟩
    refine (Scannable.loop hcond (Domain.cells_jumpIf (.inl rfl)) hblock ?_).knows
      (Set.union_subset_union_right K hbs.valued_subset)
    -- What had a value before the first round has one before each.
    exact knownAfter_within _
      (Slots.le fun _ _ hk => Set.mem_union_left _ (Set.mem_union_left _ hk))
  | @doWhile _ _ _ _ _ _ _ _ _ ends _ _ hcheck hc ih =>
    obtain ⟨hns, hK⟩ := hpends
    obtain ⟨τ, cs₁, hbs, hcs, -⟩ := hsite.doWhile
    cases hcheck.symm.trans hbs.check
    rw [Stmt.pending?, Check.after_eq hcheck] at hns
    obtain ⟨ns₁, hns₁, hns⟩ := Option.bind_eq_some_iff.1 hns
    have hblock := ih hbs ⟨hns₁, hK⟩
    cases ends with
    | true => exact .once hblock
    | false =>
      have hcond := hc.settles (K := K ∪ _) ⟨_, hcs⟩ ⟨hns, Set.subset_union_right⟩
      refine (Scannable.again hblock hcond (Domain.cells_jumpIf (.inr rfl)) ?_).knows
        (Set.union_subset_union_left _ Set.subset_union_left)
      exact .of_le (Slots.le fun _ _ hk => Set.mem_union_left _ (Set.mem_union_left _ hk))
  | @switch _ _ _ tested cases _ _ _ _ _ hcheck _ ih =>
    obtain ⟨hns, hK⟩ := hpends
    obtain ⟨τ, cs₁, hts, -, hcases⟩ := hsite.switch
    cases hcheck.symm.trans hts.check
    rw [Stmt.pending?_switch, Check.after_eq hcheck] at hns
    obtain ⟨ns₁, hns₁, hns⟩ := Option.bind_eq_some_iff.1 hns
    refine ih ⟨⟨_, _, hts⟩, _, hcases⟩ ⟨hns, fun hnil => ?_, fun hcons => ?_⟩
    · -- Without cases the tested expression has no code.
      subst hnil
      cases hns₁
      exact (hts.accepts.valued_subset (List.subset_append_left _ _)
        (List.subset_append_right _ _)).trans hK
    · rw [Expr.pendingTested?, if_neg (by simpa using hcons)] at hns₁
      refine ⟨_, _, hns₁, hK, ?_⟩
      rw [Check.after_eq hcheck]
      exact Set.subset_union_right
  | chainNone =>
    obtain ⟨-, τ, hsite⟩ := hsite
    obtain ⟨hns, hK, -⟩ := hpends
    cases hns
    obtain ⟨fs, haccepts⟩ := hsite.accepts
    exact Scannable.nil.knows
      (Set.union_subset subset_rfl (haccepts.valued_of_idle.trans (hK rfl)))
  | chainOtherwise _ ih =>
    obtain ⟨-, τ, hsite⟩ := hsite
    exact ih hsite.last ⟨hpends.1, hpends.2.1 rfl⟩
  | chainLast hv hcheck hvs hvalues _ ih =>
    obtain ⟨ht, τ, hsite⟩ := hsite
    obtain ⟨hns, -, htested⟩ := hpends
    obtain ⟨cs₁, cs₂, hvalues', hbs, hcases⟩ := hsite.cons
    obtain ⟨τ', hvalues⟩ := hvalues
    cases checkCaseValues_unique hvalues hvalues'.check
    rw [Case.pendingList?, Expr.afterValues_eq hvalues, Check.after_eq hbs.check] at hns
    obtain ⟨ns₁, hns₁, hns⟩ := Option.bind_eq_some_iff.1 hns
    obtain ⟨taken, htaken, hns⟩ := Option.bind_eq_some_iff.1 hns
    cases hns
    have htests := hv.settles_values hcheck hvs ht hvalues' hns₁ (htested nofun)
    have hblock := ih (K := K ∪ _) hbs ⟨htaken, Set.subset_union_right⟩
    obtain ⟨fs, haccepts⟩ := hcases.accepts
    refine (Scannable.skip htests (Domain.cells_jumpIf (.inl rfl)) hblock ?_).knows
      (Set.union_subset_union_right K ?_)
    · exact knownAfter_within _ (Slots.le fun _ _ hk => Set.mem_union_left _ hk)
    · exact (haccepts.valued_subset (List.subset_append_right _ _) (List.nil_subset _)).trans
        hbs.valued_subset
  | chainCons hv hcheck hvs hvalues _ hcheck' _ ihb ihr =>
    obtain ⟨ht, τ, hsite⟩ := hsite
    obtain ⟨hns, -, htested⟩ := hpends
    obtain ⟨cs₁, cs₂, hvalues', hbs, hcases⟩ := hsite.cons
    obtain ⟨τ', hvalues⟩ := hvalues
    cases checkCaseValues_unique hvalues hvalues'.check
    cases hcheck'.symm.trans hbs.check
    rw [Case.pendingList?, Expr.afterValues_eq hvalues, Check.after_eq hcheck'] at hns
    obtain ⟨ns₁, hns₁, hns⟩ := Option.bind_eq_some_iff.1 hns
    obtain ⟨taken, htaken, hns⟩ := Option.bind_eq_some_iff.1 hns
    obtain ⟨passed, hpassed, hns⟩ := Option.bind_eq_some_iff.1 hns
    cases hns
    have htests := hv.settles_values hcheck hvs ht hvalues' hns₁ (htested nofun)
    have hblock := ihb (K := K ∪ _) hbs ⟨htaken, Set.subset_union_right⟩
    obtain ⟨ns₀, nst, hnst, hK₀, -⟩ := htested nofun
    have hKpassed : CheckState.valued _ ns₁ ⊆ K ∪ CheckState.valued _ ns₁ :=
      hbs.valued_subset.trans Set.subset_union_right
    have hrest := ihr (K := K ∪ _) ⟨ht, _, hcases⟩ ⟨hpassed, fun _ => hKpassed, fun _ =>
      ⟨ns₀, nst, hnst, hK₀.trans Set.subset_union_left, hKpassed.trans Set.subset_union_left⟩⟩
    obtain ⟨fs, haccepts⟩ := hcases.accepts
    refine .choice htests (Domain.cells_jumpIf (.inl rfl)) hblock
      (knownAfter_and_left _ _ (Slots.le fun n _ hk => ?_)) hrest
      (knownAfter_and_right _ _ (Slots.le fun n _ hk => ?_))
    · -- Where a case is taken, the values of later cases have declared their names in vain.
      refine Set.union_subset_union Set.subset_union_left (haccepts.valued_subset ?_ ?_) hk
      · exact List.subset_append_of_subset_left _ (List.subset_append_left _ _)
      · exact List.subset_append_of_subset_left _ (List.subset_append_right _ _)
    · exact Set.union_subset_union Set.subset_union_left
        (CheckState.valued_anti (List.subset_append_right _ _)) hk
  | throwLogged => exact (Turns.logged _).cells.append (.halt rfl rfl rfl)
  | throwSilent => exact (Turns.comment _).cells.append (.halt rfl rfl rfl)
  | exit he | finish _ he =>
    obtain ⟨τ, hs, -⟩ := hsite.leave (by decide)
    exact (he.settles ⟨_, hs⟩ hpends).append (.halt rfl rfl rfl)
  | finishNone => exact Turns.push.cells.append (.halt rfl rfl rfl)
  | ret _ _ _ he =>
    obtain ⟨τ, hs, -⟩ := hsite.leave (by decide)
    have hvalue := he.settles ⟨_, hs⟩ hpends
    exact (hvalue.append (.anyhow (isMove_dropCode _))).append (.halt rfl rfl rfl)
  | retNone => exact Scannable.append (.anyhow (isMove_pops _)) (.halt rfl rfl rfl)

end Emitted

/-! ## Functions and programs -/

/-- The end of a body reads nothing. -/
theorem Function.endCode_settles {sigs : List (String × Signature)} {P : List Cell → Prop}
    (f : Function) (isMain : Bool) :
    Scannable (.cells sigs) (some (Above 0 P)) (f.endCode isMain) none := by
  unfold Function.endCode
  split
  case isTrue => exact Turns.push.cells.append (.halt rfl rfl rfl)
  case isFalse =>
    split
    case isTrue => exact .halt rfl rfl rfl
    case isFalse => exact Scannable.append (.anyhow (isMove_pops _)) (.halt rfl rfl rfl)

/-- The frame of a function that was just entered: its arguments have values. -/
def Function.Entered (f : Function) : List Cell → Prop :=
  Above 0 (Slots f.params.reverse {n | n ∈ f.params})

theorem Function.entered_arguments (f : Function) :
    f.Entered (List.replicate f.params.length .argument) := by
  refine ⟨Nat.zero_le _, ?_, fun n _ _ hpushed => ?_⟩
  · rw [List.drop_zero, List.length_replicate, List.length_reverse]
  · have hmem := List.mem_of_getElem? hpushed
    rw [List.drop_zero] at hmem
    cases List.eq_of_mem_replicate hmem

/-- A function in which no name is read while it is pending. -/
theorem Defines.enters {S : Setting} {f : Function} {cs' : CheckState} {code : List Instruction}
    (h : Defines S f code)
    (hsite : f.body.Sited S f.params.reverse (f.startState S.check.mode) cs')
    (hreads : (f.body.pending? S.check (f.startState S.check.mode) []).isSome) :
    f.Enters (.cells S.lower.signatures) S.main f.Entered code := by
  obtain @⟨body, ends, hbody⟩ := h
  obtain ⟨ns', hns⟩ := Option.isSome_iff_exists.1 hreads
  have hvalued : (f.startState S.check.mode).valued [] ⊆ {n | n ∈ f.params} := by
    rintro n ⟨hlocal, -⟩
    obtain ⟨g, hg⟩ := Option.isSome_iff_exists.1 hlocal
    exact List.mem_reverse.1 (hsite.fits.declared n g hg).1
  rw [List.append_assoc]
  refine ((hbody.settles hsite ⟨hns, hvalued⟩).append ?_).enters S.main
  cases ends
  · exact f.endCode_settles S.main
  · exact .nil

/-- The reads of a program are settled, if no function that it needs reads a pending name. -/
theorem Program.Code.readsSettled {source text : List Char} {p : Program} {mode : Mode}
    {a : Analysis} {entry : Entry} {main : Function} {codes : List (List Instruction)}
    (hp : Source.program source = .ok p) (ha : p.check mode text = .ok a)
    (hentry : entry ∈ mode.entries)
    (h : p.Code mode entry (.free a.localType?) main codes)
    (hreads : ∀ f ∈ p.reachable main, f.ReadsDeclared p mode) :
    ReadsSettled p main codes.flatten := by
  have hfree : p.Abides (.free a.localType?) mode := abides hp ha trivial
  obtain ⟨main', hmain', hparams⟩ := hfree.accepted.entry entry hentry
  cases h.found.symm.trans hmain'
  have hname := name_of_function? h.found
  have hreached := reachable_reached (p := p) (hname ▸ h.found)
  have henters : List.Forall₂ (fun f code => f.Enters (.cells p.signatures)
      (f.name == entry.functionName) f.Entered code) (p.reachable main) codes := by
    have hsites := fun f hf => And.intro (hreads f hf) (hfree.sited _ hreached hname hf)
    refine ((List.forall₂_and_left _ _).2 ⟨hsites, h.defines⟩).imp ?_
    rintro f code ⟨⟨hread, cs', hsite⟩, hdefines⟩
    exact hdefines.enters hsite hread
  obtain ⟨T, hT, hmem, hscans⟩ := h.scans henters
  refine hscans.readsSettled (hT ▸ h.nodup) ?_ Function.entered_arguments hmem
  have hargs := main.entered_arguments
  rw [hparams] at hargs
  exact hargs

/-- In every program of a source that was compiled, variables are read that have values, if no name
is read while it is pending. -/
theorem compileAll_readsSettled {text : List Char} {o : Options} {asms : List Assembly}
    (h : compileAll text o = .ok asms) :
    ∃ source p, (if o.expand then Source.expand text else pure text) = .ok source ∧
      Source.program source = .ok p ∧ asms.length = o.mode.entries.length ∧
      ∀ asm ∈ asms, ∃ main, p.function? asm.entry = some main ∧
        ((∀ f ∈ p.reachable main, f.ReadsDeclared p o.mode) →
          ReadsSettled p main asm.code) := by
  obtain ⟨source, p, a, hsource, hp, ha, hasms⟩ := compileAll_eq_ok h
  refine ⟨source, p, hsource, hp, hasms.length_eq.symm, fun asm hasm => ?_⟩
  obtain ⟨entry, hentry, hgenerate⟩ := exists_left_of_forall₂ hasms hasm
  obtain ⟨main, codes, hcode, hasm, hname, -⟩ := Program.generate_ok hp ha hentry hgenerate
  refine ⟨main, ?_, fun hreads => ?_⟩
  · rw [hname]
    exact hcode.found
  · rw [hasm]
    exact hcode.readsSettled hp ha hentry hreads

/-- A source with a variable that both arms of a choice assign, and one that is assigned by a value
of a case and, where that is passed over, by the block for the other cases. -/
theorem compileAll_readsSettled_switch :
    ∃ asms p, compileAll "def f(x) { y = x > 1 ? (z = 2) : (z = 3);
          switch (x) { case 1, (w = 2) { y = z; } default { w = 1; y = w; } } return y + z; }
        def ApprovalProgram() { while (Txn.Fee > 3) { a = f(1); } return 1; }".toList
        (.ofMode (.single .approval)) = .ok asms ∧ asms.length = 1 ∧
      ∀ asm ∈ asms, ∃ main, p.function? asm.entry = some main ∧
        (∀ f ∈ p.reachable main, f.ReadsDeclared p (.single .approval)) ∧
        ReadsSettled p main asm.code := by
  generalize htext : String.toList _ = text
  have hrun : (do
      let asms ← compileAll text (.ofMode (.single .approval))
      let source ← Source.expand text
      let p ← Source.program source
      return (asms.length, p.functions.all fun f => f.ReadsDeclared p (.single .approval))) =
        Except.ok (1, true) := by
    subst htext
    rw [String.toList_ofList]
    decide +kernel
  obtain ⟨asms, hasms, hrun⟩ := ok_of_bind hrun
  obtain ⟨source, hsource, hrun⟩ := ok_of_bind hrun
  obtain ⟨p, hp, hrun⟩ := ok_of_bind hrun
  obtain ⟨hlength, hreads⟩ := Prod.mk.inj (Except.ok.inj hrun)
  obtain ⟨source', p', hsource', hp', -, hall⟩ := compileAll_readsSettled hasms
  cases hsource.symm.trans hsource'
  cases hp.symm.trans hp'
  refine ⟨asms, p, hasms, hlength, fun asm hasm => ?_⟩
  obtain ⟨main, hmain, hsettled⟩ := hall asm hasm
  have hdeclared : ∀ f ∈ p.reachable main, f.ReadsDeclared p (.single .approval) := by
    intro f hf
    have hname := Program.name_of_function? hmain
    have hreached := Program.reachable_reached (show p.function? main.name = some main by
      rw [hname]; exact hmain)
    exact of_decide_eq_true (List.all_eq_true.1 hreads f (hreached.mem hf))
  exact ⟨main, hmain, hdeclared, hsettled hdeclared⟩

end ContractCompiler
