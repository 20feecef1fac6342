import ContractCompiler.Typing.TypeTable

/-!
# The hierarchy of types

A table is built by additions and changes that use types of the table only, so that a structure
extends a type with a smaller number. All that can be asked about the types that a type extends
follows from this, since the way from a type to the one that it extends comes to an end.
-/

namespace ContractCompiler

namespace TypeTable

/-- A type is one of the table. -/
def Has (t : TypeTable) (id : TypeId) : Prop :=
  id.index < t.defs.size

instance (t : TypeTable) (id : TypeId) : Decidable (t.Has id) :=
  inferInstanceAs (Decidable (_ < _))

/-- Tables that are built from the first one with types of the table only, and the types that were
added to them by name, the newest first. -/
inductive Built : TypeTable → List (String × TypeId) → Prop
  | initial : Built .initial
      [("Void", .void), ("Type", .type), ("Bytes", .bytes), ("Uint64", .uint64), ("Any", .any)]
  | addStruct {t : TypeTable} {log : List (String × TypeId)} (name : String)
      (parent : Option TypeId) (fields : List (String × Field)) (h : Built t log)
      (hparent : ∀ p ∈ parent, t.Has p) (hfields : ∀ f ∈ fields, t.Has f.2.type) :
      Built ((addStruct name parent fields).run t).2
        ((name, ((addStruct name parent fields).run t).1) :: log)
  | addEnum {t : TypeTable} {log : List (String × TypeId)} (name : String) (values : List String)
      (h : Built t log) :
      Built ((addEnum name values).run t).2 ((name, ((addEnum name values).run t).1) :: log)
  | arrayOf {t : TypeTable} {log : List (String × TypeId)} (elem index : TypeId) (h : Built t log)
      (helem : t.Has elem) (hindex : t.Has index) :
      Built ((arrayOf elem index).run t).2
        (if (t.lookup? (t.name elem ++ "[]")).isSome then log
        else (t.name elem ++ "[]", ((arrayOf elem index).run t).1) :: log)
  | setAccessor {t : TypeTable} {log : List (String × TypeId)} {id index : TypeId}
      {element : Field} (h : Built t log) (hid : t.Has id) (hindex : t.Has index)
      (helement : t.Has element.type) :
      Built ((setAccessor id index element).run t).2 log

variable {t : TypeTable} {log : List (String × TypeId)} {a b id p base : TypeId} {name : String}

/-! ## Names and parents -/

/-- What a definition says of the place of a type among others: its name and what it extends. -/
def outline (d : TypeDef) : String × Option TypeId :=
  (d.name, match d.kind with
    | .struct s => s.parent
    | _ => none)

theorem parent?_eq (t : TypeTable) (id : TypeId) :
    t.parent? id = ((t.get? id).map outline).bind Prod.snd := by
  rw [parent?, struct?]
  split
  case h_1 hget => rw [hget]; rfl
  case h_2 hget =>
    cases hdef : t.get? id with
    | none => rfl
    | some d =>
      obtain ⟨n, kind⟩ := d
      cases kind with
      | struct s => exact absurd hdef (hget n s)
      | _ => rfl

theorem lookupBelow_congr {t' : TypeTable} :
    ∀ {n : Nat}, (∀ i < n, t.defs[i]?.map outline = t'.defs[i]?.map outline) →
      t.lookupBelow name n = t'.lookupBelow name n
  | 0, _ => rfl
  | n + 1, h => by
    have hname : t.defs[n]?.any (·.name == name) = t'.defs[n]?.any (·.name == name) := by
      have hn := congrArg (Option.any fun o => o.1 == name) (h n n.lt_succ_self)
      rwa [Option.any_map, Option.any_map] at hn
    rw [lookupBelow, lookupBelow, hname,
      lookupBelow_congr fun i hi => h i (Nat.lt_succ_of_lt hi)]

/-- An added type is the last of its name. -/
theorem lookup?_push (d : TypeDef) (name : String) :
    lookup? ⟨t.defs.push d⟩ name =
      if d.name == name then some ⟨t.defs.size⟩ else t.lookup? name := by
  rw [lookup?, Array.size_push, lookupBelow, Array.getElem?_push_size, Option.any_some]
  split
  · rfl
  · refine lookupBelow_congr fun i hi => ?_
    rw [Array.getElem?_push_lt hi, Array.getElem?_eq_getElem hi]

theorem parent?_push (d : TypeDef) (id : TypeId) :
    parent? ⟨t.defs.push d⟩ id =
      if id.index = t.defs.size then (outline d).2 else t.parent? id := by
  rw [parent?_eq, parent?_eq, get?, get?, Array.getElem?_push]
  split <;> rfl

/-- The elements of a type are set if it is a structure. -/
theorem run_setAccessor (t : TypeTable) (id index : TypeId) (element : Field) :
    ((setAccessor id index element).run t).2 = t ∨ ∃ name d, t.get? id = some ⟨name, .struct d⟩ ∧
      ((setAccessor id index element).run t).2 = ⟨t.defs.setIfInBounds id.index
        ⟨name, .struct { d with accessor := some ⟨index, element⟩ }⟩⟩ := by
  have hrun : ∀ f : TypeTable → TypeTable, ((modify f : StateM TypeTable Unit).run t).2 = f t :=
    fun _ => rfl
  unfold setAccessor
  rw [hrun]
  split
  case h_1 name d hget => exact .inr ⟨name, d, hget, rfl⟩
  case h_2 => exact .inl rfl

/-- Elements change neither names nor what types extend. -/
theorem outline_setAccessor {index : TypeId} {element : Field} (i : Nat) :
    ((setAccessor id index element).run t).2.defs[i]?.map outline = t.defs[i]?.map outline := by
  rcases run_setAccessor t id index element with hrun | ⟨name, d, hget, hrun⟩
  · rw [hrun]
  rw [hrun]
  by_cases hi : id.index = i
  · subst hi
    have hlt := (Array.getElem?_eq_some_iff.1 hget).1
    rw [Array.getElem?_setIfInBounds_self_of_lt hlt, show t.defs[id.index]? = _ from hget]
    rfl
  · rw [Array.getElem?_setIfInBounds_ne hi]

theorem size_setAccessor {index : TypeId} {element : Field} :
    ((setAccessor id index element).run t).2.defs.size = t.defs.size := by
  rcases run_setAccessor t id index element with hrun | ⟨name, d, -, hrun⟩
  · rw [hrun]
  · rw [hrun]
    exact Array.size_setIfInBounds

/-! ## What every change keeps -/

/-- Types extend those with smaller numbers, and names are those of the types added last. -/
structure Grounded (t : TypeTable) (log : List (String × TypeId)) : Prop where
  parent_lt : ∀ {id p}, t.parent? id = some p → p.index < id.index
  lookup : ∀ name, t.lookup? name = log.lookup name

theorem Grounded.push {d : TypeDef} (h : t.Grounded log) (hparent : ∀ p ∈ (outline d).2, t.Has p) :
    Grounded ⟨t.defs.push d⟩ ((d.name, ⟨t.defs.size⟩) :: log) where
  parent_lt {id p} hp := by
    rw [parent?_push] at hp
    split at hp
    case isTrue hid => exact hid ▸ hparent p hp
    case isFalse => exact h.parent_lt hp
  lookup name := by
    rw [lookup?_push, List.lookup_cons, h.lookup, Bool.beq_comm]
    cases name == d.name <;> rfl

theorem Grounded.setAccessor {index : TypeId} {element : Field} (h : t.Grounded log) :
    Grounded ((setAccessor id index element).run t).2 log where
  parent_lt {id p} hp := by
    rw [parent?_eq, get?, outline_setAccessor] at hp
    exact h.parent_lt ((parent?_eq t id).trans hp)
  lookup name := by
    rw [lookup?, size_setAccessor, lookupBelow_congr fun i _ => outline_setAccessor i]
    exact h.lookup name

theorem Grounded.empty : Grounded ⟨#[]⟩ [] where
  parent_lt {id p} hp := by
    rw [parent?_eq, get?, Array.getElem?_empty] at hp
    cases hp
  lookup _ := rfl

/-- A type that is no structure extends none. -/
theorem Grounded.pushPlain (h : t.Grounded log) (name : String) (kind : TypeKind)
    (hkind : (outline ⟨name, kind⟩).2 = none) :
    Grounded ⟨t.defs.push ⟨name, kind⟩⟩ ((name, ⟨t.defs.size⟩) :: log) := by
  refine h.push fun p hp => ?_
  rw [hkind] at hp
  cases hp

/-- An array type is added only if there is none of its name. -/
theorem run_arrayOf (t : TypeTable) (elem index : TypeId) :
    ((arrayOf elem index).run t).2 = t ∧ (t.lookup? (t.name elem ++ "[]")).isSome ∨
      t.lookup? (t.name elem ++ "[]") = none ∧ ∃ fields,
        (arrayOf elem index).run t = (⟨t.defs.size⟩,
          ((setAccessor ⟨t.defs.size⟩ index (.var elem)).run
            ((addStruct (t.name elem ++ "[]") none fields).run t).2).2) := by
  have hget : ∀ f : TypeTable → StateM TypeTable TypeId, (get >>= f).run t = (f t).run t :=
    fun _ => rfl
  unfold arrayOf
  rw [hget]
  dsimp only
  cases t.lookup? (t.name elem ++ "[]") with
  | some id => exact .inl ⟨rfl, rfl⟩
  | none => exact .inr ⟨rfl, _, rfl⟩

theorem Built.grounded (h : t.Built log) : t.Grounded log := by
  induction h with
  | initial =>
    have hbasic := ((Grounded.empty.pushPlain "Any" .basic rfl).pushPlain "Uint64" .basic
      rfl).pushPlain "Bytes" .basic rfl
    exact (hbasic.pushPlain "Type" .special rfl).pushPlain "Void" .special rfl
  | addStruct name _ _ _ hparent _ ih => exact ih.push hparent
  | addEnum name values _ ih => exact ih.pushPlain name (.enum values) rfl
  | @arrayOf t _ elem index _ _ _ ih =>
    rcases run_arrayOf t elem index with ⟨hsame, hfound⟩ | ⟨hnone, fields, hrun⟩
    · rw [hsame, if_pos hfound]
      exact ih
    · rw [hrun, hnone]
      exact (ih.pushPlain _ (.struct ⟨none, _, none⟩) rfl).setAccessor
  | setAccessor _ _ _ _ ih => exact ih.setAccessor

/-! ## Ancestors -/

/-- Going from a type to the one that it extends, and so on, passes these types and ends. -/
inductive Chain (t : TypeTable) : TypeId → List TypeId → Prop
  | last {id : TypeId} (h : t.parent? id = none) : Chain t id [id]
  | link {id p : TypeId} {rest : List TypeId} (h : t.parent? id = some p)
      (hrest : Chain t p rest) : Chain t id (id :: rest)

theorem Grounded.chain (h : t.Grounded log) (id : TypeId) : t.Chain id (t.ancestry id) := by
  rw [ancestry]
  split
  case h_1 p hp =>
    have hlt := h.parent_lt hp
    rw [if_pos hlt]
    exact .link hp (h.chain p)
  case h_2 hp => exact .last hp
termination_by id.index

theorem Chain.unique {l l' : List TypeId} (h : t.Chain id l) (h' : t.Chain id l') : l = l' := by
  induction h generalizing l' with
  | last hnone =>
    cases h' with
    | last => rfl
    | link hp => cases hnone.symm.trans hp
  | link hp _ ih =>
    cases h' with
    | last hnone => cases hp.symm.trans hnone
    | link hp' hrest =>
      cases hp.symm.trans hp'
      rw [ih hrest]

/-- The ancestors of an ancestor are the last ones of a type, and have smaller numbers. -/
theorem Grounded.chain_suffix (h : t.Grounded log) {l : List TypeId} (hl : t.Chain id l)
    (ha : a ∈ l) : (∃ l', t.Chain a l' ∧ l' <:+ l) ∧ a.index ≤ id.index := by
  induction hl with
  | last hnone =>
    cases List.mem_singleton.1 ha
    exact ⟨⟨_, .last hnone, List.suffix_refl _⟩, Nat.le_refl _⟩
  | @link id p rest hp hrest ih =>
    rcases List.mem_cons.1 ha with rfl | ha
    · exact ⟨⟨_, .link hp hrest, List.suffix_refl _⟩, Nat.le_refl _⟩
    · obtain ⟨⟨l', hl', hsuffix⟩, hle⟩ := ih ha
      have hlt := h.parent_lt hp
      exact ⟨⟨l', hl', hsuffix.trans (List.suffix_cons id rest)⟩, by omega⟩

theorem Grounded.ancestry_suffix (h : t.Grounded log) (ha : a ∈ t.ancestry id) :
    t.ancestry a <:+ t.ancestry id ∧ a.index ≤ id.index := by
  obtain ⟨⟨l, hl, hsuffix⟩, hle⟩ := h.chain_suffix (h.chain id) ha
  exact ⟨(h.chain a).unique hl ▸ hsuffix, hle⟩

theorem Grounded.self_mem_ancestry (h : t.Grounded log) (id : TypeId) : id ∈ t.ancestry id := by
  generalize hl : t.ancestry id = l
  have hchain := h.chain id
  rw [hl] at hchain
  cases hchain <;> exact List.mem_cons_self

theorem isAssignableFrom_iff : t.isAssignableFrom a b ↔ a = .any ∨ a ∈ t.ancestry b := by
  rw [isAssignableFrom, Bool.or_eq_true, beq_iff_eq, List.contains_iff_mem]

/-- Only the type of all values can be used in place of any value. -/
theorem Grounded.eq_any (h : t.Grounded log) (ha : t.isAssignableFrom a .any) : a = .any := by
  rcases isAssignableFrom_iff.1 ha with rfl | ha
  · rfl
  · cases a
    cases Nat.le_zero.1 (h.ancestry_suffix ha).2
    rfl

theorem Grounded.isAssignableFrom_trans (h : t.Grounded log) {c : TypeId}
    (hab : t.isAssignableFrom a b) (hbc : t.isAssignableFrom b c) : t.isAssignableFrom a c := by
  rcases isAssignableFrom_iff.1 hbc with rfl | hmem
  · exact isAssignableFrom_iff.2 (.inl (h.eq_any hab))
  · exact isAssignableFrom_iff.2 ((isAssignableFrom_iff.1 hab).imp_right fun ha =>
      (h.ancestry_suffix hmem).1.subset ha)

theorem Grounded.isAssignableFrom_antisymm (h : t.Grounded log) (hab : t.isAssignableFrom a b)
    (hba : t.isAssignableFrom b a) : a = b := by
  rcases isAssignableFrom_iff.1 hab with rfl | ha
  · exact (h.eq_any hba).symm
  rcases isAssignableFrom_iff.1 hba with rfl | hb
  · exact h.eq_any hab
  · have hle := (h.ancestry_suffix ha).2
    have hge := (h.ancestry_suffix hb).2
    cases a
    cases b
    exact congrArg TypeId.mk (Nat.le_antisymm hle hge)

/-- The member that a type declares itself. -/
def own? (t : TypeTable) (id : TypeId) (name : String) : Option Field :=
  (t.struct? id).bind (·.fields.lookup name)

/-- Members are inherited, from the nearest type that declares them. -/
theorem Grounded.member?_inherited (h : t.Grounded log) (hbase : base ≠ .any)
    (hfrom : t.isAssignableFrom base id) (hmember : (t.member? base name).isSome) :
    ∃ nearer a further f, t.ancestry id = nearer ++ a :: further ∧
      (∀ b ∈ nearer, t.own? b name = none) ∧ t.own? a name = some f ∧
      t.member? id name = some f := by
  have hmem := (isAssignableFrom_iff.1 hfrom).resolve_left hbase
  have hsome : (t.member? id name).isSome := by
    rw [member?, List.isSome_findSome?, List.any_eq_true] at hmember ⊢
    obtain ⟨a, ha, hown⟩ := hmember
    exact ⟨a, (h.ancestry_suffix hmem).1.subset ha, hown⟩
  obtain ⟨f, hf⟩ := Option.isSome_iff_exists.1 hsome
  obtain ⟨nearer, a, further, heq, hown, hnone⟩ := List.findSome?_eq_some_iff.1 hf
  exact ⟨nearer, a, further, f, heq, hnone, hown, hf⟩

theorem isCompatible_self (a : TypeId) : t.isCompatible a a := by
  unfold isCompatible
  split
  case isTrue h => rw [h]; rfl
  case isFalse => exact beq_self_eq_true a

theorem isCompatible_comm (a b : TypeId) : t.isCompatible a b = t.isCompatible b a := by
  unfold isCompatible
  by_cases ha : a = .any <;> by_cases hb : b = .any
  · rw [ha, hb]
  · rw [if_pos ha, if_neg hb, if_pos ha]
  · rw [if_neg ha, if_pos hb, if_pos hb]
  · rw [if_neg ha, if_neg hb, if_neg hb, if_neg ha, Bool.beq_comm]

/-- What holds of the types of a table in which the types `log` were added, the newest first. -/
structure Hierarchy (t : TypeTable) (log : List (String × TypeId)) : Prop where
  parent_lt : ∀ id p, t.parent? id = some p → p.index < id.index
  chain : ∀ id, t.Chain id (t.ancestry id)
  refl : ∀ a, t.isAssignableFrom a a
  trans : ∀ a b c, t.isAssignableFrom a b → t.isAssignableFrom b c → t.isAssignableFrom a c
  antisymm : ∀ a b, t.isAssignableFrom a b → t.isAssignableFrom b a → a = b
  top : ∀ a, t.isAssignableFrom .any a
  /-- A member of a type is one of all that extend it, where the nearest declaration counts. -/
  inherited : ∀ base id name, base ≠ .any → t.isAssignableFrom base id →
    (t.member? base name).isSome → ∃ nearer a further f, t.ancestry id = nearer ++ a :: further ∧
      (∀ b ∈ nearer, t.own? b name = none) ∧ t.own? a name = some f ∧ t.member? id name = some f
  compatible_refl : ∀ a, t.isCompatible a a
  compatible_symm : ∀ a b, t.isCompatible a b → t.isCompatible b a
  newest : ∀ name, t.lookup? name = log.lookup name

/-- The types of every table that is built form a hierarchy. -/
theorem Built.hierarchy (h : t.Built log) : t.Hierarchy log where
  parent_lt _ _ := h.grounded.parent_lt
  chain := h.grounded.chain
  refl a := isAssignableFrom_iff.2 (.inr (h.grounded.self_mem_ancestry a))
  trans _ _ _ := h.grounded.isAssignableFrom_trans
  antisymm _ _ := h.grounded.isAssignableFrom_antisymm
  top _ := isAssignableFrom_iff.2 (.inl rfl)
  inherited _ _ _ := h.grounded.member?_inherited
  compatible_refl := isCompatible_self
  compatible_symm a b hab := isCompatible_comm a b ▸ hab
  newest := h.grounded.lookup

/-- A structure, one that extends it, one of the name of the first, and an array of those. -/
theorem Built.hierarchy_again : ∃ t log,
    Built t (("A[]", ⟨8⟩) :: ("A", ⟨7⟩) :: ("B", ⟨6⟩) :: ("A", ⟨5⟩) :: log) ∧
      t.Hierarchy (("A[]", ⟨8⟩) :: ("A", ⟨7⟩) :: ("B", ⟨6⟩) :: ("A", ⟨5⟩) :: log) ∧
      t.parent? ⟨6⟩ = some ⟨5⟩ := by
  have hfirst := Built.initial.addStruct "A" none [("Fee", .var .uint64)] (by simp) (by decide)
  have hsecond := hfirst.addStruct "B" (some ⟨5⟩) [] (fun p hp => by cases hp; decide) (by decide)
  have hagain := hsecond.addStruct "A" none [] (by simp) (by decide)
  have harray := hagain.arrayOf ⟨7⟩ .uint64 (by decide) (by decide)
  exact ⟨_, _, harray, harray.hierarchy, rfl⟩

end TypeTable

end ContractCompiler
