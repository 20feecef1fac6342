import ContractCompiler.Proofs.Lowering.Sites
import ContractCompiler.Proofs.Typing.Definite

/-!
# Types and what is known of values

The analysis gives types to places and to values. The code knows of a value only whether it is an
integer or a byte string, or not even that.
-/

namespace ContractCompiler

open Lower
open TypeTable (isBasic isInteger)

variable {S : Setting} {names : List String} {cs cs' cs₁ : CheckState} {τ τl τr : TypeId}
  {k kl kr : StackType}

/-! ## Types and what is known of values -/

/-- What is known for a byte string has the type of byte strings. -/
def TypeId.Admits (τ : TypeId) (k : StackType) : Prop :=
  k = .bytes → τ = .bytes

theorem TypeId.admits_uint64 : τ.Admits .uint64 := by
  rintro ⟨⟩

theorem TypeId.Admits.ne_bytes (h : τ.Admits k) (hτ : τ ≠ .bytes) : k ≠ .bytes :=
  fun hk => hτ (h hk)

theorem TypeTable.ne_bytes_of_isInteger (h : isInteger τ) : τ ≠ .bytes := by
  rintro rfl
  exact absurd h (by decide)

/-- What can stand for byte strings has their type, or can be anything. -/
theorem TypeTable.eq_bytes_of_isCompatible {t : TypeTable} (h : t.isCompatible τ .bytes)
    (hany : τ ≠ .any) : τ = .bytes := by
  rw [isCompatible, if_neg hany, if_neg (by decide)] at h
  exact eq_of_beq h

/-- A choice is taken for a byte string if both of its arms are. -/
theorem TypeId.Admits.choice (hl : τl.Admits kl) (hr : τr.Admits kr) :
    (if τl = .any then τr else τl).Admits (kr.join kl) := by
  intro hk
  unfold StackType.join at hk
  split at hk
  case isFalse => cases hk
  case isTrue heq =>
    subst heq
    rw [hl hk, hr hk]
    rfl

/-- The result of an operator is taken for a byte string if one of its operands is. -/
theorem TypeId.Admits.operator {o : BinaryOperator} {t : TypeTable} (hl : τl.Admits kl)
    (hr : τr.Admits kr) (hcompat : t.isCompatible τl τr)
    (hkept : τr = .bytes → (if o.isComparison || o.isLogical then .uint64 else τl) ≠ .any) :
    (if o.isComparison || o.isLogical then .uint64 else τl : TypeId).Admits
      (o.resultOf kl kr) := by
  intro hk
  unfold BinaryOperator.resultOf at hk
  split at hk
  case isTrue => cases hk
  case isFalse hop =>
    rw [if_neg hop] at hkept ⊢
    by_cases hleft : kl = .bytes
    · exact hl hleft
    · have hright : kr = .bytes := by
        by_contra hright
        rw [if_pos ⟨hleft, hright⟩] at hk
        cases hk
      have hbytes := hr hright
      rw [hbytes] at hcompat
      exact TypeTable.eq_bytes_of_isCompatible hcompat (hkept hbytes)

/-! ## Variables that can hold anything -/

namespace CheckState.HoldsAny

variable {n m : String}

/-- Where nothing is assigned, no variable comes up. -/
theorem of_grows {types : TypeTable} (h : Scopes.Grows types cs.scopes cs'.scopes [])
    (hn : cs'.HoldsAny n) : cs.HoldsAny n := by
  obtain ⟨f, hf, hany⟩ := Option.map_eq_some_iff.1 hn
  rcases h.known hf with hbefore | ⟨hmem, -⟩
  · exact Option.map_eq_some_iff.2 ⟨f, hbefore, hany⟩
  · cases hmem

theorem of_declare (h : cs'.HoldsAny m) (hscopes : cs'.scopes = cs.scopes.declare n (.var τ)) :
    (m = n ∧ τ = .any) ∨ cs.HoldsAny m := by
  obtain ⟨f, hf, hany⟩ := Option.map_eq_some_iff.1 h
  rw [hscopes] at hf
  rcases Scopes.lookupFrames_of_declare hf with ⟨rfl, rfl⟩ | hbefore
  · exact .inl ⟨rfl, hany⟩
  · exact .inr (Option.map_eq_some_iff.2 ⟨f, hbefore, hany⟩)

theorem of_scopes (h : cs'.HoldsAny n)
    (hscopes : cs'.scopes = cs.scopes) : cs.HoldsAny n := by
  unfold HoldsAny at h ⊢
  rwa [hscopes] at h

end CheckState.HoldsAny

/-! ## Built-in names -/

theorem Builtin.isValue_cases (h : checkedTypes.isValue τ) :
    τ = .any ∨ τ = .uint64 ∨ τ = .bytes ∨ checkedTypes.isEnum τ := by
  simpa [TypeTable.isValue, TypeTable.isBasic, or_assoc] using h

/-- The result of a cast has the type that it is cast to. -/
theorem castResult_eq (h : Builtin.checkedTypes.isValue τ) :
    castResult τ = Builtin.stackType τ := by
  unfold castResult Builtin.stackType
  by_cases hb : τ = .bytes
  · subst hb
    rfl
  by_cases ha : τ = .any
  · subst ha
    exact Builtin.stackType_any.symm
  rcases Builtin.isValue_cases h with rfl | rfl | rfl | henum
  · exact absurd rfl ha
  · rfl
  · exact absurd rfl hb
  · simp [ha, hb, henum]

/-- Of a value that cannot be anything, something is known. -/
theorem Builtin.stackType_ne_any (h : checkedTypes.isValue τ) (hany : τ ≠ .any) :
    stackType τ ≠ .any := by
  rw [← castResult_eq h, castResult, if_neg hany]
  split <;> decide

/-- In an application, built-in names of values are constants. -/
theorem Builtin.constant?_isSome {mode : Mode} {n : String} {f : Field} {entry : Entry}
    (h : (Builtin.scopes mode).root.lookup n = some f) (hvalue : checkedTypes.isValue f.type)
    (hentry : entry.isApplication = true) : (Lower.constant? entry n).isSome := by
  have hsame : Lower.constant? entry n = Lower.constant? .approval n := by
    cases entry with
    | signature => cases hentry
    | _ => rfl
  rw [hsame]
  exact (constant?_roots _ (mem_roots h)).2 hvalue

/-- Only values of the type of byte strings are known for such. -/
theorem Builtin.eq_bytes_of_stackType (h : stackType τ = .bytes) : τ = .bytes := by
  by_contra hne
  rw [stackType, if_neg hne] at h
  split at h
  · cases h
  · split at h <;> cases h

/-- There is code for casts to types of values. -/
theorem Builtin.isCastable_of_isValue (h : checkedTypes.isValue τ) : isCastable τ := by
  rcases isValue_cases h with rfl | rfl | rfl | henum
  · exact .inr (.inr (.inl rfl))
  · exact .inl rfl
  · exact .inr (.inl rfl)
  · exact .inr (.inr (.inr ((kind_of_isValue h).2 henum)))

/-- A name of a hash algorithm has code. -/
theorem Lower.hashOpcode?_isSome {e : Expr} (h : e.namesHash = true) :
    (hashOpcode? e).isSome := by
  have hvalues : ∀ n ∈ Builtin.hashValues, ∀ span,
      (hashOpcode? (.var (.name n span))).isSome := by
    intro n hn span
    simp only [Builtin.hashValues, List.mem_cons, List.not_mem_nil, or_false] at hn
    rcases hn with rfl | rfl | rfl <;> rfl
  unfold Expr.namesHash at h
  obtain ⟨n, hn, hmem⟩ := Option.any_eq_true _ _ |>.1 h
  obtain ⟨span, rfl⟩ := Expr.eq_name_of_asName? hn
  exact hvalues n (List.contains_iff_mem.1 hmem) span

/-! ## The types of places -/

/-- The type that a step leads to from a type. -/
def Step.type? {ι : Type} (τ : TypeId) : Step ι → Option TypeId
  | .name m => (Builtin.checkedTypes.member? τ m).map Field.type
  | .index _ => (Builtin.checkedTypes.accessor? τ).map fun a => a.element.type

/-- The type of a place is the one that its steps lead to from the name that it starts with. -/
theorem Variable.check_steps : ∀ {v : Variable} {cs cs' : CheckState} {f : Field},
    v.check S.check cs = .ok (f, cs') → ∃ g rest, cs.scopes.lookup? v.root = some g ∧
      v.steps = .name v.root :: rest ∧ rest.foldlM Step.type? g.type = some f.type
  | .name n span, cs, cs', f, h => ⟨f, [], (check_name h).1, rfl, rfl⟩
  | .index base i span, cs, cs', f, h => by
    obtain ⟨g, a, cs₁, τ, hbase, ha, -, -, rfl, -⟩ := check_index h
    obtain ⟨g', rest, hroot, hsteps, htype⟩ := Variable.check_steps hbase
    rw [S.types_eq] at ha
    refine ⟨g', rest ++ [.index i], hroot, by rw [Variable.steps, hsteps]; rfl, ?_⟩
    rw [List.foldlM_append, htype]
    simp [Step.type?, ha, Field.inside]
  | .member owner m span, cs, cs', f, h => by
    obtain ⟨g, g'', howner, hm, rfl⟩ := check_member h
    obtain ⟨g', rest, hroot, hsteps, htype⟩ := Variable.check_steps howner
    rw [S.types_eq] at hm
    refine ⟨g', rest ++ [.name m], hroot, by rw [Variable.steps, hsteps]; rfl, ?_⟩
    rw [List.foldlM_append, htype]
    simp [Step.type?, hm, Field.inside]

/-- Whether a step is a name. -/
def Step.isName {ι : Type} : Step ι → Bool
  | .name _ => true
  | .index _ => false

/-- The places that can be read, and the transactions of the group, whose type can be tested: the
name that they start with, the steps from there, and what is known of the value. -/
def Load.places : List (String × List (Step Unit) × StackType) :=
  ("TxnGroup", [.index ()], .any) :: List.flatten
    [ ["Balance", "MinBalance"].map fun f =>
        ("Txn", [.name "Accounts", .index (), .name f], .uint64),
      LedgerArray.all.map fun a => ("Txn", [.name a.member, .name "len"], .uint64),
      LedgerArray.all.map fun a => ("Txn", [.name a.member, .index ()], a.type),
      LedgerField.transaction.map fun x => ("Txn", [.name x.member], x.type),
      LedgerField.transaction.map fun x => ("TxnGroup", [.index (), .name x.member], x.type),
      LedgerField.global.map fun x => ("Global", [.name x.member], x.type),
      LedgerField.currentApplication.map fun x =>
        ("Global", [.name "CurrentApplication", .name x.member], x.type),
      [("Txn", [.name "Scratch", .index ()], .any), ("TxnGroup", [.name "len"], .uint64),
        ("args", [.name "len"], .uint64), ("args", [.index ()], .bytes)]]

/-- The names that places start with, and their types. -/
def Load.roots : List (String × TypeId) :=
  [("Txn", Builtin.ids.appCall), ("TxnGroup", Builtin.withGroup.1),
    ("Global", Builtin.ids.global), ("args", Builtin.ids.bytesArray)]

/-- The names that places start with have the same types in all modes. From there, the types of
places show on the stack, and where the first names of a place lead to something with elements,
those are numbered. -/
theorem Builtin.type_roots : (∀ entry ∈ [Entry.approval, .signature], ∀ root ∈ Load.roots,
      ((scopes (.single entry)).root.lookup root.1).map Field.type = some root.2) ∧
    ∀ row ∈ Load.places, ∃ root ∈ Load.roots, root.1 = row.1 ∧
      (∀ τ ∈ row.2.1.foldlM Step.type? root.2, checkedTypes.isValue τ → row.2.2 = stackType τ) ∧
      ∀ τ ∈ (row.2.1.takeWhile Step.isName).foldlM Step.type? root.2,
        ∀ a ∈ checkedTypes.accessor? τ, a.index = .uint64 := by
  decide +kernel

theorem Builtin.lookup_roots (mode : Mode) : ∀ root ∈ Load.roots,
    ((scopes mode).root.lookup root.1).map Field.type = some root.2 := by
  rw [scopes_eq]
  exact type_roots.1 _ (by split <;> simp)

theorem LedgerField.mem_of_find? {table : List LedgerField} {m : String} {x : LedgerField}
    (h : find? table m = some x) : x ∈ table ∧ x.member = m :=
  ⟨List.mem_of_find?_eq_some h, by simpa using List.find?_some h⟩

theorem LedgerArray.mem_of_find? {m : String} {a : LedgerArray} (h : find? m = some a) :
    a ∈ all ∧ a.member = m :=
  ⟨List.mem_of_find?_eq_some h, by simpa using List.find?_some h⟩

theorem Reading.type_indexed {i : Expr} {direct computed : Opcode} {before after : List Operand}
    {type : StackType} : (indexed i direct computed before after type).type = type := by
  unfold indexed
  split <;> rfl

theorem Reading.type_ofTransaction? {steps : List (Step Expr)} {r : Reading}
    (hr : ofTransaction? steps = some r) : r.type = .uint64 := by
  unfold ofTransaction? at hr
  split at hr <;> cases hr
  · rfl
  · exact type_indexed

/-- Every place that is read is one that can be. -/
theorem Reading.mem_places {entry : Entry} {n : String} {rest : List (Step Expr)}
    {load : Load Expr} {r : Reading} (hload : Load.ofSteps? (.name n :: rest) = some load)
    (hr : ofLoad? entry load = some r) :
    (n, rest.map (Step.map fun _ => ()), r.type) ∈ Load.places := by
  refine List.mem_cons_of_mem _ ?_
  cases Load.serves hload with
  | named => cases hr
  | @account f i c hc =>
    cases hr
    have hf : f ∈ ["Balance", "MinBalance"] := by
      unfold Load.accountOpcode? at hc
      split at hc <;> cases hc <;> simp
    exact List.mem_flatten.2 ⟨_, List.mem_of_getElem? (i := 0) rfl, List.mem_map_of_mem hf⟩
  | count ha =>
    obtain ⟨hmem, rfl⟩ := LedgerArray.mem_of_find? ha
    cases hr
    exact List.mem_flatten.2 ⟨_, List.mem_of_getElem? (i := 1) rfl, List.mem_map_of_mem hmem⟩
  | scratch =>
    cases hr
    rw [type_indexed]
    exact List.mem_flatten.2 ⟨_, List.mem_of_getElem? (i := 7) rfl, .head _⟩
  | element ha =>
    obtain ⟨hmem, rfl⟩ := LedgerArray.mem_of_find? ha
    cases hr
    rw [element, type_indexed]
    exact List.mem_flatten.2 ⟨_, List.mem_of_getElem? (i := 2) rfl, List.mem_map_of_mem hmem⟩
  | transaction hx =>
    obtain ⟨hmem, rfl⟩ := LedgerField.mem_of_find? hx
    cases hr
    exact List.mem_flatten.2 ⟨_, List.mem_of_getElem? (i := 3) rfl, List.mem_map_of_mem hmem⟩
  | currentApplication hx =>
    obtain ⟨hmem, rfl⟩ := LedgerField.mem_of_find? hx
    cases hr
    exact List.mem_flatten.2 ⟨_, List.mem_of_getElem? (i := 6) rfl, List.mem_map_of_mem hmem⟩
  | global hx =>
    obtain ⟨hmem, rfl⟩ := LedgerField.mem_of_find? hx
    cases hr
    exact List.mem_flatten.2 ⟨_, List.mem_of_getElem? (i := 5) rfl, List.mem_map_of_mem hmem⟩
  | groupSize =>
    cases hr
    exact List.mem_flatten.2 ⟨_, List.mem_of_getElem? (i := 7) rfl, .tail _ (.head _)⟩
  | group hx =>
    obtain ⟨hmem, rfl⟩ := LedgerField.mem_of_find? hx
    cases hr
    rw [type_indexed]
    exact List.mem_flatten.2 ⟨_, List.mem_of_getElem? (i := 4) rfl, List.mem_map_of_mem hmem⟩
  | argumentCount =>
    obtain ⟨-, hr⟩ := Option.ite_none_right_eq_some.1 hr
    cases hr
    exact List.mem_flatten.2 ⟨_, List.mem_of_getElem? (i := 7) rfl, .tail _ (.tail _ (.head _))⟩
  | @argument i =>
    cases hr
    have htype : (if entry.isApplication then element .arguments i
        else indexed i .arg .args [] [] .bytes).type = .bytes := by
      split
      · rw [element, type_indexed]
        rfl
      · rw [type_indexed]
    rw [htype]
    exact List.mem_flatten.2 ⟨_, List.mem_of_getElem? (i := 7) rfl,
      .tail _ (.tail _ (.tail _ (.head _)))⟩

theorem Step.type?_map {ι κ : Type} (g : ι → κ) (s : Step ι) :
    (s.map g).type? τ = s.type? τ := by
  cases s <;> rfl

/-- The name that a place starts with has its built-in type, if it is more than a name. -/
theorem Scopes.Fits.root_type {v : Variable} {f g : Field}
    (hΓ : cs.scopes.Fits S.check.mode names) (hv : v.check S.check cs = .ok (f, cs'))
    (hmore : ∀ n span, v ≠ .name n span) (hroot : cs.scopes.lookup? v.root = some g)
    (hmem : (v.root, τ) ∈ Load.roots) : g.type = τ := by
  have hnot : v.root ∉ names := by
    intro hn
    obtain ⟨n, span, hname⟩ := (hΓ.root_of_check hv).2 hn
    exact hmore n span hname
  have hlookup := Builtin.lookup_roots S.check.mode _ hmem
  rw [← (hΓ.lookup?_of_not_mem hnot).2, hroot] at hlookup
  exact Option.some.inj hlookup

/-- Places of types of values are read with their types. -/
theorem Reading.type_eq {entry : Entry} {v : Variable} {load : Load Expr} {r : Reading} {f : Field}
    (hΓ : cs.scopes.Fits S.check.mode names) (hv : v.check S.check cs = .ok (f, cs'))
    (hload : Load.ofSteps? v.steps = some load) (hr : ofLoad? entry load = some r)
    (hvalue : Builtin.checkedTypes.isValue f.type) : r.type = Builtin.stackType f.type := by
  obtain ⟨g, rest, hroot, hsteps, htype⟩ := v.check_steps hv
  rw [hsteps] at hload
  obtain ⟨⟨m, σ⟩, hmem, rfl, hrow, -⟩ := Builtin.type_roots.2 _ (mem_places hload hr)
  have hmore : ∀ n span, v ≠ .name n span := by
    rintro n span rfl
    cases hsteps
    cases hload
    cases hr
  obtain rfl := hΓ.root_type hv hmore hroot hmem
  refine hrow _ ?_ hvalue
  rw [List.foldlM_map]
  simp only [Step.type?_map]
  exact htype

/-! ## Indexes of places -/

/-- What stands before the last index of a place. -/
theorem Variable.steps_of_index? : ∀ {v base : Variable} {i : Expr}, v.index? = some (base, i) →
    v.root = base.root ∧ ∃ after, v.steps = base.steps ++ .index i :: after
  | .index base i _, _, _, rfl => ⟨rfl, [], rfl⟩
  | .member owner m _, base, i, h => by
    obtain ⟨hroot, after, hsteps⟩ := Variable.steps_of_index? (v := owner) h
    refine ⟨hroot, after ++ [.name m], ?_⟩
    rw [steps, hsteps, List.append_assoc]
    rfl

/-- The index of a place that is read is no byte string. -/
theorem Variable.Sited.index_type {v base : Variable} {i : Expr} {f : Field} {n : String}
    {rest : List (Step Expr)} (hv : v.Sited S names cs cs' f) (hi : v.index? = some (base, i))
    (hbase : base.indexes = []) (hsteps : v.steps = .name n :: rest)
    (hrow : (n, rest.map (Step.map fun _ => ()), k) ∈ Load.places) :
    ∃ g cs₁ τ, base.check S.check cs = .ok (g, cs₁) ∧ i.Sited S names cs₁ cs' τ ∧ τ ≠ .void ∧
      τ ≠ .bytes := by
  obtain ⟨g, cs₁, τ, hcheck, hsite, hvoid, a, ha, hsuits⟩ := hv.index hi
  refine ⟨g, cs₁, τ, hcheck, hsite, hvoid, ?_⟩
  obtain ⟨hroot, after, hsplit⟩ := v.steps_of_index? hi
  obtain ⟨g', before, hlookup, hbefore, htype⟩ := base.check_steps hcheck
  rw [hsteps, hbefore, ← hroot, List.cons_append, List.cons.injEq, Step.name.injEq] at hsplit
  obtain ⟨rfl, rfl⟩ := hsplit
  obtain ⟨⟨m, σ⟩, hmem, rfl, -, hindex⟩ := Builtin.type_roots.2 _ hrow
  have hmore : ∀ n span, v ≠ .name n span := by
    rintro n span rfl
    cases hi
  obtain rfl := hv.fits.root_type hv.check hmore (hroot ▸ hlookup) hmem
  -- All steps before the index are names, so they are the ones that the table looks at.
  have hnames : ∀ s ∈ before.map (Step.map fun _ => ()), Step.isName s = true := by
    intro s hs
    obtain ⟨s', hs', rfl⟩ := List.mem_map.1 hs
    cases s' with
    | name => rfl
    | index j =>
      have hj : j ∈ base.indexes := by
        rw [Variable.indexes, hbefore]
        exact List.mem_filterMap.2 ⟨.index j, List.mem_cons_of_mem _ hs', rfl⟩
      rw [hbase] at hj
      cases hj
  rw [S.types_eq] at ha hsuits
  have hnumber : a.index = .uint64 := by
    refine hindex g.type ?_ a ha
    rw [List.map_append, List.takeWhile_append_of_pos hnames]
    show (before.map (Step.map fun _ => ()) ++ []).foldlM Step.type? g'.type = some g.type
    rw [List.append_nil, List.foldlM_map]
    simp only [Step.type?_map]
    exact htype
  rw [hnumber] at hsuits
  rintro rfl
  have hancestry : Builtin.checkedTypes.ancestry .bytes = [.bytes] :=
    Builtin.ancestry_of_isValue rfl
  rw [TypeTable.isAssignableFrom, hancestry] at hsuits
  rcases hsuits with hcompat | hassign
  · rw [TypeTable.isCompatible, if_neg (by decide), if_neg (by decide)] at hcompat
    exact absurd hcompat (by decide)
  · exact absurd hassign (by decide)

namespace Reading

theorem mode_indexed {i : Expr} {direct computed : Opcode} {before after : List Operand}
    {type : StackType} (hd : direct.mode ≠ .signature) (hc : computed.mode ≠ .signature) :
    (indexed i direct computed before after type).code.mode ≠ .signature := by
  unfold indexed
  split
  · exact hd
  · exact hc

/-- What an application reads, it reads with operations that it has. -/
theorem mode_ofLoad? {entry : Entry} {steps : List (Step Expr)} {load : Load Expr} {r : Reading}
    (happ : entry.isApplication = true) (hload : Load.ofSteps? steps = some load)
    (hr : ofLoad? entry load = some r) : r.code.mode ≠ .signature := by
  cases load with
  | named n => cases hr
  | field c f t =>
    cases hr
    rcases Load.field_code hload with rfl | rfl <;> exact nofun
  | account c i =>
    cases hr
    rcases Load.account_code hload with rfl | rfl <;> exact nofun
  | element a i | scratch i | group i f =>
    cases hr
    exact mode_indexed (by decide) (by decide)
  | argumentCount =>
    rw [ofLoad?, if_pos happ] at hr
    cases hr
    decide
  | argument i =>
    rw [ofLoad?, if_pos happ] at hr
    cases hr
    exact mode_indexed (by decide) (by decide)

theorem mode_ofTransaction? {steps : List (Step Expr)} {r : Reading}
    (hr : ofTransaction? steps = some r) : r.code.mode ≠ .signature := by
  unfold ofTransaction? at hr
  split at hr <;> cases hr
  · decide
  · exact mode_indexed (by decide) (by decide)

/-- The type of a transaction can be read. -/
theorem ofTransaction?_isSome {v : Variable} (h : (Expr.var v).isTransaction = true) :
    (ofTransaction? v.steps).isSome := by
  unfold Expr.isTransaction at h
  unfold ofTransaction?
  dsimp only at h
  split at h
  case h_1 heq => simp [heq]
  case h_2 heq => simp [heq]
  case h_3 => cases h

/-- An index is computed for the type of a transaction only if it is one of the group. -/
theorem steps_of_ofTransaction? {steps : List (Step Expr)} {r : Reading} {i : Expr}
    (hr : ofTransaction? steps = some r) (hi : r.index = some i) :
    steps = [.name "TxnGroup", .index i] := by
  unfold ofTransaction? at hr
  split at hr <;> cases hr
  · cases hi
  · rw [indexed_index hi]

/-- Operations with an index take what is no byte string. -/
theorem indexedCodes_suit {c : Opcode} (hc : c ∈ indexedCodes) (hk : k ≠ .bytes) :
    StackEffect.checkTypes c c.pops [k] 1 = .ok () := by
  have hpops : ∀ c ∈ indexedCodes, c.pops = [.uint64] ∨ c.pops = [.any] := by decide
  rcases hpops c hc with h | h <;> rw [h]
  · cases k with
    | bytes => exact absurd rfl hk
    | _ => rfl
  · cases k <;> rfl

end Reading

/-! ## Names -/

/-- A name of the layout that can be read: what is known of its value is what its type admits. -/
theorem Variable.Sited.admits {n : String} {span : Span} {f : Field} {s : LowerState}
    (hplace : (Variable.name n span).Sited S names cs cs' f) (hn : n ∈ names)
    (hbytes : S.held .bytes) (hs : cs.HoldsAny n → s.Tame n)
    (hknown : ∀ κ, S.lower.localType? span.start = some κ → κ ≠ .any → k = κ)
    (htame : S.lower.localType? span.start = some .any → s.Tame n → k ≠ .bytes) :
    f.type.Admits k := by
  obtain ⟨hf, hcs'⟩ := check_name hplace.check
  obtain ⟨σ, rfl, hvalue⟩ := hplace.fits.of_mem hn hf
  have hnoted := hplace.noted.same hbytes span.start (by simp)
  rw [hcs', if_neg (show ¬(Field.var σ).constReference from Bool.false_ne_true),
    Std.TreeMap.getElem?_insert_self, S.stackType_eq] at hnoted
  rintro rfl
  by_cases hany : σ = .any
  · have hholds : cs.HoldsAny n := by
      obtain ⟨g, hg⟩ := Option.isSome_iff_exists.1 (hplace.fits.isLocal hn hf)
      rw [Scopes.lookup?, hg] at hf
      cases hf
      exact Option.map_eq_some_iff.2 ⟨_, hg, hany⟩
    rw [hany] at hnoted
    exact absurd rfl (htame hnoted (hs hholds))
  · have hstack := hknown _ hnoted (Builtin.stackType_ne_any hvalue hany)
    exact Builtin.eq_bytes_of_stackType hstack.symm

/-- What names a type when it is looked at is found to do so. -/
theorem Expr.namesType_eq_true {n : String} {span : Span}
    (h : (cs.scopes.lookup? n).map Field.type = some .type) :
    (Expr.var (.name n span)).namesType cs = true := by
  obtain ⟨f, hf, hftype⟩ := Option.map_eq_some_iff.1 h
  simp [Expr.namesType, Expr.asName?, hf, hftype]

/-- An operand with a value named no type before the operand to its left, either. -/
theorem Expr.Sited.namesType_eq_false {r : Expr} (hr : r.Sited S names cs₁ cs' τr)
    (hΓ : cs.scopes.Fits S.check.mode names) (hvalue : Builtin.checkedTypes.isValue τr) :
    r.namesType cs = false := by
  unfold Expr.namesType
  cases hn : r.asName? with
  | none => rfl
  | some n =>
    obtain ⟨span, rfl⟩ := Expr.eq_name_of_asName? hn
    obtain ⟨f, hplace, rfl, -⟩ := hr.place
    by_contra htype
    have htype : (cs.scopes.lookup? n).map Field.type = some .type := by
      cases hlookup : cs.scopes.lookup? n <;> simp_all
    -- A built-in name is the same thing in both states.
    have hnot := hΓ.not_mem_of_type htype
    rw [(hΓ.lookup?_of_not_mem hnot).2, ← (hr.fits.lookup?_of_not_mem hnot).2,
      (check_name hplace.check).1] at htype
    exact Builtin.not_isValue (.inl (Option.some.inj htype)) hvalue

end ContractCompiler
