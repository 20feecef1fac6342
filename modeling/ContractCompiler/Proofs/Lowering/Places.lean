import ContractCompiler.Proofs.Lowering.Operations

/-!
# The code that reads places

A place is read in the way its steps tell. The analysis goes by steps with expressions as indexes,
the code by the same steps with the code of those, and both find the same way.
-/

namespace ContractCompiler

variable {ι κ : Type}

/-- A step with its index replaced. -/
def Step.map (f : ι → κ) : Step ι → Step κ
  | .name n => .name n
  | .index i => .index (f i)

/-- A way to read a place with its index replaced. -/
def Load.map (f : ι → κ) : Load ι → Load κ
  | .named n => .named n
  | .field op n type => .field op n type
  | .account op i => .account op (f i)
  | .element a i => .element a (f i)
  | .scratch i => .scratch (f i)
  | .group i x => .group (f i) x
  | .argumentCount => .argumentCount
  | .argument i => .argument (f i)

theorem Step.map_eq_name {f : ι → κ} {x : Step ι} {n : String} :
    x.map f = .name n ↔ x = .name n := by
  cases x <;> simp [Step.map]

theorem Step.map_eq_index {f : ι → κ} {x : Step ι} {j : κ} :
    x.map f = .index j ↔ ∃ i, x = .index i ∧ f i = j := by
  cases x <;> simp [Step.map]

theorem Step.map_comp {μ : Type} (g : κ → μ) (f : ι → κ) :
    Step.map g ∘ Step.map f = Step.map (g ∘ f) := by
  funext x
  cases x <;> rfl

/-- `Load.Serves steps load`: a place of the steps `steps` is read in the way `load`. -/
inductive Load.Serves : List (Step ι) → Load ι → Prop where
  | named {n} : Serves [.name n] (.named n)
  | account {f i c} (hc : accountOpcode? f = some c) :
    Serves [.name "Txn", .name "Accounts", .index i, .name f] (.account c i)
  | count {m a} (ha : LedgerArray.find? m = some a) :
    Serves [.name "Txn", .name m, .name "len"] (.field .txn a.count .uint64)
  | scratch {i} : Serves [.name "Txn", .name "Scratch", .index i] (.scratch i)
  | element {m i a} (ha : LedgerArray.find? m = some a) :
    Serves [.name "Txn", .name m, .index i] (.element a i)
  | transaction {f x} (hx : LedgerField.find? LedgerField.transaction f = some x) :
    Serves [.name "Txn", .name f] (.field .txn x.field x.type)
  | currentApplication {f x} (hx : LedgerField.find? LedgerField.currentApplication f = some x) :
    Serves [.name "Global", .name "CurrentApplication", .name f]
      (.field .globalField x.field x.type)
  | global {f x} (hx : LedgerField.find? LedgerField.global f = some x) :
    Serves [.name "Global", .name f] (.field .globalField x.field x.type)
  | groupSize : Serves [.name "TxnGroup", .name "len"] (.field .globalField "GroupSize" .uint64)
  | group {i f x} (hx : LedgerField.find? LedgerField.transaction f = some x) :
    Serves [.name "TxnGroup", .index i, .name f] (.group i x)
  | argumentCount : Serves [.name "args", .name "len"] .argumentCount
  | argument {i} : Serves [.name "args", .index i] (.argument i)

/-- Every place that can be read is of one of these forms. -/
theorem Load.serves {steps : List (Step ι)} {load : Load ι} (h : ofSteps? steps = some load) :
    Serves steps load := by
  unfold ofSteps? at h
  split at h
  case h_1 => cases h; exact .named
  case h_4 => cases h; exact .scratch
  case h_9 => cases h; exact .groupSize
  case h_11 => cases h; exact .argumentCount
  case h_12 => cases h; exact .argument
  case h_13 => cases h
  all_goals obtain ⟨x, hx, rfl⟩ := Option.map_eq_some_iff.1 h
  case h_2 => exact .account hx
  case h_3 => exact .count hx
  case h_5 => exact .element hx
  case h_6 => exact .transaction hx
  case h_7 => exact .currentApplication hx
  case h_8 => exact .global hx
  case h_10 => exact .group hx

/-- There is only one way to read a place: the scratch space is no array. -/
theorem Load.Serves.ofSteps?_eq {steps : List (Step ι)} {load : Load ι} (h : Serves steps load) :
    ofSteps? steps = some load := by
  cases h with
  | @element m i a ha =>
    by_cases hm : m = "Scratch"
    · subst hm
      cases ha
    · simp [ofSteps?, ha]
  | account hx | count hx | transaction hx | currentApplication hx | global hx | group hx =>
    simp [ofSteps?, hx]
  | _ => rfl

theorem Load.Serves.map {f : ι → κ} {steps : List (Step ι)} {load : Load ι}
    (h : Serves steps load) : Serves (steps.map (Step.map f)) (load.map f) := by
  cases h with
  | named => exact .named
  | account hc => exact .account hc
  | count ha => exact .count ha
  | scratch => exact .scratch
  | element ha => exact .element ha
  | transaction hx => exact .transaction hx
  | currentApplication hx => exact .currentApplication hx
  | global hx => exact .global hx
  | groupSize => exact .groupSize
  | group hx => exact .group hx
  | argumentCount => exact .argumentCount
  | argument => exact .argument

theorem Load.ofSteps?_map {f : ι → κ} {steps : List (Step ι)} {load : Load ι}
    (h : ofSteps? steps = some load) :
    ofSteps? (steps.map (Step.map f)) = some (load.map f) :=
  (serves h).map.ofSteps?_eq

/-- There is no way to read a place that is found only once its indexes are replaced. -/
theorem Load.ofSteps?_map_eq_none {f : ι → κ} {steps : List (Step ι)}
    (h : ofSteps? steps = none) : ofSteps? (steps.map (Step.map f)) = none := by
  refine Option.eq_none_iff_forall_ne_some.2 fun load hload => ?_
  generalize heq : steps.map (Step.map f) = steps' at hload
  cases serves hload
  all_goals
    simp only [List.map_eq_cons_iff, List.map_eq_nil_iff, Step.map_eq_name, Step.map_eq_index]
      at heq
  all_goals first
    | obtain ⟨_, _, rfl, rfl, rfl⟩ := heq
    | obtain ⟨_, _, rfl, rfl, _, _, rfl, rfl, rfl⟩ := heq
    | obtain ⟨_, _, rfl, rfl, _, _, rfl, ⟨i, rfl, -⟩, rfl⟩ := heq
    | obtain ⟨_, _, rfl, rfl, _, _, rfl, rfl, _, _, rfl, rfl, rfl⟩ := heq
    | obtain ⟨_, _, rfl, rfl, _, _, rfl, rfl, _, _, rfl, ⟨i, rfl, -⟩, rfl⟩ := heq
    | obtain ⟨_, _, rfl, rfl, _, _, rfl, ⟨i, rfl, -⟩, _, _, rfl, rfl, rfl⟩ := heq
    | obtain ⟨_, _, rfl, rfl, _, _, rfl, rfl, _, _, rfl, ⟨i, rfl, -⟩, _, _, rfl, rfl, rfl⟩ := heq
  case named => cases h
  case account hc => cases (Serves.account hc).ofSteps?_eq.symm.trans h
  case count ha => cases (Serves.count ha).ofSteps?_eq.symm.trans h
  case scratch => cases h
  case element ha => cases (Serves.element ha).ofSteps?_eq.symm.trans h
  case transaction hx => cases (Serves.transaction hx).ofSteps?_eq.symm.trans h
  case currentApplication hx => cases (Serves.currentApplication hx).ofSteps?_eq.symm.trans h
  case global hx => cases (Serves.global hx).ofSteps?_eq.symm.trans h
  case groupSize => cases h
  case group hx => cases (Serves.group hx).ofSteps?_eq.symm.trans h
  case argumentCount => cases h
  case argument => cases h

theorem Load.ofSteps?_map_eq (f : ι → κ) (steps : List (Step ι)) :
    ofSteps? (steps.map (Step.map f)) = (ofSteps? steps).map (Load.map f) := by
  cases h : ofSteps? steps with
  | some load => exact ofSteps?_map h
  | none => exact ofSteps?_map_eq_none h

/-- The code of an index, beside its value if that is an operand. -/
def Expr.indexCode (i : Expr) : IndexCode :=
  ⟨i.constIndex?, i.lower⟩

/-- The steps of a place with the code of its indexes. -/
theorem Variable.codeSteps_eq (v : Variable) :
    v.codeSteps = v.steps.map (Step.map Expr.indexCode) := by
  cases v with
  | name n _ =>
    rw [Variable.codeSteps]
    rfl
  | index base i _ =>
    rw [Variable.codeSteps, Variable.codeSteps_eq base, Variable.steps, List.map_append]
    rfl
  | member owner m _ =>
    rw [Variable.codeSteps, Variable.codeSteps_eq owner, Variable.steps, List.map_append]
    rfl

/-! ## Valid readings -/

/-- Fields are read by two operations. -/
theorem Load.field_code {steps : List (Step ι)} {c : Opcode} {f : String} {t : StackType}
    (h : ofSteps? steps = some (.field c f t)) : c = .txn ∨ c = .globalField := by
  cases serves h with
  | count | transaction => exact .inl rfl
  | currentApplication | global | groupSize => exact .inr rfl

/-- Properties of accounts are read by two operations. -/
theorem Load.account_code {steps : List (Step ι)} {c : Opcode} {i : ι}
    (h : ofSteps? steps = some (.account c i)) : c = .balance ∨ c = .minBalance := by
  cases serves h with
  | account hc =>
    unfold accountOpcode? at hc
    split at hc <;> cases hc <;> simp

namespace Reading

theorem directCodes_spec : ∀ c ∈ directCodes,
    c.isPlain = true ∧ c.pops.length = 0 ∧ c.pushes.length = 1 := by decide

theorem indexedCodes_spec : ∀ c ∈ indexedCodes,
    c.isPlain = true ∧ c.pops.length = 1 ∧ c.pushes.length = 1 := by decide

theorem valid_indexed {i : Expr} {direct computed : Opcode} {before after : List Operand}
    {type : StackType} (hd : direct ∈ directCodes) (hc : computed ∈ indexedCodes)
    (hdops : ∀ k, (before ++ .uint k :: after).length = direct.params.length)
    (hcops : (before ++ after).length = computed.params.length)
    (htarget : (Instruction.op computed (before ++ after)).target? = none) :
    (indexed i direct computed before after type).Valid := by
  unfold indexed
  split
  case h_1 k _ =>
    refine ⟨hd, hdops k, ?_⟩
    simpa [Instruction.target?, List.findSome?_append] using htarget
  case h_2 => exact ⟨hc, hcops, htarget⟩

/-- Every way to read a place that is no name is valid. -/
theorem ofLoad?_valid {entry : Entry} {steps : List (Step Expr)} {load : Load Expr} {r : Reading}
    (hload : Load.ofSteps? steps = some load) (hr : ofLoad? entry load = some r) : r.Valid := by
  cases load with
  | named n => cases hr
  | field c f t =>
    cases hr
    rcases Load.field_code hload with rfl | rfl <;> exact ⟨by simp [directCodes], rfl, rfl⟩
  | account c i =>
    cases hr
    rcases Load.account_code hload with rfl | rfl <;> exact ⟨by simp [indexedCodes], rfl, rfl⟩
  | element a i =>
    cases hr
    exact valid_indexed (by decide) (by decide) (fun _ => rfl) rfl rfl
  | scratch i =>
    cases hr
    exact valid_indexed (by decide) (by decide) (fun _ => rfl) rfl rfl
  | group i f =>
    cases hr
    exact valid_indexed (by decide) (by decide) (fun _ => rfl) rfl rfl
  | argumentCount =>
    simp only [ofLoad?] at hr
    split at hr <;> cases hr
    exact ⟨by simp [directCodes], rfl, rfl⟩
  | argument i =>
    cases hr
    split
    · exact valid_indexed (by decide) (by decide) (fun _ => rfl) rfl rfl
    · exact valid_indexed (by decide) (by decide) (fun _ => rfl) rfl rfl

theorem ofTransaction?_valid {steps : List (Step Expr)} {r : Reading}
    (hr : ofTransaction? steps = some r) : r.Valid := by
  unfold ofTransaction? at hr
  split at hr
  · cases hr
    exact ⟨by simp [directCodes], rfl, rfl⟩
  · cases hr
    exact valid_indexed (by decide) (by decide) (fun _ => rfl) rfl rfl
  · cases hr

end Reading

/-! ## The index of a place -/

/-- The index that a step is, if it is one. -/
def Step.index? : Step ι → Option ι
  | .name _ => none
  | .index i => some i

/-- The index that a place is read with, if there is one. -/
def Load.index? : Load ι → Option ι
  | .named _ | .field .. | .argumentCount => none
  | .account _ i | .element _ i | .scratch i | .group i _ | .argument i => some i

/-- The last index of a place is the last among its steps. -/
theorem Variable.index?_eq (v : Variable) :
    v.index?.map Prod.snd = v.steps.reverse.findSome? Step.index? := by
  cases v with
  | name n _ => rfl
  | index base i _ =>
    rw [Variable.steps, List.reverse_append]
    rfl
  | member owner m _ =>
    rw [Variable.steps, List.reverse_append]
    exact Variable.index?_eq owner

theorem Variable.index?_of_steps {v : Variable} {i : Expr}
    (h : v.steps.reverse.findSome? Step.index? = some i) : ∃ base, v.index? = some (base, i) := by
  rw [← v.index?_eq] at h
  obtain ⟨⟨base, _⟩, hv, rfl⟩ := Option.map_eq_some_iff.1 h
  exact ⟨base, hv⟩

theorem Load.index?_eq {steps : List (Step ι)} {load : Load ι} {i : ι}
    (h : ofSteps? steps = some load) (hi : load.index? = some i) :
    steps.reverse.findSome? Step.index? = some i := by
  cases serves h
  all_goals cases hi
  all_goals rfl

/-- The index that a place is read with is one of its steps. -/
theorem Load.index_mem {steps : List (Step ι)} {load : Load ι} {i : ι}
    (h : ofSteps? steps = some load) (hi : load.index? = some i) : .index i ∈ steps := by
  obtain ⟨step, hstep, hindex⟩ := List.exists_of_findSome?_eq_some (Load.index?_eq h hi)
  cases step with
  | name n => cases hindex
  | index j =>
    cases hindex
    exact List.mem_reverse.1 hstep

namespace Reading

theorem indexed_index {i j : Expr} {direct computed : Opcode} {before after : List Operand}
    {type : StackType} (h : (indexed i direct computed before after type).index = some j) :
    i = j := by
  unfold indexed at h
  split at h
  · cases h
  · exact Option.some.inj h

/-- The index that is computed for a reading is the one that the place is read with. -/
theorem ofLoad?_index {entry : Entry} {load : Load Expr} {r : Reading} {i : Expr}
    (hr : ofLoad? entry load = some r) (hi : r.index = some i) : load.index? = some i := by
  cases load with
  | named n => cases hr
  | field => cases hr; cases hi
  | account c j => cases hr; exact hi
  | element a j => cases hr; exact congrArg some (indexed_index hi)
  | scratch j => cases hr; exact congrArg some (indexed_index hi)
  | group j f => cases hr; exact congrArg some (indexed_index hi)
  | argumentCount =>
    simp only [ofLoad?] at hr
    split at hr <;> cases hr
    cases hi
  | argument j =>
    cases hr
    split at hi <;> exact congrArg some (indexed_index hi)

theorem ofTransaction?_index {steps : List (Step Expr)} {r : Reading} {i : Expr}
    (hr : ofTransaction? steps = some r) (hi : r.index = some i) :
    steps.reverse.findSome? Step.index? = some i := by
  unfold ofTransaction? at hr
  split at hr
  · cases hr
    cases hi
  · cases hr
    exact congrArg some (indexed_index hi)
  · cases hr

end Reading

/-! ## The indexes of places -/

/-- The indexes of a place. -/
def Variable.indexes (v : Variable) : List Expr :=
  v.steps.filterMap Step.index?

theorem Variable.indexes_of_index? : ∀ {v base : Variable} {i : Expr},
    v.index? = some (base, i) → v.indexes = base.indexes ++ [i]
  | .index base i _, _, _, rfl => by rw [indexes, steps, List.filterMap_append]; rfl
  | .member owner m _, base, i, h => by
    rw [indexes, steps, List.filterMap_append, ← indexes, Variable.indexes_of_index? (v := owner) h]
    exact List.append_nil _

/-- A place that can be read has no index but the one that it is read with. -/
theorem Load.indexes_eq {ι : Type} {steps : List (Step ι)} {load : Load ι}
    (h : ofSteps? steps = some load) : steps.filterMap Step.index? = load.index?.toList := by
  cases serves h <;> rfl

/-- An index that is not computed is a literal. -/
theorem Reading.literal_of_indexed {i : Expr} {direct computed : Opcode}
    {before after : List Operand} {type : StackType}
    (h : (indexed i direct computed before after type).index = none) :
    ∃ v span, i = .uint v span := by
  unfold indexed at h
  split at h
  case h_1 k hk =>
    cases i with
    | uint v span => exact ⟨v, span, rfl⟩
    | _ => cases hk
  case h_2 => cases h

theorem Reading.literal_of_ofLoad? {entry : Entry} {load : Load Expr} {r : Reading}
    (hr : ofLoad? entry load = some r) (hindex : r.index = none) :
    ∀ i ∈ load.index?, ∃ v span, i = .uint v span := by
  rintro i hi
  cases load with
  | named | field | argumentCount => cases hi
  | account => cases hr; cases hindex
  | element | scratch | group =>
    cases hi
    cases hr
    exact literal_of_indexed hindex
  | argument =>
    cases hi
    cases hr
    split at hindex <;> exact literal_of_indexed hindex

/-- A place has at most one index, which is a literal unless it is computed. -/
structure Reading.Reads (r : Reading) (place : Variable) : Prop where
  single : ∀ base i, place.index? = some (base, i) → base.indexes = []
  literal : r.index = none → ∀ i ∈ place.indexes, ∃ v span, i = .uint v span

theorem Reading.reads {r : Reading} {place : Variable} {i : Option Expr}
    (h : place.indexes = i.toList)
    (hliteral : r.index = none → ∀ j ∈ i, ∃ v span, j = .uint v span) : r.Reads place where
  single := by
    intro base j hj
    rw [Variable.indexes_of_index? hj] at h
    have hlength := congrArg List.length h
    rw [List.length_append, List.length_singleton] at hlength
    have hle := i.length_toList_le
    exact List.eq_nil_of_length_eq_zero (by omega)
  literal := by
    intro hindex j hj
    rw [h] at hj
    exact hliteral hindex j (Option.mem_toList.1 hj)

theorem Reading.reads_ofLoad? {entry : Entry} {place : Variable} {load : Load Expr} {r : Reading}
    (hload : Load.ofSteps? place.steps = some load) (hr : ofLoad? entry load = some r) :
    r.Reads place :=
  reads (Load.indexes_eq hload) (literal_of_ofLoad? hr)

theorem Reading.reads_ofTransaction? {place : Variable} {r : Reading}
    (hr : ofTransaction? place.steps = some r) : r.Reads place := by
  unfold ofTransaction? at hr
  split at hr
  case h_1 heq =>
    cases hr
    exact reads (i := none) (by rw [Variable.indexes, heq]; rfl) (fun _ => nofun)
  case h_2 i heq =>
    cases hr
    refine reads (i := some i) (by rw [Variable.indexes, heq]; rfl) fun hindex => ?_
    rintro _ ⟨⟩
    exact literal_of_indexed hindex
  case h_3 => cases hr

namespace Lower

open LowerState

variable {G : Rigour} {S : Setting} {F : CodeFault → Prop} {s : LowerState} {names : List String}
  {temps : List StackType} {k : StackType} {post : Unit → LowerState → Prop} {r : Reading}

/-! ## Code that reads places -/

/-- What is asked for an operation to be appended to code that leaves `left` above the slots: that it
is granted, and what holds after it. -/
def Appends (F : CodeFault → Prop) (S : Setting) (names : List String) (left : List StackType)
    (post : Unit → LowerState → Prop) (code : Opcode) (operands : List Operand) (s : LowerState) :
    Prop :=
  Granted F s code operands ∧
    ∀ s', s.Writes S s' [.op code operands] → s'.Laid S names left → post () s'

/-- The operation of a reading without an index. -/
theorem Ends.laid_direct (hs : s.Laid S names temps) (hr : r.Valid) (hi : r.index = none)
    (h : Appends F S names (r.type :: temps) post r.code r.operands s) :
    (typed r.code r.operands r.type).Ends F S.lower s post := by
  have hcode := hr.code
  rw [hi] at hcode
  obtain ⟨hplain, hpops, hpushes⟩ := Reading.directCodes_spec _ hcode
  obtain ⟨k, hk⟩ := List.length_eq_one_iff.1 hpushes
  refine .bind (.laid_granted [] [k] h.1 hs (Opcode.moves_of_isPlain hplain) hpops.symm
    (by rw [hk]; rfl) fun s₁ _ hw₁ hs₁ => ?_)
  exact .laid_retypeTop hs₁ fun s' hw => h.2 s' ((hw₁ hplain).silent hw)

/-- The operation of a reading with an index, which is on the stack. -/
theorem Ends.laid_indexed {i : Expr} (hs : s.Laid S names (k :: temps)) (hr : r.Valid)
    (hi : r.index = some i) (h : Appends F S names (r.type :: temps) post r.code r.operands s) :
    (typed r.code r.operands r.type).Ends F S.lower s post := by
  have hcode := hr.code
  rw [hi] at hcode
  obtain ⟨hplain, hpops, hpushes⟩ := Reading.indexedCodes_spec _ hcode
  obtain ⟨t, ht⟩ := List.length_eq_one_iff.1 hpushes
  refine .bind (.laid_granted [k] [t] h.1 hs (Opcode.moves_of_isPlain hplain) hpops.symm
    (by rw [ht]; rfl) fun s₁ _ hw₁ hs₁ => ?_)
  exact .laid_retypeTop hs₁ fun s' hw => h.2 s' ((hw₁ hplain).silent hw)

/-- What has to hold for reading to meet a specification: of the operation, if there is no index,
and otherwise of the operation after the code of the index. -/
def Reads (F : CodeFault → Prop) (S : Setting) (s : LowerState) (names : List String)
    (temps : List StackType) (post : Unit → LowerState → Prop) (r : Reading) : Prop :=
  match r.index with
  | none => Appends F S names (r.type :: temps) post r.code r.operands s
  | some i => i.lower.Ends F S.lower s fun _ s₁ => ∃ k, s₁.Laid S names (k :: temps) ∧
      Appends F S names (r.type :: temps) post r.code r.operands s₁

/-- A reading whose index may be an operand, given the code for both cases. -/
theorem Ends.laid_byIndex {i : Expr} {direct computed : Opcode} {before after : List Operand}
    {type : StackType} {x : UInt64 → Lower Unit} {y : Lower Unit}
    {mid : Unit → LowerState → Prop}
    (h : Reads F S s names temps mid (Reading.indexed i direct computed before after type))
    (hx : ∀ k, Appends F S names (type :: temps) mid direct (before ++ .uint k :: after) s →
      (x k).Ends F S.lower s post)
    (hy : ∀ k s₁, s₁.Laid S names (k :: temps) →
      Appends F S names (type :: temps) mid computed (before ++ after) s₁ →
      y.Ends F S.lower s₁ post) :
    (match i.indexCode.constant? with
      | some k => x k
      | none => do
        i.indexCode.code
        y).Ends F S.lower s post := by
  unfold Reading.indexed at h
  cases hi : i.constIndex? with
  | some k =>
    rw [hi] at h
    simp only [Expr.indexCode, hi]
    exact hx k h
  | none =>
    rw [hi] at h
    simp only [Expr.indexCode, hi]
    exact .bind (Ends.mono h fun _ s₁ ⟨k, hs₁, hpost⟩ => hy k s₁ hs₁ hpost)

theorem Ends.laid_loadElement {a : LedgerArray} {i : Expr} (hs : s.Laid S names temps)
    (h : Reads F S s names temps post (Reading.element a i)) :
    (loadElement a i.indexCode).Ends F S.lower s post :=
  .laid_byIndex h
    (fun k hpost => .laid_direct (r := ⟨none, .txna, [.field a.elements, .uint k], a.type⟩) hs
      ⟨by simp [Reading.directCodes], rfl, rfl⟩ rfl hpost)
    (fun k s₁ hs₁ hpost => .laid_indexed (r := ⟨some i, .txnas, [.field a.elements], a.type⟩) hs₁
      ⟨by simp [Reading.indexedCodes], rfl, rfl⟩ rfl hpost)

/-- Reads a place: a name, or a place that there is an operation for. -/
theorem Ends.laid_load {text : String} {offset : Nat} {steps : List (Step Expr)}
    {load : Load Expr} (hload : Load.ofSteps? steps = some load) (hs : s.Laid S names temps)
    (hcount : S.lower.entry.isApplication = false → F .argumentCountMode)
    (hnamed : ∀ n, load = .named n → (loadName n offset text).Ends F S.lower s post)
    (hread : ∀ r, Reading.ofLoad? S.lower.entry load = some r → Reads F S s names temps post r) :
    (Lower.load text offset (some (load.map Expr.indexCode))).Ends F S.lower s post := by
  cases load with
  | named n => exact hnamed n rfl
  | field c f t =>
    have hr : Reading.ofLoad? S.lower.entry (.field c f t) = some ⟨none, c, [.field f], t⟩ := rfl
    exact .laid_direct (r := ⟨none, c, [.field f], t⟩) hs (Reading.ofLoad?_valid hload hr) rfl
      (hread _ hr)
  | account c i =>
    refine .bind (Ends.mono (hread _ rfl) fun _ s₁ ⟨k, hs₁, hG, hpost⟩ => ?_)
    rcases Load.account_code hload with rfl | rfl <;>
      exact .laid_granted [k] [.uint64] hG hs₁ rfl rfl rfl fun s' _ hw => hpost s' (hw rfl)
  | element a i => exact .laid_loadElement hs (hread _ rfl)
  | scratch i =>
    exact .laid_byIndex (hread _ rfl)
      (fun k h => .laid_granted [] [.any] h.1 hs rfl rfl rfl fun s' _ hw => h.2 s' (hw rfl))
      (fun k s₁ hs₁ h => .laid_granted [k] [.any] h.1 hs₁ rfl rfl rfl fun s' _ hw =>
        h.2 s' (hw rfl))
  | group i f =>
    exact .laid_byIndex (hread _ rfl)
      (fun k hpost => .laid_direct (r := ⟨none, .gtxn, [.uint k, .field f.field], f.type⟩) hs
        ⟨by simp [Reading.directCodes], rfl, rfl⟩ rfl hpost)
      (fun k s₁ hs₁ hpost => .laid_indexed (r := ⟨some i, .gtxns, [.field f.field], f.type⟩) hs₁
        ⟨by simp [Reading.indexedCodes], rfl, rfl⟩ rfl hpost)
  | argumentCount =>
    refine .bind (.read ?_)
    cases happ : S.lower.entry.isApplication with
    | false => exact .bind (.fail (hcount happ))
    | true =>
      exact .laid_direct (r := ⟨none, .txn, [.field LedgerArray.arguments.count], .uint64⟩) hs
        ⟨by simp [Reading.directCodes], rfl, rfl⟩ rfl (hread _ (if_pos happ))
  | argument i =>
    refine .bind (.read ?_)
    have hread := hread _ rfl
    cases happ : S.lower.entry.isApplication with
    | true =>
      rw [if_pos happ] at hread
      exact .laid_loadElement hs hread
    | false =>
      rw [if_neg (by rw [happ]; decide)] at hread
      exact .laid_byIndex hread
        (fun k h => .laid_granted [] [.bytes] h.1 hs rfl rfl rfl fun s' _ hw => h.2 s' (hw rfl))
        (fun k s₁ hs₁ h => .laid_granted [k] [.bytes] h.1 hs₁ rfl rfl rfl fun s' _ hw =>
        h.2 s' (hw rfl))

/-- The comparison of the type of a transaction with that of a name. -/
theorem Ends.ready_compare {o : BinaryOperator} {c : UInt64} {cs : CheckState}
    (hs : s.Ready G S names (.uint64 :: temps) cs)
    (h : ∀ s', s.Writes S s' [.op .pushint [.uint c], .op (if o = .ne then .ne else .eq) []] →
      s'.Ready G S names (.uint64 :: temps) cs → post () s') :
    (do
      pushUint c
      op₀ (if o = .ne then .ne else .eq) : Lower Unit).Ends G.faults S.lower s post := by
  refine .bind (.ready_op [] [.uint64] hs rfl rfl rfl rfl (fun _ => ⟨by decide, rfl⟩)
    fun s₁ hw₁ hs₁ => ?_)
  split at h <;> rename_i ho <;> simp only [ho, if_true, if_false]
  · exact .ready_op [.uint64, .uint64] [.uint64] hs₁ rfl rfl rfl rfl (fun _ => ⟨by decide, rfl⟩)
      fun s' hw => h s' (hw₁.trans hw)
  · exact .ready_op [.uint64, .uint64] [.uint64] hs₁ rfl rfl rfl rfl (fun _ => ⟨by decide, rfl⟩)
      fun s' hw => h s' (hw₁.trans hw)

/-- Tests the type of a transaction, if the place is one and the name is that of such a type. -/
theorem Ends.ready_typeTest {o : BinaryOperator} {place : Variable} {n text : String} {span : Span}
    (hs : s.Laid S names temps)
    (hfail : transactionCode? n = none ∨ Reading.ofTransaction? place.steps = none →
      G.faults (.typeTest text))
    (h : ∀ c r, transactionCode? n = some c → Reading.ofTransaction? place.steps = some r →
      Reads G.faults S s names temps (fun _ s₁ => ∃ cs, s₁.Ready G S names (.uint64 :: temps) cs ∧
        ∀ s', s₁.Writes S s' [.op .pushint [.uint c], .op (if o = .ne then .ne else .eq) []] →
          s'.Ready G S names (.uint64 :: temps) cs → post () s') r) :
    (Lower.typeTest o (some place.codeSteps) (.var (.name n span)) text).Ends G.faults S.lower s
      post := by
  unfold Lower.typeTest
  simp only [Expr.asName?, Option.bind_some]
  cases hc : transactionCode? n with
  | none => exact .fail (hfail (.inl hc))
  | some c =>
    dsimp only
    rw [place.codeSteps_eq]
    split
    case h_3 hnot₁ hnot₂ =>
      refine .bind (.fail (hfail (.inr ?_)))
      unfold Reading.ofTransaction?
      split
      case h_1 hsteps => exact absurd (by rw [hsteps]; rfl) hnot₁
      case h_2 i hsteps => exact absurd (by rw [hsteps]; rfl) (hnot₂ i.indexCode)
      case h_3 => rfl
    case h_1 heq =>
      simp only [Option.some.injEq, List.map_eq_cons_iff, Step.map_eq_name, List.map_eq_nil_iff] at heq
      obtain ⟨_, _, hsteps, rfl, rfl⟩ := heq
      obtain ⟨hG, hpost⟩ := h c _ hc (by rw [hsteps]; rfl)
      refine .bind (.laid_granted [] [.any] hG hs rfl rfl rfl fun s₁ _ hw₁ hs₁ => ?_)
      refine .bind (.laid_retypeTop hs₁ fun s₂ hw₂ hs₂ => ?_)
      obtain ⟨cs, hready, hpost⟩ := hpost s₂ ((hw₁ rfl).trans hw₂) hs₂
      exact .ready_compare hready hpost
    case h_2 i heq =>
      simp only [Option.some.injEq, List.map_eq_cons_iff, Step.map_eq_name, Step.map_eq_index,
        List.map_eq_nil_iff] at heq
      obtain ⟨_, _, hsteps, rfl, _, _, rfl, ⟨j, rfl, rfl⟩, rfl⟩ := heq
      have hread := h c _ hc (by rw [hsteps]; rfl)
      refine .laid_byIndex hread ?_ ?_
      · rintro k ⟨hG, hpost⟩
        refine .bind (.laid_granted [] [.any] hG hs rfl rfl rfl fun s₁ _ hw₁ hs₁ => ?_)
        refine .bind (.laid_retypeTop hs₁ fun s₂ hw₂ hs₂ => ?_)
        obtain ⟨cs, hready, hpost⟩ := hpost s₂ ((hw₁ rfl).trans hw₂) hs₂
        exact .ready_compare hready hpost
      · rintro k s₁ hs₁ ⟨hG, hpost⟩
        refine .bind (.laid_granted [k] [.any] hG hs₁ rfl rfl rfl fun s₂ _ hw₂ hs₂ => ?_)
        refine .bind (.laid_retypeTop hs₂ fun s₃ hw₃ hs₃ => ?_)
        obtain ⟨cs, hready, hpost⟩ := hpost s₃ ((hw₂ rfl).trans hw₃) hs₃
        exact .ready_compare hready hpost

end Lower

/-! ## Operators and calls -/

/-- The steps of the place that an expression is, if it is one. -/
def Expr.codeSteps? : Expr → Option (List (Step IndexCode))
  | .var place => some place.codeSteps
  | _ => none

theorem Expr.lower_operator {o : BinaryOperator} (ho : o.uintOpcode?.isSome) {l r : Expr}
    {span : Span} :
    (Expr.binary o l r span).lower = (do
      if (o = .eq ∨ o = .ne) ∧ (← Lower.isTypeName r) = true then
        Lower.typeTest o l.codeSteps? r (Expr.binary o l r span).display
      else
        l.lower
        r.lower
        Lower.operator o) := by
  have hspecial : o ≠ .assign ∧ o ≠ .ternary ∧ o ≠ .colon ∧ o ≠ .range ∧ o ≠ .rangeInclusive := by
    refine ⟨?_, ?_, ?_, ?_, ?_⟩ <;> rintro rfl <;> cases ho
  obtain ⟨h₁, h₂, h₃, h₄, h₅⟩ := hspecial
  by_cases hplace : ∃ place, l = .var place
  · obtain ⟨place, rfl⟩ := hplace
    generalize hx : (Expr.var place).lower = x
    rw [Expr.lower, hx]
    case x_2 => exact fun _ _ _ h => absurd h h₂
    all_goals first | rfl | assumption
  · have hsteps : l.codeSteps? = none := by
      cases l with
      | var place => exact absurd ⟨place, rfl⟩ hplace
      | _ => rfl
    rw [Expr.lower, hsteps]
    all_goals first
      | assumption
      | exact fun _ _ _ h => absurd h h₂
      | exact fun place h => hplace ⟨place, h⟩

theorem Expr.lower_call {f : String} (hf : f ≠ Builtin.hashFunction.1) {args : List Expr}
    {span : Span} :
    (Expr.call f args span).lower = Lower.call f args.length (Expr.lowerArguments f args) := by
  match args with
  | [] | [_] | [_, _] | _ :: _ :: _ :: _ =>
    rw [Expr.lower, if_neg hf]
    all_goals simp

end ContractCompiler
