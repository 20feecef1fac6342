import ContractCompiler.Assembly.Builder

/-!
# Labels of code

Which labels a piece of code defines and refers to, and where they stand.
-/

namespace ContractCompiler

open Builder (usedLabels definedLabels)

variable {code code' : List Instruction}

@[simp] theorem usedLabels_nil : usedLabels [] = [] := rfl

@[simp] theorem definedLabels_nil : definedLabels [] = [] := rfl

@[simp] theorem usedLabels_cons (i : Instruction) (code : List Instruction) :
    usedLabels (i :: code) = i.target?.toList ++ usedLabels code := by
  rw [usedLabels, List.filterMap_cons]
  cases i.target? <;> rfl

@[simp] theorem definedLabels_cons (i : Instruction) (code : List Instruction) :
    definedLabels (i :: code) = i.label?.toList ++ definedLabels code := by
  rw [definedLabels, List.filterMap_cons]
  cases i.label? <;> rfl

@[simp] theorem usedLabels_append : usedLabels (code ++ code') = usedLabels code ++ usedLabels code' :=
  List.filterMap_append

@[simp] theorem definedLabels_append :
    definedLabels (code ++ code') = definedLabels code ++ definedLabels code' :=
  List.filterMap_append

/-! ## Closed code -/

/-- Code refers to labels that it defines, or that `outer` holds of. -/
def Closed (outer : String → Prop) (code : List Instruction) : Prop :=
  ∀ l ∈ usedLabels code, l ∈ definedLabels code ∨ outer l

variable {outer : String → Prop}

theorem Closed.append (h : Closed outer code) (h' : Closed outer code') :
    Closed outer (code ++ code') := by
  intro l hl
  rw [usedLabels_append, List.mem_append] at hl
  rw [definedLabels_append, List.mem_append]
  rcases hl with hl | hl
  · exact (h l hl).imp_left .inl
  · exact (h' l hl).imp_left .inr

theorem Closed.of_unused (h : usedLabels code = []) : Closed outer code := by
  intro l hl
  rw [h] at hl
  cases hl

theorem Closed.append_unused (h : Closed outer code) (h' : usedLabels code' = []) :
    Closed outer (code ++ code') :=
  h.append (.of_unused h')

/-- A choice between two pieces of code. -/
theorem Closed.choice {c a b : List Instruction} {elseLabel endLabel : String}
    (hc : Closed outer c) (ha : Closed outer a) (hb : Closed outer b) :
    Closed outer (c ++ [.op .bz [.label elseLabel]] ++ a ++
      [.op .branch [.label endLabel], .label elseLabel] ++ b ++ [.label endLabel]) := by
  intro l hl
  have := hc l
  have := ha l
  have := hb l
  simp [Instruction.target?, Instruction.label?] at hl ⊢
  grind

/-- Code that may be skipped. -/
theorem Closed.skip {c a : List Instruction} {endLabel : String}
    (hc : Closed outer c) (ha : Closed outer a) :
    Closed outer (c ++ [.op .bz [.label endLabel]] ++ a ++ [.label endLabel]) := by
  intro l hl
  have := hc l
  have := ha l
  simp [Instruction.target?, Instruction.label?] at hl ⊢
  grind

/-! ## Positions of labels -/

theorem exists_label {code : List Instruction} {l : String} (h : l ∈ definedLabels code) :
    ∃ pc : Nat, code[pc]? = some (.label l) := by
  obtain ⟨i, hi, hlabel⟩ := List.mem_filterMap.1 h
  obtain ⟨pc, hlt, rfl⟩ := List.mem_iff_getElem.1 hi
  refine ⟨pc, List.getElem?_eq_some_iff.2 ⟨hlt, ?_⟩⟩
  cases hi : code[pc] with
  | label n =>
    rw [hi] at hlabel
    cases hlabel
    rfl
  | op | comment =>
    rw [hi] at hlabel
    cases hlabel

theorem mem_definedLabels {code : List Instruction} {l : String} {pc : Nat}
    (h : code[pc]? = some (.label l)) : l ∈ definedLabels code :=
  List.mem_filterMap.2 ⟨_, List.mem_of_getElem? h, rfl⟩

/-- A label that is defined once stands at one place. -/
theorem label_unique {code : List Instruction} (hnodup : (definedLabels code).Nodup) {l : String}
    {pc pc' : Nat} (h : code[pc]? = some (.label l)) (h' : code[pc']? = some (.label l)) :
    pc = pc' := by
  induction code generalizing pc pc' with
  | nil => cases h
  | cons i code ih =>
    rw [definedLabels_cons] at hnodup
    obtain ⟨-, hrest, hdisjoint⟩ := List.nodup_append.1 hnodup
    -- The first of two places cannot be at the front, for the label comes again behind it.
    have hfront : ∀ {q : Nat}, i = .label l → code[q]? ≠ some (.label l) := by
      rintro q rfl hq
      exact hdisjoint l (by simp [Instruction.label?]) l (mem_definedLabels hq) rfl
    cases pc with
    | zero =>
      cases pc' with
      | zero => rfl
      | succ pc' => exact absurd h' (hfront (Option.some.inj h))
    | succ pc =>
      cases pc' with
      | zero => exact absurd h (hfront (Option.some.inj h'))
      | succ pc' => exact congrArg _ (ih hrest h h')

end ContractCompiler
