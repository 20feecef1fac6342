import Mathlib.Data.List.Nodup
import ContractCompiler.Proofs.Assembly.Labels

/-!
# Going through code

What is known at the instructions of code, whichever way control takes. Straight code is gone
through once, from what is known at its labels; on arrival at a label nothing is known that is not
known on every way there.
-/

namespace ContractCompiler

open Builder (definedLabels)

namespace Instruction

/-- The label that control may jump to. -/
def jump? : Instruction → Option String
  | op .bz [.label l] | op .bnz [.label l] | op .branch [.label l] => some l
  | _ => none

/-- Whether control may go on with the next instruction. -/
def fallsThrough : Instruction → Bool
  | op .branch _ | op .err _ | op .exit _ | op .retsub _ => false
  | _ => true

end Instruction

/-- Control can get from one instruction of some code to another. -/
inductive Edge (code : List Instruction) : Nat → Nat → Prop where
  | next {pc i} (hi : code[pc]? = some i) (hfalls : i.fallsThrough = true) : Edge code pc (pc + 1)
  | jump {pc pc' i l} (hi : code[pc]? = some i) (hjump : i.jump? = some l)
      (hlabel : code[pc']? = some (.label l)) : Edge code pc pc'

/-! ## What is known -/

/-- What can be known at instructions. `leads i s s'` tells that an instruction is in order where
`s` is known, and that `s'` is known after it; `le s s'` that `s'` is known wherever `s` is. -/
structure Domain (σ : Type) where
  leads : Instruction → σ → σ → Prop
  le : σ → σ → Prop
  leads_label : ∀ l s, leads (.label l) s s
  leads_branch : ∀ l s, leads (.op .branch [.label l]) s s
  refl : ∀ s, le s s
  trans : ∀ {s s' s''}, le s s' → le s' s'' → le s s''

variable {σ : Type}

/-- Where `st` is known `st'` is known. Nothing at all is known where control does not get to. -/
def Domain.Within (D : Domain σ) (st st' : Option σ) : Prop :=
  ∀ s, st = some s → ∃ s', st' = some s' ∧ D.le s s'

namespace Domain.Within

variable {D : Domain σ} {s s' : σ} {st st' st'' : Option σ}

theorem refl : D.Within st st := fun s hs => ⟨s, hs, D.refl s⟩

theorem none : D.Within none st := nofun

theorem trans (h : D.Within st st') (h' : D.Within st' st'') : D.Within st st'' := by
  intro s hs
  obtain ⟨s₁, hs₁, hle⟩ := h s hs
  obtain ⟨s₂, hs₂, hle'⟩ := h' s₁ hs₁
  exact ⟨s₂, hs₂, D.trans hle hle'⟩

theorem of_le (h : D.le s s') : D.Within (some s) (some s') := by
  rintro _ ⟨⟩
  exact ⟨s', rfl, h⟩

end Domain.Within

/-- What is known after code that control never gets past, or after which `s` is known. -/
def knownAfter (ends : Bool) (s : σ) : Option σ :=
  if ends then none else some s

section Ends

variable {D : Domain σ} {s s' : σ}

theorem knownAfter_within (ends : Bool) (h : D.le s s') :
    D.Within (knownAfter ends s) (some s') := by
  cases ends
  · exact .of_le h
  · exact .none

/-- Control gets past a choice if it gets past one of its arms. -/
theorem knownAfter_and_left (ends ends' : Bool) (h : D.le s s') :
    D.Within (knownAfter ends s) (knownAfter (ends && ends') s') := by
  cases ends
  · exact .of_le h
  · exact .none

theorem knownAfter_and_right (ends ends' : Bool) (h : D.le s s') :
    D.Within (knownAfter ends' s) (knownAfter (ends && ends') s') := by
  rw [Bool.and_comm]
  exact knownAfter_and_left ends' ends h

end Ends

/-! ## Going through code once -/

/-- `Scans D T st code st'`: going through `code` from where `st` is known, `st'` is known at its
end, where `none` stands for a place that control does not get to. `T` tells what is known at
labels. -/
inductive Scans (D : Domain σ) (T : List (String × Option σ)) :
    Option σ → List Instruction → Option σ → Prop where
  | nil {st} : Scans D T st [] st
  | weaken {st st' code st''} (hst : D.Within st st') (h : Scans D T st' code st'') :
    Scans D T st code st''
  | dead {i code st} (hi : i.label? = none) (h : Scans D T none code st) :
    Scans D T none (i :: code) st
  | label {l st code st'} (hl : (l, st) ∈ T) (h : Scans D T st code st') :
    Scans D T st (.label l :: code) st'
  | op {s s' i code st} (hi : i.label? = none) (hleads : D.leads i s s')
      (hjump : ∀ l, i.jump? = some l → ∃ st', (l, st') ∈ T ∧ D.Within (some s') st')
      (h : Scans D T (if i.fallsThrough then some s' else none) code st) :
    Scans D T (some s) (i :: code) st

variable {D : Domain σ} {s s' : σ} {st st' st'' : Option σ}

section Scans

variable {T T' : List (String × Option σ)} {code code' : List Instruction}

theorem Scans.append (h : Scans D T st code st') (h' : Scans D T st' code' st'') :
    Scans D T st (code ++ code') st'' := by
  induction h with
  | nil => exact h'
  | weaken hst _ ih => exact .weaken hst (ih h')
  | dead hi _ ih => exact .dead hi (ih h')
  | label hl _ ih => exact .label hl (ih h')
  | op hi hleads hjump _ ih => exact .op hi hleads hjump (ih h')

theorem Scans.mono (h : Scans D T st code st') (hsub : T ⊆ T') : Scans D T' st code st' := by
  induction h with
  | nil => exact .nil
  | weaken hst _ ih => exact .weaken hst ih
  | dead hi _ ih => exact .dead hi ih
  | label hl _ ih => exact .label (hsub hl) ih
  | op hi hleads hjump _ ih =>
    refine .op hi hleads (fun l hl => ?_) ih
    obtain ⟨st', hmem, hwithin⟩ := hjump l hl
    exact ⟨st', hsub hmem, hwithin⟩

/-- What is known in one domain can be told in another. -/
theorem Scans.map {σ' : Type} {D' : Domain σ'} (g : σ → σ')
    (hleads : ∀ {i s s'}, D.leads i s s' → D'.leads i (g s) (g s'))
    (hle : ∀ {s s'}, D.le s s' → D'.le (g s) (g s')) (h : Scans D T st code st') :
    Scans D' (T.map fun known => (known.1, known.2.map g)) (st.map g) code (st'.map g) := by
  have hwithin : ∀ {st st'}, D.Within st st' → D'.Within (st.map g) (st'.map g) := by
    rintro st st' h _ hs
    obtain ⟨s, rfl, rfl⟩ := Option.map_eq_some_iff.1 hs
    obtain ⟨s', rfl, hs'⟩ := h s rfl
    exact ⟨g s', rfl, hle hs'⟩
  have hmem : ∀ {l st}, (l, st) ∈ T → (l, st.map g) ∈ T.map fun known => (known.1, known.2.map g) :=
    fun h => List.mem_map.2 ⟨_, h, rfl⟩
  induction h with
  | nil => exact .nil
  | weaken hst _ ih => exact .weaken (hwithin hst) ih
  | dead hi _ ih => exact .dead hi ih
  | label hl _ ih => exact .label (hmem hl) ih
  | op hi hleads' hjump _ ih =>
    refine .op hi (hleads hleads') (fun l hl => ?_) ?_
    · obtain ⟨st', hst', hs'⟩ := hjump l hl
      exact ⟨_, hmem hst', hwithin hs'⟩
    · rw [apply_ite (Option.map g)] at ih
      exact ih

/-- A jump over code, after which control may go on either way. -/
theorem Scans.bz {l : String} (hleads : D.leads (.op .bz [.label l]) s s') (hl : (l, some s') ∈ T) :
    Scans D T (some s) [.op .bz [.label l]] (some s') := by
  refine .op rfl hleads ?_ .nil
  rintro l' ⟨⟩
  exact ⟨_, hl, .refl⟩

/-- A jump from one piece of code, in front of the label of the next. -/
theorem Scans.branch {l l' : String} (hst : D.Within st st') (hl : (l, st') ∈ T)
    (hl' : (l', st'') ∈ T) :
    Scans D T st [.op .branch [.label l], .label l'] st'' := by
  cases st with
  | none => exact .dead rfl (.weaken .none (.label hl' .nil))
  | some s =>
    refine .op rfl (D.leads_branch l s) ?_ (.weaken .none (.label hl' .nil))
    rintro _ ⟨⟩
    exact ⟨st', hl, hst⟩

/-- What is known on arrival at every instruction of code and at its end. -/
structure Arrives (D : Domain σ) (T : List (String × Option σ)) (code : List Instruction)
    (known : Nat → Option σ) : Prop where
  label : ∀ {pc l}, code[pc]? = some (.label l) → (l, known pc) ∈ T
  op : ∀ {pc i s}, code[pc]? = some i → known pc = some s → ∃ s', D.leads i s s' ∧
    (i.fallsThrough = true → D.Within (some s') (known (pc + 1))) ∧
    ∀ l, i.jump? = some l → ∃ st', (l, st') ∈ T ∧ D.Within (some s') st'

/-- One more instruction in front. -/
theorem Arrives.cons {i : Instruction} {known : Nat → Option σ} (h : Arrives D T code known)
    (first : Option σ) (hlabel : ∀ l, i = .label l → (l, first) ∈ T)
    (hop : ∀ s, first = some s → ∃ s', D.leads i s s' ∧
      (i.fallsThrough = true → D.Within (some s') (known 0)) ∧
      ∀ l, i.jump? = some l → ∃ st', (l, st') ∈ T ∧ D.Within (some s') st') :
    Arrives D T (i :: code) fun pc => if pc = 0 then first else known (pc - 1) where
  label := by
    intro pc l hl
    cases pc with
    | zero => exact hlabel l (Option.some.inj hl)
    | succ pc => exact h.label hl
  op := by
    intro pc j s hj hs
    cases pc with
    | zero =>
      cases Option.some.inj hj
      exact hop s hs
    | succ pc => exact h.op hj hs

theorem Scans.arrives (h : Scans D T st code st') :
    ∃ known, Arrives D T code known ∧ D.Within st (known 0) ∧ D.Within (known code.length) st' := by
  induction h with
  | nil => exact ⟨fun _ => _, ⟨nofun, nofun⟩, .refl, .refl⟩
  | weaken hst _ ih =>
    obtain ⟨known, harrives, hfirst, hend⟩ := ih
    exact ⟨known, harrives, hst.trans hfirst, hend⟩
  | dead hi _ ih =>
    obtain ⟨known, harrives, -, hend⟩ := ih
    refine ⟨_, harrives.cons none ?_ nofun, .none, hend⟩
    rintro l rfl
    cases hi
  | @label l st code st' hl _ ih =>
    obtain ⟨known, harrives, hfirst, hend⟩ := ih
    refine ⟨_, harrives.cons st ?_ ?_, .refl, hend⟩
    · rintro _ ⟨⟩
      exact hl
    · rintro s rfl
      exact ⟨s, D.leads_label l s, fun _ => hfirst, nofun⟩
  | @op s s' i code st hi hleads hjump _ ih =>
    obtain ⟨known, harrives, hfirst, hend⟩ := ih
    refine ⟨_, harrives.cons (some s) ?_ ?_, .refl, hend⟩
    · rintro l rfl
      cases hi
    · rintro _ ⟨⟩
      refine ⟨s', hleads, fun hfalls => ?_, hjump⟩
      rw [if_pos hfalls] at hfirst
      exact hfirst

/-- With labels that are told once, the same is known at a label on every way. -/
theorem known_unique {l : String} (hkeys : (T.map Prod.fst).Nodup) (h : (l, st) ∈ T)
    (h' : (l, st') ∈ T) : st = st' :=
  congrArg Prod.snd (List.inj_on_of_nodup_map hkeys h h' rfl)

/-- A step of control leads from what is known at one instruction to what is known at the next. -/
theorem Arrives.edge {known : Nat → Option σ} {pc pc' : Nat} {i : Instruction}
    (h : Arrives D T code known) (hkeys : (T.map Prod.fst).Nodup) (hi : code[pc]? = some i)
    (hs : known pc = some s) (hedge : Edge code pc pc') :
    ∃ s' s'', D.leads i s s' ∧ D.le s' s'' ∧ known pc' = some s'' := by
  obtain ⟨s', hleads, hfalls, hjump⟩ := h.op hi hs
  cases hedge with
  | next hi' hfalls' =>
    cases hi.symm.trans hi'
    obtain ⟨s'', hs'', hle⟩ := hfalls hfalls' s' rfl
    exact ⟨s', s'', hleads, hle, hs''⟩
  | jump hi' hjump' hlabel =>
    cases hi.symm.trans hi'
    obtain ⟨st', hmem, hwithin⟩ := hjump _ hjump'
    obtain ⟨s'', hs'', hle⟩ := hwithin s' rfl
    exact ⟨s', s'', hleads, hle, (known_unique hkeys (h.label hlabel) hmem).trans hs''⟩

end Scans

/-! ## Pieces of code -/

/-- Code can be gone through, given what is known at its own labels. -/
def Scannable (D : Domain σ) (st : Option σ) (code : List Instruction) (st' : Option σ) : Prop :=
  ∃ T, T.map Prod.fst = definedLabels code ∧ Scans D T st code st'

namespace Scannable

variable {s₁ s₂ : σ} {st₁ st₂ : Option σ} {code code' c a b : List Instruction}
  {elseLabel endLabel startLabel : String}

theorem nil : Scannable D st [] st := ⟨[], rfl, .nil⟩

theorem append (h : Scannable D st code st') (h' : Scannable D st' code' st'') :
    Scannable D st (code ++ code') st'' := by
  obtain ⟨T, hT, hs⟩ := h
  obtain ⟨T', hT', hs'⟩ := h'
  refine ⟨T ++ T', by simp [hT, hT'], ?_⟩
  exact (hs.mono (List.subset_append_left _ _)).append (hs'.mono (List.subset_append_right _ _))

theorem weaken (hst : D.Within st st') (h : Scannable D st' code st'') :
    Scannable D st code st'' := by
  obtain ⟨T, hT, hs⟩ := h
  exact ⟨T, hT, .weaken hst hs⟩

theorem relax (h : Scannable D st code st') (hst : D.Within st' st'') :
    Scannable D st code st'' := by
  have happend := h.append (.weaken hst .nil)
  rw [List.append_nil] at happend
  exact happend

/-- An operation that refers to no label. -/
theorem op {i : Instruction} (hi : i.label? = none) (hleads : D.leads i s s')
    (hjump : i.jump? = none) :
    Scannable D (some s) [i] (if i.fallsThrough then some s' else none) := by
  refine ⟨[], by simp [hi], .op hi hleads ?_ .nil⟩
  intro l hl
  rw [hjump] at hl
  cases hl

/-- Control does not get to code, wherever it leads. -/
theorem dead (code : List Instruction) : Scannable D none code none := by
  refine ⟨(definedLabels code).map (·, none), by rw [List.map_map]; exact List.map_id _, ?_⟩
  induction code with
  | nil => exact .nil
  | cons i code ih =>
    cases i with
    | label l =>
      have hl : (l, (none : Option σ)) ∈ (definedLabels (.label l :: code)).map (·, none) := by
        simp [Instruction.label?]
      refine .label hl (ih.mono ?_)
      simp
    | op | comment => exact .dead rfl ih

/-- A choice between two pieces of code. -/
theorem choice (hc : Scannable D st c (some s)) (hbz : D.leads (.op .bz [.label elseLabel]) s s₁)
    (ha : Scannable D (some s₁) a st₁) (hst₁ : D.Within st₁ st')
    (hb : Scannable D (some s₁) b st₂) (hst₂ : D.Within st₂ st') :
    Scannable D st (c ++ [.op .bz [.label elseLabel]] ++ a ++
      [.op .branch [.label endLabel], .label elseLabel] ++ b ++ [.label endLabel]) st' := by
  obtain ⟨Tc, hTc, hc⟩ := hc
  obtain ⟨Ta, hTa, ha⟩ := ha
  obtain ⟨Tb, hTb, hb⟩ := hb
  let T := Tc ++ Ta ++ [(elseLabel, some s₁)] ++ Tb ++ [(endLabel, st')]
  have hTelse : (elseLabel, some s₁) ∈ T := by simp [T]
  have hTend : (endLabel, st') ∈ T := by simp [T]
  refine ⟨T, by simp [T, hTc, hTa, hTb, Instruction.label?], ?_⟩
  refine Scans.append (Scans.append (Scans.append (Scans.append (Scans.append (hc.mono ?_)
    (.bz hbz hTelse)) (ha.mono ?_)) (.branch hst₁ hTend hTelse)) (hb.mono ?_))
    (.weaken hst₂ (.label hTend .nil))
  · intro x hx
    simp [T, hx]
  · intro x hx
    simp [T, hx]
  · intro x hx
    simp [T, hx]

/-- Code that may be skipped. -/
theorem skip (hc : Scannable D st c (some s)) (hbz : D.leads (.op .bz [.label endLabel]) s s₁)
    (ha : Scannable D (some s₁) a st₁) (hst₁ : D.Within st₁ (some s₁)) :
    Scannable D st (c ++ [.op .bz [.label endLabel]] ++ a ++ [.label endLabel]) (some s₁) := by
  obtain ⟨Tc, hTc, hc⟩ := hc
  obtain ⟨Ta, hTa, ha⟩ := ha
  let T := Tc ++ Ta ++ [(endLabel, some s₁)]
  have hTend : (endLabel, some s₁) ∈ T := by simp [T]
  refine ⟨T, by simp [T, hTc, hTa, Instruction.label?], ?_⟩
  refine Scans.append (Scans.append (Scans.append (hc.mono ?_) (.bz hbz hTend)) (ha.mono ?_))
    (.weaken hst₁ (.label hTend .nil))
  · intro x hx
    simp [T, hx]
  · intro x hx
    simp [T, hx]

/-- A loop that tests first. -/
theorem loop (hc : Scannable D st c (some s)) (hbz : D.leads (.op .bz [.label endLabel]) s s₁)
    (ha : Scannable D (some s₁) a st₁) (hst₁ : D.Within st₁ st) :
    Scannable D st ([.label startLabel] ++ c ++ [.op .bz [.label endLabel]] ++ a ++
      [.op .branch [.label startLabel], .label endLabel]) (some s₁) := by
  obtain ⟨Tc, hTc, hc⟩ := hc
  obtain ⟨Ta, hTa, ha⟩ := ha
  let T := (startLabel, st) :: (Tc ++ Ta ++ [(endLabel, some s₁)])
  have hTstart : (startLabel, st) ∈ T := by simp [T]
  have hTend : (endLabel, some s₁) ∈ T := by simp [T]
  refine ⟨T, by simp [T, hTc, hTa, Instruction.label?], ?_⟩
  refine Scans.append (Scans.append (Scans.append (Scans.append (.label hTstart .nil)
    (hc.mono ?_)) (.bz hbz hTend)) (ha.mono ?_)) (.branch hst₁ hTstart hTend)
  · intro x hx
    simp [T, hx]
  · intro x hx
    simp [T, hx]

/-- A loop that tests last. -/
theorem again (ha : Scannable D st a st₁) (hc : Scannable D st₁ c (some s))
    (hbnz : D.leads (.op .bnz [.label startLabel]) s s₁) (hs₁ : D.Within (some s₁) st) :
    Scannable D st ([.label startLabel] ++ a ++ c ++ [.op .bnz [.label startLabel]])
      (some s₁) := by
  obtain ⟨Ta, hTa, ha⟩ := ha
  obtain ⟨Tc, hTc, hc⟩ := hc
  let T := (startLabel, st) :: (Ta ++ Tc)
  have hTstart : (startLabel, st) ∈ T := by simp [T]
  refine ⟨T, by simp [T, hTc, hTa, Instruction.label?], ?_⟩
  have hjump : Scans D T (some s) [.op .bnz [.label startLabel]] (some s₁) := by
    refine .op rfl hbnz ?_ .nil
    rintro l ⟨⟩
    exact ⟨st, hTstart, hs₁⟩
  refine Scans.append (Scans.append (Scans.append (.label hTstart .nil) (ha.mono ?_))
    (hc.mono ?_)) hjump
  · intro x hx
    simp [T, hx]
  · intro x hx
    simp [T, hx]

/-- A loop that is left before it tests. -/
theorem once (ha : Scannable D st a none) :
    Scannable D st ([.label startLabel] ++ a ++ c ++ [.op .bnz [.label startLabel]]) none := by
  obtain ⟨Ta, hTa, ha⟩ := ha
  obtain ⟨Tc, hTc, hc⟩ := dead (D := D) (c ++ [.op .bnz [.label startLabel]])
  let T := (startLabel, st) :: (Ta ++ Tc)
  have hTstart : (startLabel, st) ∈ T := by simp [T]
  refine ⟨T, by simp [T, hTc, hTa, Instruction.label?], ?_⟩
  rw [List.append_assoc]
  refine Scans.append (Scans.append (.label hTstart .nil) (ha.mono ?_)) (hc.mono ?_)
  · intro x hx
    simp [T, hx]
  · intro x hx
    simp [T, hx]

end Scannable

end ContractCompiler
