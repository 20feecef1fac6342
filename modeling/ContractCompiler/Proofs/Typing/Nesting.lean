import ContractCompiler.Typing.Scope

/-!
# Scopes under operations

Whatever is done to scopes, a frame gives each name one field. A name is found in the innermost
frame that has it, up to the first sealed one, and else among the built-in names. What is done
between entering a frame and leaving it is not seen afterwards.
-/

namespace ContractCompiler.Scopes

/-- One thing that can be done to scopes. -/
inductive Operation where
  | push (boundary : Boundary)
  | pop
  | declare (name : String) (f : Field)
  | lookup (name : String)

/-- The scopes after an operation. -/
def step (s : Scopes) : Operation → Scopes
  | .push boundary => s.push boundary
  | .pop => s.pop
  | .declare name f => s.declare name f
  | .lookup _ => s

/-- The scopes after some operations, one after the other. -/
def run (s : Scopes) (ops : List Operation) : Scopes :=
  ops.foldl step s

/-- Operations in which every frame that is entered is left, and no other. -/
inductive Balanced : List Operation → Prop where
  | nil : Balanced []
  | declare (name : String) (f : Field) {ops : List Operation} (h : Balanced ops) :
      Balanced (.declare name f :: ops)
  | lookup (name : String) {ops : List Operation} (h : Balanced ops) :
      Balanced (.lookup name :: ops)
  | nest (boundary : Boundary) {inner ops : List Operation} (hinner : Balanced inner)
      (h : Balanced ops) : Balanced (.push boundary :: (inner ++ .pop :: ops))

/-- The names of the innermost frame. -/
def current (s : Scopes) : List (String × Field) :=
  match s.frames with
  | [] => s.root
  | frame :: _ => frame.vars

/-- A name is not bound among some names. -/
def Unbound (vars : List (String × Field)) (name : String) : Prop :=
  ∀ f, (name, f) ∉ vars

/-- The field that a name stands for: that of the innermost frame with the name, where all frames
inside that one are clear, and the built-in one if there is no such frame. -/
inductive Stands (s : Scopes) (name : String) (f : Field) : Prop where
  | frame {inner outer : List Frame} {frame : Frame} (hframes : s.frames = inner ++ frame :: outer)
      (hclear : ∀ g ∈ inner, g.boundary = .clear ∧ Unbound g.vars name)
      (hmem : (name, f) ∈ frame.vars)
  | root (hnone : ¬∃ inner frame outer, s.frames = inner ++ frame :: outer ∧
        (∀ g ∈ inner, g.boundary = .clear) ∧ ¬Unbound frame.vars name)
      (hmem : (name, f) ∈ s.root)

/-! ## One field for each name -/

/-- Each frame has every name at most once. -/
structure Single (s : Scopes) : Prop where
  root : (s.root.map Prod.fst).Nodup
  frames : ∀ frame ∈ s.frames, (frame.vars.map Prod.fst).Nodup

section

variable {vars : List (String × Field)} {name : String} {f : Field}

theorem lookup_eq_none_iff : vars.lookup name = none ↔ Unbound vars name := by
  rw [List.lookup_eq_none_iff]
  refine ⟨fun h g hg => by simpa using h _ hg, fun h p hp => ?_⟩
  obtain ⟨m, g⟩ := p
  rw [bne_iff_ne]
  rintro rfl
  exact h g hp

theorem isSome_lookup : (vars.lookup name).isSome ↔ ¬Unbound vars name := by
  rw [← lookup_eq_none_iff, Option.isSome_iff_ne_none]

/-- Where every name occurs once, looking a name up finds the field it occurs with. -/
theorem lookup_eq_some_iff (h : (vars.map Prod.fst).Nodup) :
    vars.lookup name = some f ↔ (name, f) ∈ vars := by
  rw [List.lookup_eq_some_iff]
  constructor
  · rintro ⟨before, after, rfl, -⟩
    exact List.mem_append_right _ List.mem_cons_self
  · intro hmem
    obtain ⟨before, after, rfl⟩ := List.append_of_mem hmem
    refine ⟨before, after, rfl, fun p hp => ?_⟩
    rw [List.map_append, List.map_cons, List.nodup_append] at h
    exact bne_iff_ne.2 (h.2.2 _ (List.mem_map_of_mem hp) _ List.mem_cons_self).symm

end

variable {s : Scopes} {name : String} {f : Field}

/-- A declaration leaves scopes as they are if the innermost frame has the name, and else adds the
name to that frame. -/
theorem declare_cases (s : Scopes) (name : String) (f : Field) :
    (¬Unbound s.current name ∧ s.declare name f = s) ∨
    (Unbound s.current name ∧
      ((s.frames = [] ∧ s.declare name f = ⟨(name, f) :: s.root, []⟩) ∨
      ∃ frame outer, s.frames = frame :: outer ∧
        s.declare name f = ⟨s.root, ⟨frame.boundary, (name, f) :: frame.vars⟩ :: outer⟩)) := by
  obtain ⟨root, frames⟩ := s
  cases frames with
  | nil =>
    by_cases h : Unbound root name
    · refine .inr ⟨h, .inl ⟨rfl, ?_⟩⟩
      simp only [declare, declare?, if_neg fun hsome => isSome_lookup.1 hsome h]
      rfl
    · refine .inl ⟨h, ?_⟩
      simp only [declare, declare?, if_pos (isSome_lookup.2 h)]
      rfl
  | cons frame outer =>
    by_cases h : Unbound frame.vars name
    · refine .inr ⟨h, .inr ⟨frame, outer, rfl, ?_⟩⟩
      simp only [declare, declare?, if_neg fun hsome => isSome_lookup.1 hsome h]
      rfl
    · refine .inl ⟨h, ?_⟩
      simp only [declare, declare?, if_pos (isSome_lookup.2 h)]
      rfl

/-- A declaration binds its name in the innermost frame if the frame does not have it, and changes
no other name there. -/
theorem mem_current_declare {m : String} {g : Field} :
    (m, g) ∈ (s.declare name f).current ↔
      (m, g) ∈ s.current ∨ (m = name ∧ g = f ∧ Unbound s.current name) := by
  rcases declare_cases s name f with
    ⟨hbound, heq⟩ | ⟨hnone, ⟨hframes, heq⟩ | ⟨frame, outer, hframes, heq⟩⟩
  · simp [heq, hbound]
  · simp_all [current, or_comm]
  · simp_all [current, or_comm]

theorem Single.declare (h : s.Single) (name : String) (f : Field) : (s.declare name f).Single := by
  have hfresh : ∀ {vars : List (String × Field)}, Unbound vars name →
      (vars.map Prod.fst).Nodup → (((name, f) :: vars).map Prod.fst).Nodup := by
    intro vars hnone hvars
    refine List.nodup_cons.2 ⟨fun hmem => ?_, hvars⟩
    obtain ⟨⟨m, g⟩, hg, rfl⟩ := List.mem_map.1 hmem
    exact hnone g hg
  rcases declare_cases s name f with
    ⟨-, heq⟩ | ⟨hnone, ⟨hframes, heq⟩ | ⟨frame, outer, hframes, heq⟩⟩
  · rwa [heq]
  · rw [current, hframes] at hnone
    rw [heq]
    exact ⟨hfresh hnone h.root, List.forall_mem_nil _⟩
  · rw [current, hframes] at hnone
    have hall := h.frames
    rw [hframes, List.forall_mem_cons] at hall
    rw [heq]
    exact ⟨h.root, List.forall_mem_cons.2 ⟨hfresh hnone hall.1, hall.2⟩⟩

theorem Single.step (h : s.Single) (op : Operation) : (s.step op).Single := by
  cases op with
  | push boundary => exact ⟨h.root, List.forall_mem_cons.2 ⟨List.nodup_nil, h.frames⟩⟩
  | pop => exact ⟨h.root, fun frame hmem => h.frames frame (List.mem_of_mem_tail hmem)⟩
  | declare name f => exact h.declare name f
  | lookup name => exact h

theorem Single.run (h : s.Single) (ops : List Operation) : (s.run ops).Single := by
  induction ops generalizing s with
  | nil => exact h
  | cons op ops ih => exact ih (h.step op)

/-! ## Looking names up -/

/-- The frames that can be reached through others are the innermost one and, if that can be passed,
those that can be reached from the next one. -/
theorem exists_frame_cons {frame : Frame} {frames : List Frame} {P Q : Frame → Prop} :
    (∃ inner g outer, frame :: frames = inner ++ g :: outer ∧ (∀ h ∈ inner, P h) ∧ Q g) ↔
      Q frame ∨ P frame ∧
        ∃ inner g outer, frames = inner ++ g :: outer ∧ (∀ h ∈ inner, P h) ∧ Q g := by
  constructor
  · rintro ⟨inner, g, outer, heq, hinner, hg⟩
    cases inner with
    | nil =>
      obtain ⟨rfl, -⟩ := List.cons_eq_cons.1 heq
      exact .inl hg
    | cons h inner =>
      obtain ⟨rfl, rfl⟩ := List.cons_eq_cons.1 heq
      obtain ⟨hh, hinner⟩ := List.forall_mem_cons.1 hinner
      exact .inr ⟨hh, inner, g, outer, rfl, hinner, hg⟩
  · rintro (hframe | ⟨hframe, inner, g, outer, rfl, hinner, hg⟩)
    · exact ⟨[], frame, frames, rfl, List.forall_mem_nil _, hframe⟩
    · exact ⟨frame :: inner, g, outer, rfl, List.forall_mem_cons.2 ⟨hframe, hinner⟩, hg⟩

theorem lookupFrames_eq_some_iff {frames : List Frame}
    (h : ∀ frame ∈ frames, (frame.vars.map Prod.fst).Nodup) :
    lookupFrames frames name = some f ↔ ∃ inner frame outer, frames = inner ++ frame :: outer ∧
      (∀ g ∈ inner, g.boundary = .clear ∧ Unbound g.vars name) ∧ (name, f) ∈ frame.vars := by
  induction frames with
  | nil => simp [lookupFrames]
  | cons frame frames ih =>
    obtain ⟨hframe, hframes⟩ := List.forall_mem_cons.1 h
    rw [exists_frame_cons, ← ih hframes, lookupFrames, ← lookup_eq_some_iff hframe,
      ← lookup_eq_none_iff]
    cases frame.vars.lookup name with
    | some g => simp
    | none => cases frame.boundary <;> simp

theorem lookupFrames_eq_none_iff {frames : List Frame} :
    lookupFrames frames name = none ↔ ¬∃ inner frame outer, frames = inner ++ frame :: outer ∧
      (∀ g ∈ inner, g.boundary = .clear) ∧ ¬Unbound frame.vars name := by
  induction frames with
  | nil => simp [lookupFrames]
  | cons frame frames ih =>
    rw [exists_frame_cons, lookupFrames, ← lookup_eq_none_iff]
    cases frame.vars.lookup name with
    | some g => simp
    | none => cases frame.boundary <;> simp [ih]

/-- Looking a name up gives the field that it stands for. -/
theorem lookup?_eq_some_iff (h : s.Single) : s.lookup? name = some f ↔ s.Stands name f := by
  rw [lookup?, Option.or_eq_some_iff, lookupFrames_eq_some_iff h.frames, lookupFrames_eq_none_iff,
    lookup_eq_some_iff h.root]
  constructor
  · rintro (⟨inner, frame, outer, hframes, hclear, hmem⟩ | ⟨hnone, hmem⟩)
    · exact .frame hframes hclear hmem
    · exact .root hnone hmem
  · rintro (⟨hframes, hclear, hmem⟩ | ⟨hnone, hmem⟩)
    · exact .inl ⟨_, _, _, hframes, hclear, hmem⟩
    · exact .inr ⟨hnone, hmem⟩

/-! ## Names that stay -/

theorem root_subset_step (s : Scopes) (op : Operation) : s.root ⊆ (s.step op).root := by
  cases op with
  | push boundary => exact List.Subset.refl _
  | pop => exact List.Subset.refl _
  | declare name f =>
    rw [step]
    rcases declare_cases s name f with ⟨-, heq⟩ | ⟨-, ⟨-, heq⟩ | ⟨frame, outer, -, heq⟩⟩
    · rw [heq]
      exact List.Subset.refl _
    · rw [heq]
      exact List.subset_cons_self _ _
    · rw [heq]
      exact List.Subset.refl _
  | lookup name => exact List.Subset.refl _

theorem root_subset_run (s : Scopes) (ops : List Operation) : s.root ⊆ (s.run ops).root := by
  induction ops generalizing s with
  | nil => exact List.Subset.refl _
  | cons op ops ih => exact List.Subset.trans (root_subset_step s op) (ih _)

theorem pop_of_depth (h : s.depth = 1) : s.pop = s := by
  have hframes : s.frames = [] := List.length_eq_zero_iff.1 (Nat.succ.inj h)
  obtain ⟨root, frames⟩ := s
  subst hframes
  rfl

/-! ## Frames that are entered and left -/

theorem run_cons (s : Scopes) (op : Operation) (ops : List Operation) :
    s.run (op :: ops) = (s.step op).run ops :=
  rfl

theorem run_append (s : Scopes) (ops ops' : List Operation) :
    s.run (ops ++ ops') = (s.run ops).run ops' :=
  List.foldl_append ..

/-- Balanced operations change the names of the innermost frame at most. -/
theorem Balanced.run {ops : List Operation} (h : Balanced ops) {frame : Frame} {outer : List Frame}
    (hs : s.frames = frame :: outer) :
    ∃ vars, s.run ops = ⟨s.root, ⟨frame.boundary, vars⟩ :: outer⟩ := by
  induction h generalizing s frame outer with
  | nil => exact ⟨frame.vars, by rw [← hs]; rfl⟩
  | declare name f _ ih =>
    rcases declare_cases s name f with ⟨-, heq⟩ | ⟨-, ⟨hnil, -⟩ | ⟨head, tail, hframes, heq⟩⟩
    · obtain ⟨vars, hrun⟩ := ih hs
      exact ⟨vars, by rw [← hrun, run_cons, step, heq]⟩
    · rw [hnil] at hs
      cases hs
    · rw [hframes] at hs
      cases hs
      obtain ⟨vars, hrun⟩ := ih (s := s.declare name f) (by rw [heq])
      refine ⟨vars, hrun.trans ?_⟩
      rw [heq]
  | lookup name _ ih => exact ih hs
  | nest boundary _ _ ihinner ih =>
    obtain ⟨inner, hrun⟩ := ihinner (s := s.push boundary) rfl
    obtain ⟨vars, hrest⟩ := ih hs
    refine ⟨vars, ?_⟩
    rw [run_cons, run_append, step, hrun, run_cons, ← hrest]
    rfl

/-- What is done in a frame is undone when it is left. -/
theorem Balanced.run_nested {ops : List Operation} (h : Balanced ops) (s : Scopes)
    (boundary : Boundary) : s.run (.push boundary :: (ops ++ [.pop])) = s := by
  obtain ⟨vars, hrun⟩ := h.run (s := s.push boundary) rfl
  rw [run_cons, run_append, step, hrun]
  rfl

/-- Scopes nest, whatever was done to them: a name stands for one field, a declaration adds a name
to the innermost frame at most, the built-in names stay, and a frame that is left leaves no trace. -/
theorem run_nests (ops : List Operation) :
    (∀ name f, (empty.run ops).lookup? name = some f ↔ (empty.run ops).Stands name f) ∧
    (∀ name f m g, (m, g) ∈ ((empty.run ops).declare name f).current ↔
      (m, g) ∈ (empty.run ops).current ∨
        (m = name ∧ g = f ∧ Unbound (empty.run ops).current name)) ∧
    (∀ more, (empty.run ops).root ⊆ ((empty.run ops).run more).root) ∧
    ((empty.run ops).depth = 1 → (empty.run ops).pop = empty.run ops) ∧
    ∀ boundary inner, Balanced inner → ∀ name,
      ((empty.run ops).run (.push boundary :: (inner ++ [.pop]))).lookup? name =
        (empty.run ops).lookup? name := by
  have hsingle : empty.Single := ⟨List.nodup_nil, List.forall_mem_nil _⟩
  refine ⟨fun name f => lookup?_eq_some_iff (hsingle.run ops), fun _ _ _ _ => mem_current_declare,
    root_subset_run _, fun hdepth => ?_, fun boundary inner hinner name => ?_⟩
  · exact pop_of_depth hdepth
  · rw [hinner.run_nested]

end ContractCompiler.Scopes
