import ContractCompiler.Proofs.Lowering.Suits

/-!
# Blocks

A block gives slots to the names that its own expressions assign and that have none yet, and takes
the slots with it.
-/

namespace ContractCompiler

/-! ## Slots that come and go -/

namespace LowerState

variable {S : Setting} {s : LowerState} {names new : List String} {n : String}

/-- Slots after some of them were given up. -/
theorem getElem?_foldl_erase (slots : Std.ExtTreeMap String Slot) (gone : List String)
    (m : String) :
    (gone.foldl (fun slots n => slots.erase n) slots)[m]? =
      if m ∈ gone then none else slots[m]? := by
  induction gone generalizing slots with
  | nil => simp
  | cons n gone ih =>
    rw [List.foldl_cons, ih, Std.ExtTreeMap.getElem?_erase]
    by_cases hm : m ∈ gone
    · rw [if_pos hm, if_pos (List.mem_cons_of_mem _ hm)]
    · rw [if_neg hm]
      by_cases hn : n = m
      · subst hn
        simp
      · have hcmp : compare n m ≠ .eq := fun h => hn (Std.LawfulEqCmp.eq_of_compare h)
        simp [hcmp, hm, Ne.symm hn]

/-- A layout with one more slot on top. -/
theorem Kept.declare (h : s.Kept S names) (hn : n ∉ names) (s' : LowerState)
    (hmain : s'.main = s.main)
    (hslots : s'.slots = s.slots.insert n ⟨names.length + 1, none⟩) :
    s'.Kept S (n :: names) where
  main := hmain.trans h.main
  nodup := List.nodup_cons.2 ⟨hn, h.nodup⟩
  pos := by
    intro m
    rw [hslots, Std.ExtTreeMap.getElem?_insert]
    by_cases hm : n = m
    · subst hm
      simp
    · have hcmp : compare n m ≠ .eq := fun h => hm (Std.LawfulEqCmp.eq_of_compare h)
      have hbeq : (n == m) = false := by simpa using hm
      rw [if_neg hcmp, h.pos m, List.length_cons, List.idxOf_cons, hbeq]
      simp [Ne.symm hm]
  held := by
    intro m slot k hm hk
    rw [hslots, Std.ExtTreeMap.getElem?_insert] at hm
    split at hm
    · cases hm
      cases hk
    · exact h.held m slot k hm hk

/-- A slot that is made has nothing to do with those that are there. -/
theorem Kept.tame_declare (h : s.Kept S names) (hn : n ∉ names) {s' : LowerState} {slot : Slot}
    (hslots : s'.slots = s.slots.insert n slot) {m : String} (hm : s.Tame m) : s'.Tame m := by
  obtain ⟨slot', k, hslot', htype, hk⟩ := hm
  refine ⟨slot', k, ?_, htype, hk⟩
  rw [hslots, Std.ExtTreeMap.getElem?_insert]
  split
  case isTrue heq =>
    obtain rfl := Std.LawfulEqCmp.eq_of_compare heq
    rw [h.slot_of_not_mem hn] at hslot'
    cases hslot'
  case isFalse => exact hslot'

/-- Slots that are not given up stay as they are. -/
theorem Tame.drop {s' : LowerState}
    (hslots : s'.slots = new.foldl (fun slots n => slots.erase n) s.slots) (hn : n ∉ new) (h : s.Tame n) : s'.Tame n := by
  unfold Tame
  rw [hslots, getElem?_foldl_erase, if_neg hn]
  exact h

/-- A layout without the slots on top. -/
theorem Kept.drop (h : s.Kept S (new ++ names)) (s' : LowerState) (hmain : s'.main = s.main)
    (hslots : s'.slots = new.foldl (fun slots n => slots.erase n) s.slots) :
    s'.Kept S names where
  main := hmain.trans h.main
  nodup := (List.nodup_append.1 h.nodup).2.1
  pos := by
    intro m
    rw [hslots, getElem?_foldl_erase]
    by_cases hm : m ∈ new
    · have hnot : m ∉ names := fun hmem => (List.nodup_append.1 h.nodup).2.2 m hm m hmem rfl
      rw [if_pos hm, if_neg hnot]
      rfl
    · have hpos := h.pos m
      rw [if_neg hm, hpos]
      by_cases hmem : m ∈ names
      · rw [if_pos (List.mem_append_right _ hmem), if_pos hmem, List.length_append,
          List.idxOf_append, if_neg hm]
        congr 1
        omega
      · rw [if_neg (by simp [hm, hmem]), if_neg hmem]
  held := by
    intro m slot k hm hk
    rw [hslots, getElem?_foldl_erase] at hm
    split at hm
    · cases hm
    · exact h.held m slot k hm hk

end LowerState

namespace LowerState

variable {S : Setting} {s s' : LowerState} {names : List String} {code : List Instruction}

/-- Where the code of a statement leads: the slots are where they were, on top of the stack unless
control does not get there. -/
structure Past (S : Setting) (names : List String) (s s' : LowerState) (code : List Instruction)
    (ends : Bool) : Prop extends Adds s s' code where
  kept : s'.Kept S names
  laid : ends = false → s'.Laid S names []
  scans : ∀ {cap}, s'.peak ≤ cap →
    Scannable (S.heights cap) (some names.length) code (knownAfter ends names.length)

theorem Writes.past (h : s.Writes S s' code) (hs : s.Laid S names []) (hs' : s'.Laid S names []) :
    s.Past S names s' code false :=
  ⟨h.toAdds, hs'.toKept, fun _ => hs', h.scans_laid hs hs'⟩

theorem Past.nothing (hs : s.Laid S names []) : s.Past S names s [] false :=
  Writes.refl.past hs hs

/-- Code that an instruction follows after which control does not go on. -/
theorem Writes.stop {s₁ : LowerState} {temps : List StackType} {i : Instruction}
    (h : s.Writes S s₁ code) (hs : s.Laid S names []) (hs₁ : s₁.Laid S names temps)
    (ha : s₁.Adds s' [i]) (hk : s'.Kept S names)
    (hstop : ∀ {cap}, Scannable (S.heights cap) (some (names.length + temps.length)) [i] none) :
    s.Past S names s' (code ++ [i]) true :=
  ⟨h.toAdds.trans ha, hk, nofun, fun hcap =>
    (h.scans_laid hs hs₁ (Nat.le_trans ha.peak hcap)).append hstop⟩

/-- Which blocks are open does not matter for code. -/
theorem Writes.reblock (h : s.Writes S s' code) (blocks : List OpenBlock) :
    Writes S { s with blocks := blocks } { s' with blocks := blocks } code :=
  ⟨⟨h.toGrows, h.tame, rfl⟩, h.scans⟩

/-- The code of a statement, as `R` tells, leads to a context in which the next can follow. -/
def Through (G : Lower.Rigour) (S : Setting) (names : List String) (cs : CheckState)
    (R : List Instruction → Bool → Prop) (s : LowerState) (ends : Bool) (s' : LowerState) : Prop :=
  ∃ code, R code ends ∧ s.Past S names s' code ends ∧ s'.Knows G cs

end LowerState

namespace Lower

open LowerState

variable {G : Rigour} {S : Setting} {env : LowerEnv} {s : LowerState} {names : List String}
  {cs cs' cs₁ cs₂ : CheckState} {post : Unit → LowerState → Prop}

/-- Declares a name that has no slot. -/
theorem Ends.ready_declare {n : String} {block : OpenBlock} {outer : List OpenBlock}
    (hs : s.Ready G S names [] cs) (hn : n ∉ names) (hblocks : s.blocks = block :: outer)
    (h : ∀ s', s.Writes S { s' with blocks := s.blocks } [.op .pushint [.uint 0]] →
      s'.blocks = { block with names := n :: block.names } :: outer →
      s'.Ready G S (n :: names) [] cs → post () s') :
    (Lower.declare n).Ends G.faults env s post := by
  refine .bind (.ready_op [] [.uint64] hs rfl rfl rfl rfl (fun _ => ⟨by decide, rfl⟩)
    fun s₁ hw₁ hs₁ => ?_)
  refine .bind (.count ⟨rfl, rfl, rfl, rfl, rfl, rfl, rfl, Nat.le_refl _⟩
    fun s₂ hnext₂ => .update ?_)
  have hs₂ := hs₁.toLaid.same hnext₂
  have hw := hw₁.silent (hnext₂.adds.writes (hs₂.depth.trans hs₁.depth.symm))
  have hblocks₂ : s₂.blocks = block :: outer := hw.blocks.trans hblocks
  have htame : ∀ m, s.Tame m → LowerState.Tame
      { s₂ with
        slots := s₂.slots.insert n ⟨s₂.builder.depth, none⟩
        blocks := { block with names := n :: block.names } :: outer } m :=
    fun m hm => hs₂.toKept.tame_declare hn rfl (hw.tame m hm)
  rw [hblocks₂]
  refine h _ ⟨⟨hw.toGrows, htame, rfl⟩, hw.scans⟩ rfl (hs.after ⟨hw.machine, htame⟩ ⟨?_, ?_⟩)
  · exact hs₂.toKept.declare hn _ rfl (by rw [hs₂.depth]; rfl)
  · obtain ⟨vars, hstack, hlen, hheld⟩ := hs₂.stack
    refine ⟨.uint64 :: vars, hstack, by rw [List.length_cons, hlen, List.length_cons], ?_⟩
    exact List.forall_mem_cons.2 ⟨S.held_uint64, hheld⟩

/-- Declares the names that have no slot yet, one on top of the other. -/
theorem Ends.ready_declareAll {assigned : List String} {block : OpenBlock}
    {outer : List OpenBlock} (hs : s.Ready G S names [] cs) (hblocks : s.blocks = block :: outer)
    (h : ∀ s', s.Writes S { s' with blocks := s.blocks }
        (List.replicate (newNames names assigned).length (.op .pushint [.uint 0])) →
      s'.blocks = { block with names := (newNames names assigned).reverse ++ block.names } ::
        outer →
      s'.Ready G S ((newNames names assigned).reverse ++ names) [] cs → post () s') :
    (Lower.declareAll assigned).Ends G.faults env s post := by
  induction assigned generalizing s names block with
  | nil => exact .pure (h s .refl hblocks hs)
  | cons n ns ih =>
    refine .bind (.slot? ?_)
    by_cases hn : n ∈ names
    · obtain ⟨slot, hslot, -⟩ := hs.slot_of_mem hn
      rw [newNames, if_pos hn] at h
      rw [hslot]
      exact ih hs hblocks h
    · rw [newNames, if_neg hn] at h
      rw [hs.slot_of_not_mem hn]
      refine .bind (.ready_declare hs hn hblocks fun s₁ hw₁ hblocks₁ hs₁ => ?_)
      refine ih hs₁ hblocks₁ fun s' hw hblocks' hs' =>
        h s' (hw₁.trans (hw.reblock s.blocks)) ?_ ?_
      · simpa using hblocks'
      · simpa using hs'

/-- Leaves a block and takes its slots off the stack, if control gets there. -/
theorem Ends.leaveBlock {new : List String} {outer : List OpenBlock} {ends : Bool}
    (hR : Regime G s.builder.machine) (hs : s.Kept S (new ++ names))
    (hlaid : ends = false → s.Laid S (new ++ names) [])
    (hblocks : s.blocks = ⟨names.length, new⟩ :: outer)
    (h : ∀ s', s.builder.Grows s'.builder
        (if ends then [] else List.replicate new.length (.op .pop [])) 0 →
      s'.blocks = outer → (∀ n ∉ new, s.Tame n → s'.Tame n) → s'.Kept S names →
      (ends = false → s'.Laid S names []) →
      (∀ {cap}, s'.peak ≤ cap → Scannable (S.heights cap) (knownAfter ends (new ++ names).length)
        (if ends then [] else List.replicate new.length (.op .pop []))
        (knownAfter ends names.length)) → post () s') :
    (Lower.leaveBlock ends).Ends G.faults env s post := by
  refine .bind (.get ?_)
  rw [hblocks]
  cases ends with
  | true =>
    refine .bind (.update (.forget fun stack s' hnext => ?_))
    refine h s' hnext.toGrows hnext.blocks (fun n hn htame => htame.drop hnext.slots hn)
      (LowerState.Kept.next ?_ hnext) nofun fun _ => .nil
    exact hs.drop _ rfl rfl
  | false =>
    have hs := hlaid rfl
    obtain ⟨vars, hstack, hlen, hheld⟩ := hs.stack
    have hdepth : s.builder.stack.length = names.length + new.length := by
      rw [hs.length, List.length_append, List.length_nil]
      omega
    have hle : new.length ≤ s.builder.stack.length := by omega
    refine .bind (.update (.bind (.builder (.guard (fun hne => absurd hdepth hne) fun _ => ?_))))
    refine .popMany hR.toPermits hle fun s' hgoes => ?_
    have hs' : s'.Laid S names [] := by
      refine LowerState.Kept.laid ?_ hgoes.toNext
        ⟨vars.drop new.length, ?_, ?_, fun k hk => hheld k (List.mem_of_mem_drop hk)⟩
      · exact hs.toKept.drop _ rfl rfl
      · show s.builder.stack.drop _ = _
        rw [hstack]
        rfl
      · rw [List.length_drop, hlen, List.length_append]
        omega
    refine h s' hgoes.toGrows hgoes.blocks (fun n hn htame => htame.drop hgoes.slots hn) hs'.toKept
      (fun _ => hs') fun hcap => ?_
    have hscans : Scannable (S.heights _) (some s.builder.depth) _ (some s'.builder.depth) :=
      hgoes.writes.scans hcap
    rw [hs.depth, hs'.depth] at hscans
    exact hscans

/-- `Runs G S names cs cs' x R`: from `cs` to `cs'`, on the slots of `names`, `x` emits some code,
as `R` tells, and leaves the slots where they are. -/
def Runs (G : Rigour) (S : Setting) (names : List String) (cs cs' : CheckState) (x : Lower Bool)
    (R : List Instruction → Bool → Prop) : Prop :=
  ∀ s : LowerState, s.Ready G S names [] cs →
    x.Ends G.faults S.lower s (s.Through G S names cs' R)

/-- The code of statements in a row, some of which control may not get to. -/
def MayRun (G : Rigour) (S : Setting) (names : List String) (cs cs' : CheckState) (x : Lower Bool)
    (R : List Instruction → Bool → Prop) : Prop :=
  ∀ s : LowerState, s.Ready G S names [] cs → x.Ends G.faults S.lower s fun ends s' =>
    ∃ code, R code ends ∧ s.Past S names s' code ends ∧ (ends = false → s'.Knows G cs')

/-- Naming a construct changes nothing for its code. -/
theorem Ends.ready_within {label : String} {x : Lower Bool} {R : List Instruction → Bool → Prop}
    (hs : s.Ready G S names [] cs)
    (h : ∀ s₁, s.Carries s₁ → s₁.Ready G S names [] cs →
      x.Ends G.faults S.lower s₁ (s₁.Through G S names cs' R)) :
    Ends G.faults (Lower.within label x) S.lower s (s.Through G S names cs' R) := by
  have hnamed : LowerState.Ready G S { s with site := label :: s.site } names [] cs :=
    ⟨⟨⟨hs.main, hs.nodup, hs.pos, hs.held⟩, hs.stack⟩, hs.regime, hs.application, hs.bytes, hs.tame⟩
  refine .within ((h { s with site := label :: s.site } ⟨rfl, fun _ hn => hn⟩ hnamed).mono ?_)
  rintro ends s' ⟨code, hR, hp, hknows⟩
  have hk := hp.kept
  exact ⟨code, hR, ⟨⟨hp.toGrows, hp.tame, hp.blocks⟩, ⟨hk.main, hk.nodup, hk.pos, hk.held⟩,
    fun hends => ⟨⟨hk.main, hk.nodup, hk.pos, hk.held⟩, (hp.laid hends).stack⟩, hp.scans⟩, hknows⟩

theorem Runs.within {label : String} {x : Lower Bool} {R : List Instruction → Bool → Prop}
    (h : Runs G S names cs cs' x R) : Runs G S names cs cs' (Lower.within label x) R :=
  fun _ hs => .ready_within hs fun s₁ _ => h s₁

theorem Runs.mono {x : Lower Bool} {R R' : List Instruction → Bool → Prop}
    (h : Runs G S names cs cs' x R) (himp : ∀ code ends, R code ends → R' code ends) :
    Runs G S names cs cs' x R' :=
  fun s hs => (h s hs).mono fun _ _ ⟨code, hR, hrest⟩ => ⟨code, himp _ _ hR, hrest⟩

/-- A block: its slots come first, and go at its end if control gets there. What is known of the
slots around it stays known. -/
theorem Ends.ready_block {assigned : List String} {body : Lower Bool}
    {post : Bool → LowerState → Prop} (hs : s.Ready G S names [] cs)
    (h : ∀ s₁, s.Carries s₁ → s₁.Ready G S ((newNames names assigned).reverse ++ names) [] cs →
      body.Ends G.faults S.lower s₁ fun ends s₂ => ∃ inner,
        s₁.Past S ((newNames names assigned).reverse ++ names) s₂ inner ends ∧
        ∀ s', s.Past S names s'
            (List.replicate (newNames names assigned).length (.op .pushint [.uint 0]) ++ inner ++
              if ends then [] else List.replicate (newNames names assigned).length (.op .pop []))
            ends →
          (∀ n ∉ newNames names assigned, s₂.Tame n → s'.Tame n) → post ends s') :
    (Lower.block assigned body).Ends G.faults S.lower s post := by
  have hopen : LowerState.Ready G S { s with blocks := ⟨s.builder.depth, []⟩ :: s.blocks }
      names [] cs :=
    ⟨⟨⟨hs.main, hs.nodup, hs.pos, hs.held⟩, hs.stack⟩, hs.regime, hs.application, hs.bytes, hs.tame⟩
  refine .bind (.update (.bind (.ready_declareAll hopen rfl fun s₁ hw₁ hblocks₁ hs₁ => ?_)))
  have hw₁ : s.Writes S { s₁ with blocks := s.blocks } _ := hw₁.reblock s.blocks
  have hcarries₁ : s.Carries s₁ := ⟨hw₁.machine, hw₁.tame⟩
  refine .bind ((h s₁ hcarries₁ hs₁).mono fun ends s₂ ⟨inner, hp₂, hpost⟩ => ?_)
  have hblocks₂ : s₂.blocks = ⟨names.length, (newNames names assigned).reverse⟩ :: s.blocks := by
    rw [hp₂.blocks, hblocks₁, hs.depth, List.append_nil]
    rfl
  have hcarries := hcarries₁.trans hp₂.carries
  -- What had a slot before the block does not lose it.
  have hold : ∀ n, s.Tame n → n ∉ newNames names assigned := by
    rintro n ⟨slot, k, hslot, -⟩ hn
    rw [hs.slot_of_not_mem (mem_newNames.1 hn).2] at hslot
    cases hslot
  refine .bind (.leaveBlock (hcarries.machine ▸ hs.regime) hp₂.kept hp₂.laid hblocks₂
    fun s' hgrows hblocks htame hk hs' hscans => .pure ?_)
  rw [List.length_reverse] at hgrows hscans
  have htame : ∀ n ∉ newNames names assigned, s₂.Tame n → s'.Tame n :=
    fun n hn => htame n (by simpa using hn)
  refine hpost s' ⟨⟨(hw₁.toGrows.trans hp₂.toGrows).trans hgrows, fun n hn =>
    htame n (hold n hn) (hcarries.tame n hn), hblocks⟩, hk, hs', fun hcap => ?_⟩ htame
  have hcap₂ := Nat.le_trans hgrows.peak hcap
  have hfirst := hw₁.scans (Nat.le_trans hp₂.peak hcap₂)
  have hdepth₁ : ({ s₁ with blocks := s.blocks } : LowerState).builder.depth =
      ((newNames names assigned).reverse ++ names).length := hs₁.depth
  rw [hs.depth, hdepth₁] at hfirst
  exact (hfirst.append (hp₂.scans hcap₂)).append (hscans hcap)

/-- The variables of a block are gone after it. -/
theorem MayRun.block {assigned : List String} {body : Lower Bool}
    {R : List Instruction → Bool → Prop}
    (h : MayRun G S ((newNames names assigned).reverse ++ names) cs₁ cs₂ body R)
    (hstart : ∀ n, cs₁.HoldsAny n → cs.HoldsAny n) (hend : ∀ n, cs'.HoldsAny n → cs.HoldsAny n) :
    Runs G S names cs cs' (Lower.block assigned body) fun code ends => ∃ inner, R inner ends ∧
      code = List.replicate (newNames names assigned).length (.op .pushint [.uint 0]) ++ inner ++
        if ends then []
        else List.replicate (newNames names assigned).length (.op .pop []) := by
  intro s hs
  refine .ready_block hs fun s₁ hc₁ hs₁ => ?_
  have hs₁ := hs₁.mono fun hstrict n hn => hs₁.tame hstrict n (hstart n hn)
  refine (h s₁ hs₁).mono fun ends s₂ ⟨inner, hR, hp₂, _⟩ =>
    ⟨inner, hp₂, fun s' hp _ => ⟨_, ⟨inner, hR, rfl⟩, hp, fun hstrict n hn => ?_⟩⟩
  exact hp.tame n (hs.tame hstrict n (hend n hn))

end Lower

end ContractCompiler
