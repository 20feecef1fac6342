import ContractCompiler.Proofs.Lowering.Control
import ContractCompiler.Proofs.Semantics.Following

/-!
# Access to slots

What the code that reads, replaces and drops slots does on the machine. Reading a variable copies
its value to the top. Storing a value moves it into the slot of the variable and leaves everything
else in its place. Returning takes away the frame of a function but for the value on top, and nothing
of what is below the frame.
-/

namespace ContractCompiler

/-- Wherever the code stands, running it turns one stack into the other and changes nothing else. -/
def Machine.Rewrites (piece : List Instruction) (stack stack' : List Value) : Prop :=
  ∀ (code : List Instruction) (pc : Nat) (frames : List Nat) (logs : List (List UInt8)),
    Stands code pc piece → ∃ k, Machine.Steps code k ⟨pc, stack, frames, logs⟩
      ⟨pc + piece.length, stack', frames, logs⟩

theorem Machine.Rewrites.append {piece piece' : List Instruction}
    {stack stack₁ stack₂ : List Value} (h : Machine.Rewrites piece stack stack₁)
    (h' : Machine.Rewrites piece' stack₁ stack₂) :
    Machine.Rewrites (piece ++ piece') stack stack₂ := by
  intro code pc frames logs hstands
  obtain ⟨hpiece, hpiece'⟩ := stands_append.1 hstands
  obtain ⟨j, hsteps⟩ := h code pc frames logs hpiece
  obtain ⟨k, hsteps'⟩ := h' code _ frames logs hpiece'
  rw [List.length_append, ← Nat.add_assoc]
  exact ⟨j + k, hsteps.trans hsteps'⟩

namespace Lower

open Machine (Rewrites)

/-- The version of the machine lacks an operation. -/
def Lacks (version : Nat) (fault : CodeFault) : Prop :=
  ∃ op : Opcode, op.costAt version = none ∧ fault = .unavailable op version

theorem Permits.lacks (machine : Nat × Mode) : Permits (Lacks machine.1) machine :=
  ⟨fun code _ hcost => ⟨code, hcost, rfl⟩⟩

variable {F : CodeFault → Prop} {env : LowerEnv} {s : LowerState} {post : Unit → LowerState → Prop}

theorem Ends.distance {pos : Nat} {post : Nat → LowerState → Prop} (hpos : pos ≤ s.builder.depth)
    (hmax : s.builder.depth - pos ≤ maxImmediate) (h : post (s.builder.depth - pos) s) :
    (Lower.distance pos).Ends F env s post := by
  refine .bind (.builder (.guard (fun hlt => absurd hpos (Nat.not_le_of_lt hlt)) fun _ => ?_))
  exact .guard (fun hlt => absurd hmax (Nat.not_le_of_lt hlt)) fun _ => .pure h

/-- Noting what was stored changes no code. -/
theorem Ends.noteStore {name : String} {type : StackType}
    (h : ∀ s', s'.builder = s.builder → post () s') :
    (Lower.noteStore name type).Ends F env s post := by
  refine .update (h _ ?_)
  split <;> rfl

/-! ## Reading -/

theorem rewrites_dig {frame below : List Value} {v : Value} {n : Nat} (hn : n ≤ maxImmediate)
    (hv : frame[n]? = some v) :
    Rewrites [.op .dig [.uint (UInt64.ofNat n)]] (frame ++ below) (v :: frame ++ below) := by
  intro code pc frames logs hstands
  have hget : (frame ++ below)[n]? = some v := by
    rw [List.getElem?_append_left (List.getElem?_eq_some_iff.1 hv).1, hv]
  exact ⟨1, .step (Machine.step_op (stands_cons.1 hstands).1 (Machine.exec_dig hget hn)) .refl⟩

/-- A variable is read by copying its slot to the top. -/
theorem loadName_rewrites {name place : String} {offset : Nat} {slot : Slot}
    (hslot : s.slots[name]? = some slot) (hpos : 0 < slot.pos ∧ slot.pos ≤ s.builder.depth)
    (hmax : s.builder.depth - slot.pos ≤ maxImmediate) :
    (loadName name offset place).Ends (Lacks s.builder.version) env s fun _ s' =>
      ∃ piece, s'.builder.code = s.builder.code ++ piece ∧ ∀ frame below v,
        frame.length = s.builder.depth → frame[s.builder.depth - slot.pos]? = some v →
          Rewrites piece (frame ++ below) (v :: frame ++ below) := by
  have hlt : s.builder.depth - slot.pos < s.builder.stack.length := by
    have hdepth : s.builder.depth = s.builder.stack.length := rfl
    omega
  refine .bind (.slot? ?_)
  rw [hslot]
  refine .bind (.distance hpos.2 hmax ?_)
  refine .bind (.moving _ (.lacks s.builder.machine) rfl rfl
    (apply_dig hmax (List.getElem?_eq_getElem hlt)) fun s₁ hnext _ => ?_)
  have hcode : ∀ {s' : LowerState}, s'.builder.emitted = s₁.builder.emitted → ∃ piece,
      s'.builder.code = s.builder.code ++ piece ∧ ∀ frame below v,
        frame.length = s.builder.depth → frame[s.builder.depth - slot.pos]? = some v →
          Rewrites piece (frame ++ below) (v :: frame ++ below) := by
    intro s' hs'
    refine ⟨_, ?_, fun frame below v _ hv => rewrites_dig hmax hv⟩
    rw [Builder.code, hs', hnext.emitted, List.reverse_append, List.reverse_reverse]
    rfl
  refine .bind (.readType? ?_)
  split
  · exact .retypeTop hnext.stack fun s' hnext' => hcode hnext'.emitted
  · exact .pure (hcode rfl)

/-! ## Storing -/

theorem rewrites_replace {rest below : List Value} {v : Value} {m : Nat} (hm : m < rest.length)
    (hmax : m + 1 ≤ maxImmediate) :
    Rewrites (replaceCode (m + 1)) (v :: rest ++ below) (rest.set m v ++ below) := by
  intro code pc frames logs hstands
  have hlen : (rest.take m).length + 1 = m + 1 := by
    rw [List.length_take]
    omega
  have hsteps := @Machine.steps_replace code pc (m + 1) (rest.drop (m + 1) ++ below) (rest.take m) v
    (rest.get ⟨m, hm⟩) frames logs hlen hmax hstands
  have hsplit : rest = rest.take m ++ rest.get ⟨m, hm⟩ :: rest.drop (m + 1) := by simp
  rw [List.set_eq_take_append_cons_drop, if_pos hm]
  simpa only [← List.append_assoc, ← List.cons_append, ← hsplit] using hsteps

theorem rewrites_dup {v : Value} {rest : List Value} :
    Rewrites [.op .dup []] (v :: rest) (v :: v :: rest) :=
  fun _ _ _ _ hstands => ⟨1, .step (Machine.step_op (stands_cons.1 hstands).1 rfl) .refl⟩

/-- The value on top goes into a slot below it. -/
theorem Ends.replaceAt {name : String} {type k : StackType} {rest : StackShape} {pos : Nat}
    (hF : Permits F s.builder.machine) (hstack : s.builder.stack = k :: rest)
    (hpos : 0 < pos ∧ pos ≤ rest.length) (hmax : rest.length + 1 - pos ≤ maxImmediate)
    (h : ∀ s', s'.builder.code = s.builder.code ++ replaceCode (rest.length - pos + 1) →
      post () s') :
    (do
      Lower.replaceSlot (← Lower.distance pos)
      Lower.noteStore name type : Lower Unit).Ends F env s post := by
  have hdepth : s.builder.depth - pos = rest.length - pos + 1 := by
    rw [Builder.depth, hstack, List.length_cons]
    omega
  have hle : pos ≤ s.builder.depth := by
    rw [Builder.depth, hstack, List.length_cons]
    omega
  refine .bind (.distance hle (by omega) ?_)
  rw [hdepth]
  refine .bind (.replaceSlot hF hstack (by omega) (by omega) fun s₁ hnext => ?_)
  refine .noteStore fun s' hs' => h s' ?_
  rw [hs', Builder.code, hnext.emitted, List.reverse_append, List.reverse_reverse]
  rfl

/-- A variable is assigned by moving the value on top, or a copy of it, into its slot. -/
theorem store_rewrites {name : String} {span : Span} {slot : Slot} {value : Lower Unit}
    {s₁ : LowerState} (keep : Bool) (hslot : s.slots[name]? = some slot)
    (hvalue : value env s = .ok () s₁) (hpos : 0 < slot.pos ∧ slot.pos < s₁.builder.depth)
    (hmax : s₁.builder.depth + (if keep then 1 else 0) - slot.pos ≤ maxImmediate) :
    (store (.var (.name name span)) value keep).Ends (Lacks s₁.builder.version) env s fun _ s' =>
      ∃ piece, s'.builder.code = s₁.builder.code ++ piece ∧ ∀ v rest below,
        rest.length + 1 = s₁.builder.depth → Rewrites piece (v :: rest ++ below)
          ((if keep then [v] else []) ++ rest.set (rest.length - slot.pos) v ++ below) := by
  obtain ⟨k, types, hstack⟩ : ∃ k types, s₁.builder.stack = k :: types :=
    List.exists_cons_of_length_pos (Nat.lt_of_le_of_lt (Nat.zero_le _) hpos.2)
  have hdepth : s₁.builder.depth = types.length + 1 := by
    rw [Builder.depth, hstack, List.length_cons]
  have hF := Permits.lacks s₁.builder.machine
  have hends : value.Ends (Lacks s₁.builder.version) env s fun _ s' => s' = s₁ := by
    unfold Ends
    rw [hvalue]
  rw [hdepth] at hpos hmax
  refine .bind (.slot? ?_)
  rw [hslot]
  refine .bind (hends.mono ?_)
  rintro _ s₁ rfl
  refine .bind (.builder ?_)
  cases keep with
  | false =>
    refine .replaceAt hF hstack ⟨hpos.1, by omega⟩ hmax fun s' hcode => ⟨_, hcode, ?_⟩
    intro v rest below hlen
    rw [show types.length = rest.length by omega]
    exact rewrites_replace (by omega) (by simp at hmax; omega)
  | true =>
    refine .bind (.moving (k :: k :: types) hF rfl rfl (by rw [hstack]; rfl) fun s₂ hnext _ => ?_)
    have hF₂ : Permits (Lacks s₁.builder.version) s₂.builder.machine := hnext.machine ▸ hF
    refine .replaceAt hF₂ hnext.stack ⟨hpos.1, by simp; omega⟩ (by simpa using hmax) fun s' hcode =>
      ⟨[.op .dup []] ++ replaceCode ((k :: types).length - slot.pos + 1), ?_, ?_⟩
    · rw [hcode, Builder.code, hnext.emitted, List.reverse_append, List.reverse_reverse,
        List.append_assoc]
      rfl
    · intro v rest below hlen
      refine rewrites_dup.append ?_
      have hm : (k :: types).length - slot.pos = (rest.length - slot.pos) + 1 := by
        rw [List.length_cons]
        omega
      have hreplace := @rewrites_replace (v :: rest) below v (rest.length - slot.pos + 1)
        (by rw [List.length_cons]; omega) (by simp at hmax; omega)
      rw [hm]
      exact hreplace

/-! ## Dropping -/

/-- All slots of a frame but the one on top are dropped, if there are not too many. -/
theorem dropBelowTop_rewrites (hdepth : 1 ≤ s.builder.depth ∧ s.builder.depth ≤ maxImmediate + 1) :
    dropBelowTop.Ends (Lacks s.builder.version) env s fun _ s' =>
      ∃ piece, s'.builder.code = s.builder.code ++ piece ∧ ∀ v rest below,
        rest.length + 1 = s.builder.depth → Rewrites piece (v :: rest ++ below) (v :: below) := by
  obtain ⟨k, types, hstack⟩ : ∃ k types, s.builder.stack = k :: types :=
    List.exists_cons_of_length_pos hdepth.1
  have hlength : s.builder.depth = types.length + 1 := by
    rw [Builder.depth, hstack, List.length_cons]
  rw [hlength] at hdepth
  refine .dropBelowTop (.lacks s.builder.machine) hstack (fun hlt => by omega)
    fun _ s' hmax hgoes _ => ⟨dropCode types.length, ?_, ?_⟩
  · rw [Builder.code, hgoes.emitted, List.reverse_append, List.reverse_reverse]
    rfl
  · intro v rest below hlen code pc frames logs hstands
    exact Machine.steps_drop (by omega) hmax hstands

/-- Slots are read, replaced and dropped exactly: a read copies one value to the top, an assignment
changes one slot and takes the value away or keeps it, and a return leaves the value on top. -/
theorem slot_access_exact :
    (∀ (env : LowerEnv) (s : LowerState) (name place : String) (offset : Nat) (slot : Slot),
      s.slots[name]? = some slot → 0 < slot.pos ∧ slot.pos ≤ s.builder.depth →
      s.builder.depth - slot.pos ≤ maxImmediate →
      (loadName name offset place).Ends (Lacks s.builder.version) env s fun _ s' =>
        ∃ piece, s'.builder.code = s.builder.code ++ piece ∧ ∀ frame below v,
          frame.length = s.builder.depth → frame[s.builder.depth - slot.pos]? = some v →
            Rewrites piece (frame ++ below) (v :: frame ++ below)) ∧
    (∀ (env : LowerEnv) (s s₁ : LowerState) (name : String) (span : Span) (slot : Slot)
      (value : Lower Unit) (keep : Bool),
      s.slots[name]? = some slot → value env s = .ok () s₁ →
      0 < slot.pos ∧ slot.pos < s₁.builder.depth →
      s₁.builder.depth + (if keep then 1 else 0) - slot.pos ≤ maxImmediate →
      (store (.var (.name name span)) value keep).Ends (Lacks s₁.builder.version) env s fun _ s' =>
        ∃ piece, s'.builder.code = s₁.builder.code ++ piece ∧ ∀ v rest below,
          rest.length + 1 = s₁.builder.depth → Rewrites piece (v :: rest ++ below)
            ((if keep then [v] else []) ++ rest.set (rest.length - slot.pos) v ++ below)) ∧
    (∀ (env : LowerEnv) (s : LowerState),
      1 ≤ s.builder.depth ∧ s.builder.depth ≤ maxImmediate + 1 →
      dropBelowTop.Ends (Lacks s.builder.version) env s fun _ s' =>
        ∃ piece, s'.builder.code = s.builder.code ++ piece ∧ ∀ v rest below,
          rest.length + 1 = s.builder.depth → Rewrites piece (v :: rest ++ below) (v :: below)) :=
  ⟨fun _ _ _ _ _ _ hslot hpos hmax => loadName_rewrites hslot hpos hmax,
    fun _ _ _ _ _ _ _ keep hslot hvalue hpos hmax => store_rewrites keep hslot hvalue hpos hmax,
    fun _ _ hdepth => dropBelowTop_rewrites hdepth⟩

/-- The newest version of the machine lacks no operation. -/
theorem Ends.ok_of_lacks {x : Lower Unit} (h : x.Ends (Lacks maxVersion) env s post) :
    ∃ s', x env s = .ok () s' ∧ post () s' := by
  unfold Ends at h
  cases hx : x env s with
  | ok a s' =>
    rw [hx] at h
    exact ⟨s', rfl, h⟩
  | error d s' =>
    rw [hx] at h
    obtain ⟨fault, -, op, hcost, -⟩ := h
    cases op <;> cases hcost

/-- Below a temporary value there are two slots, of which the lower one is read. -/
theorem slot_access_exact_second : ∃ (env : LowerEnv) (s s' : LowerState) (piece : List Instruction),
    s.slots["x"]? = some ⟨1, none⟩ ∧ s.builder.depth = 3 ∧
      loadName "x" 0 "x" env s = .ok () s' ∧ s'.builder.code = s.builder.code ++ piece ∧
      ∀ temp y x below, Rewrites piece (temp :: y :: x :: below) (x :: temp :: y :: x :: below) := by
  let builder : Builder := ⟨[], [.any, .any, .any], maxVersion, .single .approval, .zero, 0⟩
  let s : LowerState := { LowerState.start builder with
    slots := (∅ : Std.ExtTreeMap String Slot).insert "x" ⟨1, none⟩ }
  let env : LowerEnv := ⟨.approval, [], fun _ => none⟩
  have hslot : s.slots["x"]? = some ⟨1, none⟩ := Std.ExtTreeMap.getElem?_insert_self
  have hread := slot_access_exact.1 env s "x" "x" 0 ⟨1, none⟩ hslot (by decide) (by decide)
  obtain ⟨s', hs', piece, hcode, hrewrites⟩ := hread.ok_of_lacks
  refine ⟨env, s, s', piece, hslot, rfl, hs', hcode, fun temp y x below => ?_⟩
  exact hrewrites [temp, y, x] below x rfl rfl

end Lower

end ContractCompiler
