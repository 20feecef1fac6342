import Mathlib.Data.List.Nodup
import ContractCompiler.Proofs.Lowering.Emission
import ContractCompiler.Proofs.Semantics.Evaluation

/-!
# Following an evaluation

What it means that the machine does what an evaluation does: it gets to a state that belongs to
the result, or ends in the same way. An evaluation that reaches its bound is followed by a run
that goes on for at least as many steps; so if every evaluation of a program is followed, the
program and the machine end alike.
-/

namespace ContractCompiler

/-! ## Stores in slots -/

/-- The names that are bound in a store are `names`, and slots for them, topmost first, hold
`values`. -/
structure Store.Laid (σ : Store) (names : List String) (values : List UInt64) : Prop where
  length : values.length = names.length
  bound : ∀ n ∈ names, σ n = values[names.idxOf n]?
  unbound : ∀ n ∉ names, σ n = none

namespace Store

variable {σ σ' : Store} {names new ns : List String} {values values' : List UInt64} {n : String}

theorem Laid.exists_value (h : σ.Laid names values) (hn : n ∈ names) :
    ∃ v, σ n = some v ∧ values[names.idxOf n]? = some v := by
  have hlt : names.idxOf n < values.length := by
    rw [h.length]
    exact List.idxOf_lt_length_of_mem hn
  have hget := List.getElem?_eq_getElem hlt
  exact ⟨_, (h.bound n hn).trans hget, hget⟩

theorem Laid.eq_none_iff (h : σ.Laid names values) : σ n = none ↔ n ∉ names := by
  constructor
  · intro hnone hn
    obtain ⟨v, hv, -⟩ := h.exists_value hn
    rw [hnone] at hv
    cases hv
  · exact h.unbound n

/-- The names that a block binds are those that have no slot yet. -/
theorem Laid.mem_new (h : σ.Laid names values) (hnew : ∀ n, n ∈ new ↔ n ∈ ns ∧ n ∉ names) :
    (n ∈ ns ∧ σ n = none) ↔ n ∈ new := by
  rw [h.eq_none_iff, hnew]

/-- A name gets another value in its slot. -/
theorem Laid.set (h : σ.Laid names values) (hn : n ∈ names) (v : UInt64) :
    (σ.set n v).Laid names (values.set (names.idxOf n) v) where
  length := by rw [List.length_set, h.length]
  bound := by
    intro m hm
    unfold Store.set
    by_cases hmn : m = n
    · subst hmn
      have hlt : names.idxOf m < values.length := by
        rw [h.length]
        exact List.idxOf_lt_length_of_mem hm
      rw [if_pos rfl, List.getElem?_set_self hlt]
    · have hne : names.idxOf n ≠ names.idxOf m := fun heq => hmn ((List.idxOf_inj hn).1 heq).symm
      rw [if_neg hmn, List.getElem?_set_ne hne, h.bound m hm]
  unbound := by
    intro m hm
    have hmn : m ≠ n := by
      rintro rfl
      exact hm hn
    unfold Store.set
    rw [if_neg hmn, h.unbound m hm]

/-- New names come into slots on top, with the value zero. -/
theorem Laid.bind (h : σ.Laid names values) (hnew : ∀ n, n ∈ new ↔ n ∈ ns ∧ n ∉ names) :
    (σ.bind ns).Laid (new.reverse ++ names) (List.replicate new.length 0 ++ values) where
  length := by simp [h.length]
  bound := by
    intro m hm
    unfold Store.bind
    by_cases hmem : m ∈ new
    · have hrev : m ∈ new.reverse := List.mem_reverse.2 hmem
      have hlt : new.reverse.idxOf m < new.length := by
        rw [← List.length_reverse]
        exact List.idxOf_lt_length_of_mem hrev
      rw [if_pos ((h.mem_new hnew).2 hmem), List.idxOf_append_of_mem hrev, List.getElem?_append_left (by simpa using hlt),
        List.getElem?_replicate, if_pos hlt]
    · have hrev : m ∉ new.reverse := fun hmem' => hmem (List.mem_reverse.1 hmem')
      have hold : m ∈ names := (List.mem_append.1 hm).resolve_left hrev
      rw [if_neg (hmem ∘ (h.mem_new hnew).1), List.idxOf_append_of_notMem hrev, List.getElem?_append_right (by simp),
        h.bound m hold]
      simp
  unbound := by
    intro m hm
    rw [List.mem_append, List.mem_reverse, not_or] at hm
    unfold Store.bind
    rw [if_neg (hm.1 ∘ (h.mem_new hnew).1), h.unbound m hm.2]

/-- Without the slots of the new names, the store is laid out as before. -/
theorem Laid.unbind (h : σ.Laid names values) (hnew : ∀ n, n ∈ new ↔ n ∈ ns ∧ n ∉ names)
    (h' : σ'.Laid (new.reverse ++ names) values') :
    (σ'.unbind σ ns).Laid names (values'.drop new.length) where
  length := by simp [h'.length]
  bound := by
    intro m hm
    have hmem : m ∉ new := fun hmem => ((hnew m).1 hmem).2 hm
    have hrev : m ∉ new.reverse := fun hmem' => hmem (List.mem_reverse.1 hmem')
    unfold Store.unbind
    rw [if_neg (hmem ∘ (h.mem_new hnew).1), h'.bound m (List.mem_append_right _ hm),
      List.idxOf_append_of_notMem hrev, List.getElem?_drop, List.length_reverse]
  unbound := by
    intro m hm
    unfold Store.unbind
    by_cases hmem : m ∈ new
    · rw [if_pos ((h.mem_new hnew).2 hmem)]
    · rw [if_neg (hmem ∘ (h.mem_new hnew).1)]
      refine h'.unbound m fun hm' => ?_
      rcases List.mem_append.1 hm' with hrev | hold
      · exact hmem (List.mem_reverse.1 hrev)
      · exact hm hold

theorem lookup_reverse {pairs : List (String × UInt64)} (h : (pairs.map Prod.fst).Nodup) :
    pairs.reverse.lookup n = pairs.lookup n := by
  have hmem : ∀ {l : List (String × UInt64)} {v : UInt64}, (l.map Prod.fst).Nodup →
      (l.lookup n = some v ↔ (n, v) ∈ l) := by
    intro l v hl
    induction l with
    | nil => simp
    | cons q l ih =>
      obtain ⟨m, w⟩ := q
      obtain ⟨hm, hl⟩ := List.nodup_cons.1 hl
      by_cases hmn : n = m
      · subst hmn
        have hnot : (n, v) ∉ l := fun hv => hm (List.mem_map.2 ⟨_, hv, rfl⟩)
        simp [hnot, eq_comm]
      · have hbeq : (n == m) = false := by simpa using hmn
        simp [List.lookup_cons, hbeq, ih hl, hmn]
  have hrev : (pairs.reverse.map Prod.fst).Nodup := by
    rw [List.map_reverse]
    exact List.nodup_reverse.2 h
  refine Option.ext fun v => ?_
  rw [hmem hrev, hmem h, List.mem_reverse]

theorem lookup_zip (hlen : values.length = names.length) (hn : n ∈ names) :
    (names.zip values).lookup n = values[names.idxOf n]? := by
  induction names generalizing values with
  | nil => cases hn
  | cons m names ih =>
    obtain ⟨v, values, rfl⟩ := List.exists_cons_of_length_eq_add_one hlen
    by_cases hnm : n = m
    · subst hnm
      simp
    · have hbeq : (m == n) = false := by simpa using Ne.symm hnm
      have hbeq' : (n == m) = false := by simpa using hnm
      have hlen' : values.length = names.length := by simpa using hlen
      rw [List.zip_cons_cons, List.lookup_cons, hbeq', ih hlen' (List.mem_of_ne_of_mem hnm hn)]
      simp [List.idxOf_cons, hbeq]

theorem lookup_zip_eq_none (hn : n ∉ names) : (names.zip values).lookup n = none := by
  rw [List.lookup_eq_none_iff]
  intro q hq
  refine bne_iff_ne.2 ?_
  rintro rfl
  exact hn (List.of_mem_zip hq).1

/-- The parameters of a function are in slots in which the caller has left the arguments. -/
theorem laid_ofArguments {params : List String} {args : List UInt64} (hparams : params.Nodup)
    (hlen : args.length = params.length) :
    (ofArguments params args).Laid params.reverse args.reverse := by
  have hfst : ((params.zip args).map Prod.fst).Nodup := by
    rw [List.map_fst_zip (by omega)]
    exact hparams
  have hrev : (params.zip args).reverse = params.reverse.zip args.reverse := by
    unfold List.zip
    exact List.reverse_zipWith hlen.symm
  refine ⟨by simp [hlen], fun n hn => ?_, fun n hn => ?_⟩
  · unfold ofArguments
    rw [← lookup_reverse hfst, hrev, lookup_zip (by simp [hlen]) hn]
  · unfold ofArguments
    rw [← lookup_reverse hfst, hrev, lookup_zip_eq_none hn]

end Store

/-! ## Following -/

namespace Machine

/-- `m.Follows code bound x post`: the machine does what the evaluation `x` does. If that gives a
result, the machine gets to a state that `post` asks for; if that reaches its bound, the machine
goes on for at least `bound` steps. -/
def Follows (code : List Instruction) (bound : Nat) (m : Machine) {α : Type} (x : Except Stop α)
    (post : α → Machine → Prop) : Prop :=
  match x with
  | .ok a => ∃ k m', Steps code k m m' ∧ post a m'
  | .error (.ended r) => ∃ n, m.run code n = some r
  | .error .timeout => ∃ k m', bound ≤ k ∧ Steps code k m m'
  | .error .stuck => False

variable {α β : Type} {code : List Instruction} {bound bound' k : Nat} {m m₁ : Machine}
  {x : Except Stop α} {post : α → Machine → Prop} {post' : β → Machine → Prop} {a : α} {r : Report}

theorem Follows.done (h : post a m) : m.Follows code bound (.ok a) post :=
  ⟨0, m, .refl, h⟩

theorem Follows.ended {n : Nat} (h : m.run code n = some r) :
    m.Follows code bound (.error (.ended r) : Except Stop α) post :=
  ⟨n, h⟩

theorem Follows.timeout : m.Follows code 0 (.error .timeout : Except Stop α) post :=
  ⟨0, m, Nat.le_refl 0, .refl⟩

theorem Follows.weaken (h : m.Follows code bound x post) (hle : bound' ≤ bound) :
    m.Follows code bound' x post := by
  match x with
  | .ok a => exact h
  | .error (.ended r) => exact h
  | .error .timeout =>
    obtain ⟨k, m', hk, hsteps⟩ := h
    exact ⟨k, m', Nat.le_trans hle hk, hsteps⟩
  | .error .stuck => exact h

/-- Some steps before a run that follows. They count for the bound. -/
theorem Follows.after (hsteps : Steps code k m m₁) (h : m₁.Follows code bound x post) :
    m.Follows code (bound + k) x post := by
  match x with
  | .ok a =>
    obtain ⟨j, m₂, hsteps', hpost⟩ := h
    exact ⟨k + j, m₂, hsteps.trans hsteps', hpost⟩
  | .error (.ended r) =>
    obtain ⟨n, hrun⟩ := h
    exact ⟨k + n, (hsteps.run n).trans hrun⟩
  | .error .timeout =>
    obtain ⟨j, m₂, hj, hsteps'⟩ := h
    exact ⟨k + j, m₂, by omega, hsteps.trans hsteps'⟩
  | .error .stuck => exact h

theorem Follows.steps (hsteps : Steps code k m m₁) (h : m₁.Follows code bound x post) :
    m.Follows code bound x post :=
  (h.after hsteps).weaken (Nat.le_add_right bound k)

theorem Follows.step (hstep : m.step code = .next m₁) (h : m₁.Follows code bound x post) :
    m.Follows code bound x post :=
  h.steps (.step hstep .refl)

/-- One part of an evaluation after another. -/
theorem Follows.bind {f : α → Except Stop β} (hx : m.Follows code bound x post)
    (hf : ∀ a m', post a m' → m'.Follows code bound (f a) post') :
    m.Follows code bound (x >>= f) post' := by
  match x with
  | .ok a =>
    obtain ⟨k, m', hsteps, hpost⟩ := hx
    exact (hf a m' hpost).steps hsteps
  | .error (.ended r) => exact hx
  | .error .timeout => exact hx
  | .error .stuck => exact hx

theorem Follows.imp {post' : α → Machine → Prop} (h : m.Follows code bound x post)
    (hpost : ∀ a m', post a m' → post' a m') : m.Follows code bound x post' := by
  match x with
  | .ok a =>
    obtain ⟨k, m', hsteps, hm'⟩ := h
    exact ⟨k, m', hsteps, hpost a m' hm'⟩
  | .error (.ended r) => exact h
  | .error .timeout => exact h
  | .error .stuck => exact h

/-- Some steps after a run that follows. -/
theorem Follows.andSteps {post' : α → Machine → Prop} (h : m.Follows code bound x post)
    (hpost : ∀ a m', post a m' → ∃ k m'', Steps code k m' m'' ∧ post' a m'') :
    m.Follows code bound x post' := by
  match x with
  | .ok a =>
    obtain ⟨j, m', hsteps, hm'⟩ := h
    obtain ⟨k, m'', hsteps', hm''⟩ := hpost a m' hm'
    exact ⟨j + k, m'', hsteps.trans hsteps', hm''⟩
  | .error (.ended r) => exact h
  | .error .timeout => exact h
  | .error .stuck => exact h

/-! ## Code that moves slots -/

variable {pc n : Nat} {s vs ws : List Value} {v w : Value} {frames : List Nat}
  {logs : List (List UInt8)}

theorem step_op {c : Opcode} {operands : List Operand} {turn : Turn}
    (h : code[m.pc]? = some (.op c operands)) (hexec : m.exec code c operands = turn) :
    m.step code = turn := by
  rw [← hexec, Machine.step, h]

theorem step_label {l : String} (h : code[m.pc]? = some (.label l)) :
    m.step code = m.goOn m.stack := by
  rw [Machine.step, h]

theorem steps_pops (h : Stands code pc (List.replicate vs.length (.op .pop []))) :
    Steps code vs.length ⟨pc, vs ++ s, frames, logs⟩ ⟨pc + vs.length, s, frames, logs⟩ := by
  induction vs generalizing pc with
  | nil => exact .refl
  | cons v vs ih =>
    obtain ⟨hpop, hrest⟩ := stands_cons.1 h
    have hsteps := ih hrest
    rw [Nat.add_right_comm] at hsteps
    exact .step (step_op hpop rfl) hsteps

theorem steps_pushes (h : Stands code pc (List.replicate n (.op .pushint [.uint 0]))) :
    Steps code n ⟨pc, s, frames, logs⟩ ⟨pc + n, List.replicate n (.uint 0) ++ s, frames, logs⟩ := by
  induction n generalizing pc s with
  | zero => exact .refl
  | succ n ih =>
    obtain ⟨hpush, hrest⟩ := stands_cons.1 h
    have hsteps := ih (s := .uint 0 :: s) hrest
    have hpc : pc + (n + 1) = pc + 1 + n := by omega
    rw [hpc, List.replicate_succ', List.append_assoc]
    exact .step (step_op hpush rfl) hsteps

theorem exec_cover (hlen : vs.length = n) (hn : n ≤ maxImmediate) :
    exec code ⟨pc, v :: (vs ++ s), frames, logs⟩ .cover [.uint (UInt64.ofNat n)] =
      .next ⟨pc + 1, vs ++ v :: s, frames, logs⟩ := by
  subst hlen
  simp [exec, goOn, Lower.toNat_ofNat_of_le_maxImmediate hn]

theorem exec_uncover (hlen : vs.length = n) (hn : n ≤ maxImmediate) :
    exec code ⟨pc, vs ++ w :: s, frames, logs⟩ .uncover [.uint (UInt64.ofNat n)] =
      .next ⟨pc + 1, w :: (vs ++ s), frames, logs⟩ := by
  subst hlen
  simp [exec, goOn, Lower.toNat_ofNat_of_le_maxImmediate hn, List.eraseIdx_append_of_length_le]

theorem exec_dig (hget : s[n]? = some v) (hn : n ≤ maxImmediate) :
    exec code ⟨pc, s, frames, logs⟩ .dig [.uint (UInt64.ofNat n)] =
      .next ⟨pc + 1, v :: s, frames, logs⟩ := by
  simp [exec, goOn, Lower.toNat_ofNat_of_le_maxImmediate hn, hget]

/-- The value on top goes into the slot below `vs`. -/
theorem steps_replace (hlen : vs.length + 1 = n) (hn : n ≤ maxImmediate)
    (h : Stands code pc (Lower.replaceCode n)) :
    ∃ k, Steps code k ⟨pc, v :: (vs ++ w :: s), frames, logs⟩
      ⟨pc + (Lower.replaceCode n).length, vs ++ v :: s, frames, logs⟩ := by
  subst hlen
  cases vs with
  | nil =>
    obtain ⟨hswap, hrest⟩ := stands_cons.1 h
    obtain ⟨hpop, -⟩ := stands_cons.1 hrest
    exact ⟨2, .step (step_op hswap rfl) (.step (step_op hpop rfl) .refl)⟩
  | cons u vs =>
    obtain ⟨hcover, hrest⟩ := stands_cons.1 h
    obtain ⟨huncover, hrest⟩ := stands_cons.1 hrest
    obtain ⟨hpop, -⟩ := stands_cons.1 hrest
    -- The value goes below the slot, which then comes to the top.
    have hunder := @exec_cover code pc (vs.length + 2) s (u :: vs ++ [w]) v frames logs
      (by simp) hn
    rw [List.append_assoc, List.append_assoc] at hunder
    have hout := @exec_uncover code (pc + 1) _ (v :: s) (u :: vs) w frames logs rfl (by omega)
    exact ⟨3, .step (step_op hcover hunder) (.step (step_op huncover hout)
      (.step (step_op hpop rfl) .refl))⟩

/-- The slots below the value on top go away. -/
theorem steps_drop (hlen : vs.length = n) (hn : n ≤ maxImmediate)
    (h : Stands code pc (dropCode n)) :
    ∃ k, Steps code k ⟨pc, v :: (vs ++ s), frames, logs⟩
      ⟨pc + (dropCode n).length, v :: s, frames, logs⟩ := by
  subst hlen
  match vs with
  | [] => exact ⟨0, .refl⟩
  | [w] =>
    obtain ⟨hswap, hrest⟩ := stands_cons.1 h
    obtain ⟨hpop, -⟩ := stands_cons.1 hrest
    exact ⟨2, .step (step_op hswap rfl) (.step (step_op hpop rfl) .refl)⟩
  | u :: w :: vs =>
    obtain ⟨hcover, hpops⟩ := stands_cons.1 h
    have hunder := @exec_cover code pc _ s (u :: w :: vs) v frames logs rfl hn
    have hsteps := @steps_pops code (pc + 1) (v :: s) (u :: w :: vs) frames logs hpops
    have hpc : pc + (dropCode (u :: w :: vs).length).length =
        pc + 1 + (u :: w :: vs).length := by
      simp only [List.length_cons, dropCode, List.length_replicate]
      omega
    rw [hpc]
    exact ⟨_, .step (step_op hcover hunder) hsteps⟩

end Machine

end ContractCompiler
