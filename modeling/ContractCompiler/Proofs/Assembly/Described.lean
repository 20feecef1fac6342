import Mathlib.Data.List.Forall2
import Mathlib.Data.List.InsertIdx
import ContractCompiler.Proofs.Assembly.Machine
import ContractCompiler.Proofs.Lowering.Steps
import ContractCompiler.Proofs.Syntax.ExprProvenance

/-!
# Types describe values

While code is built, what is known of the stack is a list of types. Where these describe the values
on the stack of the machine and an operation is admitted, the machine has the values that it takes,
and the new types describe what it leaves. Operations that only copy and move values do the same to
types, slot by slot.
-/

namespace ContractCompiler

/-! ## Operations on a stack -/

/-- What comes of an operation on a stack of values. -/
inductive StackTurn where
  | left (stack : List Value)
  /-- There are fewer values than the operation takes. -/
  | underflow
  /-- The values are of the wrong kind, or there is no result for them. -/
  | rejected

/-- The result of an operation, on top of the values below. -/
def StackTurn.ofResult (v : Option Value) (below : List Value) : StackTurn :=
  match v with
  | some v => .left (v :: below)
  | none => .rejected

/-- An operation on the value on top. -/
def StackTurn.unary (f : Value → Option Value) : List Value → StackTurn
  | v :: s => .ofResult (f v) s
  | [] => .underflow

/-- An operation on two values, the second of which is on top. -/
def StackTurn.binary (f : Value → Value → Option Value) : List Value → StackTurn
  | y :: x :: s => .ofResult (f x y) s
  | _ => .underflow

/-- The number that bytes spell, the highest first. -/
def bigEndian (b : List UInt8) : Nat :=
  b.foldl (fun n x => n * 256 + x.toNat) 0

namespace Value

/-- A function of an integer. -/
def ofUint (f : UInt64 → Value) : Value → Option Value
  | .uint n => some (f n)
  | .bytes _ => none

/-- The integer that at most eight bytes spell. -/
def toInteger : Value → Option Value
  | .uint _ => none
  | .bytes b => if b.length ≤ 8 then some (.uint (.ofNat (bigEndian b))) else none

/-- The eight bytes of an integer. -/
def ofInteger (n : UInt64) : Value :=
  .bytes ((List.range 8).map fun i => (n.toNat >>> (8 * (7 - i))).toUInt8)

/-- A function of two integers. -/
def ofUints (f : UInt64 → UInt64 → Option UInt64) : Value → Value → Option Value
  | .uint x, .uint y => (f x y).map .uint
  | _, _ => none

/-- Whether two values of one kind are equal, as `wanted` says. -/
def same (wanted : Bool) : Value → Value → Option Value
  | .uint x, .uint y => some (.uint ((x == y) == wanted).toUInt64)
  | .bytes x, .bytes y => some (.uint ((x == y) == wanted).toUInt64)
  | _, _ => none

/-- Whether two byte strings of at most 64 bytes spell the same number, as `wanted` says. -/
def sameNumber (wanted : Bool) : Value → Value → Option Value
  | .bytes x, .bytes y =>
    if x.length ≤ 64 ∧ y.length ≤ 64 then
      some (.uint ((bigEndian x == bigEndian y) == wanted).toUInt64)
    else none
  | _, _ => none

end Value

namespace Opcode

/-- Whether an operation computes an integer from two. -/
def isNumeric (c : Opcode) : Bool :=
  (c.compute? 0 0).isSome

/-- The number that an operation takes as its only operand. -/
def depth? : List Operand → Option Nat
  | [.uint n] => some n.toNat
  | _ => none

/-- The stack after an operation that only copies or moves what is there, if there is enough. -/
def rearrange? {α : Type} (c : Opcode) (operands : List Operand) (s : List α) : Option (List α) :=
  match c with
  | .dup => s.head?.map (· :: s)
  | .swap =>
    match s with
    | v :: w :: s => some (w :: v :: s)
    | _ => none
  | .dig => (depth? operands).bind fun n => s[n]?.map (· :: s)
  | .cover => (depth? operands).bind fun n =>
    match s with
    | v :: s => if n ≤ s.length then some (s.take n ++ v :: s.drop n) else none
    | [] => none
  | .uncover => (depth? operands).bind fun n => s[n]?.map (· :: s.eraseIdx n)
  | _ => none

/-- Whether an operation only copies or moves values, by a number if it needs one. -/
def isRearranging (c : Opcode) (operands : List Operand) : Bool :=
  match c with
  | .dup | .swap => true
  | .dig | .cover | .uncover => (depth? operands).isSome
  | _ => false

/-- What an operation does to a stack of values, for operations on integers, constants and the order
of the stack. -/
def turn? (c : Opcode) (operands : List Operand) (s : List Value) : Option StackTurn :=
  if c.isRearranging operands then some ((c.rearrange? operands s).elim .underflow .left)
  else if c.isNumeric then some (.binary (Value.ofUints fun x y => (c.compute? x y).join) s)
  else match c, operands with
    | .pushint, [.uint n] => some (.left (.uint n :: s))
    | .pushbytes, [.bytes b] => some (.left (.bytes b :: s))
    | .pop, _ => some (if s.isEmpty then .underflow else .left s.tail)
    | .logicNot, _ => some (.unary (Value.ofUint fun n => .uint (n == 0).toUInt64) s)
    | .bitNot, _ => some (.unary (Value.ofUint fun n => .uint (~~~n)) s)
    | .itob, _ => some (.unary (Value.ofUint Value.ofInteger) s)
    | .btoi, _ => some (.unary Value.toInteger s)
    | .eq, _ => some (.binary (Value.same true) s)
    | .ne, _ => some (.binary (Value.same false) s)
    | .bytesEq, _ => some (.binary (Value.sameNumber true) s)
    | .bytesNe, _ => some (.binary (Value.sameNumber false) s)
    | _, _ => none

end Opcode

/-! ## Descriptions -/

/-- A type describes a value that is of that kind; some types describe all values. -/
inductive StackType.Describes : StackType → Value → Prop
  | uint (n : UInt64) : Describes .uint64 (.uint n)
  | bytes (b : List UInt8) : Describes .bytes (.bytes b)
  | any (v : Value) : Describes .any v

/-- Types describe what an operation leaves; it has enough values, but may be rejected. -/
def StackTurn.Described (types : StackShape) : StackTurn → Prop
  | left s => List.Forall₂ StackType.Describes types s
  | underflow => False
  | rejected => True

/-- The slots of `s'` are those of `s` at the places `ps`, the upper first. -/
def Rearranges {α : Type} (ps : List Nat) (s s' : List α) : Prop :=
  s'.map some = ps.map (s[·]?)

section Slots

variable {α β : Type} {R : α → β → Prop} {c : Opcode} {operands : List Operand} {s s' : List α}
  {u u' : List β}

/-- What is rearranged does not matter. -/
theorem Opcode.rearrange?_map (c : Opcode) (operands : List Operand) (f : α → β) (s : List α) :
    c.rearrange? operands (s.map f) = (c.rearrange? operands s).map (List.map f) := by
  cases c with
  | dup => cases s <;> rfl
  | swap => rcases s with _ | ⟨v, _ | ⟨w, s⟩⟩ <;> rfl
  | dig =>
    unfold rearrange?
    cases depth? operands with
    | none => rfl
    | some n => simp [Option.map_map, Function.comp_def]
  | cover =>
    unfold rearrange?
    cases depth? operands with
    | none => rfl
    | some n => cases s with
      | nil => rfl
      | cons v s => simp [apply_ite (Option.map (List.map f))]
  | uncover =>
    unfold rearrange?
    cases depth? operands with
    | none => rfl
    | some n => simp [Option.map_map, Function.comp_def, List.eraseIdx_map]
  | _ => rfl

/-- Two stacks of one height are rearranged in the same way. -/
theorem Opcode.rearranges (h : c.rearrange? operands s = some s') (hlen : u.length = s.length) :
    ∃ ps u', c.rearrange? operands u = some u' ∧ Rearranges ps s s' ∧ Rearranges ps u u' := by
  have hslots : ∀ {γ : Type} (l : List γ), l.map some = (List.range l.length).map (l[·]?) := by
    intro γ l
    refine List.ext_getElem (by simp) fun i hi _ => ?_
    rw [List.length_map] at hi
    simp [hi]
  have hmap := c.rearrange?_map operands some s
  rw [hslots, c.rearrange?_map, h] at hmap
  obtain ⟨ps, hps, heq⟩ := Option.map_eq_some_iff.1 hmap
  have hmap' := c.rearrange?_map operands some u
  rw [hslots, c.rearrange?_map, hlen, hps] at hmap'
  obtain ⟨u', hu', heq'⟩ := Option.map_eq_some_iff.1 hmap'.symm
  exact ⟨ps, u', hu', heq.symm, heq'⟩

/-- Slots that are rearranged in the same way stay related. -/
theorem Rearranges.forall₂ {ps : List Nat} (h : Rearranges ps s s') (h' : Rearranges ps u u')
    (hR : List.Forall₂ R s u) : List.Forall₂ R s' u' := by
  induction ps generalizing s' u' with
  | nil =>
    cases List.map_eq_nil_iff.1 h
    cases List.map_eq_nil_iff.1 h'
    exact .nil
  | cons p ps ih =>
    obtain ⟨a, s', rfl, ha, hs⟩ := List.map_eq_cons_iff.1 h
    obtain ⟨b, u', rfl, hb, hu⟩ := List.map_eq_cons_iff.1 h'
    obtain ⟨hlt, rfl⟩ := List.getElem?_eq_some_iff.1 ha.symm
    obtain ⟨hlt', rfl⟩ := List.getElem?_eq_some_iff.1 hb.symm
    exact .cons (hR.get hlt hlt') (ih hs hu)

end Slots

variable {c : Opcode} {operands : List Operand} {types types' : StackShape} {t : StackType}
  {s : List Value}

/-! ## Operations that rearrange -/

theorem Opcode.depth?_of_depthOperand {op : Opcode} {n : Nat} (hlen : operands.length = 1)
    (h : StackEffect.depthOperand op operands = .ok n) : depth? operands = some n := by
  obtain ⟨v, rfl, rfl⟩ := StackEffect.depthOperand_eq_ok hlen h
  rfl

/-- Types are moved as values are. -/
theorem StackEffect.rearrange?_of_apply (hc : c.isRearranging operands)
    (hparams : operands.length = c.params.length) (h : apply c operands types = .ok types') :
    c.rearrange? operands types = some types' := by
  cases c with
  | dup =>
    obtain ⟨t, ht, h⟩ := ok_of_bind h
    cases h
    simp [Opcode.rearrange?, List.head?_eq_getElem?, peek_eq_ok_iff.1 ht]
  | swap =>
    obtain ⟨a, ha, h⟩ := ok_of_bind h
    obtain ⟨b, hb, h⟩ := ok_of_bind h
    cases h
    rcases types with _ | ⟨t, _ | ⟨t', types⟩⟩
    · cases hb
    · cases ha
    · cases ha
      cases hb
      rfl
  | dig =>
    obtain ⟨n, hn, h⟩ := ok_of_bind h
    obtain ⟨t, ht, h⟩ := ok_of_bind h
    cases h
    simp [Opcode.rearrange?, Opcode.depth?_of_depthOperand hparams hn, peek_eq_ok_iff.1 ht]
  | cover =>
    obtain ⟨n, hn, h⟩ := ok_of_bind h
    obtain ⟨_, hlt, h⟩ := ok_of_bind h
    obtain ⟨t, ht, h⟩ := ok_of_bind h
    cases h
    have hlt := peek_eq_ok_lt hlt
    cases types with
    | nil => cases ht
    | cons t' types =>
      cases ht
      have hle : n ≤ types.length := Nat.le_of_lt_succ hlt
      simp [Opcode.rearrange?, Opcode.depth?_of_depthOperand hparams hn, hle]
  | uncover =>
    obtain ⟨n, hn, h⟩ := ok_of_bind h
    obtain ⟨t, ht, h⟩ := ok_of_bind h
    cases h
    simp [Opcode.rearrange?, Opcode.depth?_of_depthOperand hparams hn, peek_eq_ok_iff.1 ht]
  | _ => cases hc

/-! ## Operations that compute -/

theorem StackTurn.ofResult_described {v : Option Value} (hv : ∀ w ∈ v, t.Describes w)
    (hs : List.Forall₂ StackType.Describes types s) :
    (StackTurn.ofResult v s).Described (t :: types) := by
  cases v with
  | none => trivial
  | some w => exact .cons (hv w rfl) hs

theorem StackTurn.unary_described {f : Value → Option Value} (hf : ∀ v, ∀ w ∈ f v, t.Describes w)
    (hs : List.Forall₂ StackType.Describes types s) (hlen : 1 ≤ types.length) :
    (StackTurn.unary f s).Described (t :: types.drop 1) := by
  cases hs with
  | nil => cases hlen
  | cons _ hs => exact ofResult_described (hf _) hs

theorem StackTurn.binary_described {f : Value → Value → Option Value}
    (hf : ∀ x y, ∀ w ∈ f x y, t.Describes w) (hs : List.Forall₂ StackType.Describes types s)
    (hlen : 2 ≤ types.length) : (StackTurn.binary f s).Described (t :: types.drop 2) := by
  cases hs with
  | nil => cases hlen
  | cons _ hs =>
    cases hs with
    | nil => simp at hlen
    | cons _ hs => exact ofResult_described (hf _ _) hs

/-- Functions of integers give values of the kind that they always give. -/
theorem Value.describes_ofUint {f : UInt64 → Value} (hf : ∀ n, t.Describes (f n)) :
    ∀ v, ∀ w ∈ ofUint f v, t.Describes w := by
  rintro (n | b) w hw
  · cases hw
    exact hf n
  · cases hw

theorem Value.describes_ofUints (f : UInt64 → UInt64 → Option UInt64) :
    ∀ x y, ∀ w ∈ ofUints f x y, StackType.uint64.Describes w := by
  rintro (x | x) (y | y) w hw
  case uint.uint =>
    obtain ⟨n, -, rfl⟩ := Option.map_eq_some_iff.1 hw
    exact .uint n
  all_goals cases hw

theorem Value.describes_same (wanted : Bool) :
    ∀ x y, ∀ w ∈ same wanted x y, StackType.uint64.Describes w := by
  rintro (x | x) (y | y) w hw <;> cases hw <;> exact .uint _

theorem Value.describes_sameNumber (wanted : Bool) :
    ∀ x y, ∀ w ∈ sameNumber wanted x y, StackType.uint64.Describes w := by
  rintro (x | x) (y | y) w hw
  case bytes.bytes =>
    rw [sameNumber, Option.mem_ite_none_right] at hw
    cases hw.2
    exact .uint _
  all_goals cases hw

theorem Value.describes_toInteger : ∀ v, ∀ w ∈ toInteger v, StackType.uint64.Describes w := by
  rintro (n | b) w hw
  · cases hw
  · rw [toInteger, Option.mem_ite_none_right] at hw
    cases hw.2
    exact .uint _

/-! ## Steps of building -/

theorem Builder.push_eq_ok {b b' : Builder} (h : Builder.push c operands b = .ok () b') :
    b.pushed c operands = .ok b' := by
  unfold push step at h
  dsimp only at h
  cases hb : b.pushed c operands with
  | ok b₁ =>
    rw [hb] at h
    cases h
    rfl
  | error fault =>
    rw [hb] at h
    cases h

theorem Opcode.isNumeric_spec (h : c.isNumeric) :
    c.moves = false ∧ c.pops.length = 2 ∧ c.pushes = [.uint64] := by
  cases c <;> first | exact ⟨rfl, rfl, rfl⟩ | cases h

/-- The types after an operation describe what the machine leaves. -/
theorem StackEffect.described_of_apply {turn : StackTurn}
    (hs : List.Forall₂ StackType.Describes types s) (hturn : c.turn? operands s = some turn)
    (hparams : operands.length = c.params.length) (h : apply c operands types = .ok types') :
    turn.Described types' := by
  unfold Opcode.turn? at hturn
  split at hturn
  case isTrue hc =>
    obtain ⟨ps, s', hs', htypes, hvalues⟩ :=
      Opcode.rearranges (rearrange?_of_apply hc hparams h) hs.length_eq.symm
    rw [hs'] at hturn
    cases hturn
    exact htypes.forall₂ hvalues hs
  split at hturn
  case isTrue hc =>
    obtain ⟨hmoves, hpops, hpushes⟩ := c.isNumeric_spec hc
    rw [Lower.apply_eq_replace hmoves] at h
    obtain ⟨hle, rfl⟩ := replace_eq_ok h
    cases hturn
    rw [hpops] at hle ⊢
    rw [hpushes]
    exact StackTurn.binary_described (Value.describes_ofUints _) hs hle
  split at hturn
  case h_1 | h_2 =>
    cases hturn
    rw [Lower.apply_eq_replace rfl] at h
    obtain ⟨-, rfl⟩ := replace_eq_ok h
    first | exact .cons (.uint _) hs | exact .cons (.bytes _) hs
  case h_3 =>
    rw [Lower.apply_eq_replace rfl] at h
    obtain ⟨hle, rfl⟩ := replace_eq_ok h
    cases hturn
    cases hs with
    | nil => cases hle
    | cons _ hs => exact hs
  case h_12 => cases hturn
  all_goals
    rw [Lower.apply_eq_replace rfl] at h
    obtain ⟨hle, rfl⟩ := replace_eq_ok h
    cases hturn
  case h_4 => exact StackTurn.unary_described (Value.describes_ofUint fun _ => .uint _) hs hle
  case h_5 => exact StackTurn.unary_described (Value.describes_ofUint fun _ => .uint _) hs hle
  case h_6 => exact StackTurn.unary_described (Value.describes_ofUint fun _ => .bytes _) hs hle
  case h_7 => exact StackTurn.unary_described Value.describes_toInteger hs hle
  case h_8 | h_9 => exact StackTurn.binary_described (Value.describes_same _) hs hle
  case h_10 | h_11 => exact StackTurn.binary_described (Value.describes_sameNumber _) hs hle

/-- Where types describe the values on a stack and an operation is admitted, the machine has the
values that it takes, the new types describe what it leaves, and types are copied and moved as values
are. -/
theorem Builder.push_describes {b b' : Builder} {turn : StackTurn}
    (hs : List.Forall₂ StackType.Describes b.stack s)
    (hpush : Builder.push c operands b = .ok () b') (hturn : c.turn? operands s = some turn) :
    turn ≠ .underflow ∧
      (∀ s', turn = .left s' → List.Forall₂ StackType.Describes b'.stack s') ∧
      (c.isRearranging operands → ∃ ps s', turn = .left s' ∧ Rearranges ps b.stack b'.stack ∧
        Rearranges ps s s') := by
  obtain ⟨_, _, -, -, hparams, happly, rfl⟩ := Lower.pushed_eq_ok (push_eq_ok hpush)
  have hdescribed := StackEffect.described_of_apply hs hturn hparams happly
  refine ⟨?_, ?_, fun hc => ?_⟩
  · rintro rfl
    exact hdescribed
  · rintro s' rfl
    exact hdescribed
  · obtain ⟨ps, s', hs', htypes, hvalues⟩ :=
      Opcode.rearranges (StackEffect.rearrange?_of_apply hc hparams happly) hs.length_eq.symm
    unfold Opcode.turn? at hturn
    rw [if_pos hc, hs'] at hturn
    cases hturn
    exact ⟨ps, s', rfl, htypes, hvalues⟩

/-- A value that is described in general goes below a byte string and an integer. -/
theorem Builder.push_describes_cover : ∃ b', Builder.push .cover [.uint 2]
      ⟨[], [.any, .bytes, .uint64], maxVersion, .single .approval, .zero, 0⟩ = .ok () b' ∧
    List.Forall₂ StackType.Describes b'.stack [.bytes [1], .uint 2, .uint 5] ∧
    ∃ ps, Rearranges ps [.any, .bytes, .uint64] b'.stack ∧
      Rearranges ps [Value.uint 5, .bytes [1], .uint 2] [.bytes [1], .uint 2, .uint 5] := by
  have hs : List.Forall₂ StackType.Describes [.any, .bytes, .uint64]
      [.uint 5, .bytes [1], .uint 2] := .cons (.any _) (.cons (.bytes _) (.cons (.uint _) .nil))
  have hpush : Builder.push .cover [.uint 2]
      ⟨[], [.any, .bytes, .uint64], maxVersion, .single .approval, .zero, 0⟩ = .ok () _ := rfl
  obtain ⟨-, hdescribed, hplaces⟩ := push_describes hs hpush rfl
  obtain ⟨ps, s', hleft, htypes, hvalues⟩ := hplaces rfl
  cases hleft
  exact ⟨_, hpush, hdescribed _ rfl, ps, htypes, hvalues⟩

theorem Opcode.depth?_eq_some {n : Nat} (h : depth? operands = some n) :
    ∃ v : UInt64, operands = [.uint v] ∧ v.toNat = n := by
  unfold depth? at h
  split at h
  · cases h
    exact ⟨_, rfl, rfl⟩
  · cases h

theorem Machine.exec_of_rearrange? {m : Machine} {code : List Instruction}
    (h : c.rearrange? operands m.stack = some s) : m.exec code c operands = m.goOn s := by
  cases c with
  | dup =>
    obtain ⟨v, hv, rfl⟩ := Option.map_eq_some_iff.1 h
    obtain ⟨s', hstack⟩ := List.head?_eq_some_iff.1 hv
    simp [exec, hstack]
  | swap =>
    unfold Opcode.rearrange? at h
    dsimp only at h
    split at h
    · rename_i hstack
      cases h
      simp [exec, hstack]
    · cases h
  | dig | uncover =>
    obtain ⟨n, hn, h⟩ := Option.bind_eq_some_iff.1 h
    obtain ⟨v, hv, rfl⟩ := Option.map_eq_some_iff.1 h
    obtain ⟨k, rfl, rfl⟩ := Opcode.depth?_eq_some hn
    simp [exec, hv]
  | cover =>
    obtain ⟨n, hn, h⟩ := Option.bind_eq_some_iff.1 h
    obtain ⟨k, rfl, rfl⟩ := Opcode.depth?_eq_some hn
    split at h
    case h_2 => cases h
    case h_1 hstack =>
      rw [Option.ite_none_right_eq_some] at h
      cases h.2
      simp [exec, hstack, h.1]
  | _ => cases h

/-- What is said here of operations is what the machine does, where it has them. -/
theorem Machine.exec_of_turn? {m : Machine} {code : List Instruction}
    (hc : c ≠ .itob ∧ c ≠ .btoi ∧ c ≠ .bytesEq ∧ c ≠ .bytesNe)
    (h : c.turn? operands m.stack = some (.left s)) : m.exec code c operands = m.goOn s := by
  unfold Opcode.turn? at h
  split at h
  case isTrue =>
    cases hs : c.rearrange? operands m.stack with
    | none =>
      rw [hs] at h
      cases h
    | some s' =>
      rw [hs] at h
      cases h
      exact exec_of_rearrange? hs
  obtain ⟨pc, stack, frames, logs⟩ := m
  split at h
  case isTrue hnum =>
    have hexec : exec code ⟨pc, stack, frames, logs⟩ c operands =
        compute ⟨pc, stack, frames, logs⟩ c := by
      cases c <;> first | rfl | cases hnum
    rcases stack with _ | ⟨y, _ | ⟨x, stack⟩⟩
    · cases h
    · cases h
    rw [hexec]
    rcases y with y | y <;> rcases x with x | x <;> try cases h
    cases hv : c.compute? x y with
    | none => simp [StackTurn.binary, Value.ofUints, StackTurn.ofResult, hv] at h
    | some v => cases v with
      | none => simp [StackTurn.binary, Value.ofUints, StackTurn.ofResult, hv] at h
      | some v =>
        simp [StackTurn.binary, Value.ofUints, StackTurn.ofResult, hv] at h
        simp [compute, hv, h]
  split at h
  case h_6 | h_7 | h_10 | h_11 => simp at hc
  case h_12 => cases h
  case h_1 | h_2 =>
    cases h
    rfl
  case h_3 | h_4 | h_5 =>
    rcases stack with _ | ⟨_ | _, stack⟩ <;> cases h <;> rfl
  case h_8 | h_9 =>
    rcases stack with _ | ⟨_ | _, _ | ⟨_ | _, stack⟩⟩ <;> cases h <;> rfl

end ContractCompiler
