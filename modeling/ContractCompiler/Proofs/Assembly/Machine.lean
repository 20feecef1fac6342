import ContractCompiler.Proofs.Assembly.Labels

/-!
# The stack machine

How the code of a program runs. The machine has a stack of values, the places to return to, and
the messages logged so far; it goes on until it ends with an outcome. Only what code without byte
strings needs is here: on operations that read the ledger, hash or compute with byte strings the
machine is stuck.
-/

namespace ContractCompiler

open Builder (definedLabels)

/-! ## States -/

/-- A value on the stack. -/
inductive Value where
  | uint (n : UInt64)
  | bytes (b : List UInt8)
deriving DecidableEq, Repr

/-- How a program ends. -/
inductive Outcome where
  | returned (n : UInt64)
  | failed
deriving DecidableEq, Repr

/-- How a program ends, and what it has logged by then. -/
structure Report where
  outcome : Outcome
  logs : List (List UInt8)
deriving DecidableEq, Repr

/-- The state of the machine: the instruction that is next, the stack from the top down, the places
to return to, innermost first, and the messages logged so far. -/
structure Machine where
  pc : Nat
  stack : List Value
  frames : List Nat
  logs : List (List UInt8)
deriving DecidableEq, Repr

/-- What comes of an instruction. -/
inductive Turn where
  | next (m : Machine)
  | done (r : Report)
  | stuck
deriving DecidableEq, Repr

/-! ## Operations -/

/-- A number that has to fit in 64 bits. -/
def checked (n : Nat) : Option UInt64 :=
  if n < UInt64.size then some (.ofNat n) else none

/-- The result of an operation on two integers, the second of which is on top. Some operations fail
on some operands; the outer option tells whether it is an operation of that kind at all. -/
def Opcode.compute? (c : Opcode) (x y : UInt64) : Option (Option UInt64) :=
  match c with
  | .add => some (checked (x.toNat + y.toNat))
  | .sub => some (if y ≤ x then some (x - y) else none)
  | .mul => some (checked (x.toNat * y.toNat))
  | .div => some (if y = 0 then none else some (x / y))
  | .mod => some (if y = 0 then none else some (x % y))
  | .exp => some (if y.toNat < UInt32.size then checked (x.toNat.pow y.toNat) else none)
  | .shl => some (if y < 64 then some (x <<< y) else none)
  | .shr => some (if y < 64 then some (x >>> y) else none)
  | .bitOr => some (some (x ||| y))
  | .bitAnd => some (some (x &&& y))
  | .bitXor => some (some (x ^^^ y))
  | .lt => some (some (decide (x < y)).toUInt64)
  | .gt => some (some (decide (x > y)).toUInt64)
  | .le => some (some (decide (x ≤ y)).toUInt64)
  | .ge => some (some (decide (x ≥ y)).toUInt64)
  | .logicAnd => some (some (x != 0 && y != 0).toUInt64)
  | .logicOr => some (some (x != 0 || y != 0).toUInt64)
  | _ => none

namespace Machine

/-- Goes on with the next instruction and another stack. -/
def goOn (m : Machine) (stack : List Value) : Turn :=
  .next { m with pc := m.pc + 1, stack }

/-- Ends with an outcome. -/
def finish (m : Machine) (o : Outcome) : Turn :=
  .done ⟨o, m.logs⟩

/-- Goes on at a label. -/
def jump (code : List Instruction) (m : Machine) (l : String) (stack : List Value)
    (frames : List Nat) : Turn :=
  match code.findIdx? (· = .label l) with
  | some pc => .next { m with pc, stack, frames }
  | none => .stuck

/-- An operation on two integers. -/
def compute (m : Machine) (c : Opcode) : Turn :=
  match m.stack with
  | .uint y :: .uint x :: s =>
    match c.compute? x y with
    | some (some v) => m.goOn (.uint v :: s)
    | some none => m.finish .failed
    | none => .stuck
  | _ => .stuck

/-- Compares the two values on top, which must be of one kind. -/
def compare (m : Machine) (wanted : Bool) : Turn :=
  match m.stack with
  | .uint y :: .uint x :: s => m.goOn (.uint ((x == y) == wanted).toUInt64 :: s)
  | .bytes y :: .bytes x :: s => m.goOn (.uint ((x == y) == wanted).toUInt64 :: s)
  | _ => .stuck

/-- A jump if the integer on top is zero or not, as `zero` says. -/
def branchIf (code : List Instruction) (m : Machine) (zero : Bool) (operands : List Operand) :
    Turn :=
  match operands, m.stack with
  | [.label l], .uint v :: s =>
    if (v == 0) = zero then m.jump code l s m.frames else m.goOn s
  | _, _ => .stuck

/-- What an operation does. -/
def exec (code : List Instruction) (m : Machine) (c : Opcode) (operands : List Operand) : Turn :=
  match c with
  | .pushint =>
    match operands with
    | [.uint v] => m.goOn (.uint v :: m.stack)
    | _ => .stuck
  | .pushbytes =>
    match operands with
    | [.bytes b] => m.goOn (.bytes b :: m.stack)
    | _ => .stuck
  | .pop =>
    match m.stack with
    | _ :: s => m.goOn s
    | [] => .stuck
  | .dup =>
    match m.stack with
    | v :: s => m.goOn (v :: v :: s)
    | [] => .stuck
  | .swap =>
    match m.stack with
    | v :: w :: s => m.goOn (w :: v :: s)
    | _ => .stuck
  | .dig =>
    match operands with
    | [.uint n] =>
      match m.stack[n.toNat]? with
      | some v => m.goOn (v :: m.stack)
      | none => .stuck
    | _ => .stuck
  | .cover =>
    match operands, m.stack with
    | [.uint n], v :: s =>
      if n.toNat ≤ s.length then m.goOn (s.take n.toNat ++ v :: s.drop n.toNat) else .stuck
    | _, _ => .stuck
  | .uncover =>
    match operands with
    | [.uint n] =>
      match m.stack[n.toNat]? with
      | some v => m.goOn (v :: m.stack.eraseIdx n.toNat)
      | none => .stuck
    | _ => .stuck
  | .logicNot =>
    match m.stack with
    | .uint v :: s => m.goOn (.uint (v == 0).toUInt64 :: s)
    | _ => .stuck
  | .bitNot =>
    match m.stack with
    | .uint v :: s => m.goOn (.uint (~~~v) :: s)
    | _ => .stuck
  | .eq => m.compare true
  | .ne => m.compare false
  | .log =>
    match m.stack with
    | .bytes b :: s => .next { m with pc := m.pc + 1, stack := s, logs := m.logs ++ [b] }
    | _ => .stuck
  | .bz => m.branchIf code true operands
  | .bnz => m.branchIf code false operands
  | .branch =>
    match operands with
    | [.label l] => m.jump code l m.stack m.frames
    | _ => .stuck
  | .callsub =>
    match operands with
    | [.label l] => m.jump code l m.stack ((m.pc + 1) :: m.frames)
    | _ => .stuck
  | .retsub =>
    match m.frames with
    | pc :: frames => .next { m with pc, frames }
    | [] => .stuck
  | .exit =>
    match m.stack with
    | .uint v :: _ => m.finish (.returned v)
    | _ => .stuck
  | .err => m.finish .failed
  | c => m.compute c

/-- What the next instruction does. Labels and comments do nothing. -/
def step (code : List Instruction) (m : Machine) : Turn :=
  match code[m.pc]? with
  | none => .stuck
  | some (.op c operands) => m.exec code c operands
  | some (.label _) | some (.comment _) => m.goOn m.stack

/-- How a run ends, if it does within a number of instructions. -/
def run (code : List Instruction) : Nat → Machine → Option Report
  | 0, _ => none
  | n + 1, m =>
    match m.step code with
    | .next m' => m'.run code n
    | .done r => some r
    | .stuck => none

/-- The machine before the first instruction. -/
def start : Machine := ⟨0, [], [], []⟩

end Machine

/-- Code that ends with a report when it is run. -/
def Reports (code : List Instruction) (r : Report) : Prop :=
  ∃ n, Machine.start.run code n = some r

/-! ## Runs -/

namespace Machine

/-- `Steps code k m m'`: after `k` instructions the machine has gone from `m` to `m'`. -/
inductive Steps (code : List Instruction) : Nat → Machine → Machine → Prop where
  | refl {m} : Steps code 0 m m
  | step {k m m₁ m₂} (h : m.step code = .next m₁) (hs : Steps code k m₁ m₂) :
    Steps code (k + 1) m m₂

variable {code : List Instruction} {m m₁ m₂ : Machine} {j k n : Nat} {r r' : Report}

theorem Steps.trans (h : Steps code j m m₁) (h' : Steps code k m₁ m₂) :
    Steps code (j + k) m m₂ := by
  induction h with
  | refl =>
    rw [Nat.zero_add]
    exact h'
  | step hstep _ ih =>
    rw [Nat.add_right_comm]
    exact .step hstep (ih h')

/-- After some steps a run goes on as it would from there. -/
theorem Steps.run (h : Steps code k m m₁) (n : Nat) : m.run code (k + n) = m₁.run code n := by
  induction h with
  | refl => rw [Nat.zero_add]
  | step hstep _ ih =>
    rw [Nat.add_right_comm, Machine.run, hstep]
    exact ih

/-- A run that has ended does not change when more instructions are allowed. -/
theorem run_mono (h : m.run code n = some r) (hle : n ≤ k) : m.run code k = some r := by
  induction n generalizing m k with
  | zero => cases h
  | succ n ih =>
    obtain ⟨k, rfl⟩ : ∃ j, k = j + 1 := ⟨k - 1, by omega⟩
    unfold Machine.run at h ⊢
    cases hstep : m.step code with
    | next m' =>
      rw [hstep] at h
      exact ih h (by omega)
    | done r' =>
      rw [hstep] at h
      exact h
    | stuck =>
      rw [hstep] at h
      cases h

/-- A run ends in one way only. -/
theorem run_unique (h : m.run code n = some r) (h' : m.run code k = some r') : r = r' := by
  have h₁ := run_mono h (Nat.le_max_left n k)
  have h₂ := run_mono h' (Nat.le_max_right n k)
  exact Option.some.inj (h₁.symm.trans h₂)

/-- A run that still goes on after some steps has not ended before. -/
theorem Steps.run_eq_none (h : Steps code k m m₁) (hle : n ≤ k) : m.run code n = none := by
  cases hrun : m.run code n with
  | none => rfl
  | some r =>
    have hlate := run_mono hrun hle
    rw [← Nat.add_zero k, h.run 0] at hlate
    cases hlate

end Machine

/-! ## Code at a place -/

/-- `Stands code pc piece`: in `code`, `piece` stands at `pc`. -/
def Stands (code : List Instruction) (pc : Nat) (piece : List Instruction) : Prop :=
  piece <+: code.drop pc

variable {code piece piece' : List Instruction} {pc : Nat} {i : Instruction} {l : String}

theorem Stands.all (code : List Instruction) : Stands code 0 code :=
  List.prefix_rfl

theorem stands_append :
    Stands code pc (piece ++ piece') ↔
      Stands code pc piece ∧ Stands code (pc + piece.length) piece' := by
  unfold Stands
  rw [← List.drop_drop]
  constructor
  · rintro ⟨rest, hrest⟩
    rw [← hrest, List.append_assoc]
    exact ⟨List.prefix_append _ _, by simp⟩
  · rintro ⟨⟨rest, hrest⟩, hpiece'⟩
    rw [← hrest, List.drop_left] at hpiece'
    rw [← hrest]
    exact (List.prefix_append_right_inj _).2 hpiece'

theorem stands_cons :
    Stands code pc (i :: piece) ↔ code[pc]? = some i ∧ Stands code (pc + 1) piece := by
  rw [← List.singleton_append, stands_append]
  refine and_congr_left fun _ => ?_
  unfold Stands
  rw [← List.head?_drop]
  cases code.drop pc with
  | nil => simp
  | cons j rest => simp [List.cons_prefix_cons, eq_comm]

/-- Where a label stands is where a jump to it leads. -/
theorem findIdx?_label (hnodup : (definedLabels code).Nodup) (h : code[pc]? = some (.label l)) :
    code.findIdx? (· = .label l) = some pc := by
  obtain ⟨hlt, hget⟩ := List.getElem?_eq_some_iff.1 h
  refine List.findIdx?_eq_some_iff_getElem.2 ⟨hlt, by simp [hget], fun j hj => ?_⟩
  have hne : code[j]? ≠ some (.label l) := by
    intro hj'
    have := label_unique hnodup h hj'
    omega
  intro heq
  refine hne (List.getElem?_eq_some_iff.2 ⟨by omega, ?_⟩)
  simpa using heq

end ContractCompiler
