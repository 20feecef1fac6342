import ContractCompiler.Lowering.Program
import ContractCompiler.Proofs.Assembly.Flow

/-!
# Depths of a frame

How deep the frame of a function is at each of its instructions, along every way that control can
take. Calls are steps: a call takes its arguments and leaves its result.
-/

namespace ContractCompiler

open Builder (definedLabels)

namespace Instruction

/-- How many slots of its frame an instruction takes and how many it leaves, given what is known of
the functions that may be called. There is no answer for an operation without its operand. -/
def effect? (sigs : List (String × Signature)) : Instruction → Option (Nat × Nat)
  | label _ | comment _ => some (0, 0)
  | op .callsub [.label f] =>
    (sigs.lookup f).map fun sig => (sig.arity, if sig.returnsValue then 1 else 0)
  | op .dig [.uint n] => some (n.toNat + 1, n.toNat + 2)
  | op .cover [.uint n] | op .uncover [.uint n] => some (n.toNat + 1, n.toNat + 1)
  | op .callsub _ | op .dig _ | op .cover _ | op .uncover _ => none
  | op code _ => some (code.pops.length, code.pushes.length)

end Instruction

/-! ## The ways of control -/

/-- `Reaches p main code f pc depth`: control gets to the instruction at `pc` inside the function
`f`, with a frame of that depth. The entry starts at the top with nothing, and every other function
at its label with its arguments. -/
inductive Reaches (p : Program) (main : Function) (code : List Instruction) :
    Function → Nat → Nat → Prop where
  | entry : Reaches p main code main 0 0
  | subroutine {f pc} (hf : f ∈ p.reachable main) (hne : f.name ≠ main.name)
      (hlabel : code[pc]? = some (.label f.name)) : Reaches p main code f pc f.params.length
  | step {f pc pc' depth i takes leaves} (h : Reaches p main code f pc depth)
      (hi : code[pc]? = some i) (heffect : i.effect? p.signatures = some (takes, leaves))
      (hedge : Edge code pc pc') : Reaches p main code f pc' (depth - takes + leaves)

/-- The depths of code are in order: there is one for each instruction, which belongs to one
function; it is enough for the instruction; a function returns with its result and nothing else;
and control stays in the code. -/
structure DepthsAgree (p : Program) (main : Function) (code : List Instruction) : Prop where
  agree : ∀ {f g pc depth depth'}, Reaches p main code f pc depth →
    Reaches p main code g pc depth' → f = g ∧ depth = depth'
  enough : ∀ {f pc depth i}, Reaches p main code f pc depth → code[pc]? = some i →
    ∃ takes leaves, i.effect? p.signatures = some (takes, leaves) ∧ takes ≤ depth
  returns : ∀ {f pc depth operands}, Reaches p main code f pc depth →
    code[pc]? = some (.op .retsub operands) →
      f ≠ main ∧ depth = if f.returnsValue then 1 else 0
  inside : ∀ {f pc depth}, Reaches p main code f pc depth → pc < code.length
  lands : ∀ {f pc depth i l}, Reaches p main code f pc depth → code[pc]? = some i →
    i.jump? = some l → ∃ pc' : Nat, code[pc']? = some (.label l) ∧
      ∀ pc'' : Nat, code[pc'']? = some (.label l) → pc'' = pc'

/-! ## Going through code with depths -/

/-- A depth in the frame of a function. -/
@[ext] structure Place where
  owner : Function
  depth : Nat

/-- A function that is not the entry returns with its result and nothing else. -/
def Function.ReturnsAt (f main : Function) (depth : Nat) : Prop :=
  f ≠ main ∧ depth = if f.returnsValue then 1 else 0

/-- An instruction has enough slots, does not raise the frame above `cap`, and returns only at
depths of which `back` holds. -/
def Instruction.Raises (sigs : List (String × Signature)) (cap : Nat) (back : Nat → Prop)
    (i : Instruction) (depth next : Nat) : Prop :=
  ∃ takes leaves, i.effect? sigs = some (takes, leaves) ∧ takes ≤ depth ∧
    next = depth - takes + leaves ∧ next ≤ max depth cap ∧
    ∀ operands, i = .op .retsub operands → back depth

section Domains

variable (sigs : List (String × Signature)) (main : Function) (cap : Nat) (back : Nat → Prop)

/-- The depth of a frame is known. -/
def Domain.heights : Domain Nat where
  leads := Instruction.Raises sigs cap back
  le := Eq
  leads_label := fun _ _ => ⟨0, 0, rfl, Nat.zero_le _, rfl, Nat.le_max_left _ _, nofun⟩
  leads_branch := fun _ _ => ⟨0, 0, rfl, Nat.zero_le _, rfl, Nat.le_max_left _ _, nofun⟩
  refl := fun _ => rfl
  trans := Eq.trans

/-- A jump takes the value that it depends on. -/
theorem Domain.heights_jumpIf {sigs cap back depth} {c : Opcode} {l : String}
    (hc : c = .bz ∨ c = .bnz) :
    (Domain.heights sigs cap back).leads (.op c [.label l]) (depth + 1) depth := by
  have hle : depth ≤ max (depth + 1) cap := Nat.le_trans (Nat.le_succ _) (Nat.le_max_left _ _)
  rcases hc with rfl | rfl <;> exact ⟨1, 0, rfl, Nat.le_add_left _ _, rfl, hle, nofun⟩

/-- The place in a frame is known. -/
def Domain.places : Domain Place where
  leads := fun i place next => next.owner = place.owner ∧
    i.Raises sigs cap (place.owner.ReturnsAt main) place.depth next.depth
  le := Eq
  leads_label := fun _ _ => ⟨rfl, 0, 0, rfl, Nat.zero_le _, rfl, Nat.le_max_left _ _, nofun⟩
  leads_branch := fun _ _ => ⟨rfl, 0, 0, rfl, Nat.zero_le _, rfl, Nat.le_max_left _ _, nofun⟩
  refl := fun _ => rfl
  trans := Eq.trans

end Domains

/-- An instruction after which control does not go on. -/
theorem Scannable.stop {sigs cap back} {depth takes leaves : Nat} {i : Instruction}
    (hi : i.label? = none) (heffect : i.effect? sigs = some (takes, leaves))
    (henough : takes ≤ depth) (hle : leaves ≤ takes) (hjump : i.jump? = none)
    (hfalls : i.fallsThrough = false) (hback : ∀ operands, i = .op .retsub operands → back depth) :
    Scannable (.heights sigs cap back) (some depth) [i] none := by
  have hnext : depth - takes + leaves ≤ max depth cap :=
    Nat.le_trans (by omega) (Nat.le_max_left _ _)
  have hop := Scannable.op (D := .heights sigs cap back) hi
    ⟨takes, leaves, heffect, henough, rfl, hnext, hback⟩ hjump
  rwa [hfalls] at hop

/-- No instruction raises the frame of a function above a depth. -/
def Capped (p : Program) (main : Function) (code : List Instruction) (cap : Nat) : Prop :=
  ∀ {f pc depth i takes leaves}, Reaches p main code f pc depth → code[pc]? = some i →
    i.effect? p.signatures = some (takes, leaves) → depth - takes + leaves ≤ max depth cap

section Scans

variable {p : Program} {main : Function} {cap : Nat} {T : List (String × Option Place)}
  {code : List Instruction}

/-- Code that can be gone through from the entry to an end that control does not get to, with the
functions at their labels: wherever control gets to, the place in the frame is known. -/
theorem Scans.known_of_reaches (hkeys : (T.map Prod.fst).Nodup)
    (hstarts : ∀ f ∈ p.reachable main, f.name ≠ main.name →
      (f.name, some ⟨f, f.params.length⟩) ∈ T)
    (h : Scans (.places p.signatures main cap) T (some ⟨main, 0⟩) code none) :
    ∃ known, Arrives (.places p.signatures main cap) T code known ∧
      ∀ {f pc depth}, Reaches p main code f pc depth →
        known pc = some ⟨f, depth⟩ ∧ pc < code.length := by
  obtain ⟨known, harrives, hfirst, hend⟩ := h.arrives
  -- The invariant of a way: control is where `known` tells, and not past the end.
  have hreach : ∀ {f pc depth}, Reaches p main code f pc depth →
      known pc = some ⟨f, depth⟩ ∧ pc ≤ code.length := by
    intro f pc depth hr
    induction hr with
    | entry =>
      obtain ⟨_, hs, rfl⟩ := hfirst _ rfl
      exact ⟨hs, Nat.zero_le _⟩
    | @subroutine f pc hf hne hlabel =>
      refine ⟨known_unique hkeys (harrives.label hlabel) (hstarts f hf hne), ?_⟩
      exact Nat.le_of_lt (List.getElem?_eq_some_iff.1 hlabel).1
    | step _ hi heffect hedge ih =>
      obtain ⟨_, _, ⟨howner, takes, leaves, heffect', -, hdepth, -⟩, rfl, hnext⟩ :=
        harrives.edge hkeys hi ih.1 hedge
      cases heffect.symm.trans heffect'
      refine ⟨hnext.trans (congrArg some (Place.ext howner hdepth)), ?_⟩
      cases hedge with
      | next => exact (List.getElem?_eq_some_iff.1 hi).1
      | jump _ _ hlabel => exact Nat.le_of_lt (List.getElem?_eq_some_iff.1 hlabel).1
  refine ⟨known, harrives, fun hr => ?_⟩
  obtain ⟨hknown, hle⟩ := hreach hr
  refine ⟨hknown, Nat.lt_of_le_of_ne hle ?_⟩
  rintro rfl
  obtain ⟨_, hnone, -⟩ := hend _ hknown
  cases hnone

/-- Such code has its depths in order, and no instruction raises a frame too far. -/
theorem Scans.depthsAgree (hkeys : T.map Prod.fst = definedLabels code)
    (hnodup : (definedLabels code).Nodup)
    (hstarts : ∀ f ∈ p.reachable main, f.name ≠ main.name →
      (f.name, some ⟨f, f.params.length⟩) ∈ T)
    (h : Scans (.places p.signatures main cap) T (some ⟨main, 0⟩) code none) :
    DepthsAgree p main code ∧ Capped p main code cap := by
  obtain ⟨known, harrives, hreach⟩ := h.known_of_reaches (hkeys ▸ hnodup) hstarts
  refine ⟨⟨fun hf hg => ?_, fun hr hi => ?_, fun hr hi => ?_, fun hr => (hreach hr).2,
    fun hr hi hjump => ?_⟩, fun hr hi heffect => ?_⟩
  · cases (hreach hf).1.symm.trans (hreach hg).1
    exact ⟨rfl, rfl⟩
  · obtain ⟨_, ⟨-, takes, leaves, heffect, henough, -⟩, -⟩ := harrives.op hi (hreach hr).1
    exact ⟨takes, leaves, heffect, henough⟩
  · obtain ⟨_, ⟨-, _, _, -, -, -, -, hreturns⟩, -⟩ := harrives.op hi (hreach hr).1
    exact hreturns _ rfl
  · obtain ⟨_, -, -, hjumps⟩ := harrives.op hi (hreach hr).1
    obtain ⟨st, hmem, -⟩ := hjumps _ hjump
    have hmem := List.mem_map_of_mem (f := Prod.fst) hmem
    rw [hkeys] at hmem
    obtain ⟨pc', hpc'⟩ := exists_label hmem
    exact ⟨pc', hpc', fun pc'' hpc'' => label_unique hnodup hpc'' hpc'⟩
  · obtain ⟨_, ⟨-, _, _, heffect', -, hnext, hcap, -⟩, -⟩ := harrives.op hi (hreach hr).1
    cases heffect.symm.trans heffect'
    exact hnext ▸ hcap

end Scans

/-! ## Straight code -/

/-- An instruction that takes and leaves so many slots, after which control goes on. -/
structure Instruction.Steps (sigs : List (String × Signature)) (i : Instruction)
    (takes leaves : Nat) : Prop where
  label : i.label? = none
  effect : i.effect? sigs = some (takes, leaves)
  jump : i.jump? = none
  falls : i.fallsThrough = true

/-- Such an instruction, if the frame does not get too deep. -/
theorem Instruction.Steps.scans {sigs cap back} {depth takes leaves next : Nat} {i : Instruction}
    (h : i.Steps sigs takes leaves) (henough : takes ≤ depth)
    (hnext : next = depth - takes + leaves) (hcap : next ≤ cap) :
    Scannable (.heights sigs cap back) (some depth) [i] (some next) := by
  have hleads : i.Raises sigs cap back depth next := by
    refine ⟨takes, leaves, h.effect, henough, hnext, ?_, ?_⟩
    · exact Nat.le_trans hcap (Nat.le_max_right _ _)
    · rintro operands rfl
      cases h.falls
  have hop := Scannable.op (D := .heights sigs cap back) h.label hleads h.jump
  rwa [h.falls] at hop

/-- Whether an instruction works on what is on top, and does not reach for what is below. -/
def Instruction.isNear : Instruction → Bool
  | .op .dig _ | .op .cover _ | .op .uncover _ => false
  | _ => true

/-- `Turns sigs n code m`: straight code puts `m` values in the place of the `n` on top. -/
inductive Turns (sigs : List (String × Signature)) : Nat → List Instruction → Nat → Prop where
  | nil {n} : Turns sigs n [] n
  | cons {i takes leaves n m code} (hi : i.Steps sigs takes leaves) (hnear : i.isNear = true)
      (henough : takes ≤ n) (h : Turns sigs (n - takes + leaves) code m) :
    Turns sigs n (i :: code) m

variable {sigs : List (String × Signature)} {n m k depth : Nat} {code code' : List Instruction}
  {main f : Function}

namespace Turns

theorem one {i : Instruction} (h : i.Steps sigs n m) (hnear : i.isNear = true) :
    Turns sigs n [i] m := by
  refine .cons h hnear (Nat.le_refl n) ?_
  rw [Nat.sub_self, Nat.zero_add]
  exact .nil

theorem append (h : Turns sigs n code k) (h' : Turns sigs k code' m) :
    Turns sigs n (code ++ code') m := by
  induction h with
  | nil => exact h'
  | cons hi hnear henough _ ih => exact .cons hi hnear henough (ih h')

/-- Code that leaves more values alone. -/
theorem above (k : Nat) (h : Turns sigs n code m) : Turns sigs (n + k) code (m + k) := by
  induction h with
  | nil => exact .nil
  | @cons i takes leaves n m code hi hnear henough _ ih =>
    refine .cons hi hnear (Nat.le_add_right_of_le henough) ?_
    rw [show n + k - takes + leaves = n - takes + leaves + k by omega]
    exact ih

end Turns

end ContractCompiler
