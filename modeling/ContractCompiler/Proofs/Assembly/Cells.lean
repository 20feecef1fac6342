import ContractCompiler.Proofs.Assembly.Depth

/-!
# How the cells of a frame came about

Along every way that control can take, each cell of the frame of a function was left there by an
operation, moved there from the top, or is an argument. A read of a cell is settled if the cell is
an argument or a value was moved there, and not what an operation left for the time being.
-/

namespace ContractCompiler

open Builder (definedLabels)

/-- How a cell of a frame came about. -/
inductive Cell where
  /-- A caller left it. -/
  | argument
  /-- An operation left it, such as one for the slot of a variable without a value. -/
  | pushed
  /-- It was moved there from the top of the frame. -/
  | moved
deriving DecidableEq, Repr

namespace Cell

/-- Moves the cell on top below `n` others. -/
def cover (n : Nat) (cells : List Cell) : List Cell :=
  cells.tail.take n ++ .moved :: cells.tail.drop n

/-- Moves the cell below `n` others to the top. -/
def uncover (n : Nat) (cells : List Cell) : List Cell :=
  cells[n]?.toList ++ cells.eraseIdx n

end Cell

namespace Instruction

/-- What an instruction does to the cells of a frame, of which the first is on top. -/
def cells (sigs : List (String × Signature)) (i : Instruction) (cells : List Cell) : List Cell :=
  match i with
  | op .swap _ => Cell.cover 1 cells
  | op .cover [.uint n] => Cell.cover n.toNat cells
  | op .uncover [.uint n] => Cell.uncover n.toNat cells
  | op .dup _ | op .dig _ => .pushed :: cells
  | i =>
    match i.effect? sigs with
    | some (takes, leaves) => List.replicate leaves .pushed ++ cells.drop takes
    | none => cells

/-- An instruction does not read a cell that an operation left for the time being. -/
def Settled (i : Instruction) (cells : List Cell) : Prop :=
  ∀ n, i = .op .dig [.uint n] → ∃ c, cells[n.toNat]? = some c ∧ c ≠ .pushed

end Instruction

/-! ## The ways of control -/

/-- `Passes p main code f pc cells`: control gets to the instruction at `pc` inside the function
`f`, with a frame of those cells. -/
inductive Passes (p : Program) (main : Function) (code : List Instruction) :
    Function → Nat → List Cell → Prop where
  | entry : Passes p main code main 0 []
  | subroutine {f pc} (hf : f ∈ p.reachable main) (hne : f.name ≠ main.name)
      (hlabel : code[pc]? = some (.label f.name)) :
    Passes p main code f pc (List.replicate f.params.length .argument)
  | step {f pc pc' cells i} (h : Passes p main code f pc cells) (hi : code[pc]? = some i)
      (hedge : Edge code pc pc') : Passes p main code f pc' (i.cells p.signatures cells)

/-- Every read of a cell is settled, on all ways of control. -/
def ReadsSettled (p : Program) (main : Function) (code : List Instruction) : Prop :=
  ∀ f pc cells i, Passes p main code f pc cells → code[pc]? = some i → i.Settled cells

/-! ## Going through code with frames -/

/-- Something is known of frames. Instructions are in order if their reads are settled. -/
def Domain.cells (sigs : List (String × Signature)) : Domain (List Cell → Prop) where
  leads := fun i P Q => ∀ cells, P cells → i.Settled cells ∧ Q (i.cells sigs cells)
  le := fun P Q => ∀ cells, P cells → Q cells
  leads_label := fun _ _ _ h => ⟨nofun, h⟩
  leads_branch := fun _ _ _ h => ⟨nofun, h⟩
  refl := fun _ _ h => h
  trans := fun h h' cells hcells => h' cells (h cells hcells)

/-- In code that can be gone through from the entry, with the functions at their labels, every read
is settled. -/
theorem Scans.readsSettled {p : Program} {main : Function} {code : List Instruction}
    {T : List (String × Option (List Cell → Prop))} {start : Function → List Cell → Prop}
    (hkeys : (T.map Prod.fst).Nodup) (hmain : start main [])
    (hstart : ∀ f, start f (List.replicate f.params.length .argument))
    (hstarts : ∀ f ∈ p.reachable main, f.name ≠ main.name → (f.name, some (start f)) ∈ T)
    (h : Scans (.cells p.signatures) T (some (start main)) code none) :
    ReadsSettled p main code := by
  obtain ⟨known, harrives, hfirst, -⟩ := h.arrives
  -- The invariant of a way: what is known at an instruction holds of the frame.
  have hpass : ∀ {f pc cells}, Passes p main code f pc cells →
      ∃ P, known pc = some P ∧ P cells := by
    intro f pc cells hr
    induction hr with
    | entry =>
      obtain ⟨P, hP, hle⟩ := hfirst _ rfl
      exact ⟨P, hP, hle [] hmain⟩
    | @subroutine f pc hf hne hlabel =>
      exact ⟨start f, known_unique hkeys (harrives.label hlabel) (hstarts f hf hne), hstart f⟩
    | step _ hi hedge ih =>
      obtain ⟨P, hP, hcells⟩ := ih
      obtain ⟨Q, R, hleads, hle, hR⟩ := harrives.edge hkeys hi hP hedge
      exact ⟨R, hR, hle _ (hleads _ hcells).2⟩
  intro f pc cells i hr hi
  obtain ⟨P, hP, hcells⟩ := hpass hr
  obtain ⟨Q, hleads, -⟩ := harrives.op hi hP
  exact (hleads cells hcells).1

/-! ## What is left alone -/

/-- Something is known of the frame below the `n` cells on top. -/
def Above (n : Nat) (P : List Cell → Prop) (cells : List Cell) : Prop :=
  n ≤ cells.length ∧ P (cells.drop n)

theorem Cell.drop_cover {n : Nat} {cells : List Cell} (h : n + 1 ≤ cells.length) :
    (cover n cells).drop (n + 1) = cells.drop (n + 1) ∧ n + 1 ≤ (cover n cells).length := by
  have hlength : (cells.tail.take n).length = n := by
    rw [List.length_take, List.length_tail]
    omega
  constructor
  · rw [cover, List.drop_append, hlength, List.drop_of_length_le (by omega),
      Nat.add_sub_cancel_left, List.nil_append, List.drop_one, List.tail_cons, List.drop_tail]
  · rw [cover, List.length_append, hlength, List.length_cons]
    omega

/-- An instruction that works on the cells on top leaves those below alone. -/
theorem Instruction.Steps.drop_cells {sigs : List (String × Signature)} {i : Instruction}
    {takes leaves : Nat} {cells : List Cell} (h : i.Steps sigs takes leaves)
    (hnear : i.isNear = true) (henough : takes ≤ cells.length) :
    (i.cells sigs cells).drop leaves = cells.drop takes ∧
      leaves ≤ (i.cells sigs cells).length := by
  have heffect := h.effect
  unfold Instruction.cells
  split
  · cases heffect
    exact Cell.drop_cover henough
  · cases hnear
  · cases hnear
  · cases heffect
    exact ⟨rfl, Nat.succ_le_succ henough⟩
  · cases hnear
  · rw [heffect]
    constructor
    · rw [List.drop_append_of_le_length (by simp), List.drop_of_length_le (by simp),
        List.nil_append]
    · simp

section Pieces

variable {sigs : List (String × Signature)} {P Q : List Cell → Prop} {t : Nat}
  {code : List Instruction}

/-- What is known below the values that straight code works on stays known. -/
theorem Turns.cells {n m : Nat} (h : Turns sigs n code m) :
    Scannable (.cells sigs) (some (Above (t + n) P)) code (some (Above (t + m) P)) := by
  induction h with
  | nil => exact .nil
  | @cons i takes leaves n m code hi hnear henough _ ih =>
    have hleads : (Domain.cells sigs).leads i (Above (t + n) P)
        (Above (t + (n - takes + leaves)) P) := by
      rintro cells ⟨hn, hP⟩
      obtain ⟨hdrop, hlength⟩ := hi.drop_cells hnear (show takes ≤ cells.length by omega)
      refine ⟨?_, ?_, ?_⟩
      · rintro _ rfl
        cases hnear
      · have hlengths := congrArg List.length hdrop
        rw [List.length_drop, List.length_drop] at hlengths
        omega
      · rw [show t + (n - takes + leaves) = leaves + (t + n - takes) by omega, ← List.drop_drop,
          hdrop, List.drop_drop, Nat.add_sub_cancel' (show takes ≤ t + n by omega)]
        exact hP
    have hop := Scannable.op hi.label hleads hi.jump
    rw [if_pos hi.falls] at hop
    exact hop.append ih

/-- A jump takes the value that it depends on. -/
theorem Domain.cells_jumpIf {c : Opcode} {l : String} (hc : c = .bz ∨ c = .bnz) :
    (Domain.cells sigs).leads (.op c [.label l]) (Above (t + 1) P) (Above t P) := by
  rintro cells ⟨hlength, hP⟩
  have hcells : (Instruction.op c [.label l]).cells sigs cells = cells.drop 1 := by
    rcases hc with rfl | rfl <;> rfl
  rw [hcells]
  refine ⟨nofun, ?_, ?_⟩
  · rw [List.length_drop]
    omega
  · rw [List.drop_drop, Nat.add_comm]
    exact hP

/-- Code that moves cells about: no label or jump, and no read. -/
def Instruction.isMove (i : Instruction) : Bool :=
  i.label?.isNone && i.jump?.isNone && i.fallsThrough && !(i matches .op .dig _)

/-- Code that moves cells about can be gone through, wherever it moves them. -/
theorem Scannable.moves (hcode : code.all Instruction.isMove)
    (h : ∀ cells, P cells → Q (code.foldl (fun cells i => i.cells sigs cells) cells)) :
    Scannable (.cells sigs) (some P) code (some Q) := by
  induction code generalizing P with
  | nil => exact Scannable.nil.relax (.of_le h)
  | cons i code ih =>
    rw [List.all_cons, Bool.and_eq_true] at hcode
    obtain ⟨hi, hcode⟩ := hcode
    simp only [Instruction.isMove, Bool.and_eq_true, Option.isNone_iff_eq_none] at hi
    obtain ⟨⟨⟨hlabel, hjump⟩, hfalls⟩, hdig⟩ := hi
    have hleads : (Domain.cells sigs).leads i P
        fun cells => Q (code.foldl (fun cells i => i.cells sigs cells) cells) := by
      intro cells hP
      refine ⟨?_, h cells hP⟩
      rintro _ rfl
      cases hdig
    have hop := Scannable.op hlabel hleads hjump
    rw [if_pos hfalls] at hop
    exact hop.append (ih hcode fun _ hQ => hQ)

/-- Before a function is left it does not matter where cells are. -/
theorem Scannable.anyhow (hcode : code.all Instruction.isMove) :
    Scannable (.cells sigs) (some P) code (some fun _ => True) :=
  .moves hcode fun _ _ => trivial

/-- An instruction after which control does not go on. -/
theorem Scannable.halt {i : Instruction} (hlabel : i.label? = none) (hjump : i.jump? = none)
    (hfalls : i.fallsThrough = false) : Scannable (.cells sigs) (some P) [i] none := by
  have hleads : (Domain.cells sigs).leads i P fun _ => True := by
    intro cells _
    refine ⟨?_, trivial⟩
    rintro _ rfl
    cases hfalls
  have hop := Scannable.op hlabel hleads hjump
  rw [hfalls] at hop
  exact hop

end Pieces

end ContractCompiler
