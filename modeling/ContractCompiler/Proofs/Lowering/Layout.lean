import ContractCompiler.Proofs.Lowering.Steps

/-!
# The layout of a frame

While a function is lowered, its frame holds the slots of its local variables and, above them,
the values of the expressions that are being computed. A layout is the list of the variables, top
first; the height of a variable's slot is then given by its place in the list.
-/

namespace ContractCompiler

/-- An operand of an operation: the environment and the state in which it is checked, and what is
known on the stack of its value. -/
structure Known where
  env : CheckEnv
  expr : Expr
  state : CheckState
  type : StackType

/-- A place where the code depends on what is known of operands, with the operations emitted
there, or on what a name stands for, with the state in which it is looked up. -/
inductive Occurrence where
  | complement (operand : Known) (emitted : List Opcode)
  | operator (op : BinaryOperator) (left right : Known) (emitted : List Opcode)
  | cast (target : TypeId) (operand : Known) (emitted : List Opcode)
  /-- The slot of a name is read. -/
  | slot (name : String) (state : CheckState)
  /-- The slot of a name is written. -/
  | store (name : String) (state : CheckState)
  /-- The operations are those of a built-in name. -/
  | builtin (name : String) (state : CheckState)
  /-- The type of the transaction at a place is read. -/
  | transaction (place : Variable) (state : CheckState)

/-- What the lowering of a function body depends on: the two environments, which must agree, and
whether it is the entry. `callable` are the functions that may be called, `held` are the stack types
that values can have, and `allowed` is what is asked of the code that depends on types and
names. -/
structure Setting where
  check : CheckEnv
  lower : LowerEnv
  main : Bool
  types_eq : check.types = Builtin.checkedTypes
  builtin_eq : check.builtin = Builtin.ids
  signatures_eq : check.signatures = lower.signatures
  callable : String → Prop
  held : StackType → Prop
  held_uint64 : held .uint64
  held_any : held .any
  held_local : ∀ offset k, lower.localType? offset = some k → held k
  allowed : Occurrence → Prop

/-- Depths of the frame of the function that is lowered, which returns with its result and nothing
else. -/
def Setting.heights (S : Setting) (cap : Nat) : Domain Nat :=
  .heights S.lower.signatures cap fun depth =>
    S.main = false ∧ depth = if S.check.currentReturns then 1 else 0

/-- A name is that of a variable that can hold anything. -/
def CheckState.HoldsAny (cs : CheckState) (n : String) : Prop :=
  (Scopes.lookupFrames cs.scopes.frames n).map Field.type = some .any

namespace LowerState

/-- The slots are those of a layout. -/
structure Kept (S : Setting) (s : LowerState) (names : List String) : Prop where
  main : s.main = S.main
  nodup : names.Nodup
  pos : ∀ n : String, s.slots[n]?.map Slot.pos =
    if n ∈ names then some (names.length - names.idxOf n) else none
  held : ∀ (n : String) (slot : Slot) (k : StackType),
    s.slots[n]? = some slot → slot.type = some k → S.held k

/-- Above `height` slots of variables, the stack holds values of types `temps`. -/
def Stacked (S : Setting) (height : Nat) (temps : List StackType) (stack : StackShape) : Prop :=
  ∃ vars, stack = temps ++ vars ∧ vars.length = height ∧ ∀ k ∈ vars, S.held k

/-- The slots are those of a layout, and above them the stack holds values of types `temps`. -/
structure Laid (S : Setting) (s : LowerState) (names : List String) (temps : List StackType) :
    Prop extends Kept S s names where
  stack : Stacked S names.length temps s.builder.stack

/-- A name has a slot of which it is known that not only byte strings were stored there. -/
def Tame (s : LowerState) (n : String) : Prop :=
  ∃ slot k, s.slots[n]? = some slot ∧ slot.type = some k ∧ k ≠ .bytes

/-- From one context to another, the machine is the same, and what is known of slots that do not
hold byte strings only is not forgotten. -/
structure Carries (s s' : LowerState) : Prop where
  machine : s'.builder.machine = s.builder.machine
  tame : ∀ n, s.Tame n → s'.Tame n

/-- From one context to another, `code` was emitted and counted, nothing of that was forgotten, and
blocks were opened and closed in pairs. -/
structure Adds (s s' : LowerState) (code : List Instruction) : Prop extends
    s.builder.Grows s'.builder code 0 where
  tame : ∀ n, s.Tame n → s'.Tame n
  blocks : s'.blocks = s.blocks

/-- The code that was emitted is gone through from one depth of the stack to the other. -/
structure Writes (S : Setting) (s s' : LowerState) (code : List Instruction) : Prop extends
    Adds s s' code where
  scans : ∀ {cap}, s'.peak ≤ cap →
    Scannable (S.heights cap) (some s.builder.depth) code (some s'.builder.depth)

variable {S : Setting} {s s' s'' : LowerState} {names : List String}
  {temps temps' : List StackType} {code code' : List Instruction} {stack : StackShape}

theorem Carries.trans (h : s.Carries s') (h' : s'.Carries s'') : s.Carries s'' :=
  ⟨h'.machine.trans h.machine, fun n hn => h'.tame n (h.tame n hn)⟩

theorem Adds.refl : s.Adds s [] := ⟨.refl, fun _ h => h, rfl⟩

theorem Adds.carries (h : s.Adds s' code) : s.Carries s' := ⟨h.machine, h.tame⟩

theorem Adds.trans (h : s.Adds s' code) (h' : s'.Adds s'' code') : s.Adds s'' (code ++ code') :=
  ⟨h.toGrows.trans h'.toGrows, fun n hn => h'.tame n (h.tame n hn), h'.blocks.trans h.blocks⟩

theorem Writes.refl : s.Writes S s [] := ⟨.refl, fun _ => .nil⟩

theorem Writes.trans (h : s.Writes S s' code) (h' : s'.Writes S s'' code') :
    s.Writes S s'' (code ++ code') :=
  ⟨h.toAdds.trans h'.toAdds, fun hcap =>
    (h.scans (Nat.le_trans h'.peak hcap)).append (h'.scans hcap)⟩

/-- A step that emits nothing. -/
theorem Writes.silent (h : s.Writes S s' code) (h' : s'.Writes S s'' []) :
    s.Writes S s'' code := by
  have htrans := h.trans h'
  rwa [List.append_nil] at htrans

theorem Adds.writes (h : s.Adds s' []) (hdepth : s'.builder.depth = s.builder.depth) :
    s.Writes S s' [] :=
  ⟨h, fun _ => hdepth ▸ .nil⟩

theorem Tame.of_slots (hslots : s'.slots = s.slots) {n : String} (h : s.Tame n) : s'.Tame n := by
  unfold Tame
  rw [hslots]
  exact h

theorem Next.adds (h : s.Next s' code stack) : s.Adds s' code :=
  ⟨h.toGrows, fun _ => .of_slots h.slots, h.blocks⟩

theorem Goes.writes (h : s.Goes s' code stack) : s.Writes S s' code :=
  ⟨h.toNext.adds, h.scans⟩

/-- A slot that is known not to hold byte strings only is so after one more store. -/
theorem Tame.stored {n m : String} {slot : Slot} {k : StackType} (hslot : s.slots[n]? = some slot)
    (hslots : s'.slots = s.slots.insert n (Lower.Slot.stored slot k)) (h : s.Tame m) :
    s'.Tame m := by
  obtain ⟨slot', k', hm, htype, hk'⟩ := h
  unfold Tame
  rw [hslots, Std.ExtTreeMap.getElem?_insert]
  split
  case isTrue heq =>
    obtain rfl := Std.LawfulEqCmp.eq_of_compare heq
    cases hslot.symm.trans hm
    refine ⟨_, k'.join k, rfl, by simp only [Lower.Slot.stored, htype], ?_⟩
    unfold StackType.join
    split
    · exact hk'
    · decide
  case isFalse => exact ⟨slot', k', hm, htype, hk'⟩

/-- A slot is known not to hold byte strings only once something else was stored there. -/
theorem Tame.of_stored {n : String} {slot : Slot} {k : StackType}
    (hslots : s'.slots = s.slots.insert n (Lower.Slot.stored slot k)) (hk : k ≠ .bytes) :
    s'.Tame n := by
  refine ⟨Lower.Slot.stored slot k, (slot.type.elim k fun before => before.join k), ?_, ?_, ?_⟩
  · rw [hslots, Std.ExtTreeMap.getElem?_insert_self]
  · cases htype : slot.type <;> simp [Lower.Slot.stored, htype]
  · cases slot.type with
    | none => exact hk
    | some before =>
      show before.join k ≠ .bytes
      unfold StackType.join
      split
      case isTrue heq => exact heq ▸ hk
      case isFalse => decide

theorem Kept.next (h : s.Kept S names) (hn : s.Next s' code stack) : s'.Kept S names where
  main := hn.main.trans h.main
  nodup := h.nodup
  pos := by
    rw [hn.slots]
    exact h.pos
  held := by
    rw [hn.slots]
    exact h.held

theorem Kept.laid (h : s.Kept S names) (hn : s.Next s' code stack)
    (hstack : Stacked S names.length temps stack) : s'.Laid S names temps where
  toKept := h.next hn
  stack := by
    rw [hn.stack]
    exact hstack

/-- A change that leaves the stack alone. -/
theorem Laid.same (h : s.Laid S names temps) (hn : s.Next s' code s.builder.stack) :
    s'.Laid S names temps :=
  h.toKept.laid hn h.stack

theorem Laid.length (h : s.Laid S names temps) :
    s.builder.stack.length = names.length + temps.length := by
  obtain ⟨vars, hstack, hlen, -⟩ := h.stack
  rw [hstack, List.length_append, hlen, Nat.add_comm]

theorem Laid.depth (h : s.Laid S names temps) :
    s.builder.depth = names.length + temps.length := h.length

/-- The depths that code is gone through at, as layouts tell them. -/
theorem Writes.scans_laid (h : s.Writes S s' code) (hs : s.Laid S names temps)
    (hs' : s'.Laid S names temps') {cap : Nat} (hcap : s'.peak ≤ cap) :
    Scannable (S.heights cap) (some (names.length + temps.length)) code
      (some (names.length + temps'.length)) := by
  rw [← hs.depth, ← hs'.depth]
  exact h.scans hcap

theorem Adds.writes_laid (h : s.Adds s' code) (hs : s.Laid S names temps)
    (hs' : s'.Laid S names temps')
    (hscans : ∀ {cap}, s'.peak ≤ cap → Scannable (S.heights cap)
      (some (names.length + temps.length)) code (some (names.length + temps'.length))) :
    s.Writes S s' code := by
  rw [← hs.depth, ← hs'.depth] at hscans
  exact ⟨h, hscans⟩

/-- What is known of a value above the slots. -/
theorem Laid.getElem? (h : s.Laid S names temps) {i : Nat} (hi : i < temps.length) :
    s.builder.stack[i]? = temps[i]? := by
  obtain ⟨vars, hstack, -, -⟩ := h.stack
  rw [hstack, List.getElem?_append_left hi]

theorem Laid.top? {k : StackType} (h : s.Laid S names (k :: temps)) :
    s.builder.top? = some k :=
  h.getElem? (Nat.zero_lt_succ _)

/-- A name of the layout has a slot at the height that its place in the layout tells. -/
theorem Kept.slot_of_mem (h : s.Kept S names) {n : String} (hn : n ∈ names) :
    ∃ slot, s.slots[n]? = some slot ∧ slot.pos = names.length - names.idxOf n := by
  have hpos := h.pos n
  rw [if_pos hn] at hpos
  obtain ⟨slot, hslot, heq⟩ := Option.map_eq_some_iff.1 hpos
  exact ⟨slot, hslot, heq⟩

/-- A name outside the layout has no slot. -/
theorem Kept.slot_of_not_mem (h : s.Kept S names) {n : String} (hn : n ∉ names) :
    s.slots[n]? = none := by
  have hpos := h.pos n
  rw [if_neg hn] at hpos
  exact Option.map_eq_none_iff.1 hpos

/-- What an operation takes is there if its number is right. -/
theorem Laid.pops_le {code : Opcode} {taken : List StackType}
    (hs : s.Laid S names (taken ++ temps)) (htaken : taken.length = code.pops.length) :
    code.pops.length ≤ s.builder.stack.length := by
  rw [hs.length, List.length_append]
  omega

theorem Laid.take_eq {taken : List StackType} (hs : s.Laid S names (taken ++ temps)) :
    s.builder.stack.take taken.length = taken := by
  obtain ⟨vars, hstack, -⟩ := hs.stack
  rw [hstack, List.append_assoc, List.take_left]

/-- The layout after an operation that takes values of types `taken` and leaves such of types
`left`. -/
theorem Laid.replaced {code : Opcode} {operands : List Operand}
    {taken left : List StackType} (hs : s.Laid S names (taken ++ temps))
    (htaken : taken.length = code.pops.length) (hleft : code.pushes.reverse = left)
    (hnext : s.Next s' [.op code operands]
      (code.pushes.reverse ++ s.builder.stack.drop code.pops.length)) :
    s'.Laid S names (left ++ temps) := by
  obtain ⟨vars, hstack, hvars⟩ := hs.stack
  refine hs.laid hnext ⟨vars, ?_, hvars⟩
  rw [hleft, hstack, ← htaken, List.append_assoc, List.drop_left, List.append_assoc]

end LowerState

/-! ## Contexts of lowering -/

namespace Lower

/-- How much is known of a source. If it is `strict`, the types of values are known well enough for
no operation to be refused for what it finds on the stack; `faults` is what may be wrong all the
same. -/
structure Rigour where
  strict : Prop
  faults : CodeFault → Prop

/-- What steps may fail for on a machine: if it is strict, no operation of applications is refused
for what it finds on the stack if that suits it; else all faults of the source are allowed. -/
structure Regime (G : Rigour) (machine : Nat × Mode) : Prop extends Spares G.faults machine where
  lenient : ¬G.strict → ∀ fault : CodeFault, fault.isInternal = false → G.faults fault
  granted : ∀ {s : LowerState} {code : Opcode} {operands : List Operand},
    s.builder.machine = machine → code.moves = false → operands.length = code.params.length →
    code.pops.length ≤ s.builder.stack.length →
    (G.strict → code.mode ≠ .signature ∧ StackEffect.checkTypes code code.pops
      (s.builder.stack.take code.pops.length).reverse 1 = .ok ()) → Granted G.faults s code operands

/-- Nothing is known of types, and all faults of the source are allowed. -/
def Rigour.lenient : Rigour := ⟨False, fun fault => fault.isInternal = false⟩

theorem Regime.lenient_holds {machine : Nat × Mode} : Regime .lenient machine :=
  ⟨.meets, fun _ _ h => h, fun _ hmoves hparams hlen _ => .meets hmoves hparams hlen⟩

end Lower

namespace LowerState

open Lower

/-- If types are known, of every variable that can hold anything it is known that not only byte
strings were stored there. -/
def Knows (G : Rigour) (s : LowerState) (cs : CheckState) : Prop :=
  G.strict → ∀ n, cs.HoldsAny n → s.Tame n

/-- A context in which the code of something that is checked in `cs` can follow. If types are known,
it is that of an application. -/
structure Ready (G : Rigour) (S : Setting) (s : LowerState) (names : List String)
    (temps : List StackType) (cs : CheckState) : Prop extends Laid S s names temps where
  regime : Regime G s.builder.machine
  application : G.strict → S.lower.entry.isApplication = true
  bytes : G.strict → S.held .bytes
  tame : s.Knows G cs

variable {G : Rigour} {S : Setting} {s s' : LowerState} {names names' : List String}
  {temps temps' : List StackType} {cs cs' : CheckState}

theorem Knows.carry (h : s.Knows G cs) (hcarries : s.Carries s') : s'.Knows G cs :=
  fun hstrict n hn => hcarries.tame n (h hstrict n hn)

/-- What is known of variables is carried along. -/
theorem Ready.after (h : s.Ready G S names temps cs) (hcarries : s.Carries s')
    (hs : s'.Laid S names' temps') : s'.Ready G S names' temps' cs where
  toLaid := hs
  regime := hcarries.machine ▸ h.regime
  application := h.application
  bytes := h.bytes
  tame := h.tame.carry hcarries

/-- Fewer variables may count as ones that can hold anything. -/
theorem Ready.mono (h : s.Ready G S names temps cs) (hany : s.Knows G cs') :
    s.Ready G S names temps cs' :=
  ⟨h.toLaid, h.regime, h.application, h.bytes, hany⟩

/-- An operation that finds what suits it is not refused. -/
theorem Ready.granted {code : Opcode} {operands : List Operand} (taken : List StackType)
    (h : s.Ready G S names (taken ++ temps) cs) (hmoves : code.moves = false)
    (hparams : operands.length = code.params.length) (htaken : taken.length = code.pops.length)
    (hsuits : G.strict → code.mode ≠ .signature ∧
      StackEffect.checkTypes code code.pops taken.reverse 1 = .ok ()) :
    Granted G.faults s code operands := by
  refine h.regime.granted rfl hmoves hparams (h.pops_le htaken) ?_
  rw [← htaken, h.toLaid.take_eq]
  exact hsuits

end LowerState

namespace Lower

open LowerState

variable {G : Rigour} {S : Setting} {F : CodeFault → Prop} {env : LowerEnv} {s : LowerState}
  {names : List String} {temps : List StackType} {cs : CheckState} {k t : StackType}
  {post : Unit → LowerState → Prop}

/-! ## Operations on the values above the slots -/

/-- What is not a byte string may be used as an integer. -/
theorem suits_integer {code : Opcode} (hk : G.strict → k ≠ .bytes) (hpops : code.pops = [.uint64])
    (hmode : code.mode ≠ .signature) : G.strict → code.mode ≠ .signature ∧
      StackEffect.checkTypes code code.pops [k] 1 = .ok () := by
  refine fun hstrict => ⟨hmode, ?_⟩
  rw [hpops]
  cases k with
  | bytes => exact absurd rfl (hk hstrict)
  | _ => rfl

/-- An operation takes values of types `taken`, top first, if it is granted, and leaves such of
types `left`. -/
theorem Ends.laid_granted {code : Opcode} {operands : List Operand} (taken left : List StackType)
    (hgranted : Granted F s code operands) (hs : s.Laid S names (taken ++ temps))
    (hmoves : code.moves = false) (htaken : taken.length = code.pops.length)
    (hleft : code.pushes.reverse = left)
    (h : ∀ s', s.Adds s' [.op code operands] →
      (code.isPlain = true → s.Writes S s' [.op code operands]) → s'.Laid S names (left ++ temps) →
      post () s') :
    (Lower.op code operands).Ends F env s post :=
  .taking hgranted hmoves (hs.pops_le htaken) fun s' hnext hgoes =>
    h s' hnext.adds (fun hplain => (hgoes hplain).writes) (hs.replaced htaken hleft hnext)

/-- Such an operation is granted if what it takes suits it. -/
theorem Ends.ready_taking {code : Opcode} {operands : List Operand} (taken left : List StackType)
    (hs : s.Ready G S names (taken ++ temps) cs) (hmoves : code.moves = false)
    (hparams : operands.length = code.params.length)
    (htaken : taken.length = code.pops.length) (hleft : code.pushes.reverse = left)
    (hsuits : G.strict → code.mode ≠ .signature ∧
      StackEffect.checkTypes code code.pops taken.reverse 1 = .ok ())
    (h : ∀ s', s.Adds s' [.op code operands] →
      (code.isPlain = true → s.Writes S s' [.op code operands]) →
      s'.Ready G S names (left ++ temps) cs → post () s') :
    (Lower.op code operands).Ends G.faults env s post :=
  .laid_granted taken left (hs.granted taken hmoves hparams htaken hsuits) hs.toLaid hmoves htaken
    hleft fun s' ha hw hs' => h s' ha hw (hs.after ha.carries hs')

/-- Such an operation that is not special in any way. -/
theorem Ends.ready_op {code : Opcode} {operands : List Operand} (taken left : List StackType)
    (hs : s.Ready G S names (taken ++ temps) cs) (hplain : code.isPlain = true)
    (hparams : operands.length = code.params.length)
    (htaken : taken.length = code.pops.length) (hleft : code.pushes.reverse = left)
    (hsuits : G.strict → code.mode ≠ .signature ∧
      StackEffect.checkTypes code code.pops taken.reverse 1 = .ok ())
    (h : ∀ s', s.Writes S s' [.op code operands] → s'.Ready G S names (left ++ temps) cs →
      post () s') :
    (Lower.op code operands).Ends G.faults env s post :=
  .ready_taking taken left hs (code.moves_of_isPlain hplain) hparams htaken hleft hsuits
    fun s' _ hw => h s' (hw hplain)

/-- A jump that depends on the value on top. -/
theorem Ends.ready_jumpIf {code : Opcode} {label : String} (hcode : code = .bz ∨ code = .bnz)
    (hs : s.Ready G S names (k :: temps) cs) (hk : G.strict → k ≠ .bytes)
    (h : ∀ s', s.Adds s' [.op code [.label label]] → s'.Ready G S names temps cs → post () s') :
    (Lower.op code [.label label]).Ends G.faults env s post := by
  rcases hcode with rfl | rfl <;>
    exact .ready_taking [k] [] hs rfl rfl rfl rfl (suits_integer hk rfl (by decide))
      fun s' ha _ => h s' ha

/-- An operation that neither takes nor leaves anything, whatever is on the stack. -/
theorem Ends.bare {code : Opcode} {operands : List Operand} (hR : Regime G s.builder.machine)
    (hmoves : code.moves = false) (hparams : operands.length = code.params.length)
    (hpops : code.pops = []) (hpushes : code.pushes = []) (hmode : code.mode ≠ .signature)
    (h : ∀ s', s.Next s' [.op code operands] s.builder.stack → post () s') :
    (Lower.op code operands).Ends G.faults env s post := by
  have hgranted : Granted G.faults s code operands := by
    refine hR.granted rfl hmoves hparams (by rw [hpops]; exact Nat.zero_le _) fun _ => ⟨hmode, ?_⟩
    rw [hpops]
    rfl
  refine .taking hgranted hmoves (by rw [hpops]; exact Nat.zero_le _) fun s' hnext _ => ?_
  rw [hpops, hpushes] at hnext
  exact h s' hnext

theorem Ends.ready_label {name : String} (hs : s.Ready G S names temps cs)
    (h : ∀ s', s.Adds s' [.label name] → s'.Ready G S names temps cs → post () s') :
    (build (Builder.label name)).Ends F env s post :=
  .label fun s' hnext => h s' hnext.adds (hs.after hnext.adds.carries (hs.toLaid.same hnext))

theorem Ends.ready_freshLabel {purpose : String} {post : String → LowerState → Prop}
    (hs : s.Ready G S names temps cs)
    (h : ∀ name s', s.Adds s' [] → s'.Ready G S names temps cs → post name s') :
    (build (Builder.freshLabel purpose)).Ends F env s post :=
  .freshLabel fun name s' hnext =>
    h name s' hnext.adds (hs.after hnext.adds.carries (hs.toLaid.same hnext))

theorem Ends.laid_retypeTop (hs : s.Laid S names (k :: temps))
    (h : ∀ s', s.Writes S s' [] → s'.Laid S names (t :: temps) → post () s') :
    (build (Builder.retypeTop t)).Ends F env s post := by
  obtain ⟨vars, hstack, hvars⟩ := hs.stack
  refine .retypeTop hstack fun s' hnext => ?_
  have hs' : s'.Laid S names (t :: temps) := hs.toKept.laid hnext ⟨vars, rfl, hvars⟩
  exact h s' (hnext.adds.writes (hs'.depth.trans hs.depth.symm)) hs'

theorem Ends.ready_retypeTop (hs : s.Ready G S names (k :: temps) cs)
    (h : ∀ s', s.Writes S s' [] → s'.Ready G S names (t :: temps) cs → post () s') :
    (build (Builder.retypeTop t)).Ends F env s post :=
  .laid_retypeTop hs.toLaid fun s' hw hs' => h s' hw (hs.after hw.carries hs')

/-- Going back to a stack that was there before. -/
theorem Ends.laid_restore {stack : StackShape} (hs : s.Kept S names)
    (hstack : Stacked S names.length temps stack)
    (h : ∀ s', s.Adds s' [] → s'.Laid S names temps → post () s') :
    (build (Builder.restore stack)).Ends F env s post :=
  .restore fun s' hnext => h s' hnext.adds (hs.laid hnext hstack)

theorem Ends.ready_dup (hs : s.Ready G S names (k :: temps) cs)
    (h : ∀ s', s.Writes S s' [.op .dup []] → s'.Ready G S names (k :: k :: temps) cs →
      post () s') :
    (op₀ .dup).Ends G.faults env s post := by
  obtain ⟨vars, hstack, hvars⟩ := hs.stack
  refine .moving (k :: s.builder.stack) hs.regime.toPermits rfl rfl (by rw [hstack]; rfl)
    fun s' hnext hnoted => ?_
  have hgoes := hnext.goes (fun _ => (⟨rfl, rfl, rfl, rfl⟩ : Instruction.Steps _ _ 1 2))
    (by rw [hs.depth]; exact Nat.le_add_left _ _)
    (by rw [hs.depth, List.length_cons, hs.length, List.length_cons]; omega) hnoted
  exact h s' hgoes.writes (hs.after hnext.adds.carries
    (hs.toKept.laid hnext ⟨vars, by rw [hstack]; rfl, hvars⟩))

theorem Ends.ready_swap (hs : s.Ready G S names (k :: t :: temps) cs)
    (h : ∀ s', s.Writes S s' [.op .swap []] → s'.Ready G S names (t :: k :: temps) cs →
      post () s') :
    (op₀ .swap).Ends G.faults env s post := by
  obtain ⟨vars, hstack, hvars⟩ := hs.stack
  refine .moving (t :: k :: (temps ++ vars)) hs.regime.toPermits rfl rfl (by rw [hstack]; rfl)
    fun s' hnext hnoted => ?_
  have hdepth : s.builder.depth = (temps ++ vars).length + 2 := congrArg List.length hstack
  have hgoes := hnext.goes (fun _ => (⟨rfl, rfl, rfl, rfl⟩ : Instruction.Steps _ _ 2 2))
    (by omega) (by rw [hdepth]; rfl) hnoted
  exact h s' hgoes.writes (hs.after hnext.adds.carries (hs.toKept.laid hnext ⟨vars, rfl, hvars⟩))

/-! ## Joining two ways -/

theorem zipWith_join_self (l : List StackType) : List.zipWith StackType.join l l = l := by
  induction l with
  | nil => rfl
  | cons k l ih =>
    rw [List.zipWith_cons_cons, ih]
    simp [StackType.join]

/-- Two stacks over the same slots are joined value by value. -/
theorem stacked_zipWith {height : Nat} {temps' : List StackType} {stack stack' : StackShape}
    (h : Stacked S height temps stack) (h' : Stacked S height temps' stack')
    (hlen : temps.length = temps'.length) :
    Stacked S height (List.zipWith StackType.join temps temps')
      (List.zipWith StackType.join stack stack') := by
  obtain ⟨vars, rfl, hvars, hheld⟩ := h
  obtain ⟨vars', rfl, hvars', hheld'⟩ := h'
  refine ⟨List.zipWith StackType.join vars vars', List.zipWith_append hlen, ?_, ?_⟩
  · rw [List.length_zipWith, hvars, hvars', Nat.min_self]
  · intro k hk
    rw [← List.map_uncurry_zip_eq_zipWith] at hk
    obtain ⟨⟨a, b⟩, hab, rfl⟩ := List.mem_map.1 hk
    show S.held (a.join b)
    unfold StackType.join
    split
    · exact hheld a (List.of_mem_zip hab).1
    · exact S.held_any

theorem Ends.laid_merge {temps' : List StackType} {stack : StackShape}
    (hs : s.Laid S names temps) (hstack : Stacked S names.length temps' stack)
    (hlen : temps.length = temps'.length)
    (h : ∀ s', s.Adds s' [] →
      s'.Laid S names (List.zipWith StackType.join temps temps') → post () s') :
    (build (Builder.merge stack)).Ends F env s post := by
  refine .merge ?_ fun s' hnext =>
    h s' hnext.adds (hs.toKept.laid hnext (stacked_zipWith hs.stack hstack hlen))
  obtain ⟨vars, rfl, hvars, -⟩ := hstack
  rw [hs.length, List.length_append, hvars, hlen, Nat.add_comm]

/-! ## Reading and replacing slots -/

/-- How far below the top the slot of a variable is. -/
theorem Ends.ready_distance {n : String} {post : Nat → LowerState → Prop}
    (hs : s.Ready G S names temps cs) (hn : n ∈ names)
    (h : temps.length + names.idxOf n ≤ maxImmediate →
      post (temps.length + names.idxOf n) s) :
    (distance (names.length - names.idxOf n)).Ends G.faults env s post := by
  have hidx := List.idxOf_lt_length_of_mem hn
  have hdepth := hs.depth
  have heq : s.builder.depth - (names.length - names.idxOf n) =
      temps.length + names.idxOf n := by omega
  refine .bind (.builder (.guard (fun hlt => ?_) fun _ => ?_))
  · omega
  · refine .guard (fun _ => hs.regime.slotTooDeep _) fun hle => .pure ?_
    rw [heq] at hle ⊢
    exact h (Nat.le_of_not_lt hle)

/-- The code that moves the top value into the slot `n` below it. -/
def replaceCode : Nat → List Instruction
  | 0 => []
  | 1 => [.op .swap [], .op .pop []]
  | n + 2 => [.op .cover [.uint (UInt64.ofNat (n + 2))],
      .op .uncover [.uint (UInt64.ofNat (n + 1))], .op .pop []]

theorem toNat_ofNat_of_le_maxImmediate {n : Nat} (h : n ≤ maxImmediate) :
    (UInt64.ofNat n).toNat = n := by
  rw [UInt64.toNat_ofNat']
  exact Nat.mod_eq_of_lt (Nat.lt_of_le_of_lt h (by decide))

theorem Instruction.cover_steps {n : Nat} (h : n ≤ maxImmediate)
    (sigs : List (String × Signature)) :
    (Instruction.op .cover [.uint (UInt64.ofNat n)]).Steps sigs (n + 1) (n + 1) :=
  ⟨rfl, by rw [Instruction.effect?, toNat_ofNat_of_le_maxImmediate h], rfl, rfl⟩

theorem Instruction.uncover_steps {n : Nat} (h : n ≤ maxImmediate)
    (sigs : List (String × Signature)) :
    (Instruction.op .uncover [.uint (UInt64.ofNat n)]).Steps sigs (n + 1) (n + 1) :=
  ⟨rfl, by rw [Instruction.effect?, toNat_ofNat_of_le_maxImmediate h], rfl, rfl⟩

theorem Instruction.dig_steps {n : Nat} (h : n ≤ maxImmediate)
    (sigs : List (String × Signature)) :
    (Instruction.op .dig [.uint (UInt64.ofNat n)]).Steps sigs (n + 1) (n + 2) :=
  ⟨rfl, by rw [Instruction.effect?, toNat_ofNat_of_le_maxImmediate h], rfl, rfl⟩

theorem peek_eq_ok {code : Opcode} {n : Nat} {stack : StackShape} (h : stack[n]? = some t) :
    StackEffect.peek code n stack = .ok t := by
  unfold StackEffect.peek
  rw [h]

theorem apply_dig {n : Nat} {stack : StackShape} (hn : n ≤ maxImmediate)
    (h : stack[n]? = some t) :
    StackEffect.apply .dig [.uint (UInt64.ofNat n)] stack = .ok (t :: stack) := by
  show (StackEffect.peek .dig (UInt64.ofNat n).toNat stack >>= fun t => pure (t :: stack)) = _
  rw [toNat_ofNat_of_le_maxImmediate hn, peek_eq_ok h]
  rfl

theorem apply_cover {n : Nat} {rest : StackShape} (hn : n ≤ maxImmediate)
    (h : n ≤ rest.length) :
    StackEffect.apply .cover [.uint (UInt64.ofNat n)] (k :: rest) =
      .ok (rest.take n ++ k :: rest.drop n) := by
  have hsome : (k :: rest)[n]? = some ((k :: rest).get ⟨n, Nat.lt_succ_of_le h⟩) :=
    List.getElem?_eq_getElem _
  show (StackEffect.peek .cover (UInt64.ofNat n).toNat (k :: rest) >>= fun _ =>
    pure (rest.take (UInt64.ofNat n).toNat ++ k :: rest.drop (UInt64.ofNat n).toNat)) = _
  rw [toNat_ofNat_of_le_maxImmediate hn, peek_eq_ok hsome]
  rfl

theorem apply_uncover {n : Nat} {stack : StackShape} (hn : n ≤ maxImmediate)
    (h : stack[n]? = some t) :
    StackEffect.apply .uncover [.uint (UInt64.ofNat n)] stack =
      .ok (t :: stack.eraseIdx n) := by
  show (StackEffect.peek .uncover (UInt64.ofNat n).toNat stack >>= fun t =>
    pure (t :: stack.eraseIdx (UInt64.ofNat n).toNat)) = _
  rw [toNat_ofNat_of_le_maxImmediate hn, peek_eq_ok h]
  rfl

/-- What covering and uncovering leaves: the value has taken the place of the slot, which is on
top. -/
theorem eraseIdx_cover {α : Type} {a : α} {m : Nat} {rest : List α} (hm : m < rest.length) :
    (rest.take (m + 1) ++ a :: rest.drop (m + 1)).eraseIdx m = rest.set m a := by
  have hlen : (rest.take (m + 1)).length = m + 1 := by
    rw [List.length_take]
    omega
  rw [List.eraseIdx_append_of_lt_length (by omega), List.set_eq_take_append_cons_drop,
    if_pos hm]
  congr 1
  rw [List.eraseIdx_eq_take_drop_succ, List.take_take, List.drop_take]
  simp

/-- Replacing the slot `m + 1` below the top puts the top value in its place. -/
theorem Ends.replaceSlot {m : Nat} {rest : StackShape} (hF : Permits F s.builder.machine)
    (hstack : s.builder.stack = k :: rest) (hm : m < rest.length) (hmax : m + 1 ≤ maxImmediate)
    (h : ∀ s', s.Goes s' (replaceCode (m + 1)) (rest.set m k) → post () s') :
    (Lower.replaceSlot (m + 1)).Ends F env s post := by
  have hdepth : s.builder.depth = rest.length + 1 := congrArg List.length hstack
  cases m with
  | zero =>
    obtain ⟨t, rest, rfl⟩ := List.exists_cons_of_length_pos hm
    refine .bind (.moving (t :: k :: rest) hF rfl rfl (by rw [hstack]; rfl) fun s₁ h₁ hnoted => ?_)
    have hswap := h₁.goes (fun _ => (⟨rfl, rfl, rfl, rfl⟩ : Instruction.Steps _ _ 2 2))
      (by rw [hdepth, List.length_cons]; omega) (by rw [hdepth]; rfl) hnoted
    refine .passing (h₁.machine ▸ hF) rfl rfl rfl
      (by rw [h₁.stack]; exact Nat.succ_le_succ (Nat.zero_le _)) ?_
    intro s₂ h₂
    rw [h₁.stack] at h₂
    exact h s₂ (hswap.trans h₂)
  | succ m =>
    have hcover : StackEffect.apply .cover [.uint (UInt64.ofNat (m + 2))] s.builder.stack =
        .ok (rest.take (m + 2) ++ k :: rest.drop (m + 2)) := by
      rw [hstack]
      exact apply_cover hmax hm
    -- The value now lies right below the slot, which comes to the top and is dropped.
    have hsome : (rest.take (m + 2) ++ k :: rest.drop (m + 2))[m + 1]? =
        some (rest.get ⟨m + 1, hm⟩) := by
      rw [List.getElem?_append_left (by rw [List.length_take]; omega), List.getElem?_take,
        if_pos (by omega), List.getElem?_eq_getElem hm]
      rfl
    have hlen : (rest.take (m + 2) ++ k :: rest.drop (m + 2)).length = rest.length + 1 := by
      rw [List.length_append, List.length_cons, List.length_take, List.length_drop]
      omega
    refine .bind (.moving _ hF rfl rfl hcover fun s₁ h₁ hnoted₁ => ?_)
    have hgoes₁ := h₁.goes (Instruction.cover_steps hmax) (by omega) (by omega) hnoted₁
    have hdepth₁ : s₁.builder.depth = rest.length + 1 := (congrArg List.length h₁.stack).trans hlen
    have huncover := apply_uncover (Nat.le_of_succ_le hmax) hsome
    refine .bind (.moving _ (h₁.machine ▸ hF) rfl rfl (by rw [h₁.stack]; exact huncover)
      fun s₂ h₂ hnoted₂ => ?_)
    have hgoes₂ := h₂.goes (Instruction.uncover_steps (Nat.le_of_succ_le hmax)) (by omega)
      (by rw [List.length_cons, List.length_eraseIdx, if_pos (by omega), hlen]; omega) hnoted₂
    refine .passing ((h₂.machine.trans h₁.machine) ▸ hF) rfl rfl rfl
      (by rw [h₂.stack]; exact Nat.succ_le_succ (Nat.zero_le _)) ?_
    intro s₃ h₃
    rw [h₂.stack] at h₃
    have hnext : s.Goes s₃ (replaceCode (m + 2))
        ((rest.take (m + 2) ++ k :: rest.drop (m + 2)).eraseIdx (m + 1)) :=
      hgoes₁.trans (hgoes₂.trans h₃)
    rw [eraseIdx_cover hm] at hnext
    exact h s₃ hnext

/-- Reads the slot of a variable. -/
theorem Ends.ready_dig {n : String} (hs : s.Ready G S names temps cs)
    (hn : n ∈ names) (hmax : temps.length + names.idxOf n ≤ maxImmediate)
    (h : ∀ k s', S.held k →
      s.Writes S s' [.op .dig [.uint (UInt64.ofNat (temps.length + names.idxOf n))]] →
      s'.Ready G S names (k :: temps) cs → post () s') :
    (Lower.op .dig [.uint (UInt64.ofNat (temps.length + names.idxOf n))]).Ends G.faults env s
      post := by
  obtain ⟨vars, hstack, hlen, hheld⟩ := hs.stack
  have hidx : names.idxOf n < vars.length := hlen ▸ List.idxOf_lt_length_of_mem hn
  have hsome : s.builder.stack[temps.length + names.idxOf n]? =
      some (vars.get ⟨names.idxOf n, hidx⟩) := by
    rw [hstack, List.getElem?_append_right (Nat.le_add_right _ _), Nat.add_sub_cancel_left]
    exact List.getElem?_eq_getElem hidx
  have hdepth : s.builder.depth = temps.length + vars.length := by
    rw [hs.depth, hlen, Nat.add_comm]
  refine .moving _ hs.regime.toPermits rfl rfl (apply_dig hmax hsome) fun s' hnext hnoted => ?_
  have hgoes := hnext.goes (Instruction.dig_steps hmax) (by omega)
    (by rw [List.length_cons, ← Builder.depth]; omega) hnoted
  refine h (vars.get ⟨names.idxOf n, hidx⟩) s' (hheld _ (List.get_mem _ _)) hgoes.writes
    (hs.after hnext.adds.carries (hs.toKept.laid hnext ⟨vars, ?_, hlen, hheld⟩))
  rw [hstack]
  rfl

/-- Moves the top value into the slot of a variable. -/
theorem Ends.ready_replaceSlot {n : String} (hs : s.Ready G S names (k :: temps) cs)
    (hk : S.held k) (hn : n ∈ names) (hmax : temps.length + 1 + names.idxOf n ≤ maxImmediate)
    (h : ∀ s', s.Writes S s' (replaceCode (temps.length + 1 + names.idxOf n)) →
      s'.Ready G S names temps cs → post () s') :
    (Lower.replaceSlot (temps.length + 1 + names.idxOf n)).Ends G.faults env s post := by
  obtain ⟨vars, hstack, hlen, hheld⟩ := hs.stack
  have hidx : names.idxOf n < vars.length := hlen ▸ List.idxOf_lt_length_of_mem hn
  rw [List.cons_append] at hstack
  rw [Nat.add_right_comm] at hmax h ⊢
  refine .replaceSlot hs.regime.toPermits hstack (by rw [List.length_append]; omega) hmax
    fun s' hgoes => h s' hgoes.writes (hs.after hgoes.adds.carries
      (hs.toKept.laid hgoes.toNext ⟨vars.set (names.idxOf n) k, ?_, ?_, ?_⟩))
  · rw [List.set_append_right _ _ (Nat.le_add_right _ _), Nat.add_sub_cancel_left]
  · rw [List.length_set, hlen]
  · intro k' hk'
    rcases List.mem_or_eq_of_mem_set hk' with hmem | rfl
    · exact hheld k' hmem
    · exact hk

/-- Noting the type of a stored value moves no slot. -/
theorem Ends.ready_noteStore {n : String} (hs : s.Ready G S names temps cs) (hk : S.held k)
    (h : ∀ s', s.Writes S s' [] → s'.Ready G S names temps cs →
      (n ∈ names → k ≠ .bytes → s'.Tame n) → post () s') :
    (noteStore n k).Ends F env s post := by
  refine .update ?_
  cases hslot : s.slots[n]? with
  | none =>
    refine h s .refl hs fun hn => ?_
    obtain ⟨slot, hslot', -⟩ := hs.slot_of_mem hn
    rw [hslot] at hslot'
    cases hslot'
  | some slot =>
    have htame : ∀ m, s.Tame m → LowerState.Tame
        { s with slots := s.slots.insert n (Slot.stored slot k) } m := fun _ => .stored hslot rfl
    refine h _ (Adds.writes ⟨.refl, htame, rfl⟩ rfl) (hs.after ⟨rfl, htame⟩
      ⟨⟨hs.main, hs.nodup, fun m => ?_, fun m slot' k' hm hk' => ?_⟩, hs.stack⟩)
      fun _ hne => .of_stored rfl hne
    · show ((s.slots.insert n (Slot.stored slot k))[m]?).map Slot.pos = _
      rw [← hs.pos m, Std.ExtTreeMap.getElem?_insert]
      split
      case isTrue heq =>
        rw [← Std.LawfulEqCmp.eq_of_compare heq, hslot]
        rfl
      case isFalse => rfl
    · have hm' : (s.slots.insert n (Slot.stored slot k))[m]? = some slot' := hm
      rw [Std.ExtTreeMap.getElem?_insert] at hm'
      split at hm'
      case isTrue =>
        cases hm'
        cases htype : slot.type with
        | none =>
          simp only [Slot.stored, htype, Option.some.injEq] at hk'
          exact hk' ▸ hk
        | some before =>
          simp only [Slot.stored, htype, Option.some.injEq, StackType.join] at hk'
          split at hk'
          · exact hk' ▸ hs.held n slot before hslot htype
          · exact hk' ▸ S.held_any
      case isFalse => exact hs.held m slot' k' hm' hk'

end Lower

end ContractCompiler
