import Mathlib.Data.List.Nodup
import ContractCompiler.Proofs.Lowering.Reachability
import ContractCompiler.Proofs.Lowering.Statements
import ContractCompiler.Proofs.Typing.Programs

/-!
# The code of functions

The functions that an entry needs are lowered one after the other. Each has code of its own, in
which its parameters are the first slots of the frame.
-/

namespace ContractCompiler

/-! ## What a function is lowered with -/

/-- What is asked of the types of values, beside what the analysis noted of reads. -/
structure Discipline (localType? : Nat → Option StackType) where
  held : StackType → Prop
  held_uint64 : held .uint64
  held_any : held .any
  held_local : ∀ offset k, localType? offset = some k → held k
  allowed : Occurrence → Prop

/-- Nothing is asked of types. -/
def Discipline.free (localType? : Nat → Option StackType) : Discipline localType? where
  held := fun _ => True
  held_uint64 := trivial
  held_any := trivial
  held_local := fun _ _ _ => trivial
  allowed := fun _ => True

/-- What a function of a program is lowered with, for an entry that needs the functions
`reached`. -/
def Program.setting (p : Program) (mode : Mode) (entry : Entry)
    {localType? : Nat → Option StackType} (d : Discipline localType?) (reached : List Function)
    (f : Function) : Setting where
  check := p.checkEnv mode f
  lower := .ofProgram p localType? entry
  main := f.name == entry.functionName
  types_eq := rfl
  builtin_eq := rfl
  signatures_eq := rfl
  callable := fun n => ∃ g ∈ reached, g.name = n
  held := d.held
  held_uint64 := d.held_uint64
  held_any := d.held_any
  held_local := d.held_local
  allowed := d.allowed

/-- The scopes that the body of a function is checked in belong to the layout of its
parameters. -/
theorem Function.startState_fits (f : Function) (mode : Mode) :
    (f.startState mode).scopes.Fits mode f.params.reverse where
  frames := List.cons_ne_nil _ _
  root := f.root_startState mode
  declared := by
    intro n g hn
    rw [lookupFrames_startState] at hn
    split at hn
    case isTrue hmem =>
      cases hn
      exact ⟨List.mem_reverse.2 hmem, .any, rfl, by decide⟩
    case isFalse => cases hn
  plain := by
    intro n hn hnone
    rw [lookupFrames_startState, if_pos (List.mem_reverse.1 hn)] at hnone
    cases hnone
  hidden := by
    intro n g hn _
    rw [lookupFrames_startState] at hn
    split at hn
    case isTrue =>
      cases hn
      rfl
    case isFalse => cases hn

/-! ## The code of a function -/

/-- The code at the end of a body that control can get to. -/
def Function.endCode (f : Function) (main : Bool) : List Instruction :=
  if main then [.op .pushint [.uint 0], .op .exit []]
  else if f.returnsValue then [.op .err []]
  else List.replicate f.params.length (.op .pop []) ++ [.op .retsub []]

/-- The code in front of a body. -/
def Function.headCode (f : Function) (main : Bool) : List Instruction :=
  if main then [] else [.comment (" " ++ f.display), .label f.name]

/-- `Defines S f code`: `code` is the code of the function `f`. -/
inductive Defines (S : Setting) (f : Function) : List Instruction → Prop where
  | intro {body ends}
      (hbody : Performs S f.params.reverse (f.startState S.check.mode) (.block f.body) body
        ends) :
    Defines S f (f.headCode S.main ++ body ++ if ends then [] else f.endCode S.main)

namespace Lower

open LowerState

variable {S : Setting} {F : CodeFault → Prop} {s : LowerState} {f : Function}
  {post : Unit → LowerState → Prop}

/-- The slots of parameters are numbered from the bottom. -/
theorem getElem?_paramSlots {ps : List String} (hps : ps.Nodup) (pos : Nat)
    (slots : Std.ExtTreeMap String Slot) (n : String) :
    (paramSlots ps pos slots)[n]? =
      if n ∈ ps then some ⟨pos + ps.idxOf n, some .any⟩ else slots[n]? := by
  induction ps generalizing pos slots with
  | nil => simp [paramSlots]
  | cons q ps ih =>
    obtain ⟨hq, hps⟩ := List.nodup_cons.1 hps
    rw [paramSlots, ih hps, Std.ExtTreeMap.getElem?_insert]
    by_cases hn : q = n
    · subst hn
      simp [hq]
    · have hcmp : compare q n ≠ .eq := fun h => hn (Std.LawfulEqCmp.eq_of_compare h)
      have hbeq : (q == n) = false := by simpa using hn
      simp only [List.mem_cons, Ne.symm hn, false_or, List.idxOf_cons, hbeq, if_neg hcmp]
      split
      · simp only [Option.some.injEq, Slot.mk.injEq, and_true, cond_false]
        omega
      · rfl

theorem idxOf_reverse {ps : List String} (hps : ps.Nodup) {n : String} (hn : n ∈ ps) :
    ps.length - ps.reverse.idxOf n = 1 + ps.idxOf n := by
  have hlt := List.idxOf_lt_length_of_mem hn
  have hlt' : ps.length - 1 - ps.idxOf n < ps.reverse.length := by
    rw [List.length_reverse]
    omega
  have hget : ps.reverse[ps.length - 1 - ps.idxOf n] = n := by
    rw [List.getElem_reverse]
    have : ps.length - 1 - (ps.length - 1 - ps.idxOf n) = ps.idxOf n := by omega
    simp only [this, List.getElem_idxOf hlt]
  have hidx := (List.nodup_reverse.2 hps).idxOf_getElem _ hlt'
  rw [hget] at hidx
  rw [hidx]
  omega

/-- A function starts with its arguments in the slots of its parameters. -/
theorem Ends.startFunction {ps : List String} {main : Bool} (hps : ps.Nodup)
    (hmain : main = S.main)
    (h : ∀ s', s.builder.Grows s'.builder [] 0 → (∀ n ∈ ps, s'.Tame n) →
      s'.Laid S ps.reverse [] → post () s') :
    (Lower.startFunction ps main).Ends F S.lower s post := by
  refine .bind (.restore fun s₁ hnext => .update (h _ hnext.toGrows ?_ ⟨⟨hmain, ?_, ?_, ?_⟩, ?_⟩))
  · intro n hn
    refine ⟨⟨1 + ps.idxOf n, some .any⟩, .any, ?_, rfl, by decide⟩
    rw [getElem?_paramSlots hps, if_pos hn]
  · exact List.nodup_reverse.2 hps
  · intro n
    rw [getElem?_paramSlots hps]
    by_cases hn : n ∈ ps
    · rw [if_pos hn, if_pos (List.mem_reverse.2 hn), List.length_reverse, idxOf_reverse hps hn]
      rfl
    · rw [if_neg hn, if_neg (by simpa using hn)]
      rfl
  · intro n slot k hn hk
    rw [getElem?_paramSlots hps] at hn
    split at hn
    · cases hn
      cases hk
      exact S.held_any
    · cases hn
  · refine ⟨ps.map fun _ => .any, ?_, ?_, ?_⟩
    · exact hnext.stack
    · simp
    · intro k hk
      obtain ⟨_, -, rfl⟩ := List.mem_map.1 hk
      exact S.held_any

end Lower

/-! ## Functions that are reached -/

/-- Every case of a switch has values. -/
def Program.HasCaseValues (p : Program) : Prop :=
  ∀ f ∈ p.functions, ∀ c ∈ (Node.block f.body).found Node.case?, c.values ≠ []

section Reached

variable {p : Program} {mode : Mode} {entry : Entry} {main f : Function} {fs : List Function}
  {localType? : Nat → Option StackType} (d : Discipline localType?)

theorem Program.Reached.mem (h : p.Reached main fs) (hf : f ∈ fs) : f ∈ p.functions :=
  List.mem_of_find?_eq_some (h.found f hf)

theorem Program.callees_eq (f : Function) : callees f = (Node.block f.body).called := by
  rw [callees, ← Node.called_eq, Node.called_children rfl]
  simp [Node.children]

/-- What a function calls may be called. -/
theorem Program.Accepted.mayCall (hp : p.Accepted mode) (hf : f ∈ p.functions) {n : String}
    (hn : n ∈ callees f) : (p.checkEnv mode f).MayCall n := by
  obtain ⟨cs', hcheck⟩ := hp.body f hf
  rw [callees_eq] at hn
  exact (Block.check_accepts _ (f.startState_fits mode).proper hcheck).1.calls n hn

/-- Of the functions that an entry needs, no other is an entry. -/
theorem Program.Accepted.eq_main (hp : p.Accepted mode) (hreached : p.Reached main fs)
    (hf : f ∈ fs) (hentry : (p.checkEnv mode f).isEntry f.name = true) : f = main := by
  rcases hreached.called f hf with rfl | ⟨g, hg, hcall⟩
  · rfl
  · have hnot : (p.checkEnv mode f).isEntry f.name = false :=
      (hp.mayCall (hreached.mem hg) hcall).entry
    rw [hentry] at hnot
    cases hnot

/-- The body of a function that is reached can be lowered. -/
theorem Program.Accepted.sound (hp : p.Accepted mode) (hcases : p.HasCaseValues)
    (hreached : p.Reached main fs) (hmain : main.name = entry.functionName) (hf : f ∈ fs) :
    (Node.block f.body).Sound (p.setting mode entry d fs f) where
  called := by
    intro n hn hhash
    rw [← callees_eq] at hn
    obtain ⟨sig, hsig⟩ := (hp.mayCall (hreached.mem hf) hn).known hhash
    rw [show (p.checkEnv mode f).signatures = p.signatures from rfl, p.lookup_signatures] at hsig
    obtain ⟨g, hg, -⟩ := Option.map_eq_some_iff.1 hsig
    exact ⟨g, hreached.closed f hf n hn g hg, name_of_function? hg⟩
  cases := hcases f (hreached.mem hf)
  returns := by
    intro dep hdep hkind hvalue
    have hmem : dep ∈ (Node.function f).departures :=
      Node.found_subset Node.departure? (by simp [Node.children]) hdep
    refine List.any_eq_true.2 ⟨dep, hmem, ?_⟩
    rw [hkind, hvalue]
    rfl
  main := by
    intro hentry
    rw [hp.eq_main hreached hf hentry]
    exact beq_iff_eq.2 hmain

/-- What is asked of an accepted program for the discipline of its values: the cases of its switches
have values, and where byte strings are held, what is known of reads was noted when its bodies were
checked. -/
structure Program.Abides (p : Program) (mode : Mode) : Prop where
  accepted : p.Accepted mode
  cases : p.HasCaseValues
  suits : ∀ f ∈ p.functions, d.held .bytes ∨ ∃ readable, f.body.isIntegral readable = true
  noted : d.held .bytes → ∀ f ∈ p.functions, ∀ {cs'},
    f.body.check (p.checkEnv mode f) (f.startState mode) = .ok ((), cs') →
      f.nameOffsets.Nodup ∧ ∀ o ∈ f.nameOffsets, localType? o = cs'.localTypes[o]?

/-- What is known of the body of a function that is reached. -/
theorem Program.Abides.sited (hp : p.Abides d mode) (hreached : p.Reached main fs)
    (hmain : main.name = entry.functionName) (hf : f ∈ fs) :
    ∃ cs', f.body.Sited (p.setting mode entry d fs f) f.params.reverse (f.startState mode) cs' := by
  have hmem := hreached.mem hf
  obtain ⟨cs', hcheck⟩ := hp.accepted.body f hmem
  exact ⟨cs', f.startState_fits mode, hcheck,
    ⟨hp.accepted.sound d hp.cases hreached hmain hf, hp.suits f hmem⟩,
    fun hbytes => (hp.noted hbytes f hmem hcheck).1,
    fun hbytes => (hp.noted hbytes f hmem hcheck).2⟩

/-- Only parameters can hold anything where a body starts. -/
theorem Function.mem_params_of_holdsAny {n : String} (h : (f.startState mode).HoldsAny n) :
    n ∈ f.params := by
  unfold CheckState.HoldsAny at h
  rw [f.lookupFrames_startState] at h
  by_contra hn
  rw [if_neg hn] at h
  cases h

end Reached

section Code

open Lower

variable {G : Rigour} {S : Setting} {s : LowerState} {f : Function}
  {post : Unit → LowerState → Prop}

/-- The end of a body pops what is left of the frame, or fails. -/
theorem Function.lowerEnd_ends {cs : CheckState} (hs : s.Ready G S f.params.reverse [] cs)
    (hreturns : S.check.currentReturns = f.returnsValue)
    (h : ∀ s', s.Past S f.params.reverse s' (f.endCode S.main) true → post () s') :
    (f.lowerEnd S.main).Ends G.faults S.lower s post := by
  unfold Function.lowerEnd
  unfold endCode at h
  split
  case isTrue hmain =>
    rw [if_pos hmain] at h
    refine .bind (.ready_op [] [.uint64] hs rfl rfl rfl rfl (fun _ => ⟨by decide, rfl⟩)
      fun s₁ hw₁ hs₁ => ?_)
    exact .ready_exit hw₁ hs.toLaid hs₁ (fun _ => by decide) fun s' hp _ => h s' hp
  case isFalse hmain =>
    rw [if_neg hmain] at h
    split
    case isTrue hvalue =>
      rw [if_pos hvalue] at h
      exact .ready_err .refl hs.toLaid hs fun s' hp _ => h s' hp
    case isFalse hvalue =>
      rw [if_neg hvalue] at h
      refine .ready_returnNothing hs (by simpa using hmain) (by simpa [hreturns] using hvalue)
        fun s' hp _ => h s' ?_
      rw [List.length_reverse] at hp
      exact hp

/-- The comment and the label in front of a body. -/
theorem Function.lower_head_ends {F : CodeFault → Prop} {env : LowerEnv} {main : Bool}
    {rest : Lower Unit}
    (h : ∀ s', s.builder.Grows s'.builder (f.headCode main) (if main then 0 else 1) →
      rest.Ends F env s' post) :
    (do
      if !main then
        Lower.build (Builder.comment (" " ++ f.display))
        Lower.build (Builder.label f.name)
        Lower.build (Builder.count fun m => { m with subroutines := m.subroutines + 1 })
      rest : Lower Unit).Ends F env s post := by
  cases main with
  | true => exact h s .refl
  | false =>
    exact .bind (.build_modify (.bind (.build_modify (.bind (.build_modify
      (h _ ⟨rfl, rfl, rfl, rfl, rfl, rfl, rfl, Nat.le_refl _⟩))))))

/-- The code of a function can be gone through: from the top if it is the entry, and from its label
otherwise. -/
def Function.Enters {σ : Type} (D : Domain σ) (main : Bool) (f : Function) (start : σ)
    (code : List Instruction) : Prop :=
  ∃ T, T.map Prod.fst = Builder.definedLabels code ∧ (main = false → (f.name, some start) ∈ T) ∧
    Scans D T (if main then some start else none) code none

theorem Scannable.enters {σ : Type} {D : Domain σ} {start : σ} {code : List Instruction}
    (h : Scannable D (some start) code none) (main : Bool) :
    f.Enters D main start (f.headCode main ++ code) := by
  obtain ⟨T, hT, hscans⟩ := h
  cases main with
  | true => exact ⟨T, hT, nofun, hscans⟩
  | false =>
    refine ⟨(f.name, some start) :: T, ?_, fun _ => List.mem_cons_self, ?_⟩
    · simp [Function.headCode, Instruction.label?, hT]
    · exact .dead rfl (.weaken .none (.label List.mem_cons_self
        (hscans.mono (List.subset_cons_self _ _))))

/-- What is known of a function before it is lowered. -/
structure Function.Lowerable (G : Rigour) (S : Setting) (f : Function) : Prop where
  params : f.params.Nodup
  body : ∃ cs', f.body.Sited S f.params.reverse (f.startState S.check.mode) cs'
  returns : S.check.currentReturns = f.returnsValue
  main : S.main = true → S.check.isEntry S.check.current = true
  application : G.strict → S.lower.entry.isApplication = true
  bytes : G.strict → S.held .bytes
  definite : G.strict → f.body.isDefinite S.check (f.startState S.check.mode) = true

/-- The code of a function. -/
theorem Function.Lowerable.ends (h : f.Lowerable G S) (hgrants : S.Grants)
    (hR : Regime G s.builder.machine) :
    (f.lower S.main).Ends G.faults S.lower s fun _ s' => ∃ code, Defines S f code ∧
      s.builder.Grows s'.builder code (if S.main then 0 else 1) ∧
      ∀ {cap}, s'.peak ≤ cap → f.Enters (S.heights cap) S.main f.params.length code := by
  obtain ⟨cs', hsite⟩ := h.body
  refine f.lower_head_ends fun s₁ hhead => ?_
  refine .bind (.startFunction h.params rfl fun s₂ hstart htame hs₂ => ?_)
  have hbefore := hhead.trans hstart
  have hready : s₂.Ready G S f.params.reverse [] (f.startState S.check.mode) :=
    ⟨hs₂, hbefore.machine ▸ hR, h.application, h.bytes,
      fun _ n hn => htame n (mem_params_of_holdsAny hn)⟩
  refine .bind ((f.body.lower_runs hgrants (fun _ => h.main) _ hsite h.definite s₂ hready).mono
    fun ends s₃ ⟨code, hperforms, hp, hknows⟩ => ?_)
  -- The body, and what follows it if control gets there.
  have hend : ∀ (s' : LowerState) rest, s₃.builder.Grows s'.builder rest 0 →
      (∀ {cap}, s'.peak ≤ cap → Scannable (S.heights cap) (knownAfter ends f.params.length) rest
        none) → s.builder.Grows s'.builder (f.headCode S.main ++ code ++ rest)
          (if S.main then 0 else 1) ∧ ∀ {cap}, s'.peak ≤ cap → f.Enters (S.heights cap) S.main
            f.params.length (f.headCode S.main ++ code ++ rest) := by
    intro s' rest hrest hscans
    refine ⟨by simpa using (hbefore.trans hp.toGrows).trans hrest, fun hcap => ?_⟩
    have hbody := hp.scans (Nat.le_trans hrest.peak hcap)
    rw [List.length_reverse] at hbody
    rw [List.append_assoc]
    exact (hbody.append (hscans hcap)).enters S.main
  cases ends with
  | true => exact .pure ⟨_, .intro hperforms, hend s₃ [] .refl fun _ => .nil⟩
  | false =>
    have hs₃ := (hready.after hp.carries (hp.laid rfl)).mono hknows
    refine f.lowerEnd_ends hs₃ h.returns fun s' hp' =>
      ⟨_, .intro hperforms, hend s' _ hp'.toGrows fun hcap => ?_⟩
    have hscans := hp'.scans hcap
    rw [List.length_reverse] at hscans
    exact hscans

/-- The code of functions, one after the other. -/
theorem Function.lowerAll_ends {env : LowerEnv} {name : String} {T : Function → Setting}
    {fs : List Function} (h : ∀ f ∈ fs, f.Lowerable G (T f)) (hgrants : ∀ f, (T f).Grants)
    (henv : ∀ f, (T f).lower = env ∧ (T f).main = (f.name == name))
    (hR : Regime G s.builder.machine) :
    (Function.lowerAll name fs).Ends G.faults env s fun _ s' => ∃ codes,
      List.Forall₂ (fun f code => Defines (T f) f code ∧ ∀ {cap}, s'.peak ≤ cap →
        f.Enters ((T f).heights cap) (T f).main f.params.length code) fs codes ∧
      s.builder.Grows s'.builder codes.flatten (fs.countP fun f => f.name != name) := by
  induction fs generalizing s with
  | nil => exact ⟨[], .nil, .refl⟩
  | cons f fs ih =>
    obtain ⟨hf, hfs⟩ := List.forall_mem_cons.1 h
    obtain ⟨rfl, hmain⟩ := henv f
    have hlower := hf.ends (s := { s with site := f.name :: s.site }) (hgrants f) hR
    rw [hmain] at hlower
    refine .bind (.within (hlower.mono ?_))
    rintro _ s₁ ⟨code, hcode, hgrows, henters⟩
    refine (ih hfs (hgrows.machine ▸ hR)).mono ?_
    rintro _ s' ⟨codes, hcodes, hgrows'⟩
    refine ⟨code :: codes, .cons ⟨hcode, fun hcap => ?_⟩ hcodes, ?_⟩
    · rw [hmain]
      exact henters (Nat.le_trans hgrows'.peak hcap)
    · rw [List.countP_cons, Nat.add_comm, List.flatten_cons]
      have hcount : (if (f.name != name) = true then 1 else 0) =
          if (f.name == name) = true then 0 else 1 := by
        cases hname : f.name == name <;> simp [bne, hname]
      rw [hcount]
      exact hgrows.trans hgrows'

end Code


end ContractCompiler
