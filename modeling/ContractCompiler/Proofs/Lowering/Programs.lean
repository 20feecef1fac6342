import ContractCompiler.Compile
import ContractCompiler.Proofs.Lowering.Functions
import ContractCompiler.Proofs.Lowering.Labels
import ContractCompiler.Proofs.Syntax.ProgramProvenance

/-!
# The program of an entry

The program of an entry is the code of the functions that it needs, one after the other, with
labels in order. If there is none, the reason lies in the source.
-/

namespace ContractCompiler

open Builder (usedLabels definedLabels)
open Lower (Rigour Regime)

/-! ## Finishing -/

theorem firstRepeated?_eq_none {ns seen : List String} (h : Builder.firstRepeated? ns seen = none) :
    ns.Nodup ∧ ∀ n ∈ ns, n ∉ seen := by
  induction ns generalizing seen with
  | nil => exact ⟨List.nodup_nil, nofun⟩
  | cons n ns ih =>
    rw [Builder.firstRepeated?] at h
    split at h
    case isTrue => cases h
    case isFalse hn =>
      obtain ⟨hnodup, hseen⟩ := ih h
      refine ⟨List.nodup_cons.2 ⟨fun hmem => hseen n hmem List.mem_cons_self, hnodup⟩,
        List.forall_mem_cons.2 ⟨by simpa using hn, fun m hm hmem => ?_⟩⟩
      exact hseen m hm (List.mem_cons_of_mem _ hmem)

/-- A finished program has its labels in order, and keeps what was counted. -/
theorem finish_eq_ok {b : Builder} {entry : String} {asm : Assembly}
    (h : b.finish entry = .ok asm) :
    asm.code = b.code ∧ asm.entry = entry ∧ (definedLabels b.code).Nodup ∧
      usedLabels b.code ⊆ definedLabels b.code ∧ asm.version = b.version ∧
      asm.metrics = b.metrics := by
  cases hrep : Builder.firstRepeated? (definedLabels b.code) [] with
  | some n =>
    simp only [Builder.finish, hrep] at h
    cases h
  | none =>
    simp only [Builder.finish, hrep] at h
    split at h
    case h_1 => cases h
    case h_2 hfind =>
      cases h
      refine ⟨rfl, rfl, (firstRepeated?_eq_none hrep).1, fun l hl => ?_, rfl, rfl⟩
      simpa using List.find?_eq_none.1 hfind l hl

/-- Code that refers to its own labels only can at most define one twice. -/
theorem finish_eq_error {b : Builder} {entry : String} {fault : CodeFault}
    (h : b.finish entry = .error fault) (hused : usedLabels b.code ⊆ definedLabels b.code) :
    ∃ n, fault = .duplicateLabel n := by
  cases hrep : Builder.firstRepeated? (definedLabels b.code) [] with
  | some n =>
    simp only [Builder.finish, hrep] at h
    cases h
    exact ⟨n, rfl⟩
  | none =>
    simp only [Builder.finish, hrep] at h
    split at h
    case h_1 l hfind =>
      have hmem := hused (List.mem_of_find?_eq_some hfind)
      have hnot := List.find?_some hfind
      simp [hmem] at hnot
    case h_2 => cases h

/-- The context that the program of an entry is started in, with so many functions left out. -/
def LowerState.ofEntry (version : Nat) (entry : Entry) (pruned : Nat) : LowerState :=
  .start { Builder.new version (.single entry) with metrics := { Metrics.zero with pruned } }

/-- An entry with a program: its function is there, the functions that it needs could be lowered, and
the labels are in order. -/
theorem Program.generate_eq_ok {p : Program} {localType? : Nat → Option StackType} {version : Nat}
    {entry : Entry} {asm : Assembly} (h : p.generate localType? version entry = .ok asm) :
    ∃ main s, p.function? entry.functionName = some main ∧
      Function.lowerAll entry.functionName (p.reachable main) (.ofProgram p localType? entry)
        (.ofEntry version entry (p.functions.length - (p.reachable main).length)) = .ok () s ∧
      s.builder.finish entry.functionName = .ok asm := by
  unfold generate at h
  split at h
  case h_1 => cases h
  case h_2 main hmain =>
    dsimp only at h
    split at h
    case h_1 => cases h
    case h_2 s hrun =>
      cases hfinish : s.builder.finish entry.functionName with
      | error fault =>
        rw [hfinish] at h
        cases h
      | ok asm' =>
        rw [hfinish] at h
        cases h
        exact ⟨main, s, hmain, hrun, hfinish⟩

/-! ## The code of a program -/

section Code

variable {p : Program} {mode : Mode} {entry : Entry} {main : Function}
  {localType? : Nat → Option StackType} (d : Discipline localType?) {codes : List (List Instruction)}

/-- `codes` is the code of the functions that the entry needs, which starts at `main`, and the
labels of the whole are in order. -/
structure Program.Code (p : Program) (mode : Mode) (entry : Entry)
    {localType? : Nat → Option StackType} (d : Discipline localType?) (main : Function)
    (codes : List (List Instruction)) : Prop where
  found : p.function? entry.functionName = some main
  defines : List.Forall₂ (fun f code => Defines (p.setting mode entry d (p.reachable main) f) f code)
    (p.reachable main) codes
  nodup : (definedLabels codes.flatten).Nodup
  targets : usedLabels codes.flatten ⊆ definedLabels codes.flatten

theorem Defines.closed {S : Setting} {f : Function} {code : List Instruction}
    (h : Defines S f code) : Closed S.Outer code := by
  obtain ⟨hbody⟩ := h
  refine (Closed.append (.of_unused ?_) hbody.closed).append_unused ?_
  · unfold Function.headCode
    split <;> rfl
  · unfold Function.endCode
    split
    · rfl
    · split
      · rfl
      · split
        · rfl
        · simp [Instruction.target?]

/-- The label of every function but the entry is defined by its code. -/
theorem Defines.label {S : Setting} {f : Function} {code : List Instruction}
    (h : Defines S f code) (hmain : S.main = false) : f.name ∈ definedLabels code := by
  obtain ⟨-⟩ := h
  simp [Function.headCode, hmain, Instruction.label?]

theorem mem_definedLabels_flatten {code : List Instruction} (hcode : code ∈ codes) :
    definedLabels code ⊆ definedLabels codes.flatten := by
  intro l hl
  obtain ⟨i, hi, hlabel⟩ := List.mem_filterMap.1 hl
  exact List.mem_filterMap.2 ⟨i, List.mem_flatten.2 ⟨code, hcode, hi⟩, hlabel⟩

/-- Every function whose code is there defines its label, unless it is the entry. -/
theorem Program.mem_definedLabels {fs gs : List Function}
    (h : List.Forall₂ (fun f code => Defines (p.setting mode entry d fs f) f code) gs codes)
    {f : Function} (hf : f ∈ gs) (hne : f.name ≠ entry.functionName) :
    f.name ∈ definedLabels codes.flatten := by
  obtain ⟨code, hcode, hdefines⟩ := exists_right_of_forall₂ h hf
  exact mem_definedLabels_flatten hcode (hdefines.label (beq_eq_false_iff_ne.2 hne))

/-- The functions that are reached call none but each other. -/
theorem Program.targets_subset {fs : List Function} (hentry : entry ∈ mode.entries)
    (h : List.Forall₂ (fun f code => Defines (p.setting mode entry d fs f) f code) fs codes) :
    usedLabels codes.flatten ⊆ definedLabels codes.flatten := by
  intro l hl
  obtain ⟨i, hi, htarget⟩ := List.mem_filterMap.1 hl
  obtain ⟨code, hcode, hi⟩ := List.mem_flatten.1 hi
  obtain ⟨f, -, hdefines⟩ := exists_left_of_forall₂ h hcode
  -- A label is the code's own, or that of a function which is no entry.
  rcases hdefines.closed l (List.mem_filterMap.2 ⟨i, hi, htarget⟩) with
    hown | ⟨⟨g, hg, rfl⟩, hnot⟩
  · exact mem_definedLabels_flatten hcode hown
  · refine mem_definedLabels d h hg fun hname => ?_
    rw [hname] at hnot
    have hmem : entry.functionName ∈ mode.entryPoints := List.mem_map_of_mem hentry
    exact Bool.false_ne_true (hnot.symm.trans (List.contains_iff_mem.2 hmem))

/-- What was counted while the code of the functions was built, and how deep their frames get. -/
structure Program.Counted (p : Program) (mode : Mode) (entry : Entry)
    {localType? : Nat → Option StackType} (d : Discipline localType?) (main : Function)
    (codes : List (List Instruction)) (version : Nat) (asm : Assembly) : Prop where
  grows : ∃ b, asm.version = b.version ∧ asm.metrics = b.metrics ∧
    (LowerState.ofEntry version entry
      (p.functions.length - (p.reachable main).length)).builder.Grows b codes.flatten ((p.reachable main).countP fun f => f.name != entry.functionName)
  enters : List.Forall₂ (fun f code =>
    f.Enters ((p.setting mode entry d (p.reachable main) f).heights asm.metrics.peakDepth)
      (f.name == entry.functionName) f.params.length code) (p.reachable main) codes

variable {d}

/-- The two ways in which the generation of a program can end. -/
theorem Program.Abides.generate {G : Rigour} (version : Nat) (hp : p.Abides d mode)
    (hentry : entry ∈ mode.entries) (hgrants : ∀ fs f, (p.setting mode entry d fs f).Grants)
    (hR : Regime G (version, .single entry)) (hlabels : ∀ n, G.faults (.duplicateLabel n))
    (happ : G.strict → entry.isApplication = true) (hbytes : G.strict → d.held .bytes)
    (hdef : G.strict → ∀ main ∈ p.function? entry.functionName, ∀ f ∈ p.reachable main,
      f.IsDefinite p mode) :
    match p.generate localType? version entry with
    | .error e => ∃ fault site, e = .code fault site ∧ G.faults fault
    | .ok asm => ∃ main codes, p.Code mode entry d main codes ∧ asm.code = codes.flatten ∧
        asm.entry = entry.functionName ∧ p.Counted mode entry d main codes version asm := by
  obtain ⟨main, hmain, -⟩ := hp.accepted.entry entry hentry
  have hname := name_of_function? hmain
  have hreached := reachable_reached (p := p) (by rw [hname]; exact hmain)
  have hlowerable : ∀ f ∈ p.reachable main,
      f.Lowerable G (p.setting mode entry d (p.reachable main) f) := fun f hf =>
    { params := hp.accepted.params f (hreached.mem hf)
      body := hp.sited d hreached hname hf
      returns := rfl
      main := fun hmain => by
        show (p.checkEnv mode f).isEntry f.name = true
        rw [show f.name = entry.functionName from beq_iff_eq.1 hmain]
        exact List.contains_iff_mem.2 (List.mem_map_of_mem hentry)
      application := happ
      bytes := hbytes
      definite := fun hstrict => hdef hstrict main hmain f hf }
  simp only [Program.generate, hmain]
  generalize hstart : LowerState.start _ = start
  obtain rfl : start = .ofEntry version entry (p.functions.length - (p.reachable main).length) :=
    hstart.symm
  have hrun : Lower.Ends G.faults _ (.ofProgram p localType? entry)
      (.ofEntry version entry (p.functions.length - (p.reachable main).length)) _ :=
    Function.lowerAll_ends hlowerable (hgrants _) (fun _ => ⟨rfl, rfl⟩) hR
  unfold Lower.Ends at hrun
  cases hlower : Function.lowerAll entry.functionName (p.reachable main)
      (.ofProgram p localType? entry)
      (.ofEntry version entry (p.functions.length - (p.reachable main).length)) with
  | error e s =>
    rw [hlower] at hrun
    obtain ⟨fault, rfl, hfault⟩ := hrun
    exact ⟨fault, s.failedAt, rfl, hfault⟩
  | ok _ s =>
    rw [hlower] at hrun
    obtain ⟨codes, hcodes, hgrows⟩ := hrun
    have hdefines := hcodes.imp fun _ _ h => h.1
    have hcode : s.builder.code = codes.flatten := by
      rw [Builder.code, hgrows.emitted, List.reverse_append, List.reverse_reverse]
      rfl
    have htargets := targets_subset d hentry hdefines
    rw [← hcode] at htargets
    dsimp only
    cases hfinish : s.builder.finish entry.functionName with
    | error fault =>
      obtain ⟨n, rfl⟩ := finish_eq_error hfinish htargets
      exact ⟨.duplicateLabel n, none, rfl, hlabels n⟩
    | ok asm =>
      obtain ⟨hasm, hname, hnodup, hused, hversion, hmetrics⟩ := finish_eq_ok hfinish
      rw [hcode] at hnodup hused hasm
      refine ⟨main, codes, ⟨hmain, hdefines, hnodup, hused⟩, hasm, hname,
        ⟨s.builder, hversion, hmetrics, hgrows⟩, hcodes.imp fun _ _ h => h.2 ?_⟩
      rw [hmetrics]
      exact Nat.le_refl _

/-- The program of an entry is the code of the functions that it needs. -/
theorem Program.Abides.generate_ok {version : Nat} {asm : Assembly} (hp : p.Abides d mode)
    (hentry : entry ∈ mode.entries) (hgrants : ∀ fs f, (p.setting mode entry d fs f).Grants)
    (h : p.generate localType? version entry = .ok asm) :
    ∃ main codes, p.Code mode entry d main codes ∧ asm.code = codes.flatten ∧
      asm.entry = entry.functionName ∧ p.Counted mode entry d main codes version asm := by
  have hcases := hp.generate (G := .lenient) version hentry hgrants
    Regime.lenient_holds (fun _ => rfl) nofun nofun nofun
  rw [h] at hcases
  exact hcases

end Code

/-! ## Sources -/

/-- The cases of a program that was read from a text have values. -/
theorem Source.hasCaseValues {text : List Char} {p : Program} (h : Source.program text = .ok p) :
    p.HasCaseValues := by
  intro f hf c hc
  have hbody : Node.block f.body ∈ (Node.function f).children := List.mem_cons_self
  have hfunction : Node.function f ∈ (Node.program p).children := List.mem_map_of_mem hf
  exact (Source.program_eq_ok h).2 c
    (Node.found_subset _ hfunction (Node.found_subset _ hbody hc))

section Sources

variable {source text : List Char} {p : Program} {mode : Mode} {a : Analysis} {entry : Entry}
  {version : Nat} {asm : Assembly}

/-- An accepted source, where values of all types are held. -/
theorem Program.abides (hp : Source.program source = .ok p) (ha : p.check mode text = .ok a)
    {d : Discipline a.localType?} (hbytes : d.held .bytes) : p.Abides d mode where
  accepted := accepted_of_checkRules (check_eq_ok ha).2
  cases := Source.hasCaseValues hp
  suits := fun _ _ => .inl hbytes
  noted := fun _ _ hf _ hcheck => localType?_body (Source.program_eq_ok hp).1 ha hf hcheck

/-- The program of an entry of an accepted source. -/
theorem Program.generate_ok (hp : Source.program source = .ok p) (ha : p.check mode text = .ok a)
    (hentry : entry ∈ mode.entries) (h : p.generate a.localType? version entry = .ok asm) :
    ∃ main codes, p.Code mode entry (.free a.localType?) main codes ∧ asm.code = codes.flatten ∧
      asm.entry = entry.functionName ∧
      p.Counted mode entry (.free a.localType?) main codes version asm :=
  (abides hp ha trivial).generate_ok hentry (fun _ _ _ _ => trivial) h

/-- The values of no type are excluded, and `P` is asked of occurrences. -/
def Discipline.asking (localType? : Nat → Option StackType) (P : Occurrence → Prop) :
    Discipline localType? :=
  { Discipline.free localType? with allowed := P }

/-- What holds of all sound occurrences may be asked of the program of an entry. -/
theorem Program.generate_asking {P : Occurrence → Prop} (hp : Source.program source = .ok p)
    (ha : p.check mode text = .ok a) (hentry : entry ∈ mode.entries)
    (hP : ∀ fs f o, Occurrence.Sound (p.setting mode entry (.asking a.localType? P) fs f) o → P o)
    (h : p.generate a.localType? version entry = .ok asm) :
    ∃ main codes, p.Code mode entry (.asking a.localType? P) main codes ∧
      asm.code = codes.flatten ∧ asm.entry = entry.functionName := by
  obtain ⟨main, codes, hcode, hasm, hname, -⟩ :=
    (abides hp ha trivial).generate_ok hentry hP h
  exact ⟨main, codes, hcode, hasm, hname⟩

/-- If there is no program for an entry of an accepted source, the fault is none that tells of a
mistake in the generator. -/
theorem Program.generate_fault_not_internal {source text : List Char} {p : Program} {mode : Mode}
    {a : Analysis} {entry : Entry} {version : Nat} {e : Diagnostic}
    (hp : Source.program source = .ok p) (ha : p.check mode text = .ok a)
    (hentry : entry ∈ mode.entries) (h : p.generate a.localType? version entry = .error e) :
    ∃ fault site, e = .code fault site ∧ fault.isInternal = false := by
  have hfree : p.Abides (.free a.localType?) mode := abides hp ha trivial
  have hcases := hfree.generate (G := .lenient) version hentry
    (fun _ _ _ _ => trivial) Regime.lenient_holds (fun _ => rfl) nofun nofun nofun
  rw [h] at hcases
  exact hcases

end Sources

/-- A source whose code needs calls, in a version of the machine that has none. -/
theorem Program.generate_fault_not_internal_callsub :
    ∃ p a e, Source.program "def f(x) { while (x > 1) { x = x - 1; } return x; }
        def Signature() { return f(3); }".toList = .ok p ∧
      p.check (.single .signature) [] = .ok a ∧ Entry.signature ∈ (Mode.single .signature).entries ∧
      p.generate a.localType? 3 .signature = .error e ∧
      ∃ fault site, e = .code fault site ∧ fault.isInternal = false := by
  have hrun : (do
      let p ← Source.program "def f(x) { while (x > 1) { x = x - 1; } return x; }
        def Signature() { return f(3); }".toList
      let a ← p.check (.single .signature) []
      return match p.generate a.localType? 3 .signature with
        | .error _ => true
        | .ok _ => false) = Except.ok true := by
    rw [String.toList_ofList]
    decide +kernel
  obtain ⟨p, hp, hrun⟩ := ok_of_bind hrun
  obtain ⟨a, ha, hrun⟩ := ok_of_bind hrun
  cases h : p.generate a.localType? 3 .signature with
  | ok asm =>
    rw [h] at hrun
    cases hrun
  | error e =>
    have hentry : Entry.signature ∈ (Mode.single .signature).entries := by decide
    exact ⟨p, a, e, hp, ha, hentry, h, generate_fault_not_internal hp ha hentry h⟩

end ContractCompiler
