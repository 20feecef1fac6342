import ContractCompiler.Proofs.Lowering.Programs

/-!
# Depths of emitted code

The code of an expression leaves its value on top of the frame, and the code of a statement leaves
the frame as it was, along every way that control can take. So the depths of every program that is
emitted are in order.
-/

namespace ContractCompiler

open Builder (definedLabels)

section Programs

variable {σ : Type} {D : Domain σ} {p : Program} {mode : Mode} {entry : Entry}
  {main f : Function} {localType? : Nat → Option StackType} {d : Discipline localType?}
  {start : Function → σ} {codes : List (List Instruction)}

/-- The functions after the entry, one after the other. -/
theorem Function.scans_rest {fs : List Function} (hfs : ∀ f ∈ fs, f.name ≠ entry.functionName)
    (h : List.Forall₂ (fun f code => f.Enters D (f.name == entry.functionName) (start f) code)
      fs codes) :
    ∃ T, T.map Prod.fst = definedLabels codes.flatten ∧
      (∀ f ∈ fs, (f.name, some (start f)) ∈ T) ∧ Scans D T none codes.flatten none := by
  induction h with
  | nil => exact ⟨[], rfl, nofun, .nil⟩
  | @cons f code fs codes hcode _ ih =>
    obtain ⟨hf, hfs⟩ := List.forall_mem_cons.1 hfs
    obtain ⟨T', hT', hmem', hscans'⟩ := ih hfs
    rw [beq_eq_false_iff_ne.2 hf] at hcode
    obtain ⟨T, hT, hmem, hscans⟩ := hcode
    refine ⟨T ++ T', by simp [hT, hT'], List.forall_mem_cons.2 ⟨?_, fun g hg => ?_⟩, ?_⟩
    · exact List.mem_append_left _ (hmem rfl)
    · exact List.mem_append_right _ (hmem' g hg)
    · exact (hscans.mono (List.subset_append_left _ _)).append
        (hscans'.mono (List.subset_append_right _ _))

/-- The entry comes first among the functions that it needs. -/
theorem Program.Code.reachable_eq
    (h : p.Code mode entry d main codes) :
    ∃ fs, p.reachable main = main :: fs ∧ ∀ f ∈ fs, f.name ≠ main.name := by
  have hfound : p.function? main.name = some main := by
    rw [name_of_function? h.found]
    exact h.found
  have hreached := reachable_reached hfound
  have hhead := hreached.head
  have hnodup := hreached.nodup
  cases hlist : p.reachable main with
  | nil =>
    rw [hlist] at hhead
    cases hhead
  | cons f fs =>
    rw [hlist] at hhead hnodup
    cases hhead
    refine ⟨fs, rfl, fun f hf heq => ?_⟩
    exact (List.nodup_cons.1 hnodup).1 (heq ▸ List.mem_map_of_mem hf)

/-- A program can be gone through from its top, if its functions can. -/
theorem Program.Code.scans (h : p.Code mode entry d main codes)
    (henters : List.Forall₂ (fun f code => f.Enters D (f.name == entry.functionName) (start f) code)
      (p.reachable main) codes) :
    ∃ T, T.map Prod.fst = definedLabels codes.flatten ∧
      (∀ f ∈ p.reachable main, f.name ≠ main.name → (f.name, some (start f)) ∈ T) ∧
      Scans D T (some (start main)) codes.flatten none := by
  have hname := name_of_function? h.found
  obtain ⟨fs, hfs, hne⟩ := h.reachable_eq
  rw [hname] at hne
  rw [hfs] at henters
  obtain ⟨code, codes, hcode, hcodes, rfl⟩ := List.forall₂_cons_left_iff.1 henters
  rw [beq_iff_eq.2 hname] at hcode
  obtain ⟨T, hT, -, hscans⟩ := hcode
  obtain ⟨T', hT', hmem, hscans'⟩ := Function.scans_rest hne hcodes
  refine ⟨T ++ T', by simp [hT, hT'], fun f hf hother => ?_, ?_⟩
  · rw [hfs] at hf
    rcases List.mem_cons.1 hf with rfl | hf
    · exact absurd rfl hother
    · exact List.mem_append_right _ (hmem f hf)
  · exact (hscans.mono (List.subset_append_left _ _)).append
      (hscans'.mono (List.subset_append_right _ _))

/-- A depth is one in the frame of a certain function. -/
theorem Function.Enters.places {fs : List Function} {cap : Nat} {code : List Instruction}
    (hmain : main.name = entry.functionName)
    (h : f.Enters ((p.setting mode entry d fs f).heights cap) (f.name == entry.functionName)
      f.params.length code) :
    f.Enters (.places p.signatures main cap) (f.name == entry.functionName) ⟨f, f.params.length⟩
      code := by
  obtain ⟨T, hT, hmem, hscans⟩ := h
  have hleads : ∀ {i depth next}, ((p.setting mode entry d fs f).heights cap).leads i depth next →
      (Domain.places p.signatures main cap).leads i ⟨f, depth⟩ ⟨f, next⟩ := by
    rintro i depth next ⟨takes, leaves, heffect, henough, hnext, hcap, hback⟩
    refine ⟨rfl, takes, leaves, heffect, henough, hnext, hcap, fun operands hi => ?_⟩
    obtain ⟨hnot, hdepth⟩ := hback operands hi
    refine ⟨?_, hdepth⟩
    rintro rfl
    exact absurd hmain (beq_eq_false_iff_ne.1 hnot)
  have hplaces := hscans.map (Place.mk f) hleads (congrArg _)
  refine ⟨T.map fun known => (known.1, known.2.map (Place.mk f)), ?_, fun hnot => ?_, ?_⟩
  · rw [← hT, List.map_map]
    rfl
  · exact List.mem_map.2 ⟨_, hmem hnot, rfl⟩
  · cases hname : f.name == entry.functionName <;> rw [hname] at hplaces <;> exact hplaces

/-- The depths of a program are in order, and no frame gets above the greatest depth. -/
theorem Program.Code.depthsAgree {version : Nat} {asm : Assembly} (hp : p.Accepted mode)
    (hentry : entry ∈ mode.entries) (h : p.Code mode entry d main codes)
    (hcounted : p.Counted mode entry d main codes version asm) :
    DepthsAgree p main codes.flatten ∧ Capped p main codes.flatten asm.metrics.peakDepth := by
  obtain ⟨main', hmain', hparams⟩ := hp.entry entry hentry
  cases h.found.symm.trans hmain'
  have henters : List.Forall₂ (fun f code =>
      f.Enters (.places p.signatures main asm.metrics.peakDepth) (f.name == entry.functionName)
        (Place.mk f f.params.length) code) (p.reachable main) codes :=
    hcounted.enters.imp fun _ _ => .places (name_of_function? h.found)
  obtain ⟨T, hT, hmem, hscans⟩ := h.scans henters
  rw [hparams] at hscans
  exact hscans.depthsAgree hT h.nodup hmem

end Programs

theorem Program.generateList_eq_ok {p : Program} {localType? : Nat → Option StackType}
    {version : Nat} {entries : List Entry} {asms : List Assembly}
    (h : p.generateList localType? version entries = .ok asms) :
    List.Forall₂ (fun entry asm => p.generate localType? version entry = .ok asm) entries asms := by
  induction entries generalizing asms with
  | nil =>
    cases h
    exact .nil
  | cons entry entries ih =>
    obtain ⟨asm, hasm, h⟩ := ok_of_bind h
    obtain ⟨asms', hasms, h⟩ := ok_of_bind h
    cases h
    exact .cons hasm (ih hasms)

/-- A source that was compiled: the text it was read from, what was learned from it, and its
programs, one for each entry. -/
theorem compileAll_eq_ok {text : List Char} {o : Options} {asms : List Assembly}
    (h : compileAll text o = .ok asms) :
    ∃ source p a, (if o.expand then Source.expand text else pure text) = .ok source ∧
      Source.program source = .ok p ∧ p.check o.mode source = .ok a ∧
      List.Forall₂ (fun entry asm => p.generate a.localType? o.version entry = .ok asm)
        o.mode.entries asms := by
  obtain ⟨_, _, h⟩ := ok_of_bind h
  have hsource : ∃ source, (if o.expand then Source.expand text else pure text) = .ok source ∧
      (do
        let p ← Source.program source
        let a ← p.check o.mode source
        p.generateAll a.localType? o.version o.mode) = Except.ok asms := by
    dsimp only at h
    split at h
    case isTrue hexpand =>
      rw [if_pos hexpand]
      exact ok_of_bind h
    case isFalse hexpand =>
      rw [if_neg hexpand]
      exact ⟨text, rfl, h⟩
  obtain ⟨source, hsource, h⟩ := hsource
  obtain ⟨p, hp, h⟩ := ok_of_bind h
  obtain ⟨a, ha, h⟩ := ok_of_bind h
  exact ⟨source, p, a, hsource, hp, ha, Program.generateList_eq_ok h⟩

/-- The depths of every program of a source that was compiled are in order. -/
theorem compileAll_depthsAgree {text : List Char} {o : Options} {asms : List Assembly}
    (h : compileAll text o = .ok asms) :
    ∃ source p, (if o.expand then Source.expand text else pure text) = .ok source ∧
      Source.program source = .ok p ∧ asms.length = o.mode.entries.length ∧
      ∀ asm ∈ asms, ∃ main, p.function? asm.entry = some main ∧ DepthsAgree p main asm.code := by
  obtain ⟨source, p, a, hsource, hp, ha, hasms⟩ := compileAll_eq_ok h
  have haccepted := Program.accepted_of_checkRules (Program.check_eq_ok ha).2
  refine ⟨source, p, hsource, hp, hasms.length_eq.symm, fun asm hasm => ?_⟩
  obtain ⟨entry, hentry, hgenerate⟩ := exists_left_of_forall₂ hasms hasm
  obtain ⟨main, codes, hcode, hasm, hname, hcounted⟩ := Program.generate_ok hp ha hentry hgenerate
  refine ⟨main, ?_, ?_⟩
  · rw [hname]
    exact hcode.found
  · rw [hasm]
    exact (hcode.depthsAgree haccepted hentry hcounted).1

/-- A source with a call, a loop that may be left early, and a choice. -/
theorem compileAll_depthsAgree_loop :
    ∃ asms, compileAll "def f(x, y) { do { if (x > y) return x; x = x + 1; } while (x < 9);
          return x > 3 ? y : x; }
        def Signature() { z = f(1, 2); return z * f(z, 3); }".toList
        (.ofMode (.single .signature)) = .ok asms ∧ asms.length = 1 ∧
      ∀ asm ∈ asms, ∃ p main, p.function? asm.entry = some main ∧ DepthsAgree p main asm.code := by
  have hrun : (do
      let asms ← compileAll "def f(x, y) { do { if (x > y) return x; x = x + 1; } while (x < 9);
          return x > 3 ? y : x; }
        def Signature() { z = f(1, 2); return z * f(z, 3); }".toList
        (.ofMode (.single .signature))
      return asms.length) = Except.ok 1 := by
    rw [String.toList_ofList]
    decide +kernel
  obtain ⟨asms, hasms, hrun⟩ := ok_of_bind hrun
  obtain ⟨_, p, -, -, -, hall⟩ := compileAll_depthsAgree hasms
  refine ⟨asms, hasms, Except.ok.inj hrun, fun asm hasm => ?_⟩
  obtain ⟨main, hmain, hagree⟩ := hall asm hasm
  exact ⟨p, main, hmain, hagree⟩

end ContractCompiler
