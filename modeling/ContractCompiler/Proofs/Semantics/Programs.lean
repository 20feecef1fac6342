import ContractCompiler.Proofs.Lowering.Programs
import ContractCompiler.Proofs.Semantics.Statements
import ContractCompiler.Proofs.Typing.IntegerTypes

/-!
# Programs and their code end alike

The code of a program of the integer fragment ends just like the program: with the same outcome
and the same messages, or not at all. Functions are linked by induction on the depth of calls.
-/

namespace ContractCompiler

open Builder (definedLabels)

/-! ## What functions are lowered with -/

/-- No value is known to be a byte string. -/
def Discipline.integral {localType? : Nat → Option StackType}
    (h : ∀ offset, localType? offset ≠ some .bytes) : Discipline localType? where
  held := (· ≠ .bytes)
  held_uint64 := StackType.noConfusion
  held_any := StackType.noConfusion
  held_local := by
    rintro offset k hk rfl
    exact h offset hk
  allowed := fun _ => True

variable {p : Program} {mode : Mode} {entry : Entry} {localType? : Nat → Option StackType}

/-- What a function of the fragment may read without a slot is a truth value. -/
theorem Function.truthOf_of_readable {f : Function} (hentry : entry ∈ mode.entries) {n : String}
    (hn : n ∉ f.params) (hread : f.readable mode n = true)
    (h : (Lower.enumValue? entry n).isSome ∨ (transactionCode? n).isSome) :
    n = "true" ∨ n = "false" := by
  have hroot := Builtin.root_isSome hentry h
  simp only [readable, Bool.or_eq_true, beq_iff_eq, List.contains_iff_mem, Option.isNone_iff_eq_none]
    at hread
  rcases hread with ((hparam | rfl) | rfl) | hnone
  · exact absurd hparam hn
  · exact .inl rfl
  · exact .inr rfl
  · rw [hnone] at hroot
    cases hroot

/-- What a function of the fragment may read. -/
theorem Function.reads (hentry : entry ∈ mode.entries)
    (hlocal : ∀ offset, localType? offset ≠ some .bytes) (reached : List Function) (f : Function) :
    (p.setting mode entry (.integral hlocal) reached f).Reads f.params (f.readable mode) where
  held := fun _ hk => hk
  constant := by
    intro n v hn hread hv
    by_cases htrue : n = "true"
    · subst htrue
      exact hv
    by_cases hfalse : n = "false"
    · subst hfalse
      exact hv
    rw [Lower.constant?, if_neg htrue, if_neg hfalse] at hv
    obtain ⟨w, hw, -⟩ := Option.map_eq_some_iff.1 hv
    have hsome : (Lower.enumValue? entry n).isSome := Option.isSome_iff_exists.2 ⟨w, hw⟩
    rcases truthOf_of_readable hentry hn hread (.inl hsome) with htrue' | hfalse'
    · exact absurd htrue' htrue
    · exact absurd hfalse' hfalse
  notType := by
    intro n hn hread
    cases hcode : transactionCode? n with
    | none => rfl
    | some c =>
      have hsome : (transactionCode? n).isSome := Option.isSome_iff_exists.2 ⟨c, hcode⟩
      rcases truthOf_of_readable hentry hn hread (.inr hsome) with rfl | rfl <;> cases hcode

/-! ## Functions -/

section Functions

variable {S : Setting} {f : Function} {code whole : List Instruction} {env : EvalEnv}
  {readable : String → Bool} {pos : Nat} {args : List UInt64}

/-- The code of a function does what its body means; control may get to the code at its end. -/
theorem Defines.follows (h : Defines S f code) (hreads : S.Reads f.params readable)
    (hlinked : S.Linked whole env) (hparams : f.params.Nodup)
    (hint : f.body.isIntegral readable = true) (hpos : Stands whole pos code)
    (hargs : args.length = f.params.length) (b : Below) (hframes : S.main = false → b.frames ≠ []) :
    (b.machine (pos + (f.headCode S.main).length) [] args.reverse).Follows whole env.bound
      (f.body.eval env (.ofArguments f.params args)) fun r m =>
        (∃ v, r.1 = .leave v ∧ S.Leaves whole b v m) ∨
          r.1 = .next ∧ ∃ place values, values.length = f.params.length ∧
            Stands whole place (f.endCode S.main) ∧ m = b.machine place [] values := by
  obtain ⟨hbody⟩ := h
  rename_i body ends
  obtain ⟨hpos, hend⟩ := stands_append.1 hpos
  obtain ⟨-, hpos⟩ := stands_append.1 hpos
  have hlaid := Store.laid_ofArguments hparams hargs
  have hparams : f.params ⊆ f.params.reverse := fun n hn => List.mem_reverse.2 hn
  have hdoes : Does S whole env.bound f.params.reverse body ends (f.body.eval env) :=
    hbody.simulated hreads hlinked hparams hint
  refine (hdoes b _ _ _ hframes hpos hlaid).imp ?_
  rintro r m (hleave | ⟨temps, values, ⟨hnext, rfl, rfl, hlaid'⟩, rfl⟩)
  · exact .inl hleave
  · refine .inr ⟨hnext, _, values, ?_, ?_, rfl⟩
    · rw [hlaid'.length, List.length_reverse]
    · rw [if_neg Bool.false_ne_true, add_length_append] at hend
      exact hend

/-- The label of a function that is no entry stands behind a comment. -/
theorem Defines.getElem?_label (h : Defines S f code) (hmain : S.main = false)
    (hpos : Stands whole pos code) : whole[pos + 1]? = some (.label f.name) := by
  obtain ⟨-⟩ := h
  rw [Function.headCode, hmain, if_neg Bool.false_ne_true, List.append_assoc] at hpos
  exact (stands_cons.1 (stands_cons.1 hpos).2).1

/-- A call of a function does what the function means. -/
theorem Defines.follows_call (h : Defines S f code) (hmain : S.main = false)
    (hreturns : S.check.currentReturns = f.returnsValue)
    (hreads : S.Reads f.params readable) (hlinked : S.Linked whole env)
    (hparams : f.params.Nodup) (hint : f.body.isIntegral readable = true)
    (hpos : Stands whole pos code) (hargs : args.length = f.params.length) (b : Below) (back : Nat) :
    Machine.Follows whole (env.bound + 1)
      ⟨pos + 1, args.reverse.map .uint ++ b.stack, back :: b.frames, []⟩ (f.eval env args)
      fun v m => v.isSome = f.returnsValue ∧
        m = ⟨back, v.toList.map .uint ++ b.stack, b.frames, []⟩ := by
  have hfollows := h.follows hreads hlinked hparams hint hpos hargs ⟨b.stack, back :: b.frames⟩
    fun _ => List.cons_ne_nil _ _
  have hhead : (f.headCode S.main).length = 2 := by
    rw [Function.headCode, hmain]
    rfl
  have hreturned : ∀ {v m}, S.Leaves whole ⟨b.stack, back :: b.frames⟩ v m →
      v.isSome = f.returnsValue ∧ m = ⟨back, v.toList.map .uint ++ b.stack, b.frames, []⟩ := by
    intro v m hleave
    rw [Setting.Leaves, hmain, if_neg Bool.false_ne_true] at hleave
    obtain ⟨hsome, _, _, hback, rfl⟩ := hleave
    cases hback
    exact ⟨hsome.trans hreturns, rfl⟩
  rw [hhead] at hfollows
  refine .after (.step (Machine.step_label (h.getElem?_label hmain hpos)) .refl) ?_
  refine hfollows.bind ?_
  rintro ⟨flow, σ⟩ m (⟨v, rfl, hleave⟩ | ⟨rfl, place, values, hvalues, hend, rfl⟩)
  · exact .done (hreturned hleave)
  · -- Control has got to the end of the body.
    rw [Function.endCode, hmain, if_neg Bool.false_ne_true] at hend
    dsimp only
    split
    case isTrue hvalue =>
      rw [if_pos hvalue] at hend
      exact .ended (run_of_done (Machine.step_op (stands_cons.1 hend).1 rfl))
    case isFalse hvalue =>
      rw [if_neg hvalue, ← hvalues] at hend
      rw [Bool.not_eq_true] at hvalue
      obtain ⟨k, m, hsteps, hleave⟩ :=
        Below.follows_retNone (b := ⟨b.stack, back :: b.frames⟩) hmain (hreturns.trans hvalue)
          (List.cons_ne_nil _ _) hend
      exact .steps hsteps (.done (hreturned hleave))

end Functions

/-! ## Cases -/

section Cases

variable {readable : String → Bool}

mutual

/-- The cases in a statement of the fragment have values. -/
theorem Stmt.values_ne_nil : ∀ s : Stmt, s.isIntegral readable = true →
    ∀ c ∈ (Node.stmt s).found Node.case?, c.values ≠ []
  | .ifElse c t none span, h => by
    rw [Stmt.isIntegral, Bool.and_eq_true] at h
    have hthen := t.values_ne_nil h.2
    rw [Node.found_eq]
    simpa [Node.case?, Node.children, Node.ofStmt, Expr.found_case] using hthen
  | .ifElse c t (some e) span, h => by
    rw [Stmt.isIntegral, Bool.and_eq_true, Bool.and_eq_true] at h
    have hboth := And.intro (t.values_ne_nil h.1.2) (e.values_ne_nil h.2)
    rw [Node.found_eq]
    simpa [Node.case?, Node.children, Node.ofStmt, Expr.found_case, or_imp, forall_and] using hboth
  | .whileDo c b span, h => by
    rw [Stmt.isIntegral, Bool.and_eq_true] at h
    have hbody := b.values_ne_nil h.2
    rw [Node.found_eq]
    simpa [Node.case?, Node.children, Node.ofStmt, Expr.found_case] using hbody
  | .doWhile b c span, h => by
    rw [Stmt.isIntegral, Bool.and_eq_true] at h
    have hbody := b.values_ne_nil h.1
    rw [Node.found_eq]
    simpa [Node.case?, Node.children, Node.ofStmt, Expr.found_case] using hbody
  | .switch t cases none span, h => by
    simp only [Stmt.isIntegral, Bool.and_eq_true] at h
    have hcases := Case.values_ne_nil cases h.2
    rw [Node.found_eq]
    simpa [Node.case?, Node.children, Node.ofStmt, Expr.found_case, List.flatMap_map] using hcases
  | .switch t cases (some d) span, h => by
    simp only [Stmt.isIntegral, Bool.and_eq_true] at h
    have hboth := And.intro (Case.values_ne_nil cases h.1.2) (d.values_ne_nil h.2)
    rw [Node.found_eq]
    simpa [Node.case?, Node.children, Node.ofStmt, Expr.found_case, List.flatMap_map, or_imp,
      forall_and] using hboth
  | .leave kind none span, _ => by
    rw [Node.found_eq]
    simp [Node.case?, Node.children, Node.ofStmt]
  | .leave kind (some e) span, _ => by
    rw [Node.found_eq]
    simp [Node.case?, Node.children, Node.ofStmt, Expr.found_case]
  | .expr e, _ => by
    rw [Node.found_eq]
    simp [Node.case?, Node.children, Node.ofStmt, Expr.found_case]

theorem Stmt.values_ne_nil_list : ∀ ss : List Stmt, Stmt.areIntegral readable ss = true →
    ∀ c ∈ ss.flatMap fun s => (Node.stmt s).found Node.case?, c.values ≠ []
  | [], _ => nofun
  | s :: ss, h => by
    rw [Stmt.areIntegral, Bool.and_eq_true] at h
    rw [List.flatMap_cons, List.forall_mem_append]
    exact ⟨s.values_ne_nil h.1, Stmt.values_ne_nil_list ss h.2⟩

theorem Block.values_ne_nil : ∀ b : Block, b.isIntegral readable = true →
    ∀ c ∈ (Node.block b).found Node.case?, c.values ≠ []
  | ⟨ss, span⟩, h => by
    rw [Block.isIntegral] at h
    have hss := Stmt.values_ne_nil_list ss h
    rw [Node.found_eq]
    simpa [Node.case?, Node.children, List.flatMap_map] using hss

theorem Case.values_ne_nil : ∀ cs : List Case, Case.areIntegral readable cs = true →
    ∀ c ∈ cs.flatMap fun c => (Node.case c).found Node.case?, c.values ≠ []
  | [], _ => nofun
  | ⟨values, block, span⟩ :: cs, h => by
    simp only [Case.areIntegral, Bool.and_eq_true] at h
    have hvalues : values ≠ [] := by simpa using h.1.1.1
    have hblock := block.values_ne_nil h.1.2
    rw [List.flatMap_cons, List.forall_mem_append]
    refine ⟨?_, Case.values_ne_nil cs h.2⟩
    rw [Node.found_eq]
    simpa [Node.case?, Node.children, List.flatMap_map, Expr.found_case, hvalues] using hblock

end

theorem Program.hasCaseValues_of_isIntegral (h : p.isIntegral mode = true) : p.HasCaseValues :=
  fun f hf => f.body.values_ne_nil (List.all_eq_true.1 h f hf)

end Cases

/-! ## Programs -/

section Programs

variable {main : Function} {codes : List (List Instruction)}

theorem stands_flatten {codes : List (List Instruction)} {code : List Instruction}
    (h : code ∈ codes) : ∃ pos, Stands codes.flatten pos code := by
  obtain ⟨before, after, rfl⟩ := List.append_of_mem h
  refine ⟨0 + before.flatten.length, ?_⟩
  rw [List.flatten_append, List.flatten_cons]
  exact (stands_append.1 (stands_append.1 (Stands.all _)).2).1

/-- Calls are linked if the code of every function does what the function means. -/
theorem Program.Code.linked_of {d : Discipline localType?} (h : p.Code mode entry d main codes)
    (hentry : entry ∈ mode.entries) {bound : Nat}
    (hcalls : ∀ g ∈ p.reachable main, p.function? g.name = some g →
      (p.setting mode entry d (p.reachable main) g).main = false → ∀ code pos,
        Defines (p.setting mode entry d (p.reachable main) g) g code →
        Stands codes.flatten pos code → ∀ (b : Below) (back : Nat) (args : List UInt64),
          args.length = g.params.length →
            Machine.Follows codes.flatten bound
              ⟨pos + 1, args.reverse.map .uint ++ b.stack, back :: b.frames, []⟩
              (p.calls entry bound g.name args) fun v m => v.isSome = g.returnsValue ∧
                m = ⟨back, v.toList.map .uint ++ b.stack, b.frames, []⟩)
    (f : Function) :
    (p.setting mode entry d (p.reachable main) f).Linked codes.flatten
      ⟨entry, p.calls entry bound, bound⟩ := by
  refine ⟨h.nodup, rfl, ?_⟩
  rintro _ sig ⟨g, hg, rfl⟩ hnot hsig
  have hname := name_of_function? h.found
  have hfound := (reachable_reached (p := p) (by rw [hname]; exact h.found)).found g hg
  have hsignature : some g.signature = some sig := by
    rw [← hsig]
    show _ = p.signatures.lookup g.name
    rw [p.lookup_signatures, hfound]
    rfl
  cases hsignature
  have hmain : (p.setting mode entry d (p.reachable main) g).main = false := by
    refine beq_eq_false_iff_ne.2 fun hname' => ?_
    have hmem : entry.functionName ∈ mode.entryPoints := List.mem_map_of_mem hentry
    rw [hname'] at hnot
    exact Bool.false_ne_true (hnot.symm.trans (List.contains_iff_mem.2 hmem))
  obtain ⟨code, hcode, hdefines⟩ := exists_right_of_forall₂ h.defines hg
  obtain ⟨pos, hpos⟩ := stands_flatten hcode
  exact ⟨pos + 1, hdefines.getElem?_label hmain hpos, hcalls g hg hfound hmain code pos hdefines hpos⟩

/-- Calls are linked, up to any depth. -/
theorem Program.Code.linked {d : Discipline localType?} (h : p.Code mode entry d main codes)
    (hp : p.Accepted mode) (hint : p.isIntegral mode = true)
    (hreads : ∀ f, (p.setting mode entry d (p.reachable main) f).Reads f.params (f.readable mode))
    (hentry : entry ∈ mode.entries) (bound : Nat) (f : Function) :
    (p.setting mode entry d (p.reachable main) f).Linked codes.flatten
      ⟨entry, p.calls entry bound, bound⟩ := by
  -- By induction on the depth of calls; a call takes a step at least, that over the label.
  induction bound generalizing f with
  | zero => exact h.linked_of hentry (fun _ _ _ _ _ _ _ _ _ _ _ _ => .timeout) f
  | succ bound ih =>
    refine h.linked_of hentry (fun g _ hfound hmain code pos hdefines hpos b back args hargs => ?_) f
    have hg : g ∈ p.functions := List.mem_of_find?_eq_some hfound
    rw [calls, hfound]
    exact hdefines.follows_call hmain rfl (hreads g) (ih g) (hp.params g hg)
      (List.all_eq_true.1 hint g hg) hpos hargs b back

/-- A run of the code follows the evaluation of the program to its end. -/
theorem Program.Code.follows {d : Discipline localType?} (h : p.Code mode entry d main codes)
    (hp : p.Accepted mode) (hint : p.isIntegral mode = true)
    (hreads : ∀ f, (p.setting mode entry d (p.reachable main) f).Reads f.params (f.readable mode))
    (hentry : entry ∈ mode.entries) (bound : Nat) :
    Machine.start.Follows codes.flatten bound (.error (p.run entry bound) : Except Stop Unit)
      fun _ _ => False := by
  have hname := name_of_function? h.found
  have hreached := reachable_reached (p := p) (by rw [hname]; exact h.found)
  have hlinked := h.linked hp hint hreads hentry bound main
  have hmem : main ∈ p.functions := List.mem_of_find?_eq_some h.found
  have hparams : main.params = [] := by
    obtain ⟨main', hmain', hparams⟩ := hp.entry entry hentry
    rw [h.found] at hmain'
    cases hmain'
    exact hparams
  have hmain : (p.setting mode entry d (p.reachable main) main).main = true := beq_iff_eq.2 hname
  -- The code of the entry comes first, with nothing in front of its body.
  obtain ⟨fs, hfs⟩ := List.head?_eq_some_iff.1 hreached.head
  have hdefines := h.defines
  rw [hfs] at hdefines
  obtain ⟨code, codes', hcode, -, rfl⟩ := List.forall₂_cons_left_iff.1 hdefines
  rw [← hfs] at hcode
  have hpos : Stands (code :: codes').flatten 0 code := List.prefix_append _ _
  have hargs : ([] : List UInt64).length = main.params.length := by rw [hparams]; rfl
  have hfollows := hcode.follows (hreads main) hlinked (hp.params main hmem)
    (List.all_eq_true.1 hint main hmem) hpos hargs ⟨[], []⟩ fun hnot => by
      rw [hmain] at hnot
      cases hnot
  rw [Function.headCode, if_pos hmain, hmain] at hfollows
  -- What the evaluation of the body gives, as a program.
  unfold Program.run
  rw [h.found]
  dsimp only
  revert hfollows
  cases main.body.eval ⟨entry, p.calls entry bound, bound⟩ (.ofArguments main.params []) with
  | error stop => exact fun hfollows => by cases stop <;> exact hfollows
  | ok r =>
    obtain ⟨flow, σ⟩ := r
    rintro ⟨k, m, hsteps, ⟨v, rfl, hleave⟩ | ⟨rfl, place, values, -, hend, rfl⟩⟩
    · rw [Setting.Leaves, if_pos hmain] at hleave
      obtain ⟨n, hrun⟩ := hleave
      exact .steps hsteps (.ended hrun)
    · rw [Function.endCode, if_pos rfl] at hend
      obtain ⟨hpush, hend⟩ := stands_cons.1 hend
      refine .steps hsteps (.step (Machine.step_op hpush rfl) (.ended (run_of_done ?_)))
      exact Machine.step_op (stands_cons.1 hend).1 rfl

end Programs

/-- An accepted program of the integer fragment ends with a report if and only if its code does so
when it is run. -/
theorem Program.evaluates_iff_reports {p : Program} {mode : Mode} {text : List Char} {a : Analysis}
    {entry : Entry} {version : Nat} {asm : Assembly} (ha : p.check mode text = .ok a)
    (hint : p.isIntegral mode = true) (hentry : entry ∈ mode.entries)
    (h : p.generate a.localType? version entry = .ok asm) (r : Report) :
    p.Evaluates entry r ↔ Reports asm.code r := by
  have hrules := (check_eq_ok ha).2
  have haccepted := accepted_of_checkRules hrules
  have hlocal : ∀ offset, a.localType? offset ≠ some .bytes := localType_ne_bytes hrules hint
  have hintegral : p.Abides (.integral hlocal) mode :=
    ⟨haccepted, hasCaseValues_of_isIntegral hint,
      fun f hf => .inr ⟨_, List.all_eq_true.1 hint f hf⟩, fun hbytes => absurd rfl hbytes⟩
  obtain ⟨main, codes, hcode, hasm, -⟩ :=
    hintegral.generate_ok hentry (fun _ _ _ _ => trivial) h
  have hreads := Function.reads (p := p) hentry hlocal (p.reachable main)
  rw [hasm]
  constructor
  · rintro ⟨bound, hrun⟩
    have hfollows := hcode.follows haccepted hint hreads hentry bound
    rw [hrun] at hfollows
    exact hfollows
  · -- If the code ends after `n` steps, the bound `n` is enough for the evaluation.
    rintro ⟨n, hrun⟩
    have hfollows := hcode.follows haccepted hint hreads hentry n
    refine ⟨n, ?_⟩
    cases hstop : p.run entry n with
    | ended r' =>
      rw [hstop] at hfollows
      obtain ⟨k, hrun'⟩ := hfollows
      rw [Machine.run_unique hrun hrun']
    | timeout =>
      rw [hstop] at hfollows
      obtain ⟨k, m, hle, hsteps⟩ := hfollows
      rw [hsteps.run_eq_none hle] at hrun
      cases hrun
    | stuck =>
      rw [hstop] at hfollows
      exact hfollows.elim

/-- A source with recursion, a loop, a switch and an assignment inside a condition. -/
theorem Program.evaluates_iff_reports_factorial :
    ∃ p a asm, Source.program "def fact(n) { if (n < 2) return 1; return n * fact(n - 1); }
        def Signature() { i = 0; do { switch (fact(i)) { case 6 { exit i; } } }
          while (i = i + 1); }".toList = .ok p ∧
      p.check (.single .signature) [] = .ok a ∧ p.isIntegral (.single .signature) = true ∧
      Entry.signature ∈ (Mode.single .signature).entries ∧
      p.generate a.localType? 5 .signature = .ok asm ∧ Reports asm.code ⟨.returned 3, []⟩ := by
  have hrun : (do
      let p ← Source.program "def fact(n) { if (n < 2) return 1; return n * fact(n - 1); }
        def Signature() { i = 0; do { switch (fact(i)) { case 6 { exit i; } } }
          while (i = i + 1); }".toList
      let a ← p.check (.single .signature) []
      let _ ← p.generate a.localType? 5 .signature
      return (p.isIntegral (.single .signature), p.run .signature 6)) =
        Except.ok (true, .ended ⟨.returned 3, []⟩) := by
    rw [String.toList_ofList]
    decide +kernel
  obtain ⟨p, hp, hrun⟩ := ok_of_bind hrun
  obtain ⟨a, ha, hrun⟩ := ok_of_bind hrun
  obtain ⟨asm, hasm, hrun⟩ := ok_of_bind hrun
  obtain ⟨hint, hended⟩ := Prod.mk.inj (Except.ok.inj hrun)
  have hentry : Entry.signature ∈ (Mode.single .signature).entries := by decide
  exact ⟨p, a, asm, hp, ha, hint, hentry, hasm,
    (evaluates_iff_reports ha hint hentry hasm _).1 ⟨6, hended⟩⟩

end ContractCompiler
