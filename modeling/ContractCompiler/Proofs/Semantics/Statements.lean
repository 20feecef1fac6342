import ContractCompiler.Proofs.Lowering.Statements
import ContractCompiler.Proofs.Semantics.Expressions

/-!
# The code of statements does what they mean

The code of a statement of the integer fragment does with the slots of a frame what the statement
does with names. If control does not get past a statement, it leaves the function or ends the
program; so code that was left out behind it is not missed.
-/

namespace ContractCompiler

open Builder (definedLabels)

variable {S : Setting} {code piece piece' : List Instruction} {bound : Nat}
  {names params : List String} {ends ends' : Bool} {x y : Eval Flow}

/-- The machine when a function is left with a value or none. An entry is about to end the program;
any other function has returned to its caller. -/
def Setting.Leaves (S : Setting) (code : List Instruction) (b : Below) (v : Option UInt64)
    (m : Machine) : Prop :=
  if S.main then ∃ n, m.run code n = some ⟨.returned (v.getD 1), []⟩
  else v.isSome = S.check.currentReturns ∧
    ∃ back frames, b.frames = back :: frames ∧
      m = ⟨back, v.toList.map .uint ++ b.stack, frames, []⟩

/-- `Does S code bound names piece ends x`: on a frame with the slots of `names`, `piece` does what `x`
does; with `ends`, control does not get past it. -/
def Does (S : Setting) (code : List Instruction) (bound : Nat) (names : List String)
    (piece : List Instruction) (ends : Bool) (x : Eval Flow) : Prop :=
  ∀ (b : Below) (pc : Nat) (values : List UInt64) (σ : Store), (S.main = false → b.frames ≠ []) →
    Stands code pc piece → σ.Laid names values →
      (b.machine pc [] values).Follows code bound (x σ)
        (b.Lands (pc + piece.length) (fun r m => ∃ v, r.1 = .leave v ∧ S.Leaves code b v m)
          fun r temps values' => r.1 = .next ∧ ends = false ∧ temps = [] ∧ r.2.Laid names values')

theorem Does.mono (h : Does S code bound names piece ends x) (hends : ends = false → ends' = false) :
    Does S code bound names piece ends' x := by
  intro b pc values σ hframes hstands hσ
  refine (h b pc values σ hframes hstands hσ).imp ?_
  rintro r m (hleave | ⟨temps, values', ⟨hnext, hfalse, hrest⟩, rfl⟩)
  · exact .inl hleave
  · exact .inr ⟨temps, values', ⟨hnext, hends hfalse, hrest⟩, rfl⟩

/-- One statement after another. -/
theorem Does.andThen (hx : Does S code bound names piece ends' x)
    (hy : Does S code bound names piece' ends y) :
    Does S code bound names (piece ++ piece') ends (Eval.andThen x y) := by
  intro b pc values σ hframes hstands hσ
  obtain ⟨hpiece, hpiece'⟩ := stands_append.1 hstands
  rw [add_length_append]
  refine (hx b pc values σ hframes hpiece hσ).bind ?_
  rintro ⟨flow, σ'⟩ m (⟨v, rfl, hleave⟩ | ⟨temps, values', ⟨rfl, -, rfl, hσ'⟩, rfl⟩)
  · exact .done (.inl ⟨v, rfl, hleave⟩)
  · exact hy b _ values' σ' hframes hpiece' hσ'

/-- What comes after a statement that control does not get past is not missed. -/
theorem Does.last (hx : Does S code bound names piece true x) :
    Does S code bound names piece true (Eval.andThen x y) := by
  intro b pc values σ hframes hstands hσ
  refine (hx b pc values σ hframes hstands hσ).bind ?_
  rintro ⟨flow, σ'⟩ m (⟨v, rfl, hleave⟩ | ⟨_, _, ⟨-, hends, -⟩, -⟩)
  · exact .done (.inl ⟨v, rfl, hleave⟩)
  · cases hends

/-! ## Blocks -/

/-- A block brings its names into slots and takes them away again. -/
theorem Does.block {ns : List String}
    (hx : Does S code bound ((newNames names ns).reverse ++ names) piece ends x) :
    Does S code bound names
      (List.replicate (newNames names ns).length (.op .pushint [.uint 0]) ++ piece ++
        if ends then [] else List.replicate (newNames names ns).length (.op .pop [])) ends
      (Eval.inBlock ns x) := by
  intro b pc values σ hframes hstands hσ
  obtain ⟨hstands, hpops⟩ := stands_append.1 hstands
  obtain ⟨hpushes, hpiece⟩ := stands_append.1 hstands
  have hnew : ∀ n, n ∈ newNames names ns ↔ n ∈ ns ∧ n ∉ names := fun n => mem_newNames
  have hin : Machine.Steps code (newNames names ns).length (b.machine pc [] values)
      (b.machine (pc + (newNames names ns).length) []
        (List.replicate (newNames names ns).length 0 ++ values)) := by
    have hsteps := @Machine.steps_pushes code pc _ (values.map .uint ++ b.stack) b.frames [] hpushes
    simpa [Below.machine] using hsteps
  rw [List.length_replicate] at hpiece
  refine .steps hin ?_
  show Machine.Follows code bound _
    (x (σ.bind ns) >>= fun r => Except.ok (r.1, r.2.unbind σ ns)) _
  refine (hx b _ _ _ hframes hpiece (hσ.bind hnew)).bind ?_
  rintro ⟨flow, σ'⟩ m (⟨v, rfl, hleave⟩ | ⟨temps, values', ⟨rfl, rfl, rfl, hσ'⟩, rfl⟩)
  · exact .done (.inl ⟨v, rfl, hleave⟩)
  · -- The slots of the new names are on top.
    have htake : (values'.take (newNames names ns).length).length = (newNames names ns).length := by
      rw [List.length_take, hσ'.length, List.length_append, List.length_reverse]
      omega
    have hout : Machine.Steps code (newNames names ns).length
        (b.machine (pc + (newNames names ns).length + piece.length) [] values')
        (b.machine (pc + (newNames names ns).length + piece.length + (newNames names ns).length) []
          (values'.drop (newNames names ns).length)) := by
      have hsteps := @Machine.steps_pops code (pc + (newNames names ns).length + piece.length)
        ((values'.drop (newNames names ns).length).map .uint ++ b.stack)
        ((values'.take (newNames names ns).length).map .uint) b.frames []
      rw [List.length_map, htake, ← List.append_assoc, ← List.map_append,
        List.take_append_drop] at hsteps
      refine hsteps ?_
      rw [add_length_append, List.length_replicate] at hpops
      exact hpops
    refine .steps hout (.done (.inr ⟨[], _, ⟨rfl, rfl, rfl, hσ.unbind hnew hσ'⟩, ?_⟩))
    rw [if_neg Bool.false_ne_true, add_length_append, add_length_append, List.length_replicate,
      List.length_replicate]

/-! ## Conditionals -/

/-- The code that jumps over a piece of code. -/
abbrev skipCode (cc cb : List Instruction) (endLabel : String) : List Instruction :=
  cc ++ [.op .bz [.label endLabel]] ++ cb ++ [.label endLabel]

/-- A conditional without an alternative. -/
theorem Gives.ifThen {α : Type} (hnodup : (definedLabels code).Nodup) {cc cb : List Instruction}
    {endLabel : String} {condition : Eval α} {word : α → UInt64}
    (hc : Gives code bound names 0 cc condition (fun a => [.uint (word a)]) fun _ => True)
    (hb : Does S code bound names cb ends x) :
    Does S code bound names (skipCode cc cb endLabel) false
      (do if word (← condition) = 0 then return .next else x) := by
  intro b pc values σ hframes hstands hσ
  have hplaces : Stands code pc cc ∧ code[pc + cc.length]? = some (.op .bz [.label endLabel]) ∧
      Stands code (pc + cc.length + 1) cb ∧
      code[pc + cc.length + 1 + cb.length]? = some (.label endLabel) := by
    simp only [stands_append, stands_cons, List.length_append, List.length_cons, List.length_nil,
      Nat.add_assoc, Nat.zero_add] at hstands ⊢
    obtain ⟨⟨⟨hcc, hbz, -⟩, hcb⟩, hend, -⟩ := hstands
    exact ⟨hcc, hbz, hcb, hend⟩
  obtain ⟨hcc, hbz, hcb, hend⟩ := hplaces
  have hpc : pc + (skipCode cc cb endLabel).length = pc + cc.length + 1 + cb.length + 1 := by
    simp only [List.length_append, List.length_cons, List.length_nil]
    omega
  rw [hpc]
  refine (hc b pc [] values σ rfl hcc hσ).bind ?_
  rintro ⟨a, σ₁⟩ m ⟨-, values₁, hσ₁, rfl⟩
  by_cases hv : word a = 0
  · show Machine.Follows code bound (b.machine _ [.uint (word a)] _)
      ((if word a = 0 then pure .next else x : Eval Flow) σ₁) _
    rw [if_pos hv, hv]
    refine .step (b.step_bz hnodup hbz hend) (.step (b.step_label hend) (.done (.inr ?_)))
    exact ⟨[], values₁, ⟨rfl, rfl, rfl, hσ₁⟩, rfl⟩
  · show Machine.Follows code bound (b.machine _ [.uint (word a)] _)
      ((if word a = 0 then pure .next else x : Eval Flow) σ₁) _
    rw [if_neg hv]
    refine .step (b.step_bz_next hv hbz) ((hb b _ values₁ σ₁ hframes hcb hσ₁).andSteps ?_)
    rintro r m (hleave | ⟨temps, values₂, ⟨hnext, -, rfl, hσ₂⟩, rfl⟩)
    · exact ⟨0, m, .refl, .inl hleave⟩
    · exact ⟨1, _, .step (b.step_label hend) .refl,
        .inr ⟨[], values₂, ⟨hnext, rfl, rfl, hσ₂⟩, rfl⟩⟩

/-- A conditional with an alternative. -/
theorem Gives.ifElse {α : Type} (hnodup : (definedLabels code).Nodup)
    {cc ca cb : List Instruction} {elseLabel endLabel : String} {condition : Eval α}
    {word : α → UInt64}
    (hc : Gives code bound names 0 cc condition (fun a => [.uint (word a)]) fun _ => True)
    (ha : Does S code bound names ca ends x) (hb : Does S code bound names cb ends' y) :
    Does S code bound names (choiceCode cc ca cb elseLabel endLabel) (ends && ends')
      (do if word (← condition) = 0 then y else x) := by
  intro b pc values σ hframes hstands hσ
  obtain ⟨hcc, -, hca, -, -, hcb, -⟩ := stands_choice hstands
  refine (hc b pc [] values σ rfl hcc hσ).bind ?_
  rintro ⟨a, σ₁⟩ m ⟨-, values₁, hσ₁, rfl⟩
  have hthen : Does S code bound names ca (ends && ends') x :=
    ha.mono fun h => by rw [h, Bool.false_and]
  have helse : Does S code bound names cb (ends && ends') y :=
    hb.mono fun h => by rw [h, Bool.and_false]
  have hfollows := b.choice hnodup hstands (hthen b _ values₁ σ₁ hframes hca hσ₁)
    (helse b _ values₁ σ₁ hframes hcb hσ₁) (v := word a)
  rw [← ite_apply] at hfollows
  exact hfollows

/-! ## Loops -/

/-- The code of a loop that tests first. -/
abbrev whileCode (cc cb : List Instruction) (startLabel endLabel : String) : List Instruction :=
  [.label startLabel] ++ cc ++ [.op .bz [.label endLabel]] ++ cb ++
    [.op .branch [.label startLabel], .label endLabel]

/-- A loop that tests first, by induction on the iterations that are left. -/
theorem Does.whileDo (hnodup : (definedLabels code).Nodup) {cc cb : List Instruction}
    {startLabel endLabel : String} {condition : Eval UInt64}
    (hc : GivesValue code bound names 0 cc condition) (hb : Does S code bound names cb ends x) :
    Does S code bound names (whileCode cc cb startLabel endLabel) false
      (Eval.whileDo condition x bound) := by
  intro b pc values σ hframes hstands hσ
  have hplaces : code[pc]? = some (.label startLabel) ∧ Stands code (pc + 1) cc ∧
      code[pc + 1 + cc.length]? = some (.op .bz [.label endLabel]) ∧
      Stands code (pc + 1 + cc.length + 1) cb ∧
      code[pc + 1 + cc.length + 1 + cb.length]? = some (.op .branch [.label startLabel]) ∧
      code[pc + 1 + cc.length + 1 + cb.length + 1]? = some (.label endLabel) := by
    simp only [stands_append, stands_cons, List.length_append, List.length_cons, List.length_nil,
      Nat.add_assoc, Nat.zero_add] at hstands ⊢
    obtain ⟨⟨⟨⟨⟨hstart, -⟩, hcc⟩, hbz, -⟩, hcb⟩, hbranch, hend, -⟩ := hstands
    exact ⟨hstart, hcc, hbz, hcb, hbranch, hend⟩
  obtain ⟨hstart, hcc, hbz, hcb, hbranch, hend⟩ := hplaces
  have hpc : pc + (whileCode cc cb startLabel endLabel).length =
      pc + 1 + cc.length + 1 + cb.length + 1 + 1 := by
    simp only [List.length_append, List.length_cons, List.length_nil]
    omega
  rw [hpc]
  -- Every iteration takes a step at least, that over the label.
  suffices hloop : ∀ n ≤ bound, ∀ values σ, σ.Laid names values →
      (b.machine pc [] values).Follows code n (Eval.whileDo condition x n σ)
        (b.Lands (pc + 1 + cc.length + 1 + cb.length + 1 + 1)
          (fun r m => ∃ v, r.1 = .leave v ∧ S.Leaves code b v m) fun r temps values' =>
            r.1 = .next ∧ false = false ∧ temps = [] ∧ r.2.Laid names values') from
    hloop bound (Nat.le_refl bound) values σ hσ
  intro n
  induction n with
  | zero => exact fun _ values σ _ => .timeout
  | succ n ih =>
    intro hn values σ hσ
    have hle : n ≤ bound := by omega
    refine .after (.step (b.step_label hstart) .refl) ?_
    refine ((hc b _ [] values σ rfl hcc hσ).weaken hle).bind ?_
    rintro ⟨v, σ₁⟩ m ⟨-, values₁, hσ₁, rfl⟩
    show Machine.Follows code n (b.machine _ [.uint v] _)
      ((if v = 0 then pure .next else Eval.andThen x (Eval.whileDo condition x n)) σ₁) _
    by_cases hv : v = 0
    · subst hv
      rw [if_pos rfl]
      refine .step (b.step_bz hnodup hbz hend) (.step (b.step_label hend) (.done (.inr ?_)))
      exact ⟨[], values₁, ⟨rfl, rfl, rfl, hσ₁⟩, rfl⟩
    · rw [if_neg hv]
      refine .step (b.step_bz_next hv hbz) ?_
      refine ((hb b _ values₁ σ₁ hframes hcb hσ₁).weaken hle).bind ?_
      rintro ⟨flow, σ₂⟩ m (⟨w, rfl, hleave⟩ | ⟨temps, values₂, ⟨rfl, -, rfl, hσ₂⟩, rfl⟩)
      · exact .done (.inl ⟨w, rfl, hleave⟩)
      · exact .step (b.step_branch hnodup hbranch hstart) (ih hle values₂ σ₂ hσ₂)

/-- A conditional jump back that is taken. -/
theorem Below.step_bnz {b : Below} {pc pc' : Nat} {temps : List Value} {values : List UInt64}
    (hnodup : (definedLabels code).Nodup) {l : String} {v : UInt64} (hv : v ≠ 0)
    (h : code[pc]? = some (.op .bnz [.label l])) (hl : code[pc']? = some (.label l)) :
    (b.machine pc (.uint v :: temps) values).step code = .next (b.machine pc' temps values) := by
  refine Machine.step_op h ?_
  simp [Machine.exec, Machine.branchIf, Machine.jump, findIdx?_label hnodup hl, Below.machine, hv]

/-- A conditional jump back that is not taken. -/
theorem Below.step_bnz_next {b : Below} {pc : Nat} {temps : List Value} {values : List UInt64}
    {l : String} (h : code[pc]? = some (.op .bnz [.label l])) :
    (b.machine pc (.uint 0 :: temps) values).step code = .next (b.machine (pc + 1) temps values) :=
  Machine.step_op h rfl

/-- The code of a loop that tests last. -/
abbrev doCode (cb cc : List Instruction) (startLabel : String) : List Instruction :=
  [.label startLabel] ++ cb ++ cc ++ [.op .bnz [.label startLabel]]

/-- A loop that tests last, by induction on the iterations that are left. -/
theorem Does.doWhile (hnodup : (definedLabels code).Nodup) {cb cc : List Instruction}
    {startLabel : String} {condition : Eval UInt64} (hb : Does S code bound names cb ends x)
    (hc : GivesValue code bound names 0 cc condition) :
    Does S code bound names (doCode cb cc startLabel) ends (Eval.doWhile x condition bound) := by
  intro b pc values σ hframes hstands hσ
  have hplaces : code[pc]? = some (.label startLabel) ∧ Stands code (pc + 1) cb ∧
      Stands code (pc + 1 + cb.length) cc ∧
      code[pc + 1 + cb.length + cc.length]? = some (.op .bnz [.label startLabel]) := by
    simp only [stands_append, stands_cons, List.length_append, List.length_cons, List.length_nil,
      Nat.add_assoc, Nat.zero_add] at hstands ⊢
    obtain ⟨⟨⟨⟨hstart, -⟩, hcb⟩, hcc⟩, hbnz, -⟩ := hstands
    exact ⟨hstart, hcb, hcc, hbnz⟩
  obtain ⟨hstart, hcb, hcc, hbnz⟩ := hplaces
  have hpc : pc + (doCode cb cc startLabel).length = pc + 1 + cb.length + cc.length + 1 := by
    simp only [List.length_append, List.length_cons, List.length_nil]
    omega
  rw [hpc]
  suffices hloop : ∀ n ≤ bound, ∀ values σ, σ.Laid names values →
      (b.machine pc [] values).Follows code n (Eval.doWhile x condition n σ)
        (b.Lands (pc + 1 + cb.length + cc.length + 1)
          (fun r m => ∃ v, r.1 = .leave v ∧ S.Leaves code b v m) fun r temps values' =>
            r.1 = .next ∧ ends = false ∧ temps = [] ∧ r.2.Laid names values') from
    hloop bound (Nat.le_refl bound) values σ hσ
  intro n
  induction n with
  | zero => exact fun _ values σ _ => .timeout
  | succ n ih =>
    intro hn values σ hσ
    have hle : n ≤ bound := by omega
    refine .after (.step (b.step_label hstart) .refl) ?_
    refine ((hb b _ values σ hframes hcb hσ).weaken hle).bind ?_
    rintro ⟨flow, σ₁⟩ m (⟨w, rfl, hleave⟩ | ⟨temps, values₁, ⟨rfl, hends, rfl, hσ₁⟩, rfl⟩)
    · exact .done (.inl ⟨w, rfl, hleave⟩)
    · refine ((hc b _ [] values₁ σ₁ rfl hcc hσ₁).weaken hle).bind ?_
      rintro ⟨v, σ₂⟩ m ⟨-, values₂, hσ₂, rfl⟩
      show Machine.Follows code n (b.machine _ [.uint v] _)
        ((if v = 0 then pure .next else Eval.doWhile x condition n) σ₂) _
      by_cases hv : v = 0
      · subst hv
        rw [if_pos rfl]
        refine .step (b.step_bnz_next hbnz) (.done (.inr ?_))
        exact ⟨[], values₂, ⟨rfl, hends, rfl, hσ₂⟩, rfl⟩
      · rw [if_neg hv]
        exact .step (b.step_bnz hnodup hv hbnz hstart) (ih hle values₂ σ₂ hσ₂)

/-! ## Leaving -/

section Leaving

variable {env : EvalEnv} {e : Expr} {message : List UInt8}

theorem run_of_done {m : Machine} {r : Report} (h : m.step code = .done r) :
    m.run code 1 = some r := by
  rw [Machine.run, h]

/-- A failure of an application logs its message. -/
theorem does_throwLogged (span : Span) (happ : env.entry.isApplication = true) :
    Does S code env.bound names
      [.op .pushbytes [.bytes message], .op .log [], .op .err []] true
      (env.leaving .throwing (some (.bytes message span))) := by
  intro b pc values σ _ hstands _
  obtain ⟨hpush, hstands⟩ := stands_cons.1 hstands
  obtain ⟨hlog, hstands⟩ := stands_cons.1 hstands
  obtain ⟨herr, -⟩ := stands_cons.1 hstands
  have hsteps : Machine.Steps code 2 (b.machine pc [] values)
      ⟨pc + 1 + 1, values.map .uint ++ b.stack, b.frames, [message]⟩ :=
    .step (Machine.step_op hpush rfl) (.step (Machine.step_op hlog rfl) .refl)
  show Machine.Follows code env.bound _
    (.error (.ended ⟨.failed, if env.entry.isApplication then [message] else []⟩)) _
  rw [if_pos happ]
  exact .steps hsteps (.ended (run_of_done (Machine.step_op herr rfl)))

/-- A failure of a signature logs nothing. -/
theorem does_throwSilent {text : String} (span : Span) (happ : env.entry.isApplication = false) :
    Does S code env.bound names [.comment text, .op .err []] true
      (env.leaving .throwing (some (.bytes message span))) := by
  intro b pc values σ _ hstands _
  obtain ⟨hcomment, hstands⟩ := stands_cons.1 hstands
  obtain ⟨herr, -⟩ := stands_cons.1 hstands
  have hstep : (b.machine pc [] values).step code = .next (b.machine (pc + 1) [] values) := by
    rw [Machine.step, show code[(b.machine pc [] values).pc]? = _ from hcomment]
    rfl
  show Machine.Follows code env.bound _
    (.error (.ended ⟨.failed, if env.entry.isApplication then [message] else []⟩)) _
  rw [if_neg (by rw [happ]; exact Bool.false_ne_true)]
  exact .step hstep (.ended (run_of_done (Machine.step_op herr rfl)))

/-- The code that ends the program with a value. -/
theorem GivesValue.exit (he : GivesValue code env.bound names 0 piece (e.evalValue env)) :
    Does S code env.bound names (piece ++ plain [.exit]) true
      (env.leaving .exiting (some e)) := by
  intro b pc values σ _ hstands hσ
  obtain ⟨hpiece, hexit⟩ := stands_append.1 hstands
  refine (he b pc [] values σ rfl hpiece hσ).bind ?_
  rintro ⟨v, σ'⟩ m ⟨-, values', -, rfl⟩
  exact .ended (run_of_done (Machine.step_op (stands_cons.1 hexit).1 rfl))

/-- The code with which an entry returns a value. -/
theorem GivesValue.finish (hmain : S.main = true)
    (he : GivesValue code env.bound names 0 piece (e.evalValue env)) :
    Does S code env.bound names (piece ++ plain [.exit]) true
      (env.leaving .returning (some e)) := by
  intro b pc values σ _ hstands hσ
  obtain ⟨hpiece, hexit⟩ := stands_append.1 hstands
  refine (he b pc [] values σ rfl hpiece hσ).bind ?_
  rintro ⟨v, σ'⟩ m ⟨-, values', -, rfl⟩
  refine .done (.inl ⟨some v, rfl, ?_⟩)
  rw [Setting.Leaves, if_pos hmain]
  exact ⟨1, run_of_done (Machine.step_op (stands_cons.1 hexit).1 rfl)⟩

/-- The code with which an entry returns nothing. -/
theorem does_finishNone (hmain : S.main = true) :
    Does S code env.bound names [.op .pushint [.uint 1], .op .exit []] true
      (env.leaving .returning none) := by
  intro b pc values σ _ hstands hσ
  obtain ⟨hpush, hstands⟩ := stands_cons.1 hstands
  obtain ⟨hexit, -⟩ := stands_cons.1 hstands
  have hstep : (b.machine pc [] values).step code =
      .next (b.machine (pc + 1) [.uint 1] values) := b.step hpush rfl
  refine .step hstep (.done (.inl ⟨none, rfl, ?_⟩))
  rw [Setting.Leaves, if_pos hmain]
  exact ⟨1, run_of_done (Machine.step_op hexit rfl)⟩

/-- The code with which a function returns a value. -/
theorem GivesValue.ret (hmain : S.main = false) (hret : S.check.currentReturns = true)
    (hmax : names.length ≤ maxImmediate)
    (he : GivesValue code env.bound names 0 piece (e.evalValue env)) :
    Does S code env.bound names (piece ++ dropCode names.length ++ plain [.retsub]) true
      (env.leaving .returning (some e)) := by
  intro b pc values σ hframes hstands hσ
  obtain ⟨hstands, hretsub⟩ := stands_append.1 hstands
  obtain ⟨hpiece, hdrop⟩ := stands_append.1 hstands
  obtain ⟨back, frames, hback⟩ := List.exists_cons_of_ne_nil (hframes hmain)
  refine (he b pc [] values σ rfl hpiece hσ).bind ?_
  rintro ⟨v, σ'⟩ m ⟨-, values', hσ', rfl⟩
  obtain ⟨k, hsteps⟩ := @Machine.steps_drop code (pc + piece.length) names.length b.stack
    (values'.map .uint) (.uint v) b.frames [] (by rw [List.length_map]; exact hσ'.length) hmax hdrop
  have hstep : Machine.step code ⟨pc + piece.length + (dropCode names.length).length,
      .uint v :: b.stack, b.frames, []⟩ = .next ⟨back, .uint v :: b.stack, frames, []⟩ := by
    rw [add_length_append] at hretsub
    refine Machine.step_op (stands_cons.1 hretsub).1 ?_
    simp [Machine.exec, hback]
  refine .steps hsteps (.step hstep (.done (.inl ⟨some v, rfl, ?_⟩)))
  rw [Setting.Leaves, if_neg (by rw [hmain]; exact Bool.false_ne_true)]
  exact ⟨hret.symm, back, frames, hback, rfl⟩

/-- The code with which a function returns nothing. -/
theorem Below.follows_retNone {b : Below} {pc : Nat} {values : List UInt64}
    (hmain : S.main = false) (hret : S.check.currentReturns = false) (hframes : b.frames ≠ [])
    (hstands : Stands code pc (List.replicate values.length (.op .pop []) ++ [.op .retsub []])) :
    ∃ k m, Machine.Steps code k (b.machine pc [] values) m ∧ S.Leaves code b none m := by
  obtain ⟨hpops, hretsub⟩ := stands_append.1 hstands
  obtain ⟨back, frames, hback⟩ := List.exists_cons_of_ne_nil hframes
  have hsteps := @Machine.steps_pops code pc b.stack (values.map .uint) b.frames []
  rw [List.length_map] at hsteps
  rw [List.length_replicate] at hretsub
  have hstep : Machine.step code ⟨pc + values.length, b.stack, b.frames, []⟩ =
      .next ⟨back, b.stack, frames, []⟩ := by
    refine Machine.step_op (stands_cons.1 hretsub).1 ?_
    simp [Machine.exec, hback]
  refine ⟨_, _, (hsteps hpops).trans (.step hstep .refl), ?_⟩
  rw [Setting.Leaves, if_neg (by rw [hmain]; exact Bool.false_ne_true)]
  exact ⟨hret.symm, back, frames, hback, rfl⟩

end Leaving

/-! ## The simulation -/

/-- The code of a part of a function does what that part means. -/
def Part.Simulated (S : Setting) (code : List Instruction) (env : EvalEnv)
    (readable : String → Bool) (names : List String) (piece : List Instruction) (ends : Bool) :
    Part → Prop
  | .stmt s => s.isIntegral readable = true → Does S code env.bound names piece ends (s.eval env)
  | .stmts ss => Stmt.areIntegral readable ss = true →
    Does S code env.bound names piece ends (Stmt.evalList env ss)
  | .block b => b.isIntegral readable = true →
    Does S code env.bound names piece ends (b.eval env)
  | .chain tested _ cases otherwise => tested.isIntegral readable = true →
    Case.areIntegral readable cases = true →
      (∀ d ∈ otherwise, d.isIntegral readable = true) →
        Does S code env.bound names piece ends
          (Case.evalList env tested (otherwise.elim (return .next) (Block.eval env)) cases)

variable {env : EvalEnv} {readable : String → Bool}

/-- The code of the tests of a case. -/
theorem Gives.tests (hreads : S.Reads params readable) (hlinked : S.Linked code env)
    (hparams : params ⊆ names) {cs cs₀ cs₁ : CheckState} {tested v : Expr} {vs : List Expr}
    {ct cts : List Instruction} {k : StackType}
    (htested : tested.isIntegral readable = true)
    (hvalues : ∀ u ∈ v :: vs, u.isIntegral readable = true)
    (hv : Emits S names cs 0 (.test tested cs₀ v) ct (some k))
    (hvs : Emits S names cs₁ 0 (.tests tested cs₀ vs) cts none) :
    Gives code env.bound names 0 (ct ++ cts)
      (Eval.anyEqual (tested.evalValue env) ((v :: vs).map (Expr.evalValue env)))
      (fun r => [.uint r.toUInt64]) fun _ => True := by
  obtain ⟨hvalue, hvalues⟩ := List.forall_mem_cons.1 hvalues
  intro b pc temps values σ ht hstands hσ
  obtain ⟨hct, hcts⟩ := stands_append.1 hstands
  rw [List.map_cons, Eval.anyEqual]
  refine (hv.simulated hreads hlinked hparams htested hvalue b pc temps values σ ht hct hσ).bind ?_
  rintro ⟨first, σ₁⟩ m ⟨-, values₁, hσ₁, rfl⟩
  refine (hvs.simulated hreads hlinked hparams htested hvalues first b _ temps values₁ σ₁ ht hcts
    hσ₁).bind ?_
  rintro ⟨rest, σ₂⟩ m ⟨values₂, hσ₂, rfl⟩
  refine .done ⟨trivial, values₂, hσ₂, ?_⟩
  rw [add_length_append]
  rfl

theorem Case.evalList_cons {tested : Expr} {otherwise : Eval Flow} {values : List Expr} {b : Block}
    {span : Span} {cs : List Case} :
    Case.evalList env tested otherwise (⟨values, b, span⟩ :: cs) = (do
      if (← Eval.anyEqual (tested.evalValue env) (values.map (Expr.evalValue env))).toUInt64 = 0
      then Case.evalList env tested otherwise cs
      else b.eval env) := by
  rw [Case.evalList]
  refine bind_congr fun r => ?_
  cases r <;> rfl

/-- An expression whose value is not wanted. -/
theorem GivesResult.discard {e : Expr} {left : Option StackType}
    (he : GivesResult code env.bound names 0 piece (e.eval env) left) :
    Does S code env.bound names (piece ++ List.replicate left.toList.length (.op .pop [])) false
      ((Stmt.expr e).eval env) := by
  intro b pc values σ _ hstands hσ
  obtain ⟨hpiece, hpops⟩ := stands_append.1 hstands
  rw [Stmt.eval]
  refine (he b pc [] values σ rfl hpiece hσ).bind ?_
  rintro ⟨v, σ'⟩ m ⟨hsome, values', hσ', rfl⟩
  have hlen : left.toList.length = (v.toList.map Value.uint).length := by
    have hsome : v.isSome = left.isSome := hsome
    cases v <;> cases left <;> first | rfl | cases hsome
  rw [hlen] at hpops
  have hsteps : Machine.Steps code _ (b.machine (pc + piece.length) (v.toList.map .uint) values') _ :=
    Machine.steps_pops hpops
  show (b.machine _ (v.toList.map .uint ++ []) values').Follows code env.bound _ _
  rw [List.append_nil]
  refine .steps hsteps (.done (.inr ⟨[], values', ⟨rfl, rfl, rfl, hσ'⟩, ?_⟩))
  rw [add_length_append, List.length_replicate, hlen]
  rfl

/-- An assignment as a statement. -/
theorem GivesValue.store {e : Expr} {n : String} {span span' : Span} (hn : n ∈ names)
    (hmax : 1 + names.idxOf n ≤ maxImmediate)
    (he : GivesValue code env.bound names 0 piece (e.evalValue env)) :
    Does S code env.bound names (piece ++ Lower.replaceCode (1 + names.idxOf n)) false
      ((Stmt.expr (.binary .assign (.var (.name n span)) e span')).eval env) := by
  intro b pc values σ _ hstands hσ
  obtain ⟨hpiece, hreplace⟩ := stands_append.1 hstands
  rw [Stmt.eval, Expr.eval, bind_assoc]
  refine (he b pc [] values σ rfl hpiece hσ).bind ?_
  rintro ⟨v, σ'⟩ m ⟨-, values', hσ', rfl⟩
  have hlen : ([] : List Value).length + 1 + names.idxOf n = 1 + names.idxOf n := by
    rw [List.length_nil, Nat.zero_add]
  obtain ⟨j, hsteps⟩ := b.steps_store hσ' hn hlen hmax hreplace v
  refine .steps hsteps (.done (.inr ⟨[], _, ⟨rfl, rfl, rfl, hσ'.set hn v⟩, ?_⟩))
  rw [add_length_append]

/-- The code of a function of the fragment does what the function means. -/
theorem Performs.simulated (hreads : S.Reads params readable) (hlinked : S.Linked code env)
    {cs : CheckState} {part : Part} (h : Performs S names cs part piece ends)
    (hparams : params ⊆ names) : part.Simulated S code env readable names piece ends := by
  have hvalue : ∀ {names : List String} {cs : CheckState} {e : Expr} {piece : List Instruction}
      {k : StackType}, params ⊆ names → e.isIntegral readable = true →
        Emits S names cs 0 (.expr e) piece (some k) →
          GivesValue code env.bound names 0 piece (e.evalValue env) :=
    fun hparams he hemits => (hemits.simulated hreads hlinked hparams he).value
  induction h with
  | nil =>
    intro _ b pc values σ _ _ hσ
    exact .done (.inr ⟨[], values, ⟨rfl, rfl, rfl, hσ⟩, rfl⟩)
  | last _ ih =>
    intro hss
    rw [Stmt.areIntegral, Bool.and_eq_true] at hss
    exact (ih hparams hss.1).last
  | next _ _ _ ih ihs =>
    intro hss
    rw [Stmt.areIntegral, Bool.and_eq_true] at hss
    exact (ih hparams hss.1).andThen (ihs hparams hss.2)
  | block hnew _ ih =>
    intro hb
    subst hnew
    exact (ih (fun n hn => List.mem_append_right _ (hparams hn)) hb).block
  | discard he =>
    intro hs
    exact (he.simulated hreads hlinked hparams hs).discard
  | store hn hmax he _ =>
    intro hs
    rw [Stmt.isIntegral, Expr.isIntegral] at hs
    exact (hvalue hparams hs he).store hn hmax
  | ifThen hc _ _ ih =>
    intro hs
    rw [Stmt.isIntegral, Bool.and_eq_true] at hs
    exact Gives.ifThen hlinked.nodup (hvalue hparams hs.1 hc) (ih hparams hs.2)
  | ifElse hc _ _ _ _ iha ihb =>
    intro hs
    rw [Stmt.isIntegral, Bool.and_eq_true, Bool.and_eq_true] at hs
    exact Gives.ifElse hlinked.nodup (hvalue hparams hs.1.1 hc) (iha hparams hs.1.2)
      (ihb hparams hs.2)
  | whileDo hc _ _ ih =>
    intro hs
    rw [Stmt.isIntegral, Bool.and_eq_true] at hs
    exact Does.whileDo hlinked.nodup (hvalue hparams hs.1 hc) (ih hparams hs.2)
  | doWhile _ _ hc ih =>
    intro hs
    rw [Stmt.isIntegral, Bool.and_eq_true] at hs
    exact Does.doWhile hlinked.nodup (ih hparams hs.1) (hvalue hparams hs.2 hc)
  | @switch _ _ _ _ _ otherwise _ _ _ _ _ _ ih =>
    intro hs
    cases otherwise with
    | none =>
      simp only [Stmt.isIntegral, Bool.and_eq_true] at hs
      rw [Stmt.eval]
      exact ih hparams hs.1.1 hs.2 fun _ hd => by cases hd
    | some d =>
      simp only [Stmt.isIntegral, Bool.and_eq_true] at hs
      rw [Stmt.eval]
      exact ih hparams hs.1.1.1 hs.1.2 fun _ hd => Option.some.inj hd ▸ hs.2
  | chainNone =>
    intro _ _ _ b pc values σ _ _ hσ
    rw [Case.evalList]
    exact .done (.inr ⟨[], values, ⟨rfl, rfl, rfl, hσ⟩, rfl⟩)
  | chainOtherwise _ ih =>
    intro _ _ hotherwise
    rw [Case.evalList]
    exact ih hparams (hotherwise _ rfl)
  | chainLast hv _ hvs _ _ ih =>
    intro htested hcases _
    simp only [Case.areIntegral, Bool.and_eq_true, List.all_eq_true] at hcases
    have hcondition := Gives.tests hreads hlinked hparams htested hcases.1.1.2 hv hvs
    rw [Case.evalList_cons, Case.evalList]
    exact Gives.ifThen hlinked.nodup hcondition (ih hparams hcases.1.2)
  | chainCons hv _ hvs _ _ _ _ ih ihrest =>
    intro htested hcases hotherwise
    simp only [Case.areIntegral, Bool.and_eq_true, List.all_eq_true] at hcases
    have hcondition := Gives.tests hreads hlinked hparams htested hcases.1.1.2 hv hvs
    rw [Case.evalList_cons]
    exact Gives.ifElse hlinked.nodup hcondition (ih hparams hcases.1.2)
      (ihrest hparams htested hcases.2 hotherwise)
  | @throwLogged _ _ _ span _ happ => exact fun _ => does_throwLogged span (hlinked.entry ▸ happ)
  | @throwSilent _ _ _ span _ _ happ =>
    exact fun _ => does_throwSilent span (hlinked.entry ▸ happ)
  | exit he => exact fun hs => (hvalue hparams hs he).exit
  | finish hmain he => exact fun hs => (hvalue hparams hs he).finish hmain
  | finishNone hmain => exact fun _ => does_finishNone hmain
  | ret hmain hret hmax he => exact fun hs => (hvalue hparams hs he).ret hmain hret hmax
  | retNone hmain hret =>
    intro _ b pc values σ hframes hstands hσ
    rw [← hσ.length] at hstands
    obtain ⟨k, m, hsteps, hleaves⟩ := b.follows_retNone hmain hret (hframes hmain) hstands
    exact .steps hsteps (.done (.inl ⟨none, rfl, hleaves⟩))

end ContractCompiler
