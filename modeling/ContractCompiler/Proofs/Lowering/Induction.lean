import ContractCompiler.Proofs.Lowering.Expressions
import ContractCompiler.Proofs.Lowering.Rules
import ContractCompiler.Proofs.Typing.Relocation

/-!
# Induction over lowering

A relation between steps that the rules of lowering keep holds between the code of every expression and
every statement in one run and that of the same, relocated, in another. What is asked of the source is
about its nodes one by one: which functions are called, what is known of the locals that are read, and
which messages are thrown.
-/

namespace ContractCompiler

/-! ## What is asked of the source -/

/-- The message that a node throws, if it throws one. -/
def Node.message? : Node → Option (List UInt8)
  | stmt (.leave .throwing (some (.bytes m _)) _) => some m
  | _ => none

/-- The text of the comment for a message. -/
def throwText (message : List UInt8) : String :=
  " throw " ++ String.ofList (Text.decodeLossy message)

/-- A node below which nothing is called but what may be, the same is known in both runs of the locals
that are read, and the relation holds of the comments for the messages that are thrown outside of an
application. -/
structure Lower.Relation.Covers {env env' : LowerEnv} {calls : String → Prop}
    (R : Lower.Relation env env' calls) (σ : Relocation) (n : Node) : Prop where
  calls : ∀ f ∈ n.called, calls f
  reads : ∀ o ∈ n.nameOffsets, env'.localType? (σ.offset o) = env.localType? o
  throws : env.entry.isApplication = false → ∀ m ∈ n.found Node.message?,
    R.Holds (Lower.build (Builder.comment (throwText m)))
      (Lower.build (Builder.comment (throwText m)))

namespace Lower.Relation.Covers

variable {env env' : LowerEnv} {calls : String → Prop} {R : Lower.Relation env env' calls}
  {σ : Relocation}

theorem child {n c : Node} (h : R.Covers σ n) (hc : c ∈ n.children) : R.Covers σ c where
  calls f hf := h.calls f (Node.found_subset _ hc hf)
  reads o ho := h.reads o (Node.found_subset _ hc ho)
  throws henv m hm := h.throws henv m (Node.found_subset _ hc hm)

theorem left {o : BinaryOperator} {l r : Expr} {s : Span}
    (h : R.Covers σ (.expr (.binary o l r s))) : R.Covers σ (.expr l) :=
  h.child List.mem_cons_self

theorem right {o : BinaryOperator} {l r : Expr} {s : Span}
    (h : R.Covers σ (.expr (.binary o l r s))) : R.Covers σ (.expr r) :=
  h.child (List.mem_cons_of_mem _ (List.mem_singleton_self _))

theorem binary {o : BinaryOperator} {l r : Expr} {s : Span} (hl : R.Covers σ (.expr l))
    (hr : R.Covers σ (.expr r)) : R.Covers σ (.expr (.binary o l r s)) where
  calls := by
    rw [Node.called_expr, Expr.called_binary]
    exact List.forall_mem_append.2 ⟨hl.calls, hr.calls⟩
  reads := by
    rw [Node.nameOffsets_expr, Expr.nameOffsets_binary]
    exact List.forall_mem_append.2 ⟨hl.reads, hr.reads⟩
  throws henv m hm := by
    rw [Node.found_eq] at hm
    have hm : m ∈ (Node.expr l).found Node.message? ∨ m ∈ (Node.expr r).found Node.message? := by
      simpa [Node.message?, Node.children, Node.ofExpr] using hm
    exact hm.elim (hl.throws henv m) (hr.throws henv m)

theorem uint {v : UInt64} {s : Span} : R.Covers σ (.expr (.uint v s)) where
  calls := by
    rw [Node.called_expr, Expr.called_uint]
    exact List.forall_mem_nil _
  reads := by
    rw [Node.nameOffsets_expr, Expr.nameOffsets_uint]
    exact List.forall_mem_nil _
  throws henv m hm := by
    rw [Node.found_eq] at hm
    simp [Node.message?, Node.children, Node.ofExpr] at hm

/-- The test of a case, which is made up of the tested value and those of the case. -/
theorem condition {tested : Expr} {c : Case} (ht : R.Covers σ (.expr tested))
    (hc : R.Covers σ (.case c)) : R.Covers σ (.expr (c.condition tested)) := by
  have hvalues : ∀ v ∈ c.values, R.Covers σ (.expr v) := fun v hv =>
    hc.child (List.mem_append_left _ (List.mem_map_of_mem hv))
  have htests : ∀ (vs : List Expr) (e : Expr), (∀ v ∈ vs, R.Covers σ (.expr v)) →
      R.Covers σ (.expr e) → R.Covers σ (.expr (vs.foldl
        (fun e v => .binary .or e (.binary .eq tested v v.span) c.span) e)) := by
    intro vs
    induction vs with
    | nil => exact fun _ _ he => he
    | cons v vs ih =>
      intro e hvs he
      obtain ⟨hv, hvs⟩ := List.forall_mem_cons.1 hvs
      exact ih _ hvs (.binary he (.binary ht hv))
  unfold Case.condition
  split
  · exact .uint
  · next v vs hcons =>
    rw [hcons] at hvalues
    obtain ⟨hv, hvs⟩ := List.forall_mem_cons.1 hvalues
    exact htests vs _ hvs (.binary ht hv)

end Lower.Relation.Covers

/-! ## Places -/

section Expressions

variable {env env' : LowerEnv} {calls : String → Prop} (R : Lower.Relation env env' calls)
  {σ : Relocation}

theorem Expr.constIndex?_le {e : Expr} : ∀ k ∈ e.constIndex?, k.toNat ≤ maxImmediate := by
  intro k hk
  unfold Expr.constIndex? at hk
  split at hk
  case h_1 v _ =>
    split at hk
    case isTrue hv =>
      cases hk
      exact hv
    case isFalse => cases hk
  case h_2 => cases hk

@[simp] theorem Relocation.constIndex?_expr (e : Expr) : (σ.expr e).constIndex? = e.constIndex? := by
  cases e with
  | uint v s => exact congrArg (fun v => (Expr.uint v s).constIndex?) (σ.constant_eq s.main v)
  | _ => rfl

/-- Reading a place, with indexes whose code is related. -/
theorem Lower.Relation.load (text : String) {o : Nat} {steps : List (Step Expr)}
    (hname : ∀ n, Load.ofSteps? steps = some (.named n) →
      env'.localType? (σ.offset o) = env.localType? o)
    (hindex : ∀ i, .index i ∈ steps → R.Holds i.lower (σ.expr i).lower) :
    R.Holds (Lower.load text o (Load.ofSteps? (steps.map (Step.map Expr.indexCode))))
      (Lower.load text (σ.offset o)
        (Load.ofSteps? ((steps.map (Step.map σ.expr)).map (Step.map Expr.indexCode)))) := by
  rw [Load.ofSteps?_map_eq, Load.ofSteps?_map_eq, Load.ofSteps?_map_eq]
  cases hload : Load.ofSteps? steps with
  | none => exact R.fail _ rfl
  | some l =>
    have hf := Load.isLine_fields hload
    have hi : ∀ i ∈ l.index?, R.Holds i.lower (σ.expr i).lower := fun i hi =>
      hindex i (Load.index_mem hload hi)
    simp only [Option.map_some]
    cases l with
    | named n => exact R.loadName (hname n hload)
    | field code field type =>
      refine R.typed (.field ?_ (hf field List.mem_cons_self))
      rcases Load.field_code hload with rfl | rfl <;> rfl
    | account code i => exact R.bind (hi i rfl) fun _ => R.op₀
    | element a i =>
      simp only [Load.map, Lower.load, Expr.indexCode, Relocation.constIndex?_expr]
      exact R.loadElement (hf _ List.mem_cons_self) Expr.constIndex?_le (hi i rfl)
    | scratch i =>
      simp only [Load.map, Lower.load, Expr.indexCode, Relocation.constIndex?_expr]
      split
      case h_1 k hk => exact R.op fun _ => .small rfl (Expr.constIndex?_le k hk)
      case h_2 => exact R.bind (hi i rfl) fun _ => R.op₀
    | group i f =>
      have hfield := hf f.field List.mem_cons_self
      simp only [Load.map, Lower.load, Expr.indexCode, Relocation.constIndex?_expr]
      split
      case h_1 k hk => exact R.typed (.gtxn hfield (Expr.constIndex?_le k hk))
      case h_2 => exact R.bind (hi i rfl) fun _ => R.typed (.field rfl hfield)
    | argumentCount =>
      refine R.read_bind ?_
      rw [R.entry]
      split
      · exact R.fail_bind rfl
      · exact R.typed (.field rfl (by decide))
    | argument i =>
      simp only [Load.map, Lower.load, Expr.indexCode, Relocation.constIndex?_expr]
      refine R.read_bind ?_
      rw [R.entry]
      split
      · exact R.loadElement (by decide) Expr.constIndex?_le (hi i rfl)
      split
      case h_1 k hk => exact R.op fun _ => .small rfl (Expr.constIndex?_le k hk)
      case h_2 => exact R.bind (hi i rfl) fun _ => R.op₀

/-- Only the program's own transaction and those of the group can be tested. -/
theorem Lower.typeTest_eq_fail {ι : Type} {f : ι → IndexCode} {steps : List (Step ι)}
    (hown : steps ≠ [.name "Txn"]) (hgroup : ∀ i, steps ≠ [.name "TxnGroup", .index i])
    (o : BinaryOperator) (r : Expr) (text : String) :
    Lower.typeTest o (some (steps.map (Step.map f))) r text = Lower.fail (.typeTest text) := by
  unfold Lower.typeTest
  generalize (if o = .ne then Opcode.ne else Opcode.eq) = code
  split
  · rfl
  split
  case h_1 heq =>
    simp only [Option.some.injEq, List.map_eq_cons_iff, List.map_eq_nil_iff, Step.map_eq_name]
      at heq
    obtain ⟨_, _, hsteps, rfl, rfl⟩ := heq
    exact absurd hsteps hown
  case h_2 heq =>
    simp only [Option.some.injEq, List.map_eq_cons_iff, List.map_eq_nil_iff, Step.map_eq_name,
      Step.map_eq_index] at heq
    obtain ⟨_, _, hsteps, rfl, _, _, rfl, ⟨i, rfl, -⟩, rfl⟩ := heq
    exact absurd hsteps (hgroup i)
  case h_3 => rfl

/-- A test of the type of a transaction, with an index whose code is related. -/
theorem Lower.Relation.typeTest (o : BinaryOperator) (r : Expr) (text : String) {v : Variable}
    (hindex : ∀ i, .index i ∈ v.steps → R.Holds i.lower (σ.expr i).lower) :
    R.Holds (Lower.typeTest o (some v.codeSteps) r text)
      (Lower.typeTest o (some (σ.place v).codeSteps) (σ.expr r) text) := by
  have htype : Text.IsLine "TypeEnum" := by decide
  have htail : ∀ (code : UInt64) (test : Opcode), R.Holds
      (do
        Lower.build (Builder.retypeTop .uint64)
        Lower.pushUint code
        Lower.op₀ test)
      (do
        Lower.build (Builder.retypeTop .uint64)
        Lower.pushUint code
        Lower.op₀ test) := fun _ _ =>
    R.bind R.retypeTop fun _ => R.bind R.pushUint fun _ => R.op₀
  rw [Variable.codeSteps_eq, Variable.codeSteps_eq, Relocation.steps_place]
  generalize v.steps = steps at hindex
  by_cases hown : steps = [.name "Txn"]
  · subst hown
    unfold Lower.typeTest
    rw [Relocation.asName?_expr]
    split
    · exact R.fail _ rfl
    · exact R.bind (R.op fun _ => .field rfl htype) fun _ => htail _ _
  by_cases hgroup : ∃ i, steps = [.name "TxnGroup", .index i]
  · obtain ⟨i, rfl⟩ := hgroup
    have hi := hindex i (by simp)
    unfold Lower.typeTest
    rw [Relocation.asName?_expr]
    split
    · exact R.fail _ rfl
    simp only [List.map_cons, List.map_nil, Step.map, Expr.indexCode, Relocation.constIndex?_expr]
    split
    case h_1 k hk =>
      exact R.bind (R.op fun _ => .gtxn htype (Expr.constIndex?_le k hk)) fun _ => htail _ _
    case h_2 =>
      exact R.bind hi fun _ => R.bind (R.op fun _ => .field rfl htype) fun _ => htail _ _
  · have hgroup' : ∀ i, steps ≠ [.name "TxnGroup", .index i] := fun i hi => hgroup ⟨i, hi⟩
    rw [List.map_map, Step.map_comp, Lower.typeTest_eq_fail hown hgroup',
      Lower.typeTest_eq_fail hown hgroup']
    exact R.fail _ rfl

/-! ## Expressions -/

/-- A place is read in related ways if the code of its indexes is related. -/
theorem Variable.lower_holds {v : Variable} (hv : R.Covers σ (.expr (.var v)))
    (hindex : ∀ i, .index i ∈ v.steps → R.Holds i.lower (σ.expr i).lower) :
    R.Holds (Expr.var v).lower (σ.expr (.var v)).lower := by
  rw [Amendment.expr, Expr.lower, Expr.lower, Relocation.display_place, Amendment.span_place,
    σ.start_span, Variable.codeSteps_eq, Variable.codeSteps_eq, Relocation.steps_place]
  refine R.load v.display (fun n hn => ?_) hindex
  obtain ⟨span, rfl⟩ := Variable.eq_name_of_load hn
  refine hv.reads span.start ?_
  rw [Node.nameOffsets_expr, Expr.nameOffsets_var, Variable.nameOffsets_name]
  exact List.mem_singleton_self _

/-- A test of a type or an operator on values, if the code of the operands is related. -/
theorem Expr.lower_operator_holds {o : BinaryOperator} (ho : o.uintOpcode?.isSome) {l r : Expr}
    (s : Span) (hl : R.Holds l.lower (σ.expr l).lower) (hr : R.Holds r.lower (σ.expr r).lower)
    (hindex : ∀ v, l = .var v → ∀ i, .index i ∈ v.steps → R.Holds i.lower (σ.expr i).lower) :
    R.Holds (Expr.binary o l r s).lower (σ.expr (.binary o l r s)).lower := by
  rw [Amendment.expr, Expr.lower_operator ho, Expr.lower_operator ho]
  refine R.bind (R.isTypeName (σ.asName?_expr r)) fun named => ?_
  split
  · have htext := σ.display_expr (.binary o l r s)
    rw [Amendment.expr] at htext
    rw [htext]
    cases l with
    | var v => exact R.typeTest o r _ (hindex v rfl)
    | _ =>
      unfold Lower.typeTest
      rw [Relocation.asName?_expr]
      split <;> exact R.fail _ rfl
  · exact R.bind hl fun _ => R.bind hr fun _ => R.operator

/-- A choice without arms has no code, wherever it stands. -/
theorem Expr.lower_noArms_holds (l : Expr) {r : Expr} (s : Span)
    (hr : ∀ t e s', r ≠ .binary .colon t e s') :
    R.Holds (Expr.binary .ternary l r s).lower (σ.expr (.binary .ternary l r s)).lower := by
  have hlower : ∀ l r s, (∀ t e s', r ≠ .binary .colon t e s') →
      (Expr.binary .ternary l r s).lower =
        Lower.fail (.missingArm (Expr.binary .ternary l r s).display) := by
    intro l r s hr
    rw [Expr.lower]
    exact hr
  have hr' : ∀ t e s', σ.expr r ≠ .binary .colon t e s' := by
    cases r with
    | binary o t e s' =>
      rintro t' e' s'' h
      cases h
      exact hr t e s' rfl
    | _ => exact nofun
  have htext := σ.display_expr (.binary .ternary l r s)
  rw [Amendment.expr] at htext
  rw [Amendment.expr, hlower l r s hr, hlower _ _ _ hr', htext]
  exact R.fail _ rfl

mutual

/-- The relation holds of the code of an expression. -/
theorem Expr.lower_holds : ∀ e : Expr, R.Covers σ (.expr e) → R.Holds e.lower (σ.expr e).lower
  | .uint v s, _ => by
    rw [Amendment.expr, σ.constant_eq, Expr.lower, Expr.lower]
    exact R.pushUint
  | .bytes v s, _ => by
    rw [Amendment.expr, Expr.lower, Expr.lower]
    exact R.op fun _ => .pushbytes
  | .unary o e s, h => by
    rw [Amendment.expr, Expr.lower, Expr.lower]
    exact R.bind (e.lower_holds (h.child (List.mem_singleton_self _))) fun _ => R.unaryOperator
  | .binary o l r s, h => by
    obtain rfl | rfl | rfl | rfl | rfl | ho := o.forms
    · rw [Amendment.expr, Expr.lower, Expr.lower]
      exact R.store (σ.asName?_expr l) (σ.display_expr l) (r.lower_holds h.right)
    · by_cases hr : ∃ t e s', r = .binary .colon t e s'
      · obtain ⟨t, e, s', rfl⟩ := hr
        rw [Amendment.expr, Amendment.expr, Expr.lower, Expr.lower]
        exact R.choice (l.lower_holds h.left) (t.lower_holds h.right.left)
          (e.lower_holds h.right.right)
      · exact Expr.lower_noArms_holds R l s fun t e s' h => hr ⟨t, e, s', h⟩
    · rw [Amendment.expr, Expr.lower, Expr.lower]
      exact R.cast (σ.asName?_expr r) (σ.display_expr r) (l.lower_holds h.left)
    · rw [Amendment.expr, Expr.lower, Expr.lower]
      exact R.fail _ rfl
    · rw [Amendment.expr, Expr.lower, Expr.lower]
      exact R.fail _ rfl
    · refine Expr.lower_operator_holds R ho s (l.lower_holds h.left) (r.lower_holds h.right)
        fun v hv => ?_
      subst hv
      exact v.steps_holds (h.left.child (List.mem_singleton_self _))
  | .call f args s, h => by
    by_cases hf : f = Builtin.hashFunction.1
    · match args with
      | [input, algorithm] =>
        simp only [Amendment.expr, Amendment.exprs, Expr.lower, if_pos hf]
        exact R.hash (input.lower_holds (h.child List.mem_cons_self)) (σ.asName?_expr algorithm)
          (σ.display_expr algorithm)
      | [] | [_] | _ :: _ :: _ :: _ =>
        simp only [Amendment.expr, Amendment.exprs, Expr.lower, if_pos hf]
        exact R.fail _ rfl
    · have hcallee : f ∈ (Node.expr (.call f args s)).called := by
        rw [Node.called_expr, Expr.called_call]
        exact List.mem_cons_self
      have hargs := Expr.lowerArguments_holds f args fun e he => h.child (List.mem_map_of_mem he)
      rw [Amendment.expr, Expr.lower_call hf, Expr.lower_call hf, Amendment.exprs_eq,
        List.length_map]
      exact R.call (h.calls f hcallee) (σ.exprs_eq args ▸ hargs)
  | .var v, h => Variable.lower_holds R h (v.steps_holds (h.child (List.mem_singleton_self _)))
termination_by e => sizeOf e

theorem Expr.lowerArguments_holds (callee : String) : ∀ es : List Expr,
    (∀ e ∈ es, R.Covers σ (.expr e)) →
    R.Holds (Expr.lowerArguments callee es) (Expr.lowerArguments callee (σ.exprs es))
  | [], _ => by
    rw [Amendment.exprs, Expr.lowerArguments]
    exact R.pure _
  | e :: es, h => by
    obtain ⟨he, hes⟩ := List.forall_mem_cons.1 h
    rw [Amendment.exprs, Expr.lowerArguments, Expr.lowerArguments]
    exact R.bind (R.argument (σ.display_expr e) (e.lower_holds he)) fun _ =>
      Expr.lowerArguments_holds callee es hes
termination_by es => sizeOf es

/-- The relation holds of the code of the indexes of a place. -/
theorem Variable.steps_holds : ∀ v : Variable, R.Covers σ (.place v) → ∀ i, .index i ∈ v.steps →
    R.Holds i.lower (σ.expr i).lower
  | .name n s, _, i, hi => by simp [Variable.steps] at hi
  | .index base j s, h, i, hi => by
    rw [Variable.steps, List.mem_append, List.mem_singleton] at hi
    rcases hi with hi | hi
    · exact base.steps_holds (h.child List.mem_cons_self) i hi
    · cases hi
      exact j.lower_holds (h.child (List.mem_cons_of_mem _ (List.mem_singleton_self _)))
  | .member owner m s, h, i, hi => by
    rw [Variable.steps, List.mem_append, List.mem_singleton] at hi
    rcases hi with hi | hi
    · exact owner.steps_holds (h.child (List.mem_singleton_self _)) i hi
    · cases hi
termination_by v => sizeOf v

end

/-- An expression whose value is not wanted. -/
theorem Expr.lowerStmt_holds {e : Expr} (h : R.Covers σ (.expr e)) :
    R.Holds e.lowerStmt (σ.expr e).lowerStmt := by
  have hplain : R.Holds
      (do
        let depth := (← Lower.builder).depth
        e.lower
        Lower.popMany ((← Lower.builder).depth - depth))
      (do
        let depth := (← Lower.builder).depth
        (σ.expr e).lower
        Lower.popMany ((← Lower.builder).depth - depth)) :=
    R.builder_bind fun _ _ _ => R.bind (e.lower_holds R h) fun _ =>
      R.builder_bind fun _ _ _ => R.popMany _
  cases e with
  | binary o l r s =>
    cases o with
    | assign =>
      rw [Amendment.expr, Expr.lowerStmt, Expr.lowerStmt]
      exact R.store (σ.asName?_expr l) (σ.display_expr l) (r.lower_holds R h.right)
    | _ => exact hplain
  | _ => exact hplain

end Expressions

/-! ## Relocated conditions -/

namespace Relocation

open Amendment

variable {σ : Relocation}

theorem ownExpressions_stmt (s : Stmt) :
    Stmt.ownExpressions (σ.stmt s) = (Stmt.ownExpressions s).map σ.expr := by
  cases s with
  | ifElse c t e s => cases e <;> rfl
  | switch e cs d s =>
    have hvalues : (cs.map σ.case).flatMap Case.values =
        (cs.flatMap Case.values).map σ.expr := by
      rw [List.flatMap_map, List.map_flatMap]
      rfl
    cases d <;> simp [Amendment.stmt, Stmt.ownExpressions, hvalues]
  | leave kind value s => cases value <;> rfl
  | _ => rfl

theorem assigned_expr (e : Expr) : (σ.expr e).assigned = e.assigned := by
  refine σ.found_node (fun n => ?_) (.expr e)
  cases n with
  | expr e =>
    cases e with
    | binary o l r s =>
      cases o with
      | assign => exact asName?_expr σ l
      | _ => rfl
    | _ => rfl
  | _ => rfl

theorem assignedNames_stmts (ss : List Stmt) :
    Stmt.assignedNames (ss.map σ.stmt) = Stmt.assignedNames ss := by
  rw [Stmt.assignedNames_eq, Stmt.assignedNames_eq, List.flatMap_map]
  simp only [ownExpressions_stmt]
  rw [← List.map_flatMap, List.flatMap_map]
  simp only [assigned_expr]

/-- The test of a case. -/
theorem condition_case (tested : Expr) (c : Case) :
    (σ.case c).condition (σ.expr tested) = σ.expr (c.condition tested) := by
  have htests : ∀ (vs : List Expr) (e : Expr), (vs.map σ.expr).foldl
      (fun e v => .binary .or e (.binary .eq (σ.expr tested) v v.span) (σ.span c.span))
        (σ.expr e) =
      σ.expr (vs.foldl (fun e v => .binary .or e (.binary .eq tested v v.span) c.span) e) := by
    intro vs
    induction vs with
    | nil => exact fun _ => rfl
    | cons v vs ih =>
      intro e
      rw [List.map_cons, List.foldl_cons, List.foldl_cons, span_expr]
      exact ih (.binary .or e (.binary .eq tested v v.span) c.span)
  obtain ⟨values, b, s⟩ := c
  cases values with
  | nil => exact congrArg (Expr.uint · (σ.span s)) (σ.constant_eq s.main 0).symm
  | cons v vs =>
    have hfirst := htests vs (.binary .eq tested v v.span)
    rw [expr, ← span_expr] at hfirst
    exact hfirst

theorem testedNames_cases (tested : Expr) (cs : List Case) :
    Case.testedNames (σ.expr tested) (σ.cases cs) = Case.testedNames tested cs := by
  rw [cases_eq]
  cases cs with
  | nil => rfl
  | cons c cs =>
    rw [List.map_cons, Case.testedNames, Case.testedNames, condition_case]
    exact assignedNames_stmts [.expr (c.condition tested)]

end Relocation

namespace Lower.Relation

variable {env env' : LowerEnv} {calls : String → Prop} (R : Lower.Relation env env' calls)
  {σ : Relocation}

theorem switch {cs : List Case} {chain chain' otherwise otherwise' : Option (Lower Bool)}
    (hchain : Option.Rel R.Holds chain chain')
    (hotherwise : chain = none → Option.Rel R.Holds otherwise otherwise') :
    R.Holds (Lower.switch cs chain otherwise)
      (Lower.switch (cs.map σ.case) chain' otherwise') := by
  have hempty : ((cs.map σ.case).any fun c => c.values.isEmpty) =
      cs.any fun c => c.values.isEmpty := by
    rw [List.any_map]
    congr 1
    funext c
    exact List.isEmpty_map
  unfold Lower.switch
  rw [hempty]
  refine R.ite Iff.rfl (R.fail_bind rfl) fun _ => ?_
  cases hchain with
  | some hchain => exact hchain
  | none =>
    cases hotherwise rfl with
    | some h => exact h
    | none => exact R.pure _

theorem leaving {kind : Leaving} {value : Option Expr} {span : Span}
    (h : R.Covers σ (.stmt (.leave kind value span))) :
    R.Holds (Lower.leaving kind value) (Lower.leaving kind (value.map σ.expr)) := by
  have hvalue : ∀ e ∈ value, R.Holds e.lower (σ.expr e).lower := by
    intro e he
    cases he
    exact e.lower_holds R (h.child (by simp [Node.children, Node.ofStmt]))
  cases kind with
  | throwing =>
    match value with
    | some (.bytes m s) =>
      refine R.read_bind ?_
      rw [R.entry]
      split
      · exact R.bind (R.op fun _ => .pushbytes) fun _ => R.bind R.op₀ fun _ => R.op₀
      case isFalse henv =>
        refine R.bind (h.throws (by simpa using henv) m ?_) fun _ => R.op₀
        rw [Node.found_eq]
        exact List.mem_append_left _ List.mem_cons_self
    | none | some (.uint ..) | some (.unary ..) | some (.binary ..) | some (.call ..)
    | some (.var ..) => exact R.fail _ rfl
  | exiting =>
    cases value with
    | none => exact R.fail _ rfl
    | some e => exact R.bind (hvalue e rfl) fun _ => R.op₀
  | returning =>
    refine R.get_bind fun s version metrics => ?_
    dsimp only
    cases value with
    | none =>
      dsimp only [Option.map_none]
      split
      · exact R.bind R.pushUint fun _ => R.op₀
      · exact R.builder_bind fun _ _ _ => R.bind (R.popMany _) fun _ => R.op₀
    | some e =>
      dsimp only [Option.map_some]
      split
      · exact R.bind (hvalue e rfl) fun _ => R.op₀
      · exact R.bind (hvalue e rfl) fun _ => R.bind R.dropBelowTop fun _ => R.op₀

end Lower.Relation

/-! ## Statements -/

mutual

/-- The words of constructs that stand one inside the other in a statement, outermost first. -/
inductive Stmt.Nests : Stmt → List String → Prop
  | thenBlock {c t e span chain} : Block.Nests t chain →
    Stmt.Nests (.ifElse c t e span) ("if" :: chain)
  | elseBlock {c t e span chain} : Block.Nests e chain →
    Stmt.Nests (.ifElse c t (some e) span) ("if" :: chain)
  | whileDo {c b span chain} : Block.Nests b chain →
    Stmt.Nests (.whileDo c b span) ("while" :: chain)
  | doWhile {b c span chain} : Block.Nests b chain → Stmt.Nests (.doWhile b c span) ("do" :: chain)
  | switch {e cs d span} : Stmt.Nests (.switch e cs d span) ["switch"]
  | link {e cs d span chain} : Case.Nests d cs chain →
    Stmt.Nests (.switch e cs d span) ("switch" :: chain)
  | leave {kind value span} : Stmt.Nests (.leave kind value span) [kind.word]
  | expr {e} : Stmt.Nests (.expr e) []

/-- The constructs in a block, or none. -/
inductive Block.Nests : Block → List String → Prop
  | here {b} : Block.Nests b []
  | stmt {s stmts span chain} : s ∈ stmts → Stmt.Nests s chain → Block.Nests ⟨stmts, span⟩ chain

/-- The constructs in the cases of a switch, each of which is a conditional around those after it,
and in what is done in all other cases. -/
inductive Case.Nests : Option Block → List Case → List String → Prop
  | otherwise {d chain} : Block.Nests d chain → Case.Nests (some d) [] chain
  | block {d values b span cs chain} : Block.Nests b chain →
    Case.Nests d (⟨values, b, span⟩ :: cs) ("if" :: chain)
  | next {d c cs chain} : Case.Nests d cs chain → Case.Nests d (c :: cs) ("if" :: chain)

end

/-- Only of no cases there is no chain. -/
theorem Case.eq_nil_of_lowerChain {tested : Expr} {otherwise : Option (Lower Bool)} {cs : List Case}
    (h : Case.lowerChain tested otherwise cs = none) : cs = [] := by
  cases cs with
  | nil => rfl
  | cons c cs =>
    cases c
    rw [Case.lowerChain] at h
    cases h

/-- The code of a function, without its label. -/
def Function.lowerBody (f : Function) (main : Bool) : Lower Unit := do
  Lower.startFunction f.params main
  unless ← f.body.lower do
    f.lowerEnd main

/-- A subroutine has its head as a comment and its name as a label. -/
theorem Function.lower_subroutine (f : Function) :
    f.lower false = (do
      Lower.build (Builder.comment (" " ++ f.display))
      Lower.build (Builder.label f.name)
      Lower.build (Builder.count fun m => { m with subroutines := m.subroutines + 1 })
      f.lowerBody false) := rfl

/-- Relations between steps, one for each condition on the constructs in which a step may fail, seen
from the step. -/
structure Lower.Relations (env env' : LowerEnv) (calls : String → Prop) where
  on : (List String → Prop) → Lower.Relation env env' calls
  within : ∀ {α : Type} {label : String} {x x' : Lower α} {C : List String → Prop}, C [label] →
    (on fun chain => C (label :: chain)).Holds x x' →
    (on C).Holds (Lower.within label x) (Lower.within label x')

/-- A relation for which it does not matter where a step may fail. -/
def Lower.Relation.everywhere {env env' : LowerEnv} {calls : String → Prop}
    (R : Lower.Relation env env' calls)
    (h : ∀ {α : Type} {label : String} {x x' : Lower α}, R.Holds x x' →
      R.Holds (Lower.within label x) (Lower.within label x')) :
    Lower.Relations env env' calls :=
  ⟨fun _ => R, fun _ => h⟩

section Statements

variable {env env' : LowerEnv} {calls : String → Prop} (R : Lower.Relations env env' calls)
  {σ : Relocation}

mutual

/-- The relation holds of the code of a statement. -/
theorem Stmt.lower_holds : ∀ (s : Stmt) (C : List String → Prop),
    (∀ C, (R.on C).Covers σ (.stmt s)) → (∀ chain, s.Nests chain → C chain) →
    (R.on C).Holds s.lower (σ.stmt s).lower
  | .ifElse c t none _, C, h, hC => by
    have hc := c.lower_holds (R.on fun chain => C ("if" :: chain)) ((h _).child List.mem_cons_self)
    have hthen := t.lower_holds _ (fun C => (h C).child (by simp [Node.children, Node.ofStmt]))
      fun _ ht => hC _ (.thenBlock ht)
    rw [Amendment.stmt, Stmt.lower, Stmt.lower]
    exact R.within (hC _ (.thenBlock .here)) ((R.on _).ifElse hc hthen .none)
  | .ifElse c t (some e) _, C, h, hC => by
    have hc := c.lower_holds (R.on fun chain => C ("if" :: chain)) ((h _).child List.mem_cons_self)
    have hthen := t.lower_holds _ (fun C => (h C).child (by simp [Node.children, Node.ofStmt]))
      fun _ ht => hC _ (.thenBlock ht)
    have helse := e.lower_holds _ (fun C => (h C).child (by simp [Node.children, Node.ofStmt]))
      fun _ he => hC _ (.elseBlock he)
    rw [Amendment.stmt, Stmt.lower, Stmt.lower]
    exact R.within (hC _ (.thenBlock .here)) ((R.on _).ifElse hc hthen (.some helse))
  | .whileDo c b _, C, h, hC => by
    have hc := c.lower_holds (R.on fun chain => C ("while" :: chain))
      ((h _).child List.mem_cons_self)
    have hbody := b.lower_holds _ (fun C => (h C).child (by simp [Node.children, Node.ofStmt]))
      fun _ hb => hC _ (.whileDo hb)
    rw [Amendment.stmt, Stmt.lower, Stmt.lower]
    exact R.within (hC _ (.whileDo .here)) ((R.on _).whileDo hc hbody)
  | .doWhile b c _, C, h, hC => by
    have hc := c.lower_holds (R.on fun chain => C ("do" :: chain))
      ((h _).child (by simp [Node.children, Node.ofStmt]))
    have hbody := b.lower_holds _ (fun C => (h C).child List.mem_cons_self)
      fun _ hb => hC _ (.doWhile hb)
    rw [Amendment.stmt, Stmt.lower, Stmt.lower]
    exact R.within (hC _ (.doWhile .here)) ((R.on _).doWhile hbody hc)
  | .switch e cs none _, C, h, hC => by
    have hcases : ∀ c ∈ cs, ∀ C, (R.on C).Covers σ (.case c) := fun c hc C =>
      (h C).child (by simp [Node.children, Node.ofStmt, hc])
    have hchain := Case.lowerChain_holds (fun C => (h C).child List.mem_cons_self) (d := none)
      (fun _ _ => .none) cs hcases _ fun _ hn => hC _ (.link hn)
    rw [Amendment.stmt, Stmt.lower, Stmt.lower, Amendment.cases_eq]
    exact R.within (hC _ .switch) ((R.on _).switch (σ.cases_eq cs ▸ hchain) fun _ => .none)
  | .switch e cs (some d) _, C, h, hC => by
    have hcases : ∀ c ∈ cs, ∀ C, (R.on C).Covers σ (.case c) := fun c hc C =>
      (h C).child (by simp [Node.children, Node.ofStmt, hc])
    have hother : ∀ C, (∀ chain, Case.Nests (some d) [] chain → C chain) →
        Option.Rel (R.on C).Holds (some d.lower) (some (σ.block d).lower) := fun C hC =>
      .some (d.lower_holds C (fun C => (h C).child (by simp [Node.children, Node.ofStmt]))
        fun _ hd => hC _ (.otherwise hd))
    have hchain := Case.lowerChain_holds (fun C => (h C).child List.mem_cons_self) hother cs hcases
      _ fun _ hn => hC _ (.link hn)
    rw [Amendment.stmt, Stmt.lower, Stmt.lower, Amendment.cases_eq]
    refine R.within (hC _ .switch) ((R.on _).switch (σ.cases_eq cs ▸ hchain) fun hnone => ?_)
    cases Case.eq_nil_of_lowerChain hnone
    exact hother _ fun _ hn => hC _ (.link hn)
  | .leave kind value _, C, h, hC => by
    rw [Amendment.stmt, Stmt.lower, Stmt.lower]
    exact R.within (hC _ .leave) ((R.on _).bind ((R.on _).leaving (h _)) fun _ => (R.on _).pure _)
  | .expr e, C, h, _ => by
    rw [Amendment.stmt, Stmt.lower, Stmt.lower]
    exact (R.on C).bind (e.lowerStmt_holds (R.on C) ((h C).child (List.mem_singleton_self _)))
      fun _ => (R.on C).pure _

theorem Stmt.lowerList_holds : ∀ (ss : List Stmt) (C : List String → Prop),
    (∀ s ∈ ss, ∀ C, (R.on C).Covers σ (.stmt s)) → (∀ s ∈ ss, ∀ chain, s.Nests chain → C chain) →
    (R.on C).Holds (Stmt.lowerList ss) (Stmt.lowerList (σ.stmts ss))
  | [], C, _, _ => by
    rw [Amendment.stmts, Stmt.lowerList]
    exact (R.on C).pure _
  | s :: ss, C, h, hC => by
    obtain ⟨hs, hss⟩ := List.forall_mem_cons.1 h
    obtain ⟨hCs, hCss⟩ := List.forall_mem_cons.1 hC
    rw [Amendment.stmts, Stmt.lowerList, Stmt.lowerList]
    exact (R.on C).andThen (s.lower_holds C hs hCs) (Stmt.lowerList_holds ss C hss hCss)

theorem Block.lower_holds : ∀ (b : Block) (C : List String → Prop),
    (∀ C, (R.on C).Covers σ (.block b)) → (∀ chain, b.Nests chain → C chain) →
    (R.on C).Holds b.lower (σ.block b).lower
  | ⟨stmts, _⟩, C, h, hC => by
    have hstmts := Stmt.lowerList_holds stmts C
      (fun s hs C => (h C).child (List.mem_map_of_mem hs)) fun s hs _ hn => hC _ (.stmt hs hn)
    rw [Amendment.block, Block.lower, Block.lower, Amendment.stmts_eq,
      Relocation.assignedNames_stmts]
    exact (R.on C).block (σ.stmts_eq stmts ▸ hstmts)

/-- What is done in all other cases stands inside the conditionals of all cases. -/
theorem Case.lowerChain_holds {tested : Expr} (htested : ∀ C, (R.on C).Covers σ (.expr tested))
    {d : Option Block} {otherwise otherwise' : Option (Lower Bool)}
    (ho : ∀ C, (∀ chain, Case.Nests d [] chain → C chain) →
      Option.Rel (R.on C).Holds otherwise otherwise') :
    ∀ cs : List Case, (∀ c ∈ cs, ∀ C, (R.on C).Covers σ (.case c)) → ∀ C : List String → Prop,
      (∀ chain, Case.Nests d cs chain → C chain) →
      Option.Rel (R.on C).Holds (Case.lowerChain tested otherwise cs)
        (Case.lowerChain (σ.expr tested) otherwise' (σ.cases cs))
  | [], _, _, _ => by
    rw [Amendment.cases, Case.lowerChain, Case.lowerChain]
    exact .none
  | ⟨values, block, span⟩ :: cs, h, C, hC => by
    obtain ⟨hc, hcs⟩ := List.forall_mem_cons.1 h
    have hblock := block.lower_holds (fun chain => C ("if" :: chain))
      (fun C => (hc C).child (by simp [Node.children])) fun _ hb => hC _ (.block hb)
    have hrest := Case.lowerChain_holds htested ho cs hcs (fun chain => C ("if" :: chain))
      fun _ hn => hC _ (.next hn)
    have hcondition := σ.condition_case tested ⟨values, block, span⟩
    rw [Amendment.case] at hcondition
    rw [Amendment.cases, Case.lowerChain, Case.lowerChain, hcondition]
    refine .some (R.within (hC _ (.block .here))
      ((R.on _).ifElse (Expr.lower_holds (R.on _) _ (.condition (htested _) (hc _))) hblock ?_))
    -- The alternative is the rest of the chain, in a block of its own, or the default.
    rw [Relocation.testedNames_cases]
    generalize hlink : Case.lowerChain tested otherwise cs = chain at hrest
    generalize Case.lowerChain (σ.expr tested) otherwise' (σ.cases cs) = chain' at hrest
    cases hrest with
    | none =>
      cases Case.eq_nil_of_lowerChain hlink
      exact ho _ fun _ hn => hC _ (.next hn)
    | some hrest => exact .some ((R.on _).block ((R.on _).andThen hrest ((R.on _).pure _)))

end

/-- The relation holds of the code of a function, without its label. -/
theorem Function.lowerBody_holds (f : Function) {main : Bool} {C : List String → Prop}
    (h : ∀ C, (R.on C).Covers σ (.function f)) (hC : ∀ chain, f.body.Nests chain → C chain) :
    (R.on C).Holds (f.lowerBody main) ((σ.function f).lowerBody main) := by
  have hend : (R.on C).Holds (f.lowerEnd main) ((σ.function f).lowerEnd main) := by
    unfold Function.lowerEnd
    rw [Relocation.returnsValue_function]
    split
    · exact (R.on C).bind (R.on C).pushUint fun _ => (R.on C).op₀
    split
    · exact (R.on C).op₀
    · exact (R.on C).builder_bind fun _ _ _ => (R.on C).bind ((R.on C).popMany _) fun _ =>
        (R.on C).op₀
  have hstart : (R.on C).Holds (Lower.startFunction f.params main)
      (Lower.startFunction f.params main) :=
    (R.on C).bind ((R.on C).steady (.restore _)) fun _ =>
      (R.on C).update (fun _ => ⟨rfl, rfl, rfl⟩) fun _ _ _ => rfl
  have hbody : (R.on C).Holds f.body.lower (σ.block f.body).lower :=
    f.body.lower_holds R C (fun C => (h C).child List.mem_cons_self) hC
  refine (R.on C).bind hstart fun _ => (R.on C).bind hbody fun ends => ?_
  split
  · exact (R.on C).pure _
  · exact hend

end Statements

end ContractCompiler
