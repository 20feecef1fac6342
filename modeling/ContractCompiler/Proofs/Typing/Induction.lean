import ContractCompiler.Proofs.Lowering.Places
import ContractCompiler.Proofs.Syntax.ExprProvenance
import ContractCompiler.Proofs.Syntax.Relocation
import ContractCompiler.Proofs.Typing.Acceptance

/-!
# Induction over checking

A program can be checked twice: relocated, in another mode, or by those who know other signatures. What
holds of single steps of two checks and is kept when steps are put together holds of the checks of every
expression and every statement. A property of the steps of one check is such a relation, which says
nothing of the other check.
-/

namespace ContractCompiler

open TypeTable (isBasic isInteger)

/-- An environment with another mode and another table of what is known of the functions. -/
abbrev CheckEnv.as (env : CheckEnv) (mode : Mode) (sigs : List (String × Signature)) : CheckEnv :=
  { env with mode, signatures := sigs }

/-- Two tables know the same of the functions that are called below a node. -/
def AgreeOnCalled (sigs sigs' : List (String × Signature)) (n : Node) : Prop :=
  ∀ f ∈ n.called, sigs'.lookup f = sigs.lookup f

/-- The places of the names from a node on downwards. -/
def Node.nameOffsets (n : Node) : List Nat :=
  n.found Node.nameOffset?

theorem Node.nameOffsets_expr (e : Expr) : (Node.expr e).nameOffsets = e.nameOffsets := rfl

theorem Node.nameOffsets_children {n : Node} (h : n.nameOffset? = none) :
    n.nameOffsets = n.children.flatMap Node.nameOffsets := by
  rw [nameOffsets, found_eq, h]
  rfl

/-! ## Relations between checks -/

/-- A relation between steps of a check in one mode and of a relocated one in another, which holds of
the smallest steps and is kept when steps are put together. Reads are noted at places that `Reads`
holds of. -/
structure Check.Relation (σ : Relocation) (mode mode' : Mode) where
  Holds : {α : Type} → Check α → Check α → Prop
  Reads : Nat → Prop
  pure : ∀ {α : Type} {a : α}, Holds (Pure.pure a : Check α) (Pure.pure a)
  fail : ∀ {α : Type} {span : Span} {fault : TypeFault},
    Holds (Check.fail span fault : Check α) (Check.fail (σ.span span) fault)
  bind : ∀ {α β : Type} {x x' : Check α} {f f' : α → Check β}, Holds x x' →
    (∀ a, Holds (f a) (f' a)) → Holds (x >>= f) (x' >>= f')
  /-- A guard that asks for entries. -/
  refuseEntry : ∀ {α : Type} {c c' : Prop} [Decidable c] [Decidable c'] {span : Span}
    {fault : TypeFault} {x x' : Check α}, (mode' = mode → (c ↔ c')) → Holds x x' →
    Holds (if c then (do let _ ← (Check.fail span fault : Check Unit); x) else x)
      (if c' then (do let _ ← (Check.fail (σ.span span) fault : Check Unit); x') else x')
  forbidEntry : ∀ {α : Type} {c c' : Prop} [Decidable c] [Decidable c'] {span : Span}
    {fault : TypeFault} {a : α}, (mode' = mode → (c ↔ c')) →
    Holds (if c then Check.fail span fault else Pure.pure a)
      (if c' then Check.fail (σ.span span) fault else Pure.pure a)
  lookup? : ∀ {name : String}, Holds (Check.lookup? name) (Check.lookup? name)
  /-- A change of the names in scope, with so many more locals. -/
  scopes : ∀ {f : Scopes → Scopes} {n : Nat},
    Holds (modify fun s => { s with scopes := f s.scopes, locals := s.locals + n } : Check Unit)
      (modify fun s => { s with scopes := f s.scopes, locals := s.locals + n })
  noteRead : ∀ {offset : Nat} {type : StackType}, Reads offset →
    Holds (Check.noteRead offset type) (Check.noteRead (σ.offset offset) type)

/-- A node below which reads are noted where they may be, and two tables know the same of the functions
that are called. -/
structure Check.Relation.Covers {σ : Relocation} {mode mode' : Mode}
    (R : Check.Relation σ mode mode') (sigs sigs' : List (String × Signature)) (n : Node) :
    Prop where
  calls : AgreeOnCalled sigs sigs' n
  reads : ∀ o ∈ n.nameOffsets, R.Reads o

namespace Check.Relation

variable {σ : Relocation} {mode mode' : Mode} (R : Check.Relation σ mode mode') {α : Type}
  {c : Prop} [Decidable c] {span : Span} {fault : TypeFault} {a : α} {x x' : Check α}

theorem Covers.child {R : Check.Relation σ mode mode'} {sigs sigs' : List (String × Signature)}
    {n c : Node} (h : R.Covers sigs sigs' n) (hc : c ∈ n.children) : R.Covers sigs sigs' c where
  calls f hf := h.calls f (Node.found_subset _ hc hf)
  reads o ho := h.reads o (Node.found_subset _ hc ho)

/-- A guard that both checks have. -/
theorem refuse (hx : R.Holds x x') :
    R.Holds (if c then (do let _ ← (Check.fail span fault : Check Unit); x) else x)
      (if c then (do let _ ← (Check.fail (σ.span span) fault : Check Unit); x') else x') :=
  R.refuseEntry (fun _ => Iff.rfl) hx

/-- A guard that both checks have. -/
theorem guard (hx : R.Holds x x') :
    R.Holds (if c then x else (do let _ ← (Check.fail span fault : Check Unit); x))
      (if c then x' else (do let _ ← (Check.fail (σ.span span) fault : Check Unit); x')) := by
  split
  · exact hx
  · exact R.bind R.fail fun _ => hx

/-- A guard at the end of both checks. -/
theorem forbid : R.Holds (if c then Check.fail span fault else Pure.pure a)
    (if c then Check.fail (σ.span span) fault else Pure.pure a) :=
  R.forbidEntry fun _ => Iff.rfl

/-- A guard at the end of both checks. -/
theorem ensure : R.Holds (if c then Pure.pure a else Check.fail span fault)
    (if c then Pure.pure a else Check.fail (σ.span span) fault) := by
  split
  · exact R.pure
  · exact R.fail

theorem enter {b : Boundary} : R.Holds (Check.enter b) (Check.enter b) :=
  R.scopes (f := fun s => s.push b) (n := 0)

theorem leave : R.Holds Check.leave Check.leave :=
  R.scopes (f := fun s => s.pop) (n := 0)

theorem declareLocal {name : String} {type : TypeId} :
    R.Holds (Check.declareLocal name type) (Check.declareLocal name type) :=
  R.scopes (f := fun s => s.declare name (.var type)) (n := 1)

end Check.Relation

namespace Relocation

open Amendment

variable {σ : Relocation} {env : CheckEnv} {mode : Mode} {sigs : List (String × Signature)}
  (R : Check.Relation σ env.mode mode)

theorem isEntry_as (hmode : mode = env.mode) (name : String) :
    (env.as mode sigs).isEntry name = env.isEntry name := by
  rw [CheckEnv.isEntry, CheckEnv.isEntry, hmode]

/-! ## Rules for operators -/

theorem holds_expectValue (e : Expr) (τ : TypeId) :
    R.Holds (expectValue e τ) (expectValue (σ.expr e) τ) := by
  unfold expectValue
  rw [span_expr]
  exact R.forbid

theorem holds_expectCondition (e : Expr) (τ : TypeId) :
    R.Holds (expectCondition env e τ) (expectCondition (env.as mode sigs) (σ.expr e) τ) := by
  unfold expectCondition
  rw [span_expr]
  exact R.bind (holds_expectValue R e τ) fun _ => R.ensure

theorem holds_typeOperand (e : Expr) :
    R.Holds (e.typeOperand? env) ((σ.expr e).typeOperand? (env.as mode sigs)) := by
  unfold Expr.typeOperand?
  rw [asName?_expr]
  split
  · exact R.pure
  · refine R.bind R.lookup? fun f => ?_
    split
    · exact R.pure
    · exact R.pure

theorem holds_operatorType (o : BinaryOperator) (span : Span) (l r : TypeId) :
    R.Holds (operatorType env o span l r)
      (operatorType (env.as mode sigs) o (σ.span span) l r) :=
  R.refuse (R.refuse (R.guard R.pure))

theorem holds_castType (l r : Expr) (span : Span) (τ : TypeId) :
    R.Holds (castType env l r span τ)
      (castType (env.as mode sigs) (σ.expr l) (σ.expr r) (σ.span span) τ) := by
  refine R.bind (holds_typeOperand R r) fun target => ?_
  cases target with
  | none =>
    dsimp only
    rw [span_expr]
    exact R.fail
  | some target =>
    dsimp only
    rw [display_expr]
    exact R.ensure

theorem holds_typeTestType (l r : Expr) (span : Span) (τ τ' : TypeId) :
    R.Holds (typeTestType env l r span τ τ')
      (typeTestType (env.as mode sigs) (σ.expr l) (σ.expr r) (σ.span span) τ τ') := by
  unfold typeTestType
  rw [display_expr, span_expr]
  exact R.refuse (R.refuse R.pure)

theorem holds_assignTo (name : String) (span : Span) {x x' : Check TypeId}
    (hx : R.Holds x x') :
    R.Holds (assignTo env name span x)
      (assignTo (env.as mode sigs) name (σ.span span) x') := by
  refine R.bind R.lookup? fun f => ?_
  split
  · exact R.bind hx fun τ => R.guard (R.bind R.declareLocal fun _ => R.pure)
  · exact R.refuse (R.bind hx fun τ => R.guard R.pure)

theorem holds_expectAlgorithm (e : Expr) :
    R.Holds (expectAlgorithm env e) (expectAlgorithm (env.as mode sigs) (σ.expr e)) := by
  unfold expectAlgorithm
  rw [asName?_expr, span_expr]
  cases e.asName? with
  | none => exact R.bind R.pure fun _ => R.ensure
  | some n => exact R.bind R.lookup? fun _ => R.ensure

/-- An assignment is checked alike if its value is. -/
theorem holds_assign (l : Expr) {r : Expr} (s : Span)
    (hr : R.Holds (r.check env) ((σ.expr r).check (env.as mode sigs))) :
    R.Holds ((Expr.binary .assign l r s).check env)
      ((σ.expr (.binary .assign l r s)).check (env.as mode sigs)) := by
  cases l with
  | var v =>
    cases v with
    | name n s' =>
      rw [expr, expr, place, Expr.check, Expr.check]
      exact holds_assignTo R n _ (R.bind hr fun τ => holds_expectValue R r τ)
    | _ => exact R.fail
  | _ => exact R.fail

/-- A choice without arms is refused, wherever it stands. -/
theorem holds_noArms (l : Expr) {r : Expr} (s : Span) (hr : ∀ t e s', r ≠ .binary .colon t e s') :
    R.Holds ((Expr.binary .ternary l r s).check env)
      ((σ.expr (.binary .ternary l r s)).check (env.as mode sigs)) := by
  cases r with
  | binary o t e s' =>
    cases o with
    | colon => exact absurd rfl (hr t e s')
    | _ => exact R.fail
  | _ => exact R.fail

/-! ## Places -/

theorem steps_place (v : Variable) : (σ.place v).steps = v.steps.map (Step.map σ.expr) := by
  cases v with
  | name n s => rfl
  | index base i s =>
    rw [place, Variable.steps, Variable.steps, steps_place base, List.map_append]
    rfl
  | member owner m s =>
    rw [place, Variable.steps, Variable.steps, steps_place owner, List.map_append]
    rfl

@[simp] theorem isLoadable_place (v : Variable) : (σ.place v).isLoadable = v.isLoadable := by
  rw [Variable.isLoadable, steps_place, Load.ofSteps?_map_eq, Option.isSome_map,
    Variable.isLoadable]

@[simp] theorem isTransaction_place (v : Variable) :
    (Expr.var (σ.place v)).isTransaction = (Expr.var v).isTransaction := by
  simp only [Expr.isTransaction, steps_place]
  generalize v.steps = steps
  rcases steps with _ | ⟨n | i, _ | ⟨m | j, _ | ⟨step, steps⟩⟩⟩
  case cons.name.cons.index.nil =>
    by_cases hn : n = "TxnGroup"
    · subst hn
      rfl
    · simp [Step.map, hn]
  all_goals simp [Step.map]

/-! ## Expressions -/

/-- A test of a type or an operator on values is checked alike if its operands are. -/
theorem holds_operator {o : BinaryOperator} (ho : o.uintOpcode?.isSome) {l r : Expr} (s : Span)
    (hl : R.Holds (l.check env) ((σ.expr l).check (env.as mode sigs)))
    (hr : R.Holds (r.check env) ((σ.expr r).check (env.as mode sigs)))
    (hplace : ∀ v, l = .var v →
      R.Holds (v.check env) ((σ.place v).check (env.as mode sigs))) :
    R.Holds ((Expr.binary o l r s).check env)
      ((σ.expr (.binary o l r s)).check (env.as mode sigs)) := by
  rw [expr, Expr.check, Expr.check]
  rotate_left
  iterate 16 (intros; subst_vars; cases ho)
  refine R.bind ?_ fun target => ?_
  · split
    · exact holds_typeOperand R r
    · exact R.pure
  cases target with
  | none =>
    refine R.bind hl fun τl => R.bind (holds_expectValue R l τl) fun τl => ?_
    refine R.bind hr fun τr => R.bind (holds_expectValue R r τr) fun τr => ?_
    exact holds_operatorType R o _ τl τr
  | some target =>
    cases l with
    | var v =>
      simp only [expr, isTransaction_place, span_place]
      split
      · exact R.bind (hplace v rfl) fun f => holds_typeTestType R (.var v) r _ f.type target
      · exact R.fail
    | _ => exact R.fail

/-- A member or an element is checked alike if the place is. -/
theorem holds_access (v : Variable) (hname : ∀ n s, v ≠ .name n s)
    (hplace : R.Holds (v.check env) ((σ.place v).check (env.as mode sigs))) :
    R.Holds ((Expr.var v).check env) ((σ.expr (.var v)).check (env.as mode sigs)) := by
  have hcheck : ∀ (env : CheckEnv) (w : Variable), (∀ n s, w ≠ .name n s) →
      (Expr.var w).check env = (do
        let field ← w.check env
        unless w.isLoadable do
          Check.fail w.span (.unreadable w.display)
        return field.type) := by
    intro env w hw
    cases w with
    | name n s => exact absurd rfl (hw n s)
    | _ => rfl
  have hname' : ∀ n s, σ.place v ≠ .name n s := by
    cases v with
    | name n s => exact absurd rfl (hname n s)
    | _ => exact nofun
  rw [expr, hcheck env v hname, hcheck _ _ hname', isLoadable_place, display_place, span_place]
  exact R.bind hplace fun f => R.guard R.pure

mutual

/-- A relocated expression is checked alike. -/
theorem holds_expr : ∀ e : Expr, R.Covers env.signatures sigs (.expr e) →
    R.Holds (e.check env) ((σ.expr e).check (env.as mode sigs))
  | .uint v s, _ => R.pure
  | .bytes v s, _ => R.pure
  | .unary o e s, h => by
    have he := holds_expr e (h.child (List.mem_singleton_self _))
    rw [expr, Expr.check, Expr.check]
    refine R.bind he fun τ => R.bind (holds_expectValue R e τ) fun τ => ?_
    cases o with
    | not => exact R.ensure
    | complement => exact R.ensure
  | .binary o l r s, h => by
    have hl := holds_expr l (h.child List.mem_cons_self)
    have hknown : R.Covers env.signatures sigs (.expr r) :=
      h.child (List.mem_cons_of_mem _ (List.mem_singleton_self _))
    have hr := holds_expr r hknown
    obtain rfl | rfl | rfl | rfl | rfl | ho := o.forms
    · exact holds_assign R l s hr
    · by_cases harms : ∃ t e s', r = .binary .colon t e s'
      · obtain ⟨t, e, s', rfl⟩ := harms
        have ht := holds_expr t (hknown.child List.mem_cons_self)
        have he := holds_expr e (hknown.child (List.mem_cons_of_mem _ (List.mem_singleton_self _)))
        rw [expr, expr, Expr.check, Expr.check]
        refine R.bind hl fun τ => R.bind (holds_expectCondition R l τ) fun _ => ?_
        refine R.bind ht fun τt => R.bind (holds_expectValue R t τt) fun τt => ?_
        refine R.bind he fun τe => R.bind (holds_expectValue R e τe) fun τe => ?_
        exact R.guard R.pure
      · exact holds_noArms R l s fun t e s' hr => harms ⟨t, e, s', hr⟩
    · rw [expr, Expr.check, Expr.check]
      refine R.bind hl fun τ => R.bind (holds_expectValue R l τ) fun τ => ?_
      exact holds_castType R l r _ τ
    · exact R.fail
    · exact R.fail
    · refine holds_operator R ho s hl hr fun v hv => ?_
      subst hv
      exact holds_place v ((h.child List.mem_cons_self).child (List.mem_singleton_self _))
  | .call callee args s, h => by
    have hcallee : sigs.lookup callee = env.signatures.lookup callee :=
      h.calls callee (by rw [Node.called_expr, Expr.called_call]; exact List.mem_cons_self)
    have hargs : ∀ e ∈ args, R.Covers env.signatures sigs (.expr e) := fun e he =>
      h.child (List.mem_map_of_mem he)
    rw [expr, Expr.check, Expr.check, hcallee, exprs_eq, List.length_map]
    dsimp only
    split
    · exact R.fail
    · refine R.refuseEntry (fun hmode => by rw [isEntry_as hmode]) (R.refuse ?_)
      split
      · exact σ.exprs_eq args ▸ holds_hash args hargs
      · exact R.bind (σ.exprs_eq args ▸ holds_arguments args hargs) fun _ => R.pure
  | .var (.name n s), h => by
    rw [expr, place, Expr.check, Expr.check]
    exact R.bind (holds_place (.name n s) (h.child (List.mem_singleton_self _))) fun f => R.pure
  | .var (.index v i s), h =>
    holds_access R (.index v i s) nofun
      (holds_place (.index v i s) (h.child (List.mem_singleton_self _)))
  | .var (.member v m s), h =>
    holds_access R (.member v m s) nofun
      (holds_place (.member v m s) (h.child (List.mem_singleton_self _)))
termination_by e => sizeOf e

theorem holds_arguments : ∀ es : List Expr,
    (∀ e ∈ es, R.Covers env.signatures sigs (.expr e)) →
    R.Holds (Expr.checkArguments env es)
      (Expr.checkArguments (env.as mode sigs) (σ.exprs es))
  | [], _ => R.pure
  | e :: es, h => by
    obtain ⟨he, hes⟩ := List.forall_mem_cons.1 h
    rw [exprs, Expr.checkArguments, Expr.checkArguments, span_expr]
    refine R.bind (holds_expr e he) fun τ => R.bind (holds_expectValue R e τ) fun τ => ?_
    exact R.guard (holds_arguments es hes)
termination_by es => sizeOf es

theorem holds_hash : ∀ es : List Expr, (∀ e ∈ es, R.Covers env.signatures sigs (.expr e)) →
    R.Holds (Expr.checkHash env es) (Expr.checkHash (env.as mode sigs) (σ.exprs es))
  | [input, algorithm], h => by
    have hinput := holds_expr input (h input List.mem_cons_self)
    rw [exprs, exprs, exprs, Expr.checkHash, Expr.checkHash, span_expr]
    refine R.bind hinput fun τ => R.bind (holds_expectValue R input τ) fun τ => ?_
    exact R.guard (R.bind (holds_expectAlgorithm R algorithm) fun _ => R.pure)
  | [], _ => R.pure
  | [_], _ => R.pure
  | _ :: _ :: _ :: _, _ => R.pure
termination_by es => sizeOf es

theorem holds_place : ∀ v : Variable, R.Covers env.signatures sigs (.place v) →
    R.Holds (v.check env) ((σ.place v).check (env.as mode sigs))
  | .name n s, hs => by
    rw [place, Variable.check, Variable.check]
    refine R.bind R.lookup? fun f => ?_
    cases f with
    | none => exact R.fail
    | some f =>
      dsimp only
      split
      · exact R.pure
      · rw [σ.start_span]
        refine R.bind (R.noteRead (hs.reads s.start ?_)) fun _ => R.pure
        show s.start ∈ (Variable.name n s).nameOffsets
        rw [Variable.nameOffsets_name]
        exact List.mem_singleton_self _
  | .member v m s, h => by
    rw [place, Variable.check, Variable.check]
    refine R.bind (holds_place v (h.child (List.mem_singleton_self _))) fun f => ?_
    dsimp only
    split
    · exact R.fail
    · exact R.pure
  | .index v i s, h => by
    have hindex := holds_expr i (h.child (List.mem_cons_of_mem _ (List.mem_singleton_self _)))
    rw [place, Variable.check, Variable.check]
    refine R.bind (holds_place v (h.child List.mem_cons_self)) fun f => ?_
    dsimp only
    split
    · exact R.fail
    · rw [span_expr]
      refine R.bind hindex fun τ => R.bind (holds_expectValue R i τ) fun τ => ?_
      exact R.refuse R.pure
termination_by v => sizeOf v

end

/-! ## Statements -/

theorem holds_checkValue (e : Expr) (h : R.Covers env.signatures sigs (.expr e)) :
    R.Holds (e.checkValue env) ((σ.expr e).checkValue (env.as mode sigs)) :=
  R.bind (holds_expr R e h) fun τ => holds_expectValue R e τ

theorem holds_checkCondition (e : Expr) (h : R.Covers env.signatures sigs (.expr e)) :
    R.Holds (e.checkCondition env) ((σ.expr e).checkCondition (env.as mode sigs)) :=
  R.bind (holds_expr R e h) fun τ => holds_expectCondition R e τ

theorem holds_leaving (kind : Leaving) (value : Option Expr) (s : Span)
    (h : ∀ e ∈ value, R.Covers env.signatures sigs (.expr e)) :
    R.Holds (checkLeaving env kind value s)
      (checkLeaving (env.as mode sigs) kind (value.map σ.expr) (σ.span s)) := by
  cases kind with
  | throwing =>
    match value with
    | none => exact R.fail
    | some (.bytes _ _) => exact R.pure
    | some (.uint ..) | some (.unary ..) | some (.binary ..) | some (.call ..) | some (.var ..) =>
      exact R.fail
  | exiting =>
    cases value with
    | none => exact R.fail
    | some e =>
      simp only [Option.map_some, checkLeaving, span_expr]
      exact R.bind (holds_checkValue R e (h e rfl)) fun τ => R.ensure
  | returning =>
    cases value with
    | none =>
      rw [Option.map_none, checkLeaving, checkLeaving]
      exact R.forbidEntry fun hmode => by rw [isEntry_as hmode]
    | some e =>
      simp only [Option.map_some, checkLeaving, span_expr]
      refine R.bind (holds_checkValue R e (h e rfl)) fun τ => ?_
      exact R.refuseEntry (fun hmode => by rw [isEntry_as hmode]) R.ensure

theorem holds_caseValues (tested : TypeId) (es : List Expr)
    (h : ∀ e ∈ es, R.Covers env.signatures sigs (.expr e)) :
    R.Holds (checkCaseValues env tested es)
      (checkCaseValues (env.as mode sigs) tested (es.map σ.expr)) := by
  induction es with
  | nil => exact R.pure
  | cons e es ih =>
    obtain ⟨he, hes⟩ := List.forall_mem_cons.1 h
    rw [List.map_cons, checkCaseValues, checkCaseValues, span_expr]
    exact R.bind (holds_checkValue R e he) fun τ => R.guard (ih hes)

mutual

theorem holds_stmt : ∀ s : Stmt, R.Covers env.signatures sigs (.stmt s) →
    R.Holds (s.check env) ((σ.stmt s).check (env.as mode sigs))
  | .ifElse c t none _, h => by
    rw [stmt, Stmt.check, Stmt.check]
    refine R.bind (holds_checkCondition R c (h.child List.mem_cons_self)) fun _ => ?_
    exact holds_block t (h.child (by simp [Node.children, Node.ofStmt]))
  | .ifElse c t (some e) _, h => by
    rw [stmt, Stmt.check, Stmt.check]
    refine R.bind (holds_checkCondition R c (h.child List.mem_cons_self)) fun _ => ?_
    refine R.bind (holds_block t (h.child (by simp [Node.children, Node.ofStmt]))) fun _ => ?_
    exact holds_block e (h.child (by simp [Node.children, Node.ofStmt]))
  | .whileDo c b _, h => by
    rw [stmt, Stmt.check, Stmt.check]
    refine R.bind (holds_checkCondition R c (h.child List.mem_cons_self)) fun _ => ?_
    exact holds_block b (h.child (by simp [Node.children, Node.ofStmt]))
  | .doWhile b c _, h => by
    rw [stmt, Stmt.check, Stmt.check]
    refine R.bind (holds_block b (h.child List.mem_cons_self)) fun _ => ?_
    exact holds_checkCondition R c (h.child (by simp [Node.children, Node.ofStmt]))
  | .switch e cs none _, h => by
    rw [stmt, Stmt.check, Stmt.check]
    refine R.bind (holds_checkValue R e (h.child List.mem_cons_self)) fun τ => ?_
    exact holds_cases τ cs fun c hc => h.child (by simp [Node.children, Node.ofStmt, hc])
  | .switch e cs (some d) _, h => by
    have hcs : ∀ c ∈ cs, R.Covers env.signatures sigs (.case c) := fun c hc =>
      h.child (by simp [Node.children, Node.ofStmt, hc])
    rw [stmt, Stmt.check, Stmt.check]
    refine R.bind (holds_checkValue R e (h.child List.mem_cons_self)) fun τ => ?_
    refine R.bind (holds_cases τ cs hcs) fun _ => ?_
    exact holds_block d (h.child (by simp [Node.children, Node.ofStmt]))
  | .leave kind value s, h => by
    rw [stmt, Stmt.check, Stmt.check]
    exact holds_leaving R kind value s fun e he =>
      h.child (by simp [Node.children, Node.ofStmt, Option.mem_def.1 he])
  | .expr e, h => by
    rw [stmt, Stmt.check, Stmt.check]
    exact R.bind (holds_expr R e (h.child (List.mem_singleton_self _))) fun _ => R.pure

theorem holds_stmts : ∀ ss : List Stmt, (∀ s ∈ ss, R.Covers env.signatures sigs (.stmt s)) →
    R.Holds (Stmt.checkList env ss) (Stmt.checkList (env.as mode sigs) (σ.stmts ss))
  | [], _ => R.pure
  | s :: ss, h => by
    obtain ⟨hs, hss⟩ := List.forall_mem_cons.1 h
    rw [stmts, Stmt.checkList, Stmt.checkList]
    exact R.bind (holds_stmt s hs) fun _ => holds_stmts ss hss

/-- A relocated block is checked alike. -/
theorem holds_block : ∀ b : Block, R.Covers env.signatures sigs (.block b) →
    R.Holds (b.check env) ((σ.block b).check (env.as mode sigs))
  | ⟨ss, _⟩, h => by
    have hss : ∀ s ∈ ss, R.Covers env.signatures sigs (.stmt s) := fun s hs =>
      h.child (List.mem_map_of_mem hs)
    rw [block, Block.check, Block.check]
    exact R.bind R.enter fun _ => R.bind (holds_stmts ss hss) fun _ => R.leave

theorem holds_cases (tested : TypeId) : ∀ cs : List Case,
    (∀ c ∈ cs, R.Covers env.signatures sigs (.case c)) →
    R.Holds (Case.checkList env tested cs)
      (Case.checkList (env.as mode sigs) tested (σ.cases cs))
  | [], _ => R.pure
  | ⟨values, b, _⟩ :: cs, h => by
    obtain ⟨hc, hcs⟩ := List.forall_mem_cons.1 h
    have hvalues : ∀ e ∈ values, R.Covers env.signatures sigs (.expr e) := fun e he =>
      hc.child (List.mem_append_left _ (List.mem_map_of_mem he))
    have hb : R.Covers env.signatures sigs (.block b) :=
      hc.child (List.mem_append_right _ (List.mem_singleton_self _))
    rw [cases, Case.checkList, Case.checkList]
    exact R.bind (holds_caseValues R tested values hvalues) fun _ =>
      R.bind (holds_block b hb) fun _ => holds_cases tested cs hcs

end

end Relocation

end ContractCompiler
