import Mathlib.Data.List.Forall2
import ContractCompiler.Compile
import ContractCompiler.Proofs.Lowering.Relocation

/-!
# Newer versions of the machine

A newer version of the machine has every operation of the older ones, at a price that is no lower. So
a source that was compiled for one version can be compiled for a newer one, with the same code. Where
only the newer version will do, the older one lacks an operation.
-/

namespace ContractCompiler

/-- What a version of the machine has, every newer one has too, and no cheaper. -/
theorem Opcode.costAt_mono {v w : Nat} (hvw : v ≤ w) (hw : w ≤ maxVersion) {op : Opcode} {c : Nat}
    (h : op.costAt v = some c) : ∃ c', op.costAt w = some c' ∧ c ≤ c' := by
  have htable : ∀ op ∈ Opcode.all, ∀ w < maxVersion + 1, ∀ v < w + 1, ∀ c ∈ op.costAt v,
      ∃ c' ∈ op.costAt w, c ≤ c' := by decide +kernel
  exact htable op op.mem_all w (by omega) v (by omega) c h

/-- A program for one version and the same program for a newer one. -/
structure Assembly.Raises (a b : Assembly) : Prop where
  entry : b.entry = a.entry
  code : b.code = a.code
  metrics : b.metrics = { a.metrics with staticCost := b.metrics.staticCost }
  cost : a.metrics.staticCost ≤ b.metrics.staticCost

/-- The results for version `v` and for a newer one: both are there, or both are missing, or `v` lacks
an operation. -/
inductive Raised (v : Nat) {α : Type} (R : α → α → Prop) :
    Except Diagnostic α → Except Diagnostic α → Prop where
  | ok {a b : α} (h : R a b) : Raised v R (.ok a) (.ok b)
  | error {d d' : Diagnostic} : Raised v R (.error d) (.error d')
  | unavailable {op : Opcode} {site : Option (List String)} {r : Except Diagnostic α} :
    Raised v R (.error (.code (.unavailable op v) site)) r

namespace Raised

variable {v : Nat} {α β : Type} {R : α → α → Prop} {S : β → β → Prop}

theorem bind {x y : Except Diagnostic α} {f g : α → Except Diagnostic β} (hx : Raised v R x y)
    (hf : ∀ a b, R a b → Raised v S (f a) (g b)) : Raised v S (x >>= f) (y >>= g) := by
  cases hx with
  | ok h => exact hf _ _ h
  | error => exact .error
  | unavailable => exact .unavailable

/-- What comes first does not depend on the version. -/
theorem bind_both (x : Except Diagnostic α) {f g : α → Except Diagnostic β}
    (hf : ∀ a, Raised v S (f a) (g a)) : Raised v S (x >>= f) (x >>= g) := by
  cases x with
  | ok a => exact hf a
  | error d => exact .error

end Raised

/-! ## Programs -/

section Programs

variable {p : Program} {localType? : Nat → Option StackType} {v w : Nat}

/-- The program of an entry, for two versions. -/
theorem Program.generate_raised (hvw : v ≤ w) (hw : w ≤ maxVersion) (entry : Entry) :
    Raised v Assembly.Raises (p.generate localType? v entry) (p.generate localType? w entry) := by
  cases hmain : p.function? entry.functionName with
  | none =>
    unfold generate
    rw [hmain]
    exact .error
  | some main =>
    let pruned := p.functions.length - (p.reachable main).length
    let π : Pairing := ⟨.ofProgram p localType? entry, .ofProgram p localType? entry, v, w, pruned,
      pruned, rfl, Opcode.costAt_mono hvw hw⟩
    have hreachable : p.reachable (Relocation.refl.function main) =
        (p.reachable main).map Relocation.refl.function := by
      rw [Relocation.function_refl, funext Relocation.function_refl, List.map_id']
    have hprograms : π.Programs (p.generate localType? v entry) (p.generate localType? w entry) :=
      π.generate_paired rfl rfl rfl rfl hmain (by rw [hmain, Relocation.function_refl]) hreachable
        fun f _ => ⟨fun _ _ => rfl, fun _ _ => rfl⟩
    generalize p.generate localType? v entry = r at hprograms
    generalize p.generate localType? w entry = r' at hprograms
    cases hprograms with
    | @ok a m' _ hcounts =>
      obtain ⟨hpruned, hcost, -⟩ := hcounts
      refine .ok ⟨rfl, rfl, ?_, hcost⟩
      dsimp only
      rw [hpruned]
    | error => exact .error
    | refused => exact .unavailable

theorem Program.generateList_raised (hvw : v ≤ w) (hw : w ≤ maxVersion) (entries : List Entry) :
    Raised v (List.Forall₂ Assembly.Raises) (p.generateList localType? v entries)
      (p.generateList localType? w entries) := by
  induction entries with
  | nil => exact .ok .nil
  | cons entry entries ih =>
    exact .bind (generate_raised hvw hw entry) fun _ _ hfirst => ih.bind fun _ _ hrest =>
      .ok (.cons hfirst hrest)

end Programs

/-- Options for a version that the machine has make sense if the mode does. -/
theorem Options.validate_eq {mode : Mode} {version : Nat} {expand : Bool} (hlow : 1 ≤ version)
    (hhigh : version ≤ maxVersion) : Options.validate ⟨mode, version, expand⟩ = mode.validate := by
  have hrange : ¬(version < 1 ∨ maxVersion < version) := by omega
  unfold Options.validate
  dsimp only
  rw [if_neg hrange]
  cases mode.validate <;> rfl

/-- The wording for an operation that a version of the machine does not have. -/
theorem CodeFault.message_unavailable (op : Opcode) (version : Nat) :
    (CodeFault.unavailable op version).message =
      "`" ++ op.name ++ "` is not available in TEAL v" ++ toString version := rfl

/-- What becomes of a source, for two versions. -/
theorem compileAll_versions {v w : Nat} (hv : 1 ≤ v) (hvw : v ≤ w) (hw : w ≤ maxVersion)
    (text : List Char) (mode : Mode) (expand : Bool) :
    Raised v (List.Forall₂ Assembly.Raises) (compileAll text ⟨mode, v, expand⟩)
      (compileAll text ⟨mode, w, expand⟩) := by
  have hsource : ∀ source, Raised v (List.Forall₂ Assembly.Raises)
      (do
        let p ← Source.program source
        let a ← p.check mode source
        p.generateAll a.localType? v mode)
      (do
        let p ← Source.program source
        let a ← p.check mode source
        p.generateAll a.localType? w mode) := fun source =>
    .bind_both _ fun p => .bind_both _ fun a => Program.generateList_raised hvw hw mode.entries
  unfold compileAll
  rw [Options.validate_eq hv (Nat.le_trans hvw hw), Options.validate_eq (Nat.le_trans hv hvw) hw]
  refine .bind_both _ fun _ => ?_
  cases expand with
  | true => exact .bind_both (Source.expand text) hsource
  | false => exact hsource text

/-- A source that was compiled for a version of the machine can be compiled for every newer one: the
programs have the same code and the same counters, but for a cost that is no lower. If only the newer
version will do, the older one lacks an operation. -/
theorem compileAll_raised {v w : Nat} (hv : 1 ≤ v) (hvw : v ≤ w) (hw : w ≤ maxVersion)
    (text : List Char) (mode : Mode) (expand : Bool) :
    (∀ as, compileAll text ⟨mode, v, expand⟩ = .ok as →
      ∃ bs, compileAll text ⟨mode, w, expand⟩ = .ok bs ∧ List.Forall₂ Assembly.Raises as bs) ∧
    ∀ bs d, compileAll text ⟨mode, w, expand⟩ = .ok bs →
      compileAll text ⟨mode, v, expand⟩ = .error d →
        ∃ op site, d = .code (.unavailable op v) site ∧ (CodeFault.unavailable op v).message =
          "`" ++ op.name ++ "` is not available in TEAL v" ++ toString v := by
  have hraised := compileAll_versions hv hvw hw text mode expand
  generalize compileAll text ⟨mode, v, expand⟩ = x at hraised
  generalize compileAll text ⟨mode, w, expand⟩ = y at hraised
  constructor
  · rintro as rfl
    cases hraised with
    | ok h => exact ⟨_, rfl, h⟩
  · rintro bs d rfl rfl
    cases hraised with
    | @unavailable op site => exact ⟨op, site, rfl, CodeFault.message_unavailable op v⟩

/-- A hash is dearer for newer versions, and the oldest version cannot end a program with a value. -/
theorem compileAll_raised_hash :
    (∃ text as bs, text = "def Signature() \x7b Hash(Txn.Sender, SHA256); throw \"no\"; \x7d".toList ∧
      compileAll text ⟨.single .signature, 1, true⟩ = .ok as ∧
        compileAll text ⟨.single .signature, 5, true⟩ = .ok bs ∧
          as.map (·.metrics.staticCost) = [10] ∧ bs.map (·.metrics.staticCost) = [38] ∧
            List.Forall₂ Assembly.Raises as bs) ∧
    ∃ text d op site, text = "def Signature() \x7b return Txn.Fee; \x7d".toList ∧
      compileAll text ⟨.single .signature, 1, true⟩ = .error d ∧
        d = .code (.unavailable op 1) site := by
  constructor
  · obtain ⟨text, htext⟩ : ∃ text, text =
        "def Signature() \x7b Hash(Txn.Sender, SHA256); throw \"no\"; \x7d".toList := ⟨_, rfl⟩
    have hold : (compileAll text ⟨.single .signature, 1, true⟩).toOption.map
        (List.map (·.metrics.staticCost)) = some [10] := by
      subst htext
      rw [String.toList_ofList]
      decide +kernel
    have hnew : (compileAll text ⟨.single .signature, 5, true⟩).toOption.map
        (List.map (·.metrics.staticCost)) = some [38] := by
      subst htext
      rw [String.toList_ofList]
      decide +kernel
    cases has : compileAll text ⟨.single .signature, 1, true⟩ with
    | error d =>
      rw [has] at hold
      cases hold
    | ok as =>
      obtain ⟨bs, hbs, hraises⟩ := (compileAll_raised (w := 5) (by decide) (by decide) (by decide)
        text (.single .signature) true).1 as has
      rw [has] at hold
      rw [hbs] at hnew
      exact ⟨text, as, bs, htext, has, hbs, Option.some.inj hold, Option.some.inj hnew, hraises⟩
  · obtain ⟨text, htext⟩ : ∃ text, text =
        "def Signature() \x7b return Txn.Fee; \x7d".toList := ⟨_, rfl⟩
    have hruns : (compileAll text ⟨.single .signature, 1, true⟩).toOption = none ∧
        (compileAll text ⟨.single .signature, 2, true⟩).toOption.isSome := by
      subst htext
      rw [String.toList_ofList]
      decide +kernel
    cases hd : compileAll text ⟨.single .signature, 1, true⟩ with
    | ok as =>
      rw [hd] at hruns
      cases hruns.1
    | error d =>
      cases hbs : compileAll text ⟨.single .signature, 2, true⟩ with
      | error d' =>
        rw [hbs] at hruns
        cases hruns.2
      | ok bs =>
        obtain ⟨op, site, rfl, -⟩ := (compileAll_raised (by decide) (by decide) (by decide)
          text (.single .signature) true).2 bs d hbs hd
        exact ⟨text, _, op, site, htext, hd, rfl⟩

end ContractCompiler
