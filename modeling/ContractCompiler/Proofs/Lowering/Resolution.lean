import ContractCompiler.Proofs.Lowering.Programs

/-!
# What names stand for in code

The analysis finds a name in the frames of blocks and parameters, or else among the built-in names.
The code reads and writes a slot for a name that has one, and otherwise goes by the built-in names.
Both take every name for the same thing, with one exception: a test of the type of a transaction
goes by the name `Txn`, also where a parameter has that name.
-/

namespace ContractCompiler

namespace Scopes

/-- A name is a built-in one, and no parameter or variable hides it. -/
def IsBuiltin (Γ : Scopes) (n : String) : Prop :=
  lookupFrames Γ.frames n = none ∧ (Γ.root.lookup n).isSome

variable {mode : Mode} {Γ : Scopes} {names : List String} {n : String} {f : Field}

theorem Fits.isBuiltin (h : Fits mode Γ names) (hn : n ∉ names) (hf : Γ.lookup? n = some f) :
    Γ.IsBuiltin n := by
  obtain ⟨hframes, hlookup⟩ := h.lookup?_of_not_mem hn
  exact ⟨hframes, by rw [h.root, ← hlookup, hf]; rfl⟩

end Scopes

/-- The code takes a name for what the analysis takes it for: slots are those of parameters and
variables, a name is given a slot by its first assignment only if it was not known at all, and
everything else is built in. Only the type of the transaction `Txn` is read in any case. -/
def Occurrence.Resolved : Occurrence → Prop
  | .slot n cs => cs.scopes.IsLocal n
  | .store n cs => cs.scopes.IsLocal n ∨ cs.scopes.lookup? n = none
  | .builtin n cs => cs.scopes.IsBuiltin n
  | .transaction place cs =>
    cs.scopes.IsBuiltin place.root ∨ ∃ span, place = .name "Txn" span ∧ cs.scopes.IsLocal "Txn"
  | .complement .. | .operator .. | .cast .. => True

/-- Names are resolved in accepted code. -/
theorem Occurrence.Sound.resolved {S : Setting} {o : Occurrence} (h : o.Sound S) : o.Resolved := by
  cases h with
  | complement => trivial
  | operator => trivial
  | cast => trivial
  | slot hΓ hn hlookup => exact hΓ.isLocal hn hlookup
  | @store names cs n hΓ hn =>
    show cs.scopes.IsLocal n ∨ cs.scopes.lookup? n = none
    cases hlookup : cs.scopes.lookup? n with
    | none => exact .inr rfl
    | some f => exact .inl (hΓ.isLocal hn hlookup)
  | builtin hΓ hn hlookup => exact hΓ.isBuiltin hn hlookup
  | @transaction names cs cs' place f r hplace hr =>
    obtain ⟨⟨g, hg⟩, hname⟩ := hplace.fits.root_of_check hplace.check
    by_cases hmem : place.root ∈ names
    · -- A place that starts with a variable is one, and just one name stands for a transaction.
      obtain ⟨n, span, rfl⟩ := hname hmem
      have hn : n = "Txn" := by
        rw [Variable.steps] at hr
        unfold Reading.ofTransaction? at hr
        split at hr
        case h_1 heq => cases heq; rfl
        case h_2 heq => cases heq
        case h_3 => cases hr
      subst hn
      exact .inr ⟨span, rfl, hplace.fits.isLocal hmem hg⟩
    · exact .inl (hplace.fits.isBuiltin hmem hg)

/-- In the program of every entry of an accepted source, names stand for what the analysis takes
them for. -/
theorem Program.generate_resolved {source text : List Char} {p : Program} {mode : Mode}
    {a : Analysis} {entry : Entry} {version : Nat} {asm : Assembly}
    (hp : Source.program source = .ok p) (ha : p.check mode text = .ok a)
    (hentry : entry ∈ mode.entries) (h : p.generate a.localType? version entry = .ok asm) :
    ∃ main codes, p.Code mode entry (.asking a.localType? Occurrence.Resolved) main codes ∧
      asm.code = codes.flatten := by
  obtain ⟨main, codes, hcode, hasm, -⟩ :=
    generate_asking hp ha hentry (fun _ _ _ ho => ho.resolved) h
  exact ⟨main, codes, hcode, hasm⟩

/-- A source with a parameter and a variable, in which a parameter hides a built-in name, a
built-in constant is read and the type of a transaction is tested. -/
theorem Program.generate_resolved_hidden :
    ∃ p a asm, Source.program "def f(NoOp) { x = NoOp; return x; }
        def ApprovalProgram() { return f(TxnGroup[0] == PaymentTransaction) == NoOp; }".toList = .ok p ∧
      p.check (.single .approval) [] = .ok a ∧ Entry.approval ∈ (Mode.single .approval).entries ∧
      p.generate a.localType? 5 .approval = .ok asm ∧
      ∃ main codes, p.Code (.single .approval) .approval
          (.asking a.localType? Occurrence.Resolved) main codes ∧ asm.code = codes.flatten := by
  have hrun : (do
      let p ← Source.program "def f(NoOp) { x = NoOp; return x; }
        def ApprovalProgram() { return f(TxnGroup[0] == PaymentTransaction) == NoOp; }".toList
      let a ← p.check (.single .approval) []
      let _ ← p.generate a.localType? 5 .approval
      return true) = Except.ok true := by
    rw [String.toList_ofList]
    decide +kernel
  obtain ⟨p, hp, hrun⟩ := ok_of_bind hrun
  obtain ⟨a, ha, hrun⟩ := ok_of_bind hrun
  obtain ⟨asm, hasm, -⟩ := ok_of_bind hrun
  have hentry : Entry.approval ∈ (Mode.single .approval).entries := by decide
  exact ⟨p, a, asm, hp, ha, hentry, hasm, generate_resolved hp ha hentry hasm⟩

/-- Where a parameter is called `Txn`, a test of its type is still one of the transaction. -/
example : (do
    let p ← Source.program "def f(Txn) { return Txn == PaymentTransaction; }
      def ApprovalProgram() { return f(1); }".toList
    let a ← p.check (.single .approval) []
    let asm ← p.generate a.localType? 5 .approval
    return decide (.op .txn [.field "TypeEnum"] ∈ asm.code)) = Except.ok true := by
  rw [String.toList_ofList]
  decide +kernel

end ContractCompiler
