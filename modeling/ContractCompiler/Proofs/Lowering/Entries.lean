import ContractCompiler.Proofs.Lowering.Depths
import ContractCompiler.Proofs.Typing.Modes

/-!
# Entries on their own

An application has two entries, and a source may be compiled for both at once or for one of them. What
is learned of the source goes into the code only through the types of the local variables that are
read, and these do not depend on which entries are wanted. So an entry has the same program either
way.
-/

namespace ContractCompiler

theorem Program.entry_of_generate {p : Program} {localType? : Nat → Option StackType} {version : Nat}
    {entry : Entry} {asm : Assembly} (h : p.generate localType? version entry = .ok asm) :
    asm.entry = entry.functionName := by
  obtain ⟨_, _, -, -, hfinish⟩ := generate_eq_ok h
  exact (finish_eq_ok hfinish).2.1

/-- Two modes of an application that both accept a program have the same code for an entry. -/
theorem Program.generate_consistent {p : Program} {mode mode' : Mode} {text : List Char}
    {a a' : Analysis} (hmode : mode'.isApplication = mode.isApplication)
    (h : p.check mode text = .ok a) (h' : p.check mode' text = .ok a') :
    p.generate a'.localType? = p.generate a.localType? := by
  obtain ⟨-, htypes⟩ :=
    checkRules_consistent hmode (check_eq_ok h).2 (check_eq_ok h').2
  have hlocal : a'.localType? = a.localType? := by
    funext offset
    rw [Analysis.localType?, htypes, Analysis.localType?]
  rw [hlocal]

/-- The mode for both entries of an application. -/
def Mode.application : Mode :=
  (Mode.single .approval).union (.single .clearState)

/-- If a source can be compiled for both entries of an application and for one of them alone, the
program of that one is the same in both results. -/
theorem compileAll_entry_alone {text : List Char} {version : Nat} {expand : Bool} {entry : Entry}
    {both alone : List Assembly} (hentry : entry.isApplication = true)
    (hboth : compileAll text ⟨.application, version, expand⟩ = .ok both)
    (halone : compileAll text ⟨.single entry, version, expand⟩ = .ok alone) :
    both.map Assembly.entry = [Entry.approval.functionName, Entry.clearState.functionName] ∧
      alone.map Assembly.entry = [entry.functionName] ∧
      alone = both.filter (·.entry == entry.functionName) := by
  obtain ⟨source, p, a, hsource, hp, ha, hasms⟩ := compileAll_eq_ok hboth
  obtain ⟨source', p', a', hsource', hp', ha', hasms'⟩ := compileAll_eq_ok halone
  cases Except.ok.inj (hsource'.symm.trans hsource)
  cases Except.ok.inj (hp'.symm.trans hp)
  have hmode : (Mode.single entry).isApplication = Mode.application.isApplication := by
    cases entry with
    | approval | clearState => decide
    | signature => cases hentry
  have hentries : (Mode.single entry).entries = [entry] := by
    cases entry <;> decide
  rw [Program.generate_consistent hmode ha ha', hentries] at hasms'
  have happlication : Mode.application.entries = [.approval, .clearState] := by decide
  rw [happlication] at hasms
  cases hasms with
  | @cons _ first _ _ hfirst hasms =>
    cases hasms with
    | @cons _ second _ _ hsecond hasms =>
      cases hasms
      cases hasms' with
      | @cons _ only _ _ honly hasms' =>
        cases hasms'
        have hname₁ := Program.entry_of_generate hfirst
        have hname₂ := Program.entry_of_generate hsecond
        refine ⟨by simp [hname₁, hname₂], by simp [Program.entry_of_generate honly], ?_⟩
        cases entry with
        | approval =>
          cases Except.ok.inj (honly.symm.trans hfirst)
          simp [hname₁, hname₂, Entry.functionName]
        | clearState =>
          cases Except.ok.inj (honly.symm.trans hsecond)
          simp [hname₁, hname₂, Entry.functionName]
        | signature => cases hentry

/-- Both entries need a function that compares two byte strings. -/
theorem compileAll_entry_alone_shared :
    ∃ text both alone, text = "def f(x)\x7by=Txn.Note;return y<x;\x7d
        def ApprovalProgram()\x7breturn f(\"a\");\x7d
        def ClearStateProgram()\x7bf(\"b\");\x7d".toList ∧
      compileAll text ⟨.application, 5, false⟩ = .ok both ∧
      compileAll text ⟨.single .clearState, 5, false⟩ = .ok alone ∧
      both.map (·.code.length) = [16, 18] ∧ alone.map (·.code.length) = [18] ∧
      alone = both.filter (·.entry == "ClearStateProgram") := by
  obtain ⟨text, htext⟩ : ∃ text, text = "def f(x)\x7by=Txn.Note;return y<x;\x7d
        def ApprovalProgram()\x7breturn f(\"a\");\x7d
        def ClearStateProgram()\x7bf(\"b\");\x7d".toList := ⟨_, rfl⟩
  have hboth : (do
      let both ← compileAll text ⟨.application, 5, false⟩
      return both.map (·.code.length)) = Except.ok [16, 18] := by
    rw [htext, String.toList_ofList]
    decide +kernel
  have halone : (do
      let alone ← compileAll text ⟨.single .clearState, 5, false⟩
      return alone.map (·.code.length)) = Except.ok [18] := by
    rw [htext, String.toList_ofList]
    decide +kernel
  obtain ⟨both, hcompiled, hboth⟩ := ok_of_bind hboth
  obtain ⟨alone, hcompiled', halone⟩ := ok_of_bind halone
  obtain ⟨-, -, heq⟩ := compileAll_entry_alone rfl hcompiled hcompiled'
  exact ⟨text, both, alone, htext, hcompiled, hcompiled', Except.ok.inj hboth,
    Except.ok.inj halone, heq⟩

end ContractCompiler
