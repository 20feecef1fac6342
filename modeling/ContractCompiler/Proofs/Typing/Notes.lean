import Mathlib.Data.List.Nodup
import ContractCompiler.Proofs.Typing.Induction
import ContractCompiler.Proofs.Typing.Programs

/-!
# What the analysis notes of reads

While bodies are checked, the analysis notes for every read of a variable what is known of its
value. The notes of all bodies are put together, where those of later bodies count.
-/

namespace ContractCompiler

/-- A note that is added stands before the ones of the same place. -/
theorem getElem?_insert_note {notes : Std.TreeMap Nat StackType} {offset o : Nat} {k : StackType} :
    (notes.insert offset k)[o]? = if offset = o then some k else notes[o]? := by
  rw [Std.TreeMap.getElem?_insert]
  simp only [Nat.compare_eq_eq]

/-! ## Places of notes -/

/-- From one state to another, notes were made at the places `os` at most. -/
def Notes (cs cs' : CheckState) (os : List Nat) : Prop :=
  ∀ o ∉ os, cs'.localTypes[o]? = cs.localTypes[o]?

section Notes

variable {env : CheckEnv} {cs cs' cs'' : CheckState} {os os' : List Nat} {τ : TypeId}

namespace Notes

theorem refl : Notes cs cs os :=
  fun _ _ => rfl

theorem trans (h : Notes cs cs' os) (h' : Notes cs' cs'' os') :
    Notes cs cs'' (os ++ os') := by
  intro o ho
  rw [List.mem_append, not_or] at ho
  rw [h' o ho.2, h o ho.1]

/-- Making notes at some places at most, as a relation that says nothing of the other check. -/
def relation (os : List Nat) (mode : Mode) : Check.Relation .refl mode mode where
  Holds x _ := ∀ cs a cs', x cs = .ok (a, cs') → Notes cs cs' os
  Reads o := o ∈ os
  pure cs a cs' h := (Check.pure_eq_ok.1 h).2 ▸ refl
  fail cs a cs' h := absurd h Check.fail_ne_ok
  bind hx hf cs b cs' h := by
    obtain ⟨a, cs₁, ha, hb⟩ := Check.bind_eq_ok.1 h
    intro o ho
    rw [hf a cs₁ b cs' hb o ho, hx cs a cs₁ ha o ho]
  refuseEntry _ hx cs a cs' h := hx cs a cs' (Check.when_eq_ok.1 h).2
  forbidEntry _ cs a cs' h := by
    split at h
    · exact absurd h Check.fail_ne_ok
    · exact (Check.pure_eq_ok.1 h).2 ▸ refl
  lookup? cs a cs' h := by
    cases h
    exact refl
  scopes cs a cs' h := by
    cases h
    exact refl
  noteRead {offset type} hoffset cs a cs' h := by
    cases h
    intro o ho
    have hne : offset ≠ o := fun heq => ho (heq ▸ hoffset)
    show (cs.localTypes.insert offset type)[o]? = _
    rw [getElem?_insert_note, if_neg hne]

/-- What is below a node is noted at places of names below it. -/
theorem covers {sigs : List (String × Signature)} {mode : Mode} {n : Node}
    (h : n.nameOffsets ⊆ os) : (relation os mode).Covers sigs sigs n :=
  ⟨fun _ _ => rfl, fun _ ho => h ho⟩

theorem covers_mem {α : Type} {sigs : List (String × Signature)} {mode : Mode} {f : α → Node}
    {xs : List α} :
    ∀ x ∈ xs, (relation (xs.flatMap fun x => (f x).nameOffsets) mode).Covers sigs sigs (f x) :=
  fun x hx => covers fun _ ho => List.mem_flatMap.2 ⟨x, hx, ho⟩

end Notes

open Relocation

/-- Checking an expression makes notes at the places of its names. -/
theorem Expr.check_notes (e : Expr) (h : e.check env cs = .ok (τ, cs')) :
    Notes cs cs' e.nameOffsets :=
  holds_expr (Notes.relation e.nameOffsets env.mode) e (Notes.covers fun _ ho => ho) cs τ cs' h

theorem Expr.checkArguments_notes (es : List Expr)
    (h : Expr.checkArguments env es cs = .ok ((), cs')) :
    Notes cs cs' (es.flatMap Expr.nameOffsets) :=
  holds_arguments (Notes.relation _ env.mode) es Notes.covers_mem cs () cs' h

theorem Variable.check_notes (v : Variable) {f : Field} (h : v.check env cs = .ok (f, cs')) :
    Notes cs cs' v.nameOffsets :=
  holds_place (Notes.relation v.nameOffsets env.mode) v (Notes.covers fun _ ho => ho) cs f cs' h

theorem checkCaseValues_notes (es : List Expr) (h : checkCaseValues env τ es cs = .ok ((), cs')) :
    Notes cs cs' (es.flatMap Expr.nameOffsets) :=
  holds_caseValues (Notes.relation _ env.mode) τ es Notes.covers_mem cs () cs' h

/-- Checking a statement makes notes at the places of its names. -/
theorem Stmt.check_notes (s : Stmt) (h : s.check env cs = .ok ((), cs')) :
    Notes cs cs' (Node.stmt s).nameOffsets :=
  holds_stmt (Notes.relation _ env.mode) s (Notes.covers fun _ ho => ho) cs () cs' h

theorem Stmt.checkList_notes (ss : List Stmt) (h : Stmt.checkList env ss cs = .ok ((), cs')) :
    Notes cs cs' (ss.flatMap fun s => (Node.stmt s).nameOffsets) :=
  holds_stmts (Notes.relation _ env.mode) ss Notes.covers_mem cs () cs' h

/-- Checking a block makes notes at the places of its names. -/
theorem Block.check_notes (b : Block) (h : b.check env cs = .ok ((), cs')) :
    Notes cs cs' (Node.block b).nameOffsets :=
  holds_block (Notes.relation _ env.mode) b (Notes.covers fun _ ho => ho) cs () cs' h

theorem Case.checkList_notes (cases : List Case)
    (h : Case.checkList env τ cases cs = .ok ((), cs')) :
    Notes cs cs' (cases.flatMap fun c => (Node.case c).nameOffsets) :=
  holds_cases (Notes.relation _ env.mode) τ cases Notes.covers_mem cs () cs' h

end Notes

/-! ## The notes of a program -/

/-- Notes that are added one after the other, each for a place of its own. -/
theorem getElem?_foldl_insert {pairs : List (Nat × StackType)}
    (hkeys : pairs.Pairwise fun a b => a.1 ≠ b.1) {notes : Std.TreeMap Nat StackType} {o : Nat} :
    (pairs.foldl (fun m b => m.insert b.1 b.2) notes)[o]? = (pairs.lookup o).or notes[o]? := by
  induction pairs generalizing notes with
  | nil => rfl
  | cons pair pairs ih =>
    obtain ⟨key, k⟩ := pair
    obtain ⟨hkey, hkeys⟩ := List.pairwise_cons.1 hkeys
    rw [List.foldl_cons, ih hkeys, getElem?_insert_note]
    by_cases hko : key = o
    · subst hko
      have hnone : pairs.lookup key = none := by
        rw [List.lookup_eq_none_iff]
        exact fun b hb => bne_iff_ne.2 (hkey b hb)
      simp [hnone]
    · have hbeq : (o == key) = false := by simpa using Ne.symm hko
      simp [List.lookup_cons, hbeq, hko]

theorem lookup_eq_some_of_distinct {α : Type} {pairs : List (Nat × α)}
    (hkeys : pairs.Pairwise fun a b => a.1 ≠ b.1) {o : Nat} {k : α} :
    pairs.lookup o = some k ↔ (o, k) ∈ pairs := by
  induction pairs with
  | nil => simp
  | cons pair pairs ih =>
    obtain ⟨key, v⟩ := pair
    obtain ⟨hkey, hkeys⟩ := List.pairwise_cons.1 hkeys
    by_cases hko : o = key
    · subst hko
      have hnot : (o, k) ∉ pairs := fun hmem => hkey _ hmem rfl
      simp [hnot, eq_comm]
    · have hbeq : (o == key) = false := by simpa using hko
      simp [List.lookup_cons, hbeq, ih hkeys, hko]

/-- Of two notes of a place, that of the later body counts. -/
theorem BodyFacts.getElem?_combine (a b : BodyFacts) (o : Nat) :
    (a.combine b).localTypes[o]? = b.localTypes[o]?.or a.localTypes[o]? := by
  have hkeys : b.localTypes.toList.Pairwise fun a b => a.1 ≠ b.1 :=
    Std.TreeMap.distinct_keys_toList.imp fun hne heq => hne (Nat.compare_eq_eq.2 heq)
  have hlookup : b.localTypes.toList.lookup o = b.localTypes[o]? := by
    refine Option.ext fun k => ?_
    rw [lookup_eq_some_of_distinct hkeys, Std.TreeMap.mem_toList_iff_getElem?_eq_some]
  unfold combine
  rw [Std.TreeMap.foldl_eq_foldl_toList, getElem?_foldl_insert hkeys, hlookup]

/-- A note of the analysis was there before, or comes from the check of a body. -/
theorem checkBodies_noted {mode : Mode} {sigs : List (String × Signature)} {fs : List Function}
    {facts facts' : BodyFacts} (h : checkBodies mode sigs fs facts = .ok facts') {o : Nat}
    {k : StackType} (ho : facts'.localTypes[o]? = some k) :
    facts.localTypes[o]? = some k ∨
      ∃ f ∈ fs, ∃ own, f.check mode sigs = .ok own ∧ own.localTypes[o]? = some k := by
  induction fs generalizing facts with
  | nil =>
    cases h
    exact .inl ho
  | cons f fs ih =>
    obtain ⟨own, hf, h⟩ := checkBodies_cons h
    rcases ih h with hcombined | ⟨g, hg, hnoted⟩
    · rw [BodyFacts.getElem?_combine, Option.or_eq_some_iff] at hcombined
      rcases hcombined with hown | ⟨-, hbefore⟩
      · exact .inr ⟨f, List.mem_cons_self, own, hf, hown⟩
      · exact .inl hbefore
    · exact .inr ⟨g, List.mem_cons_of_mem _ hg, hnoted⟩

/-- The places of the names in the body of a function. -/
def Function.nameOffsets (f : Function) : List Nat :=
  (Node.block f.body).nameOffsets

/-- The body of a function makes notes at the places of its names only. -/
theorem Function.check_notes {p : Program} {mode : Mode} {f : Function} {own : BodyFacts} {o : Nat}
    (h : f.check mode p.signatures = .ok own) (ho : o ∉ f.nameOffsets) :
    own.localTypes[o]? = none := by
  obtain ⟨-, cs', hcheck, rfl⟩ := Function.check_eq_ok h
  show cs'.localTypes[o]? = none
  rw [Block.check_notes _ hcheck o ho]
  exact Std.TreeMap.getElem?_emptyc

/-- Where no names stand in bodies, notes stay as they are. -/
theorem checkBodies_frame {p : Program} {mode : Mode} {fs : List Function}
    {facts facts' : BodyFacts} {o : Nat} (ho : ∀ f ∈ fs, o ∉ f.nameOffsets)
    (h : checkBodies mode p.signatures fs facts = .ok facts') :
    facts'.localTypes[o]? = facts.localTypes[o]? := by
  induction fs generalizing facts with
  | nil =>
    cases h
    rfl
  | cons f fs ih =>
    obtain ⟨hnot, ho⟩ := List.forall_mem_cons.1 ho
    obtain ⟨own, hf, h⟩ := checkBodies_cons h
    rw [ih ho h, BodyFacts.getElem?_combine, Function.check_notes hf hnot, Option.none_or]

/-- If no two names stand at one place, the notes of a body are kept. -/
theorem checkBodies_kept {p : Program} {mode : Mode} {fs : List Function}
    {facts facts' : BodyFacts} (hfs : (fs.flatMap Function.nameOffsets).Nodup)
    (h : checkBodies mode p.signatures fs facts = .ok facts') {f : Function} (hf : f ∈ fs) {o : Nat}
    (ho : o ∈ f.nameOffsets) :
    ∃ own, f.check mode p.signatures = .ok own ∧
      facts'.localTypes[o]? = own.localTypes[o]?.or facts.localTypes[o]? := by
  induction fs generalizing facts with
  | nil => cases hf
  | cons g fs ih =>
    rw [List.flatMap_cons, List.nodup_append] at hfs
    obtain ⟨-, hfs, hdisjoint⟩ := hfs
    obtain ⟨own, hg, hrest⟩ := checkBodies_cons h
    rcases List.mem_cons.1 hf with rfl | hf
    · refine ⟨own, hg, ?_⟩
      rw [checkBodies_frame (fun g hg hmem => ?_) hrest, BodyFacts.getElem?_combine]
      exact hdisjoint o ho o (List.mem_flatMap.2 ⟨g, hg, hmem⟩) rfl
    · obtain ⟨own', hown', hnoted⟩ := ih hfs hrest hf
      have hnot : o ∉ g.nameOffsets := fun hmem =>
        hdisjoint o hmem o (List.mem_flatMap.2 ⟨f, hf, ho⟩) rfl
      refine ⟨own', hown', ?_⟩
      rw [hnoted, BodyFacts.getElem?_combine, Function.check_notes hg hnot, Option.none_or]

/-- No place is that of a name in two functions. -/
theorem Program.nodup_nameOffsets {p : Program} (hp : (Node.program p).nameOffsets.Nodup) :
    (p.functions.flatMap Function.nameOffsets).Nodup := by
  have hfunction : ∀ f : Function, (Node.function f).nameOffsets = f.nameOffsets := by
    intro f
    rw [Node.nameOffsets_children rfl]
    simp [Node.children, Function.nameOffsets]
  rw [Node.nameOffsets_children rfl] at hp
  simpa [Node.children, List.flatMap_map, hfunction] using hp

/-- Of the names in a body, the analysis keeps what was noted when the body was checked. -/
theorem Program.localType?_body {p : Program} {mode : Mode} {text : List Char} {a : Analysis}
    (hp : (Node.program p).nameOffsets.Nodup) (ha : p.check mode text = .ok a) {f : Function}
    (hf : f ∈ p.functions) {cs' : CheckState}
    (hcheck : f.body.check (p.checkEnv mode f) (f.startState mode) = .ok ((), cs')) :
    f.nameOffsets.Nodup ∧ ∀ o ∈ f.nameOffsets, a.localTypes[o]? = cs'.localTypes[o]? := by
  obtain ⟨-, -, facts, hbodies, rfl⟩ := checkRules_eq_ok (check_eq_ok ha).2
  have hfunctions := nodup_nameOffsets hp
  refine ⟨(List.nodup_flatMap.1 hfunctions).1 f hf, fun o ho => ?_⟩
  obtain ⟨own, hown, hnoted⟩ := checkBodies_kept hfunctions hbodies hf ho
  obtain ⟨-, cs, hcheck', rfl⟩ := Function.check_eq_ok hown
  cases hcheck.symm.trans hcheck'
  show facts.localTypes[o]? = _
  rw [hnoted]
  show cs'.localTypes[o]?.or (∅ : Std.TreeMap Nat StackType)[o]? = _
  rw [Std.TreeMap.getElem?_emptyc, Option.or_none]

end ContractCompiler
