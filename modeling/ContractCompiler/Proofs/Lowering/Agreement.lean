import ContractCompiler.Proofs.Lowering.Places
import ContractCompiler.Proofs.Syntax.IntegerFragment
import ContractCompiler.Proofs.Typing.Scoping

/-!
# Names in scope and names with slots

While an expression is lowered, every name that its assignments could declare has a slot already.
So the layout knows more names than the analysis at the same place, but none of those hides a
built-in name, and both take every name that the analysis accepts for the same thing.
-/

namespace ContractCompiler

/-! ## Built-in names -/

theorem Mode.isApplication_of_mem {mode : Mode} {entry : Entry} (h : entry ∈ mode.entries)
    (happ : entry.isApplication = true) : mode.isApplication = true := by
  have hcontains := (List.mem_filter.1 h).2
  unfold Mode.isApplication
  cases entry with
  | approval => rw [hcontains, Bool.true_or]
  | clearState => rw [hcontains, Bool.or_true]
  | signature => cases happ

theorem Lower.mem_of_enumValue? {entry : Entry} {n : String}
    (h : (Lower.enumValue? entry n).isSome) :
    n ∈ Builtin.hashValues ∨ entry.isApplication = true ∧ n ∈ Builtin.onCompleteValues := by
  obtain ⟨v, hv⟩ := Option.isSome_iff_exists.1 h
  obtain ⟨values, hvalues, hindex⟩ := List.exists_of_findSome?_eq_some hv
  have hn : n ∈ values := List.isSome_idxOf?.1 (by rw [hindex]; rfl)
  rcases List.mem_cons.1 hvalues with rfl | hvalues
  · exact .inl hn
  · split at hvalues
    case isTrue happ =>
      obtain rfl := List.mem_singleton.1 hvalues
      exact .inr ⟨happ, hn⟩
    case isFalse => cases hvalues

theorem mem_of_transactionCode? {n : String} (h : (transactionCode? n).isSome) :
    n ∈ transactionCodes.map Prod.fst := by
  obtain ⟨c, hc⟩ := Option.isSome_iff_exists.1 h
  obtain ⟨before, after, hcodes, -⟩ := List.lookup_eq_some_iff.1 hc
  rw [hcodes]
  simp

theorem mem_of_hashOpcode? {n : String} {span : Span} {c : Opcode}
    (h : Lower.hashOpcode? (.var (.name n span)) = some c) : n ∈ Builtin.hashValues := by
  cases hn : Builtin.hashValues.idxOf? n with
  | none => simp [Lower.hashOpcode?, Expr.asName?, hn] at h
  | some i => exact List.isSome_idxOf?.1 (by rw [hn]; rfl)

namespace Builtin

/-- Hash algorithms and types of transactions are built in, in every mode. -/
theorem root_isSome_of_mem {mode : Mode} {n : String}
    (h : n ∈ hashValues ++ transactionCodes.map Prod.fst) :
    ((scopes mode).root.lookup n).isSome := by
  have hall : ∀ entry ∈ [Entry.approval, .signature],
      ∀ n ∈ hashValues ++ transactionCodes.map Prod.fst,
      ((scopes (.single entry)).root.lookup n).isSome := by decide +kernel
  rw [scopes_eq]
  exact hall _ (by split <;> simp) n h

/-- The names of values of enumerations and of types of transactions are built in. -/
theorem root_isSome {mode : Mode} {entry : Entry} (hentry : entry ∈ mode.entries) {n : String}
    (h : (Lower.enumValue? entry n).isSome ∨ (transactionCode? n).isSome) :
    ((scopes mode).root.lookup n).isSome := by
  rcases h with h | h
  · rcases Lower.mem_of_enumValue? h with h | ⟨happ, h⟩
    · exact root_isSome_of_mem (List.mem_append_left _ h)
    · have hvalues : ∀ n ∈ onCompleteValues,
          ((scopes (.single .approval)).root.lookup n).isSome := by decide +kernel
      rw [scopes_eq, if_pos (Mode.isApplication_of_mem hentry happ)]
      exact hvalues n h
  · exact root_isSome_of_mem (List.mem_append_right _ (mem_of_transactionCode? h))

end Builtin

/-! ## Scopes that belong to a layout -/

namespace Scopes

/-- Scopes that belong to a layout: what is declared has a slot and holds values, and what has a
slot hides no built-in name unless it is declared. Only what can hold anything, as parameters can,
hides a built-in name. -/
structure Fits (mode : Mode) (Γ : Scopes) (names : List String) : Prop where
  frames : Γ.frames ≠ []
  root : Γ.root = (Builtin.scopes mode).root
  declared : ∀ n f, lookupFrames Γ.frames n = some f →
    n ∈ names ∧ ∃ τ, f = .var τ ∧ Builtin.checkedTypes.isValue τ
  plain : ∀ n ∈ names, lookupFrames Γ.frames n = none → Γ.root.lookup n = none
  hidden : ∀ n f, lookupFrames Γ.frames n = some f → (Γ.root.lookup n).isSome → f = .var .any

variable {mode : Mode} {Γ Γ' : Scopes} {names ns : List String} {n : String} {f : Field}

theorem Fits.proper (h : Fits mode Γ names) : Γ.Proper where
  frames := h.frames
  constant := by
    intro n f hn
    rw [h.root] at hn
    exact (Builtin.sound hn).1

/-- A known name of the layout is that of a variable. -/
theorem Fits.isLocal (h : Fits mode Γ names) (hn : n ∈ names) (hf : Γ.lookup? n = some f) :
    Γ.IsLocal n := by
  unfold IsLocal
  cases hframes : lookupFrames Γ.frames n with
  | some g => rfl
  | none =>
    rw [lookup?, hframes, h.plain n hn hframes] at hf
    cases hf

/-- Scopes that grow by names of the layout still belong to it. -/
theorem Fits.grows (h : Fits mode Γ names) (hg : Grows Builtin.checkedTypes Γ Γ' ns)
    (hns : ns ⊆ names) : Fits mode Γ' names where
  frames := (hg.proper h.proper).frames
  root := hg.root.trans h.root
  declared := by
    intro n f hn
    rcases hg.known hn with hbefore | ⟨hmem, -, -, hvar⟩
    · exact h.declared n f hbefore
    · exact ⟨hns hmem, hvar⟩
  plain := by
    intro n hn hnone
    rw [hg.root]
    refine h.plain n hn ?_
    cases hbefore : lookupFrames Γ.frames n with
    | none => rfl
    | some f =>
      rw [hg.kept hbefore] at hnone
      cases hnone
  hidden := by
    intro n f hn hroot
    rw [hg.root] at hroot
    rcases hg.known hn with hbefore | ⟨-, hnone, -⟩
    · exact h.hidden n f hbefore hroot
    · rw [hnone] at hroot
      cases hroot

/-- A name of the layout that is known is a variable. -/
theorem Fits.of_mem (h : Fits mode Γ names) (hn : n ∈ names) (hf : Γ.lookup? n = some f) :
    ∃ τ, f = .var τ ∧ Builtin.checkedTypes.isValue τ := by
  unfold lookup? at hf
  cases hframes : lookupFrames Γ.frames n with
  | some g =>
    rw [hframes] at hf
    cases hf
    exact (h.declared n f hframes).2
  | none =>
    rw [hframes, h.plain n hn hframes] at hf
    cases hf

/-- A name outside the layout can only be built in. -/
theorem Fits.lookup?_of_not_mem (h : Fits mode Γ names) (hn : n ∉ names) :
    lookupFrames Γ.frames n = none ∧ Γ.lookup? n = (Builtin.scopes mode).root.lookup n := by
  cases hframes : lookupFrames Γ.frames n with
  | some g => exact absurd (h.declared n g hframes).1 hn
  | none => exact ⟨rfl, by rw [lookup?, hframes, h.root, Option.none_or]⟩

/-- A name outside the layout that is known is built in. -/
theorem Fits.of_not_mem (h : Fits mode Γ names) (hn : n ∉ names) (hf : Γ.lookup? n = some f) :
    Builtin.Sound n f := by
  rw [(h.lookup?_of_not_mem hn).2] at hf
  exact Builtin.sound hf

/-- What names a type is no variable. -/
theorem Fits.not_mem_of_type (h : Fits mode Γ names)
    (htype : (Γ.lookup? n).map Field.type = some .type) : n ∉ names := by
  intro hn
  obtain ⟨f, hf, hftype⟩ := Option.map_eq_some_iff.1 htype
  obtain ⟨τ, rfl, hτ⟩ := h.of_mem hn hf
  exact Builtin.not_isValue (.inl hftype) hτ

/-- What names a hash algorithm is no variable. -/
theorem Fits.not_mem_of_hash {span : Span} {c : Opcode} (h : Fits mode Γ names)
    (htype : (Γ.lookup? n).map Field.type = some Builtin.ids.hash)
    (hc : Lower.hashOpcode? (.var (.name n span)) = some c) : n ∉ names := by
  intro hn
  have hroot : (Γ.root.lookup n).isSome := by
    rw [h.root]
    exact Builtin.root_isSome_of_mem (List.mem_append_left _ (mem_of_hashOpcode? hc))
  cases hframes : lookupFrames Γ.frames n with
  | none =>
    rw [h.plain n hn hframes] at hroot
    cases hroot
  | some f =>
    -- Only what can hold anything hides the algorithm, and that is of another type.
    cases h.hidden n f hframes hroot
    rw [lookup?, hframes, Option.some_or, Option.map_some] at htype
    exact absurd htype (by decide +kernel)

end Scopes

/-! ## Expressions that suit a layout -/

/-- What is asked of an expression for its code to fit a layout: a slot for every name that it
assigns, functions that may be called, and integers only, unless byte strings are admitted. -/
structure Expr.Suits (S : Setting) (names : List String) (e : Expr) : Prop where
  assigned : e.assigned ⊆ names
  called : ∀ f ∈ e.called, f ≠ Builtin.hashFunction.1 → S.callable f
  integral : S.held .bytes ∨ ∃ readable, e.isIntegral readable = true

variable {S : Setting} {names : List String} {e e' : Expr}

theorem Expr.Suits.part (h : e.Suits S names) (hassigned : e'.assigned ⊆ e.assigned)
    (hcalled : e'.called ⊆ e.called)
    (hintegral : ∀ readable, e.isIntegral readable = true → e'.isIntegral readable = true) :
    e'.Suits S names where
  assigned := fun _ hn => h.assigned (hassigned hn)
  called := fun f hf => h.called f (hcalled hf)
  integral := by
    rcases h.integral with hheld | ⟨readable, he⟩
    · exact .inl hheld
    · exact .inr ⟨readable, hintegral readable he⟩

/-- All types are held if byte strings are. -/
theorem Setting.held_of_bytes (h : S.held .bytes) (k : StackType) : S.held k := by
  cases k with
  | uint64 => exact S.held_uint64
  | bytes => exact h
  | any => exact S.held_any

end ContractCompiler
