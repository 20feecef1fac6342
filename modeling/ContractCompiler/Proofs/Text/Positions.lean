import Mathlib.Data.List.Induction
import ContractCompiler.Text.Position
import ContractCompiler.Proofs.Text.Slices

/-!
# Lines and columns

A position is that of the last boundary before an offset, with the line feeds before it and the
characters after the last of them counted. Lines and columns order the boundaries of a text as
offsets do.
-/

namespace ContractCompiler.Text

/-- An offset at which no character of a text is cut. -/
def IsBoundary (text : List Char) (n : Nat) : Prop :=
  ∃ before after, text = before ++ after ∧ byteLength before = n

namespace Position

/-- One position comes before another: on an earlier line, or earlier on the same line. -/
def Precedes (p q : Position) : Prop :=
  p.line < q.line ∨ p.line = q.line ∧ p.column < q.column

/-- A position counts what stands before it. -/
structure Counts (p : Position) (before : List Char) : Prop where
  offset : p.offset = byteLength before
  line : p.line = before.count '\n' + 1
  column : p.column = (before.reverse.takeWhile (· ≠ '\n')).length + 1

/-- `p` is the position of the last boundary of a text that is not after `target`. -/
structure Locates (text : List Char) (target : Nat) (p : Position) : Prop where
  counts : ∃ before after, text = before ++ after ∧ p.Counts before
  le : p.offset ≤ min target (byteLength text)
  greatest : ∀ n ≤ target, IsBoundary text n → n ≤ p.offset

theorem Precedes.trans {p q r : Position} (h : p.Precedes q) (h' : q.Precedes r) :
    p.Precedes r := by
  unfold Precedes at *
  omega

theorem Precedes.ne {p q : Position} (h : p.Precedes q) :
    ¬(p.line = q.line ∧ p.column = q.column) := by
  unfold Precedes at h
  omega

/-! ## One character -/

theorem Counts.origin : origin.Counts [] :=
  ⟨rfl, rfl, rfl⟩

theorem Counts.advance {p : Position} {before : List Char} (h : p.Counts before) (c : Char) :
    (p.advance c).Counts (before ++ [c]) := by
  unfold Position.advance
  split
  case isTrue hc =>
    subst hc
    constructor
    · simp [h.offset]
    · simp [h.line]
    · simp
  case isFalse hc =>
    constructor
    · simp [h.offset]
    · have hnone : [c].count '\n' = 0 := List.count_eq_zero.2 (by simpa using Ne.symm hc)
      rw [h.line, List.count_append, hnone, Nat.add_zero]
    · simp [h.column, hc]

theorem precedes_advance (p : Position) (c : Char) : p.Precedes (p.advance c) := by
  unfold Precedes Position.advance
  split
  · exact .inl (Nat.lt_succ_self _)
  · exact .inr ⟨rfl, Nat.lt_succ_self _⟩

/-! ## Several characters -/

/-- The position after some characters at the start of a text. -/
def past (before : List Char) : Position :=
  before.foldl Position.advance origin

theorem past_concat (before : List Char) (c : Char) :
    past (before ++ [c]) = (past before).advance c :=
  List.foldl_append ..

theorem counts_past (before : List Char) : (past before).Counts before := by
  induction before using List.reverseRecOn with
  | nil => exact .origin
  | append_singleton before c ih =>
    rw [past_concat]
    exact ih.advance c

/-- Each character leads to a later position. -/
theorem precedes_past (before : List Char) {between : List Char} (h : between ≠ []) :
    (past before).Precedes (past (before ++ between)) := by
  induction between using List.reverseRecOn with
  | nil => exact absurd rfl h
  | append_singleton between c ih =>
    rw [← List.append_assoc, past_concat]
    by_cases hnil : between = []
    · subst hnil
      rw [List.append_nil]
      exact precedes_advance ..
    · exact (ih hnil).trans (precedes_advance ..)

/-- Reading goes on for as long as the characters end at or before the target. -/
theorem advanceTo_past (target : Nat) (before cs : List Char) (h : byteLength before ≤ target) :
    ∃ s rest, cs = s ++ rest ∧ advanceTo target (past before) cs = past (before ++ s) ∧
      byteLength (before ++ s) ≤ target ∧
      ∀ c rest', rest = c :: rest' → target < byteLength (before ++ s ++ [c]) := by
  induction cs generalizing before with
  | nil =>
    refine ⟨[], [], rfl, by rw [advanceTo, List.append_nil], by simpa using h, fun c rest' hnil => ?_⟩
    cases hnil
  | cons c cs ih =>
    have hoffset := (counts_past before).offset
    rw [advanceTo]
    split
    case isTrue hle =>
      have hfits : byteLength (before ++ [c]) ≤ target := by simpa [hoffset] using hle
      obtain ⟨s, rest, rfl, hs, hread, hstop⟩ := ih (before ++ [c]) hfits
      rw [past_concat] at hs
      rw [List.append_assoc, List.singleton_append] at hs hread hstop
      exact ⟨c :: s, rest, rfl, hs, hread, hstop⟩
    case isFalse hgt =>
      refine ⟨[], c :: cs, rfl, by rw [List.append_nil], by simpa using h, ?_⟩
      rintro d rest' ⟨rfl, rfl⟩
      simpa [hoffset] using hgt

/-! ## Offsets -/

/-- Of two starts of a text, the shorter one is the start of the other. -/
theorem exists_between {before after before' after' : List Char}
    (h : before ++ after = before' ++ after') (hlt : byteLength before < byteLength before') :
    ∃ between, between ≠ [] ∧ before' = before ++ between := by
  rcases List.append_eq_append_iff.1 h with ⟨between, hbefore, -⟩ | ⟨between, hbefore, -⟩
  · refine ⟨between, ?_, hbefore⟩
    rintro rfl
    rw [hbefore, List.append_nil] at hlt
    exact Nat.lt_irrefl _ hlt
  · rw [hbefore, byteLength_append] at hlt
    omega

/-- The position is that after the longest start of the text that ends at or before the target. -/
theorem locate_spec (text : List Char) (target : Nat) :
    ∃ s rest, text = s ++ rest ∧ locate text target = past s ∧ byteLength s ≤ target ∧
      ∀ c rest', rest = c :: rest' → target < byteLength (s ++ [c]) :=
  advanceTo_past target [] text (Nat.zero_le _)

theorem locates_locate (text : List Char) (target : Nat) :
    Locates text target (locate text target) := by
  obtain ⟨s, rest, rfl, hs, hread, hstop⟩ := locate_spec text target
  have hoffset := (counts_past s).offset
  rw [hs]
  refine ⟨⟨s, rest, rfl, counts_past s⟩, ?_, ?_⟩
  · rw [hoffset, byteLength_append]
    omega
  · rintro _ hle ⟨before, after, htext, rfl⟩
    rw [hoffset]
    by_contra hlt
    obtain ⟨between, hne, rfl⟩ := exists_between htext (Nat.lt_of_not_le hlt)
    obtain ⟨c, between, rfl⟩ := List.exists_cons_of_ne_nil hne
    have hrest : rest = c :: (between ++ after) := by
      simpa [List.append_assoc] using htext
    have hnext := hstop c _ hrest
    simp only [byteLength_append, byteLength_cons, byteLength_nil] at hnext hle
    omega

/-- A boundary has its own position. -/
theorem offset_locate {text : List Char} {a : Nat} (h : IsBoundary text a) :
    (locate text a).offset = a := by
  have hloc := locates_locate text a
  exact Nat.le_antisymm (Nat.le_trans hloc.le (Nat.min_le_left ..))
    (hloc.greatest a (Nat.le_refl a) h)

/-- Later boundaries have later positions. -/
theorem precedes_locate {text : List Char} {a b : Nat} (ha : IsBoundary text a)
    (hb : IsBoundary text b) (hlt : a < b) : (locate text a).Precedes (locate text b) := by
  obtain ⟨s, rest, htext, hs, -⟩ := locate_spec text a
  obtain ⟨s', rest', htext', hs', -⟩ := locate_spec text b
  rw [← offset_locate ha, ← offset_locate hb, hs, hs', (counts_past s).offset,
    (counts_past s').offset] at hlt
  obtain ⟨between, hne, rfl⟩ := exists_between (htext.symm.trans htext') hlt
  rw [hs, hs']
  exact precedes_past s hne

/-- Every offset of a text has the position of the last boundary that is not after it, and lines and
columns order the boundaries of the text, and tell them apart, as offsets do. -/
theorem locate_embeds (text : List Char) :
    (∀ target, Locates text target (locate text target)) ∧
    ∀ a b, IsBoundary text a → IsBoundary text b →
      (a < b → (locate text a).Precedes (locate text b)) ∧
      ((locate text a).line = (locate text b).line ∧
        (locate text a).column = (locate text b).column → a = b) := by
  refine ⟨locates_locate text, fun a b ha hb => ⟨precedes_locate ha hb, fun hsame => ?_⟩⟩
  rcases Nat.lt_trichotomy a b with hlt | heq | hgt
  · exact absurd hsame (precedes_locate ha hb hlt).ne
  · exact heq
  · exact absurd ⟨hsame.1.symm, hsame.2.symm⟩ (precedes_locate hb ha hgt).ne

end Position

end ContractCompiler.Text
