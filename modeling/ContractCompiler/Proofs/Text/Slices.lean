import ContractCompiler.Text.Bytes

/-!
# Slices of a text

A text between two byte offsets is a piece of the text: what stands before it takes as many bytes as
the first offset says, and the piece as many as lie between the two.
-/

namespace ContractCompiler.Text

@[simp] theorem byteLength_nil : byteLength [] = 0 := rfl

theorem foldl_utf8Size (cs : List Char) (n : Nat) :
    cs.foldl (fun n c => n + c.utf8Size) n = n + byteLength cs := by
  induction cs generalizing n with
  | nil => rfl
  | cons c cs ih =>
    have hcons : byteLength (c :: cs) = 0 + c.utf8Size + byteLength cs := ih _
    rw [List.foldl_cons, ih, hcons]
    omega

@[simp] theorem byteLength_cons (c : Char) (cs : List Char) :
    byteLength (c :: cs) = c.utf8Size + byteLength cs := by
  rw [byteLength, List.foldl_cons, foldl_utf8Size, Nat.zero_add]

@[simp] theorem byteLength_append (cs ds : List Char) :
    byteLength (cs ++ ds) = byteLength cs + byteLength ds := by
  rw [byteLength, List.foldl_append, foldl_utf8Size]
  rfl

@[simp] theorem byteLength_reverse (cs : List Char) : byteLength cs.reverse = byteLength cs := by
  induction cs with
  | nil => rfl
  | cons c cs ih => rw [List.reverse_cons, byteLength_append, ih]; simp [Nat.add_comm]

theorem byteLength_eq_zero {cs : List Char} : byteLength cs = 0 ↔ cs = [] := by
  cases cs with
  | nil => simp
  | cons c cs =>
    have hpos := c.utf8Size_pos
    simp
    omega

/-- Where every character takes one byte, bytes count characters. -/
theorem byteLength_of_single {cs : List Char} (h : ∀ c ∈ cs, c.utf8Size = 1) :
    byteLength cs = cs.length := by
  induction cs with
  | nil => rfl
  | cons c cs ih =>
    obtain ⟨hc, hcs⟩ := List.forall_mem_cons.1 h
    rw [byteLength_cons, hc, ih hcs, List.length_cons, Nat.add_comm]

/-- Characters are counted off until their bytes are used up. -/
theorem charsSpanning_eq_some {n k m : Nat} {cs : List Char} :
    charsSpanning n k cs = some m ↔
      ∃ s rest, cs = s ++ rest ∧ byteLength s = n ∧ m = k + s.length := by
  induction cs generalizing n k with
  | nil =>
    rw [charsSpanning]
    constructor
    · intro h
      split at h
      case isTrue hn =>
        cases h
        exact ⟨[], [], rfl, hn.symm, rfl⟩
      case isFalse => cases h
    · rintro ⟨s, rest, hs, rfl, rfl⟩
      obtain ⟨rfl, -⟩ := List.append_eq_nil_iff.1 hs.symm
      rfl
  | cons c cs ih =>
    rw [charsSpanning]
    constructor
    · intro h
      split at h
      case isTrue hn =>
        cases h
        exact ⟨[], c :: cs, rfl, hn.symm, rfl⟩
      case isFalse hn =>
        split at h
        case isTrue hle =>
          obtain ⟨s, rest, rfl, hs, rfl⟩ := ih.1 h
          refine ⟨c :: s, rest, rfl, ?_, ?_⟩
          · rw [byteLength_cons, hs]
            omega
          · rw [List.length_cons]
            omega
        case isFalse => cases h
    · rintro ⟨s, rest, hs, rfl, rfl⟩
      cases s with
      | nil => rfl
      | cons d s =>
        obtain ⟨rfl, rfl⟩ := List.cons_eq_cons.1 hs
        have hpos := c.utf8Size_pos
        rw [byteLength_cons, if_neg (by omega), if_pos (by omega)]
        refine ih.2 ⟨s, rest, rfl, by omega, ?_⟩
        rw [List.length_cons]
        omega

/-- A slice is a piece of the text, found by counting the bytes before it and in it. -/
theorem slice_eq_some_iff {text s : List Char} {start stop : Nat} :
    slice text start stop = some s ↔ ∃ before after, text = before ++ s ++ after ∧
      byteLength before = start ∧ start + byteLength s = stop := by
  constructor
  · intro h
    obtain ⟨⟨⟩, hguard, h⟩ := Option.bind_eq_some_iff.1 h
    obtain ⟨n, hn, h⟩ := Option.bind_eq_some_iff.1 h
    obtain ⟨m, hm, h⟩ := Option.bind_eq_some_iff.1 h
    cases h
    have hle : start ≤ stop := by
      unfold guard at hguard
      split at hguard
      case isTrue hle => exact hle
      case isFalse => cases hguard
    obtain ⟨before, rest, rfl, hbefore, rfl⟩ := charsSpanning_eq_some.1 hn
    rw [Nat.zero_add, List.drop_left] at hm ⊢
    obtain ⟨s, after, rfl, hs, rfl⟩ := charsSpanning_eq_some.1 hm
    rw [Nat.zero_add, List.take_left]
    exact ⟨before, after, (List.append_assoc _ _ _).symm, hbefore, by omega⟩
  · rintro ⟨before, after, rfl, rfl, rfl⟩
    have hbefore : charsSpanning (byteLength before) 0 (before ++ s ++ after) = some before.length :=
      charsSpanning_eq_some.2 ⟨before, s ++ after, List.append_assoc _ _ _, rfl, (Nat.zero_add _).symm⟩
    have hs : charsSpanning (byteLength s) 0 (s ++ after) = some s.length :=
      charsSpanning_eq_some.2 ⟨s, after, rfl, rfl, (Nat.zero_add _).symm⟩
    unfold slice guard
    rw [if_pos (Nat.le_add_right _ _), hbefore]
    show (charsSpanning _ 0 ((before ++ s ++ after).drop before.length)).bind _ = _
    rw [List.append_assoc, List.drop_left, Nat.add_sub_cancel_left, hs]
    exact congrArg some List.take_left

end ContractCompiler.Text
