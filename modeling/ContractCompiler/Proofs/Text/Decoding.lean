import Mathlib.Tactic.IntervalCases
import ContractCompiler.Text.Bytes

/-!
# Decoding what was encoded

The bytes of a text are decoded as the text again.
-/

namespace ContractCompiler.Text

theorem toList_loop (bs : ByteArray) (i : Nat) (acc : List UInt8) :
    ByteArray.toList.loop bs i acc = acc.reverse ++ bs.data.toList.drop i := by
  induction i, acc using ByteArray.toList.loop.induct bs with
  | case1 i acc hi ih =>
    have hdrop : bs.data.toList.drop i = bs.get! i :: bs.data.toList.drop (i + 1) := by
      have hlen : i < bs.data.toList.length := by simpa using hi
      rw [List.drop_eq_getElem_cons hlen]
      simp [ByteArray.get!, hi]
    rw [ByteArray.toList.loop.eq_def, if_pos hi, ih, hdrop]
    simp
  | case2 i acc hi =>
    rw [ByteArray.toList.loop.eq_def, if_neg hi, List.drop_eq_nil_of_le (by simpa using hi)]
    simp

theorem utf8_eq (cs : List Char) : utf8 cs = cs.flatMap String.utf8EncodeChar := by
  rw [utf8, String.toUTF8_eq_toByteArray, String.toByteArray_ofList, List.utf8Encode,
    ByteArray.toList, toList_loop, List.data_toByteArray]
  rfl

theorem toNat_range (c : Char) : c.toNat < 0xD800 ∨ 0xDFFF < c.toNat ∧ c.toNat < 0x110000 :=
  c.valid

/-- A byte after the first one gives six more bits. -/
theorem continueChar_cons {following bits low high used n : Nat} {bs : List UInt8}
    (hn : n < 256) (hlow : low ≤ n) (hhigh : n ≤ high) :
    continueChar (following + 1) bits low high used (UInt8.ofNat n :: bs) =
      continueChar following (bits * 64 + (n - 0x80)) 0x80 0xBF (used + 1) bs := by
  have hbyte : (UInt8.ofNat n).toNat = n := by
    rw [UInt8.toNat_ofNat', Nat.mod_eq_of_lt hn]
  rw [continueChar, hbyte, if_pos ⟨hlow, hhigh⟩]

theorem decodeOne_of_lead {n following bits low high : Nat} {bs : List UInt8} (hn : n < 256)
    (hlead : Lead.of? n = some ⟨following, bits, low, high⟩) :
    decodeOne (UInt8.ofNat n) bs = continueChar following bits low high 0 bs := by
  have hbyte : (UInt8.ofNat n).toNat = n := by
    rw [UInt8.toNat_ofNat', Nat.mod_eq_of_lt hn]
  rw [decodeOne, hbyte, hlead]

/-- The first byte of a character with two bytes. -/
theorem lead_two {b : Nat} (hlow : 2 ≤ b) (hhigh : b < 32) :
    Lead.of? (b + 192) = some ⟨1, b, 0x80, 0xBF⟩ := by
  simp only [Lead.of?]
  rw [if_neg (by omega), if_neg (by omega), if_pos (by omega)]
  simp

/-- The first byte of a character with three bytes. The second byte has a narrower range after two
of them. -/
theorem lead_three {b : Nat} (hhigh : b < 16) :
    ∃ low high, Lead.of? (b + 224) = some ⟨2, b, low, high⟩ ∧
      (low = if b = 0 then 0xA0 else 0x80) ∧ high = if b = 13 then 0x9F else 0xBF := by
  interval_cases b <;> exact ⟨_, _, rfl, rfl, rfl⟩

/-- The first byte of a character with four bytes. -/
theorem lead_four {b : Nat} (hhigh : b < 5) :
    ∃ low high, Lead.of? (b + 240) = some ⟨3, b, low, high⟩ ∧
      (low = if b = 0 then 0x90 else 0x80) ∧ high = if b = 4 then 0x8F else 0xBF := by
  interval_cases b <;> exact ⟨_, _, rfl, rfl, rfl⟩

/-- The bytes of a character are decoded as the character. -/
theorem decodeOne_encodeChar (c : Char) (bs : List UInt8) :
    ∃ b cs, String.utf8EncodeChar c = b :: cs ∧ decodeOne b (cs ++ bs) = (some c, cs.length) := by
  have hrange := toNat_range c
  have hchar : Char.ofNat c.toNat = c := Char.ofNat_toNat c
  generalize hv : c.toNat = v at hrange hchar
  have hencode : String.utf8EncodeChar c = _ := String.utf8EncodeChar.eq_1 c
  rw [show c.val.toNat = v from hv] at hencode
  split at hencode
  case isTrue h1 =>
    refine ⟨_, [], hencode, ?_⟩
    have hlead : Lead.of? v = some ⟨0, v, 0, 0⟩ := by
      rw [Lead.of?, if_pos (by omega)]
    rw [decodeOne_of_lead (by omega) hlead, continueChar, hchar]
    rfl
  split at hencode
  case isTrue h1 h2 =>
    refine ⟨_, _, hencode, ?_⟩
    have hlead := lead_two (b := v / 64 % 32) (by omega) (by omega)
    rw [decodeOne_of_lead (by omega) hlead, List.cons_append,
      continueChar_cons (by omega) (by omega) (by omega), continueChar]
    rw [show v / 64 % 32 * 64 + (v % 64 + 128 - 128) = v by omega, hchar]
    rfl
  split at hencode
  case isTrue h1 h2 h3 =>
    refine ⟨_, _, hencode, ?_⟩
    obtain ⟨low, high, hlead, hlow, hhigh⟩ := lead_three (b := v / 4096 % 16) (by omega)
    have hlow' : low ≤ v / 64 % 64 + 128 := by split at hlow <;> omega
    have hhigh' : v / 64 % 64 + 128 ≤ high := by split at hhigh <;> omega
    rw [decodeOne_of_lead (by omega) hlead, List.cons_append,
      continueChar_cons (by omega) hlow' hhigh', List.cons_append,
      continueChar_cons (by omega) (by omega) (by omega), continueChar]
    rw [show (v / 4096 % 16 * 64 + (v / 64 % 64 + 128 - 128)) * 64 + (v % 64 + 128 - 128) = v by
      omega, hchar]
    rfl
  case isFalse h1 h2 h3 =>
    refine ⟨_, _, hencode, ?_⟩
    obtain ⟨low, high, hlead, hlow, hhigh⟩ := lead_four (b := v / 262144 % 8) (by omega)
    have hlow' : low ≤ v / 4096 % 64 + 128 := by split at hlow <;> omega
    have hhigh' : v / 4096 % 64 + 128 ≤ high := by split at hhigh <;> omega
    rw [decodeOne_of_lead (by omega) hlead, List.cons_append,
      continueChar_cons (by omega) hlow' hhigh', List.cons_append,
      continueChar_cons (by omega) (by omega) (by omega), List.cons_append,
      continueChar_cons (by omega) (by omega) (by omega), continueChar]
    rw [show ((v / 262144 % 8 * 64 + (v / 4096 % 64 + 128 - 128)) * 64 +
      (v / 64 % 64 + 128 - 128)) * 64 + (v % 64 + 128 - 128) = v by omega, hchar]
    rfl

/-- Bytes that belong to a character which was already read are skipped. -/
theorem decodeAll_skip (skipped bs : List UInt8) (acc : List (Option Char)) :
    decodeAll skipped.length (skipped ++ bs) acc = decodeAll 0 bs acc := by
  induction skipped with
  | nil => rfl
  | cons b skipped ih => exact ih

theorem decodeAll_utf8 (cs : List Char) (acc : List (Option Char)) :
    decodeAll 0 (cs.flatMap String.utf8EncodeChar) acc = acc.reverse ++ cs.map some := by
  induction cs generalizing acc with
  | nil => simp [decodeAll]
  | cons c cs ih =>
    obtain ⟨b, rest, hencode, hdecode⟩ :=
      decodeOne_encodeChar c (cs.flatMap String.utf8EncodeChar)
    rw [List.flatMap_cons, hencode, List.cons_append, decodeAll, hdecode]
    dsimp only
    rw [decodeAll_skip, ih]
    simp

/-- The bytes of a text are decoded as the text. -/
theorem decodeLossy_utf8 (cs : List Char) : decodeLossy (utf8 cs) = cs := by
  rw [decodeLossy, utf8_eq, decodeAll_utf8, List.reverse_nil, List.nil_append, List.map_map]
  exact List.map_id cs

end ContractCompiler.Text
