/-!
# Texts as bytes

Offsets and lengths of the source count UTF-8 bytes. A text is a list of
characters here, and a byte offset is a *boundary* when some initial run of
characters has exactly that many bytes.
-/

namespace ContractCompiler.Text

/-- The number of UTF-8 bytes of a text. -/
def byteLength (cs : List Char) : Nat :=
  cs.foldl (fun n c => n + c.utf8Size) 0

/-- The number of leading characters of a text that take exactly `n` bytes, added to `k`. -/
def charsSpanning (n k : Nat) : List Char → Option Nat
  | [] => if n = 0 then some k else none
  | c :: cs =>
    if n = 0 then some k
    else if c.utf8Size ≤ n then charsSpanning (n - c.utf8Size) (k + 1) cs
    else none

/-- The text from byte `start` up to byte `stop`. There is none if the range is
reversed, reaches past the end, or cuts a character. -/
def slice (cs : List Char) (start stop : Nat) : Option (List Char) := do
  guard (start ≤ stop)
  let before ← charsSpanning start 0 cs
  let rest := cs.drop before
  let inside ← charsSpanning (stop - start) 0 rest
  return rest.take inside

/-- The UTF-8 bytes of a text. -/
def utf8 (cs : List Char) : List UInt8 :=
  (String.ofList cs).toUTF8.toList

/-! ## Decoding -/

/-- The shape that the first byte of a character announces: how many bytes follow,
the bits it contributes, and the range its second byte must lie in. -/
structure Lead where
  following : Nat
  bits : Nat
  low : Nat
  high : Nat

/-- The shape announced by a first byte; none for a byte that starts no character.
The narrowed ranges of the second byte exclude overlong forms, surrogates and
code points past U+10FFFF. -/
def Lead.of? (b : Nat) : Option Lead :=
  if b < 0x80 then some ⟨0, b, 0, 0⟩
  else if b < 0xC2 then none
  else if b < 0xE0 then some ⟨1, b - 0xC0, 0x80, 0xBF⟩
  else if b = 0xE0 then some ⟨2, 0, 0xA0, 0xBF⟩
  else if b = 0xED then some ⟨2, 0xD, 0x80, 0x9F⟩
  else if b < 0xF0 then some ⟨2, b - 0xE0, 0x80, 0xBF⟩
  else if b = 0xF0 then some ⟨3, 0, 0x90, 0xBF⟩
  else if b < 0xF4 then some ⟨3, b - 0xF0, 0x80, 0xBF⟩
  else if b = 0xF4 then some ⟨3, 4, 0x80, 0x8F⟩
  else none

/-- What the bytes after a first byte give: a whole character, or nothing. Either
way, the second component is how many of them belong to it. -/
def continueChar : (following bits low high used : Nat) → List UInt8 → Option Char × Nat
  | 0, bits, _, _, used, _ => (some (Char.ofNat bits), used)
  | _ + 1, _, _, _, used, [] => (none, used)
  | following + 1, bits, low, high, used, b :: bs =>
    if low ≤ b.toNat ∧ b.toNat ≤ high then
      continueChar following (bits * 64 + (b.toNat - 0x80)) 0x80 0xBF (used + 1) bs
    else
      (none, used)

/-- One character off the front of some bytes, none if the longest part that could
begin a character is not one. The second component is how many bytes after the
first one belong to that part. -/
def decodeOne (b : UInt8) (bs : List UInt8) : Option Char × Nat :=
  match Lead.of? b.toNat with
  | none => (none, 0)
  | some lead => continueChar lead.following lead.bits lead.low lead.high 0 bs

/-- The character that stands for bytes that cannot be decoded. -/
def replacementChar : Char := '\uFFFD'

/-- Decodes all bytes; `skip` of them belong to a character that was already read. -/
def decodeAll : (skip : Nat) → List UInt8 → (acc : List (Option Char)) → List (Option Char)
  | _, [], acc => acc.reverse
  | skip + 1, _ :: bs, acc => decodeAll skip bs acc
  | 0, b :: bs, acc =>
    let (c, used) := decodeOne b bs
    decodeAll used bs (c :: acc)

/-- The text of some bytes, with one replacement character for each maximal part
that cannot be decoded. -/
def decodeLossy (bs : List UInt8) : List Char :=
  (decodeAll 0 bs []).map (·.getD replacementChar)

/-- The text of some bytes, if all of them can be decoded. -/
def decode? (bs : List UInt8) : Option (List Char) :=
  (decodeAll 0 bs []).mapM id

end ContractCompiler.Text
