import ContractCompiler.Text.Blank
import ContractCompiler.Text.Bytes
import ContractCompiler.Token.Fault

/-!
# Reading tokens

A text is cut into tokens from left to right: blank characters separate tokens, and each
token is the longest piece of its kind.
-/

namespace ContractCompiler

/-- A fault and how many bytes after the start of its token it lies. -/
structure LexFaultAt where
  fault : LexFault
  distance : Nat
deriving DecidableEq, Repr

/-- A lexeme that was read: what it is, its length in bytes, and the text after it. -/
structure LexemeRead where
  lexeme : Lexeme
  len : Nat
  rest : List Char
deriving DecidableEq, Repr

/-- The piece of a text up to and including the first `*/`, in reverse onto `acc`, and
the text after it. -/
def untilCommentEnd : List Char → (acc : List Char) → Option (List Char × List Char)
  | '*' :: '/' :: rest, acc => some ('/' :: '*' :: acc, rest)
  | c :: rest, acc => untilCommentEnd rest (c :: acc)
  | [], _ => none

/-- The body of a string literal up to its closing quote, in reverse onto `acc`, and the
text after the quote. A backslash protects the character after it. -/
def untilQuote : List Char → (acc : List Char) → Option (List Char × List Char)
  | [], _ => none
  | '"' :: rest, acc => some (acc, rest)
  | ['\\'], _ => none
  | '\\' :: c :: rest, acc => untilQuote rest (c :: '\\' :: acc)
  | c :: rest, acc => untilQuote rest (c :: acc)

/-- The base that an integer literal announces, the length of the mark that announces
it, and the text after the mark. -/
def radixMark : List Char → Radix × Nat × List Char
  | '0' :: 'x' :: rest => (.hexadecimal, 2, rest)
  | '0' :: 'X' :: rest => (.hexadecimal, 2, rest)
  | '0' :: 'b' :: rest => (.binary, 2, rest)
  | '0' :: 'B' :: rest => (.binary, 2, rest)
  | '0' :: rest => (.octal, 1, rest)
  | cs => (.decimal, 0, cs)

namespace Lexeme

/-- Reads an integer literal. A lone `0` is an octal literal with the digit `0`. -/
def readNumber (cs : List Char) : Except LexFaultAt LexemeRead :=
  let (radix, mark, body) := radixMark cs
  let digits := body.takeWhile radix.isDigit
  let rest := body.dropWhile radix.isDigit
  match rest.head? with
  | some c =>
    if isIdentContinue c then .error ⟨.badDigit c radix, mark + digits.length⟩
    else finish radix mark digits rest
  | none => finish radix mark digits rest
where
  /-- The literal, once it is known to end well. -/
  finish (radix : Radix) (mark : Nat) (digits rest : List Char) :
      Except LexFaultAt LexemeRead :=
    match digits, radix with
    | [], .octal => .ok ⟨.number .octal "0", mark, rest⟩
    | [], _ => .error ⟨.noDigits, 0⟩
    | _, _ => .ok ⟨.number radix (String.ofList digits), mark + digits.length, rest⟩

/-- Reads the lexeme at the front of the text `c :: cs`, where `c` is not blank. -/
def read (c : Char) (cs : List Char) : Except LexFaultAt LexemeRead :=
  if c = '/' ∧ cs.head? = some '/' then
    let text := c :: cs.takeWhile (· ≠ '\n')
    .ok ⟨.comment (String.ofList text), Text.byteLength text, cs.dropWhile (· ≠ '\n')⟩
  else if c = '/' ∧ cs.head? = some '*' then
    match untilCommentEnd cs.tail ['*', '/'] with
    | some (acc, rest) =>
      .ok ⟨.comment (String.ofList acc.reverse), Text.byteLength acc, rest⟩
    | none => .error ⟨.unclosedComment, 0⟩
  else if c = '"' then
    match untilQuote cs [] with
    | some (acc, rest) =>
      .ok ⟨.string (String.ofList acc.reverse), Text.byteLength acc + 2, rest⟩
    | none => .error ⟨.unclosedString, 0⟩
  else if c.isDigit then
    readNumber (c :: cs)
  else if isIdentStart c then
    let name := c :: cs.takeWhile isIdentContinue
    .ok ⟨.identifier (String.ofList name), name.length, cs.dropWhile isIdentContinue⟩
  else
    match Symbol.read? (c :: cs) with
    | some s => .ok ⟨.symbol s, s.chars.length, cs.drop (s.chars.length - 1)⟩
    | none => .error ⟨.strayCharacter c, 0⟩

/-! ## What is read is not read again -/

theorem length_untilCommentEnd_le {cs acc out rest : List Char}
    (h : untilCommentEnd cs acc = some (out, rest)) : rest.length ≤ cs.length := by
  fun_induction untilCommentEnd cs acc with
  | case1 => simp_all; omega
  | case2 _ _ _ _ ih => have := ih h; simp; omega
  | case3 => simp at h

theorem length_untilQuote_le {cs acc out rest : List Char}
    (h : untilQuote cs acc = some (out, rest)) : rest.length ≤ cs.length := by
  fun_induction untilQuote cs acc with
  | case1 => simp at h
  | case2 => simp_all
  | case3 => simp at h
  | case4 _ _ _ ih => have := ih h; simp; omega
  | case5 _ _ _ _ _ _ ih => have := ih h; simp; omega

theorem length_dropWhile_le (p : Char → Bool) (cs : List Char) :
    (cs.dropWhile p).length ≤ cs.length :=
  (List.dropWhile_suffix p).length_le

/-- Either a mark announces the base and is used up, or the literal is decimal. -/
theorem radixMark_cases (c : Char) (cs : List Char) :
    (radixMark (c :: cs)).2.2.length ≤ cs.length ∨
      radixMark (c :: cs) = (.decimal, 0, c :: cs) := by
  unfold radixMark
  split <;> simp_all

/-- A decimal literal starts with a digit of its base. -/
theorem isDigit_decimal {c : Char} (h : c.isDigit = true) : Radix.isDigit .decimal c = true := by
  simp only [Radix.isDigit, Radix.digitValue, h, if_true, Radix.base, decide_eq_true_eq]
  simp only [Char.isDigit, Bool.and_eq_true, decide_eq_true_eq] at h
  have : c.toNat ≤ 57 := h.2
  have : '0'.toNat = 48 := rfl
  omega

/-- A literal that ends well leaves the text after its digits. -/
theorem rest_finish {radix : Radix} {mark : Nat} {digits rest : List Char} {r : LexemeRead}
    (h : readNumber.finish radix mark digits rest = .ok r) : r.rest = rest := by
  unfold readNumber.finish at h
  split at h <;> simp_all <;> subst h <;> rfl

/-- Reading an integer literal uses up its first digit. -/
theorem length_readNumber_le {c : Char} {cs : List Char} {r : LexemeRead}
    (hc : c.isDigit = true) (h : readNumber (c :: cs) = .ok r) :
    r.rest.length ≤ cs.length := by
  have hrest : r.rest =
      (radixMark (c :: cs)).2.2.dropWhile (radixMark (c :: cs)).1.isDigit := by
    unfold readNumber at h
    dsimp only at h
    split at h
    · split at h
      · simp at h
      · exact rest_finish h
    · exact rest_finish h
  rw [hrest]
  rcases radixMark_cases c cs with hle | heq
  · exact Nat.le_trans (length_dropWhile_le _ _) hle
  · rw [heq]
    simp only [List.dropWhile_cons, isDigit_decimal hc, if_true]
    exact length_dropWhile_le _ _

/-- Reading a lexeme uses up its first character. -/
theorem length_read_le {c : Char} {cs : List Char} {r : LexemeRead} (h : read c cs = .ok r) :
    r.rest.length ≤ cs.length := by
  unfold read at h
  split at h
  · simp only [Except.ok.injEq] at h; subst h; exact length_dropWhile_le _ _
  split at h
  · split at h
    · rename_i acc rest hu
      simp only [Except.ok.injEq] at h; subst h
      have := length_untilCommentEnd_le hu
      simp at this ⊢; omega
    · simp at h
  split at h
  · split at h
    · rename_i acc rest hu
      simp only [Except.ok.injEq] at h; subst h
      exact length_untilQuote_le hu
    · simp at h
  split at h
  · exact length_readNumber_le ‹_› h
  split at h
  · simp only [Except.ok.injEq] at h; subst h; exact length_dropWhile_le _ _
  split at h
  · simp only [Except.ok.injEq] at h; subst h; simp
  · simp at h

end Lexeme

/-- Reads the tokens of a text that starts at byte `offset`; `acc` holds the tokens before
it, newest first. A fault comes with its offset. -/
def readTokens (cs : List Char) (offset : Nat) (acc : List Token) :
    Except (LexFault × Nat) (List Token) :=
  match cs with
  | [] => .ok acc.reverse
  | c :: cs =>
    if Text.isBlank c then readTokens cs (offset + c.utf8Size) acc
    else
      match h : Lexeme.read c cs with
      | .error e => .error (e.fault, offset + e.distance)
      | .ok r =>
        have := Lexeme.length_read_le h
        readTokens r.rest (offset + r.len) (⟨r.lexeme, offset, r.len⟩ :: acc)
termination_by cs.length

end ContractCompiler
