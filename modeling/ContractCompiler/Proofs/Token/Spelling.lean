import ContractCompiler.Proofs.Text.Slices
import ContractCompiler.Token.Reader

/-!
# How lexemes are spelled

A lexeme can be written in one way, or in a few if it is a number. A text starts with a lexeme if it
starts with a spelling of it, and what follows cannot belong to the lexeme. This is exactly what
`Lexeme.read` finds.
-/

namespace ContractCompiler

/-- The marks that announce a base. -/
def Radix.marks : Radix → List (List Char)
  | binary => [['0', 'b'], ['0', 'B']]
  | octal => [['0']]
  | decimal => [[]]
  | hexadecimal => [['0', 'x'], ['0', 'X']]

/-- Whether a text can stand between quotes: every quote in it is protected by a backslash, and the
last backslash protects something. -/
def isQuotable : List Char → Bool
  | [] => true
  | '"' :: _ => false
  | ['\\'] => false
  | '\\' :: _ :: cs => isQuotable cs
  | _ :: cs => isQuotable cs

namespace Lexeme

/-- The ways to write a lexeme. The octal zero may do without its digit. -/
def spellings : Lexeme → List (List Char)
  | identifier name => [name.toList]
  | number radix digits =>
    radix.marks.map (· ++ digits.toList) ++
      if radix = .octal ∧ digits = "0" then [['0']] else []
  | string body => ['"' :: (body.toList ++ ['"'])]
  | symbol s => [s.chars]
  | comment text => [text.toList]

/-- The lexemes that can be written. -/
def IsProper : Lexeme → Prop
  | identifier name => ∃ c cs, name.toList = c :: cs ∧ isIdentStart c = true ∧
      ∀ d ∈ cs, isIdentContinue d = true
  | number radix digits => digits.toList ≠ [] ∧ (∀ c ∈ digits.toList, radix.isDigit c = true) ∧
      (radix = .decimal → digits.toList.head? ≠ some '0')
  | string body => isQuotable body.toList = true
  | symbol _ => True
  | comment text => (∃ body, text.toList = '/' :: '/' :: body ∧ '\n' ∉ body) ∨
      ∃ body, text.toList = '/' :: '*' :: (body ++ ['*', '/']) ∧ ¬ ['*', '/'] <:+: body

/-- A lexeme ends where `rest` follows it. -/
def EndsBefore : Lexeme → List Char → Prop
  | identifier _, rest | number _ _, rest => ∀ c ∈ rest.head?, isIdentContinue c = false
  | string _, _ => True
  | symbol s, rest => Symbol.read? (s.chars ++ rest) = some s ∧
      (s = .slash → ∀ c ∈ rest.head?, c ≠ '/' ∧ c ≠ '*')
  | comment text, rest => ['/', '/'] <+: text.toList → ∀ c ∈ rest.head?, c = '\n'

/-- `l.Fronts s rest`: the text `s ++ rest` starts with the lexeme `l`, which is spelled `s`. -/
structure Fronts (l : Lexeme) (s rest : List Char) : Prop where
  proper : l.IsProper
  spelled : s ∈ l.spellings
  ends : l.EndsBefore rest

end Lexeme

/-! ## Characters -/

theorem Text.isBlank_of_visible {c : Char} (h : 32 < c.toNat) (h' : c.toNat < 127) :
    isBlank c = false := by
  simp only [isBlank, blankRanges, List.any_cons, List.any_nil, Bool.or_false, Bool.or_eq_false_iff,
    Bool.and_eq_false_iff, decide_eq_false_iff_not]
  omega

theorem isAlpha_iff {c : Char} : c.isAlpha = true ↔
    65 ≤ c.toNat ∧ c.toNat ≤ 90 ∨ 97 ≤ c.toNat ∧ c.toNat ≤ 122 := by
  unfold Char.isAlpha Char.isUpper Char.isLower
  simp only [Bool.or_eq_true, Bool.and_eq_true, decide_eq_true_eq, UInt32.le_iff_toNat_le, ge_iff_le]
  rfl

theorem isDigit_iff {c : Char} : c.isDigit = true ↔ 48 ≤ c.toNat ∧ c.toNat ≤ 57 := by
  simp only [Char.isDigit, Bool.and_eq_true, decide_eq_true_eq, UInt32.le_iff_toNat_le, ge_iff_le]
  rfl

theorem eq_underscore_iff {c : Char} : (c == '_') = true ↔ c.toNat = 95 := by
  rw [beq_iff_eq, ← Char.toNat_inj]
  rfl

theorem isIdentStart_iff {c : Char} : isIdentStart c = true ↔
    (65 ≤ c.toNat ∧ c.toNat ≤ 90 ∨ 97 ≤ c.toNat ∧ c.toNat ≤ 122) ∨ c.toNat = 95 := by
  rw [isIdentStart, Bool.or_eq_true, isAlpha_iff, eq_underscore_iff]

theorem isIdentContinue_iff {c : Char} : isIdentContinue c = true ↔
    ((65 ≤ c.toNat ∧ c.toNat ≤ 90 ∨ 97 ≤ c.toNat ∧ c.toNat ≤ 122) ∨
      48 ≤ c.toNat ∧ c.toNat ≤ 57) ∨ c.toNat = 95 := by
  rw [isIdentContinue, Bool.or_eq_true, Char.isAlphanum, Bool.or_eq_true, isAlpha_iff, isDigit_iff,
    eq_underscore_iff]

theorem utf8Size_of_isIdentContinue {c : Char} (h : isIdentContinue c = true) :
    c.utf8Size = 1 := by
  rw [isIdentContinue_iff] at h
  have hle : c.val ≤ 127 := UInt32.le_iff_toNat_le.2 (show c.toNat ≤ 127 by omega)
  exact if_pos hle

/-- A digit of any base may continue an identifier. -/
theorem isIdentContinue_of_isDigit {radix : Radix} {c : Char} (h : radix.isDigit c = true) :
    isIdentContinue c = true := by
  have hvalue : Radix.digitValue c < 16 := by
    rw [Radix.isDigit, decide_eq_true_eq] at h
    refine Nat.lt_of_lt_of_le h ?_
    cases radix <;> decide
  rw [isIdentContinue_iff]
  rw [Radix.digitValue] at hvalue
  split at hvalue
  case isTrue hdigit =>
    rw [isDigit_iff] at hdigit
    omega
  split at hvalue
  case isTrue hlower =>
    have hle : 97 ≤ c.toNat := UInt32.le_iff_toNat_le.1 hlower.1
    have hge : c.toNat ≤ 102 := UInt32.le_iff_toNat_le.1 hlower.2
    omega
  split at hvalue
  case isTrue hupper =>
    have hle : 65 ≤ c.toNat := UInt32.le_iff_toNat_le.1 hupper.1
    have hge : c.toNat ≤ 70 := UInt32.le_iff_toNat_le.1 hupper.2
    omega
  case isFalse => omega

theorem isDigit_of_decimal {c : Char} (h : Radix.isDigit .decimal c = true) :
    c.isDigit = true := by
  rw [Radix.isDigit, decide_eq_true_eq, Radix.digitValue, Radix.base] at h
  split at h
  case isTrue hdigit => exact hdigit
  split at h
  case isTrue => omega
  split at h
  case isTrue => omega
  case isFalse => omega

/-! ## Pieces of a kind -/

section Pieces

variable {p : Char → Bool} {s rest : List Char}

theorem takeWhile_piece (hs : ∀ c ∈ s, p c = true) (hrest : ∀ c ∈ rest.head?, p c = false) :
    (s ++ rest).takeWhile p = s := by
  rw [List.takeWhile_append_of_pos hs]
  cases rest with
  | nil => exact List.append_nil s
  | cons c rest => rw [List.takeWhile_cons, hrest c rfl]; exact List.append_nil s

theorem dropWhile_piece (hs : ∀ c ∈ s, p c = true) (hrest : ∀ c ∈ rest.head?, p c = false) :
    (s ++ rest).dropWhile p = rest := by
  rw [List.dropWhile_append_of_pos hs]
  cases rest with
  | nil => rfl
  | cons c rest => rw [List.dropWhile_cons, hrest c rfl]; rfl

theorem head?_piece (hs : s ≠ []) : (s ++ rest).head? = s.head? := by
  cases s with
  | nil => exact absurd rfl hs
  | cons c s => rfl

theorem head?_dropWhile (cs : List Char) : ∀ c ∈ (cs.dropWhile p).head?, p c = false := by
  intro c hc
  have hnot := List.head?_dropWhile_not p cs
  rw [hc] at hnot
  simpa using hnot

theorem mem_takeWhile_iff {cs : List Char} {c : Char} (h : c ∈ cs.takeWhile p) : p c = true :=
  List.all_eq_true.1 List.all_takeWhile c h

end Pieces

theorem untilQuote_eq_some {cs acc out rest : List Char} :
    untilQuote cs acc = some (out, rest) ↔
      ∃ body, isQuotable body = true ∧ cs = body ++ '"' :: rest ∧ out = body.reverse ++ acc := by
  constructor
  · intro h
    fun_induction untilQuote cs acc with
    | case1 | case3 => cases h
    | case2 =>
      cases h
      exact ⟨[], rfl, rfl, rfl⟩
    | case4 c cs acc ih =>
      obtain ⟨body, hbody, rfl, rfl⟩ := ih h
      exact ⟨'\\' :: c :: body, hbody, rfl, by simp⟩
    | case5 c cs acc hquote hlast hescape ih =>
      obtain ⟨body, hbody, rfl, rfl⟩ := ih h
      refine ⟨c :: body, ?_, rfl, by simp⟩
      rw [isQuotable]
      · exact hbody
      · exact hquote
      · rintro rfl rfl
        exact hescape _ _ rfl rfl
      · rintro d ds rfl rfl
        exact hescape _ _ rfl rfl
  · rintro ⟨body, hbody, rfl, rfl⟩
    fun_induction isQuotable body generalizing acc with
    | case1 => rfl
    | case2 | case3 => cases hbody
    | case4 c cs ih =>
      rw [List.cons_append, List.cons_append, untilQuote, ih hbody]
      simp
    | case5 c cs hquote hlast hescape ih =>
      rw [List.cons_append, untilQuote, ih hbody]
      · simp
      · exact hquote
      · rintro rfl h
        simp at h
      · rintro d ds rfl h
        cases cs with
        | nil => exact hlast rfl rfl
        | cons e es => exact hescape _ _ rfl rfl

theorem untilCommentEnd_eq_some {cs acc out rest : List Char} :
    untilCommentEnd cs acc = some (out, rest) ↔
      ∃ body, ¬ ['*', '/'] <:+: body ∧ cs = body ++ '*' :: '/' :: rest ∧
        out = '/' :: '*' :: (body.reverse ++ acc) := by
  constructor
  · intro h
    fun_induction untilCommentEnd cs acc with
    | case1 rest acc =>
      cases h
      exact ⟨[], by simp, rfl, rfl⟩
    | case2 c cs acc hend ih =>
      obtain ⟨body, hbody, rfl, rfl⟩ := ih h
      refine ⟨c :: body, ?_, rfl, by simp⟩
      rw [List.infix_cons_iff]
      rintro (⟨rest', hfront⟩ | hinfix)
      · cases body with
        | nil => simp at hfront
        | cons d body =>
          cases hfront
          exact hend _ rfl rfl
      · exact hbody hinfix
    | case3 => cases h
  · rintro ⟨body, hbody, rfl, rfl⟩
    induction body generalizing acc with
    | nil => rfl
    | cons c body ih =>
      rw [List.infix_cons_iff, not_or] at hbody
      rw [List.cons_append, untilCommentEnd, ih hbody.2]
      · simp
      · rintro rest' rfl heq
        cases body with
        | nil => simp at heq
        | cons d body =>
          obtain ⟨rfl, -⟩ := List.cons_eq_cons.1 heq
          exact hbody.1 ⟨body, rfl⟩

/-! ## Numbers -/

/-- What announces a base is one of its marks, and a decimal literal does not start with zero. -/
theorem radixMark_eq {cs body : List Char} {radix : Radix} {n : Nat}
    (h : radixMark cs = (radix, n, body)) :
    (∃ mark ∈ radix.marks, cs = mark ++ body ∧ n = mark.length) ∧
      (radix = .decimal → body.head? ≠ some '0') := by
  unfold radixMark at h
  split at h <;> cases h
  case h_1 => exact ⟨⟨['0', 'x'], by decide, rfl, rfl⟩, nofun⟩
  case h_2 => exact ⟨⟨['0', 'X'], by decide, rfl, rfl⟩, nofun⟩
  case h_3 => exact ⟨⟨['0', 'b'], by decide, rfl, rfl⟩, nofun⟩
  case h_4 => exact ⟨⟨['0', 'B'], by decide, rfl, rfl⟩, nofun⟩
  case h_5 => exact ⟨⟨['0'], by decide, rfl, rfl⟩, nofun⟩
  case h_6 _ _ _ _ _ hzero =>
    refine ⟨⟨[], by decide, rfl, rfl⟩, fun _ hhead => ?_⟩
    obtain ⟨rest, rfl⟩ := List.head?_eq_some_iff.1 hhead
    exact hzero rest rfl

theorem radixMark_decimal {cs : List Char} (h : cs.head? ≠ some '0') :
    radixMark cs = (.decimal, 0, cs) := by
  unfold radixMark
  split
  case h_6 => rfl
  all_goals exact absurd rfl h

/-- A zero before a character that makes it no other mark announces an octal literal. -/
theorem radixMark_zero {cs : List Char}
    (h : ∀ c ∈ cs.head?, c ≠ 'x' ∧ c ≠ 'X' ∧ c ≠ 'b' ∧ c ≠ 'B') :
    radixMark ('0' :: cs) = (.octal, 1, cs) := by
  cases cs with
  | nil => rfl
  | cons c cs =>
    obtain ⟨hx, hX, hb, hB⟩ := h c rfl
    unfold radixMark
    split <;> simp_all

theorem byteLength_marks {radix : Radix} {mark : List Char} (h : mark ∈ radix.marks) :
    Text.byteLength mark = mark.length := by
  have hall : ∀ radix : Radix, ∀ mark ∈ radix.marks, Text.byteLength mark = mark.length := by
    rintro ⟨⟩ <;> decide
  exact hall radix mark h

namespace Lexeme

theorem finish_eq_ok {radix : Radix} {n : Nat} {digits rest : List Char} {r : LexemeRead} :
    readNumber.finish radix n digits rest = .ok r ↔
      (digits = [] ∧ radix = .octal ∧ r = ⟨number .octal "0", n, rest⟩) ∨
        (digits ≠ [] ∧ r = ⟨number radix (String.ofList digits), n + digits.length, rest⟩) := by
  cases digits with
  | nil => cases radix <;> simp [readNumber.finish, eq_comm]
  | cons c digits => simp [readNumber.finish, eq_comm]

/-- A number is read if no digit or letter of another kind follows its digits. -/
theorem readNumber_eq_ok {cs body : List Char} {radix : Radix} {n : Nat} {r : LexemeRead}
    (hmark : radixMark cs = (radix, n, body)) :
    readNumber cs = .ok r ↔
      (∀ c ∈ (body.dropWhile radix.isDigit).head?, isIdentContinue c = false) ∧
        readNumber.finish radix n (body.takeWhile radix.isDigit)
          (body.dropWhile radix.isDigit) = .ok r := by
  unfold readNumber
  rw [hmark]
  dsimp only
  cases (body.dropWhile radix.isDigit).head? with
  | none => simp
  | some c => cases hc : isIdentContinue c <;> simp [hc]

theorem fronts_of_readNumber {cs : List Char} {r : LexemeRead} (h : readNumber cs = .ok r) :
    ∃ s, r.lexeme.Fronts s r.rest ∧ cs = s ++ r.rest ∧ r.len = Text.byteLength s := by
  rcases hmark : radixMark cs with ⟨radix, n, body⟩
  obtain ⟨hends, hfinish⟩ := (readNumber_eq_ok hmark).1 h
  obtain ⟨⟨mark, hmem, rfl, rfl⟩, hdecimal⟩ := radixMark_eq hmark
  have hbody : body = body.takeWhile radix.isDigit ++ body.dropWhile radix.isDigit :=
    List.takeWhile_append_dropWhile.symm
  have hall : ∀ c ∈ body.takeWhile radix.isDigit, radix.isDigit c = true :=
    fun c hc => mem_takeWhile_iff hc
  generalize body.takeWhile radix.isDigit = digits at hbody hall hfinish
  generalize body.dropWhile radix.isDigit = rest at hbody hends hfinish
  subst hbody
  rcases finish_eq_ok.1 hfinish with ⟨rfl, rfl, rfl⟩ | ⟨hne, rfl⟩
  · -- A zero without digits after it.
    cases List.mem_singleton.1 hmem
    have hzero : ("0" : String).toList = ['0'] := by decide
    have hdigit : ∀ c ∈ ("0" : String).toList, Radix.octal.isDigit c = true := by
      rw [hzero]
      exact List.forall_mem_singleton.2 rfl
    exact ⟨['0'], ⟨⟨by decide, hdigit, nofun⟩,
      List.mem_append_right _ (List.mem_singleton_self _), hends⟩, rfl, rfl⟩
  · rw [head?_piece hne] at hdecimal
    refine ⟨mark ++ digits, ⟨⟨?_, ?_, ?_⟩, ?_, hends⟩, ?_, ?_⟩
    · rwa [String.toList_ofList]
    · rwa [String.toList_ofList]
    · rwa [String.toList_ofList]
    · rw [spellings, String.toList_ofList]
      exact List.mem_append_left _ (List.mem_map_of_mem hmem)
    · rw [List.append_assoc]
    · rw [Text.byteLength_append, byteLength_marks hmem, Text.byteLength_of_single]
      exact fun c hc => utf8Size_of_isIdentContinue (isIdentContinue_of_isDigit (hall c hc))

theorem readNumber_of_fronts {radix : Radix} {digits : String} {s rest : List Char}
    (h : (number radix digits).Fronts s rest) :
    readNumber (s ++ rest) = .ok ⟨number radix digits, Text.byteLength s, rest⟩ := by
  obtain ⟨⟨hne, hall, hdecimal⟩, hspelled, hends⟩ := h
  have hstop : ∀ c ∈ rest.head?, radix.isDigit c = false := by
    intro c hc
    have hnot := hends c hc
    cases hdigit : radix.isDigit c with
    | false => rfl
    | true => rw [isIdentContinue_of_isDigit hdigit] at hnot; cases hnot
  have hnomark : ∀ c : Char, isIdentContinue c = false →
      c ≠ 'x' ∧ c ≠ 'X' ∧ c ≠ 'b' ∧ c ≠ 'B' := by
    intro c hc
    refine ⟨?_, ?_, ?_, ?_⟩ <;> rintro rfl <;> exact absurd hc (by decide)
  rw [spellings] at hspelled
  rcases List.mem_append.1 hspelled with hmarked | hlone
  · obtain ⟨mark, hmem, rfl⟩ := List.mem_map.1 hmarked
    have hmark : radixMark (mark ++ (digits.toList ++ rest)) =
        (radix, mark.length, digits.toList ++ rest) := by
      cases radix with
      | decimal =>
        cases List.mem_singleton.1 hmem
        refine radixMark_decimal ?_
        rw [List.nil_append, head?_piece hne]
        exact hdecimal rfl
      | octal =>
        cases List.mem_singleton.1 hmem
        show radixMark ('0' :: (digits.toList ++ rest)) = _
        refine radixMark_zero fun c hc => ?_
        rw [head?_piece hne] at hc
        have hdigit := hall c (List.mem_of_mem_head? hc)
        refine ⟨?_, ?_, ?_, ?_⟩ <;> rintro rfl <;> exact absurd hdigit (by decide)
      | binary | hexadecimal =>
        rcases List.mem_cons.1 hmem with rfl | hmem
        · rfl
        · cases List.mem_singleton.1 hmem
          rfl
    rw [List.append_assoc, readNumber_eq_ok hmark, takeWhile_piece hall hstop,
      dropWhile_piece hall hstop]
    refine ⟨hends, finish_eq_ok.2 (.inr ⟨hne, ?_⟩)⟩
    rw [String.ofList_toList, Text.byteLength_append, byteLength_marks hmem,
      Text.byteLength_of_single]
    exact fun c hc => utf8Size_of_isIdentContinue (isIdentContinue_of_isDigit (hall c hc))
  · split at hlone
    case isTrue hzero =>
      obtain ⟨rfl, rfl⟩ := hzero
      cases List.mem_singleton.1 hlone
      have hmark : radixMark ('0' :: rest) = (.octal, 1, rest) :=
        radixMark_zero fun c hc => hnomark c (hends c hc)
      rw [List.singleton_append, readNumber_eq_ok hmark]
      have htake := takeWhile_piece (List.forall_mem_nil _) hstop
      have hdrop := dropWhile_piece (List.forall_mem_nil _) hstop
      rw [List.nil_append] at htake hdrop
      rw [htake, hdrop]
      exact ⟨hends, rfl⟩
    case isFalse => cases hlone

end Lexeme

/-! ## Names, strings, symbols and comments -/

theorem isIdentContinue_of_isIdentStart {c : Char} (h : isIdentStart c = true) :
    isIdentContinue c = true := by
  rw [isIdentStart_iff] at h
  rw [isIdentContinue_iff]
  omega

theorem not_isDigit_of_isIdentStart {c : Char} (h : isIdentStart c = true) :
    ¬ c.isDigit = true := by
  rw [isIdentStart_iff] at h
  rw [isDigit_iff]
  omega

theorem byteLength_identifier {c : Char} {cs : List Char} (hc : isIdentStart c = true)
    (hcs : ∀ d ∈ cs, isIdentContinue d = true) :
    Text.byteLength (c :: cs) = (c :: cs).length := by
  refine Text.byteLength_of_single fun d hd => utf8Size_of_isIdentContinue ?_
  rcases List.mem_cons.1 hd with rfl | hd
  · exact isIdentContinue_of_isIdentStart hc
  · exact hcs d hd

/-- What the first character of a symbol tells: no other lexeme starts with it, but a comment with a
slash. -/
theorem Symbol.chars_eq_cons (s : Symbol) :
    ∃ c cs, s.chars = c :: cs ∧ c ≠ '"' ∧ c.isDigit = false ∧ isIdentStart c = false ∧
      Text.isBlank c = false ∧ (c = '/' → s = .slash) := by
  cases s <;> exact ⟨_, _, rfl, by decide, by decide, by decide, by decide, by decide⟩

theorem Symbol.byteLength_chars (s : Symbol) : Text.byteLength s.chars = s.chars.length := by
  cases s <;> rfl

namespace Lexeme

theorem read_identifier {c : Char} (h : isIdentStart c = true) (cs : List Char) :
    read c cs = .ok ⟨.identifier (String.ofList (c :: cs.takeWhile isIdentContinue)),
      (c :: cs.takeWhile isIdentContinue).length, cs.dropWhile isIdentContinue⟩ := by
  have hslash : c ≠ '/' := by rintro rfl; cases h
  have hquote : c ≠ '"' := by rintro rfl; cases h
  rw [read, if_neg (fun hand => hslash hand.1), if_neg (fun hand => hslash hand.1), if_neg hquote,
    if_neg (not_isDigit_of_isIdentStart h), if_pos h]

theorem read_number {c : Char} (h : c.isDigit = true) (cs : List Char) :
    read c cs = readNumber (c :: cs) := by
  have hslash : c ≠ '/' := by rintro rfl; cases h
  have hquote : c ≠ '"' := by rintro rfl; cases h
  rw [read, if_neg (fun hand => hslash hand.1), if_neg (fun hand => hslash hand.1), if_neg hquote,
    if_pos h]

theorem read_string (cs : List Char) :
    read '"' cs = match untilQuote cs [] with
      | some (acc, rest) => .ok ⟨.string (String.ofList acc.reverse), Text.byteLength acc + 2, rest⟩
      | none => .error ⟨.unclosedString, 0⟩ := by
  have hslash : '"' ≠ '/' := by decide
  rw [read, if_neg (fun hand => hslash hand.1), if_neg (fun hand => hslash hand.1)]
  exact if_pos rfl

theorem read_lineComment (cs : List Char) :
    read '/' ('/' :: cs) = .ok ⟨.comment (String.ofList ('/' :: '/' :: cs.takeWhile (· ≠ '\n'))),
      Text.byteLength ('/' :: '/' :: cs.takeWhile (· ≠ '\n')), cs.dropWhile (· ≠ '\n')⟩ := by
  rw [read, if_pos ⟨rfl, rfl⟩]
  rfl

theorem read_blockComment (cs : List Char) :
    read '/' ('*' :: cs) = match untilCommentEnd cs ['*', '/'] with
      | some (acc, rest) => .ok ⟨.comment (String.ofList acc.reverse), Text.byteLength acc, rest⟩
      | none => .error ⟨.unclosedComment, 0⟩ := by
  have hslash : ¬ ('/' = '/' ∧ ('*' :: cs).head? = some '/') := by simp
  rw [read, if_neg hslash, if_pos ⟨rfl, rfl⟩]
  rfl

theorem read_symbol {c : Char} {cs : List Char} (hquote : c ≠ '"') (hdigit : c.isDigit = false)
    (hstart : isIdentStart c = false) (hcomment : c = '/' → ∀ d ∈ cs.head?, d ≠ '/' ∧ d ≠ '*') :
    read c cs = match Symbol.read? (c :: cs) with
      | some s => .ok ⟨.symbol s, s.chars.length, cs.drop (s.chars.length - 1)⟩
      | none => .error ⟨.strayCharacter c, 0⟩ := by
  rw [read, if_neg (fun hand => (hcomment hand.1 _ hand.2).1 rfl),
    if_neg (fun hand => (hcomment hand.1 _ hand.2).2 rfl), if_neg hquote, hdigit, if_neg nofun,
    hstart]
  exact if_neg nofun

/-! ## What is read stands at the front -/

section Read

variable {c : Char} {cs : List Char} {r : LexemeRead}

theorem fronts_of_lineComment (h : read '/' ('/' :: cs) = .ok r) :
    ∃ s, r.lexeme.Fronts s r.rest ∧ '/' :: '/' :: cs = s ++ r.rest ∧
      r.len = Text.byteLength s := by
  rw [read_lineComment] at h
  cases h
  refine ⟨_, ⟨.inl ⟨_, String.toList_ofList, fun hmem => ?_⟩, ?_, fun _ c hc => ?_⟩, ?_, rfl⟩
  · simpa using mem_takeWhile_iff hmem
  · rw [spellings, String.toList_ofList]
    exact List.mem_singleton_self _
  · simpa using head?_dropWhile _ c hc
  · rw [List.cons_append, List.cons_append, List.takeWhile_append_dropWhile]

theorem fronts_of_blockComment (h : read '/' ('*' :: cs) = .ok r) :
    ∃ s, r.lexeme.Fronts s r.rest ∧ '/' :: '*' :: cs = s ++ r.rest ∧
      r.len = Text.byteLength s := by
  rw [read_blockComment] at h
  split at h
  case h_1 acc rest hend =>
    obtain ⟨body, hbody, rfl, rfl⟩ := untilCommentEnd_eq_some.1 hend
    have htext : ('/' :: '*' :: (body.reverse ++ ['*', '/'])).reverse =
        '/' :: '*' :: (body ++ ['*', '/']) := by simp
    rw [htext] at h
    cases h
    refine ⟨'/' :: '*' :: (body ++ ['*', '/']),
      ⟨.inr ⟨body, String.toList_ofList, hbody⟩, ?_, fun hline => ?_⟩, ?_, ?_⟩
    · rw [spellings, String.toList_ofList]
      exact List.mem_singleton_self _
    · rw [String.toList_ofList] at hline
      simp at hline
    · simp
    · rw [← htext, Text.byteLength_reverse]
  case h_2 => cases h

theorem fronts_of_string (h : read '"' cs = .ok r) :
    ∃ s, r.lexeme.Fronts s r.rest ∧ '"' :: cs = s ++ r.rest ∧ r.len = Text.byteLength s := by
  rw [read_string] at h
  split at h
  case h_1 acc rest hend =>
    obtain ⟨body, hbody, rfl, rfl⟩ := untilQuote_eq_some.1 hend
    rw [List.append_nil, List.reverse_reverse] at h
    cases h
    have hquote : ('"' : Char).utf8Size = 1 := rfl
    refine ⟨'"' :: (body ++ ['"']), ⟨?_, ?_, trivial⟩, by simp, ?_⟩
    · rwa [IsProper, String.toList_ofList]
    · rw [spellings, String.toList_ofList]
      exact List.mem_singleton_self _
    · simp only [Text.byteLength_cons, Text.byteLength_append, Text.byteLength_reverse,
        Text.byteLength_nil, hquote]
      omega
  case h_2 => cases h

theorem fronts_of_identifier (hc : isIdentStart c = true) (h : read c cs = .ok r) :
    ∃ s, r.lexeme.Fronts s r.rest ∧ c :: cs = s ++ r.rest ∧ r.len = Text.byteLength s := by
  rw [read_identifier hc] at h
  cases h
  have hall : ∀ d ∈ cs.takeWhile isIdentContinue, isIdentContinue d = true :=
    fun d hd => mem_takeWhile_iff hd
  refine ⟨c :: cs.takeWhile isIdentContinue,
    ⟨⟨c, _, String.toList_ofList, hc, hall⟩, ?_, head?_dropWhile cs⟩, ?_, ?_⟩
  · rw [spellings, String.toList_ofList]
    exact List.mem_singleton_self _
  · rw [List.cons_append, List.takeWhile_append_dropWhile]
  · exact (byteLength_identifier hc hall).symm

theorem fronts_of_symbol {y : Symbol} (hy : Symbol.read? (c :: cs) = some y)
    (hcomment : c = '/' → ∀ d ∈ cs.head?, d ≠ '/' ∧ d ≠ '*') :
    (symbol y).Fronts y.chars (cs.drop (y.chars.length - 1)) ∧
      c :: cs = y.chars ++ cs.drop (y.chars.length - 1) := by
  have hfront : c :: cs = y.chars ++ cs.drop (y.chars.length - 1) := by
    obtain ⟨rest, hrest⟩ := List.isPrefixOf_iff_prefix.1 (Symbol.chars_isPrefixOf_of_read? hy)
    obtain ⟨d, ds, hchars, -⟩ := y.chars_eq_cons
    rw [hchars] at hrest ⊢
    obtain ⟨rfl, rfl⟩ := List.cons_eq_cons.1 hrest
    simp
  refine ⟨⟨trivial, List.mem_singleton_self _, hfront ▸ hy, ?_⟩, hfront⟩
  rintro rfl
  obtain ⟨rfl, -⟩ := List.cons_eq_cons.1 hfront
  exact hcomment rfl

/-- What is read is a lexeme that the text starts with. -/
theorem fronts_of_read (h : read c cs = .ok r) :
    ∃ s, r.lexeme.Fronts s r.rest ∧ c :: cs = s ++ r.rest ∧ r.len = Text.byteLength s := by
  by_cases hline : c = '/' ∧ cs.head? = some '/'
  · obtain ⟨rfl, hhead⟩ := hline
    obtain ⟨cs, rfl⟩ := List.head?_eq_some_iff.1 hhead
    exact fronts_of_lineComment h
  by_cases hblock : c = '/' ∧ cs.head? = some '*'
  · obtain ⟨rfl, hhead⟩ := hblock
    obtain ⟨cs, rfl⟩ := List.head?_eq_some_iff.1 hhead
    exact fronts_of_blockComment h
  by_cases hquote : c = '"'
  · subst hquote
    exact fronts_of_string h
  cases hdigit : c.isDigit with
  | true =>
    rw [read_number hdigit] at h
    exact fronts_of_readNumber h
  | false =>
    cases hstart : isIdentStart c with
    | true => exact fronts_of_identifier hstart h
    | false =>
      have hcomment : c = '/' → ∀ d ∈ cs.head?, d ≠ '/' ∧ d ≠ '*' := by
        intro hslash d hd
        refine ⟨?_, ?_⟩ <;> rintro rfl
        · exact hline ⟨hslash, hd⟩
        · exact hblock ⟨hslash, hd⟩
      rw [read_symbol hquote hdigit hstart hcomment] at h
      split at h
      case h_1 y hy =>
        cases h
        obtain ⟨hfronts, hcs⟩ := fronts_of_symbol hy hcomment
        exact ⟨y.chars, hfronts, hcs, y.byteLength_chars.symm⟩
      case h_2 => cases h

end Read

/-! ## What stands at the front is read -/

/-- The first character of a number is a digit. -/
theorem digit_of_fronts {radix : Radix} {digits : String} {s rest : List Char}
    (h : (number radix digits).Fronts s rest) : ∃ c cs, s = c :: cs ∧ c.isDigit = true := by
  obtain ⟨⟨hne, hall, -⟩, hspelled, -⟩ := h
  rw [spellings] at hspelled
  rcases List.mem_append.1 hspelled with hmarked | hlone
  · obtain ⟨mark, hmem, rfl⟩ := List.mem_map.1 hmarked
    cases radix with
    | decimal =>
      cases List.mem_singleton.1 hmem
      obtain ⟨c, cs, hdigits⟩ := List.exists_cons_of_ne_nil hne
      exact ⟨c, cs, hdigits, isDigit_of_decimal (hall c (hdigits ▸ List.mem_cons_self))⟩
    | octal =>
      cases List.mem_singleton.1 hmem
      exact ⟨'0', _, rfl, rfl⟩
    | binary | hexadecimal =>
      rcases List.mem_cons.1 hmem with rfl | hmem
      · exact ⟨'0', _, rfl, rfl⟩
      · cases List.mem_singleton.1 hmem
        exact ⟨'0', _, rfl, rfl⟩
  · split at hlone
    case isTrue =>
      cases List.mem_singleton.1 hlone
      exact ⟨'0', [], rfl, rfl⟩
    case isFalse => cases hlone

/-- A lexeme that a text starts with is read. -/
theorem read_of_fronts {l : Lexeme} {c : Char} {s rest : List Char} (h : l.Fronts (c :: s) rest) :
    read c (s ++ rest) = .ok ⟨l, Text.byteLength (c :: s), rest⟩ := by
  obtain ⟨hproper, hspelled, hends⟩ := id h
  cases l with
  | identifier name =>
    obtain ⟨d, ds, hname, hstart, hall⟩ := hproper
    rw [spellings, List.mem_singleton, hname] at hspelled
    cases hspelled
    rw [read_identifier hstart, takeWhile_piece hall hends, dropWhile_piece hall hends, ← hname,
      String.ofList_toList, hname, byteLength_identifier hstart hall]
  | number radix digits =>
    obtain ⟨d, ds, heq, hdigit⟩ := digit_of_fronts h
    cases heq
    rw [read_number hdigit, ← List.cons_append]
    exact readNumber_of_fronts h
  | string body =>
    cases List.mem_singleton.1 hspelled
    have hend : untilQuote (body.toList ++ ['"'] ++ rest) [] =
        some (body.toList.reverse ++ [], rest) :=
      untilQuote_eq_some.2 ⟨body.toList, hproper, by simp, rfl⟩
    have hquote : ('"' : Char).utf8Size = 1 := rfl
    have hsize : Text.byteLength ('"' :: (body.toList ++ ['"'])) =
        Text.byteLength body.toList + 2 := by
      simp only [Text.byteLength_cons, Text.byteLength_append, Text.byteLength_nil, hquote]
      omega
    rw [read_string, hend, hsize]
    simp
  | symbol y =>
    obtain ⟨hread, hcomment⟩ := hends
    have hchars : y.chars = c :: s := (List.mem_singleton.1 hspelled).symm
    obtain ⟨d, ds, hchars', hquote, hdigit, hstart, -, hslash⟩ := y.chars_eq_cons
    rw [hchars] at hchars' hread
    cases hchars'
    have hfollow : c = '/' → ∀ e ∈ (s ++ rest).head?, e ≠ '/' ∧ e ≠ '*' := by
      intro heq
      cases hslash heq
      cases hchars
      exact hcomment rfl
    have hsize := y.byteLength_chars
    rw [hchars] at hsize
    rw [read_symbol hquote hdigit hstart hfollow, ← List.cons_append, hread, hsize, ← hchars]
    simp [hchars]
  | comment text =>
    have htext : text.toList = c :: s := (List.mem_singleton.1 hspelled).symm
    rcases hproper with ⟨body, hline, hbody⟩ | ⟨body, hblock, hbody⟩
    · rw [hline] at htext
      cases htext
      have hall : ∀ c ∈ body, decide (c ≠ '\n') = true := by
        intro c hc
        exact decide_eq_true fun heq => hbody (heq ▸ hc)
      have hstop : ∀ c ∈ rest.head?, decide (c ≠ '\n') = false := by
        intro c hc
        exact decide_eq_false (not_not_intro (hends ⟨body, hline.symm⟩ c hc))
      rw [List.cons_append, read_lineComment, takeWhile_piece hall hstop,
        dropWhile_piece hall hstop, ← hline, String.ofList_toList]
    · rw [hblock] at htext
      cases htext
      have hend : untilCommentEnd (body ++ ['*', '/'] ++ rest) ['*', '/'] =
          some ('/' :: '*' :: (body.reverse ++ ['*', '/']), rest) :=
        untilCommentEnd_eq_some.2 ⟨body, hbody, by simp, rfl⟩
      have hreverse : ('/' :: '*' :: (body.reverse ++ ['*', '/'])).reverse =
          '/' :: '*' :: (body ++ ['*', '/']) := by simp
      rw [List.cons_append, read_blockComment, hend]
      dsimp only
      rw [← Text.byteLength_reverse, hreverse, ← hblock, String.ofList_toList]

/-- A lexeme takes up space, and its first character is not blank. -/
theorem Fronts.eq_cons {l : Lexeme} {s rest : List Char} (h : l.Fronts s rest) :
    ∃ c cs, s = c :: cs ∧ Text.isBlank c = false := by
  obtain ⟨hproper, hspelled, -⟩ := id h
  cases l with
  | identifier name =>
    obtain ⟨c, cs, hname, hstart, -⟩ := hproper
    refine ⟨c, cs, (List.mem_singleton.1 hspelled).trans hname, ?_⟩
    rw [isIdentStart_iff] at hstart
    exact Text.isBlank_of_visible (by omega) (by omega)
  | number radix digits =>
    obtain ⟨c, cs, hs, hdigit⟩ := digit_of_fronts h
    rw [isDigit_iff] at hdigit
    exact ⟨c, cs, hs, Text.isBlank_of_visible (by omega) (by omega)⟩
  | string body => exact ⟨'"', _, List.mem_singleton.1 hspelled, rfl⟩
  | symbol y =>
    obtain ⟨c, cs, hchars, -, -, -, hblank, -⟩ := y.chars_eq_cons
    exact ⟨c, cs, (List.mem_singleton.1 hspelled).trans hchars, hblank⟩
  | comment text =>
    rcases hproper with ⟨body, htext, -⟩ | ⟨body, htext, -⟩
    · exact ⟨'/', _, (List.mem_singleton.1 hspelled).trans htext, rfl⟩
    · exact ⟨'/', _, (List.mem_singleton.1 hspelled).trans htext, rfl⟩

/-- A lexeme is read exactly if the text starts with it. -/
theorem read_eq_ok_iff {c : Char} {cs : List Char} {r : LexemeRead} :
    read c cs = .ok r ↔
      ∃ s, r.lexeme.Fronts s r.rest ∧ c :: cs = s ++ r.rest ∧ r.len = Text.byteLength s := by
  constructor
  · exact fronts_of_read
  · rintro ⟨s, hfronts, hcs, hlen⟩
    obtain ⟨d, ds, rfl, -⟩ := hfronts.eq_cons
    rw [List.cons_append] at hcs
    obtain ⟨rfl, rfl⟩ := List.cons_eq_cons.1 hcs
    rw [read_of_fronts hfronts, ← hlen]

end Lexeme

end ContractCompiler
