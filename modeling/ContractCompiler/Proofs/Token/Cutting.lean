import ContractCompiler.Proofs.Token.Joining

/-!
# Pieces of a text

A piece of a text from the start of one token to the end of another is made of the same tokens when it
stands elsewhere, as long as a semicolon follows it. What a token is depends on what comes after it,
but a semicolon is part of no longer symbol, and ends every other token but a comment.
-/

namespace ContractCompiler

open Text (byteLength)

namespace Symbol

/-- A symbol that is read from a text is read from its front, if it fits in there. -/
theorem read?_shorten {cs post : List Char} {s : Symbol} (h : read? (cs ++ post) = some s)
    (hs : s.chars <+: cs) : read? cs = some s := by
  obtain ⟨-, longer, shorter, hall, hlonger⟩ := List.find?_eq_some_iff_append.1 h
  refine List.find?_eq_some_iff_append.2
    ⟨List.isPrefixOf_iff_prefix.2 hs, longer, shorter, hall, fun y hy => ?_⟩
  have hnot := hlonger y hy
  rw [Bool.not_eq_true', ← Bool.not_eq_true, List.isPrefixOf_iff_prefix] at hnot ⊢
  exact fun hfits => hnot (hfits.trans (List.prefix_append cs post))

theorem semicolon_not_mem_tail (s : Symbol) : ';' ∉ s.chars.tail := by
  cases s <;> decide

/-- A semicolon is no part of a symbol before it. -/
theorem read?_semicolon {cs : List Char} (hcs : cs ≠ []) (rest : List Char) :
    read? (cs ++ ';' :: rest) = read? cs := by
  refine congrArg (all.find? ·) (funext fun s => ?_)
  obtain ⟨c, cs, rfl⟩ := List.exists_cons_of_ne_nil hcs
  obtain ⟨d, ds, hchars⟩ := List.exists_cons_of_ne_nil s.chars_ne_nil
  have htail := s.semicolon_not_mem_tail
  rw [hchars, List.tail_cons] at htail
  rw [hchars, List.cons_append, List.isPrefixOf, List.isPrefixOf, isPrefixOf_append_of_not_mem htail]

end Symbol

/-- A lexeme ends too if the text after it is cut short and a semicolon follows. A comment needs some
of the text. -/
theorem Lexeme.EndsBefore.semicolon {l : Lexeme} {cs post : List Char}
    (h : l.EndsBefore (cs ++ post)) (hcomment : ∀ text, l = .comment text → cs ≠ [])
    (rest : List Char) : l.EndsBefore (cs ++ ';' :: rest) := by
  -- All but symbols only look at the next character, which is the same or a semicolon.
  have hhead : ∀ P : Char → Prop, (∀ c ∈ (cs ++ post).head?, P c) → (cs = [] → P ';') →
      ∀ c ∈ (cs ++ ';' :: rest).head?, P c := by
    intro P hP hnil c hc
    cases cs with
    | nil =>
      cases hc
      exact hnil rfl
    | cons d cs =>
      cases hc
      exact hP _ rfl
  cases l with
  | identifier name => exact hhead _ h fun _ => by decide
  | number radix digits => exact hhead _ h fun _ => by decide
  | string body => trivial
  | symbol s =>
    obtain ⟨hread, hslash⟩ := h
    refine ⟨?_, fun hs => hhead _ (hslash hs) fun _ => by decide⟩
    -- A symbol that was read with more text after it is the longest one here too.
    rw [← List.append_assoc] at hread ⊢
    rw [Symbol.read?_semicolon (List.append_ne_nil_of_left_ne_nil s.chars_ne_nil cs)]
    exact Symbol.read?_shorten hread (List.prefix_append _ _)
  | comment text =>
    exact fun hline => hhead _ (h hline) fun hnil => absurd hnil (hcomment text rfl)

/-- A text that is made of some lexemes wherever it stands, if a semicolon follows. -/
def Recurs (cs : List Char) (ls : List Lexeme) : Prop :=
  ∀ o rest toks, Divides (o + byteLength cs) (';' :: rest) toks →
    ∃ ts, ts.map Token.lexeme = ls ∧ Divides o (cs ++ ';' :: rest) (ts ++ toks)

section Recurs

variable {cs s : List Char} {ls : List Lexeme} {l : Lexeme} {c : Char}

theorem Recurs.nil : Recurs [] [] :=
  fun _ _ _ h => ⟨[], rfl, h⟩

theorem Recurs.blank (h : Recurs cs ls) (hc : Text.isBlank c = true) : Recurs (c :: cs) ls := by
  intro o rest toks hrest
  rw [Text.byteLength_cons, ← Nat.add_assoc] at hrest
  obtain ⟨ts, hts, hdivides⟩ := h _ rest toks hrest
  exact ⟨ts, hts, .blank hc hdivides⟩

theorem Recurs.token (h : Recurs cs ls)
    (hl : ∀ rest, Lexeme.Fronts l s (cs ++ ';' :: rest)) : Recurs (s ++ cs) (l :: ls) := by
  intro o rest toks hrest
  rw [Text.byteLength_append, ← Nat.add_assoc] at hrest
  obtain ⟨ts, rfl, hdivides⟩ := h _ rest toks hrest
  refine ⟨⟨l, o, byteLength s⟩ :: ts, rfl, ?_⟩
  rw [List.append_assoc]
  exact .token (hl rest) hdivides

end Recurs

namespace Divides

variable {o : Nat} {cs : List Char} {toks before after : List Token} {t : Token}

/-- The text from a token on. -/
theorem from_token (h : Divides o cs toks) (htoks : toks = before ++ t :: after) :
    ∃ pre rest, cs = pre ++ rest ∧ o + byteLength pre = t.offset ∧
      Divides t.offset rest (t :: after) := by
  induction h generalizing before with
  | nil => simp at htoks
  | @blank o c cs toks hc _ ih =>
    obtain ⟨pre, rest, rfl, hoffset, hrest⟩ := ih htoks
    refine ⟨c :: pre, rest, rfl, ?_, hrest⟩
    rw [Text.byteLength_cons]
    omega
  | @token o l s rest toks hl h ih =>
    cases before with
    | nil =>
      cases htoks
      exact ⟨[], s ++ rest, rfl, Nat.add_zero o, .token hl h⟩
    | cons u before =>
      rw [List.cons_append, List.cons_eq_cons] at htoks
      obtain ⟨pre, rest', rfl, hoffset, hrest⟩ := ih htoks.2
      refine ⟨s ++ pre, rest', (List.append_assoc _ _ _).symm, ?_, hrest⟩
      rw [Text.byteLength_append]
      omega

/-- The text up to the end of a token that is no comment is made of the same lexemes elsewhere. -/
theorem recurs (h : Divides o cs toks) (htoks : toks = before ++ t :: after)
    (ht : t.isComment = false) :
    ∃ piece post, cs = piece ++ post ∧ piece ≠ [] ∧ o + byteLength piece = t.stop ∧
      Recurs piece ((before ++ [t]).map Token.lexeme) := by
  induction h generalizing before with
  | nil => simp at htoks
  | @blank o c cs toks hc _ ih =>
    obtain ⟨piece, post, rfl, -, hstop, hrecurs⟩ := ih htoks
    refine ⟨c :: piece, post, rfl, List.cons_ne_nil _ _, ?_, hrecurs.blank hc⟩
    rw [Text.byteLength_cons]
    omega
  | @token o l s rest toks hl _ ih =>
    obtain ⟨d, ds, rfl, -⟩ := hl.eq_cons
    cases before with
    | nil =>
      cases htoks
      have hcomment : ∀ text, l ≠ .comment text := by
        rintro text rfl
        cases ht
      have hends : l.EndsBefore ([] ++ rest) := hl.ends
      have hrecurs : Recurs ((d :: ds) ++ []) [l] := Recurs.nil.token fun rest' =>
        ⟨hl.proper, hl.spelled, hends.semicolon (fun text hl => absurd hl (hcomment text)) rest'⟩
      rw [List.append_nil] at hrecurs
      exact ⟨d :: ds, rest, rfl, List.cons_ne_nil _ _, rfl, hrecurs⟩
    | cons u before =>
      rw [List.cons_append, List.cons_eq_cons] at htoks
      obtain ⟨rfl, htoks⟩ := htoks
      obtain ⟨piece, post, rfl, hpiece, hstop, hrecurs⟩ := ih htoks
      -- A comment before the piece still ends with its line, for the piece is not empty.
      refine ⟨(d :: ds) ++ piece, post, (List.append_assoc _ _ _).symm, List.cons_ne_nil _ _, ?_, ?_⟩
      · rw [Text.byteLength_append]
        omega
      · exact hrecurs.token fun rest' =>
          ⟨hl.proper, hl.spelled, hl.ends.semicolon (fun _ _ => hpiece) rest'⟩

end Divides

end ContractCompiler
