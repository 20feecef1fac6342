import ContractCompiler.Proofs.Token.Spelling
import ContractCompiler.Source

/-!
# How a text divides into tokens

A text that can be cut into tokens is made of blank characters and of spellings of its tokens, one
after the other. Nothing is lost: from the tokens and the blanks between them the text can be put
together again.
-/

namespace ContractCompiler

open Text (byteLength isBlank slice)

/-- `Divides o cs toks`: the text `cs`, which starts at byte `o`, is made of blanks and of spellings
of the tokens `toks`. -/
inductive Divides : Nat → List Char → List Token → Prop where
  | nil {o} : Divides o [] []
  | blank {o c cs toks} (hc : isBlank c = true) (h : Divides (o + c.utf8Size) cs toks) :
    Divides o (c :: cs) toks
  | token {o l s rest toks} (hl : Lexeme.Fronts l s rest)
      (h : Divides (o + byteLength s) rest toks) :
    Divides o (s ++ rest) (⟨l, o, byteLength s⟩ :: toks)

theorem divides_of_readTokens {cs : List Char} {o : Nat} {acc toks : List Token}
    (h : readTokens cs o acc = .ok toks) : ∃ new, toks = acc.reverse ++ new ∧ Divides o cs new := by
  fun_induction readTokens cs o acc with
  | case1 =>
    cases h
    exact ⟨[], (List.append_nil _).symm, .nil⟩
  | case2 o acc c cs hc ih =>
    obtain ⟨new, rfl, hnew⟩ := ih h
    exact ⟨new, rfl, .blank hc hnew⟩
  | case3 => cases h
  | case4 o acc c cs _ r hr _ ih =>
    obtain ⟨new, rfl, hnew⟩ := ih h
    obtain ⟨s, hfronts, hcs, hlen⟩ := Lexeme.read_eq_ok_iff.1 hr
    rw [hlen] at hnew
    refine ⟨⟨r.lexeme, o, r.len⟩ :: new, by simp, ?_⟩
    rw [hcs, hlen]
    exact .token hfronts hnew

/-- The lexeme at the front of a text is read first. -/
theorem readTokens_of_fronts {l : Lexeme} {s rest : List Char} (h : l.Fronts s rest) (o : Nat)
    (acc : List Token) :
    readTokens (s ++ rest) o acc =
      readTokens rest (o + byteLength s) (⟨l, o, byteLength s⟩ :: acc) := by
  obtain ⟨c, cs, rfl, hblank⟩ := h.eq_cons
  rw [List.cons_append, readTokens, if_neg (by rw [hblank]; exact Bool.false_ne_true)]
  split
  case h_1 e he =>
    rw [Lexeme.read_of_fronts h] at he
    cases he
  case h_2 r hr =>
    rw [Lexeme.read_of_fronts h] at hr
    cases hr
    rfl

theorem Divides.readTokens_eq {cs : List Char} {o : Nat} {toks : List Token}
    (h : Divides o cs toks) (acc : List Token) :
    readTokens cs o acc = .ok (acc.reverse ++ toks) := by
  induction h generalizing acc with
  | nil => rw [readTokens, List.append_nil]
  | blank hc _ ih => rw [readTokens, if_pos hc, ih]
  | token hl _ ih =>
    rw [readTokens_of_fronts hl, ih, List.reverse_cons, List.append_assoc]
    rfl

/-- The tokens of a text are those that it is made of. -/
theorem readTokens_eq_ok_iff {cs : List Char} {o : Nat} {acc toks : List Token} :
    readTokens cs o acc = .ok toks ↔ ∃ new, toks = acc.reverse ++ new ∧ Divides o cs new := by
  constructor
  · exact divides_of_readTokens
  · rintro ⟨new, rfl, hnew⟩
    exact hnew.readTokens_eq acc

/-- The tokens of a text from its start. -/
theorem readTokens_eq_ok_iff_divides {cs : List Char} {toks : List Token} :
    readTokens cs 0 [] = .ok toks ↔ Divides 0 cs toks := by
  rw [readTokens_eq_ok_iff]
  simp

theorem Source.tokens_eq_ok_iff {text : List Char} {toks : List Token} :
    Source.tokens text = .ok toks ↔ Divides 0 text toks ∧ toks.length ≤ maxTokens := by
  rw [Source.tokens, ← readTokens_eq_ok_iff_divides]
  cases readTokens text 0 [] with
  | error e => simp
  | ok toks' =>
    dsimp only
    split
    case isTrue hmany =>
      simp only [reduceCtorEq, Except.ok.injEq, false_iff, not_and]
      rintro rfl
      omega
    case isFalse hfew =>
      simp only [Except.ok.injEq]
      constructor
      · rintro rfl
        exact ⟨rfl, by omega⟩
      · exact And.left

/-! ## Places of tokens -/

namespace Divides

variable {o : Nat} {cs : List Char} {toks : List Token}

/-- A token takes up space, at or after the start of the text. -/
theorem extent (h : Divides o cs toks) : ∀ t ∈ toks, o ≤ t.offset ∧ 0 < t.len := by
  induction h with
  | nil => nofun
  | blank _ _ ih =>
    intro t ht
    have := ih t ht
    omega
  | @token o l s rest toks hl _ ih =>
    obtain ⟨c, cs, rfl, -⟩ := hl.eq_cons
    have hpos := c.utf8Size_pos
    refine List.forall_mem_cons.2 ⟨⟨Nat.le_refl o, ?_⟩, fun t ht => ?_⟩
    · have hsize := Text.byteLength_cons c cs
      show 0 < byteLength (c :: cs)
      omega
    · have := ih t ht
      omega

/-- A token ends before the next one starts. -/
theorem apart (h : Divides o cs toks) : toks.Pairwise fun t u => t.stop ≤ u.offset := by
  induction h with
  | nil => exact .nil
  | blank _ _ ih => exact ih
  | token _ h ih => exact List.pairwise_cons.2 ⟨fun u hu => (h.extent u hu).1, ih⟩

/-- A token starts before the next one does. -/
theorem ordered (h : Divides o cs toks) : toks.Pairwise fun t u => t.offset < u.offset := by
  refine h.apart.imp_of_mem fun {t u} ht _ hle => ?_
  have hlen := (h.extent t ht).2
  rw [Token.stop] at hle
  omega

/-- At the place of a token stands a spelling of it. -/
theorem slice (h : Divides o cs toks) : ∀ t ∈ toks, ∃ before s after, cs = before ++ s ++ after ∧
    o + byteLength before = t.offset ∧ byteLength s = t.len ∧ t.lexeme.IsProper ∧
      s ∈ t.lexeme.spellings := by
  induction h with
  | nil => nofun
  | @blank o c cs toks _ _ ih =>
    intro t ht
    obtain ⟨before, s, after, rfl, hoffset, hlen, hproper, hspelled⟩ := ih t ht
    refine ⟨c :: before, s, after, rfl, ?_, hlen, hproper, hspelled⟩
    rw [Text.byteLength_cons]
    omega
  | @token o l s rest toks hl _ ih =>
    refine List.forall_mem_cons.2 ⟨?_, fun t ht => ?_⟩
    · exact ⟨[], s, rest, rfl, Nat.add_zero o, rfl, hl.proper, hl.spelled⟩
    · obtain ⟨before, s', after, rfl, hoffset, hlen, hproper, hspelled⟩ := ih t ht
      refine ⟨s ++ before, s', after, ?_, ?_, hlen, hproper, hspelled⟩
      · rw [List.append_assoc, List.append_assoc, List.append_assoc]
      · rw [Text.byteLength_append]
        omega

/-- A character that belongs to no token is blank. -/
theorem gap (h : Divides o cs toks) {before after : List Char} {c : Char}
    (hcs : cs = before ++ c :: after)
    (hout : ∀ t ∈ toks, ¬(t.offset ≤ o + byteLength before ∧ o + byteLength before < t.stop)) :
    isBlank c = true := by
  induction h generalizing before with
  | nil => simp at hcs
  | @blank o d cs toks hd _ ih =>
    cases before with
    | nil =>
      cases hcs
      exact hd
    | cons e before =>
      rw [List.cons_append] at hcs
      obtain ⟨rfl, rfl⟩ := List.cons_eq_cons.1 hcs
      refine ih rfl fun t ht => ?_
      have hnot := hout t ht
      rwa [Text.byteLength_cons, ← Nat.add_assoc] at hnot
  | @token o l s rest toks hl _ ih =>
    obtain ⟨hfirst, hothers⟩ := List.forall_mem_cons.1 hout
    -- The character is not in the first token, so it stands in what follows.
    have hle : byteLength s ≤ byteLength before := by
      simp only [Token.stop, not_and, Nat.not_lt] at hfirst
      have := hfirst (Nat.le_add_right _ _)
      omega
    rcases List.append_eq_append_iff.1 hcs with ⟨rest', rfl, hrest⟩ | ⟨s', rfl, hs'⟩
    · rw [Text.byteLength_append, ← Nat.add_assoc] at hothers
      exact ih hrest hothers
    · cases s' with
      | nil =>
        have hstart : rest = [] ++ c :: after := hs'.symm
        refine ih hstart ?_
        rwa [List.append_nil]
      | cons e s' =>
        have hpos := e.utf8Size_pos
        rw [Text.byteLength_append, Text.byteLength_cons] at hle
        omega

end Divides

/-! ## Nothing is lost -/

/-- A lexeme ends where the text does. -/
theorem Lexeme.endsBefore_nil (l : Lexeme) : l.EndsBefore [] := by
  cases l with
  | symbol s => exact ⟨by cases s <;> rfl, nofun⟩
  | string => trivial
  | comment => exact fun _ => nofun
  | _ => nofun

/-- A spelling of a lexeme, alone. -/
theorem Divides.single {o : Nat} {l : Lexeme} {s : List Char} (hl : l.IsProper)
    (hs : s ∈ l.spellings) : Divides o s [⟨l, o, byteLength s⟩] := by
  have hone := Divides.token (o := o) ⟨hl, hs, l.endsBefore_nil⟩ .nil
  rwa [List.append_nil] at hone

/-- The spellings of a lexeme are the texts that are read as it and nothing else. -/
theorem Lexeme.mem_spellings_iff {l : Lexeme} (hl : l.IsProper) {s : List Char} :
    s ∈ l.spellings ↔ readTokens s 0 [] = .ok [⟨l, 0, byteLength s⟩] := by
  rw [readTokens_eq_ok_iff_divides]
  constructor
  · exact Divides.single hl
  · intro h
    obtain ⟨before, s', after, rfl, hoffset, hlen, -, hspelled⟩ :=
      h.slice _ (List.mem_singleton_self _)
    rw [Text.byteLength_append, Text.byteLength_append] at hlen
    dsimp only at hoffset hlen hspelled
    have hbefore : before = [] := Text.byteLength_eq_zero.1 (by omega)
    have hafter : after = [] := Text.byteLength_eq_zero.1 (by omega)
    rwa [hbefore, hafter, List.nil_append, List.append_nil]

/-- What the tokens of a text tell about it. -/
structure Lossless (text : List Char) (toks : List Token) : Prop where
  nonempty : ∀ t ∈ toks, 0 < t.len
  ordered : toks.Pairwise fun t u => t.offset < u.offset
  apart : toks.Pairwise fun t u => t.stop ≤ u.offset
  /-- A token lies inside the text, on boundaries of characters, and is spelled there. -/
  spelled : ∀ t ∈ toks, ∃ s ∈ t.lexeme.spellings, slice text t.offset t.stop = some s
  /-- What spells a token tells which one it is, and what a token is tells how it is spelled. -/
  determined : ∀ t ∈ toks, ∀ s, s ∈ t.lexeme.spellings ↔
    readTokens s 0 [] = .ok [⟨t.lexeme, 0, byteLength s⟩]
  /-- A character that belongs to no token is blank. -/
  gaps : ∀ before c after, text = before ++ c :: after →
    (∀ t ∈ toks, ¬(t.offset ≤ byteLength before ∧ byteLength before < t.stop)) → isBlank c = true

/-- Cutting a text into tokens loses nothing. -/
theorem Source.tokens_lossless {text : List Char} {toks : List Token}
    (h : Source.tokens text = .ok toks) : Lossless text toks := by
  have hdivides := (Source.tokens_eq_ok_iff.1 h).1
  refine ⟨fun t ht => (hdivides.extent t ht).2, hdivides.ordered, hdivides.apart, fun t ht => ?_,
    fun t ht s => ?_, fun before c after htext hout => ?_⟩
  · obtain ⟨before, s, after, htext, hoffset, hlen, -, hspelled⟩ := hdivides.slice t ht
    rw [Nat.zero_add] at hoffset
    exact ⟨s, hspelled,
      Text.slice_eq_some_iff.2 ⟨before, after, htext, hoffset, congrArg (t.offset + ·) hlen⟩⟩
  · obtain ⟨-, -, -, -, -, -, hproper, -⟩ := hdivides.slice t ht
    exact Lexeme.mem_spellings_iff hproper
  · exact hdivides.gap htext (by simpa using hout)

/-- A text with all kinds of tokens, and with characters of more than one byte. -/
theorem Source.tokens_lossless_kinds :
    ∃ text toks, text = "x1=0X1f+0*00/*é*/ ...\"ü\\\"\"!= 7//".toList ∧
      Source.tokens text = .ok toks ∧ toks.length = 13 ∧ Lossless text toks := by
  have hrun : (Source.tokens "x1=0X1f+0*00/*é*/ ...\"ü\\\"\"!= 7//".toList).toOption.map
      List.length = some 13 := by
    rw [String.toList_ofList]
    decide +kernel
  obtain ⟨toks, htoks, hlength⟩ := Option.map_eq_some_iff.1 hrun
  generalize "x1=0X1f+0*00/*é*/ ...\"ü\\\"\"!= 7//".toList = text at htoks ⊢
  cases h : Source.tokens text with
  | error e =>
    rw [h] at htoks
    cases htoks
  | ok toks' =>
    rw [h] at htoks
    cases htoks
    exact ⟨text, toks, rfl, h, hlength, Source.tokens_lossless h⟩

end ContractCompiler
