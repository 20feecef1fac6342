import ContractCompiler.Proofs.Token.Division
import Mathlib.Data.List.Forall2

/-!
# Texts joined by line breaks

No token runs across a line break, but for a string or a comment that is closed further on. So a text
that can be cut into tokens may be followed by a line break and any other such text: the tokens are
those of the one and then those of the other.
-/

namespace ContractCompiler

open Text (byteLength)

/-- A token that stands `n` bytes further on. -/
def Token.shift (n : Nat) (t : Token) : Token :=
  { t with offset := t.offset + n }

@[simp] theorem Token.lexeme_shift (n : Nat) (t : Token) : (t.shift n).lexeme = t.lexeme := rfl

/-! ## A line break ends lexemes -/

theorem isPrefixOf_append_of_not_mem {s cs rest : List Char} {c : Char} (hc : c ∉ s) :
    s.isPrefixOf (cs ++ c :: rest) = s.isPrefixOf cs := by
  rw [Bool.eq_iff_iff, List.isPrefixOf_iff_prefix, List.isPrefixOf_iff_prefix]
  constructor
  · intro hlong
    rcases List.prefix_or_prefix_of_prefix hlong (List.prefix_append cs (c :: rest)) with hs | ⟨t, rfl⟩
    · exact hs
    · cases t with
      | nil => exact ⟨[], by simp⟩
      | cons d t =>
        have hfront : d :: t <+: c :: rest := (List.prefix_append_right_inj cs).1 hlong
        cases (List.cons_prefix_cons.1 hfront).1
        exact absurd (List.mem_append_right cs List.mem_cons_self) hc
  · exact fun hs => hs.trans (List.prefix_append cs (c :: rest))

theorem Symbol.newline_not_mem_chars (s : Symbol) : '\n' ∉ s.chars := by
  cases s <;> decide

theorem Symbol.read?_lineBreak (cs rest : List Char) : read? (cs ++ '\n' :: rest) = read? cs := by
  refine congrArg (all.find? ·) (funext fun s => ?_)
  exact isPrefixOf_append_of_not_mem s.newline_not_mem_chars

/-- What may come first if a line break and more are added. -/
theorem forall_head?_lineBreak {P : Char → Prop} {cs : List Char} (hbreak : P '\n')
    (h : ∀ c ∈ cs.head?, P c) (rest : List Char) : ∀ c ∈ (cs ++ '\n' :: rest).head?, P c := by
  cases cs with
  | nil =>
    intro c hc
    cases hc
    exact hbreak
  | cons d cs => exact h

namespace Lexeme

/-- A lexeme that ends, ends too if more lines follow. -/
theorem EndsBefore.lineBreak {l : Lexeme} {cs : List Char} (h : l.EndsBefore cs)
    (rest : List Char) : l.EndsBefore (cs ++ '\n' :: rest) := by
  cases l with
  | identifier name => exact forall_head?_lineBreak (by decide) h rest
  | number radix digits => exact forall_head?_lineBreak (by decide) h rest
  | string body => trivial
  | symbol s =>
    obtain ⟨hread, hcomment⟩ := h
    refine ⟨?_, fun hslash => forall_head?_lineBreak (by decide) (hcomment hslash) rest⟩
    rw [← List.append_assoc, Symbol.read?_lineBreak]
    exact hread
  | comment text => exact fun hline => forall_head?_lineBreak (P := (· = '\n')) rfl (h hline) rest

end Lexeme

namespace Divides

variable {o : Nat} {a b : List Char} {ta tb : List Token}

theorem shift (h : Divides o a ta) (n : Nat) : Divides (o + n) a (ta.map (Token.shift n)) := by
  induction h with
  | nil => exact .nil
  | blank hc _ ih =>
    refine .blank hc ?_
    rwa [Nat.add_right_comm]
  | token hl _ ih =>
    refine .token hl ?_
    rwa [Nat.add_right_comm]

/-- Two texts on lines of their own are made of the tokens of both. -/
theorem joined (ha : Divides o a ta) (hb : Divides (o + byteLength a + 1) b tb) :
    Divides o (a ++ '\n' :: b) (ta ++ tb) := by
  induction ha with
  | nil => exact .blank rfl hb
  | @blank o c cs toks hc _ ih =>
    refine .blank hc (ih ?_)
    rwa [Text.byteLength_cons, ← Nat.add_assoc] at hb
  | @token o l s rest toks hl _ ih =>
    rw [List.append_assoc]
    refine .token ⟨hl.proper, hl.spelled, hl.ends.lineBreak b⟩ (ih ?_)
    rwa [Text.byteLength_append, ← Nat.add_assoc] at hb

/-- Spellings on lines of their own are made of the lexemes that they spell. -/
theorem lines {ls : List Lexeme} {ss : List (List Char)}
    (h : List.Forall₂ (fun l s => l.IsProper ∧ s ∈ l.spellings) ls ss) (o : Nat) :
    ∃ toks, Divides o (['\n'].intercalate ss) toks ∧ toks.map (·.lexeme) = ls := by
  induction h generalizing o with
  | nil => exact ⟨[], .nil, rfl⟩
  | @cons l s ls ss hfirst hothers ih =>
    have hone : Divides o s [⟨l, o, byteLength s⟩] := single hfirst.1 hfirst.2
    cases hothers with
    | nil =>
      rw [List.intercalate_singleton]
      exact ⟨_, hone, rfl⟩
    | cons =>
      obtain ⟨toks, htoks, hlexemes⟩ := ih (o + byteLength s + 1)
      rw [List.intercalate_cons_cons, List.append_assoc]
      exact ⟨_, hone.joined htoks, congrArg (l :: ·) hlexemes⟩

/-- The pieces of a text at the places of its tokens are spellings of them. -/
theorem slices (h : Divides 0 a ta) :
    ∃ ss, List.Forall₂ (fun t s => Text.slice a t.offset t.stop = some s) ta ss ∧
      List.Forall₂ (fun l s => l.IsProper ∧ s ∈ l.spellings) (ta.map (·.lexeme)) ss := by
  have hpieces : ∀ t ∈ ta, ∃ s, Text.slice a t.offset t.stop = some s ∧ t.lexeme.IsProper ∧
      s ∈ t.lexeme.spellings := by
    intro t ht
    obtain ⟨before, s, after, ha, hoffset, hlen, hproper, hspelled⟩ := h.slice t ht
    rw [Nat.zero_add] at hoffset
    exact ⟨s, Text.slice_eq_some_iff.2 ⟨before, after, ha, hoffset, congrArg (t.offset + ·) hlen⟩,
      hproper, hspelled⟩
  clear h
  induction ta with
  | nil => exact ⟨[], .nil, .nil⟩
  | cons t ta ih =>
    obtain ⟨hfirst, hothers⟩ := List.forall_mem_cons.1 hpieces
    obtain ⟨s, hslice, hspelled⟩ := hfirst
    obtain ⟨ss, hslices, hall⟩ := ih hothers
    exact ⟨s :: ss, .cons hslice hslices, .cons hspelled hall⟩

end Divides

/-- A text that can be cut into tokens, then a line break and another one: the tokens are those of the
first and then those of the second, further on. So the tokens of a text, each put on a line of its
own, are read again. -/
theorem Source.tokens_joined :
    (∀ a b ta tb, Source.tokens a = .ok ta → Source.tokens b = .ok tb →
      ta.length + tb.length ≤ maxTokens →
        Source.tokens (a ++ '\n' :: b) = .ok (ta ++ tb.map (Token.shift (byteLength a + 1)))) ∧
    ∀ text toks, Source.tokens text = .ok toks →
      ∃ ss, List.Forall₂ (fun t s => Text.slice text t.offset t.stop = some s) toks ss ∧
        ∃ toks', Source.tokens (['\n'].intercalate ss) = .ok toks' ∧
          toks'.map (·.lexeme) = toks.map (·.lexeme) := by
  constructor
  · intro a b ta tb ha hb hfew
    obtain ⟨ha, -⟩ := Source.tokens_eq_ok_iff.1 ha
    obtain ⟨hb, -⟩ := Source.tokens_eq_ok_iff.1 hb
    refine Source.tokens_eq_ok_iff.2 ⟨ha.joined ?_, ?_⟩
    · rw [Nat.add_assoc]
      exact hb.shift (byteLength a + 1)
    · rwa [List.length_append, List.length_map]
  · intro text toks h
    obtain ⟨hdivides, hfew⟩ := Source.tokens_eq_ok_iff.1 h
    obtain ⟨ss, hslices, hspelled⟩ := hdivides.slices
    obtain ⟨toks', hagain, hlexemes⟩ := Divides.lines hspelled 0
    have hlength : toks'.length = toks.length := by
      simpa using congrArg List.length hlexemes
    exact ⟨ss, hslices, toks', Source.tokens_eq_ok_iff.2 ⟨hagain, hlength ▸ hfew⟩, hlexemes⟩

/-- An unfinished line comment ends at the line break, and what stands after a character of two bytes
moves by two. -/
theorem Source.tokens_joined_comment :
    Source.tokens ("x=0X1f//é".toList ++ '\n' :: ". ..\"a\nb\"".toList) =
      .ok ([⟨.identifier "x", 0, 1⟩, ⟨.symbol .equal, 1, 1⟩, ⟨.number .hexadecimal "1f", 2, 4⟩,
          ⟨.comment "//é", 6, 4⟩] ++
        [⟨.symbol .dot, 11, 1⟩, ⟨.symbol .dotDot, 13, 2⟩, ⟨.string "a\nb", 15, 5⟩]) ∧
    ∃ ss toks', List.Forall₂
        (fun (t : Token) s => Text.slice ". ..\"a\nb\"".toList t.offset t.stop = some s)
        [⟨.symbol .dot, 0, 1⟩, ⟨.symbol .dotDot, 2, 2⟩, ⟨.string "a\nb", 4, 5⟩] ss ∧
      Source.tokens (['\n'].intercalate ss) = .ok toks' ∧
        toks'.map (·.lexeme) = [.symbol .dot, .symbol .dotDot, .string "a\nb"] := by
  have hfirst : Source.tokens "x=0X1f//é".toList = .ok [⟨.identifier "x", 0, 1⟩,
      ⟨.symbol .equal, 1, 1⟩, ⟨.number .hexadecimal "1f", 2, 4⟩, ⟨.comment "//é", 6, 4⟩] := by
    decide +kernel
  have hsecond : Source.tokens ". ..\"a\nb\"".toList = .ok [⟨.symbol .dot, 0, 1⟩,
      ⟨.symbol .dotDot, 2, 2⟩, ⟨.string "a\nb", 4, 5⟩] := by
    decide +kernel
  obtain ⟨ss, hslices, toks', hagain, hlexemes⟩ := Source.tokens_joined.2 _ _ hsecond
  exact ⟨Source.tokens_joined.1 _ _ _ _ hfirst hsecond (by decide), ss, toks', hslices, hagain,
    hlexemes⟩

end ContractCompiler
