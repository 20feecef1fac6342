import Mathlib.Data.List.Forall2
import ContractCompiler.Proofs.Syntax.Printing
import ContractCompiler.Proofs.Text.Decoding
import ContractCompiler.Proofs.Token.Joining

/-!
# The lexemes of a printed program

A printed program is made of its lexemes: wherever two of them stand without a blank between them,
the first one ends before the second.
-/

namespace ContractCompiler

open Text (byteLength)

/-- `Spells P cs ls`: the text `cs` is made of the lexemes `ls`, none of which is a comment, if what
follows it starts with a character that satisfies `P`. -/
def Spells (P : Char → Prop) (cs : List Char) (ls : List Lexeme) : Prop :=
  ∀ o rest toks, (∀ c ∈ rest.head?, P c) → Divides (o + byteLength cs) rest toks →
    ∃ ts, ts.map Token.lexeme = ls ∧ (∀ t ∈ ts, t.isComment = false) ∧
      Divides o (cs ++ rest) (ts ++ toks)

/-- What ends a name or a number. -/
def EndsWord (c : Char) : Prop :=
  isIdentContinue c = false

/-- A text starts with a character that satisfies `P`. -/
def Starts (P : Char → Prop) (cs : List Char) : Prop :=
  ∃ c, cs.head? = some c ∧ P c

theorem Starts.append {P : Char → Prop} {cs : List Char} (h : Starts P cs) (rest : List Char) :
    Starts P (cs ++ rest) := by
  obtain ⟨c, hhead, hc⟩ := h
  exact ⟨c, by rw [List.head?_append, hhead, Option.some_or], hc⟩

theorem Starts.mono {P Q : Char → Prop} {cs : List Char} (h : Starts P cs)
    (hPQ : ∀ c, P c → Q c) : Starts Q cs := by
  obtain ⟨c, hhead, hc⟩ := h
  exact ⟨c, hhead, hPQ c hc⟩

namespace Spells

variable {P Q : Char → Prop} {a b cs : List Char} {la lb ls : List Lexeme}

theorem mono (h : Spells P cs ls) (hQP : ∀ c, Q c → P c) : Spells Q cs ls :=
  fun o rest toks hrest => h o rest toks fun c hc => hQP c (hrest c hc)

theorem nil : Spells P [] [] :=
  fun _ _ _ _ h => ⟨[], rfl, nofun, h⟩

theorem append (ha : Spells P a la) (hb : Spells Q b lb) (hstart : Starts P b) :
    Spells Q (a ++ b) (la ++ lb) := by
  intro o rest toks hrest h
  rw [Text.byteLength_append, ← Nat.add_assoc] at h
  obtain ⟨tb, rfl, hcommentb, hb⟩ := hb _ rest toks hrest h
  have hfollow : ∀ c ∈ (b ++ rest).head?, P c := by
    obtain ⟨c, hhead, hc⟩ := hstart.append rest
    rw [hhead]
    rintro c' ⟨⟩
    exact hc
  obtain ⟨ta, rfl, hcommenta, ha⟩ := ha o _ _ hfollow hb
  refine ⟨ta ++ tb, List.map_append, List.forall_mem_append.2 ⟨hcommenta, hcommentb⟩, ?_⟩
  rw [List.append_assoc, List.append_assoc]
  exact ha

/-- What may be followed by anything. -/
theorem append_any (ha : Spells (fun _ => True) a la) (hb : Spells Q b lb) :
    Spells Q (a ++ b) (la ++ lb) := by
  cases b with
  | cons c b => exact ha.append hb ⟨c, rfl, trivial⟩
  | nil =>
    intro o rest toks hrest h
    rw [List.append_nil] at h ⊢
    obtain ⟨tb, rfl, hcommentb, hb⟩ := hb _ rest toks hrest h
    obtain ⟨ta, rfl, hcommenta, ha⟩ := ha o _ _ (fun _ _ => trivial) hb
    refine ⟨ta ++ tb, List.map_append, List.forall_mem_append.2 ⟨hcommenta, hcommentb⟩, ?_⟩
    rw [List.append_assoc]
    exact ha

/-- A spelling of a single lexeme. -/
theorem single {l : Lexeme} {s : List Char} (hl : l.IsProper) (hs : s ∈ l.spellings)
    (hcomment : ∀ text, l ≠ .comment text)
    (hends : ∀ rest : List Char, (∀ c ∈ rest.head?, P c) → l.EndsBefore rest) :
    Spells P s [l] := by
  intro o rest toks hrest h
  refine ⟨[⟨l, o, byteLength s⟩], rfl, ?_, .token ⟨hl, hs, hends rest hrest⟩ h⟩
  refine List.forall_mem_singleton.2 ?_
  cases l with
  | comment text => exact absurd rfl (hcomment text)
  | _ => rfl

theorem blank {c : Char} (hc : Text.isBlank c = true) (h : Spells P cs ls) :
    Spells P (c :: cs) ls := by
  intro o rest toks hrest hdivides
  rw [Text.byteLength_cons, ← Nat.add_assoc] at hdivides
  obtain ⟨ts, hls, hcomment, hdivides⟩ := h _ rest toks hrest hdivides
  exact ⟨ts, hls, hcomment, .blank hc hdivides⟩

theorem space (h : Spells P cs ls) : Spells P (' ' :: cs) ls :=
  h.blank rfl

/-- A name. -/
theorem word {name : String} (hname : (Lexeme.identifier name).IsProper) (h : Spells P cs ls)
    (hstart : Starts EndsWord cs) : Spells P (name.toList ++ cs) (.identifier name :: ls) :=
  (single hname (List.mem_singleton_self _) nofun fun _ hrest => hrest).append h hstart

/-- A symbol that is not part of a longer one. -/
theorem symbol {s : Symbol} (hread : ∀ rest, Symbol.read? (s.chars ++ rest) = some s)
    (hslash : s ≠ .slash) (h : Spells P cs ls) : Spells P (s.chars ++ cs) (.symbol s :: ls) :=
  (single (l := .symbol s) trivial (List.mem_singleton_self _) nofun
    fun rest _ => ⟨hread rest, fun hs => absurd hs hslash⟩).append_any h

theorem lparen (h : Spells P cs ls) : Spells P ('(' :: cs) (.symbol .lparen :: ls) :=
  h.symbol (s := .lparen) (fun _ => rfl) (by decide)

theorem rparen (h : Spells P cs ls) : Spells P (')' :: cs) (.symbol .rparen :: ls) :=
  h.symbol (s := .rparen) (fun _ => rfl) (by decide)

theorem lbracket (h : Spells P cs ls) : Spells P ('[' :: cs) (.symbol .lbracket :: ls) :=
  h.symbol (s := .lbracket) (fun _ => rfl) (by decide)

theorem rbracket (h : Spells P cs ls) : Spells P (']' :: cs) (.symbol .rbracket :: ls) :=
  h.symbol (s := .rbracket) (fun _ => rfl) (by decide)

theorem lbrace (h : Spells P cs ls) : Spells P ('\x7b' :: cs) (.symbol .lbrace :: ls) :=
  h.symbol (s := .lbrace) (fun _ => rfl) (by decide)

theorem rbrace (h : Spells P cs ls) : Spells P ('\x7d' :: cs) (.symbol .rbrace :: ls) :=
  h.symbol (s := .rbrace) (fun _ => rfl) (by decide)

theorem comma (h : Spells P cs ls) : Spells P (',' :: cs) (.symbol .comma :: ls) :=
  h.symbol (s := .comma) (fun _ => rfl) (by decide)

theorem semicolon (h : Spells P cs ls) : Spells P (';' :: cs) (.symbol .semicolon :: ls) :=
  h.symbol (s := .semicolon) (fun _ => rfl) (by decide)

/-- A dot before a name. -/
theorem dot (h : Spells P cs ls) (hstart : Starts (· ≠ '.') cs) :
    Spells P ('.' :: cs) (.symbol .dot :: ls) := by
  refine (single (l := .symbol .dot) (P := (· ≠ '.')) trivial (List.mem_singleton_self _) nofun
    fun rest hrest => ⟨?_, nofun⟩).append h hstart
  cases rest with
  | nil => rfl
  | cons c rest =>
    have hc : '.' ≠ c := (hrest c rfl).symm
    simp [Symbol.read?, Symbol.all, Symbol.chars, hc]

/-- A unary operator before its operand. -/
theorem unary (op : UnaryOperator) (h : Spells P cs ls) (hstart : Starts (· ≠ '=') cs) :
    Spells P (op.symbol.chars ++ cs) (.symbol op.symbol :: ls) := by
  refine (single (l := .symbol op.symbol) (P := (· ≠ '=')) trivial (List.mem_singleton_self _)
    nofun fun rest hrest => ⟨?_, by cases op <;> nofun⟩).append h hstart
  cases op with
  | complement => rfl
  | not =>
    cases rest with
    | nil => rfl
    | cons c rest =>
      have hc : '=' ≠ c := (hrest c rfl).symm
      simp [UnaryOperator.symbol, Symbol.read?, Symbol.all, Symbol.chars, hc]

/-- A symbol before a blank. -/
theorem spaced (s : Symbol) (h : Spells P cs ls) :
    Spells P (s.chars ++ ' ' :: cs) (.symbol s :: ls) := by
  refine (single (l := .symbol s) (P := (· = ' ')) trivial (List.mem_singleton_self _) nofun
    fun rest hrest => ?_).append h.space ⟨' ', rfl, rfl⟩
  cases rest with
  | nil => exact Lexeme.endsBefore_nil _
  | cons c rest =>
    obtain rfl : c = ' ' := hrest c rfl
    refine ⟨?_, fun _ => by rintro c ⟨⟩; decide⟩
    have hblank : ∀ y : Symbol, ' ' ∉ y.chars := by
      intro y
      cases y <;> decide
    rw [Symbol.read?, show (fun y : Symbol => y.chars.isPrefixOf (s.chars ++ ' ' :: rest)) =
      fun y => y.chars.isPrefixOf s.chars from
        funext fun y => isPrefixOf_append_of_not_mem (hblank y)]
    cases s <;> decide

/-- Pieces with commas and blanks between them. -/
theorem separated {texts : List (List Char)} {pieces : List (List Lexeme)}
    (h : List.Forall₂ (Spells EndsWord) texts pieces) (htail : Spells P cs ls)
    (hstart : Starts EndsWord cs) :
    Spells P ([',', ' '].intercalate texts ++ cs) (Lexeme.separated pieces ++ ls) := by
  induction h with
  | nil => exact htail
  | @cons text piece texts pieces hfirst hothers ih =>
    cases hothers with
    | nil =>
      rw [Lexeme.separated, List.intercalate_singleton, List.intercalate_singleton]
      exact hfirst.append htail hstart
    | cons =>
      rw [Lexeme.separated, List.intercalate_cons_cons, List.intercalate_cons_cons]
      simp only [List.append_assoc]
      exact hfirst.append ih.space.comma ⟨',', rfl, rfl⟩

end Spells

/-! ## Lexemes -/

theorem Lexeme.IsProper.starts_identifier {name : String} (h : (Lexeme.identifier name).IsProper) :
    Starts (isIdentStart · = true) name.toList := by
  obtain ⟨c, cs, hname, hc, -⟩ := h
  exact ⟨c, congrArg List.head? hname, hc⟩

theorem toList_toString (n : Nat) : (toString n).toList = Nat.toDigits 10 n :=
  Nat.toList_repr

theorem head?_toDigits_ne_zero {n : Nat} (h : n ≠ 0) :
    (Nat.toDigits 10 n).head? ≠ some '0' := by
  induction n using Nat.strongRecOn with
  | _ n ih =>
    by_cases hn : n < 10
    · rw [Nat.toDigits_of_lt_base hn]
      have hdigits : ∀ m < 10, m ≠ 0 → [m.digitChar].head? ≠ some '0' := by decide
      exact hdigits n hn h
    · rw [Nat.toDigits_of_base_le (by decide) (Nat.le_of_not_lt hn), List.head?_append_of_ne_nil _
        Nat.toDigits_ne_nil]
      exact ih (n / 10) (by omega) (by omega)

theorem Radix.isDigit_decimal {c : Char} (h : c.isDigit = true) :
    Radix.isDigit .decimal c = true := by
  have hrange := isDigit_iff.1 h
  rw [Radix.isDigit, Radix.digitValue, if_pos h, decide_eq_true_eq]
  have hzero : '0'.toNat = 48 := rfl
  change c.toNat - '0'.toNat < 10
  omega

namespace Lexeme

variable (n : Nat)

theorem isProper_numeral : (numeral n).IsProper := by
  rw [numeral]
  split
  case isTrue => exact ⟨by decide, List.all_eq_true.1 (by decide +kernel), nofun⟩
  case isFalse hn =>
    refine ⟨?_, ?_, fun _ => ?_⟩ <;> rw [toList_toString]
    · exact Nat.toDigits_ne_nil
    · exact fun c hc => Radix.isDigit_decimal
        (Nat.isDigit_of_mem_toDigits (by decide) (Nat.le_refl 10) hc)
    · exact head?_toDigits_ne_zero hn

theorem mem_spellings_numeral : (toString n).toList ∈ (numeral n).spellings := by
  rw [numeral]
  split
  case isTrue hn =>
    subst hn
    decide
  case isFalse => exact List.mem_append_left _ (List.mem_singleton_self _)

theorem numeral_ne_comment (text : String) : numeral n ≠ .comment text := by
  rw [numeral]
  split <;> nofun

theorem endsBefore_numeral {rest : List Char} (h : ∀ c ∈ rest.head?, EndsWord c) :
    (numeral n).EndsBefore rest := by
  rw [numeral]
  split <;> exact h

theorem starts_numeral : Starts (·.isDigit = true) (toString n).toList := by
  rw [toList_toString]
  obtain ⟨c, cs, hcs⟩ := List.exists_cons_of_ne_nil (Nat.toDigits_ne_nil (n := n) (b := 10))
  have hc : c ∈ Nat.toDigits 10 n := hcs ▸ List.mem_cons_self
  exact ⟨c, congrArg List.head? hcs, Nat.isDigit_of_mem_toDigits (by decide) (Nat.le_refl 10) hc⟩

end Lexeme

/-! ## Expressions -/

/-- A place starts with a name. -/
theorem Variable.starts_display : (v : Variable) → (Node.place v).Writable →
    Starts (isIdentStart · = true) v.display.toList
  | .name _ _, h => Lexeme.IsProper.starts_identifier h.self.1
  | .index base _ _, h => by
    have hbase := base.starts_display (h.child List.mem_cons_self)
    rw [Variable.display, String.toList_append, String.toList_append, String.toList_append,
      List.append_assoc, List.append_assoc]
    exact hbase.append _
  | .member owner _ _, h => by
    have howner := owner.starts_display (h.child List.mem_cons_self)
    rw [Variable.display, String.toList_append, String.toList_append, List.append_assoc]
    exact howner.append _

theorem ne_equal_of_isIdentStart {c : Char} (h : isIdentStart c = true) : c ≠ '=' := by
  rintro rfl
  exact absurd h (by decide)

/-- An expression does not start with the end of an operator. -/
theorem Expr.starts_display (e : Expr) (h : (Node.expr e).Writable) :
    Starts (· ≠ '=') e.display.toList := by
  cases e with
  | uint value span =>
    rw [Expr.display]
    exact (Lexeme.starts_numeral _).mono fun c hc => by rintro rfl; exact absurd hc (by decide)
  | bytes value span => exact ⟨'"', by simp [Expr.display], by decide⟩
  | unary op operand span =>
    cases op with
    | not => exact ⟨'!', by simp [Expr.display, UnaryOperator.symbol, Symbol.text, Symbol.chars],
        by decide⟩
    | complement =>
      exact ⟨'~', by simp [Expr.display, UnaryOperator.symbol, Symbol.text, Symbol.chars],
        by decide⟩
  | binary op left right span => exact ⟨'(', by simp [Expr.display], by decide⟩
  | call callee args span =>
    have hcallee := Lexeme.IsProper.starts_identifier h.self.1
    rw [Expr.display, String.toList_append, String.toList_append, String.toList_append,
      List.append_assoc, List.append_assoc]
    exact (hcallee.append _).mono fun _ => ne_equal_of_isIdentStart
  | var place =>
    rw [Expr.display]
    exact (place.starts_display (h.child List.mem_cons_self)).mono fun _ => ne_equal_of_isIdentStart

mutual

/-- An expression is made of its lexemes. -/
theorem Expr.spells : (e : Expr) → (Node.expr e).Writable →
    Spells EndsWord e.display.toList e.lexemes
  | .uint value _, _ => by
    rw [Expr.display, Expr.lexemes]
    exact .single (Lexeme.isProper_numeral _) (Lexeme.mem_spellings_numeral _)
      (Lexeme.numeral_ne_comment _) fun _ => Lexeme.endsBefore_numeral _
  | .bytes value _, h => by
    obtain ⟨body, rfl, hbody⟩ := h.self
    rw [Expr.display, Expr.lexemes, Text.decodeLossy_utf8]
    refine .single ?_ (by simp [Lexeme.spellings]) nofun fun _ _ => trivial
    rwa [Lexeme.IsProper, String.toList_ofList]
  | .unary op operand _, h => by
    have hoperand := h.child (c := .expr operand) List.mem_cons_self
    rw [Expr.display, Expr.lexemes, String.toList_append, Symbol.text, String.toList_ofList]
    exact (operand.spells hoperand).unary op (operand.starts_display hoperand)
  | .binary op left right span, h => by
    have hleft := left.spells (h.child List.mem_cons_self)
    have hright := right.spells (h.child (List.mem_cons_of_mem _ List.mem_cons_self))
    have htext : (Expr.binary op left right span).display.toList =
        '(' :: (left.display.toList ++ ' ' :: (op.symbol.chars ++ ' ' ::
          (right.display.toList ++ [')']))) := by
      simp [Expr.display, BinaryOperator.text, Symbol.text]
    rw [htext, Expr.lexemes]
    have hclosed : Spells EndsWord _ _ := hright.append Spells.nil.rparen ⟨')', rfl, rfl⟩
    exact (hleft.append (hclosed.spaced op.symbol).space ⟨' ', rfl, rfl⟩).lparen
  | .call callee args span, h => by
    have hargs := Expr.spells_list args fun e he => h.child (List.mem_map_of_mem he)
    have htext : (Expr.call callee args span).display.toList =
        callee.toList ++ '(' :: ([',', ' '].intercalate
          ((Expr.displayList args).map String.toList) ++ [')']) := by
      simp [Expr.display]
    rw [htext, Expr.lexemes]
    exact (Spells.separated hargs Spells.nil.rparen ⟨')', rfl, rfl⟩).lparen.word h.self.1
      ⟨'(', rfl, rfl⟩
  | .var place, h => by
    rw [Expr.display, Expr.lexemes]
    exact place.spells (h.child List.mem_cons_self)

/-- Several expressions are made of their lexemes. -/
theorem Expr.spells_list : (es : List Expr) → (∀ e ∈ es, (Node.expr e).Writable) →
    List.Forall₂ (Spells EndsWord) ((Expr.displayList es).map String.toList) (Expr.lexemesList es)
  | [], _ => .nil
  | e :: es, h => by
    rw [Expr.displayList, Expr.lexemesList, List.map_cons]
    exact .cons (e.spells (h e List.mem_cons_self))
      (Expr.spells_list es fun e he => h e (List.mem_cons_of_mem _ he))

/-- A place is made of its lexemes. -/
theorem Variable.spells : (v : Variable) → (Node.place v).Writable →
    Spells EndsWord v.display.toList v.lexemes
  | .name _ _, h => .single h.self.1 (List.mem_singleton_self _) nofun fun _ hrest => hrest
  | .index base index span, h => by
    have hbase := base.spells (h.child List.mem_cons_self)
    have hindex := index.spells (h.child (List.mem_cons_of_mem _ List.mem_cons_self))
    have htext : (Variable.index base index span).display.toList =
        base.display.toList ++ '[' :: (index.display.toList ++ [']']) := by
      simp [Variable.display]
    rw [htext, Variable.lexemes]
    have hclosed : Spells EndsWord _ _ := hindex.append Spells.nil.rbracket ⟨']', rfl, rfl⟩
    exact hbase.append hclosed.lbracket ⟨'[', rfl, rfl⟩
  | .member owner member span, h => by
    have howner := owner.spells (h.child List.mem_cons_self)
    have hmember : Spells EndsWord member.toList [.identifier member] :=
      .single h.self (List.mem_singleton_self _) nofun fun _ hrest => hrest
    have hstart : Starts (· ≠ '.') member.toList :=
      (Lexeme.IsProper.starts_identifier h.self).mono fun c hc => by
        rintro rfl
        exact absurd hc (by decide)
    have htext : (Variable.member owner member span).display.toList =
        owner.display.toList ++ '.' :: member.toList := by
      simp [Variable.display]
    rw [htext, Variable.lexemes]
    exact howner.append (hmember.dot hstart) ⟨'.', rfl, rfl⟩

end

/-! ## Statements -/

section Statements

variable {P : Char → Prop} {cs : List Char} {ls : List Lexeme}

/-- An expression, and what follows it. -/
theorem Expr.spells_append {e : Expr} (he : (Node.expr e).Writable) (h : Spells P cs ls)
    (hstart : Starts EndsWord cs) : Spells P (e.display.toList ++ cs) (e.lexemes ++ ls) :=
  (e.spells he).append h hstart

/-- A condition in brackets, and what follows it. -/
theorem Expr.spells_condition {e : Expr} (he : (Node.expr e).Writable) (h : Spells P cs ls) :
    Spells P ('(' :: (e.display.toList ++ ')' :: cs)) (e.conditionLexemes ++ ls) := by
  rw [Expr.conditionLexemes, List.cons_append, List.append_assoc]
  exact (Expr.spells_append he h.rparen ⟨')', rfl, rfl⟩).lparen

theorem Lexeme.isProper_keyword {word : String} (h : isKeyword word = true) :
    (Lexeme.identifier word).IsProper := by
  have hkeywords : ∀ word ∈ keywords, (Lexeme.identifier word).IsProper := by decide +kernel
  exact hkeywords word (List.contains_iff_mem.1 h)

/-- A keyword, and what follows it. -/
theorem Spells.keyword (h : Spells P cs ls) (hstart : Starts EndsWord cs) (word : String)
    (hword : isKeyword word = true) : Spells P (word.toList ++ cs) (.identifier word :: ls) :=
  h.word (Lexeme.isProper_keyword hword) hstart

end Statements

mutual

/-- A statement is made of its lexemes. -/
theorem Stmt.spells : (s : Stmt) → (Node.stmt s).Writable →
    Spells (fun _ => True) s.print.toList s.lexemes
  | .ifElse condition thenBlock none span, h => by
    have hblock := thenBlock.spells (h.child (List.mem_cons_of_mem _ List.mem_cons_self))
    have htext : (Stmt.ifElse condition thenBlock none span).print.toList = "if".toList ++ ' ' ::
        '(' :: (condition.display.toList ++ ')' :: ' ' :: thenBlock.print.toList) := by
      simp [Stmt.print]
    rw [htext, Stmt.lexemes]
    exact (Expr.spells_condition (h.child List.mem_cons_self) hblock.space).space.keyword
      ⟨' ', rfl, rfl⟩ _ (by decide)
  | .ifElse condition thenBlock (some elseBlock) span, h => by
    have hthen := thenBlock.spells (h.child (List.mem_cons_of_mem _ List.mem_cons_self))
    have helse := elseBlock.spells (h.child
      (List.mem_cons_of_mem _ (List.mem_cons_of_mem _ List.mem_cons_self)))
    have htext : (Stmt.ifElse condition thenBlock (some elseBlock) span).print.toList =
        "if".toList ++ ' ' :: '(' :: (condition.display.toList ++ ')' :: ' ' ::
          (thenBlock.print.toList ++ ' ' :: ("else".toList ++ ' ' :: elseBlock.print.toList))) := by
      simp [Stmt.print]
    have hblocks := hthen.append_any
      (helse.space.keyword ⟨' ', rfl, rfl⟩ "else" (by decide)).space
    rw [htext, Stmt.lexemes]
    exact (Expr.spells_condition (h.child List.mem_cons_self) hblocks.space).space.keyword
      ⟨' ', rfl, rfl⟩ _ (by decide)
  | .whileDo condition body span, h => by
    have hbody := body.spells (h.child (List.mem_cons_of_mem _ List.mem_cons_self))
    have htext : (Stmt.whileDo condition body span).print.toList = "while".toList ++ ' ' ::
        '(' :: (condition.display.toList ++ ')' :: ' ' :: body.print.toList) := by
      simp [Stmt.print]
    rw [htext, Stmt.lexemes]
    exact (Expr.spells_condition (h.child List.mem_cons_self) hbody.space).space.keyword
      ⟨' ', rfl, rfl⟩ _ (by decide)
  | .doWhile body condition span, h => by
    have hbody := body.spells (h.child List.mem_cons_self)
    have hcondition : Spells (fun _ => True) _ _ := Expr.spells_condition
      (h.child (List.mem_cons_of_mem _ List.mem_cons_self)) Spells.nil.semicolon
    have htext : (Stmt.doWhile body condition span).print.toList = "do".toList ++ ' ' ::
        (body.print.toList ++ ' ' :: ("while".toList ++ ' ' :: '(' ::
          (condition.display.toList ++ [')', ';']))) := by
      simp [Stmt.print]
    rw [htext, Stmt.lexemes]
    have hloop := hcondition.space.keyword ⟨' ', rfl, rfl⟩ "while" (by decide)
    exact (hbody.append_any hloop.space).space.keyword ⟨' ', rfl, rfl⟩ _ (by decide)
  | .switch tested cases none span, h => by
    have hcases := Case.spells_list cases fun c hc => h.child
      (List.mem_cons_of_mem _ (List.mem_append_left _ (List.mem_map_of_mem hc)))
    have htext : (Stmt.switch tested cases none span).print.toList = "switch".toList ++ ' ' ::
        '(' :: (tested.display.toList ++ ')' :: ' ' :: '\x7b' ::
          ((Case.printList cases).toList ++ [' ', '\x7d'])) := by
      simp [Stmt.print]
    rw [htext, Stmt.lexemes]
    have hblock : Spells (fun _ => True) _ _ :=
      (hcases.append_any Spells.nil.rbrace.space).lbrace
    exact (Expr.spells_condition (h.child List.mem_cons_self) hblock.space).space.keyword
      ⟨' ', rfl, rfl⟩ _ (by decide)
  | .switch tested cases (some otherwise) span, h => by
    have hcases := Case.spells_list cases fun c hc => h.child
      (List.mem_cons_of_mem _ (List.mem_append_left _ (List.mem_map_of_mem hc)))
    have hotherwise := otherwise.spells (h.child
      (List.mem_cons_of_mem _ (List.mem_append_right _ List.mem_cons_self)))
    have htext : (Stmt.switch tested cases (some otherwise) span).print.toList =
        "switch".toList ++ ' ' :: '(' :: (tested.display.toList ++ ')' :: ' ' :: '\x7b' ::
          ((Case.printList cases).toList ++ ' ' :: ("default".toList ++ ' ' ::
            (otherwise.print.toList ++ [' ', '\x7d'])))) := by
      simp [Stmt.print]
    rw [htext, Stmt.lexemes]
    have hclosed : Spells (fun _ => True) _ _ := hotherwise.append_any Spells.nil.rbrace.space
    have hdefault := (hclosed.space.keyword ⟨' ', rfl, rfl⟩ "default" (by decide)).space
    have hblock := (hcases.append_any hdefault).lbrace
    exact (Expr.spells_condition (h.child List.mem_cons_self) hblock.space).space.keyword
      ⟨' ', rfl, rfl⟩ _ (by decide)
  | .leave kind none span, h => by
    have htext : (Stmt.leave kind none span).print.toList = kind.word.toList ++ [';'] := by
      simp [Stmt.print]
    rw [htext, Stmt.lexemes]
    exact Spells.nil.semicolon.keyword ⟨';', rfl, rfl⟩ _ (by cases kind <;> decide)
  | .leave kind (some value) span, h => by
    have htext : (Stmt.leave kind (some value) span).print.toList =
        kind.word.toList ++ ' ' :: (value.display.toList ++ [';']) := by
      simp [Stmt.print]
    rw [htext, Stmt.lexemes]
    exact (Expr.spells_append (h.child List.mem_cons_self) Spells.nil.semicolon
      ⟨';', rfl, rfl⟩).space.keyword ⟨' ', rfl, rfl⟩ _ (by cases kind <;> decide)
  | .expr e, h => by
    have htext : (Stmt.expr e).print.toList = e.display.toList ++ [';'] := by
      simp [Stmt.print]
    rw [htext, Stmt.lexemes]
    exact Expr.spells_append (h.child List.mem_cons_self) Spells.nil.semicolon ⟨';', rfl, rfl⟩

/-- Several statements are made of their lexemes. -/
theorem Stmt.spells_list : (ss : List Stmt) → (∀ s ∈ ss, (Node.stmt s).Writable) →
    Spells (fun _ => True) (Stmt.printList ss).toList (Stmt.lexemesList ss)
  | [], _ => .nil
  | s :: ss, h => by
    have hfirst := s.spells (h s List.mem_cons_self)
    have hothers := Stmt.spells_list ss fun s hs => h s (List.mem_cons_of_mem _ hs)
    have htext : (Stmt.printList (s :: ss)).toList =
        ' ' :: (s.print.toList ++ (Stmt.printList ss).toList) := by
      simp [Stmt.printList]
    rw [htext, Stmt.lexemesList]
    exact (hfirst.append_any hothers).space

/-- A block is made of its lexemes. -/
theorem Block.spells : (b : Block) → (Node.block b).Writable →
    Spells (fun _ => True) b.print.toList b.lexemes
  | ⟨stmts, span⟩, h => by
    have hstmts := Stmt.spells_list stmts fun s hs => h.child (List.mem_map_of_mem hs)
    have htext : (Block.mk stmts span).print.toList =
        '\x7b' :: ((Stmt.printList stmts).toList ++ [' ', '\x7d']) := by
      simp [Block.print]
    rw [htext, Block.lexemes]
    exact (hstmts.append_any Spells.nil.rbrace.space).lbrace

/-- Several cases are made of their lexemes. -/
theorem Case.spells_list : (cs : List Case) → (∀ c ∈ cs, (Node.case c).Writable) →
    Spells (fun _ => True) (Case.printList cs).toList (Case.lexemesList cs)
  | [], _ => .nil
  | ⟨values, block, span⟩ :: cs, h => by
    have hcase := h _ List.mem_cons_self
    have hvalues := Expr.spells_list values fun e he =>
      hcase.child (List.mem_append_left _ (List.mem_map_of_mem he))
    have hblock := block.spells (hcase.child (List.mem_append_right _ List.mem_cons_self))
    have hothers := Case.spells_list cs fun c hc => h c (List.mem_cons_of_mem _ hc)
    have htext : (Case.printList (⟨values, block, span⟩ :: cs)).toList =
        ' ' :: ("case".toList ++ ' ' :: ([',', ' '].intercalate
          ((Expr.displayList values).map String.toList) ++ ' ' ::
            (block.print.toList ++ (Case.printList cs).toList))) := by
      simp [Case.printList]
    rw [htext, Case.lexemesList]
    exact ((Spells.separated hvalues (hblock.append_any hothers).space
      ⟨' ', rfl, rfl⟩).space.keyword ⟨' ', rfl, rfl⟩ _ (by decide)).space

end

/-! ## Functions and programs -/

/-- A function is made of its lexemes. -/
theorem Function.spells (f : Function) (h : (Node.function f).Writable) :
    Spells (fun _ => True) f.print.toList f.lexemes := by
  have hparams : List.Forall₂ (Spells EndsWord) (f.params.map String.toList)
      (f.params.map fun name => [.identifier name]) := by
    refine List.forall₂_map_left_iff.2 (List.forall₂_map_right_iff.2 (List.forall₂_same.2 ?_))
    exact fun name hname => .single (h.self.2 name hname).1 (List.mem_singleton_self _) nofun
      fun _ hrest => hrest
  have hbody := f.body.spells (h.child List.mem_cons_self)
  have htext : f.print.toList = "def".toList ++ ' ' :: (f.name.toList ++ '(' ::
      ([',', ' '].intercalate (f.params.map String.toList) ++ ')' :: ' ' ::
        f.body.print.toList)) := by
    simp [Function.print, Function.display]
  rw [htext, Function.lexemes]
  exact ((Spells.separated hparams hbody.space.rparen ⟨')', rfl, rfl⟩).lparen.word h.self.1.1
    ⟨'(', rfl, rfl⟩).space.keyword ⟨' ', rfl, rfl⟩ _ (by decide)

/-- Functions are made of their lexemes. -/
theorem Function.spells_list (fs : List Function) (h : ∀ f ∈ fs, (Node.function f).Writable) :
    Spells (fun _ => True) (Function.printList fs).toList (fs.flatMap Function.lexemes) := by
  induction fs with
  | nil => exact .nil
  | cons f fs ih =>
    have hfirst := f.spells (h f List.mem_cons_self)
    have hothers := ih fun f hf => h f (List.mem_cons_of_mem _ hf)
    have htext : (Function.printList (f :: fs)).toList =
        f.print.toList ++ '\n' :: (Function.printList fs).toList := by
      simp [Function.printList]
    rw [htext, List.flatMap_cons]
    exact hfirst.append_any (hothers.blank rfl)

/-- The tokens of a printed program are those of its tree, and none of them is a comment. -/
theorem Program.divides_print {p : Program} (h : (Node.program p).Writable) :
    ∃ toks, Divides 0 p.print.toList toks ∧ toks.map Token.lexeme = p.lexemes ∧
      ∀ t ∈ toks, t.isComment = false := by
  have hspells := Function.spells_list p.functions fun f hf => h.child (List.mem_map_of_mem hf)
  obtain ⟨toks, hlexemes, hcomment, hdivides⟩ := hspells 0 [] [] nofun .nil
  rw [List.append_nil, List.append_nil] at hdivides
  exact ⟨toks, hdivides, hlexemes, hcomment⟩

end ContractCompiler
