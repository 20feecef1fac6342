import ContractCompiler.Proofs.Syntax.RoundTrip
import ContractCompiler.Proofs.Syntax.SpanTree
import ContractCompiler.Proofs.Token.Cutting

/-!
# The source text of an expression

The part of a source that an expression comes from says the same expression when it is read on its own:
what stands around an expression does not change how it is grouped, and comments and brackets in it are
part of its text.
-/

namespace ContractCompiler

open Text (byteLength)

/-! ## The same lexemes at other places -/

/-- The phrase is derived from other tokens, up to places. -/
def Phrase.Again : Phrase → List Token → Nat → Prop
  | run ls e, toks, n => ∃ e', Derives (.run ls e') toks n ∧ e'.bare = e.bare
  | atom e, toks, n => ∃ e', Derives (.atom e') toks n ∧ e'.bare = e.bare
  | place v, toks, n => ∃ v', Derives (.place v') toks n ∧ v'.bare = v.bare
  | args es, toks, n => ∃ es', Derives (.args es') toks n ∧ es'.map Expr.bare = es.map Expr.bare

section Again

variable {toks toks' : List Token} {n : Nat}

theorem Token.number?_congr {t t' : Token} (h : t'.lexeme = t.lexeme) : t'.number? = t.number? := by
  rw [number?, number?, h]

theorem ByteList.again {vs : List UInt8} (h : ByteList toks vs)
    (htoks : toks'.map Token.lexeme = toks.map Token.lexeme) : ByteList toks' vs := by
  induction h generalizing toks' with
  | last ht hn =>
    obtain ⟨t', ts', rfl, ht', hts'⟩ := List.map_eq_cons_iff.1 htoks
    cases List.map_eq_nil_iff.1 hts'
    exact .last ((Token.number?_congr ht').trans ht) hn
  | cons ht hn hc _ ih =>
    obtain ⟨t', ts', rfl, ht', hts'⟩ := List.map_eq_cons_iff.1 htoks
    obtain ⟨c', ts', rfl, hc', hts'⟩ := List.map_eq_cons_iff.1 hts'
    refine .cons ((Token.number?_congr ht').trans ht) hn ?_ (ih hts')
    rw [Token.isSymbol, hc']
    exact hc

/-- Tokens with a token in the middle. -/
theorem map_lexeme_middle {a b : List Token} {t : Token}
    (h : toks'.map Token.lexeme = (a ++ t :: b).map Token.lexeme) :
    ∃ a' t' b', toks' = a' ++ t' :: b' ∧ a'.map Token.lexeme = a.map Token.lexeme ∧
      t'.lexeme = t.lexeme ∧ b'.map Token.lexeme = b.map Token.lexeme := by
  rw [List.map_append, List.map_cons] at h
  obtain ⟨a', ts', rfl, ha', hts'⟩ := List.map_eq_append_iff.1 h
  obtain ⟨t', b', rfl, ht', hb'⟩ := List.map_eq_cons_iff.1 hts'
  exact ⟨a', t', b', rfl, ha', ht', hb'⟩

/-- Tokens between two others. -/
theorem map_lexeme_enclosed {o c : Token}
    (h : toks'.map Token.lexeme = (o :: (toks ++ [c])).map Token.lexeme) :
    ∃ o' inner c', toks' = o' :: (inner ++ [c']) ∧ o'.lexeme = o.lexeme ∧
      inner.map Token.lexeme = toks.map Token.lexeme ∧ c'.lexeme = c.lexeme := by
  obtain ⟨o', ts', rfl, ho', hts'⟩ := List.map_eq_cons_iff.1 h
  obtain ⟨inner, c', b', rfl, hinner, hc', hb'⟩ := map_lexeme_middle hts'
  cases List.map_eq_nil_iff.1 hb'
  exact ⟨o', inner, c', rfl, ho', hinner, hc'⟩

/-- The same lexemes at other places are the same phrase. -/
theorem Derives.again {φ : Phrase} (h : Derives φ toks n)
    (htoks : toks'.map Token.lexeme = toks.map Token.lexeme) : φ.Again toks' n := by
  induction h generalizing toks' with
  | tightest _ ih =>
    obtain ⟨e', h, hbare⟩ := ih htoks
    exact ⟨e', .tightest h, hbare⟩
  | tighter _ ih =>
    obtain ⟨e', h, hbare⟩ := ih htoks
    exact ⟨e', .tighter h, hbare⟩
  | left hl ht hop _ _ ihx ihy =>
    obtain ⟨a', t', b', rfl, ha', ht', hb'⟩ := map_lexeme_middle htoks
    obtain ⟨x', hx, hbarex⟩ := ihx ha'
    obtain ⟨y', hy, hbarey⟩ := ihy hb'
    refine ⟨_, .left hl (ht'.trans ht) hop hx hy, ?_⟩
    rw [joinAt, joinAt, Expr.bare, Expr.bare, hbarex, hbarey]
  | right hl ht hop _ _ ihx ihy =>
    obtain ⟨a', t', b', rfl, ha', ht', hb'⟩ := map_lexeme_middle htoks
    obtain ⟨x', hx, hbarex⟩ := ihx ha'
    obtain ⟨y', hy, hbarey⟩ := ihy hb'
    refine ⟨_, .right hl (ht'.trans ht) hop hx hy, ?_⟩
    rw [joinAt, joinAt, Expr.bare, Expr.bare, hbarex, hbarey]
  | paren ho hc _ ih =>
    obtain ⟨o', inner, c', rfl, ho', hinner, hc'⟩ := map_lexeme_enclosed htoks
    obtain ⟨e', h, hbare⟩ := ih hinner
    refine ⟨_, .paren (ho'.trans ho) (hc'.trans hc) h, ?_⟩
    rw [Expr.bare_withSpan, Expr.bare_withSpan, hbare]
  | unary ht _ ih =>
    obtain ⟨t', ts', rfl, ht', hts'⟩ := List.map_eq_cons_iff.1 htoks
    obtain ⟨e', h, hbare⟩ := ih hts'
    refine ⟨_, .unary (ht'.trans ht) h, ?_⟩
    rw [Expr.bare, Expr.bare, hbare]
  | number ht hv =>
    obtain ⟨t', ts', rfl, ht', hts'⟩ := List.map_eq_cons_iff.1 htoks
    cases List.map_eq_nil_iff.1 hts'
    exact ⟨_, .number ((Token.number?_congr ht').trans ht) hv, rfl⟩
  | string ht =>
    obtain ⟨t', ts', rfl, ht', hts'⟩ := List.map_eq_cons_iff.1 htoks
    cases List.map_eq_nil_iff.1 hts'
    exact ⟨_, .string (ht'.trans ht), rfl⟩
  | bytes ho hc h =>
    obtain ⟨o', inner, c', rfl, ho', hinner, hc'⟩ := map_lexeme_enclosed htoks
    exact ⟨_, .bytes (ho'.trans ho) (hc'.trans hc) (h.again hinner), rfl⟩
  | var _ ih =>
    obtain ⟨v', h, hbare⟩ := ih htoks
    refine ⟨_, .var h, ?_⟩
    rw [Expr.bare, Expr.bare, hbare]
  | call ht hcallee ho hc _ ih =>
    obtain ⟨t', ts', rfl, ht', hts'⟩ := List.map_eq_cons_iff.1 htoks
    obtain ⟨o', inner, c', rfl, ho', hinner, hc'⟩ := map_lexeme_enclosed hts'
    obtain ⟨es', h, hbare⟩ := ih hinner
    refine ⟨_, .call (ht'.trans ht) hcallee (ho'.trans ho) (hc'.trans hc) h, ?_⟩
    rw [Expr.bare, Expr.bare, Expr.bareList_eq, Expr.bareList_eq, hbare]
  | name ht hname =>
    obtain ⟨t', ts', rfl, ht', hts'⟩ := List.map_eq_cons_iff.1 htoks
    cases List.map_eq_nil_iff.1 hts'
    exact ⟨_, .name (ht'.trans ht) hname, rfl⟩
  | index ho hc _ _ ihv ihe =>
    obtain ⟨a', o', ts', rfl, ha', ho', hts'⟩ := map_lexeme_middle htoks
    obtain ⟨b', c', nil', rfl, hb', hc', hnil'⟩ := map_lexeme_middle hts'
    cases List.map_eq_nil_iff.1 hnil'
    obtain ⟨v', hv, hbarev⟩ := ihv ha'
    obtain ⟨e', he, hbaree⟩ := ihe hb'
    refine ⟨_, .index (ho'.trans ho) (hc'.trans hc) hv he, ?_⟩
    rw [Variable.bare, Variable.bare, hbarev, hbaree]
  | member hd ht _ ihv =>
    obtain ⟨a', d', ts', rfl, ha', hd', hts'⟩ := map_lexeme_middle htoks
    obtain ⟨t', ts', rfl, ht', hts'⟩ := List.map_eq_cons_iff.1 hts'
    cases List.map_eq_nil_iff.1 hts'
    obtain ⟨v', hv, hbarev⟩ := ihv ha'
    refine ⟨_, .member (hd'.trans hd) (ht'.trans ht) hv, ?_⟩
    rw [Variable.bare, Variable.bare, hbarev]
  | noArgs =>
    cases List.map_eq_nil_iff.1 htoks
    exact ⟨[], .noArgs, rfl⟩
  | lastArg _ ih =>
    obtain ⟨e', h, hbare⟩ := ih htoks
    exact ⟨[e'], .lastArg h, congrArg ([·]) hbare⟩
  | consArg ht _ _ ihe ihes =>
    obtain ⟨a', t', b', rfl, ha', ht', hb'⟩ := map_lexeme_middle htoks
    obtain ⟨e', he, hbare⟩ := ihe ha'
    obtain ⟨es', hes, hbares⟩ := ihes hb'
    -- There is an argument after the comma here too.
    obtain ⟨x, xs, rfl, -, -⟩ := List.map_eq_cons_iff.1 hbares
    exact ⟨e' :: x :: xs, .consArg (ht'.trans ht) he hes, congrArg₂ List.cons hbare hbares⟩

end Again

/-! ## Reading the expression -/

/-- A phrase that is no list of arguments starts like an expression. -/
def Phrase.StartsWell : Phrase → List Token → Prop
  | args _, _ => True
  | _, toks => ∃ t ts, toks = t :: ts ∧ t.lexeme.StartsExpr

theorem Derives.startsWell {φ : Phrase} {toks : List Token} {n : Nat} (h : Derives φ toks n) :
    φ.StartsWell toks := by
  induction h with
  | tightest _ ih => exact ih
  | tighter _ ih => exact ih
  | left _ _ _ _ _ ihx _ | right _ _ _ _ _ ihx _ =>
    obtain ⟨t, ts, rfl, ht⟩ := ihx
    exact ⟨t, _, rfl, ht⟩
  | paren ho _ _ _ => exact ⟨_, _, rfl, by rw [ho]; rfl⟩
  | @unary op _ _ _ _ ht _ _ => exact ⟨_, _, rfl, by rw [ht]; cases op <;> rfl⟩
  | @number t v ht _ =>
    refine ⟨_, _, rfl, ?_⟩
    rw [Token.number?] at ht
    split at ht
    case h_1 radix digits hlexeme =>
      rw [hlexeme]
      trivial
    case h_2 => cases ht
  | string ht => exact ⟨_, _, rfl, by rw [ht]; trivial⟩
  | bytes ho _ _ => exact ⟨_, _, rfl, by rw [ho]; rfl⟩
  | var _ ih => exact ih
  | call ht hcallee _ _ _ _ => exact ⟨_, _, rfl, by rw [ht]; exact hcallee⟩
  | name ht hname => exact ⟨_, _, rfl, by rw [ht]; exact hname⟩
  | index _ _ _ _ ihv _ | member _ _ _ ihv =>
    obtain ⟨t, ts, rfl, ht⟩ := ihv
    exact ⟨t, _, rfl, ht⟩
  | noArgs | lastArg | consArg => trivial

/-- What fits an expression does not end it. -/
theorem Token.FitsLevels.isTerminator {ls : List Level} {t : Token} (h : t.FitsLevels ls)
    {s : Symbol} (hs : t.symbol? = some s) : Run.isTerminator s = false := by
  rcases h s hs with hs | ⟨l, -, op, -, rfl⟩
  · have hinside : ∀ s ∈ [Symbol.bang, .tilde, .dot], Run.isTerminator s = false := by decide
    exact hinside s hs
  · cases op <;> rfl

/-- An expression is read up to a symbol that ends it. -/
theorem Derives.readExpr {e : Expr} {run rest : List Token} {n d : Nat} {t : Token} {s : Symbol}
    (h : Derives (.run Level.all e) run n) (hn : n ≤ d) (ht : t.lexeme = .symbol s)
    (hs : Run.isTerminator s = true) :
    ContractCompiler.readExpr d (run ++ t :: rest) = .ok (e, t :: rest) := by
  have hcollect : Run.collect (run ++ t :: rest) = .ok (run, t :: rest) :=
    Run.collect_nested (h.outside.mono fun u hu s' hs' => hu.isTerminator hs')
      (Token.symbol?_of_lexeme ht) hs
  have hread := h.reads Level.pairwise_all d hn (some t)
  exact (bind_of_ok hcollect _).trans ((bind_of_ok hread _).trans rfl)

/-- A block with an expression as its only statement is read. -/
theorem Derives.readBlock {e : Expr} {run : List Token} {n d F : Nat} {o semicolon c : Token}
    (h : Derives (.run Level.all e) run n) (hn : n ≤ d) (ho : o.lexeme = .symbol .lbrace)
    (hsemicolon : semicolon.lexeme = .symbol .semicolon) (hc : c.lexeme = .symbol .rbrace) :
    ContractCompiler.readBlock (F + 2) (.ok (readStmtAt (F + 2) d)) (o :: (run ++ [semicolon, c])) =
      .ok (⟨[.expr e], ⟨o.extent, o.extent, c.extent⟩⟩, []) := by
  obtain ⟨t, ts, rfl, ht⟩ := h.startsWell
  have hstmt : readStmtAt (F + 2) d (t :: (ts ++ [semicolon, c])) = .ok (.expr e, [c]) := by
    rw [readStmtAt_eq, readStmt_expr ht]
    exact (bind_of_ok (h.readExpr hn hsemicolon rfl) _).trans
      ((bind_of_ok (readSymbol_eq hsemicolon _) _).trans rfl)
  -- No expression starts with a brace, so the block does not end here.
  have hopen : t.isSymbol .rbrace = false := by
    rw [Token.isSymbol_eq rfl, decide_eq_false_iff_not]
    intro hrbrace
    rw [hrbrace] at ht
    cases ht
  have hstmts : readStmts (readStmtAt (F + 2) d) (F + 2) (t :: (ts ++ [semicolon, c])) [] =
      .ok (([.expr e], c), []) := by
    rw [readStmts, hopen, if_neg Bool.false_ne_true, hstmt]
    dsimp only
    rw [readStmts, if_pos (Token.isSymbol_iff.2 hc)]
    rfl
  exact (bind_of_ok (readSymbol_eq ho _) _).trans ((bind_of_ok hstmts _).trans rfl)

/-- The lexemes before an expression in a function of its own. -/
def Lexeme.opening : List Lexeme :=
  [.identifier "def", .identifier "f", .symbol .lparen, .symbol .rparen, .symbol .lbrace]

/-- The lexemes after it. -/
def Lexeme.closing : List Lexeme :=
  [.symbol .semicolon, .symbol .rbrace]

/-- A function with an expression as its only statement is read. -/
theorem Derives.readFunctions {e : Expr} {front run back : List Token} {n F : Nat}
    (h : Derives (.run Level.all e) run n) (hn : n ≤ maxDepth - 1)
    (hfront : front.map Token.lexeme = Lexeme.opening)
    (hback : back.map Token.lexeme = Lexeme.closing) :
    ∃ f, ContractCompiler.readFunctions (readFunction (F + 2)) (F + 2) (front ++ (run ++ back)) [] =
      .ok [f] ∧ f.name = "f" ∧ f.params = [] ∧ f.body.stmts = [.expr e] := by
  obtain ⟨w, ts, rfl, hw, hts⟩ := List.map_eq_cons_iff.1 hfront
  obtain ⟨t, ts, rfl, ht, hts⟩ := List.map_eq_cons_iff.1 hts
  obtain ⟨o, ts, rfl, ho, hts⟩ := List.map_eq_cons_iff.1 hts
  obtain ⟨c, ts, rfl, hc, hts⟩ := List.map_eq_cons_iff.1 hts
  obtain ⟨o', ts, rfl, ho', hts⟩ := List.map_eq_cons_iff.1 hts
  cases List.map_eq_nil_iff.1 hts
  obtain ⟨semicolon, us, rfl, hsemicolon, hus⟩ := List.map_eq_cons_iff.1 hback
  obtain ⟨c', us, rfl, hc', hus⟩ := List.map_eq_cons_iff.1 hus
  cases List.map_eq_nil_iff.1 hus
  have hname : ∀ ts, readName .functionName (t :: ts) = .ok (("f", t), ts) := by
    intro ts
    rw [readName, Token.definableName?_eq ht (by decide +kernel)]
  have hparams : ∀ ts, readParamList (c :: ts) = .ok ([], c :: ts) :=
    fun ts => if_pos (Token.isSymbol_iff.2 hc)
  have hbody := h.readBlock (F := F) hn ho' hsemicolon hc'
  have hfunction : readFunction (F + 2) (w :: t :: o :: c :: o' :: (run ++ [semicolon, c'])) =
      .ok (⟨"f", [], ⟨[.expr e], ⟨o'.extent, o'.extent, c'.extent⟩⟩,
        ⟨w.extent, t.extent, c'.extent⟩⟩, []) :=
    (bind_of_ok (readWord_eq hw _) _).trans <| (bind_of_ok (hname _) _).trans <|
      (bind_of_ok (readSymbol_eq ho _) _).trans <| (bind_of_ok (hparams _) _).trans <|
      (bind_of_ok (readSymbol_eq hc _) _).trans <| (bind_of_ok hbody _).trans rfl
  refine ⟨⟨"f", [], ⟨[.expr e], ⟨o'.extent, o'.extent, c'.extent⟩⟩,
    ⟨w.extent, t.extent, c'.extent⟩⟩, ?_, rfl, rfl, rfl⟩
  show ContractCompiler.readFunctions _ _ (w :: t :: o :: c :: o' :: (run ++ [semicolon, c'])) [] = _
  rw [ContractCompiler.readFunctions, hfunction]
  rfl

/-! ## The text of an expression -/

section Filter

variable {α : Type} {p : α → Bool} {l used : List α}

/-- A list from the first one on that is not left out. -/
theorem exists_from_first (h : l.filter p = used) (hused : used ≠ []) :
    ∃ pre part, l = pre ++ part ∧ part.filter p = used ∧ part.head? = used.head? := by
  obtain ⟨a, as, rfl⟩ := List.exists_cons_of_ne_nil hused
  obtain ⟨pre, rest, rfl, -, ha, has⟩ := List.filter_eq_cons_iff.1 h
  exact ⟨pre, a :: rest, rfl, by rw [List.filter_cons_of_pos ha, has], rfl⟩

/-- A list up to the last one that is not left out. -/
theorem exists_to_last (h : l.filter p = used) (hused : used ≠ []) :
    ∃ part post, l = part ++ post ∧ part.filter p = used ∧ part.getLast? = used.getLast? := by
  have hreverse : l.reverse.filter p = used.reverse := by rw [List.filter_reverse, h]
  obtain ⟨post, part, hl, hpart, hhead⟩ :=
    exists_from_first hreverse (mt List.reverse_eq_nil_iff.1 hused)
  refine ⟨part.reverse, post.reverse, ?_, ?_, ?_⟩
  · rw [← List.reverse_append, ← hl, List.reverse_reverse]
  · rw [List.filter_reverse, hpart, List.reverse_reverse]
  · rw [List.getLast?_reverse, hhead, List.head?_reverse]

/-- What is next to each other when some are left out is a part of the list, which starts and ends with
ones that are not. -/
theorem exists_part_of_filter {before after : List α}
    (h : l.filter p = before ++ (used ++ after)) (hused : used ≠ []) :
    ∃ pre part post, l = pre ++ (part ++ post) ∧ part.filter p = used ∧
      part.head? = used.head? ∧ part.getLast? = used.getLast? ∧
      before.length + after.length ≤ pre.length + post.length := by
  obtain ⟨pre, l, rfl, rfl, hl⟩ := List.filter_eq_append_iff.1 h
  obtain ⟨part, post, rfl, hpart, rfl⟩ := List.filter_eq_append_iff.1 hl
  obtain ⟨skipped, part, rfl, hpart, hhead⟩ := exists_from_first hpart hused
  obtain ⟨part, skipped', rfl, hpart, hlast⟩ := exists_to_last hpart hused
  have hne : part ≠ [] := by
    rintro rfl
    exact hused hpart.symm
  refine ⟨pre ++ skipped, part, skipped' ++ post, by simp, hpart, ?_, hlast, ?_⟩
  · rwa [List.head?_append_of_ne_nil _ hne] at hhead
  · have hpre := List.length_filter_le p pre
    have hpost := List.length_filter_le p post
    simp only [List.length_append]
    omega

end Filter

/-- Comments are left out of tokens with the same lexemes alike. -/
theorem map_lexeme_filter {toks toks' : List Token}
    (h : toks'.map Token.lexeme = toks.map Token.lexeme) :
    (toks'.filter (!·.isComment)).map Token.lexeme = (toks.filter (!·.isComment)).map Token.lexeme := by
  have hfilter : ∀ ts : List Token, (ts.filter (!·.isComment)).map Token.lexeme =
      (ts.map Token.lexeme).filter fun l => !(⟨l, 0, 0⟩ : Token).isComment := by
    intro ts
    rw [List.filter_map]
    rfl
  rw [hfilter, hfilter, h]

/-- The text of a function around that of an expression. -/
def Source.wrap (piece : List Char) : List Char :=
  "def f() \x7b ".toList ++ (piece ++ "; \x7d".toList)

theorem spells_opening : Spells (fun _ => True) "def f() \x7b ".toList Lexeme.opening := by
  have hf : (Lexeme.identifier "f").IsProper := by decide +kernel
  have hdef : (Lexeme.identifier "def").IsProper := by decide +kernel
  exact (Spells.nil.space.lbrace.space.rparen.lparen.word hf ⟨'(', rfl, rfl⟩).space.word hdef
    ⟨' ', rfl, rfl⟩

theorem spells_closing : Spells (fun _ => True) "; \x7d".toList Lexeme.closing :=
  Spells.nil.rbrace.space.semicolon

theorem filter_of_no_comment {toks : List Token} (h : ∀ t ∈ toks, t.isComment = false) :
    toks.filter (!·.isComment) = toks :=
  List.filter_eq_self.2 fun t ht => by rw [h t ht, Bool.not_false]

/-- A text in a function of its own is made of the tokens of the function and its own. -/
theorem Recurs.wrap {piece : List Char} {ls : List Lexeme} (h : Recurs piece ls) :
    ∃ front ts back, Divides 0 (Source.wrap piece) (front ++ (ts ++ back)) ∧
      front.map Token.lexeme = Lexeme.opening ∧ ts.map Token.lexeme = ls ∧
      back.map Token.lexeme = Lexeme.closing ∧
      (front ++ (ts ++ back)).filter (!·.isComment) =
        front ++ (ts.filter (!·.isComment) ++ back) := by
  -- Tokens depend on what follows them, so the text is cut from its end on.
  obtain ⟨back, hback, hcommentBack, hdivides⟩ :=
    spells_closing (byteLength "def f() \x7b ".toList + byteLength piece) [] [] nofun .nil
  rw [List.append_nil, List.append_nil] at hdivides
  obtain ⟨ts, hts, hdivides⟩ := h _ _ _ hdivides
  rw [← Nat.zero_add (byteLength "def f() \x7b ".toList)] at hdivides
  obtain ⟨front, hfront, hcommentFront, hdivides⟩ :=
    spells_opening 0 _ _ (fun _ _ => trivial) hdivides
  refine ⟨front, ts, back, hdivides, hfront, hts, hback, ?_⟩
  rw [List.filter_append, List.filter_append, filter_of_no_comment hcommentFront,
    filter_of_no_comment hcommentBack]

/-- The tokens that an expression comes from, as part of the tokens of its source: what it is derived
from without the comments among them, and how many other tokens there are. -/
theorem Source.expr_tokens {text : List Char} {p : Program} (h : Source.program text = .ok p)
    {e : Expr} (he : .expr e ∈ (Node.program p).descendants) :
    ∃ pre part post t u, Source.tokens text = .ok (pre ++ (part ++ post)) ∧
      part.head? = some t ∧ part.getLast? = some u ∧ u.isComment = false ∧
      e.span.first = t.extent ∧ e.span.last = u.extent ∧ 7 ≤ pre.length + post.length ∧
      Phrase.Within (.run Level.all e) (part.filter (!·.isComment)) (maxDepth - 1) := by
  have hp : p.functions ≠ [] := by
    intro hnil
    rw [Node.descendants_eq, Node.children, hnil] at he
    simp at he
  obtain ⟨toks, htoks, hprogram⟩ := Source.tokens_of_program h
  obtain ⟨before, used, after, hfilter, hcovers⟩ :=
    (Program.ofTokens_covers hprogram hp).descend (Node.mem_descendants_iff.1 he)
  obtain ⟨t, u, ht, hu, hfirst, hlast⟩ := hcovers.bounds
  have hne : used ≠ [] := by
    rintro rfl
    cases ht
  -- The tokens of the expression, with the comments among them but none at the ends.
  obtain ⟨pre, part, post, rfl, rfl, hhead, hgetLast, hlength⟩ := exists_part_of_filter hfilter hne
  have hcomment := (List.mem_filter.1 (List.mem_of_getLast? hu)).2
  rw [Bool.not_eq_true'] at hcomment
  cases hcovers with
  | node _ _ hexpr _ =>
    obtain ⟨hseven, hwithin⟩ := hexpr e rfl
    exact ⟨pre, part, post, t, u, htoks, hhead.trans ht, hgetLast.trans hu, hcomment, hfirst, hlast,
      by omega, hwithin⟩

/-- The text of an expression is made of its tokens, wherever a semicolon follows. -/
theorem Source.extract_recurs {text : List Char} {pre part post : List Token} {t u : Token}
    {span : Span} (h : Source.tokens text = .ok (pre ++ (part ++ post)))
    (ht : part.head? = some t) (hu : part.getLast? = some u) (hcomment : u.isComment = false)
    (hfirst : span.first = t.extent) (hlast : span.last = u.extent) :
    Recurs (span.extract text) (part.map Token.lexeme) := by
  obtain ⟨hdivides, -⟩ := Source.tokens_eq_ok_iff.1 h
  obtain ⟨after, rfl⟩ := List.head?_eq_some_iff.1 ht
  obtain ⟨before, hpart⟩ := List.getLast?_eq_some_iff.1 hu
  obtain ⟨start, rest, rfl, hoffset, hrest⟩ := hdivides.from_token rfl
  have hsplit : t :: (after ++ post) = before ++ u :: post := by
    rw [← List.cons_append, hpart, List.append_assoc, List.singleton_append]
  obtain ⟨piece, stop, rfl, -, hstop, hrecurs⟩ := hrest.recurs hsplit hcomment
  have hslice : Text.slice (start ++ (piece ++ stop)) span.start span.stop = some piece := by
    refine Text.slice_eq_some_iff.2 ⟨start, stop, (List.append_assoc _ _ _).symm, ?_, ?_⟩
    · rw [Span.start, hfirst]
      exact (Nat.zero_add _).symm.trans hoffset
    · rw [Span.start, Span.stop, hfirst, hlast]
      exact hstop
  rw [Span.extract, hslice, Option.getD_some, hpart]
  exact hrecurs

/-- The text of an expression says the expression: in a function of its own it is the only statement,
and the same up to places. -/
theorem Source.extract_read {text : List Char} {p : Program} (h : Source.program text = .ok p)
    {e : Expr} (he : .expr e ∈ (Node.program p).descendants) :
    ∃ f e' span, Source.program (Source.wrap (e.span.extract text)) = .ok ⟨[f], span⟩ ∧
      f.name = "f" ∧ f.params = [] ∧ f.body.stmts = [.expr e'] ∧ e'.bare = e.bare := by
  obtain ⟨pre, part, post, t, u, htoks, ht, hu, hcomment, hfirst, hlast, haround, n, hn, hderives⟩ :=
    Source.expr_tokens h he
  obtain ⟨front, ts, back, hdivides, hfront, hts, hback, hfilter⟩ :=
    (Source.extract_recurs htoks ht hu hcomment hfirst hlast).wrap
  have hfrontLength : front.length = 5 := List.length_map (f := Token.lexeme) ▸ hfront ▸ rfl
  have hbackLength : back.length = 2 := List.length_map (f := Token.lexeme) ▸ hback ▸ rfl
  -- There are no more tokens than in the whole source.
  have hfew : (front ++ (ts ++ back)).length ≤ maxTokens := by
    have hwhole := (Source.tokens_eq_ok_iff.1 htoks).2
    have htsLength : ts.length = part.length := by simpa using congrArg List.length hts
    simp only [List.length_append] at hwhole ⊢
    omega
  have htokens := Source.tokens_eq_ok_iff.2 ⟨hdivides, hfew⟩
  -- Without the comments, they are those of the function and of a phrase like the one before.
  obtain ⟨e', hderives', hbare⟩ := hderives.again (map_lexeme_filter hts)
  obtain ⟨F, hF⟩ : ∃ F, (front ++ (ts.filter (!·.isComment) ++ back)).length = F + 2 := by
    refine ⟨front.length + (ts.filter (!·.isComment)).length, ?_⟩
    simp only [List.length_append]
    omega
  obtain ⟨f, hfunctions, hname, hparams, hstmts⟩ := hderives'.readFunctions (F := F) hn hfront hback
  refine ⟨f, e', Program.spanOf (front ++ (ts.filter (!·.isComment) ++ back)), ?_, hname, hparams,
    hstmts, hbare⟩
  refine (bind_of_ok htokens _).trans ?_
  rw [Program.ofTokens, hfilter, hF, hfunctions]
  rfl

/-- The expression that a node is, if it is one. -/
def Node.expr? : Node → Option Expr
  | .expr e => some e
  | _ => none

theorem Node.mem_descendants_of_found_expr {n : Node} {e : Expr} (h : e ∈ n.found expr?) :
    .expr e ∈ n.descendants := by
  obtain ⟨m, hm, he⟩ := List.mem_filterMap.1 h
  cases m with
  | expr e' =>
    cases he
    exact hm
  | _ => cases he

/-- The left operand of an operator that groups from the left, with a comment, a line break and
brackets in its text. -/
theorem Source.extract_read_left :
    ∃ p e f e' span, Source.program "def g(a, b) \x7b a // é\n - (b) - 1; \x7d".toList = .ok p ∧
      .expr e ∈ (Node.program p).descendants ∧
      e.span.extract "def g(a, b) \x7b a // é\n - (b) - 1; \x7d".toList = "a // é\n - (b)".toList ∧
      Source.program (Source.wrap "a // é\n - (b)".toList) = .ok ⟨[f], span⟩ ∧
      f.name = "f" ∧ f.params = [] ∧ f.body.stmts = [.expr e'] ∧ e'.bare = e.bare := by
  obtain ⟨text, htext⟩ : ∃ text, text = "def g(a, b) \x7b a // é\n - (b) - 1; \x7d".toList := ⟨_, rfl⟩
  have hruns : (do
      let p ← Source.program text
      return ((Node.program p).found Node.expr?)[1]?.map fun e => e.span.extract text) =
      Except.ok (some "a // é\n - (b)".toList) := by
    rw [htext, String.toList_ofList]
    decide +kernel
  obtain ⟨p, hp, hruns⟩ := ok_of_bind hruns
  obtain ⟨e, he, hextract⟩ := Option.map_eq_some_iff.1 (Except.ok.inj hruns)
  have hmem := Node.mem_descendants_of_found_expr (List.mem_of_getElem? he)
  obtain ⟨f, e', span, hread, hf⟩ := Source.extract_read hp hmem
  rw [hextract] at hread
  rw [htext] at hp hextract
  exact ⟨p, e, f, e', span, hp, hmem, hextract, hread, hf⟩

end ContractCompiler
