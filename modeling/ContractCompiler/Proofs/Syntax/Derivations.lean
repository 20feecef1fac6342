import ContractCompiler.Source
import ContractCompiler.Syntax.Printer
import ContractCompiler.Proofs.Syntax.Grammar

/-!
# Reading what the grammar derives

Reading does not follow the rules of the grammar: it cuts a run at all operators of one level at
once, and joins the operands afterwards; it finds the ends of brackets and the commas between
arguments by counting brackets. But it reads what the rules derive, and nothing else.
-/

namespace ContractCompiler

/-! ## What is read is derived -/

/-- The tokens are a phrase with at most `d` levels of nesting. -/
def Phrase.Within (φ : Phrase) (toks : List Token) (d : Nat) : Prop :=
  ∃ n ≤ d, Derives φ toks n

/-- An atom that is read is derived. -/
def AtomReader.Sound (r : AtomReader) (d : Nat) : Prop :=
  ∀ {t ts next e}, Run.Balanced (t :: ts) → r t ts next = .ok e →
    Phrase.Within (.atom e) (t :: ts) d

/-- A run that is read is derived. -/
def RunReader.Sound (r : RunReader) (ls : List Level) (d : Nat) : Prop :=
  ∀ {run next e}, Run.Balanced run → r run next = .ok e → Phrase.Within (.run ls e) run d

section Levels

variable {l : Level} {ls : List Level} {d : Nat} {x y : Expr} {a b : List Token} {t : Token}
  {op : BinaryOperator}

/-- A piece between operators, and the operand that was read from it. -/
structure Level.Operand (l : Level) (ls : List Level) (d : Nat)
    (part : List Token × Token × BinaryOperator) (operand : Expr × Token × BinaryOperator) :
    Prop where
  same : operand.2 = part.2
  operator : part.2.1.symbol?.bind l.operator? = some part.2.2
  within : Phrase.Within (.run ls operand.1) part.1 d

theorem Phrase.Within.tighter (h : Within (.run ls x) a d) : Within (.run (l :: ls) x) a d := by
  obtain ⟨n, hn, h⟩ := h
  exact ⟨n, hn, .tighter h⟩

theorem Phrase.Within.left (hl : l.assoc = .left) (ht : t.symbol?.bind l.operator? = some op)
    (hx : Within (.run (l :: ls) x) a d) (hy : Within (.run ls y) b d) :
    Within (.run (l :: ls) (joinAt x t op y)) (a ++ t :: b) d := by
  obtain ⟨n, hn, hx⟩ := hx
  obtain ⟨m, hm, hy⟩ := hy
  obtain ⟨ht, hop⟩ := Level.bind_operator?_iff.1 ht
  exact ⟨max n m, Nat.max_le.2 ⟨hn, hm⟩, .left hl ht hop hx hy⟩

theorem Phrase.Within.right (hl : l.assoc = .right) (ht : t.symbol?.bind l.operator? = some op)
    (hx : Within (.run ls x) a d) (hy : Within (.run (l :: ls) y) b d) :
    Within (.run (l :: ls) (joinAt x t op y)) (a ++ t :: b) d := by
  obtain ⟨n, hn, hx⟩ := hx
  obtain ⟨m, hm, hy⟩ := hy
  obtain ⟨ht, hop⟩ := Level.bind_operator?_iff.1 ht
  exact ⟨max n m, Nat.max_le.2 ⟨hn, hm⟩, .right hl ht hop hx hy⟩

variable {parts : List (List Token × Token × BinaryOperator)}
  {operands : List (Expr × Token × BinaryOperator)}

theorem within_joinLeft (hl : l.assoc = .left)
    (hparts : List.Forall₂ (l.Operand ls d) parts operands) (hy : Phrase.Within (.run ls y) b d)
    (hx : Phrase.Within (.run (l :: ls) x) a d) (ht : t.symbol?.bind l.operator? = some op) :
    Phrase.Within (.run (l :: ls) (joinLeft x t op operands y))
      (a ++ t :: (Run.pieces parts ++ b)) d := by
  induction hparts generalizing x a t op with
  | nil => exact hx.left hl ht hy
  | @cons part operand parts operands hoperand _ ih =>
    obtain ⟨piece, t', op'⟩ := part
    obtain ⟨e, t'', op''⟩ := operand
    obtain ⟨hsame, hoperator, hwithin⟩ := hoperand
    cases hsame
    have hall := ih (hx.left hl ht hwithin) hoperator
    simpa [Run.pieces, joinLeft] using hall

theorem within_joinRight (hl : l.assoc = .right)
    (hparts : List.Forall₂ (l.Operand ls d) parts operands) (hy : Phrase.Within (.run ls y) b d) :
    Phrase.Within (.run (l :: ls) (Assoc.right.join operands y)) (Run.pieces parts ++ b) d := by
  induction hparts with
  | nil => exact hy.tighter
  | @cons part operand parts operands hoperand _ ih =>
    obtain ⟨piece, t', op'⟩ := part
    obtain ⟨e, t'', op''⟩ := operand
    obtain ⟨hsame, hoperator, hwithin⟩ := hoperand
    cases hsame
    have hall := hwithin.right hl hoperator ih
    simpa [Run.pieces, Assoc.join] using hall

/-- Operands that are joined from their level's side are derived. -/
theorem within_join (hparts : List.Forall₂ (l.Operand ls d) parts operands)
    (hy : Phrase.Within (.run ls y) b d) :
    Phrase.Within (.run (l :: ls) (l.assoc.join operands y)) (Run.pieces parts ++ b) d := by
  cases hl : l.assoc with
  | right => exact within_joinRight hl hparts hy
  | left =>
    cases hparts with
    | nil => exact hy.tighter
    | @cons part operand parts operands hoperand hparts =>
      obtain ⟨piece, t', op'⟩ := part
      obtain ⟨e, t'', op''⟩ := operand
      obtain ⟨hsame, hoperator, hwithin⟩ := hoperand
      cases hsame
      have hall := within_joinLeft hl hparts hy hwithin.tighter hoperator
      simpa [Run.pieces, Assoc.join] using hall

theorem readLevels_sound {atom : AtomReader} (hatom : atom.Sound d) (ls : List Level) :
    RunReader.Sound (readLevels atom ls) ls d := by
  induction ls with
  | nil =>
    intro run next e hrun h
    cases run with
    | nil => cases h
    | cons t ts =>
      obtain ⟨n, hn, h⟩ := hatom hrun h
      exact ⟨n, hn, .tightest h⟩
  | cons l ls ih =>
    intro run next e hrun h
    rw [readLevels] at h
    split at h
    case h_1 => exact (ih hrun h).tighter
    case h_2 parts last _ hsplit =>
      obtain ⟨operands, hparts, h⟩ := ok_of_bind h
      obtain ⟨final, hfinal, h⟩ := ok_of_bind h
      cases h
      obtain ⟨hpieces, hlast⟩ := Run.nested_split l.separates hrun hsplit
      rw [Run.split_eq hsplit]
      refine within_join ?_ (ih hlast hfinal)
      refine ((List.forall₂_and_left _ _).2 ⟨hpieces, forall₂_of_mapM hparts⟩).imp ?_
      rintro ⟨piece, t, op⟩ operand ⟨⟨hpiece, hop⟩, hoperand⟩
      obtain ⟨e, he, hoperand⟩ := ok_of_bind hoperand
      cases hoperand
      exact ⟨rfl, hop, ih hpiece he⟩

end Levels

section Atoms

variable {next : Option Token} {e : Expr}

theorem closeBracket_nested {inner : List Token} {c : Token} {s : Symbol}
    (h : Run.Balanced inner) (hc : c.symbol? = some s) (hs : s.isClosing = true)
    (rest : List Token) (next : Option Token) :
    closeBracket (inner ++ c :: rest) next = .ok ⟨inner, c, rest⟩ := by
  rw [closeBracket, Run.close?_nested h hc hs]

theorem expectEnd_eq_ok {toks : List Token} (h : expectEnd toks = .ok ()) : toks = [] := by
  cases toks with
  | nil => rfl
  | cons t ts => cases h

theorem byteList_of_readBytes {closer : Token} {toks : List Token} {acc values : List UInt8}
    (h : readBytes closer toks acc = .ok values) :
    ∃ vs, ByteList toks vs ∧ values = acc.reverse ++ vs := by
  fun_induction readBytes closer toks acc with
  | case1 | case2 | case5 | case6 => cases h
  | case3 acc t n hn hlt acc' =>
    cases h
    exact ⟨_, .last hn hlt, List.reverse_cons⟩
  | case4 acc t n hn hlt acc' c ts hc ih =>
    obtain ⟨vs, hvs, rfl⟩ := ih h
    exact ⟨_, .cons hn hlt hc hvs, by simp [acc']⟩

/-- What separates arguments. -/
def Symbol.comma? (s : Symbol) : Option Unit :=
  if s = .comma then some () else none

theorem Symbol.separates_comma? : Run.Separates comma? := by
  intro s hs
  cases s <;> first | rfl | cases hs

theorem Token.bind_comma?_iff {t : Token} {u : Unit} :
    t.symbol?.bind Symbol.comma? = some u ↔ t.lexeme = .symbol .comma := by
  constructor
  · intro h
    obtain ⟨s, hs, h⟩ := Option.bind_eq_some_iff.1 h
    unfold Symbol.comma? at h
    split at h
    case isTrue hcomma => exact lexeme_of_symbol? (hcomma ▸ hs)
    case isFalse => cases h
  · intro ht
    rw [symbol?_of_lexeme ht]
    rfl

theorem readArguments_eq {run : RunReader} {closer : Token} {toks : List Token} (h : toks ≠ []) :
    readArguments run closer toks = (do
      let args ← (Run.split Symbol.comma? toks).1.mapM fun (piece, t, _) => run piece (some t)
      return args ++ [← run (Run.split Symbol.comma? toks).2 (some closer)]) := by
  cases toks with
  | nil => exact absurd rfl h
  | cons t ts => rfl

/-- Arguments with commas between them are derived. -/
theorem within_args {d : Nat} {parts : List (List Token × Token × Unit)} {es : List Expr} {e : Expr}
    {last : List Token}
    (h : List.Forall₂ (fun part arg => part.2.1.lexeme = .symbol .comma ∧
      Phrase.Within (.run Level.all arg) part.1 d) parts es)
    (hlast : Phrase.Within (.run Level.all e) last d) :
    Phrase.Within (.args (es ++ [e])) (Run.pieces parts ++ last) d := by
  induction h with
  | nil =>
    obtain ⟨n, hn, h⟩ := hlast
    exact ⟨n, hn, .lastArg h⟩
  | @cons part arg parts es hpart _ ih =>
    obtain ⟨piece, t, u⟩ := part
    obtain ⟨hcomma, n, hn, harg⟩ := hpart
    obtain ⟨m, hm, hrest⟩ := ih
    obtain ⟨e', es', hes⟩ : ∃ e' es', es ++ [e] = e' :: es' := by
      cases es with
      | nil => exact ⟨_, _, rfl⟩
      | cons e' es' => exact ⟨_, _, rfl⟩
    rw [hes] at hrest
    rw [List.cons_append, hes]
    refine ⟨max n m, Nat.max_le.2 ⟨hn, hm⟩, ?_⟩
    have hderives := Derives.consArg hcomma harg hrest
    simpa [Run.pieces] using hderives

/-- Arguments that are read are derived. -/
theorem readArguments_sound {run : RunReader} {d : Nat} (hrun : run.Sound Level.all d)
    {closer : Token} {toks : List Token} {es : List Expr} (htoks : Run.Balanced toks)
    (h : readArguments run closer toks = .ok es) : Phrase.Within (.args es) toks d := by
  by_cases hne : toks = []
  · subst hne
    cases h
    exact ⟨0, Nat.zero_le _, .noArgs⟩
  · rw [readArguments_eq hne] at h
    obtain ⟨args, hargs, h⟩ := ok_of_bind h
    obtain ⟨final, hfinal, h⟩ := ok_of_bind h
    cases h
    obtain ⟨hpieces, hlast⟩ := Run.nested_split Symbol.separates_comma? htoks rfl
    rw [Run.split_eq (show Run.split Symbol.comma? toks = _ from rfl)]
    refine within_args ?_ (hrun hlast hfinal)
    refine ((List.forall₂_and_left _ _).2 ⟨hpieces, forall₂_of_mapM hargs⟩).imp ?_
    rintro ⟨piece, t, u⟩ arg ⟨⟨hpiece, hcomma⟩, harg⟩
    exact ⟨Token.bind_comma?_iff.1 hcomma, hrun hpiece harg⟩

/-- The readers of what stands inside an atom. -/
def deeperAt : Nat → Except SyntaxFault Deeper
  | 0 => .error .tooDeep
  | d + 1 => .ok ⟨readRun d, readAtomAt d⟩

theorem readAtomAt_eq (d : Nat) : readAtomAt d = readAtom (deeperAt d) := by
  cases d <;> rfl

/-- Readers for what stands inside an atom that may have `d` levels of nesting. -/
def Deeper.Sound (deeper : Except SyntaxFault Deeper) (d : Nat) : Prop :=
  ∀ r, deeper = .ok r → ∃ k, d = k + 1 ∧ RunReader.Sound r.run Level.all k ∧
    AtomReader.Sound r.atom k

variable {deeper : Except SyntaxFault Deeper} {d : Nat}

/-- A place with what follows it is derived; `used` are the tokens of the place. -/
theorem readChain_sound (hdeeper : Deeper.Sound deeper d) {first : Token} {place : Variable}
    {toks used : List Token} (hplace : Phrase.Within (.place place) used d)
    (hfirst : place.span.first = first.extent)
    (hcall : ∀ callee span, place = .name callee span →
      used = [first] ∧ first.lexeme = .identifier callee ∧ IsReference callee)
    (htoks : Run.Balanced toks) (h : readChain deeper first next place toks = .ok e) :
    Phrase.Within (.atom e) (used ++ toks) d := by
  fun_induction readChain deeper first next place toks generalizing used with
  | case1 =>
    cases h
    obtain ⟨n, hn, hplace⟩ := hplace
    rw [List.append_nil]
    exact ⟨n, hn, .var hplace⟩
  | case2 place t ts ht =>
    have hlparen := Token.isSymbol_iff.1 ht
    obtain ⟨inner, c, rest, rfl, hc, hinner, hrest⟩ :=
      htoks.opened (Token.symbol?_of_lexeme hlparen) rfl
    obtain ⟨b, hb, h⟩ := ok_of_bind h
    rw [closeBracket_nested hinner hc rfl] at hb
    cases hb
    cases place with
    | name callee span =>
      obtain ⟨r, hr, h⟩ := ok_of_bind h
      obtain ⟨args, hargs, h⟩ := ok_of_bind h
      obtain ⟨_, hend, h⟩ := ok_of_bind h
      cases h
      obtain ⟨k, rfl, hrun, -⟩ := hdeeper r hr
      obtain ⟨rfl, hname, href⟩ := hcall callee span rfl
      obtain ⟨n, hn, hargs⟩ := readArguments_sound hrun hinner hargs
      rw [show rest = [] from expectEnd_eq_ok hend]
      exact ⟨n + 1, Nat.succ_le_succ hn,
        .call hname href hlparen (Token.lexeme_of_symbol? hc) hargs⟩
    | index | member => cases h
  | case3 | case5 | case7 | case8 => cases h
  | case4 place t ts ht ht' b hb _ ih =>
    have hlbracket := Token.isSymbol_iff.1 ht'
    obtain ⟨inner, c, rest, rfl, hc, hinner, hrest⟩ :=
      htoks.opened (Token.symbol?_of_lexeme hlbracket) rfl
    rw [Run.close?_nested hinner hc rfl] at hb
    cases hb
    obtain ⟨r, hr, h⟩ := ok_of_bind h
    obtain ⟨i, hi, h⟩ := ok_of_bind h
    obtain ⟨k, rfl, hrun, -⟩ := hdeeper r hr
    obtain ⟨n, hn, hplace⟩ := hplace
    obtain ⟨m, hm, hindex⟩ := hrun hinner hi
    have hderives := Derives.index hlbracket (Token.lexeme_of_symbol? hc) hplace hindex
    rw [hfirst] at hderives
    have hall := ih i ⟨_, Nat.max_le.2 ⟨hn, Nat.succ_le_succ hm⟩, hderives⟩ rfl
      (fun _ _ heq => by cases heq) hrest h
    simpa using hall
  | case6 place t _ _ hdot m ts member hm span =>
    rename_i ih
    have hdot := Token.isSymbol_iff.1 hdot
    have hafter := (htoks.tail fun s hs => by
      cases (Token.symbol?_of_lexeme hdot).symm.trans hs
      rfl).2.2
    have hrest := (hafter.tail fun s hs => by
      cases (Token.symbol?_of_identifier hm).symm.trans hs).2.2
    obtain ⟨n, hn, hplace⟩ := hplace
    have hderives := Derives.member hdot hm hplace
    rw [hfirst] at hderives
    have hall := ih ⟨n, hn, hderives⟩ rfl (fun _ _ heq => by cases heq) hrest h
    simpa using hall

theorem isReference_iff {name : String} :
    IsReference name ↔ (isKeyword name && name != "true" && name != "false") = false := by
  simp only [IsReference, Bool.and_eq_false_iff, bne_eq_false_iff_eq, or_assoc]
  cases isKeyword name <;> simp

/-- An atom that is read is derived, if what stands inside it is. -/
theorem readAtom_sound (hdeeper : Deeper.Sound deeper d) : (readAtom deeper).Sound d := by
  intro t ts next e htoks h
  unfold readAtom at h
  split at h
  case h_1 hlparen =>
    obtain ⟨inner, c, rest, rfl, hc, hinner, hrest⟩ :=
      htoks.opened (Token.symbol?_of_lexeme hlparen) rfl
    obtain ⟨b, hb, h⟩ := ok_of_bind h
    rw [closeBracket_nested hinner hc rfl] at hb
    cases hb
    obtain ⟨_, hend, h⟩ := ok_of_bind h
    obtain ⟨r, hr, h⟩ := ok_of_bind h
    obtain ⟨x, hx, h⟩ := ok_of_bind h
    cases h
    obtain ⟨k, rfl, hrun, -⟩ := hdeeper r hr
    obtain ⟨n, hn, hx⟩ := hrun hinner hx
    rw [show rest = [] from expectEnd_eq_ok hend]
    exact ⟨n + 1, Nat.succ_le_succ hn, .paren hlparen (Token.lexeme_of_symbol? hc) hx⟩
  case h_2 hlbracket =>
    obtain ⟨inner, c, rest, rfl, hc, hinner, hrest⟩ :=
      htoks.opened (Token.symbol?_of_lexeme hlbracket) rfl
    obtain ⟨b, hb, h⟩ := ok_of_bind h
    rw [closeBracket_nested hinner hc rfl] at hb
    cases hb
    obtain ⟨_, hend, h⟩ := ok_of_bind h
    obtain ⟨values, hvalues, h⟩ := ok_of_bind h
    cases h
    obtain ⟨vs, hvs, rfl⟩ := byteList_of_readBytes hvalues
    rw [show rest = [] from expectEnd_eq_ok hend]
    exact ⟨0, Nat.zero_le _, .bytes hlbracket (Token.lexeme_of_symbol? hc) hvs⟩
  case h_3 s _ _ hs =>
    split at h
    case h_1 | h_2 => cases h
    case h_3 op u us hop =>
      have hlexeme : t.lexeme = .symbol op.symbol := by
        cases s <;> cases hop <;> exact hs
      obtain ⟨r, hr, h⟩ := ok_of_bind h
      obtain ⟨x, hx, h⟩ := ok_of_bind h
      cases h
      obtain ⟨k, rfl, -, hatom⟩ := hdeeper r hr
      have hrest := (htoks.tail fun s hs => by
        cases (Token.symbol?_of_lexeme hlexeme).symm.trans hs
        cases op <;> rfl).2.2
      obtain ⟨n, hn, hx⟩ := hatom hrest hx
      exact ⟨n + 1, Nat.succ_le_succ hn, .unary hlexeme hx⟩
  case h_4 radix digits hnumber =>
    obtain ⟨_, hend, h⟩ := ok_of_bind h
    rw [expectEnd_eq_ok hend]
    dsimp only at h
    split at h
    case isTrue hlt =>
      cases h
      exact ⟨0, Nat.zero_le _, .number (by rw [Token.number?, hnumber]) hlt⟩
    case isFalse => cases h
  case h_5 body hbody =>
    obtain ⟨_, hend, h⟩ := ok_of_bind h
    cases h
    rw [expectEnd_eq_ok hend]
    exact ⟨0, Nat.zero_le _, .string hbody⟩
  case h_6 name hname =>
    split at h
    case isTrue => cases h
    case isFalse href =>
      have href := isReference_iff.2 (Bool.eq_false_iff.2 href)
      have hrest := (htoks.tail fun s hs => by
        cases (Token.symbol?_of_identifier hname).symm.trans hs).2.2
      have hplace : Phrase.Within (.place (.name name (.single t.extent))) [t] d :=
        ⟨0, Nat.zero_le _, .name hname href⟩
      refine readChain_sound hdeeper hplace rfl ?_ hrest h
      rintro callee span ⟨⟩
      exact ⟨rfl, hname, href⟩
  case h_7 => cases h

theorem readAtomAt_sound (d : Nat) : (readAtomAt d).Sound d := by
  induction d with
  | zero =>
    refine readAtom_sound ?_
    rintro r ⟨⟩
  | succ d ih =>
    refine readAtom_sound ?_
    rintro r ⟨⟩
    exact ⟨d, rfl, readLevels_sound ih Level.all, ih⟩

/-- What is read from balanced tokens is derived. -/
theorem readRun_sound (d : Nat) : RunReader.Sound (readRun d) Level.all d :=
  readLevels_sound (readAtomAt_sound d) Level.all

end Atoms

/-! ## What is derived is read -/

theorem join_append_left (parts : List (Expr × Token × BinaryOperator)) (x : Expr) (t : Token)
    (op : BinaryOperator) (y : Expr) :
    Assoc.left.join (parts ++ [(x, t, op)]) y = joinAt (Assoc.left.join parts x) t op y := by
  have hjoin : ∀ (parts : List (Expr × Token × BinaryOperator)) (e : Expr) (t' : Token)
      (op' : BinaryOperator),
      joinLeft e t' op' (parts ++ [(x, t, op)]) y = joinAt (joinLeft e t' op' parts x) t op y := by
    intro parts
    induction parts with
    | nil => exact fun _ _ _ => rfl
    | cons part parts ih => exact fun _ _ _ => ih _ _ _
  cases parts with
  | nil => rfl
  | cons part parts => exact hjoin parts _ _ _

/-- Reading the operators of a level, whether it has any or not. -/
theorem readLevels_cons (atom : AtomReader) (l : Level) (ls : List Level) (run : List Token)
    (next : Option Token) :
    readLevels atom (l :: ls) run next = (do
      let parts ← (Run.split l.operator? run).1.mapM fun (piece, t, op) => do
        return (← readLevels atom ls piece (some t), t, op)
      return l.assoc.join parts (← readLevels atom ls (Run.split l.operator? run).2 next)) := by
  rw [readLevels]
  split
  case h_1 last hsplit =>
    rw [hsplit, Run.split_eq hsplit]
    show readLevels atom ls last next = readLevels atom ls last next >>= _
    cases readLevels atom ls last next with
    | error e => rfl
    | ok e => cases h : l.assoc <;> rfl
  case h_2 parts last _ hsplit => rw [hsplit]

theorem mapM_ok_append {ε α β : Type} {f : α → Except ε β} {xs ys : List α} {us vs : List β}
    (hx : xs.mapM f = .ok us) (hy : ys.mapM f = .ok vs) : (xs ++ ys).mapM f = .ok (us ++ vs) := by
  rw [List.mapM_append, hx, hy]
  rfl

/-- What reading makes of the tokens of a phrase with `n` levels of nesting. -/
def Phrase.Reads : Phrase → List Token → Nat → Prop
  | run ls e, toks, n => ls.Pairwise Level.Apart → ∀ d, n ≤ d → ∀ next,
      readLevels (readAtomAt d) ls toks next = .ok e
  | atom e, toks, n => ∃ t ts, toks = t :: ts ∧ ∀ d, n ≤ d → ∀ next,
      readAtomAt d t ts next = .ok e
  | place v, toks, n => ∃ t ts, toks = t :: ts ∧ v.span.first = t.extent ∧ ∀ d, n ≤ d →
      ∀ next rest, readAtomAt d t (ts ++ rest) next = readChain (deeperAt d) t next v rest
  | args es, toks, n => ∀ d, n ≤ d → ∀ closer, readArguments (readRun d) closer toks = .ok es

section Reading

variable {l : Level} {ls : List Level} {x y e : Expr} {a b toks : List Token} {t : Token}
  {op : BinaryOperator} {n m : Nat}

theorem Derives.split_eq (h : Derives (.run ls e) toks n) (hl : ∀ l' ∈ ls, l.Apart l') :
    Run.split l.operator? toks = ([], toks) :=
  Run.split_nested l.separates (h.outside.mono fun _ ht => ht.bind_operator? hl)

theorem Phrase.Reads.tighter (h : Derives (.run ls e) toks n) (hreads : Reads (.run ls e) toks n) :
    Reads (.run (l :: ls) e) toks n := by
  intro hapart d hd next
  obtain ⟨hl, hls⟩ := List.pairwise_cons.1 hapart
  rw [readLevels, h.split_eq hl]
  exact hreads hls d hd next

theorem Phrase.Reads.left (hl : l.assoc = .left) (ht : t.lexeme = .symbol op.symbol)
    (hop : op ∈ l.operators) (hx : Derives (.run (l :: ls) x) a n) (hy : Derives (.run ls y) b m)
    (hreadsx : Reads (.run (l :: ls) x) a n) (hreadsy : Reads (.run ls y) b m) :
    Reads (.run (l :: ls) (joinAt x t op y)) (a ++ t :: b) (max n m) := by
  intro hapart d hd next
  obtain ⟨hn, hm⟩ := Nat.max_le.1 hd
  obtain ⟨hdisjoint, hls⟩ := List.pairwise_cons.1 hapart
  have hplain := Token.isPlain_of_lexeme ht op.symbol_plain.1 op.symbol_plain.2
  have hsplit := Run.split_append l.separates hx.outside hplain
    (Level.bind_operator?_iff.2 ⟨ht, hop⟩) hy.outside
  have hreada := hreadsx hapart d hn (some t)
  rw [readLevels_cons] at hreada
  obtain ⟨parts, hparts, hreada⟩ := ok_of_bind hreada
  obtain ⟨last, hlast, hreada⟩ := ok_of_bind hreada
  cases hreada
  have hlastPart : [((Run.split l.operator? a).2, t, op)].mapM
      (fun (piece, t, op) => do return (← readLevels (readAtomAt d) ls piece (some t), t, op)) =
        .ok [(last, t, op)] := by
    simp only [List.mapM_cons, List.mapM_nil, hlast]
    rfl
  rw [readLevels_cons, hsplit, hy.split_eq hdisjoint, mapM_ok_append hparts hlastPart, hl]
  show readLevels (readAtomAt d) ls b next >>= _ = _
  rw [hreadsy hls d hm next, ← join_append_left]
  rfl

theorem Phrase.Reads.right (hl : l.assoc = .right) (ht : t.lexeme = .symbol op.symbol)
    (hop : op ∈ l.operators) (hx : Derives (.run ls x) a n) (hy : Derives (.run (l :: ls) y) b m)
    (hreadsx : Reads (.run ls x) a n) (hreadsy : Reads (.run (l :: ls) y) b m) :
    Reads (.run (l :: ls) (joinAt x t op y)) (a ++ t :: b) (max n m) := by
  intro hapart d hd next
  obtain ⟨hn, hm⟩ := Nat.max_le.1 hd
  obtain ⟨hdisjoint, hls⟩ := List.pairwise_cons.1 hapart
  have hplain := Token.isPlain_of_lexeme ht op.symbol_plain.1 op.symbol_plain.2
  have hsplit := Run.split_append l.separates hx.outside hplain
    (Level.bind_operator?_iff.2 ⟨ht, hop⟩) hy.outside
  have hreadb := hreadsy hapart d hm next
  rw [readLevels_cons] at hreadb
  obtain ⟨parts, hparts, hreadb⟩ := ok_of_bind hreadb
  obtain ⟨last, hlast, hreadb⟩ := ok_of_bind hreadb
  cases hreadb
  have hfirst : [(a, t, op)].mapM
      (fun (piece, t, op) => do return (← readLevels (readAtomAt d) ls piece (some t), t, op)) =
        .ok [(x, t, op)] := by
    simp only [List.mapM_cons, List.mapM_nil, hreadsx hls d hn]
    rfl
  rw [readLevels_cons, hsplit, hx.split_eq hdisjoint]
  dsimp only
  rw [List.nil_append, ← List.singleton_append, mapM_ok_append hfirst hparts, hl]
  show readLevels (readAtomAt d) ls _ next >>= _ = _
  rw [hlast]
  rfl

theorem readBytes_of_byteList {closer : Token} {vs : List UInt8} (h : ByteList toks vs)
    (acc : List UInt8) : readBytes closer toks acc = .ok (acc.reverse ++ vs) := by
  induction h generalizing acc with
  | last ht hn =>
    rw [readBytes, ht]
    simp [hn]
  | cons ht hn hc _ ih =>
    rw [readBytes, ht]
    simp [hn, hc, ih]

theorem readLevels_nil (atom : AtomReader) (ls : List Level) (next : Option Token) :
    readLevels atom ls [] next = .error (.unexpected .expression next) := by
  induction ls with
  | nil => rfl
  | cons l ls ih => exact ih

theorem Phrase.Reads.ne_nil (h : Reads (.run Level.all e) toks n) : toks ≠ [] := by
  rintro rfl
  have hread := h Level.pairwise_all n (Nat.le_refl n) none
  rw [readLevels_nil] at hread
  cases hread

theorem Derives.split_comma? (h : Derives (.run ls e) toks n) :
    Run.split Symbol.comma? toks = ([], toks) := by
  refine Run.split_nested Symbol.separates_comma? (h.outside.mono fun t ht => ?_)
  cases hcomma : t.symbol?.bind Symbol.comma? with
  | none => rfl
  | some u => exact absurd (Token.symbol?_of_lexeme (Token.bind_comma?_iff.1 hcomma)) ht.ne_comma

theorem Phrase.Reads.lastArg (h : Derives (.run Level.all e) toks n)
    (hreads : Reads (.run Level.all e) toks n) : Reads (.args [e]) toks n := by
  intro d hd closer
  rw [readArguments_eq hreads.ne_nil, h.split_comma?]
  show readLevels _ _ _ _ >>= _ = _
  rw [hreads Level.pairwise_all d hd]
  rfl

theorem Phrase.Reads.consArg {e' : Expr} {es : List Expr} (ht : t.lexeme = .symbol .comma)
    (he : Derives (.run Level.all e) a n) (hes : Derives (.args (e' :: es)) b m)
    (hreadse : Reads (.run Level.all e) a n) (hreadses : Reads (.args (e' :: es)) b m) :
    Reads (.args (e :: e' :: es)) (a ++ t :: b) (max n m) := by
  intro d hd closer
  obtain ⟨hn, hm⟩ := Nat.max_le.1 hd
  have hrest := hreadses d hm closer
  have hne : b ≠ [] := by
    rintro rfl
    cases hrest
  rw [readArguments_eq hne] at hrest
  obtain ⟨args, hargs, hrest⟩ := ok_of_bind hrest
  obtain ⟨final, hfinal, hrest⟩ := ok_of_bind hrest
  have hfirst : [(a, t, ())].mapM
      (fun (piece, t, _) => readRun d piece (some t)) = .ok [e] := by
    simp only [List.mapM_cons, List.mapM_nil, readRun, hreadse Level.pairwise_all d hn]
    rfl
  rw [readArguments_eq (by simp), Run.split_append Symbol.separates_comma? he.outside
    (Token.isPlain_of_lexeme ht rfl rfl) (Token.bind_comma?_iff.2 ht) hes.outside, he.split_comma?]
  dsimp only
  rw [List.nil_append, ← List.singleton_append, mapM_ok_append hfirst hargs]
  show readRun d _ _ >>= _ = _
  rw [hfinal]
  exact congrArg (fun es => Except.ok (e :: es)) (Except.ok.inj hrest)

/-- A phrase with at most `d` levels of nesting is read where there are so many left. -/
theorem Derives.reads {φ : Phrase} (h : Derives φ toks n) : φ.Reads toks n := by
  induction h with
  | tightest _ ih =>
    obtain ⟨t, ts, rfl, ih⟩ := ih
    exact fun _ d hd next => ih d hd next
  | tighter h ih => exact .tighter h ih
  | left hl ht hop hx hy ihx ihy => exact .left hl ht hop hx hy ihx ihy
  | right hl ht hop hx hy ihx ihy => exact .right hl ht hop hx hy ihx ihy
  | paren ho hc h ih =>
    refine ⟨_, _, rfl, fun d hd next => ?_⟩
    obtain ⟨d, rfl⟩ : ∃ k, d = k + 1 := ⟨d - 1, by omega⟩
    have hclose := closeBracket_nested h.outside.balanced (Token.symbol?_of_lexeme hc) rfl [] next
    rw [readAtomAt_eq, readAtom, ho]
    dsimp only
    rw [hclose]
    show readLevels _ _ _ _ >>= _ = _
    rw [ih Level.pairwise_all d (by omega)]
    rfl
  | @unary op _ t _ _ ht _ ih =>
    obtain ⟨u, us, rfl, ih⟩ := ih
    refine ⟨t, _, rfl, fun d hd next => ?_⟩
    obtain ⟨d, rfl⟩ : ∃ k, d = k + 1 := ⟨d - 1, by omega⟩
    rw [readAtomAt_eq, readAtom, ht]
    cases op <;>
    · show readAtomAt d u us next >>= _ = _
      rw [ih d (by omega)]
      rfl
  | number ht hv =>
    refine ⟨_, _, rfl, fun d _ next => ?_⟩
    rw [Token.number?] at ht
    split at ht
    case h_2 => cases ht
    case h_1 radix digits hlexeme =>
      cases ht
      rw [readAtomAt_eq, readAtom, hlexeme]
      show (if _ < _ then _ else _) = _
      rw [if_pos hv]
      rfl
  | string ht =>
    refine ⟨_, _, rfl, fun d _ next => ?_⟩
    rw [readAtomAt_eq, readAtom, ht]
    rfl
  | bytes ho hc h =>
    refine ⟨_, _, rfl, fun d _ next => ?_⟩
    have hclose := closeBracket_nested h.balanced (Token.symbol?_of_lexeme hc) rfl [] next
    rw [readAtomAt_eq, readAtom, ho]
    dsimp only
    rw [hclose]
    show readBytes _ _ _ >>= _ = _
    rw [readBytes_of_byteList h]
    rfl
  | var _ ih =>
    obtain ⟨t, ts, rfl, -, ih⟩ := ih
    refine ⟨t, ts, rfl, fun d hd next => ?_⟩
    have hread := ih d hd next []
    rw [List.append_nil] at hread
    rw [hread, readChain_eq]
  | call ht hcallee ho hc h ih =>
    refine ⟨_, _, rfl, fun d hd next => ?_⟩
    obtain ⟨d, rfl⟩ : ∃ k, d = k + 1 := ⟨d - 1, by omega⟩
    have hclose := closeBracket_nested h.outside (Token.symbol?_of_lexeme hc) rfl [] next
    rw [readAtomAt_eq, readAtom, ht]
    dsimp only
    rw [isReference_iff.1 hcallee, if_neg Bool.false_ne_true, readChain_eq]
    dsimp only
    rw [if_pos (Token.isSymbol_iff.2 ho), hclose]
    show readArguments (readRun d) _ _ >>= _ = _
    rw [ih d (by omega)]
    rfl
  | name ht hname =>
    refine ⟨_, [], rfl, rfl, fun d _ next rest => ?_⟩
    rw [readAtomAt_eq, readAtom, ht]
    dsimp only
    rw [isReference_iff.1 hname, if_neg Bool.false_ne_true, List.nil_append]
  | @index v e o c a b n m ho hc _ he ihv ihe =>
    obtain ⟨t, ts, rfl, hfirst, ihv⟩ := ihv
    refine ⟨t, ts ++ o :: (b ++ [c]), rfl, hfirst, fun d hd next rest => ?_⟩
    obtain ⟨d, rfl⟩ : ∃ k, d = k + 1 := ⟨d - 1, by omega⟩
    have hclose := closeBracket_nested he.outside.balanced (Token.symbol?_of_lexeme hc) rfl rest
      next
    have hnot : o.isSymbol .lparen = false := by
      rw [Token.isSymbol, ho]
      rfl
    rw [List.append_assoc, ihv (d + 1) (by omega), List.cons_append, List.append_assoc,
      List.singleton_append, readChain_eq]
    dsimp only
    rw [hnot, if_neg Bool.false_ne_true, if_pos (Token.isSymbol_iff.2 ho), hclose]
    show readLevels _ _ _ _ >>= _ = _
    rw [ihe Level.pairwise_all d (by omega), hfirst]
    rfl
  | @member v member p t a n hd ht _ ihv =>
    obtain ⟨u, us, rfl, hfirst, ihv⟩ := ihv
    refine ⟨u, us ++ [p, t], rfl, hfirst, fun d hd' next rest => ?_⟩
    have hnot : p.isSymbol .lparen = false ∧ p.isSymbol .lbracket = false := by
      rw [Token.isSymbol, Token.isSymbol, hd]
      exact ⟨rfl, rfl⟩
    rw [List.append_assoc, ihv d hd', List.cons_append, List.singleton_append, readChain_eq]
    dsimp only
    rw [hnot.1, hnot.2, if_neg Bool.false_ne_true, if_neg Bool.false_ne_true,
      if_pos (Token.isSymbol_iff.2 hd), ht, hfirst]
  | noArgs => exact fun _ _ _ => rfl
  | lastArg h ih => exact .lastArg h ih
  | consArg ht he hes ihe ihes => exact .consArg ht he hes ihe ihes

end Reading

/-- What is derived from balanced tokens is what is read from them. -/
theorem readRun_eq_ok_iff {run : List Token} (hrun : Run.Balanced run) {d : Nat}
    {next : Option Token} {e : Expr} :
    readRun d run next = .ok e ↔ ∃ n, Derives (.run Level.all e) run n ∧ n ≤ d := by
  constructor
  · intro h
    obtain ⟨n, hn, h⟩ := readRun_sound d hrun h
    exact ⟨n, h, hn⟩
  · rintro ⟨n, h, hn⟩
    exact h.reads Level.pairwise_all d hn next

/-- The rules derive one expression at most. -/
theorem Derives.unique {run : List Token} {e e' : Expr} {n n' : Nat}
    (h : Derives (.run Level.all e) run n) (h' : Derives (.run Level.all e') run n') : e = e' := by
  have hread := h.reads Level.pairwise_all (max n n') (Nat.le_max_left _ _) none
  have hread' := h'.reads Level.pairwise_all (max n n') (Nat.le_max_right _ _) none
  exact Except.ok.inj (hread.symm.trans hread')

/-- An expression is read from a run if the rules derive it, and its nesting, added to the depth
that the run stands at, is not too deep. The rules derive one expression at most. -/
theorem readRun_grammar {toks run rest : List Token} (h : Run.collect toks = .ok (run, rest)) :
    (∀ depth ≤ maxDepth, ∀ next e, readRun (maxDepth - depth) run next = .ok e ↔
      ∃ n, Derives (.run Level.all e) run n ∧ depth + n ≤ maxDepth) ∧
    ∀ e e' n n', Derives (.run Level.all e) run n → Derives (.run Level.all e') run n' →
      e = e' := by
  refine ⟨fun depth hdepth next e => ?_, fun _ _ _ _ => Derives.unique⟩
  rw [readRun_eq_ok_iff (Run.nested_collect h)]
  refine exists_congr fun n => and_congr_right fun _ => ?_
  omega

/-- Operators of both sides, a choice, a call, an index and a list of bytes. -/
theorem readRun_grammar_mixed :
    ∃ toks run rest e n,
      Source.tokens "a = b ? !c[1].d : f(2 ** 3 ** x, (y - 1) - [7, 8]);".toList = .ok toks ∧
      Run.collect toks = .ok (run, rest) ∧ run.length = 32 ∧
      e.display = "(a = (b ? (!c[1].d : f((2 ** (3 ** x)), ((y - 1) - \"\x07\x08\")))))" ∧
      Derives (.run Level.all e) run n ∧ 1 + n ≤ maxDepth := by
  have hruns : (do
      let toks ← Source.tokens "a = b ? !c[1].d : f(2 ** 3 ** x, (y - 1) - [7, 8]);".toList
      return (Run.collect toks).toOption.map fun cut =>
        (cut.1.length, (readRun (maxDepth - 1) cut.1 none).toOption.map Expr.display)) =
      Except.ok (some (32,
        some "(a = (b ? (!c[1].d : f((2 ** (3 ** x)), ((y - 1) - \"\x07\x08\")))))")) := by
    rw [String.toList_ofList]
    decide +kernel
  obtain ⟨toks, htoks, hruns⟩ := ok_of_bind hruns
  have hruns := Except.ok.inj hruns
  cases hcollect : Run.collect toks with
  | error fault =>
    rw [hcollect] at hruns
    cases hruns
  | ok cut =>
    obtain ⟨run, rest⟩ := cut
    rw [hcollect] at hruns
    have hpair := Option.some.inj hruns
    cases hread : readRun (maxDepth - 1) run none with
    | error fault =>
      have hshown := congrArg Prod.snd hpair
      simp [hread, Except.toOption] at hshown
    | ok e =>
      have hshown := congrArg Prod.snd hpair
      simp only [hread, Except.toOption, Option.map_some, Option.some.injEq] at hshown
      obtain ⟨n, hderives, hn⟩ := ((readRun_grammar hcollect).1 1 (by decide) none e).1 hread
      exact ⟨toks, run, rest, e, n, htoks, hcollect, congrArg Prod.fst hpair, hshown, hderives, hn⟩

end ContractCompiler
