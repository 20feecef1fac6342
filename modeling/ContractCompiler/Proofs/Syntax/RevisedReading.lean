import ContractCompiler.Proofs.Syntax.Derivations
import ContractCompiler.Proofs.Syntax.Revision

/-!
# Reading revised tokens

The readers keep to a revision: they look at symbols and words, which a revision leaves alone, and
what they find in single numbers is the revision's own business. So each of them keeps to it if the
readers for what stands inside do. The readers of expressions are asked about balanced tokens only,
so that they find the end of each bracket.
-/

namespace ContractCompiler

open Run (Balanced)

/-- A bracket in balanced tokens ends with a token that closes it. -/
theorem Run.Nested.closes {o : Token} {ts : List Token} {s c : Symbol} (h : Balanced (o :: ts))
    (ho : o.symbol? = some s) (hs : s.closer? = some c) :
    ∃ b, Run.close? ts = some b ∧ b.closer.symbol? = some c ∧ Balanced b.inner ∧
      Balanced b.rest ∧ ts = b.inner ++ b.closer :: b.rest := by
  obtain ⟨inner, closer, rest, rfl, hcloser, hinner, hrest⟩ := h.opened ho hs
  exact ⟨⟨inner, closer, rest⟩, close?_nested hinner hcloser (Symbol.isClosing_of_closer? hs).2,
    hcloser, hinner, hrest, rfl⟩

/-! ## One step of the readers of lists -/

theorem readStmts_succ (stmt : Reader Stmt) (fuel : Nat) (t : Token) (ts : List Token)
    (acc : List Stmt) :
    readStmts stmt (fuel + 1) (t :: ts) acc =
      if t.isSymbol .rbrace then .ok ((acc.reverse, t), ts)
      else stmt (t :: ts) >>= fun r => readStmts stmt fuel r.2 (r.1 :: acc) := by
  rw [readStmts]
  congr 1
  cases stmt (t :: ts) <;> rfl

theorem readValues_succ (expr : Reader Expr) (fuel : Nat) (t : Token) (ts : List Token)
    (acc : List Expr) :
    readValues expr (fuel + 1) (t :: ts) acc =
      if t.isSymbol .comma then expr ts >>= fun r => readValues expr fuel r.2 (r.1 :: acc)
      else .ok (acc.reverse, t :: ts) := by
  rw [readValues]
  congr 1
  cases expr ts <;> rfl

theorem readCases_succ (expr : Reader Expr) (block : Reader Block) (fuel : Nat) (t : Token)
    (ts : List Token) (acc : List Case) :
    readCases expr block (fuel + 1) (t :: ts) acc =
      if t.isSymbol .rbrace then .ok (⟨acc.reverse, none, t⟩, ts)
      else if t.isIdentifier "case" then
        readCase fuel expr block t ts >>= fun r => readCases expr block fuel r.2 (r.1 :: acc)
      else if t.isIdentifier "default" then do
        let (body, rest) ← block ts
        let (closer, rest) ← readSymbol .rbrace rest
        return (⟨acc.reverse, some body, closer⟩, rest)
      else .error (.unexpected .caseOrDefault (some t)) := by
  rw [readCases]
  congr 2
  cases readCase fuel expr block t ts <;> rfl

theorem readFunctions_succ (function : Reader Function) (fuel : Nat) (t : Token)
    (ts : List Token) (acc : List Function) :
    readFunctions function (fuel + 1) (t :: ts) acc =
      function (t :: ts) >>= fun r => readFunctions function fuel r.2 (r.1 :: acc) := by
  rw [readFunctions]
  cases function (t :: ts) <;> rfl

namespace Revision

open Amendment

variable {ρ : Revision}

theorem gives_mapM {α β α' β' : Type} {f : α → α'} {g : β → β'} {k : α → Except SyntaxFault β}
    {k' : α' → Except SyntaxFault β'} (xs : List α) (hk : ∀ a ∈ xs, ρ.Gives g (k a) (k' (f a))) :
    ρ.Gives (List.map g) (xs.mapM k) ((xs.map f).mapM k') := by
  induction xs with
  | nil => exact ρ.ok _ []
  | cons x xs ih =>
    obtain ⟨hx, hxs⟩ := List.forall_mem_cons.1 hk
    rw [List.map_cons, List.mapM_cons, List.mapM_cons]
    exact ρ.bind hx fun b => ρ.bind (ih hxs) fun bs => ρ.ok _ (b :: bs)

/-! ## Runs -/

theorem collectOnto_gives (toks : List Token) (closers : List Symbol) (acc : List Token) :
    ρ.Gives (Prod.map (List.map ρ.token) (List.map ρ.token)) (Run.collectOnto toks closers acc)
      (Run.collectOnto (toks.map ρ.token) closers (acc.map ρ.token)) := by
  induction toks generalizing closers acc with
  | nil =>
    cases closers with
    | nil => exact ρ.ok _ (acc, [])
    | cons c outer => exact ρ.unexpected _ _ none nofun
  | cons t ts ih =>
    have hnext := fun closers => ih closers (t :: acc)
    rw [List.map_cons, Run.collectOnto.eq_def, Run.collectOnto.eq_def (ρ.token t :: _)]
    dsimp only
    rw [symbol?_token]
    cases t.symbol? with
    | none => exact hnext closers
    | some s =>
      cases closers with
      | nil =>
        dsimp only
        split
        · exact ρ.ok _ (acc, t :: ts)
        · exact hnext _
      | cons c outer =>
        dsimp only
        split
        · split
          · exact hnext _
          · exact ρ.unexpected _ _ (some t) nofun
        · exact hnext _

theorem collect_gives (toks : List Token) :
    ρ.Gives (Prod.map (List.map ρ.token) (List.map ρ.token)) (Run.collect toks)
      (Run.collect (toks.map ρ.token)) := by
  refine ρ.bind (collectOnto_gives toks [] []) fun (acc, rest) => ?_
  show ρ.Gives _ _ (Except.ok ((acc.map ρ.token).reverse, rest.map ρ.token))
  rw [← List.map_reverse]
  exact ρ.ok _ (acc.reverse, rest)

/-- A revised bracket. -/
def bracket (ρ : Revision) (b : Run.Bracket) : Run.Bracket :=
  ⟨b.inner.map ρ.token, ρ.token b.closer, b.rest.map ρ.token⟩

theorem closeFrom_revised (toks : List Token) (depth : Nat) (acc : List Token) :
    Run.closeFrom (toks.map ρ.token) depth (acc.map ρ.token) =
      (Run.closeFrom toks depth acc).map ρ.bracket := by
  induction toks generalizing depth acc with
  | nil => rfl
  | cons t ts ih =>
    have hnext := fun depth => ih depth (t :: acc)
    rw [List.map_cons, Run.closeFrom.eq_def, Run.closeFrom.eq_def (t :: ts)]
    dsimp only
    rw [symbol?_token]
    cases t.symbol? with
    | none => exact hnext depth
    | some s =>
      dsimp only
      split
      · exact hnext _
      split
      · cases depth with
        | zero =>
          dsimp only
          rw [← List.map_reverse]
          rfl
        | succ depth => exact hnext depth
      · exact hnext _

theorem close?_revised (toks : List Token) :
    Run.close? (toks.map ρ.token) = (Run.close? toks).map ρ.bracket :=
  closeFrom_revised toks 0 []

/-- Revised pieces with their separators. -/
def piece {β : Type} (ρ : Revision) (p : List Token × Token × β) : List Token × Token × β :=
  (p.1.map ρ.token, ρ.token p.2.1, p.2.2)

theorem splitFrom_revised {β : Type} (separator? : Symbol → Option β) (toks : List Token)
    (depth : Nat) (part : List Token) (done : List (List Token × Token × β)) :
    Run.splitFrom separator? (toks.map ρ.token) depth (part.map ρ.token) (done.map ρ.piece) =
      Prod.map (List.map ρ.piece) (List.map ρ.token)
        (Run.splitFrom separator? toks depth part done) := by
  induction toks generalizing depth part done with
  | nil =>
    rw [List.map_nil, Run.splitFrom, ← List.map_reverse, ← List.map_reverse]
    rfl
  | cons t ts ih =>
    have hnext := fun depth => ih depth (t :: part) done
    rw [List.map_cons, Run.splitFrom.eq_def, Run.splitFrom.eq_def _ (t :: ts)]
    dsimp only
    rw [symbol?_token]
    cases t.symbol? with
    | none => exact hnext depth
    | some s =>
      dsimp only
      cases depth with
      | succ depth => exact hnext _
      | zero =>
        cases separator? s with
        | none => exact hnext _
        | some b =>
          have hcut := ih 0 [] ((part.reverse, t, b) :: done)
          rw [List.map_cons, piece, List.map_reverse] at hcut
          exact hcut

theorem split_revised {β : Type} (separator? : Symbol → Option β) (toks : List Token) :
    Run.split separator? (toks.map ρ.token) =
      Prod.map (List.map ρ.piece) (List.map ρ.token) (Run.split separator? toks) :=
  splitFrom_revised separator? toks 0 [] []

/-! ## Expressions -/

/-- An atom reader keeps to another one where brackets are balanced. -/
def KeepsAtom (ρ : Revision) (atom atom' : AtomReader) : Prop :=
  ∀ t ts next, Balanced (t :: ts) → ρ.Gives ρ.expr (atom t ts next)
    (atom' (ρ.token t) (ts.map ρ.token) (next.map ρ.token))

/-- A run reader keeps to another one where brackets are balanced. -/
def KeepsRun (ρ : Revision) (run run' : RunReader) : Prop :=
  ∀ toks next, Balanced toks → ρ.Gives ρ.expr (run toks next)
    (run' (toks.map ρ.token) (next.map ρ.token))

/-- The readers for one level deeper keep to others, or there are none. -/
inductive KeepsDeeper (ρ : Revision) :
    Except SyntaxFault Deeper → Except SyntaxFault Deeper → Prop
  | tooDeep : KeepsDeeper ρ (.error .tooDeep) (.error .tooDeep)
  | ok {d d' : Deeper} (hrun : ρ.KeepsRun d.run d'.run) (hatom : ρ.KeepsAtom d.atom d'.atom) :
    KeepsDeeper ρ (.ok d) (.ok d')

/-- An operand with the operator after it, revised. -/
def operand (ρ : Revision) (p : Expr × Token × BinaryOperator) : Expr × Token × BinaryOperator :=
  (ρ.expr p.1, ρ.token p.2.1, p.2.2)

theorem joinAt_revised (l : Expr) (t : Token) (o : BinaryOperator) (r : Expr) :
    joinAt (ρ.expr l) (ρ.token t) o (ρ.expr r) = ρ.expr (joinAt l t o r) := by
  rw [joinAt, span_expr, span_expr, ρ.extent_token]
  rfl

theorem joinLeft_revised (l : Expr) (t : Token) (o : BinaryOperator)
    (parts : List (Expr × Token × BinaryOperator)) (last : Expr) :
    joinLeft (ρ.expr l) (ρ.token t) o (parts.map ρ.operand) (ρ.expr last) =
      ρ.expr (joinLeft l t o parts last) := by
  induction parts generalizing l t o with
  | nil => exact joinAt_revised l t o last
  | cons p parts ih =>
    obtain ⟨e, t', o'⟩ := p
    rw [List.map_cons, operand, joinLeft, joinAt_revised]
    exact ih (joinAt l t o e) t' o'

theorem join_revised (a : Assoc) (parts : List (Expr × Token × BinaryOperator)) (last : Expr) :
    a.join (parts.map ρ.operand) (ρ.expr last) = ρ.expr (a.join parts last) := by
  cases a with
  | left =>
    cases parts with
    | nil => rfl
    | cons p parts => exact joinLeft_revised _ _ _ parts last
  | right =>
    induction parts with
    | nil => rfl
    | cons p parts ih =>
      rw [Assoc.join] at ih ⊢
      rw [List.map_cons, List.foldr_cons, ih]
      exact joinAt_revised _ _ _ _

theorem readLevels_keeps {atom atom' : AtomReader} (hatom : ρ.KeepsAtom atom atom')
    (ls : List Level) : ρ.KeepsRun (readLevels atom ls) (readLevels atom' ls) := by
  induction ls with
  | nil =>
    intro run next hrun
    cases run with
    | nil => exact ρ.unexpected _ _ next (by decide)
    | cons t ts => exact hatom t ts next hrun
  | cons l ls ih =>
    intro run next hrun
    obtain ⟨hparts, hlast⟩ := Run.nested_split l.separates hrun rfl
    rw [readLevels_cons, readLevels_cons, split_revised]
    refine ρ.bind (f := List.map ρ.operand) (gives_mapM (f := ρ.piece) _ ?_) fun parts => ?_
    · rintro ⟨piece, t, op⟩ hpart
      exact ρ.bind (ih piece (some t) (hparts _ hpart).1) fun e => ρ.ok ρ.operand (e, t, op)
    · refine ρ.bind (ih _ next hlast) fun e => ?_
      show ρ.Gives _ _ (Except.ok _)
      rw [join_revised]
      exact ρ.ok _ _

theorem expectEnd_gives (toks : List Token) :
    ρ.Gives id (expectEnd toks) (expectEnd (toks.map ρ.token)) := by
  cases toks with
  | nil => exact ρ.ok _ ()
  | cons t ts => exact ρ.unexpected _ _ (some t) (by decide)

/-- What is read from a bracket on. -/
theorem closeBracket_gives {o : Token} {toks : List Token} {s c : Symbol}
    (h : Balanced (o :: toks)) (ho : o.symbol? = some s) (hs : s.closer? = some c) (next : Option Token)
    {β β' : Type} {g : β → β'} {k : Run.Bracket → Except SyntaxFault β}
    {k' : Run.Bracket → Except SyntaxFault β'}
    (hk : ∀ b, Run.close? toks = some b → Balanced b.inner → Balanced b.rest →
      ρ.Gives g (k b) (k' (ρ.bracket b))) :
    ρ.Gives g (closeBracket toks next >>= k)
      (closeBracket (toks.map ρ.token) (next.map ρ.token) >>= k') := by
  obtain ⟨b, hb, -, hinner, hrest, -⟩ := h.closes ho hs
  rw [closeBracket, closeBracket, close?_revised, hb]
  exact hk b hb hinner hrest

/-- Reading a list of bytes, one byte at a time. -/
theorem readBytes_number {t : Token} {n : Nat} (ht : t.number? = some n) (closer : Token)
    (ts : List Token) (acc : List UInt8) :
    readBytes closer (t :: ts) acc = (t.byte n >>= fun b =>
      match ts with
      | [] => .ok (b :: acc).reverse
      | c :: ts =>
        if c.isSymbol .comma then readBytes closer ts (b :: acc)
        else .error (.unexpected .commaOrBracket (some c))) := by
  rw [readBytes.eq_def, Token.byte]
  dsimp only
  rw [ht]
  dsimp only
  split <;> rfl

theorem readBytes_gives (closer : Token) (toks : List Token) (acc : List UInt8) :
    ρ.Gives id (readBytes closer toks acc)
      (readBytes (ρ.token closer) (toks.map ρ.token) acc) := by
  induction hlen : toks.length using Nat.strongRecOn generalizing toks acc with
  | _ len ih =>
    cases toks with
    | nil => exact ρ.unexpected _ _ (some closer) (by decide)
    | cons t ts =>
      rw [List.map_cons]
      cases hn : t.number? with
      | none =>
        have hn' : (ρ.token t).number? = none := by
          rw [Token.number?, ρ.lexeme_token hn, ← Token.number?, hn]
        rw [readBytes.eq_def, readBytes.eq_def (ρ.token closer)]
        dsimp only
        rw [hn, hn']
        exact ρ.unexpected _ _ (some t) (by decide)
      | some n =>
        obtain ⟨n', hn', -, hbyte⟩ := ρ.number_token hn
        rw [readBytes_number hn, readBytes_number hn']
        refine ρ.bind hbyte fun b => ?_
        cases ts with
        | nil => exact ρ.ok id _
        | cons c ts =>
          rw [List.length_cons, List.length_cons] at hlen
          rw [List.map_cons]
          dsimp only
          rw [isSymbol_token]
          split
          · exact ih ts.length (by omega) ts _ rfl
          · exact ρ.unexpected _ _ (some c) (by decide)

theorem readArguments_gives {run run' : RunReader} (hrun : ρ.KeepsRun run run')
    (closer : Token) {toks : List Token} (htoks : Balanced toks) :
    ρ.Gives (List.map ρ.expr) (readArguments run closer toks)
      (readArguments run' (ρ.token closer) (toks.map ρ.token)) := by
  by_cases hnil : toks = []
  · rw [hnil]
    exact ρ.ok _ []
  · obtain ⟨hparts, hlast⟩ := Run.nested_split Symbol.separates_comma? htoks rfl
    rw [readArguments_eq hnil, readArguments_eq (List.map_eq_nil_iff.not.2 hnil), split_revised]
    refine ρ.bind (f := List.map ρ.expr) (gives_mapM (f := ρ.piece) _ ?_) fun args => ?_
    · rintro ⟨piece, u, _⟩ hpart
      exact hrun piece (some u) (hparts _ hpart).1
    · refine ρ.bind (hrun _ (some closer) hlast) fun e => ?_
      have hargs := ρ.ok (List.map ρ.expr) (args ++ [e])
      rwa [List.map_append] at hargs

section Atoms

variable {deeper deeper' : Except SyntaxFault Deeper}

theorem deeper_gives {β β' : Type} {g : β → β'} {k : Deeper → Except SyntaxFault β}
    {k' : Deeper → Except SyntaxFault β'} (hdeeper : ρ.KeepsDeeper deeper deeper')
    (hk : ∀ d d', ρ.KeepsRun d.run d'.run → ρ.KeepsAtom d.atom d'.atom →
      ρ.Gives g (k d) (k' d')) :
    ρ.Gives g (deeper >>= k) (deeper' >>= k') := by
  cases hdeeper with
  | tooDeep => exact ρ.tooDeep _
  | ok hrun hatom => exact hk _ _ hrun hatom

theorem readChain_gives (hdeeper : ρ.KeepsDeeper deeper deeper')
    (first : Token) (next : Option Token) (v : Variable) {toks : List Token}
    (htoks : Balanced toks) :
    ρ.Gives ρ.expr (readChain deeper first next v toks)
      (readChain deeper' (ρ.token first) (next.map ρ.token) (ρ.place v) (toks.map ρ.token)) := by
  induction hlen : toks.length using Nat.strongRecOn generalizing v toks with
  | _ len ih =>
    cases toks with
    | nil =>
      rw [readChain_eq, readChain_eq]
      exact ρ.ok ρ.expr (.var v)
    | cons t ts =>
      rw [List.length_cons] at hlen
      rw [List.map_cons, readChain_eq, readChain_eq deeper' (ρ.token first)]
      dsimp only
      rw [isSymbol_token, isSymbol_token, isSymbol_token]
      split
      case isTrue ht =>
        have hopen := Token.symbol?_of_lexeme (Token.isSymbol_iff.1 ht)
        refine closeBracket_gives htoks hopen rfl next fun b _ hinner _ => ?_
        cases v with
        | name callee s =>
          refine deeper_gives hdeeper fun d d' hrun _ => ?_
          refine ρ.bind (readArguments_gives hrun b.closer hinner) fun args => ?_
          refine ρ.bind (expectEnd_gives b.rest) fun _ => ?_
          have hcall := ρ.ok ρ.expr (.call callee args ⟨first.extent, t.extent, b.closer.extent⟩)
          rw [expr, exprs_eq, span, ← ρ.extent_token, ← ρ.extent_token, ← ρ.extent_token] at hcall
          exact hcall
        | index => exact ρ.unexpected _ _ (some t) (by decide)
        | member => exact ρ.unexpected _ _ (some t) (by decide)
      split
      case isTrue ht =>
        have hopen := Token.symbol?_of_lexeme (Token.isSymbol_iff.1 ht)
        refine closeBracket_gives htoks hopen rfl next fun b hclose hinner hrest => ?_
        have hshort := Run.length_closeFrom_lt hclose
        refine deeper_gives hdeeper fun d d' hrun _ => ?_
        refine ρ.bind (hrun b.inner (some b.closer) hinner) fun e => ?_
        have hindex := ih b.rest.length (by omega)
          (.index v e ⟨first.extent, t.extent, b.closer.extent⟩) hrest rfl
        rw [place, span, ← ρ.extent_token, ← ρ.extent_token, ← ρ.extent_token] at hindex
        exact hindex
      split
      case isTrue ht =>
        have hts : Balanced ts := (htoks.tail fun s hs => by
          rw [Token.symbol?_of_lexeme (Token.isSymbol_iff.1 ht)] at hs
          cases hs
          rfl).2.2
        cases ts with
        | nil => exact ρ.unexpected _ _ next (by decide)
        | cons m ts =>
          rw [List.length_cons] at hlen
          rw [List.map_cons]
          dsimp only
          rcases ρ.lexeme_cases m with hm | ⟨_, _, _, _, hm, hm'⟩
          · rw [hm]
            split
            case h_1 member hlexeme =>
              have hrest : Balanced ts := (hts.tail fun s hs => by
                rw [Token.symbol?, hlexeme] at hs
                cases hs).2.2
              have hmember := ih ts.length (by omega)
                (.member v member ⟨first.extent, t.extent, m.extent⟩) hrest rfl
              rw [place, span, ← ρ.extent_token, ← ρ.extent_token, ← ρ.extent_token] at hmember
              exact hmember
            case h_2 => exact ρ.unexpected _ _ (some m) (by decide)
          · rw [hm, hm']
            exact ρ.unexpected _ _ (some m) (by decide)
      · exact ρ.unexpected _ _ (some t) (by decide)

/-- A number is a constant if nothing follows it. -/
theorem readAtom_number {t : Token} {n : Nat} (ht : t.number? = some n) (ts : List Token)
    (next : Option Token) :
    readAtom deeper t ts next = (expectEnd ts >>= fun _ => t.word n >>= fun v =>
      .ok (.uint v (.single t.extent))) := by
  obtain ⟨radix, digits, hlexeme⟩ := Token.lexeme_of_number? ht
  rw [Token.number?, hlexeme] at ht
  cases ht
  rw [readAtom, hlexeme, Token.word]
  dsimp only
  split <;> rfl

/-- An atom reader keeps to another one if the readers of what stands inside do. -/
theorem readAtom_keeps (hdeeper : ρ.KeepsDeeper deeper deeper') :
    ρ.KeepsAtom (readAtom deeper) (readAtom deeper') := by
  intro t ts next htoks
  cases hn : t.number? with
  | some n =>
    obtain ⟨n', hn', hword, -⟩ := ρ.number_token hn
    rw [readAtom_number hn, readAtom_number hn']
    refine ρ.bind (expectEnd_gives ts) fun _ => ρ.bind hword fun v => ?_
    rw [ρ.extent_token]
    exact ρ.ok ρ.expr (.uint v (.single t.extent))
  | none =>
    rw [readAtom.eq_def, readAtom.eq_def deeper' (ρ.token t)]
    dsimp only
    rw [ρ.lexeme_token hn]
    split
    case h_1 hlexeme =>
      have hopen := Token.symbol?_of_lexeme hlexeme
      refine closeBracket_gives htoks hopen rfl next fun b _ hinner _ => ?_
      refine ρ.bind (expectEnd_gives b.rest) fun _ => ?_
      refine deeper_gives hdeeper fun d d' hrun _ => ?_
      refine ρ.bind (hrun b.inner (some b.closer) hinner) fun e => ?_
      have hparen := ρ.ok ρ.expr (e.withSpan ⟨t.extent, e.span.main, b.closer.extent⟩)
      rw [← withSpan_expr, ← span_expr, ← ρ.extent_token, ← ρ.extent_token] at hparen
      exact hparen
    case h_2 hlexeme =>
      have hopen := Token.symbol?_of_lexeme hlexeme
      refine closeBracket_gives htoks hopen rfl next fun b _ _ _ => ?_
      refine ρ.bind (expectEnd_gives b.rest) fun _ => ?_
      refine ρ.bind (readBytes_gives b.closer b.inner []) fun value => ?_
      have hbytes := ρ.ok ρ.expr (.bytes value ⟨t.extent, t.extent, b.closer.extent⟩)
      rw [expr, span, ← ρ.extent_token, ← ρ.extent_token] at hbytes
      exact hbytes
    case h_3 s _ _ hlexeme =>
      cases hop : UnaryOperator.ofSymbol? s with
      | none => exact ρ.unexpected _ _ (some t) (by decide)
      | some op =>
        have hts : Balanced ts := (htoks.tail fun s' hs' => by
          rw [Token.symbol?_of_lexeme hlexeme] at hs'
          cases hs'
          cases s <;> first | rfl | cases hop).2.2
        cases ts with
        | nil => exact ρ.unexpected _ _ next (by decide)
        | cons u us =>
          refine deeper_gives hdeeper fun d d' _ hatom => ?_
          refine ρ.bind (hatom u us next hts) fun e => ?_
          have hunary := ρ.ok ρ.expr (.unary op e ⟨t.extent, t.extent, e.span.last⟩)
          rw [expr, span, ← ρ.extent_token] at hunary
          rw [span_expr]
          exact hunary
    case h_4 radix digits hlexeme =>
      rw [Token.number?, hlexeme] at hn
      cases hn
    case h_5 body _ =>
      refine ρ.bind (expectEnd_gives ts) fun _ => ?_
      rw [ρ.extent_token]
      exact ρ.ok ρ.expr (.bytes (Text.utf8 body.toList) (.single t.extent))
    case h_6 name hlexeme =>
      split
      · exact ρ.unexpected _ _ (some t) (by decide)
      · have hts : Balanced ts := (htoks.tail fun s hs => by
          rw [Token.symbol?, hlexeme] at hs
          cases hs).2.2
        have hchain := readChain_gives hdeeper t next (.name name (.single t.extent)) hts
        rw [ρ.extent_token]
        exact hchain
    case h_7 => exact ρ.unexpected _ _ (some t) (by decide)

theorem readAtomAt_keeps (depth : Nat) :
    ρ.KeepsAtom (readAtomAt depth) (readAtomAt depth) := by
  induction depth with
  | zero =>
    rw [readAtomAt]
    exact readAtom_keeps .tooDeep
  | succ depth ih =>
    rw [readAtomAt]
    exact readAtom_keeps (.ok (readLevels_keeps ih _) ih)

end Atoms

/-! ## Statements -/

/-- A reader keeps to a revision, where `f` revises what is read. -/
def Keeps {α : Type} (ρ : Revision) (f : α → α) (r : Reader α) : Prop :=
  ∀ toks, ρ.Gives (Prod.map f (List.map ρ.token)) (r toks) (r (toks.map ρ.token))

theorem readExpr_keeps (depth : Nat) : ρ.Keeps ρ.expr (readExpr depth) := by
  intro toks
  refine ρ.bindOk (collect_gives toks) ?_
  rintro ⟨run, rest⟩ hcollect
  have hrun := readLevels_keeps (readAtomAt_keeps (ρ := ρ) depth) Level.all run rest.head?
    (Run.nested_collect hcollect)
  rw [← List.head?_map] at hrun
  exact ρ.bind hrun fun e => ρ.ok _ (e, rest)

theorem readSymbol_keeps (s : Symbol) : ρ.Keeps ρ.token (readSymbol s) := by
  intro toks
  cases toks with
  | nil => exact ρ.unexpected _ _ none nofun
  | cons t ts =>
    rw [List.map_cons, readSymbol, readSymbol, isSymbol_token]
    split
    · exact ρ.ok _ (t, ts)
    · exact ρ.unexpected _ _ (some t) nofun

theorem readWord_keeps (word : String) : ρ.Keeps ρ.token (readWord word) := by
  intro toks
  cases toks with
  | nil => exact ρ.unexpected _ _ none nofun
  | cons t ts =>
    rw [List.map_cons, readWord, readWord, isIdentifier_token]
    split
    · exact ρ.ok _ (t, ts)
    · exact ρ.unexpected _ _ (some t) nofun

theorem readName_keeps {what : Expected} (hwhat : what ≠ .closingBracket) :
    ρ.Keeps (Prod.map id ρ.token) (readName what) := by
  intro toks
  cases toks with
  | nil => exact ρ.unexpected _ _ none hwhat
  | cons t ts =>
    rw [List.map_cons, readName, readName, definableName?_token]
    split
    case h_1 name _ => exact ρ.ok _ ((name, t), ts)
    case h_2 => exact ρ.unexpected _ _ (some t) hwhat

section Statements

variable {expr : Reader Expr} {stmt : Reader Stmt} {branch : Reader Block}
  {deeper : Except SyntaxFault (Reader Stmt)}

theorem readCondition_keeps (hexpr : ρ.Keeps ρ.expr expr) :
    ρ.Keeps ρ.expr (readCondition expr) := by
  intro toks
  refine ρ.bind (readSymbol_keeps _ toks) fun (_, toks) => ?_
  refine ρ.bind (hexpr toks) fun (e, toks) => ?_
  exact ρ.bind (readSymbol_keeps _ toks) fun (_, toks) => ρ.ok _ (e, toks)

theorem readStmts_gives (hstmt : ρ.Keeps ρ.stmt stmt) (fuel : Nat) (toks : List Token)
    (acc : List Stmt) :
    ρ.Gives (Prod.map (Prod.map (List.map ρ.stmt) ρ.token) (List.map ρ.token))
      (readStmts stmt fuel toks acc)
      (readStmts stmt fuel (toks.map ρ.token) (acc.map ρ.stmt)) := by
  induction fuel generalizing toks acc with
  | zero =>
    cases toks with
    | nil => exact ρ.unexpected _ _ none (by decide)
    | cons t ts => exact ρ.unexpected _ _ (some t) (by decide)
  | succ fuel ih =>
    cases toks with
    | nil => exact ρ.unexpected _ _ none (by decide)
    | cons t ts =>
      rw [List.map_cons, readStmts_succ, readStmts_succ, isSymbol_token]
      split
      · rw [← List.map_reverse]
        exact ρ.ok _ ((acc.reverse, t), ts)
      · exact ρ.bind (hstmt (t :: ts)) fun (s, rest) => ih rest (s :: acc)

/-- The readers for one level deeper keep to a revision, or there are none. -/
def KeepsInner (ρ : Revision) : Except SyntaxFault (Reader Stmt) → Prop
  | .ok r => ρ.Keeps ρ.stmt r
  | .error e => e = .tooDeep

theorem inner_gives {β β' : Type} {g : β → β'} {k : Reader Stmt → Except SyntaxFault β}
    {k' : Reader Stmt → Except SyntaxFault β'} (hdeeper : ρ.KeepsInner deeper)
    (hk : ∀ r, ρ.Keeps ρ.stmt r → ρ.Gives g (k r) (k' r)) :
    ρ.Gives g (deeper >>= k) (deeper >>= k') := by
  cases deeper with
  | error e =>
    cases hdeeper
    exact ρ.tooDeep _
  | ok r => exact hk r hdeeper

theorem readBlock_keeps (fuel : Nat) (hdeeper : ρ.KeepsInner deeper) :
    ρ.Keeps ρ.block (readBlock fuel deeper) := by
  intro toks
  refine inner_gives hdeeper fun r hr => ?_
  refine ρ.bind (readSymbol_keeps _ toks) fun (opener, toks) => ?_
  refine ρ.bind (readStmts_gives hr fuel toks []) fun ((ss, closer), toks) => ?_
  have hblock := ρ.ok (Prod.map ρ.block (List.map ρ.token))
    (⟨ss, ⟨opener.extent, opener.extent, closer.extent⟩⟩, toks)
  rw [Prod.map, block_eq, span, ← ρ.extent_token, ← ρ.extent_token] at hblock
  exact hblock

theorem readBranch_keeps (fuel : Nat) (hdeeper : ρ.KeepsInner deeper) :
    ρ.Keeps ρ.block (readBranch fuel deeper) := by
  intro toks
  rw [readBranch, readBranch, any_head?_token]
  split
  · exact readBlock_keeps fuel hdeeper toks
  · refine inner_gives hdeeper fun r hr => ?_
    refine ρ.bind (hr toks) fun (s, toks) => ?_
    have hblock := ρ.ok (Prod.map ρ.block (List.map ρ.token)) (⟨[s], s.span⟩, toks)
    rw [Prod.map, block_eq, ← span_stmt] at hblock
    exact hblock

theorem readValues_gives (hexpr : ρ.Keeps ρ.expr expr) (fuel : Nat) (toks : List Token)
    (acc : List Expr) :
    ρ.Gives (Prod.map (List.map ρ.expr) (List.map ρ.token)) (readValues expr fuel toks acc)
      (readValues expr fuel (toks.map ρ.token) (acc.map ρ.expr)) := by
  induction fuel generalizing toks acc with
  | zero =>
    cases toks with
    | nil =>
      rw [List.map_nil, readValues, readValues, ← List.map_reverse]
      exact ρ.ok _ (acc.reverse, [])
    | cons t ts => exact ρ.unexpected _ _ (some t) (by decide)
  | succ fuel ih =>
    cases toks with
    | nil =>
      rw [List.map_nil, readValues, readValues, ← List.map_reverse]
      exact ρ.ok _ (acc.reverse, [])
    | cons t ts =>
      rw [List.map_cons, readValues_succ, readValues_succ, isSymbol_token]
      split
      · exact ρ.bind (hexpr ts) fun (e, rest) => ih rest (e :: acc)
      · rw [← List.map_reverse]
        exact ρ.ok _ (acc.reverse, t :: ts)

theorem readCase_gives (fuel : Nat) (hexpr : ρ.Keeps ρ.expr expr)
    (hblock : ρ.Keeps ρ.block branch) (t : Token) (toks : List Token) :
    ρ.Gives (Prod.map ρ.case (List.map ρ.token)) (readCase fuel expr branch t toks)
      (readCase fuel expr branch (ρ.token t) (toks.map ρ.token)) := by
  refine ρ.bind (hexpr toks) fun (value, toks) => ?_
  refine ρ.bind (readValues_gives hexpr fuel toks [value]) fun (values, toks) => ?_
  refine ρ.bind (hblock toks) fun (body, toks) => ?_
  have hcase := ρ.ok (Prod.map ρ.case (List.map ρ.token))
    (⟨values, body, ⟨t.extent, t.extent, body.span.last⟩⟩, toks)
  rw [Prod.map, case, span, ← ρ.extent_token] at hcase
  dsimp only [Prod.map]
  rw [span_block]
  exact hcase

/-- The cases of a switch, revised. -/
def switchBody (ρ : Revision) (b : SwitchBody) : SwitchBody :=
  ⟨b.cases.map ρ.case, b.otherwise.map ρ.block, ρ.token b.closer⟩

theorem readCases_gives (hexpr : ρ.Keeps ρ.expr expr) (hblock : ρ.Keeps ρ.block branch)
    (fuel : Nat) (toks : List Token) (acc : List Case) :
    ρ.Gives (Prod.map ρ.switchBody (List.map ρ.token)) (readCases expr branch fuel toks acc)
      (readCases expr branch fuel (toks.map ρ.token) (acc.map ρ.case)) := by
  induction fuel generalizing toks acc with
  | zero =>
    cases toks with
    | nil => exact ρ.unexpected _ _ none (by decide)
    | cons t ts => exact ρ.unexpected _ _ (some t) (by decide)
  | succ fuel ih =>
    cases toks with
    | nil => exact ρ.unexpected _ _ none (by decide)
    | cons t ts =>
      rw [List.map_cons, readCases_succ, readCases_succ, isSymbol_token, isIdentifier_token,
        isIdentifier_token]
      split
      · rw [← List.map_reverse]
        exact ρ.ok _ (SwitchBody.mk acc.reverse none t, ts)
      split
      · exact ρ.bind (readCase_gives fuel hexpr hblock t ts) fun (c, rest) => ih rest (c :: acc)
      split
      · refine ρ.bind (hblock ts) fun (body, rest) => ?_
        refine ρ.bind (readSymbol_keeps _ rest) fun (closer, rest) => ?_
        rw [← List.map_reverse]
        exact ρ.ok _ (SwitchBody.mk acc.reverse (some body) closer, rest)
      · exact ρ.unexpected _ _ (some t) (by decide)

theorem readIf_gives (hexpr : ρ.Keeps ρ.expr expr) (hbranch : ρ.Keeps ρ.block branch)
    (t : Token) (toks : List Token) :
    ρ.Gives (Prod.map ρ.stmt (List.map ρ.token)) (readIf expr branch t toks)
      (readIf expr branch (ρ.token t) (toks.map ρ.token)) := by
  refine ρ.bind (readCondition_keeps hexpr toks) fun (c, toks) => ?_
  refine ρ.bind (hbranch toks) fun (b, toks) => ?_
  dsimp only [Prod.map]
  have halone := fun toks => ρ.ok (Prod.map ρ.stmt (List.map ρ.token))
    (.ifElse c b none ⟨t.extent, t.extent, b.span.last⟩, toks)
  simp only [Prod.map, Amendment.stmt, span, ← ρ.extent_token] at halone
  rw [span_block]
  cases toks with
  | nil => exact halone []
  | cons e rest =>
    rw [List.map_cons]
    dsimp only
    rw [isIdentifier_token]
    split
    · refine ρ.bind (hbranch rest) fun (b', toks) => ?_
      have hboth := ρ.ok (Prod.map ρ.stmt (List.map ρ.token))
        (.ifElse c b (some b') ⟨t.extent, t.extent, b'.span.last⟩, toks)
      rw [Prod.map, Amendment.stmt, span, ← ρ.extent_token] at hboth
      dsimp only [Prod.map]
      rw [span_block]
      exact hboth
    · exact halone (e :: rest)

theorem readWhile_gives (hexpr : ρ.Keeps ρ.expr expr) (hbranch : ρ.Keeps ρ.block branch)
    (t : Token) (toks : List Token) :
    ρ.Gives (Prod.map ρ.stmt (List.map ρ.token)) (readWhile expr branch t toks)
      (readWhile expr branch (ρ.token t) (toks.map ρ.token)) := by
  refine ρ.bind (readCondition_keeps hexpr toks) fun (c, toks) => ?_
  refine ρ.bind (hbranch toks) fun (b, toks) => ?_
  have hloop := ρ.ok (Prod.map ρ.stmt (List.map ρ.token))
    (.whileDo c b ⟨t.extent, t.extent, b.span.last⟩, toks)
  rw [Prod.map, Amendment.stmt, span, ← ρ.extent_token] at hloop
  dsimp only [Prod.map]
  rw [span_block]
  exact hloop

theorem readDo_gives (hexpr : ρ.Keeps ρ.expr expr) (hblock : ρ.Keeps ρ.block branch)
    (t : Token) (toks : List Token) :
    ρ.Gives (Prod.map ρ.stmt (List.map ρ.token)) (readDo expr branch t toks)
      (readDo expr branch (ρ.token t) (toks.map ρ.token)) := by
  refine ρ.bind (hblock toks) fun (b, toks) => ?_
  refine ρ.bind (readWord_keeps _ toks) fun (_, toks) => ?_
  refine ρ.bind (readCondition_keeps hexpr toks) fun (c, toks) => ?_
  refine ρ.bind (readSymbol_keeps _ toks) fun (semicolon, toks) => ?_
  have hloop := ρ.ok (Prod.map ρ.stmt (List.map ρ.token))
    (.doWhile b c ⟨t.extent, t.extent, semicolon.extent⟩, toks)
  rw [Prod.map, Amendment.stmt, span, ← ρ.extent_token, ← ρ.extent_token] at hloop
  exact hloop

theorem readSwitch_gives (fuel : Nat) (hexpr : ρ.Keeps ρ.expr expr)
    (hblock : ρ.Keeps ρ.block branch) (t : Token) (toks : List Token) :
    ρ.Gives (Prod.map ρ.stmt (List.map ρ.token)) (readSwitch fuel expr branch t toks)
      (readSwitch fuel expr branch (ρ.token t) (toks.map ρ.token)) := by
  refine ρ.bind (readCondition_keeps hexpr toks) fun (e, toks) => ?_
  refine ρ.bind (readSymbol_keeps _ toks) fun (_, toks) => ?_
  refine ρ.bind (readCases_gives hexpr hblock fuel toks []) fun (body, toks) => ?_
  obtain ⟨cs, d, closer⟩ := body
  have hswitch := ρ.ok (Prod.map ρ.stmt (List.map ρ.token))
    (.switch e cs d ⟨t.extent, t.extent, closer.extent⟩, toks)
  cases d with
  | none | some =>
    rw [Prod.map, Amendment.stmt, cases_eq, span, ← ρ.extent_token, ← ρ.extent_token] at hswitch
    exact hswitch

theorem readLeave_gives (hexpr : ρ.Keeps ρ.expr expr) (kind : Leaving) (t : Token)
    (toks : List Token) :
    ρ.Gives (Prod.map ρ.stmt (List.map ρ.token)) (readLeave expr kind t toks)
      (readLeave expr kind (ρ.token t) (toks.map ρ.token)) := by
  have hleave := fun value (semicolon : Token) toks =>
    ρ.ok (Prod.map ρ.stmt (List.map ρ.token))
      (.leave kind value ⟨t.extent, t.extent, semicolon.extent⟩, toks)
  simp only [Prod.map, Amendment.stmt, span, ← ρ.extent_token] at hleave
  rw [readLeave, readLeave, any_head?_token]
  split
  · exact ρ.bind (readSymbol_keeps _ toks) fun (semicolon, toks) => hleave none semicolon toks
  · refine ρ.bind (hexpr toks) fun (e, toks) => ?_
    exact ρ.bind (readSymbol_keeps _ toks) fun (semicolon, toks) => hleave (some e) semicolon toks

theorem readExprStmt_keeps (hexpr : ρ.Keeps ρ.expr expr) :
    ρ.Keeps ρ.stmt (readExprStmt expr) := by
  intro toks
  refine ρ.bind (hexpr toks) fun (e, toks) => ?_
  exact ρ.bind (readSymbol_keeps _ toks) fun (_, toks) => ρ.ok _ (Stmt.expr e, toks)

/-- A statement reader keeps to a revision if the readers of what stands inside do. -/
theorem readStmt_keeps (fuel : Nat) (hexpr : ρ.Keeps ρ.expr expr)
    (hdeeper : ρ.KeepsInner deeper) : ρ.Keeps ρ.stmt (readStmt fuel expr deeper) := by
  have hblock := readBlock_keeps fuel hdeeper
  have hbranch := readBranch_keeps fuel hdeeper
  intro toks
  cases toks with
  | nil => exact ρ.unexpected _ _ none (by decide)
  | cons t ts =>
    rw [List.map_cons, readStmt, readStmt]
    rcases ρ.lexeme_cases t with h | ⟨_, _, _, _, h, h'⟩
    · rw [h]
      split
      · exact readIf_gives hexpr hbranch t ts
      · exact readWhile_gives hexpr hbranch t ts
      · exact readDo_gives hexpr hblock t ts
      · exact readSwitch_gives fuel hexpr hblock t ts
      · exact readLeave_gives hexpr _ t ts
      · exact readLeave_gives hexpr _ t ts
      · exact readLeave_gives hexpr _ t ts
      · exact ρ.unsupported _ _ t
      · exact ρ.unsupported _ _ t
      · exact ρ.unsupported _ _ t
      · exact readExprStmt_keeps hexpr (t :: ts)
    · rw [h, h']
      exact readExprStmt_keeps hexpr (t :: ts)

theorem readStmtAt_keeps (fuel depth : Nat) : ρ.Keeps ρ.stmt (readStmtAt fuel depth) := by
  induction depth with
  | zero => exact readStmt_keeps fuel (readExpr_keeps 0) rfl
  | succ depth ih => exact readStmt_keeps fuel (readExpr_keeps _) ih

end Statements

/-! ## Programs -/

theorem readParams_gives (toks : List Token) (acc : List String) :
    ρ.Gives (Prod.map id (List.map ρ.token)) (readParams toks acc)
      (readParams (toks.map ρ.token) acc) := by
  induction hlen : toks.length using Nat.strongRecOn generalizing toks acc with
  | _ len ih =>
    cases toks with
    | nil => exact ρ.unexpected _ _ none (by decide)
    | cons t ts =>
      rw [List.map_cons, readParams.eq_def, readParams.eq_def (ρ.token t :: _)]
      dsimp only
      rw [definableName?_token]
      cases t.definableName? with
      | none => exact ρ.unexpected _ _ (some t) (by decide)
      | some name =>
        cases ts with
        | nil => exact ρ.ok _ ((name :: acc).reverse, [])
        | cons c rest =>
          rw [List.length_cons, List.length_cons] at hlen
          rw [List.map_cons]
          dsimp only
          rw [isSymbol_token]
          split
          · exact ih rest.length (by omega) rest _ rfl
          · exact ρ.ok _ ((name :: acc).reverse, c :: rest)

theorem readParamList_keeps : ρ.Keeps id readParamList := by
  intro toks
  rw [readParamList, readParamList, any_head?_token]
  split
  · exact ρ.ok _ ([], toks)
  · exact readParams_gives toks []

theorem readFunction_keeps (fuel : Nat) : ρ.Keeps ρ.function (readFunction fuel) := by
  intro toks
  refine ρ.bind (readWord_keeps _ toks) fun (t, toks) => ?_
  refine ρ.bind (readName_keeps (by decide) toks) fun ((name, nameToken), toks) => ?_
  refine ρ.bind (readSymbol_keeps _ toks) fun (_, toks) => ?_
  refine ρ.bind (readParamList_keeps toks) fun (params, toks) => ?_
  refine ρ.bind (readSymbol_keeps _ toks) fun (_, toks) => ?_
  have hbody : ρ.Keeps ρ.block (readBlock fuel (.ok (readStmtAt fuel (maxDepth - 1)))) :=
    readBlock_keeps fuel (readStmtAt_keeps fuel _)
  refine ρ.bind (hbody toks) fun (body, toks) => ?_
  have hfunction := ρ.ok (Prod.map ρ.function (List.map ρ.token))
    (⟨name, params, body, ⟨t.extent, nameToken.extent, body.span.last⟩⟩, toks)
  rw [Prod.map, function, span, ← ρ.extent_token, ← ρ.extent_token] at hfunction
  dsimp only [Prod.map]
  rw [span_block]
  exact hfunction

theorem readFunctions_gives {function : Reader Function}
    (hfunction : ρ.Keeps ρ.function function) (fuel : Nat) (toks : List Token)
    (acc : List Function) :
    ρ.Gives (List.map ρ.function) (readFunctions function fuel toks acc)
      (readFunctions function fuel (toks.map ρ.token) (acc.map ρ.function)) := by
  induction fuel generalizing toks acc with
  | zero =>
    cases toks with
    | nil =>
      rw [List.map_nil, readFunctions, readFunctions, ← List.map_reverse]
      exact ρ.ok _ acc.reverse
    | cons t ts => exact ρ.unexpected _ _ (some t) (by decide)
  | succ fuel ih =>
    cases toks with
    | nil =>
      rw [List.map_nil, readFunctions, readFunctions, ← List.map_reverse]
      exact ρ.ok _ acc.reverse
    | cons t ts =>
      rw [List.map_cons, readFunctions_succ, readFunctions_succ]
      exact ρ.bind (hfunction (t :: ts)) fun (f, rest) => ih rest (f :: acc)

end Revision

/-- The functions of a source and of the revised one. -/
theorem Program.ofTokens_revised (ρ : Revision) (toks toks' : List Token)
    (h : toks'.filter (!·.isComment) = (toks.filter (!·.isComment)).map ρ.token) :
    ρ.Gives (List.map ρ.function) ((Program.ofTokens toks).map Program.functions)
      ((Program.ofTokens toks').map Program.functions) := by
  have hfunctions : ∀ toks : List Token,
      (Program.ofTokens toks).map Program.functions =
        readFunctions (readFunction (toks.filter (!·.isComment)).length)
          (toks.filter (!·.isComment)).length (toks.filter (!·.isComment)) [] := by
    intro toks
    unfold Program.ofTokens
    dsimp only
    cases readFunctions _ _ _ _ <;> rfl
  rw [hfunctions, hfunctions, h, List.length_map]
  exact Revision.readFunctions_gives (Revision.readFunction_keeps _) _ _ []

end ContractCompiler
