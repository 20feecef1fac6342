import ContractCompiler.Proofs.Syntax.ExprProvenance

/-!
# Brackets in runs

A run is cut out of the tokens so that its brackets are balanced. Afterwards brackets are told apart
no more: a run is searched for operators, commas and the end of a bracket by counting how many
brackets are open. In balanced tokens, counting finds what belongs together.
-/

namespace ContractCompiler

/-- A token that is no bracket and no brace. -/
def Token.IsPlain (t : Token) : Prop :=
  ∀ s, t.symbol? = some s → s.closer? = none ∧ Run.endsBracket s = false

namespace Symbol

theorem isOpening_of_closer? {s c : Symbol} (h : s.closer? = some c) : s.isOpening = true := by
  cases s <;> first | rfl | cases h

theorem isClosing_of_closer? {s c : Symbol} (h : s.closer? = some c) :
    c.isOpening = false ∧ c.isClosing = true := by
  cases s <;> cases h <;> exact ⟨rfl, rfl⟩

theorem isOpening_of_closer?_eq_none {s : Symbol} (h : s.closer? = none) : s.isOpening = false := by
  cases s <;> first | rfl | cases h

theorem isClosing_of_endsBracket {s : Symbol} (h : Run.endsBracket s = false) :
    s.isClosing = false := by
  cases s <;> first | rfl | cases h

end Symbol

theorem Token.IsPlain.counted {t : Token} (h : t.IsPlain) {s : Symbol} (hs : t.symbol? = some s) :
    s.isOpening = false ∧ s.isClosing = false :=
  ⟨Symbol.isOpening_of_closer?_eq_none (h s hs).1, Symbol.isClosing_of_endsBracket (h s hs).2⟩

namespace Run

/-- Tokens with balanced brackets. Those outside all brackets satisfy `P`. -/
inductive Nested : (Token → Prop) → List Token → Prop where
  | nil {P : Token → Prop} : Nested P []
  | token {P : Token → Prop} {t : Token} {ts : List Token} (hplain : t.IsPlain) (ht : P t)
      (hts : Nested P ts) : Nested P (t :: ts)
  | bracket {P : Token → Prop} {o c : Token} {s s' : Symbol} {inner rest : List Token}
      (ho : o.symbol? = some s) (hc : c.symbol? = some s') (hs : s.closer? = some s')
      (hinner : Nested (fun _ => True) inner) (hrest : Nested P rest) :
    Nested P (o :: (inner ++ c :: rest))

/-- Tokens with balanced brackets. -/
abbrev Balanced (toks : List Token) : Prop :=
  Nested (fun _ => True) toks

namespace Nested

variable {P Q : Token → Prop} {t o : Token} {ts a b : List Token} {s s' : Symbol}

theorem mono (h : Nested P ts) (hPQ : ∀ t, P t → Q t) : Nested Q ts := by
  induction h with
  | nil => exact .nil
  | token hplain ht _ ih => exact .token hplain (hPQ _ ht) (ih hPQ)
  | bracket ho hc hs hinner _ _ ih => exact .bracket ho hc hs hinner (ih hPQ)

theorem balanced (h : Nested P ts) : Balanced ts :=
  h.mono fun _ _ => trivial

theorem append (ha : Nested P a) (hb : Nested P b) : Nested P (a ++ b) := by
  induction ha with
  | nil => exact hb
  | token hplain ht _ ih => exact .token hplain ht (ih hb)
  | bracket ho hc hs hinner _ _ ih =>
    rw [List.cons_append, List.append_assoc, List.cons_append]
    exact .bracket ho hc hs hinner (ih hb)

theorem singleton (hplain : t.IsPlain) (ht : P t) : Nested P [t] :=
  .token hplain ht .nil

/-- What follows a token that opens nothing. -/
theorem tail (h : Nested P (t :: ts)) (ht : ∀ s, t.symbol? = some s → s.closer? = none) :
    t.IsPlain ∧ P t ∧ Nested P ts := by
  cases h with
  | token hplain hP hts => exact ⟨hplain, hP, hts⟩
  | bracket ho _ hs _ _ => cases (ht _ ho).symm.trans hs

/-- What follows a token that opens a bracket. -/
theorem opened (h : Nested P (o :: ts)) (ho : o.symbol? = some s) (hs : s.closer? = some s') :
    ∃ inner c rest, ts = inner ++ c :: rest ∧ c.symbol? = some s' ∧ Balanced inner ∧
      Nested P rest := by
  cases h with
  | token hplain _ _ =>
    cases (hplain s ho).1.symm.trans hs
  | bracket ho' hc hs' hinner hrest =>
    cases ho.symm.trans ho'
    cases hs.symm.trans hs'
    exact ⟨_, _, _, rfl, hc, hinner, hrest⟩

end Nested

/-! ## Collecting a run -/

/-- The tokens before a place where brackets are open: `closers` close them, innermost first. The
tokens are in reverse. -/
inductive Open : (closers : List Symbol) → (acc : List Token) → Prop where
  | outside {acc : List Token} (h : Balanced acc.reverse) : Open [] acc
  | inside {closers : List Symbol} {acc inner : List Token} {o : Token} {s c : Symbol}
      (hacc : Open closers acc) (ho : o.symbol? = some s) (hs : s.closer? = some c)
      (hinner : Balanced inner.reverse) : Open (c :: closers) (inner ++ o :: acc)

namespace Open

variable {closers : List Symbol} {acc : List Token} {t : Token} {s c : Symbol}

theorem append (h : Open closers acc) {toks : List Token} (htoks : Balanced toks) :
    Open closers (toks.reverse ++ acc) := by
  cases h with
  | outside h =>
    refine .outside ?_
    rw [List.reverse_append, List.reverse_reverse]
    exact h.append htoks
  | inside hacc ho hs hinner =>
    rw [← List.append_assoc]
    refine .inside hacc ho hs ?_
    rw [List.reverse_append, List.reverse_reverse]
    exact hinner.append htoks

theorem plain (h : Open closers acc) (ht : t.IsPlain) : Open closers (t :: acc) :=
  h.append (.singleton ht trivial)

theorem symbol (h : Open closers acc) (ht : t.symbol? = some s) (hends : endsBracket s = false) :
    Open (opened s closers) (t :: acc) := by
  cases hs : s.closer? with
  | some c =>
    rw [opened, hs]
    have hinside : Open (c :: closers) ([] ++ t :: acc) := .inside h ht hs .nil
    exact hinside
  | none =>
    rw [opened, hs]
    refine h.plain fun s' hs' => ?_
    cases ht.symm.trans hs'
    exact ⟨hs, hends⟩

theorem close (h : Open (c :: closers) acc) (ht : t.symbol? = some c) :
    Open closers (t :: acc) := by
  cases h with
  | @inside _ acc inner o s _ hacc ho hs hinner =>
    have hbracket : Balanced (o :: (inner.reverse ++ [t])) := .bracket ho ht hs hinner .nil
    have happend := hacc.append hbracket
    simpa using happend

end Open

theorem endsBracket_of_isTerminator {s : Symbol} (h : isTerminator s = false) :
    endsBracket s = false := by
  cases s <;> first | rfl | cases h

theorem endsBracket_of_closer? {s c : Symbol} (h : s.closer? = some c) :
    endsBracket s = false ∧ endsBracket c = true := by
  cases s <;> cases h <;> exact ⟨rfl, rfl⟩

theorem isTerminator_of_closer? {s c : Symbol} (h : s.closer? = some c) :
    isTerminator s = false := by
  cases s <;> first | rfl | cases h

theorem open_collectOnto {toks acc run rest : List Token} {closers : List Symbol}
    (h : collectOnto toks closers acc = .ok (run, rest)) (hacc : Open closers acc) :
    Balanced run.reverse := by
  fun_induction collectOnto toks closers acc with
  | case1 =>
    cases h
    cases hacc with
    | outside hacc => exact hacc
  | case2 | case7 => cases h
  | case3 acc t ts closers hnone ih =>
    exact ih h (hacc.plain fun s hs => by cases hnone.symm.trans hs)
  | case4 =>
    cases h
    cases hacc with
    | outside hacc => exact hacc
  | case5 acc t ts s hs hterminator ih =>
    exact ih h (hacc.symbol hs (endsBracket_of_isTerminator (by simpa using hterminator)))
  | case6 t ts acc c outer hs hends ih => exact ih h (hacc.close hs)
  | case8 t ts acc s c outer hs hends ih =>
    exact ih h (hacc.symbol hs (by simpa using hends))

/-- The brackets of a run are balanced. -/
theorem nested_collect {toks run rest : List Token} (h : collect toks = .ok (run, rest)) :
    Balanced run := by
  obtain ⟨⟨acc, rest'⟩, hcollect, h⟩ := ok_of_bind h
  cases h
  exact open_collectOnto hcollect (.outside .nil)

/-- Inside a bracket, balanced tokens are collected whatever they are. -/
theorem collectOnto_inside {P : Token → Prop} {ts : List Token} (h : Nested P ts)
    (rest : List Token) (c : Symbol) (closers : List Symbol) (acc : List Token) :
    collectOnto (ts ++ rest) (c :: closers) acc =
      collectOnto rest (c :: closers) (ts.reverse ++ acc) := by
  induction h generalizing rest c closers acc with
  | nil => rfl
  | @token _ t ts hplain _ _ ih =>
    rw [List.reverse_cons, List.append_assoc, List.singleton_append, ← ih, List.cons_append,
      collectOnto.eq_def]
    cases hs : t.symbol? with
    | none => simp only [hs]
    | some s => simp [hs, hplain s hs, opened]
  | @bracket _ o c' s s' inner ts ho hc hs _ _ ihinner ih =>
    have hends := endsBracket_of_closer? hs
    rw [List.cons_append, collectOnto.eq_def]
    simp only [ho, hends.1, Bool.false_eq_true, if_false, opened, hs, Option.toList_some,
      List.singleton_append]
    rw [List.append_assoc, ihinner, List.cons_append, collectOnto.eq_def]
    simp only [hc, hends.2, if_true]
    rw [ih]
    simp

/-- Outside brackets, balanced tokens are collected up to one that ends an expression. -/
theorem collectOnto_nested {ts : List Token}
    (h : Nested (fun t => ∀ s, t.symbol? = some s → isTerminator s = false) ts)
    (rest acc : List Token) :
    collectOnto (ts ++ rest) [] acc = collectOnto rest [] (ts.reverse ++ acc) := by
  generalize hP : (fun t : Token => ∀ s, t.symbol? = some s → isTerminator s = false) = P at h
  induction h generalizing acc with
  | nil => rfl
  | @token _ t ts hplain ht _ ih =>
    subst hP
    rw [List.reverse_cons, List.append_assoc, List.singleton_append, ← ih _ rfl, List.cons_append,
      collectOnto.eq_def]
    cases hs : t.symbol? with
    | none => simp only [hs]
    | some s => simp [hs, ht s hs, (hplain s hs).1, opened]
  | @bracket _ o c s s' inner ts ho hc hs hinner _ _ ih =>
    have hends := endsBracket_of_closer? hs
    rw [List.cons_append, collectOnto.eq_def]
    simp only [ho, isTerminator_of_closer? hs, Bool.false_eq_true, if_false, opened, hs,
      Option.toList_some, List.append_nil]
    rw [List.append_assoc, collectOnto_inside hinner, List.cons_append, collectOnto.eq_def]
    simp only [hc, hends.2, if_true]
    rw [ih _ hP]
    simp

/-- A run is collected if an end of an expression follows it. -/
theorem collect_nested {run rest : List Token} {t : Token} {s : Symbol}
    (h : Nested (fun t => ∀ s, t.symbol? = some s → isTerminator s = false) run)
    (ht : t.symbol? = some s) (hs : isTerminator s = true) :
    collect (run ++ t :: rest) = .ok (run, t :: rest) := by
  rw [collect, collectOnto_nested h, collectOnto.eq_def]
  simp only [ht, hs, if_true, List.append_nil]
  show Except.ok (run.reverse.reverse, _) = _
  rw [List.reverse_reverse]

/-! ## Closing a bracket -/

/-- Balanced tokens are skipped when the end of a bracket is looked for. -/
theorem closeFrom_nested {P : Token → Prop} {ts : List Token} (h : Nested P ts)
    (rest : List Token) (depth : Nat) (acc : List Token) :
    closeFrom (ts ++ rest) depth acc = closeFrom rest depth (ts.reverse ++ acc) := by
  induction h generalizing rest depth acc with
  | nil => rfl
  | @token _ t ts hplain _ _ ih =>
    rw [List.reverse_cons, List.append_assoc, List.singleton_append, ← ih, List.cons_append,
      closeFrom.eq_def]
    dsimp only
    cases hs : t.symbol? with
    | none => rfl
    | some s => simp only [(hplain.counted hs).1, (hplain.counted hs).2, Bool.false_eq_true, if_false]
  | @bracket _ o c s s' inner ts ho hc hs _ _ ihinner ih =>
    have hclosing := Symbol.isClosing_of_closer? hs
    rw [List.cons_append, closeFrom.eq_def]
    simp only [ho, Symbol.isOpening_of_closer? hs, if_true]
    rw [List.append_assoc, ihinner, List.cons_append, closeFrom.eq_def]
    simp only [hc, hclosing.1, hclosing.2, Bool.false_eq_true, if_false, if_true]
    rw [ih]
    simp

/-- A bracket ends with the token that closes it. -/
theorem close?_nested {inner rest : List Token} {c : Token} {s : Symbol} (h : Balanced inner)
    (hc : c.symbol? = some s) (hs : s.isClosing = true) :
    close? (inner ++ c :: rest) = some ⟨inner, c, rest⟩ := by
  have hopening : s.isOpening = false := by
    cases s <;> first | rfl | cases hs
  rw [close?, closeFrom_nested h, closeFrom, hc]
  simp [hopening, hs]

/-! ## Cutting at separators -/

section Splitting

variable {β : Type} {sep : Symbol → Option β} {P : Token → Prop} {ts : List Token}

/-- Inside a bracket nothing is cut. -/
theorem splitFrom_inside (h : Nested P ts) (rest : List Token) (depth : Nat) (piece : List Token)
    (done : List (List Token × Token × β)) :
    splitFrom sep (ts ++ rest) (depth + 1) piece done =
      splitFrom sep rest (depth + 1) (ts.reverse ++ piece) done := by
  induction h generalizing rest depth piece with
  | nil => rfl
  | @token _ t ts hplain _ _ ih =>
    rw [List.cons_append, splitFrom, List.reverse_cons, List.append_assoc, List.singleton_append,
      ← ih]
    cases hs : t.symbol? with
    | none => rfl
    | some s => simp [depthAfter, (hplain.counted hs).1, (hplain.counted hs).2]
  | @bracket _ o c s s' inner ts ho hc hs _ _ ihinner ih =>
    have hclosing := Symbol.isClosing_of_closer? hs
    rw [List.cons_append, splitFrom, ho]
    simp only [depthAfter, Symbol.isOpening_of_closer? hs, if_true]
    rw [List.append_assoc, ihinner, List.cons_append, splitFrom, hc]
    simp only [depthAfter, hclosing.1, hclosing.2, Bool.false_eq_true, if_false, if_true]
    rw [Nat.add_sub_cancel, ih]
    simp

/-- A separator opens no bracket. -/
def Separates (sep : Symbol → Option β) : Prop :=
  ∀ s, s.isOpening = true → sep s = none

/-- A bracket is not cut. -/
theorem splitFrom_bracket (hsep : Separates sep) {o c : Token} {s s' : Symbol} {inner : List Token}
    (ho : o.symbol? = some s) (hc : c.symbol? = some s') (hs : s.closer? = some s')
    (hinner : Balanced inner) (rest piece : List Token) (done : List (List Token × Token × β)) :
    splitFrom sep (o :: (inner ++ c :: rest)) 0 piece done =
      splitFrom sep rest 0 (c :: (inner.reverse ++ o :: piece)) done := by
  have hopening := Symbol.isOpening_of_closer? hs
  have hclosing := Symbol.isClosing_of_closer? hs
  rw [splitFrom, ho]
  simp only [hsep s hopening, depthAfter, hopening, if_true]
  rw [splitFrom_inside hinner, splitFrom, hc]
  simp [depthAfter, hclosing.1, hclosing.2]

/-- A plain token is a separator, or it belongs to the current piece. -/
theorem splitFrom_plain {t : Token} (ht : t.IsPlain) (rest piece : List Token)
    (done : List (List Token × Token × β)) :
    splitFrom sep (t :: rest) 0 piece done =
      match t.symbol?.bind sep with
      | some b => splitFrom sep rest 0 [] ((piece.reverse, t, b) :: done)
      | none => splitFrom sep rest 0 (t :: piece) done := by
  rw [splitFrom]
  cases hs : t.symbol? with
  | none => rfl
  | some s =>
    rw [Option.bind_some]
    cases hx : sep s with
    | none => simp [hx, depthAfter, (ht.counted hs).1, (ht.counted hs).2]
    | some b => simp [hx]

/-- Cutting goes on where it stands after some balanced tokens. -/
theorem splitFrom_append (hsep : Separates sep) (h : Nested P ts) (rest piece : List Token)
    (done : List (List Token × Token × β)) :
    splitFrom sep (ts ++ rest) 0 piece done =
      splitFrom sep rest 0 (splitFrom sep ts 0 piece done).2.reverse
        (splitFrom sep ts 0 piece done).1.reverse := by
  induction h generalizing piece done with
  | nil => simp [splitFrom]
  | @token _ t ts hplain _ _ ih =>
    rw [List.cons_append, splitFrom_plain hplain, splitFrom_plain hplain]
    cases t.symbol?.bind sep with
    | some b => exact ih _ _
    | none => exact ih _ _
  | bracket ho hc hs hinner _ _ ih =>
    rw [List.cons_append, List.append_assoc, List.cons_append,
      splitFrom_bracket hsep ho hc hs hinner, splitFrom_bracket hsep ho hc hs hinner]
    exact ih _ _

theorem splitFrom_done (h : Nested P ts) (hsep : Separates sep) (piece : List Token)
    (done : List (List Token × Token × β)) :
    splitFrom sep ts 0 piece done =
      (done.reverse ++ (splitFrom sep ts 0 piece []).1, (splitFrom sep ts 0 piece []).2) := by
  induction h generalizing piece done with
  | nil => simp [splitFrom]
  | @token _ t ts hplain _ _ ih =>
    rw [splitFrom_plain hplain, splitFrom_plain hplain]
    cases t.symbol?.bind sep with
    | some b =>
      dsimp only
      rw [ih [] ((piece.reverse, t, b) :: done), ih [] [(piece.reverse, t, b)]]
      simp
    | none => exact ih _ _
  | bracket ho hc hs hinner _ _ ih =>
    rw [splitFrom_bracket hsep ho hc hs hinner, splitFrom_bracket hsep ho hc hs hinner]
    exact ih _ _

/-- Balanced tokens before and after a separator are cut on their own. -/
theorem split_append (hsep : Separates sep) {a b : List Token} {t : Token} {x : β}
    {Q : Token → Prop} (ha : Nested P a) (ht : t.IsPlain) (hx : t.symbol?.bind sep = some x) (hb : Nested Q b) :
    split sep (a ++ t :: b) =
      ((split sep a).1 ++ ((split sep a).2, t, x) :: (split sep b).1, (split sep b).2) := by
  rw [split, splitFrom_append hsep ha, splitFrom_plain ht, hx]
  dsimp only
  rw [splitFrom_done hb hsep]
  simp [split]

/-- Tokens without a separator outside brackets are one piece. -/
theorem split_nested (hsep : Separates sep)
    (h : Nested (fun t => t.symbol?.bind sep = none) ts) : split sep ts = ([], ts) := by
  have hall : ∀ piece, splitFrom sep ts 0 piece [] = ([], piece.reverse ++ ts) := by
    generalize hP : (fun t : Token => t.symbol?.bind sep = none) = P at h
    induction h with
    | nil => simp [splitFrom]
    | @token _ t ts hplain ht _ ih =>
      intro piece
      subst hP
      rw [splitFrom_plain hplain, ht]
      dsimp only
      rw [ih rfl]
      simp
    | bracket ho hc hs hinner _ _ ih =>
      intro piece
      rw [splitFrom_bracket hsep ho hc hs hinner, ih hP]
      simp
  exact hall []

/-- What pieces are cut out of balanced tokens: they are balanced, and a separator follows each but
the last. -/
theorem nested_splitFrom (hsep : Separates sep) (h : Nested P ts) {piece last : List Token}
    {done parts : List (List Token × Token × β)} (hpiece : Balanced piece.reverse)
    (hdone : ∀ part ∈ done, Balanced part.1 ∧ part.2.1.symbol?.bind sep = some part.2.2)
    (hsplit : splitFrom sep ts 0 piece done = (parts, last)) :
    (∀ part ∈ parts, Balanced part.1 ∧ part.2.1.symbol?.bind sep = some part.2.2) ∧
      Balanced last := by
  induction h generalizing piece done with
  | nil =>
    cases hsplit
    exact ⟨fun part hpart => hdone part (List.mem_reverse.1 hpart), hpiece⟩
  | @token _ t ts hplain _ _ ih =>
    rw [splitFrom_plain hplain] at hsplit
    cases hx : t.symbol?.bind sep with
    | some x =>
      rw [hx] at hsplit
      exact ih .nil (List.forall_mem_cons.2 ⟨⟨hpiece, hx⟩, hdone⟩) hsplit
    | none =>
      rw [hx] at hsplit
      refine ih ?_ hdone hsplit
      rw [List.reverse_cons]
      exact hpiece.append (.singleton hplain trivial)
  | @bracket _ o c s s' inner rest ho hc hs hinner _ _ ih =>
    rw [splitFrom_bracket hsep ho hc hs hinner] at hsplit
    refine ih ?_ hdone hsplit
    have hbracket : Balanced (o :: (inner ++ [c])) := .bracket ho hc hs hinner .nil
    simpa using hpiece.append hbracket

theorem nested_split (hsep : Separates sep) (h : Nested P ts) {last : List Token}
    {parts : List (List Token × Token × β)} (hsplit : split sep ts = (parts, last)) :
    (∀ part ∈ parts, Balanced part.1 ∧ part.2.1.symbol?.bind sep = some part.2.2) ∧
      Balanced last :=
  nested_splitFrom hsep h .nil (List.forall_mem_nil _) hsplit

end Splitting

end Run

end ContractCompiler
