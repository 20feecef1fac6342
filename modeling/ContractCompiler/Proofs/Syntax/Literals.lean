import ContractCompiler.Proofs.Syntax.Extracts
import ContractCompiler.Proofs.Syntax.RevisedReading
import ContractCompiler.Proofs.Token.Literals

/-!
# Literals in a source

Wherever a literal is used as an expression, another one may be put in its place: the program that
is read then has the value of the new one there, if it fits into a word. The only other place of a
number is a list of bytes, so where a number is read that is no byte, an expression is expected.
-/

namespace ContractCompiler

open Text (byteLength Position)

/-! ## Another number -/

section Replacing

/-- Whether a token is a number that is no byte, at a given place. -/
def Token.IsWideAt (t : Token) (hole : Extent) : Prop :=
  t.number? = some 256 ∧ t.extent = hole

instance (t : Token) (hole : Extent) : Decidable (t.IsWideAt hole) :=
  inferInstanceAs (Decidable (_ ∧ _))

/-- The place of a token if another one is put in place of the one at `hole`. -/
def Extent.moved (e hole : Extent) (u : Token) : Extent :=
  if e = hole then u.extent
  else if e.offset < hole.offset then e
  else ⟨e.offset - hole.len + u.len, e.len⟩

/-- A token if another one is put in place of the number at `hole`. -/
def Token.replaced (t : Token) (hole : Extent) (u : Token) : Token :=
  if t.IsWideAt hole then u
  else ⟨t.lexeme, (t.extent.moved hole u).offset, (t.extent.moved hole u).len⟩

theorem Token.number?_replaced {hole : Extent} {u t : Token} (h : ¬ t.IsWideAt hole) :
    (t.replaced hole u).number? = t.number? := by
  rw [replaced, if_neg h]
  rfl

theorem Token.replaced_before {hole : Extent} {t : Token} (h : t.offset < hole.offset) (u : Token) :
    t.replaced hole u = t := by
  have hplace : t.extent ≠ hole := by
    rintro rfl
    exact absurd h (Nat.lt_irrefl _)
  have hmoved : t.extent.moved hole u = t.extent := by
    rw [Extent.moved, if_neg hplace]
    exact if_pos h
  rw [replaced, if_neg fun hwide => hplace hwide.2, hmoved]
  rfl

theorem Token.replaced_after {hole : Extent} {t : Token} (h : hole.stop ≤ t.offset)
    (hlen : 0 < hole.len) (u : Token) :
    t.replaced hole u = ⟨t.lexeme, t.offset - hole.len + u.len, t.len⟩ := by
  rw [Extent.stop] at h
  have hplace : t.extent ≠ hole := by
    rintro rfl
    rw [extent] at h hlen
    dsimp only at h hlen
    omega
  have hmoved : t.extent.moved hole u = ⟨t.offset - hole.len + u.len, t.len⟩ := by
    rw [Extent.moved, if_neg hplace]
    exact if_neg (by rw [extent]; dsimp only; omega)
  rw [replaced, if_neg fun hwide => hplace hwide.2, hmoved]

/-- The revision that puts the number `n` in place of one that is no byte. It is read like the old
one, unless it does not fit into a word. -/
def Revision.replacing (hole : Extent) (u : Token) {n : Nat} (hu : u.number? = some n) :
    Revision where
  extent e := e.moved hole u
  token t := t.replaced hole u
  constant e value := if e = hole ∧ value = 256 then UInt64.ofNat n else value
  Gives f x x' := ∀ a, x = .ok a → x' = .ok (f a) ∨
    UInt64.size ≤ n ∧ x' = .error (.unexpected .wordLiteral (some u))
  extent_token t := by
    rw [Token.replaced]
    split
    case isTrue h => rw [h.2, Extent.moved, if_pos rfl]
    case isFalse => rfl
  lexeme_token {t} h := by
    rw [Token.replaced, if_neg]
    rintro ⟨hwide, -⟩
    rw [h] at hwide
    cases hwide
  number_token {t m} h := by
    by_cases hwide : t.IsWideAt hole
    · -- The number is a word but no byte, so only the new one's size as a word matters.
      obtain rfl : m = 256 := Option.some.inj (h.symm.trans hwide.1)
      have hnew : t.replaced hole u = u := if_pos hwide
      refine ⟨n, (congrArg Token.number? hnew).trans hu, fun a ha => ?_, fun a ha => by cases ha⟩
      cases ha
      dsimp only
      rw [hnew, if_pos ⟨hwide.2, (rfl : UInt64.ofNat 256 = 256)⟩, Token.word]
      split
      case isTrue => exact .inl rfl
      case isFalse hlarge => exact .inr ⟨Nat.le_of_not_lt hlarge, rfl⟩
    · refine ⟨m, (Token.number?_replaced hwide).trans h, fun a ha => .inl ?_, fun a ha => .inl ?_⟩
      · rw [Token.word] at ha ⊢
        split at ha
        case isTrue hm =>
          cases ha
          dsimp only
          rw [if_pos hm, if_neg]
          rintro ⟨hplace, hvalue⟩
          have hsame := congrArg UInt64.toNat hvalue
          rw [UInt64.toNat_ofNat_of_lt' hm] at hsame
          exact hwide ⟨h.trans (congrArg some hsame), hplace⟩
        case isFalse => cases ha
      · rw [Token.byte] at ha ⊢
        split at ha
        case isTrue hm =>
          cases ha
          rw [if_pos hm]
          rfl
        case isFalse => cases ha
  ok f a b h := by
    cases h
    exact .inl rfl
  unexpected _ _ _ _ _ h := by cases h
  unsupported _ _ _ _ h := by cases h
  tooDeep _ _ h := by cases h
  bindOk {_ _ _ _ f g x x' k k'} hx hk b h := by
    cases x with
    | error e => cases h
    | ok a =>
      rcases hx a rfl with rfl | ⟨hlarge, rfl⟩
      · exact hk a rfl b h
      · exact .inr ⟨hlarge, rfl⟩

end Replacing

/-! ## Constants and their tokens -/

/-- A constant is named by a number with its value. -/
def Phrase.Named : Phrase → List Token → Prop
  | run _ (.uint v s), toks | atom (.uint v s), toks =>
    ∃ t ∈ toks, t.extent = s.main ∧ t.number? = some v.toNat
  | _, _ => True

theorem Derives.constant_named {φ : Phrase} {toks : List Token} {n : Nat} (h : Derives φ toks n) :
    φ.Named toks := by
  induction h with
  | @tightest e _ _ _ ih => cases e <;> exact ih
  | @tighter _ _ e _ _ _ ih => cases e <;> exact ih
  | @paren e o c toks _ _ _ _ ih =>
    cases e with
    | uint v s =>
      obtain ⟨t, ht, hnamed⟩ := ih
      exact ⟨t, List.mem_cons_of_mem _ (List.mem_append_left _ ht), hnamed⟩
    | var v => cases v <;> trivial
    | _ => trivial
  | @number t v ht hv =>
    refine ⟨t, List.mem_singleton_self t, rfl, ?_⟩
    rw [UInt64.toNat_ofNat_of_lt' hv, ht]
  | _ => trivial

/-- The constant that a node is, and the place of the number that names it. -/
def Node.constant? : Node → Option (UInt64 × Extent)
  | .expr (.uint v span) => some (v, span.main)
  | _ => none

/-- The constants of a program, with their places. -/
def Program.constants (p : Program) : List (UInt64 × Extent) :=
  (Node.program p).found Node.constant?

theorem Program.mem_constants {p : Program} {v : UInt64} {x : Extent} :
    (v, x) ∈ p.constants ↔
      ∃ span : Span, .expr (.uint v span) ∈ (Node.program p).descendants ∧ span.main = x := by
  constructor
  · intro h
    obtain ⟨n, hn, hconstant⟩ := List.mem_filterMap.1 h
    rw [Node.constant?.eq_def] at hconstant
    split at hconstant
    case h_1 w span =>
      cases hconstant
      exact ⟨span, hn, rfl⟩
    case h_2 => cases hconstant
  · rintro ⟨span, hmem, rfl⟩
    exact List.mem_filterMap.2 ⟨_, hmem, rfl⟩

/-- A constant of a program comes from a number of its source. -/
theorem Source.token_of_constant {text : List Char} {p : Program}
    (h : Source.program text = .ok p) {v : UInt64} {x : Extent} (hv : (v, x) ∈ p.constants) :
    ∃ toks, Source.tokens text = .ok toks ∧
      ∃ t ∈ toks, t.extent = x ∧ t.number? = some v.toNat := by
  obtain ⟨span, hmem, rfl⟩ := Program.mem_constants.1 hv
  obtain ⟨pre, part, post, -, -, htoks, -, -, -, -, -, -, n, -, hderives⟩ :=
    Source.expr_tokens h hmem
  obtain ⟨t, ht, hnamed⟩ := hderives.constant_named
  refine ⟨_, htoks, t, ?_, hnamed⟩
  exact List.mem_append_right _ (List.mem_append_left _ (List.mem_of_mem_filter ht))

/-! ## Nodes of a revised program -/

namespace Revision

open Amendment

variable (ρ : Revision)

/-- A revised tree has the nodes of the tree, revised. -/
theorem below_node {n m : Node} (h : n.Below m) : (ρ.node n).Below (ρ.node m) := by
  induction h with
  | refl => exact .refl
  | child hc _ ih =>
    refine .child ?_ ih
    rw [children_node]
    exact List.mem_map_of_mem hc

/-- The constants of a program, in one with the revised functions. -/
theorem mem_constants {p p' : Program} (hp : p'.functions = p.functions.map ρ.function)
    {v : UInt64} {x : Extent} (h : (v, x) ∈ p.constants) :
    (ρ.constant x v, ρ.extent x) ∈ p'.constants := by
  obtain ⟨span, hmem, rfl⟩ := Program.mem_constants.1 h
  refine Program.mem_constants.2 ⟨ρ.span span, ?_, rfl⟩
  rw [Node.mem_descendants_iff] at hmem ⊢
  cases hmem with
  | @child _ c _ hc hbelow =>
    obtain ⟨f, hf, rfl⟩ := List.mem_map.1 hc
    refine .child ?_ (ρ.below_node hbelow)
    rw [Node.children, hp]
    exact List.mem_map_of_mem (List.mem_map_of_mem hf)

end Revision

/-! ## The place of an expression -/

/-- An expression is expected between two texts: a number there that is no byte is read as a
constant. -/
def Source.TakesExpr (pre post : List Char) : Prop :=
  ∃ p, Source.program (pre ++ (['2', '5', '6'] ++ post)) = .ok p ∧
    (256, ⟨byteLength pre, 3⟩) ∈ p.constants

theorem append_inj_byteLength {a b x y : List Char} (h : a ++ x = b ++ y)
    (hlen : byteLength a = byteLength b) : a = b ∧ x = y := by
  rcases List.append_eq_append_iff.1 h with ⟨c, rfl, rfl⟩ | ⟨c, rfl, rfl⟩ <;>
  · rw [Text.byteLength_append] at hlen
    cases Text.byteLength_eq_zero.1 (by omega : byteLength c = 0)
    simp

theorem Divides.moved {o : Nat} {cs : List Char} {toks : List Token} (h : Divides o cs toks)
    (hole : Extent) (hstop : hole.stop ≤ o) (hlen : 0 < hole.len) (u : Token) :
    Divides (o - hole.len + u.len) cs (toks.map (·.replaced hole u)) := by
  have hle : hole.len ≤ o := Nat.le_trans (Nat.le_add_left _ _) hstop
  have hadd : ∀ n, o + n - hole.len + u.len = o - hole.len + u.len + n := by omega
  induction h with
  | nil => exact .nil
  | @blank o c cs toks hc _ ih =>
    refine .blank hc ?_
    rw [← hadd]
    exact ih (by omega) (by omega) (by omega)
  | @token o l s rest toks hl _ ih =>
    rw [List.map_cons, Token.replaced_after hstop hlen]
    refine .token hl ?_
    rw [← hadd]
    exact ih (by omega) (by omega) (by omega)

/-- What is known of the place of an expression between two texts: a program with the constant 256
there, its tokens, and those of them that come before the constant. -/
structure Source.Place (pre post : List Char) (p : Program) (toks before : List Token) : Prop where
  program : Program.ofTokens toks = .ok p
  few : toks.length ≤ maxTokens
  constant : (256, ⟨byteLength pre, 3⟩) ∈ p.constants
  ends : ∀ c ∈ post.head?, isIdentContinue c = false
  /-- The text before the place is cut into the same tokens, whatever literal follows. -/
  read : ∀ d rest, d.isDigit = true →
    readTokens (pre ++ d :: rest) 0 [] = readTokens (d :: rest) (byteLength pre) before.reverse
  /-- The text after the place is cut into the same tokens too. -/
  replaced : ∀ u : Token, u.offset = byteLength pre → ∃ after, Divides u.stop post after ∧
    before ++ u :: after = toks.map (·.replaced ⟨byteLength pre, 3⟩ u)

theorem Source.TakesExpr.place {pre post : List Char} (h : TakesExpr pre post) :
    ∃ p toks before, Place pre post p toks before := by
  obtain ⟨p, hp, hmem⟩ := h
  obtain ⟨toks, htokens, t, ht, hextent, hnumber⟩ := Source.token_of_constant hp hmem
  obtain ⟨toks', htokens', hprogram⟩ := Source.tokens_of_program hp
  cases htokens.symm.trans htokens'
  obtain ⟨hdivides, hfew⟩ := Source.tokens_eq_ok_iff.1 htokens
  obtain ⟨before, after, rfl⟩ := List.append_of_mem ht
  obtain ⟨radix, digits, hlexeme⟩ := Token.lexeme_of_number? hnumber
  have hoffset : t.offset = byteLength pre := congrArg Extent.offset hextent
  have hlen : t.len = 3 := congrArg Extent.len hextent
  obtain ⟨pre', s, rest, htext, hpre, hfronts, hs, hafter, hread⟩ := hdivides.up_to rfl hlexeme
  rw [Nat.zero_add] at hpre
  -- The number is what stands between the two texts.
  obtain ⟨rfl, hrest⟩ := append_inj_byteLength htext (hoffset ▸ hpre.symm)
  obtain ⟨rfl, rfl⟩ := append_inj_byteLength hrest (hs.trans hlen).symm
  refine ⟨p, _, before, hprogram, hfew, hmem, ?_, fun d rest hd => ?_, fun u hu => ?_⟩
  · have hends := hfronts.ends
    rwa [hlexeme] at hends
  · rw [hread d rest [] hd, hoffset, List.append_nil]
  · refine ⟨after.map (·.replaced ⟨byteLength pre, 3⟩ u), ?_, ?_⟩
    · rw [hoffset, hlen] at hafter
      have hmoved := hafter.moved ⟨byteLength pre, 3⟩ (Nat.le_refl _) (Nat.succ_pos 2) u
      rw [Nat.add_sub_cancel] at hmoved
      rwa [Token.stop, hu]
    · have hwide : t.IsWideAt ⟨byteLength pre, 3⟩ := ⟨hnumber, hextent⟩
      have hbefore : ∀ v ∈ before, v.replaced ⟨byteLength pre, 3⟩ u = v := by
        intro v hv
        have hlt := (List.pairwise_append.1 hdivides.ordered).2.2 v hv t List.mem_cons_self
        rw [hoffset] at hlt
        exact Token.replaced_before hlt u
      rw [List.map_append, List.map_cons, List.map_congr_left hbefore, List.map_id',
        Token.replaced, if_pos hwide]

theorem Revision.isComment_token (ρ : Revision) (t : Token) :
    (ρ.token t).isComment = t.isComment := by
  rw [Token.isComment, Token.isComment]
  rcases ρ.lexeme_cases t with h | ⟨_, _, _, _, h, h'⟩
  · rw [h]
  · rw [h, h']

namespace Source.Place

variable {pre post : List Char} {p : Program} {toks before : List Token}

theorem mem_replaced (h : Place pre post p toks before) (u : Token)
    (hu : u.offset = byteLength pre) : u ∈ toks.map (·.replaced ⟨byteLength pre, 3⟩ u) := by
  obtain ⟨after, -, htoks⟩ := h.replaced u hu
  rw [← htoks]
  exact List.mem_append_right _ List.mem_cons_self

/-- The tokens with a literal in the place. -/
theorem tokens_eq (h : Place pre post p toks before) {radix : Radix} {digits : String}
    {s : List Char} (hs : (Lexeme.number radix digits).Fronts s post) :
    Source.tokens (pre ++ (s ++ post)) = .ok
      (toks.map (·.replaced ⟨byteLength pre, 3⟩
        ⟨.number radix digits, byteLength pre, byteLength s⟩)) := by
  obtain ⟨after, hafter, htoks⟩ :=
    h.replaced ⟨.number radix digits, byteLength pre, byteLength s⟩ rfl
  obtain ⟨d, ds, rfl, hd⟩ := hs.eq_digit_cons
  have hread := (Divides.token hs hafter).readTokens_eq before.reverse
  rw [List.cons_append] at hread ⊢
  rw [Source.tokens, h.read d _ hd, hread, List.reverse_reverse, htoks]
  exact if_neg (by rw [List.length_map]; exact Nat.not_lt.2 h.few)

/-- The functions of the program with another number in the place, or what is wrong with it. -/
theorem functions_eq (h : Place pre post p toks before) {u : Token} {n : Nat}
    (hu : u.number? = some n) (hole : Extent) :
    ((Program.ofTokens (toks.map (·.replaced hole u))).map Program.functions =
        .ok (p.functions.map (Revision.replacing hole u hu).function)) ∨
      UInt64.size ≤ n ∧ Program.ofTokens (toks.map (·.replaced hole u)) =
        .error (.unexpected .wordLiteral (some u)) := by
  have hrevised := Program.ofTokens_revised (Revision.replacing hole u hu) toks
    (toks.map (·.replaced hole u)) ?_ p.functions (congrArg _ h.program)
  · rcases hrevised with hok | ⟨hlarge, herror⟩
    · exact .inl hok
    · refine .inr ⟨hlarge, ?_⟩
      cases hread : Program.ofTokens (toks.map (·.replaced hole u)) with
      | error e =>
        rw [hread] at herror
        exact congrArg Except.error (Except.error.inj herror)
      | ok p' =>
        rw [hread] at herror
        cases herror
  · rw [List.filter_map]
    congr 1
    refine List.filter_congr fun t _ => ?_
    exact congrArg (!·) ((Revision.replacing hole u hu).isComment_token t)

/-- A literal in the place is read as a constant with its value, or it does not fit into a word. -/
theorem program_eq (h : Place pre post p toks before) {radix : Radix} {digits : String}
    {s : List Char} (hs : (Lexeme.number radix digits).Fronts s post) :
    (∃ p' v, Source.program (pre ++ (s ++ post)) = .ok p' ∧
        (v, ⟨byteLength pre, byteLength s⟩) ∈ p'.constants ∧ v.toNat = radix.value digits.toList) ∨
      UInt64.size ≤ radix.value digits.toList ∧ Source.program (pre ++ (s ++ post)) =
        .error (.expected .wordLiteral (Lexeme.number radix digits).describe
          (Position.locate (pre ++ (s ++ post)) (byteLength pre))) := by
  have htokens := h.tokens_eq hs
  rcases h.functions_eq (u := ⟨.number radix digits, byteLength pre, byteLength s⟩) rfl
    ⟨byteLength pre, 3⟩ with hok | ⟨hlarge, herror⟩
  · left
    cases hread : Program.ofTokens (toks.map (·.replaced ⟨byteLength pre, 3⟩
        ⟨.number radix digits, byteLength pre, byteLength s⟩)) with
    | error e =>
      rw [hread] at hok
      cases hok
    | ok p' =>
      rw [hread] at hok
      have hprogram : Source.program (pre ++ (s ++ post)) = .ok p' := by
        rw [Source.program, htokens]
        exact congrArg (Except.mapError _) hread
      have hmem := Revision.mem_constants _ (Except.ok.inj hok) h.constant
      dsimp only [Revision.replacing] at hmem
      rw [Extent.moved, if_pos rfl] at hmem
      refine ⟨p', _, hprogram, hmem, ?_⟩
      -- The constant has the value of the number that names it, and that is the literal.
      obtain ⟨toks', htoks', t, ht, hextent, hnumber⟩ := Source.token_of_constant hprogram hmem
      cases htokens.symm.trans htoks'
      have hu := h.mem_replaced ⟨.number radix digits, byteLength pre, byteLength s⟩ rfl
      have hdistinct := List.pairwise_map.2
        ((Source.tokens_eq_ok_iff.1 htokens).1.ordered.imp Nat.ne_of_lt)
      cases List.inj_on_of_nodup_map hdistinct ht hu (congrArg Extent.offset hextent)
      exact (Option.some.inj hnumber).symm
  · refine .inr ⟨hlarge, ?_⟩
    rw [Source.program, htokens]
    exact (congrArg (Except.mapError (Diagnostic.ofSyntax _)) herror)

end Source.Place

/-! ## Literals -/

/-- A fault before the end of a text is what becomes of the text. -/
theorem Source.program_of_fault {text : List Char} {fault : LexFault} {offset : Nat}
    (h : readTokens text 0 [] = .error (fault, offset)) :
    Source.program text = .error (.lex fault (Position.locate text offset)) := by
  rw [Source.program, Source.tokens, h]
  rfl

/-- A literal that is used as an expression denotes the positional value of its digits, if it is a
word; else the literal is refused. It is a fault of the text if an identifier character follows that
is no digit of the base, or if there are no digits. -/
theorem Source.program_literal {pre post : List Char} (h : TakesExpr pre post) :
    (∀ radix mark digits, Radix.Opens radix mark digits → (digits = [] → radix = .octal) →
      (Nat.ofDigits radix.base (digits.map Radix.digitValue).reverse < UInt64.size →
        ∃ p v, Source.program (pre ++ (mark ++ digits ++ post)) = .ok p ∧
          (v, ⟨byteLength pre, byteLength (mark ++ digits)⟩) ∈ p.constants ∧
          v.toNat = Nat.ofDigits radix.base (digits.map Radix.digitValue).reverse) ∧
      (UInt64.size ≤ Nat.ofDigits radix.base (digits.map Radix.digitValue).reverse →
        ∃ found, Source.program (pre ++ (mark ++ digits ++ post)) =
          .error (.expected .wordLiteral found
            (Position.locate (pre ++ (mark ++ digits ++ post)) (byteLength pre))))) ∧
    (∀ radix mark digits c rest, Radix.Opens radix mark digits → isIdentContinue c = true →
      radix.isDigit c = false → (digits = [] → radix = .octal → c ∉ ['x', 'X', 'b', 'B']) →
      Source.program (pre ++ (mark ++ digits ++ c :: rest)) =
        .error (.lex (.badDigit c radix) (Position.locate (pre ++ (mark ++ digits ++ c :: rest))
          (byteLength pre + (mark.length + digits.length))))) ∧
    ∀ radix mark rest, mark ∈ Radix.marks radix → radix ≠ .octal → mark ≠ [] →
      (∀ c ∈ rest.head?, isIdentContinue c = false) →
      Source.program (pre ++ (mark ++ rest)) =
        .error (.lex .noDigits (Position.locate (pre ++ (mark ++ rest)) (byteLength pre))) := by
  obtain ⟨p, toks, before, hplace⟩ := h.place
  refine ⟨fun radix mark digits hopens hzero => ?_,
    fun radix mark digits c rest hopens hc hdigit hzero => ?_,
    fun radix mark rest hmark hradix hne hends => ?_⟩
  · obtain ⟨text, hvalue, hfronts⟩ := hopens.fronts hzero hplace.ends
    rw [← Radix.value_eq_ofDigits, ← hvalue]
    rcases hplace.program_eq hfronts with ⟨p', v, hprogram, hmem, hv⟩ | ⟨hlarge, hrefused⟩
    · refine ⟨fun _ => ⟨p', v, hprogram, hmem, hv⟩, fun hlarge => ?_⟩
      exact absurd (hv ▸ v.toNat_lt) (Nat.not_lt.2 hlarge)
    · exact ⟨fun hsmall => absurd hsmall (Nat.not_lt.2 hlarge), fun _ => ⟨_, hrefused⟩⟩
  · obtain ⟨d, ds, hcons, hd⟩ := hopens.eq_cons
    have hread := readTokens_badDigit hopens hc hdigit hzero rest (byteLength pre) before.reverse
    refine Source.program_of_fault ?_
    rw [hcons, List.cons_append] at hread ⊢
    rw [hplace.read d _ hd, hread]
  · have hread := readTokens_noDigits hmark hradix hne hends (byteLength pre) before.reverse
    obtain ⟨cs, rfl⟩ := Radix.eq_zero_cons hmark hne
    exact Source.program_of_fault ((hplace.read '0' _ rfl).trans hread)

/-- An index inside an argument inside a condition: the largest word with zeros before it, the
smallest number that is none, a digit of another base, and a mark alone. -/
theorem Source.program_literal_index :
    ∃ pre post : List Char, pre = "def g(a) \x7b while (f(a[(".toList ∧
      post = ")], ~1) < 2) throw 3; \x7d".toList ∧ TakesExpr pre post ∧
      (∃ p v, Source.program (pre ++ ("0X00fFffffffffffffff".toList ++ post)) = .ok p ∧
        (v, ⟨23, 20⟩) ∈ p.constants ∧ v.toNat = 18446744073709551615) ∧
      (∃ found pos, Source.program (pre ++ ("02000000000000000000000".toList ++ post)) =
        .error (.expected .wordLiteral found pos)) ∧
      (∃ pos, Source.program (pre ++ "0b12".toList) = .error (.lex (.badDigit '2' .binary) pos)) ∧
      ∃ pos, Source.program (pre ++ "0x)".toList) = .error (.lex .noDigits pos) := by
  refine ⟨_, _, rfl, rfl, ?_⟩
  have hruns : (do
      let p ← Source.program ("def g(a) \x7b while (f(a[(".toList ++ (['2', '5', '6'] ++
        ")], ~1) < 2) throw 3; \x7d".toList))
      return decide ((256, ⟨23, 3⟩) ∈ p.constants)) = Except.ok true := by
    rw [String.toList_ofList, String.toList_ofList]
    decide +kernel
  have hplace : TakesExpr "def g(a) \x7b while (f(a[(".toList
      ")], ~1) < 2) throw 3; \x7d".toList := by
    obtain ⟨p, hp, hmem⟩ := ok_of_bind hruns
    exact ⟨p, hp, of_decide_eq_true (Except.ok.inj hmem)⟩
  obtain ⟨hvalues, hbad, hnone⟩ := Source.program_literal hplace
  have hlarge := hvalues .hexadecimal ['0', 'X'] "00fFffffffffffffff".toList
    ⟨by decide, List.all_eq_true.1 (by decide +kernel), nofun⟩ nofun
  have hover := hvalues .octal ['0'] "2000000000000000000000".toList
    ⟨by decide, List.all_eq_true.1 (by decide +kernel), nofun⟩ fun _ => rfl
  have hopens : Radix.Opens .binary ['0', 'b'] ['1'] :=
    ⟨by decide, List.all_eq_true.1 (by decide +kernel), nofun⟩
  rw [← Radix.value_eq_ofDigits] at hlarge hover
  refine ⟨hplace, ?_, ?_, ⟨_, hbad .binary ['0', 'b'] ['1'] '2' [] hopens rfl rfl nofun⟩,
    ⟨_, hnone .hexadecimal ['0', 'x'] [')'] (by decide) nofun nofun ?_⟩⟩
  · obtain ⟨p, v, hread, hmem, hv⟩ := hlarge.1 (by decide +kernel)
    exact ⟨p, v, hread, hmem, hv.trans (by decide +kernel)⟩
  · obtain ⟨found, hread⟩ := hover.2 (by decide +kernel)
    exact ⟨found, _, hread⟩
  · rintro c hc
    cases hc
    rfl

end ContractCompiler
