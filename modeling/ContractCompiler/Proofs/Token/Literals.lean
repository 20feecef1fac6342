import Mathlib.Data.Nat.Digits.Defs
import ContractCompiler.Proofs.Token.Joining

/-!
# Integer literals

A literal is the mark of its base and digits after it. Their number is the positional one. A text up
to a literal is cut into the same tokens whatever the literal is, for all literals start with a
digit, and a digit is no part of a symbol.
-/

namespace ContractCompiler

open Text (byteLength)

/-! ## Values -/

/-- The value of some digits is their positional one. -/
theorem Radix.value_eq_ofDigits (radix : Radix) (digits : List Char) :
    radix.value digits = Nat.ofDigits radix.base (digits.map digitValue).reverse := by
  have hfold : ∀ n, digits.foldl (fun n c => n * radix.base + digitValue c) n =
      n * radix.base ^ digits.length + Nat.ofDigits radix.base (digits.map digitValue).reverse := by
    induction digits with
    | nil => simp
    | cons c cs ih =>
      intro n
      rw [List.foldl_cons, ih, List.map_cons, List.reverse_cons, Nat.ofDigits_append,
        Nat.ofDigits_singleton, List.length_reverse, List.length_map, List.length_cons,
        Nat.pow_succ]
      ring
  rw [value, hfold, Nat.zero_mul, Nat.zero_add]

/-! ## Spellings -/

/-- A mark of the base and digits after it. A decimal literal is known by its first digit. -/
structure Radix.Opens (radix : Radix) (mark digits : List Char) : Prop where
  mark_mem : mark ∈ radix.marks
  isDigit : ∀ c ∈ digits, radix.isDigit c = true
  decimal : radix = .decimal → digits ≠ [] ∧ digits.head? ≠ some '0'

/-- A mark that is not empty starts with a zero. -/
theorem Radix.eq_zero_cons {radix : Radix} {mark : List Char} (h : mark ∈ radix.marks)
    (hne : mark ≠ []) : ∃ cs, mark = '0' :: cs := by
  have hall : ∀ radix : Radix, ∀ mark ∈ radix.marks, mark ≠ [] → mark.head? = some '0' := by
    rintro ⟨⟩ <;> decide
  exact List.head?_eq_some_iff.1 (hall radix mark h hne)

namespace Radix.Opens

variable {radix : Radix} {mark digits rest : List Char}

/-- A literal starts with a decimal digit, whatever its base. -/
theorem eq_cons (h : radix.Opens mark digits) :
    ∃ d cs, mark ++ digits = d :: cs ∧ d.isDigit = true := by
  obtain ⟨hmark, hdigits, hdecimal⟩ := h
  cases radix with
  | decimal =>
    cases List.mem_singleton.1 hmark
    obtain ⟨d, ds, rfl⟩ := List.exists_cons_of_ne_nil (hdecimal rfl).1
    exact ⟨d, ds, rfl, isDigit_of_decimal (hdigits d List.mem_cons_self)⟩
  | octal | binary | hexadecimal =>
    obtain ⟨cs, rfl⟩ := eq_zero_cons hmark (by rintro rfl; revert hmark; decide)
    exact ⟨'0', cs ++ digits, rfl, rfl⟩

/-- The mark tells the base. After a zero it must not be another mark that it starts. -/
theorem radixMark_eq (h : radix.Opens mark digits) (rest : List Char)
    (hzero : digits = [] → radix = .octal → ∀ c ∈ rest.head?, c ∉ ['x', 'X', 'b', 'B']) :
    radixMark (mark ++ (digits ++ rest)) = (radix, mark.length, digits ++ rest) := by
  obtain ⟨hmark, hdigits, hdecimal⟩ := h
  cases radix with
  | decimal =>
    cases List.mem_singleton.1 hmark
    obtain ⟨hne, hfirst⟩ := hdecimal rfl
    refine radixMark_decimal ?_
    rwa [List.nil_append, head?_piece hne]
  | octal =>
    cases List.mem_singleton.1 hmark
    refine radixMark_zero fun c hc => ?_
    cases digits with
    | nil => simpa using hzero rfl rfl c hc
    | cons d ds =>
      obtain rfl : d = c := Option.some.inj hc
      have hdigit := hdigits d List.mem_cons_self
      refine ⟨?_, ?_, ?_, ?_⟩ <;> rintro rfl <;> exact absurd hdigit (by decide)
  | binary | hexadecimal =>
    rcases List.mem_cons.1 hmark with rfl | hmark
    · rfl
    · cases List.mem_singleton.1 hmark
      rfl

/-- Digits after a mark are a literal if nothing follows that may belong to it. A lone zero does not
need more digits. -/
theorem fronts (h : radix.Opens mark digits) (hdigits : digits = [] → radix = .octal)
    (hends : ∀ c ∈ rest.head?, isIdentContinue c = false) :
    ∃ text : String, radix.value text.toList = radix.value digits ∧
      (Lexeme.number radix text).Fronts (mark ++ digits) rest := by
  cases hlist : digits with
  | nil =>
    cases hdigits hlist
    subst hlist
    cases List.mem_singleton.1 h.mark_mem
    refine ⟨"0", rfl, ⟨by decide, ?_, nofun⟩, List.mem_append_right _ (List.mem_singleton_self _),
      hends⟩
    rw [String.toList_ofList]
    exact List.forall_mem_singleton.2 rfl
  | cons d ds =>
    rw [← hlist]
    refine ⟨String.ofList digits, by rw [String.toList_ofList], ⟨?_, ?_, ?_⟩, ?_, hends⟩
    · rw [String.toList_ofList, hlist]
      exact List.cons_ne_nil _ _
    · rw [String.toList_ofList]
      exact h.isDigit
    · rw [String.toList_ofList]
      exact fun hradix => (h.decimal hradix).2
    · rw [Lexeme.spellings, String.toList_ofList]
      exact List.mem_append_left _ (List.mem_map_of_mem h.mark_mem)

end Radix.Opens

/-! ## Faults -/

section Faults

variable {radix : Radix} {mark digits rest : List Char}

theorem isBlank_of_isDigit {d : Char} (hd : d.isDigit = true) : Text.isBlank d = false := by
  rw [isDigit_iff] at hd
  exact Text.isBlank_of_visible (by omega) (by omega)

/-- A text that starts with a digit is read as a number first. -/
theorem readTokens_fault {d : Char} {cs : List Char} (hd : d.isDigit = true) {e : LexFaultAt}
    (h : Lexeme.readNumber (d :: cs) = .error e) (o : Nat) (acc : List Token) :
    readTokens (d :: cs) o acc = .error (e.fault, o + e.distance) := by
  rw [readTokens, if_neg (by rw [isBlank_of_isDigit hd]; exact Bool.false_ne_true)]
  rw [← Lexeme.read_number hd] at h
  split
  case h_1 e' he' =>
    rw [h] at he'
    cases he'
    rfl
  case h_2 r hr =>
    rw [h] at hr
    cases hr

/-- What follows digits and might belong to an identifier, but is no digit of the base. -/
theorem readTokens_badDigit (h : radix.Opens mark digits) {c : Char} (hc : isIdentContinue c = true)
    (hdigit : radix.isDigit c = false)
    (hzero : digits = [] → radix = .octal → c ∉ ['x', 'X', 'b', 'B']) (rest : List Char) (o : Nat)
    (acc : List Token) :
    readTokens (mark ++ digits ++ c :: rest) o acc =
      .error (.badDigit c radix, o + (mark.length + digits.length)) := by
  have hstop : ∀ e ∈ (c :: rest).head?, radix.isDigit e = false := by
    rintro e he
    cases he
    exact hdigit
  have hmark := h.radixMark_eq (c :: rest) fun hnil hoctal e he => by
    cases he
    exact hzero hnil hoctal
  obtain ⟨d, cs, hcons, hd⟩ := h.eq_cons
  rw [hcons, List.cons_append]
  refine readTokens_fault hd (e := ⟨.badDigit c radix, mark.length + digits.length⟩) ?_ o acc
  rw [← List.cons_append, ← hcons, List.append_assoc]
  unfold Lexeme.readNumber
  rw [hmark]
  dsimp only
  rw [takeWhile_piece h.isDigit hstop, dropWhile_piece h.isDigit hstop]
  exact if_pos hc

/-- A mark of a base without digits after it. A zero is a mark and a digit at once. -/
theorem readTokens_noDigits (hmark : mark ∈ radix.marks) (hradix : radix ≠ .octal)
    (hne : mark ≠ []) (hends : ∀ c ∈ rest.head?, isIdentContinue c = false) (o : Nat)
    (acc : List Token) :
    readTokens (mark ++ rest) o acc = .error (.noDigits, o) := by
  have hopens : radix.Opens mark [] := by
    refine ⟨hmark, List.forall_mem_nil _, ?_⟩
    rintro rfl
    exact absurd (List.mem_singleton.1 hmark) hne
  have hstop : ∀ c ∈ rest.head?, radix.isDigit c = false := by
    intro c hc
    cases hdigit : radix.isDigit c with
    | false => rfl
    | true => exact absurd (isIdentContinue_of_isDigit hdigit) (by rw [hends c hc]; decide)
  have hmarked := hopens.radixMark_eq rest fun _ hoctal => absurd hoctal hradix
  have htake := takeWhile_piece (List.forall_mem_nil _) hstop
  have hdrop := dropWhile_piece (List.forall_mem_nil _) hstop
  rw [List.nil_append] at htake hdrop hmarked
  have hnumber : Lexeme.readNumber (mark ++ rest) = .error ⟨.noDigits, 0⟩ := by
    unfold Lexeme.readNumber
    rw [hmarked]
    dsimp only
    rw [htake, hdrop]
    have hfinish : Lexeme.readNumber.finish radix mark.length [] rest = .error ⟨.noDigits, 0⟩ := by
      cases radix with
      | octal => exact absurd rfl hradix
      | _ => rfl
    cases hhead : rest.head? with
    | none => exact hfinish
    | some c =>
      dsimp only
      rw [hends c hhead]
      exact hfinish
  obtain ⟨cs, rfl⟩ := Radix.eq_zero_cons hmark hne
  exact readTokens_fault rfl hnumber o acc

end Faults

/-! ## The text up to a number -/

theorem Symbol.digit_not_mem_chars (s : Symbol) {d : Char} (hd : d.isDigit = true) :
    d ∉ s.chars := by
  have hall : s.chars.all (!·.isDigit) = true := by cases s <;> rfl
  intro hmem
  have hnot := List.all_eq_true.1 hall d hmem
  rw [hd] at hnot
  cases hnot

/-- A digit is no part of a symbol before it. -/
theorem Symbol.read?_digit (cs rest : List Char) {d : Char} (hd : d.isDigit = true) :
    read? (cs ++ d :: rest) = read? cs :=
  congrArg (all.find? ·) (funext fun s =>
    isPrefixOf_append_of_not_mem (s.digit_not_mem_chars hd))

/-- A lexeme that ends before some text and a digit, ends too if another digit stands there. -/
theorem Lexeme.EndsBefore.digit {l : Lexeme} {cs rest : List Char} {d : Char}
    (h : l.EndsBefore (cs ++ d :: rest)) (hd : d.isDigit = true) {d' : Char}
    (hd' : d'.isDigit = true) (rest' : List Char) : l.EndsBefore (cs ++ d' :: rest') := by
  -- All but symbols look at the next character only, which is the same or a digit as before.
  have hhead : ∀ P : Char → Prop, (∀ c ∈ (cs ++ d :: rest).head?, P c) → (P d → P d') →
      ∀ c ∈ (cs ++ d' :: rest').head?, P c := by
    intro P hP hdigit c hc
    cases cs with
    | nil =>
      cases hc
      exact hdigit (hP d rfl)
    | cons e cs => exact hP c hc
  have hident : ∀ d : Char, d.isDigit = true → isIdentContinue d = true := fun d hd =>
    isIdentContinue_of_isDigit (isDigit_decimal hd)
  have hnone : isIdentContinue d = false → isIdentContinue d' = false := fun hfalse =>
    absurd (hident d hd) (by rw [hfalse]; exact Bool.false_ne_true)
  cases l with
  | identifier name => exact hhead _ h hnone
  | number radix digits => exact hhead _ h hnone
  | string body => trivial
  | symbol s =>
    obtain ⟨hread, hslash⟩ := h
    refine ⟨?_, fun hs => hhead _ (hslash hs) fun _ => ?_⟩
    · rw [← List.append_assoc, Symbol.read?_digit _ _ hd] at hread
      rwa [← List.append_assoc, Symbol.read?_digit _ _ hd']
    · constructor <;> rintro rfl <;> cases hd'
  | comment text =>
    refine fun hline => hhead _ (h hline) ?_
    rintro rfl
    cases hd

/-- A number starts with a digit. -/
theorem Lexeme.Fronts.eq_digit_cons {radix : Radix} {digits : String} {s rest : List Char}
    (h : (number radix digits).Fronts s rest) : ∃ d ds, s = d :: ds ∧ d.isDigit = true := by
  obtain ⟨⟨hne, hdigits, hdecimal⟩, hspelled, -⟩ := h
  rw [spellings] at hspelled
  rcases List.mem_append.1 hspelled with hmarked | hlone
  · obtain ⟨mark, hmark, rfl⟩ := List.mem_map.1 hmarked
    exact Radix.Opens.eq_cons ⟨hmark, hdigits, fun hradix => ⟨hne, hdecimal hradix⟩⟩
  · split at hlone
    case isTrue =>
      cases List.mem_singleton.1 hlone
      exact ⟨'0', [], rfl, rfl⟩
    case isFalse => cases hlone

/-- The text up to a number is cut into the tokens before it, whatever number comes next. -/
theorem Divides.up_to {o : Nat} {cs : List Char} {toks before after : List Token} {t : Token}
    (h : Divides o cs toks) (htoks : toks = before ++ t :: after) {radix : Radix}
    {digits : String} (ht : t.lexeme = .number radix digits) :
    ∃ pre s rest, cs = pre ++ (s ++ rest) ∧ o + byteLength pre = t.offset ∧
      t.lexeme.Fronts s rest ∧ byteLength s = t.len ∧ Divides (t.offset + t.len) rest after ∧
      ∀ d rest' acc, d.isDigit = true →
        readTokens (pre ++ d :: rest') o acc =
          readTokens (d :: rest') t.offset (before.reverse ++ acc) := by
  induction h generalizing before with
  | nil => simp at htoks
  | @blank o c cs toks hc _ ih =>
    obtain ⟨pre, s, rest, rfl, hoffset, hfronts, hlen, hrest, hread⟩ := ih htoks
    refine ⟨c :: pre, s, rest, rfl, ?_, hfronts, hlen, hrest, fun d rest' acc hd => ?_⟩
    · rw [Text.byteLength_cons]
      omega
    · rw [List.cons_append, readTokens, if_pos hc, hread d rest' acc hd]
  | @token o l s rest toks hl hrest ih =>
    cases before with
    | nil =>
      cases htoks
      exact ⟨[], s, rest, rfl, Nat.add_zero o, hl, rfl, hrest, fun d rest' acc hd => rfl⟩
    | cons u before =>
      rw [List.cons_append, List.cons_eq_cons] at htoks
      obtain ⟨rfl, htoks⟩ := htoks
      obtain ⟨pre, s', rest', rfl, hoffset, hfronts, hlen, hrest', hread⟩ := ih htoks
      refine ⟨s ++ pre, s', rest', (List.append_assoc _ _ _).symm, ?_, hfronts, hlen, hrest',
        fun d rest'' acc hd => ?_⟩
      · rw [Text.byteLength_append]
        omega
      · obtain ⟨e, es, rfl, he⟩ := (ht ▸ hfronts).eq_digit_cons
        have hends := hl.ends.digit he hd rest''
        rw [List.append_assoc, readTokens_of_fronts ⟨hl.proper, hl.spelled, hends⟩,
          hread d rest'' _ hd, List.reverse_cons, List.append_assoc]
        rfl

end ContractCompiler
