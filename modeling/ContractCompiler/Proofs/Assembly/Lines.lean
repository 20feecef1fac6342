import ContractCompiler.Assembly.Instruction
import ContractCompiler.Assembly.LedgerField
import ContractCompiler.Text.Split

/-!
# The lines of assembly

The text of a program has one line for each instruction as long as no instruction brings a line
feed of its own. Numbers, byte constants and the names of operations and fields never do; what is
left are the names of labels and the texts of comments.
-/

namespace ContractCompiler

/-! ## Lines of a text -/

namespace Text

/-- A text without a line feed. -/
def IsLine (s : String) : Prop :=
  '\n' ∉ s.toList

instance : DecidablePred IsLine := fun s => inferInstanceAs (Decidable ('\n' ∉ s.toList))

@[simp] theorem isLine_append {s t : String} : IsLine (s ++ t) ↔ IsLine s ∧ IsLine t := by
  simp [IsLine]

theorem isLine_ofList {cs : List Char} : IsLine (String.ofList cs) ↔ '\n' ∉ cs := by
  rw [IsLine, String.toList_ofList]

/-- A number is written with digits. -/
@[simp] theorem isLine_toString (n : Nat) : IsLine (toString n) := by
  intro hmem
  have hdigits : '\n' ∈ Nat.toDigits 10 n := by
    rw [← Nat.toList_repr]
    exact hmem
  have hdigit := Nat.isDigit_of_mem_toDigits (by decide) (by decide) hdigits
  exact absurd hdigit (by decide)

/-- Texts that are one line each are one line together. -/
theorem isLine_intercalate {sep : String} (hsep : IsLine sep) {ss : List String}
    (h : ∀ s ∈ ss, IsLine s) : IsLine (sep.intercalate ss) := by
  unfold IsLine at hsep ⊢
  rw [String.toList_intercalate]
  induction ss with
  | nil => simp
  | cons s ss ih =>
    have hs : '\n' ∉ s.toList := h s List.mem_cons_self
    have hrest := ih fun t ht => h t (List.mem_cons_of_mem _ ht)
    cases ss with
    | nil => simpa using hs
    | cons t ts =>
      rw [List.map_cons] at hrest
      rw [List.map_cons, List.map_cons, List.intercalate_cons_cons]
      simp only [List.mem_append, not_or]
      exact ⟨⟨hs, hsep⟩, hrest⟩

/-- What stands before the first separator is the first part. -/
theorem split_append_cons {sep : Char} {part : List Char} (h : sep ∉ part) (rest : List Char) :
    split sep (part ++ sep :: rest) = part :: split sep rest := by
  induction part with
  | nil =>
    rw [List.nil_append, split_cons]
    cases hrest : split sep rest with
    | nil => exact absurd hrest (split_ne_nil _ _)
    | cons p ps => simp [consPart]
  | cons c part ih =>
    have hc : c ≠ sep := fun hc => h (hc ▸ List.mem_cons_self)
    rw [List.cons_append, split_cons, ih fun hmem => h (List.mem_cons_of_mem _ hmem)]
    simp [consPart, hc]

/-- No part holds the separator. -/
theorem not_mem_of_mem_split {sep : Char} {cs part : List Char} (h : part ∈ split sep cs) :
    sep ∉ part := by
  induction cs generalizing part with
  | nil =>
    cases List.mem_singleton.1 h
    exact List.not_mem_nil
  | cons c cs ih =>
    rw [split_cons] at h
    cases hparts : split sep cs with
    | nil => exact absurd hparts (split_ne_nil _ _)
    | cons first parts =>
      rw [hparts] at h ih
      by_cases hc : c = sep
      · rw [consPart, if_pos hc, List.mem_cons] at h
        rcases h with rfl | h
        · exact List.not_mem_nil
        · exact ih h
      · rw [consPart, if_neg hc, List.mem_cons] at h
        rcases h with rfl | h
        · exact List.not_mem_cons_of_ne_of_not_mem (Ne.symm hc) (ih List.mem_cons_self)
        · exact ih (List.mem_cons_of_mem _ h)

/-- Texts, each ended by a line feed. -/
def unlines (lines : List String) : List Char :=
  lines.flatMap fun l => l.toList ++ ['\n']

/-- Texts that are one line each are the lines of the whole. -/
theorem split_unlines {lines : List String} (h : ∀ l ∈ lines, IsLine l) :
    split '\n' (unlines lines) = lines.map String.toList ++ [[]] := by
  induction lines with
  | nil => rfl
  | cons l lines ih =>
    rw [unlines, List.flatMap_cons, List.append_assoc, List.singleton_append,
      split_append_cons (h l List.mem_cons_self)]
    exact congrArg _ (ih fun t ht => h t (List.mem_cons_of_mem _ ht))

theorem count_unlines {lines : List String} (h : ∀ l ∈ lines, IsLine l) :
    (unlines lines).count '\n' = lines.length := by
  induction lines with
  | nil => rfl
  | cons l lines ih =>
    have hl : l.toList.count '\n' = 0 := List.count_eq_zero.2 (h l List.mem_cons_self)
    have hrest := ih fun t ht => h t (List.mem_cons_of_mem _ ht)
    rw [unlines] at hrest
    rw [unlines, List.flatMap_cons, List.count_append, List.count_append, hl, hrest,
      List.length_cons, List.count_singleton_self]
    omega

/-- The digits of base 64 are visible. -/
theorem Base64.newline_ne_digit (n : Nat) : '\n' ≠ Base64.digit n := by
  unfold Base64.digit
  rw [List.getD_eq_getElem?_getD]
  cases hd : Base64.alphabet[n]? with
  | none => decide
  | some c =>
    rintro rfl
    exact absurd (List.mem_of_getElem? hd) (by decide)

theorem Base64.newline_not_mem_encodeOnto {bs : List UInt8} {acc : List Char} (h : '\n' ∉ acc) :
    '\n' ∉ Base64.encodeOnto bs acc := by
  fun_induction Base64.encodeOnto bs acc with
  | case1 => exact h
  | case2 | case3 => simp [Base64.newline_ne_digit, h]
  | case4 _ _ _ _ _ _ ih => exact ih (by simp [Base64.newline_ne_digit, h])

/-- Base 64 needs no line feed. -/
theorem Base64.newline_not_mem_encode (bs : List UInt8) : '\n' ∉ Base64.encode bs := by
  rw [Base64.encode, List.mem_reverse]
  exact Base64.newline_not_mem_encodeOnto List.not_mem_nil

end Text

open Text (IsLine)

/-! ## Instructions -/

@[simp] theorem Operand.isLine_uint (value : UInt64) : IsLine (Operand.uint value).text :=
  Text.isLine_toString _

@[simp] theorem Operand.isLine_bytes (value : List UInt8) : IsLine (Operand.bytes value).text := by
  simp only [Operand.text, Text.isLine_append, Text.isLine_ofList]
  exact ⟨⟨by decide, Text.Base64.newline_not_mem_encode value⟩, by decide⟩

@[simp] theorem Operand.isLine_label {name : String} :
    IsLine (Operand.label name).text ↔ IsLine name := Iff.rfl

@[simp] theorem Operand.isLine_field {name : String} :
    IsLine (Operand.field name).text ↔ IsLine name := Iff.rfl

theorem Opcode.isLine_name (code : Opcode) : IsLine code.name := by
  cases code <;> decide

/-- An operation is a single line if its operands are. -/
theorem Instruction.isLine_op (code : Opcode) {operands : List Operand}
    (h : ∀ o ∈ operands, IsLine o.text) : IsLine (Instruction.op code operands).text := by
  -- The line grows with each operand, so the statement is about any line so far.
  suffices hgrow : ∀ line : String, IsLine line →
      IsLine (operands.foldl (fun line o => line ++ " " ++ o.text) line) from
    hgrow _ code.isLine_name
  induction operands with
  | nil => exact fun _ hline => hline
  | cons o operands ih =>
    intro line hline
    have ho := h o List.mem_cons_self
    refine ih (fun o' ho' => h o' (List.mem_cons_of_mem _ ho')) _ ?_
    simp only [Text.isLine_append]
    exact ⟨⟨hline, by decide⟩, ho⟩

theorem Instruction.isLine_label {name : String} (h : IsLine name) :
    IsLine (Instruction.label name).text :=
  Text.isLine_append.2 ⟨h, by decide⟩

theorem Instruction.isLine_comment {text : String} (h : IsLine text) :
    IsLine (Instruction.comment text).text :=
  Text.isLine_append.2 ⟨by decide, h⟩

/-! ## Programs -/

namespace Assembly

/-- The line of the version, then one for each instruction. -/
def lines (a : Assembly) : List String :=
  ("#pragma version " ++ toString a.version) :: a.code.map Instruction.text

theorem text_toList (a : Assembly) : a.text.toList = Text.unlines a.lines := by
  suffices hgrow : ∀ (code : List Instruction) (out : String),
      (code.foldl (fun out i => out ++ i.text ++ "\n") out).toList =
        out.toList ++ Text.unlines (code.map Instruction.text) by
    rw [text, hgrow, lines, Text.unlines, Text.unlines, List.flatMap_cons, String.toList_append]
    rfl
  intro code
  induction code with
  | nil => simp [Text.unlines]
  | cons i code ih =>
    intro out
    rw [List.foldl_cons, ih, List.map_cons, Text.unlines, Text.unlines, List.flatMap_cons]
    simp

/-- The text of a program, cut at line feeds, is the line of the version, one line for each
instruction and nothing after the last line feed. -/
structure LineByLine (a : Assembly) : Prop where
  split_text : Text.split '\n' a.text.toList = a.lines.map String.toList ++ [[]]
  count_text : a.text.toList.count '\n' = a.code.length + 1

theorem isLine_of_mem_lines {a : Assembly} (h : ∀ i ∈ a.code, IsLine i.text) :
    ∀ l ∈ a.lines, IsLine l := by
  intro l hl
  rcases List.mem_cons.1 hl with rfl | hl
  · exact Text.isLine_append.2 ⟨by decide, Text.isLine_toString _⟩
  · obtain ⟨i, hi, rfl⟩ := List.mem_map.1 hl
    exact h i hi

/-- A program is written line by line exactly if every instruction is a single line. -/
theorem lineByLine_iff {a : Assembly} : a.LineByLine ↔ ∀ i ∈ a.code, IsLine i.text := by
  constructor
  · intro h i hi
    have hline : i.text.toList ∈ Text.split '\n' a.text.toList := by
      rw [h.split_text]
      refine List.mem_append_left _ (List.mem_map_of_mem ?_)
      exact List.mem_cons_of_mem _ (List.mem_map_of_mem hi)
    exact Text.not_mem_of_mem_split hline
  · intro h
    refine ⟨?_, ?_⟩
    · rw [a.text_toList, Text.split_unlines (isLine_of_mem_lines h)]
    · rw [a.text_toList, Text.count_unlines (isLine_of_mem_lines h), lines, List.length_cons,
        List.length_map]

end Assembly

end ContractCompiler
