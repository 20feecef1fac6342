import Mathlib.Data.List.Forall2
import ContractCompiler.Source
import ContractCompiler.Proofs.Assembly.Lines

/-!
# Definitions and lines

Taking the directives out of a text and applying its definitions works line by line: a directive ends
with its line, and neither a name nor a value of a definition has a line feed. So every line of the
result comes from the line of the text with the same number.
-/

namespace ContractCompiler

/-! ## Parts of a text -/

namespace Text

variable {sep : Char} {cs part : List Char} {parts : List (List Char)}

theorem split_sep (sep : Char) (cs : List Char) : split sep (sep :: cs) = [] :: split sep cs :=
  split_append_cons List.not_mem_nil cs

/-- Without a separator there is one part. -/
theorem split_of_not_mem (h : sep ∉ cs) : split sep cs = [cs] := by
  induction cs with
  | nil => rfl
  | cons c cs ih =>
    rw [List.mem_cons, not_or] at h
    rw [split_cons, ih h.2, consPart, if_neg (Ne.symm h.1)]

/-- Characters that do not separate go to the first part. -/
theorem split_append (h : sep ∉ cs) {text : List Char} (hsplit : split sep text = part :: parts) :
    split sep (cs ++ text) = (cs ++ part) :: parts := by
  induction cs with
  | nil => exact hsplit
  | cons c cs ih =>
    rw [List.mem_cons, not_or] at h
    rw [List.cons_append, split_cons, ih h.2, consPart, if_neg (Ne.symm h.1), List.cons_append]

/-- A text has a first part. -/
theorem exists_split_eq_cons (sep : Char) (cs : List Char) :
    ∃ part parts, split sep cs = part :: parts :=
  List.exists_cons_of_ne_nil (split_ne_nil sep cs)

/-- Either the first part is the text, or a separator follows it. -/
theorem eq_or_eq_of_split (h : split sep cs = part :: parts) :
    cs = part ∧ parts = [] ∨ ∃ rest, cs = part ++ sep :: rest ∧ parts = split sep rest := by
  induction cs generalizing part with
  | nil =>
    cases h
    exact .inl ⟨rfl, rfl⟩
  | cons c cs ih =>
    obtain ⟨first, others, hsplit⟩ := exists_split_eq_cons sep cs
    by_cases hc : c = sep
    · subst hc
      rw [split_sep] at h
      cases h
      exact .inr ⟨cs, rfl, rfl⟩
    · rw [split_cons, hsplit, consPart, if_neg hc] at h
      cases h
      rcases ih hsplit with ⟨rfl, rfl⟩ | ⟨rest, rfl, rfl⟩
      · exact .inl ⟨rfl, rfl⟩
      · exact .inr ⟨rest, rfl, rfl⟩

theorem prefix_of_split (h : split sep cs = part :: parts) : part <+: cs := by
  rcases eq_or_eq_of_split h with ⟨rfl, -⟩ | ⟨rest, rfl, -⟩
  · exact List.prefix_rfl
  · exact List.prefix_append _ _

/-- Parts without a separator are the parts of the text that they make. -/
theorem split_join (hne : parts ≠ []) (h : ∀ part ∈ parts, sep ∉ part) :
    split sep (join sep parts) = parts := by
  induction parts with
  | nil => exact absurd rfl hne
  | cons part parts ih =>
    obtain ⟨hpart, hparts⟩ := List.forall_mem_cons.1 h
    cases parts with
    | nil =>
      rw [join, List.intercalate_singleton]
      exact split_of_not_mem hpart
    | cons next parts =>
      rw [join, List.intercalate_cons_cons, List.append_assoc, List.singleton_append,
        split_append_cons hpart]
      exact congrArg _ (ih (List.cons_ne_nil _ _) hparts)

/-- There is one part more than there are separators. -/
theorem length_split (sep : Char) (cs : List Char) :
    (split sep cs).length = cs.count sep + 1 := by
  induction cs with
  | nil => rfl
  | cons c cs ih =>
    obtain ⟨part, parts, hsplit⟩ := exists_split_eq_cons sep cs
    by_cases hc : c = sep
    · subst hc
      rw [split_sep, List.length_cons, ih, List.count_cons_self]
    · rw [split_cons, hsplit, consPart, if_neg hc, List.count_cons_of_ne hc, ← ih, hsplit]
      rfl

theorem trimStart_subset (cs : List Char) : trimStart cs ⊆ cs :=
  (List.dropWhile_sublist _).subset

/-- What is left when characters at the end are dropped. -/
theorem reverse_dropWhile_subset (p : Char → Bool) (cs : List Char) :
    (cs.reverse.dropWhile p).reverse ⊆ cs := fun _ h =>
  List.mem_reverse.1 ((List.dropWhile_sublist _).subset (List.mem_reverse.1 h))

theorem trim_subset (cs : List Char) : trim cs ⊆ cs :=
  List.Subset.trans (reverse_dropWhile_subset _ _) (trimStart_subset cs)

theorem prefix_of_prefix_append (cs : List Char) {word rest : List Char} (hword : sep ∉ word)
    (h : word <+: cs ++ sep :: rest) : word <+: cs := by
  rcases List.prefix_or_prefix_of_prefix h (List.prefix_append cs _) with hle | ⟨more, rfl⟩
  · exact hle
  · rw [List.prefix_append_right_inj, List.prefix_cons_iff] at h
    rcases h with rfl | ⟨more, rfl, -⟩
    · exact ⟨[], by rw [List.append_nil, List.append_nil]⟩
    · exact absurd (List.mem_append_right _ List.mem_cons_self) hword

/-- A word without a separator stands on one side of it. -/
theorem isInfix_append_cons {word rest : List Char} (hword : sep ∉ word)
    (h : word <:+: cs ++ sep :: rest) : word <:+: cs ∨ word <:+: rest := by
  induction cs with
  | nil =>
    rw [List.nil_append, List.infix_cons_iff] at h
    exact h.imp_left fun h => (prefix_of_prefix_append [] hword h).isInfix
  | cons c cs ih =>
    rw [List.cons_append, List.infix_cons_iff] at h
    rcases h with h | h
    · exact .inl (prefix_of_prefix_append (c :: cs) hword h).isInfix
    · exact (ih h).imp_left fun h => h.trans (List.suffix_cons c cs).isInfix

/-- A word without a separator stands in a text where it stands in one of the parts. -/
theorem isInfix_iff_split {word : List Char} (hword : sep ∉ word) :
    word <:+: cs ↔ ∃ part ∈ split sep cs, word <:+: part := by
  induction hn : cs.length using Nat.strongRecOn generalizing cs with
  | _ n ih =>
    obtain ⟨part, parts, hsplit⟩ := exists_split_eq_cons sep cs
    rcases eq_or_eq_of_split hsplit with ⟨rfl, rfl⟩ | ⟨rest, rfl, rfl⟩
    · simp [hsplit]
    · have hrest : rest.length < n := by
        rw [← hn, List.length_append, List.length_cons]
        omega
      rw [hsplit, List.exists_mem_cons_iff, ← ih _ hrest rfl]
      constructor
      · exact isInfix_append_cons hword
      · rintro (h | h)
        · exact h.trans (List.prefix_append _ _).isInfix
        · exact h.trans ((List.suffix_cons _ _).trans (List.suffix_append _ _)).isInfix

end Text

/-! ## Directives -/

namespace Define

/-- What is kept of a line, and the definition that it makes. A line without a directive is kept as
it is; otherwise it is cut where its first directive starts. -/
inductive Cut : (line kept : List Char) → Option Define → Prop where
  | whole {line : List Char} (h : ¬ directive <:+: line) : Cut line line none
  | cut {kept body : List Char} {d : Define}
      (hfirst : ∀ i < kept.length, ¬ directive <+: (kept ++ directive ++ body).drop i)
      (hread : read body = .ok d) : Cut (kept ++ directive ++ body) kept (some d)

theorem newline_not_mem_directive : '\n' ∉ directive := by
  decide

theorem length_directive : directive.length = 7 := by
  decide

theorem cutLine_none {line acc out : List Char} (h : cutLine line acc = (out, none)) :
    out = line.reverse ++ acc ∧ ¬ directive <:+: line := by
  fun_induction cutLine line acc with
  | case1 acc =>
    cases h
    exact ⟨rfl, by decide⟩
  | case2 => cases h
  | case3 c cs acc hc ih =>
    obtain ⟨rfl, hrest⟩ := ih h
    refine ⟨by simp, fun hwithin => ?_⟩
    rcases List.infix_cons_iff.1 hwithin with hstarts | hwithin
    · exact hc (List.isPrefixOf_iff_prefix.2 hstarts)
    · exact hrest hwithin

theorem cutLine_some {line acc out body : List Char} (h : cutLine line acc = (out, some body)) :
    ∃ kept, out = kept.reverse ++ acc ∧ line = kept ++ directive ++ body ∧
      ∀ i < kept.length, ¬ directive <+: line.drop i := by
  fun_induction cutLine line acc with
  | case1 => cases h
  | case2 c cs acc hc =>
    cases h
    have hstarts := List.prefix_iff_eq_append.1 (List.isPrefixOf_iff_prefix.1 hc)
    exact ⟨[], rfl, hstarts.symm, nofun⟩
  | case3 c cs acc hc ih =>
    obtain ⟨kept, rfl, rfl, hfirst⟩ := ih h
    refine ⟨c :: kept, by simp, rfl, fun i hi => ?_⟩
    cases i with
    | zero => exact fun hstarts => hc (List.isPrefixOf_iff_prefix.2 hstarts)
    | succ i => exact hfirst i (Nat.lt_of_succ_lt_succ hi)

theorem cutLine_of_not_infix {line : List Char} (h : ¬ directive <:+: line) (acc : List Char) :
    cutLine line acc = (line.reverse ++ acc, none) := by
  rcases hcut : cutLine line acc with ⟨out, _ | body⟩
  · rw [(cutLine_none hcut).1]
  · obtain ⟨kept, -, rfl, -⟩ := cutLine_some hcut
    exact absurd ⟨kept, body, rfl⟩ h

/-- Nothing is left of a directive. -/
theorem Cut.not_infix {line kept : List Char} {d? : Option Define} (h : Cut line kept d?) :
    ¬ directive <:+: kept := by
  cases h with
  | whole h => exact h
  | @cut kept body d hfirst hread =>
    rintro ⟨before, after, rfl⟩
    -- A directive in what is kept starts before the one that the line is cut at.
    have hlt : before.length < (before ++ directive ++ after).length := by
      rw [List.length_append, List.length_append, length_directive]
      omega
    refine hfirst before.length hlt ?_
    simp only [List.append_assoc, List.drop_left]
    exact List.prefix_append _ _

/-- What is kept is the front of the line. -/
theorem Cut.kept_prefix {line kept : List Char} {d? : Option Define} (h : Cut line kept d?) :
    kept <+: line := by
  cases h with
  | whole h => exact List.prefix_rfl
  | cut hfirst hread =>
    rw [List.append_assoc]
    exact List.prefix_append _ _

/-- Lines are cut one after the other. -/
theorem stripLines_cuts {lines kept kept' : List (List Char)} {offset : Nat}
    {defines defines' : List Define}
    (h : stripLines lines offset kept defines = .ok (kept', defines')) :
    ∃ cuts : List (List Char × Option Define),
      List.Forall₂ (fun line cut => Cut line cut.1 cut.2) lines cuts ∧
      kept' = kept.reverse ++ cuts.map Prod.fst ∧
      defines' = defines.reverse ++ cuts.filterMap Prod.snd := by
  fun_induction stripLines lines offset kept defines with
  | case1 =>
    cases h
    exact ⟨[], .nil, by simp, by simp⟩
  | case2 line rest offset kept defines next acc hcut ih =>
    obtain ⟨cuts, hcuts, rfl, rfl⟩ := ih h
    obtain ⟨rfl, hwhole⟩ := cutLine_none hcut
    refine ⟨(line, none) :: cuts, .cons (.whole hwhole) hcuts, ?_, rfl⟩
    simp
  | case3 line rest offset kept defines next acc body hcut d hd ih =>
    obtain ⟨cuts, hcuts, rfl, rfl⟩ := ih h
    obtain ⟨before, rfl, rfl, hfirst⟩ := cutLine_some hcut
    refine ⟨(before, some d) :: cuts, .cons (.cut hfirst hd) hcuts, ?_, ?_⟩ <;> simp
  | case4 => cases h

theorem stripLines_whole {lines : List (List Char)} (h : ∀ line ∈ lines, ¬ directive <:+: line)
    (offset : Nat) (kept : List (List Char)) (defines : List Define) :
    stripLines lines offset kept defines = .ok (kept.reverse ++ lines, defines.reverse) := by
  induction lines generalizing offset kept with
  | nil => rw [stripLines, List.append_nil]
  | cons line lines ih =>
    obtain ⟨hline, hlines⟩ := List.forall_mem_cons.1 h
    rw [stripLines, cutLine_of_not_infix hline]
    dsimp only
    rw [ih hlines]
    simp

/-- A text without a directive stays as it is. -/
theorem strip_of_not_infix {text : List Char} (h : ¬ directive <:+: text) :
    strip text = .ok (text, []) := by
  have hlines : ∀ line ∈ Text.split '\n' text, ¬ directive <:+: line := fun line hline hwithin =>
    h ((Text.isInfix_iff_split newline_not_mem_directive).2 ⟨line, hline, hwithin⟩)
  rw [strip, stripLines_whole hlines]
  show Except.ok (Text.join '\n' (Text.split '\n' text), _) = _
  rw [Text.join_split]
  rfl

/-- What is kept of lines are lines. -/
theorem newline_not_mem_cuts {lines : List (List Char)} {cuts : List (List Char × Option Define)}
    (hcuts : List.Forall₂ (fun line cut => Cut line cut.1 cut.2) lines cuts)
    (hlines : ∀ line ∈ lines, '\n' ∉ line) : ∀ part ∈ cuts.map Prod.fst, '\n' ∉ part := by
  induction hcuts with
  | nil => exact nofun
  | cons hcut _ ih =>
    obtain ⟨hline, hlines⟩ := List.forall_mem_cons.1 hlines
    exact List.forall_mem_cons.2 ⟨fun hmem => hline (hcut.kept_prefix.subset hmem), ih hlines⟩

theorem not_infix_cuts {lines : List (List Char)} {cuts : List (List Char × Option Define)}
    (hcuts : List.Forall₂ (fun line cut => Cut line cut.1 cut.2) lines cuts) :
    ∀ part ∈ cuts.map Prod.fst, ¬ directive <:+: part := by
  induction hcuts with
  | nil => exact nofun
  | cons hcut _ ih => exact List.forall_mem_cons.2 ⟨hcut.not_infix, ih⟩

/-- What the directives of a text are cut to. -/
theorem strip_cuts {text stripped : List Char} {defines : List Define}
    (h : strip text = .ok (stripped, defines)) :
    ∃ cuts : List (List Char × Option Define),
      List.Forall₂ (fun line cut => Cut line cut.1 cut.2) (Text.split '\n' text) cuts ∧
      Text.split '\n' stripped = cuts.map Prod.fst ∧ defines = cuts.filterMap Prod.snd := by
  unfold strip at h
  cases hlines : stripLines (Text.split '\n' text) 0 [] [] with
  | error e =>
    rw [hlines] at h
    cases h
  | ok r =>
    rw [hlines] at h
    cases h
    obtain ⟨cuts, hcuts, hkept, hdefines⟩ := stripLines_cuts hlines
    refine ⟨cuts, hcuts, ?_, hdefines⟩
    rw [hkept, List.reverse_nil, List.nil_append]
    refine Text.split_join ?_ ?_
    · intro hnil
      have hlength := hcuts.length_eq
      rw [List.map_eq_nil_iff.1 hnil, List.length_nil, List.length_eq_zero_iff] at hlength
      exact Text.split_ne_nil _ _ hlength
    · exact newline_not_mem_cuts hcuts fun line hline => Text.not_mem_of_mem_split hline

/-! ## Replacements -/

/-- A text, and what a definition makes of it: its name is replaced by its value where it stands,
from left to right, and what was replaced is not looked at again. -/
inductive Replaces (d : Define) : (text out : List Char) → Prop where
  | done : Replaces d [] []
  | hit {cs out : List Char} (h : Replaces d cs out) : Replaces d (d.name ++ cs) (d.value ++ out)
  | keep {c : Char} {cs out : List Char} (hc : ¬ d.name <+: c :: cs) (h : Replaces d cs out) :
    Replaces d (c :: cs) (c :: out)

/-- A text, and what several definitions make of it, one after the other. -/
inductive Applies : (defines : List Define) → (text out : List Char) → Prop where
  | nil {text : List Char} : Applies [] text text
  | cons {d : Define} {ds : List Define} {text mid out : List Char} (hd : d.Replaces text mid)
      (hds : Applies ds mid out) : Applies (d :: ds) text out

theorem replaceFrom_replaces {d : Define} (hname : d.name ≠ []) (skip : Nat)
    (cs acc : List Char) :
    ∃ out, replaceFrom d.name d.value skip cs acc = out.reverse ++ acc ∧
      d.Replaces (cs.drop skip) out := by
  fun_induction replaceFrom d.name d.value skip cs acc with
  | case1 skip acc =>
    rw [List.drop_nil]
    exact ⟨[], rfl, .done⟩
  | case2 _ _ _ _ ih => exact ih
  | case3 c cs acc hc ih =>
    obtain ⟨out, hout, hrest⟩ := ih
    refine ⟨d.value ++ out, by rw [hout]; simp, ?_⟩
    -- The occurrence is the name, of which the first character was looked at already.
    have hsplit : d.name ++ cs.drop (d.name.length - 1) = c :: cs := by
      rw [← List.drop_succ_cons, Nat.sub_add_cancel (List.length_pos_iff.2 hname)]
      exact List.prefix_iff_eq_append.1 (List.isPrefixOf_iff_prefix.1 hc)
    rw [List.drop_zero, ← hsplit]
    exact .hit hrest
  | case4 c cs acc hc ih =>
    obtain ⟨out, hout, hrest⟩ := ih
    refine ⟨c :: out, by rw [hout]; simp, ?_⟩
    exact .keep (fun hstarts => hc (List.isPrefixOf_iff_prefix.2 hstarts)) hrest

/-- Replacing finds each occurrence once, from left to right. -/
theorem replaces_replaceAll {d : Define} (hname : d.name ≠ []) (text : List Char) :
    d.Replaces text (d.replaceAll text) := by
  obtain ⟨out, hout, h⟩ := replaceFrom_replaces hname 0 text []
  rw [replaceAll, hout, List.append_nil, List.reverse_reverse]
  exact h

/-- A definition whose name is not empty, and which stands in one line. -/
structure InLine (d : Define) : Prop where
  ne_nil : d.name ≠ []
  name : '\n' ∉ d.name
  value : '\n' ∉ d.value

/-- A replacement stays within its line. -/
theorem Replaces.lines {d : Define} (hd : d.InLine) {text out : List Char}
    (h : d.Replaces text out) :
    List.Forall₂ d.Replaces (Text.split '\n' text) (Text.split '\n' out) := by
  induction h with
  | done => exact .cons .done .nil
  | @hit cs out h ih =>
    obtain ⟨line, lines, hlines⟩ := Text.exists_split_eq_cons '\n' cs
    obtain ⟨line', lines', hlines'⟩ := Text.exists_split_eq_cons '\n' out
    rw [hlines, hlines'] at ih
    rw [Text.split_append hd.name hlines, Text.split_append hd.value hlines']
    obtain ⟨hline, hrest⟩ := List.forall₂_cons.1 ih
    exact .cons (.hit hline) hrest
  | @keep c cs out hc h ih =>
    by_cases hnl : c = '\n'
    · subst hnl
      rw [Text.split_sep, Text.split_sep]
      exact .cons .done ih
    · obtain ⟨line, lines, hlines⟩ := Text.exists_split_eq_cons '\n' cs
      obtain ⟨line', lines', hlines'⟩ := Text.exists_split_eq_cons '\n' out
      have hc' : '\n' ∉ [c] := fun hmem => hnl (List.mem_singleton.1 hmem).symm
      rw [hlines, hlines'] at ih
      rw [show c :: cs = [c] ++ cs from rfl, show c :: out = [c] ++ out from rfl,
        Text.split_append hc' hlines, Text.split_append hc' hlines']
      obtain ⟨hline, hrest⟩ := List.forall₂_cons.1 ih
      -- A name that stood at the front of the line would stand at the front of the text.
      refine .cons (.keep (fun hstarts => hc ?_) hline) hrest
      exact hstarts.trans (List.cons_prefix_cons.2 ⟨rfl, Text.prefix_of_split hlines⟩)

theorem applies_cons {d : Define} {ds : List Define} {as bs cs : List (List Char)}
    (hd : List.Forall₂ d.Replaces as bs) (hds : List.Forall₂ (Applies ds) bs cs) :
    List.Forall₂ (Applies (d :: ds)) as cs := by
  induction hd generalizing cs with
  | nil =>
    cases hds
    exact .nil
  | cons hd _ ih =>
    cases hds with
    | cons hds hrest => exact .cons (.cons hd hds) (ih hrest)

/-- Definitions that are applied to a text are applied to its lines. -/
theorem applies_lines {defines : List Define} (hdefines : ∀ d ∈ defines, d.InLine)
    (text : List Char) :
    List.Forall₂ (Applies defines) (Text.split '\n' text)
      (Text.split '\n' (defines.foldl (fun out d => d.replaceAll out) text)) := by
  induction defines generalizing text with
  | nil => exact List.forall₂_same.2 fun _ _ => .nil
  | cons d ds ih =>
    obtain ⟨hd, hds⟩ := List.forall_mem_cons.1 hdefines
    exact applies_cons ((replaces_replaceAll hd.ne_nil text).lines hd) (ih hds (d.replaceAll text))

/-! ## Lines -/

/-- A definition that is read from a line stands in that line. -/
theorem inLine_of_read {body : List Char} {d : Define} (h : read body = .ok d) (hbody : '\n' ∉ body) :
    d.InLine := by
  unfold read at h
  have hkept : '\n' ∉ Text.trimStart (body.reverse.dropWhile (· = '\r')).reverse := fun hmem =>
    hbody (Text.reverse_dropWhile_subset _ _ (Text.trimStart_subset _ hmem))
  dsimp only at h
  split at h
  case h_2 => cases h
  case h_1 =>
    split at h
    case isFalse => cases h
    case isTrue =>
      split at h
      case h_2 => cases h
      case h_1 c hc =>
        split at h
        case isFalse => cases h
        case isTrue =>
          cases h
          refine ⟨fun hnil => ?_, fun hmem => ?_, fun hmem => ?_⟩
          · cases hc.symm.trans (congrArg List.head? hnil)
          · exact hkept ((List.takeWhile_sublist _).subset hmem)
          · exact hkept ((List.dropWhile_sublist _).subset (Text.trim_subset _ hmem))

theorem Cut.inLine {line kept : List Char} {d : Define} (h : Cut line kept (some d))
    (hline : '\n' ∉ line) : d.InLine := by
  cases h with
  | cut _ hread => exact inLine_of_read hread fun hmem => hline (List.mem_append_right _ hmem)

theorem inLine_cuts {lines : List (List Char)} {cuts : List (List Char × Option Define)}
    (hcuts : List.Forall₂ (fun line cut => Cut line cut.1 cut.2) lines cuts)
    (hlines : ∀ line ∈ lines, '\n' ∉ line) : ∀ d ∈ cuts.filterMap Prod.snd, d.InLine := by
  induction hcuts with
  | nil => exact nofun
  | @cons line cut _ _ hcut _ ih =>
    obtain ⟨hline, hlines⟩ := List.forall_mem_cons.1 hlines
    obtain ⟨kept, _ | d⟩ := cut
    · exact ih hlines
    · exact List.forall_mem_cons.2 ⟨hcut.inLine hline, ih hlines⟩

end Define

theorem Source.strip_eq_ok {text : List Char} {r : List Char × List Define} :
    Source.strip text = .ok r ↔ Define.strip text = .ok r := by
  unfold Source.strip
  cases Define.strip text <;> simp [Except.mapError]

theorem Source.expand_eq_ok {text out : List Char} :
    Source.expand text = .ok out ↔ ∃ stripped defines, Source.strip text = .ok (stripped, defines) ∧
      out = defines.foldl (fun out d => d.replaceAll out) stripped := by
  simp only [Source.strip_eq_ok]
  unfold Source.expand Define.expand
  cases Define.strip text with
  | error e => simp [Except.mapError, bind, Except.bind]
  | ok r =>
    obtain ⟨stripped, defines⟩ := r
    simp [Except.mapError, bind, Except.bind, pure, Except.pure, eq_comm]

/-- A text without a directive stays as it is. Otherwise its lines are cut at their first directives,
and the definitions that these make are applied to what is left of each line; nothing is left of the
directives, and no line feed comes or goes. -/
theorem Source.expand_lines (text : List Char) :
    (¬ Define.directive <:+: text → Source.expand text = .ok text) ∧
    ∀ out, Source.expand text = .ok out →
      ∃ (stripped : List Char) (defines : List Define) (cuts : List (List Char × Option Define)),
        Source.strip text = .ok (stripped, defines) ∧
        ¬ Define.directive <:+: stripped ∧ Source.strip stripped = .ok (stripped, []) ∧
        stripped.count '\n' = text.count '\n' ∧ out.count '\n' = text.count '\n' ∧
        List.Forall₂ (fun line cut => Define.Cut line cut.1 cut.2) (Text.split '\n' text) cuts ∧
        Text.split '\n' stripped = cuts.map Prod.fst ∧ defines = cuts.filterMap Prod.snd ∧
        List.Forall₂ (Define.Applies defines) (Text.split '\n' stripped) (Text.split '\n' out) := by
  refine ⟨fun h => ?_, fun out h => ?_⟩
  · exact Source.expand_eq_ok.2
      ⟨text, [], Source.strip_eq_ok.2 (Define.strip_of_not_infix h), rfl⟩
  · obtain ⟨stripped, defines, hstrip, rfl⟩ := Source.expand_eq_ok.1 h
    obtain ⟨cuts, hcuts, hkept, rfl⟩ := Define.strip_cuts (Source.strip_eq_ok.1 hstrip)
    have hlines : ∀ line ∈ Text.split '\n' text, '\n' ∉ line := fun _ => Text.not_mem_of_mem_split
    have hclean : ¬ Define.directive <:+: stripped := by
      rw [Text.isInfix_iff_split Define.newline_not_mem_directive, hkept]
      rintro ⟨part, hpart, hwithin⟩
      exact Define.not_infix_cuts hcuts part hpart hwithin
    have happlies := Define.applies_lines (Define.inLine_cuts hcuts hlines) stripped
    -- There is one line more than there are line feeds, and each line is cut and replaced by itself.
    have hstripped : stripped.count '\n' = text.count '\n' := by
      have hlength := hcuts.length_eq
      rw [← List.length_map Prod.fst, ← hkept, Text.length_split, Text.length_split] at hlength
      exact (Nat.succ.inj hlength).symm
    have hout := happlies.length_eq
    rw [Text.length_split, Text.length_split] at hout
    exact ⟨stripped, _, cuts, hstrip, hclean,
      Source.strip_eq_ok.2 (Define.strip_of_not_infix hclean), hstripped,
      (Nat.succ.inj hout).symm.trans hstripped, hcuts, hkept, rfl, happlies⟩

/-- Directives in the middle of a line and at its start, a value with a directive and a carriage return
after it, and a name that stands twice without a gap. -/
theorem Source.expand_lines_nested :
    Source.expand "x HALF;#define HALF LIMIT / 2 #define\r\n#define LIMIT é\nHALF LIMITLIMIT".toList =
      .ok "x é / 2 #define;\n\né / 2 #define éé".toList ∧
    Source.expand "a\r\nb # define".toList = .ok "a\r\nb # define".toList ∧
    ∃ stripped defines,
      Source.strip "x HALF;#define HALF LIMIT / 2 #define\r\n#define LIMIT é\nHALF LIMITLIMIT".toList =
        .ok (stripped, defines) ∧
      ¬ Define.directive <:+: stripped ∧ Source.strip stripped = .ok (stripped, []) ∧
      stripped.count '\n' = 2 ∧ List.Forall₂ (Define.Applies defines) (Text.split '\n' stripped)
        (Text.split '\n' "x é / 2 #define;\n\né / 2 #define éé".toList) := by
  have hexpand : Source.expand
      "x HALF;#define HALF LIMIT / 2 #define\r\n#define LIMIT é\nHALF LIMITLIMIT".toList =
        .ok "x é / 2 #define;\n\né / 2 #define éé".toList := by
    rw [String.toList_ofList, String.toList_ofList]
    decide +kernel
  have hplain : ¬ Define.directive <:+: "a\r\nb # define".toList := by
    decide +kernel
  obtain ⟨stripped, defines, cuts, hstrip, hclean, hagain, hcount, -, -, -, -, happlies⟩ :=
    (Source.expand_lines _).2 _ hexpand
  exact ⟨hexpand, (Source.expand_lines _).1 hplain, stripped, defines, hstrip, hclean, hagain,
    hcount.trans (by decide +kernel), happlies⟩

end ContractCompiler
