import Mathlib.Data.List.Pairwise
import ContractCompiler.Proofs.Syntax.TokenRanges
import ContractCompiler.Proofs.Token.Division
import ContractCompiler.Proofs.Typing.Modularity

/-!
# Spans form a tree

The spans of a syntax tree are nested like its nodes: a node's span encloses those of its children,
which stand one after the other. Names stand at different places, so what the analysis notes of a read
is not lost when another one is checked.
-/

namespace ContractCompiler

/-! ## Tokens in their order -/

/-- Tokens that take up space, one after the other. -/
structure Token.InOrder (toks : List Token) : Prop where
  apart : toks.Pairwise fun t u => t.stop ≤ u.offset
  nonempty : ∀ t ∈ toks, 0 < t.len

namespace Token.InOrder

variable {toks part : List Token} {t u : Token}

theorem sublist (h : InOrder toks) (hpart : part.Sublist toks) : InOrder part :=
  ⟨h.apart.sublist hpart, fun t ht => h.nonempty t (hpart.subset ht)⟩

theorem head_le (h : InOrder toks) (hhead : toks.head? = some t) (hu : u ∈ toks) :
    t.offset ≤ u.offset := by
  obtain ⟨ts, rfl⟩ := List.head?_eq_some_iff.1 hhead
  rcases List.mem_cons.1 hu with rfl | hu
  · exact Nat.le_refl _
  · exact Nat.le_trans (Nat.le_add_right _ _) (List.rel_of_pairwise_cons h.apart hu)

theorem le_getLast (h : InOrder toks) (hlast : toks.getLast? = some t) (hu : u ∈ toks) :
    u.stop ≤ t.stop := by
  obtain ⟨ts, rfl⟩ := List.getLast?_eq_some_iff.1 hlast
  rcases List.mem_append.1 hu with hu | hu
  · have hle := (List.pairwise_append.1 h.apart).2.2 u hu t (List.mem_singleton_self t)
    exact Nat.le_trans hle (Nat.le_add_right _ _)
  · cases List.mem_singleton.1 hu
    exact Nat.le_refl _

end Token.InOrder

theorem Source.tokens_inOrder {text : List Char} {toks : List Token}
    (h : Source.tokens text = .ok toks) : Token.InOrder toks := by
  obtain ⟨hdivides, -⟩ := Source.tokens_eq_ok_iff.1 h
  exact ⟨hdivides.apart, fun t ht => (hdivides.extent t ht).2⟩

/-! ## Spans -/

/-- The span of a node starts and ends with tokens of the source, encloses the spans of its children,
and these stand one after the other. -/
structure Node.SpansWell (toks : List Token) (n : Node) : Prop where
  bounds : ∃ t ∈ toks, ∃ u ∈ toks, n.span.first = t.extent ∧ n.span.last = u.extent ∧
    t.offset ≤ u.offset
  encloses : ∀ c ∈ n.children, n.span.encloses c.span = true
  apart : n.children.Pairwise fun c c' => c.span.stop ≤ c'.span.start

namespace Node

variable {k : Nat} {n : Node} {ns : List Node} {toks : List Token}

theorem Covers.bounds (h : n.Covers k toks) :
    ∃ t u, toks.head? = some t ∧ toks.getLast? = some u ∧ n.span.first = t.extent ∧
      n.span.last = u.extent := by
  obtain ⟨t, ht, hfirst⟩ := Option.map_eq_some_iff.1 (h.first [])
  obtain ⟨u, hu, hlast⟩ := Option.map_eq_some_iff.1 (h.last [])
  rw [List.append_nil] at ht
  exact ⟨t, u, ht, hu, hfirst.symm, hlast.symm⟩

/-- Nodes among tokens stand one after the other. -/
theorem Among.apart (h : Among k ns toks) (htoks : Token.InOrder toks) :
    ns.Pairwise fun n m => n.span.stop ≤ m.span.start := by
  induction ns generalizing k toks with
  | nil => exact .nil
  | cons n ns ih =>
    cases h with
    | @cons _ _ _ gap used rest hn hns =>
      have hafter : (used ++ rest).Sublist (gap ++ (used ++ rest)) := List.sublist_append_right _ _
      have hrest : rest.Sublist (gap ++ (used ++ rest)) :=
        (List.sublist_append_right _ _).trans hafter
      refine List.pairwise_cons.2 ⟨fun m hm => ?_, ih hns (htoks.sublist hrest)⟩
      obtain ⟨before, used', after, rfl, hm⟩ := hns.mem hm
      -- The last token of the one node is before the first token of the other.
      obtain ⟨-, u, -, hu, -, hlast⟩ := hn.bounds
      obtain ⟨t, -, ht, -, hfirst, -⟩ := hm.bounds
      have hmem : t ∈ before ++ (used' ++ after) :=
        List.mem_append_right _ (List.mem_append_left _ (List.mem_of_head? ht))
      rw [Span.stop, Span.start, hlast, hfirst]
      exact (List.pairwise_append.1 (htoks.sublist hafter).apart).2.2 u (List.mem_of_getLast? hu) t
        hmem

/-- A node that covers tokens in their order has a span that encloses those of its children. -/
theorem Covers.spansWell (h : n.Covers k toks) (htoks : Token.InOrder toks) :
    n.SpansWell toks := by
  obtain ⟨t, u, ht, hu, hfirst, hlast⟩ := h.bounds
  have hmem := List.mem_of_getLast? hu
  refine ⟨⟨t, List.mem_of_head? ht, u, hmem, hfirst, hlast, htoks.head_le ht hmem⟩,
    fun c hc => ?_, h.children.apart htoks⟩
  obtain ⟨before, used, after, rfl, hc⟩ := h.children.mem hc
  obtain ⟨t', u', ht', hu', hfirst', hlast'⟩ := hc.bounds
  have hinside : ∀ w ∈ used, w ∈ before ++ (used ++ after) :=
    fun w hw => List.mem_append_right _ (List.mem_append_left _ hw)
  have hstart := htoks.head_le ht (hinside t' (List.mem_of_head? ht'))
  have hstop := htoks.le_getLast hu (hinside u' (List.mem_of_getLast? hu'))
  rw [Span.encloses, Bool.and_eq_true, decide_eq_true_eq, decide_eq_true_eq]
  simp only [Span.start, Span.stop, hfirst, hlast, hfirst', hlast']
  exact ⟨hstart, hstop⟩

theorem SpansWell.mono {toks' : List Token} (h : n.SpansWell toks) (hsub : toks ⊆ toks') :
    n.SpansWell toks' := by
  obtain ⟨t, ht, u, hu, hbounds⟩ := h.bounds
  exact ⟨⟨t, hsub ht, u, hsub hu, hbounds⟩, h.encloses, h.apart⟩

/-- What stands below a node that covers tokens in their order has spans like it. -/
theorem Covers.spansWell_below (h : n.Covers k toks) (htoks : Token.InOrder toks) {m : Node}
    (hm : n.Below m) : m.SpansWell toks := by
  obtain ⟨before, used, after, rfl, hm⟩ := h.descend hm
  have hused : used.Sublist (before ++ (used ++ after)) :=
    (List.sublist_append_left _ _).trans (List.sublist_append_right _ _)
  exact (hm.spansWell (htoks.sublist hused)).mono hused.subset

end Node

/-! ## Notes of reads -/

/-- Checking a part of a body takes one state to another. -/
def Node.Checks (env : CheckEnv) : Node → CheckState → CheckState → Prop
  | .expr e, cs, cs' => ∃ τ, e.check env cs = .ok (τ, cs')
  | .place v, cs, cs' => ∃ f, v.check env cs = .ok (f, cs')
  | .stmt s, cs, cs' => s.check env cs = .ok ((), cs')
  | .block b, cs, cs' => b.check env cs = .ok ((), cs')
  | .case c, cs, cs' => ∃ τ, Case.checkList env τ [c] cs = .ok ((), cs')
  | .function _, _, _ | .program _, _, _ => False

namespace Node

variable {env : CheckEnv} {cs cs' : CheckState} {n m : Node}

theorem Checks.notes (h : n.Checks env cs cs') : Notes cs cs' n.nameOffsets := by
  cases n with
  | expr e =>
    obtain ⟨τ, h⟩ := h
    exact e.check_notes h
  | place v =>
    obtain ⟨f, h⟩ := h
    exact v.check_notes h
  | stmt s => exact s.check_notes h
  | block b => exact b.check_notes h
  | case c =>
    obtain ⟨τ, h⟩ := h
    have hnotes := Case.checkList_notes [c] h
    rwa [List.flatMap_singleton] at hnotes
  | function f | program p => exact h.elim

/-- Where names stand at different places, a place tells the name. -/
theorem eq_of_nameOffset? {p : Node} (hp : p.nameOffsets.Nodup) (hn : n ∈ p.descendants)
    (hm : m ∈ p.descendants) {o : Nat} (ho : n.nameOffset? = some o)
    (ho' : m.nameOffset? = some o) : n = m := by
  by_contra hne
  have hsymm : Std.Symm fun a b : Node => ∀ o, a.nameOffset? = some o → ∀ o', b.nameOffset? = some o' →
      o ≠ o' := ⟨fun a b hab o ho o' ho' => (hab o' ho' o ho).symm⟩
  exact (List.pairwise_filterMap.1 hp).forall hn hm hne o ho o ho' rfl

/-- What was noted of a read stays, whatever is checked that the read is no part of. -/
theorem Checks.keeps {p : Node} (hp : p.nameOffsets.Nodup) (hn : n ∈ p.descendants)
    (h : n.Checks env cs cs') {name : String} {span : Span}
    (hread : .place (.name name span) ∈ p.descendants)
    (hout : .place (.name name span) ∉ n.descendants) :
    cs'.localTypes[span.start]? = cs.localTypes[span.start]? := by
  refine h.notes _ fun hmem => ?_
  -- A note at this place is one of a name below `n`, and that can only be the read itself.
  obtain ⟨m, hm, ho⟩ := List.mem_filterMap.1 hmem
  have hbelow : m ∈ p.descendants :=
    mem_descendants_iff.2 ((mem_descendants_iff.1 hn).trans (mem_descendants_iff.1 hm))
  exact hout (eq_of_nameOffset? hp hbelow hread ho rfl ▸ hm)

end Node

/-- The spans of a program form a tree over its source. No two names of it stand at the same place,
so no note of a read is lost: a check of something else leaves it as it is, and so do the other bodies
when the notes of all are put together. -/
theorem Source.program_spanTree {text : List Char} {p : Program}
    (h : Source.program text = .ok p) (hp : p.functions ≠ []) :
    (∃ toks, Source.tokens text = .ok toks ∧
      ∀ n ∈ (Node.program p).descendants, n.SpansWell toks) ∧
    (Node.program p).nameOffsets.Nodup ∧
    (∀ n ∈ (Node.program p).descendants, ∀ name span,
      .place (.name name span) ∈ (Node.program p).descendants →
      .place (.name name span) ∉ n.descendants → ∀ env cs cs', n.Checks env cs cs' →
        cs'.localTypes[span.start]? = cs.localTypes[span.start]?) ∧
    ∀ mode a, p.check mode text = .ok a →
      ∃ owns, List.Forall₂ (fun f own => f.check mode p.signatures = .ok own) p.functions owns ∧
        a.Union owns := by
  have hnames := (Source.program_eq_ok h).1
  refine ⟨?_, hnames, fun n hn name span hread hout env cs cs' hchecks =>
    hchecks.keeps hnames hn hread hout, fun mode a ha => ?_⟩
  · obtain ⟨toks, htoks, hprogram⟩ := Source.tokens_of_program h
    refine ⟨toks, htoks, fun n hn => ?_⟩
    -- The program covers the tokens without the comments, and these are in order like all tokens.
    have hcovers := Program.ofTokens_covers hprogram hp
    have hsub : (toks.filter (!·.isComment)).Sublist toks := List.filter_sublist
    have hinOrder := (Source.tokens_inOrder htoks).sublist hsub
    exact (hcovers.spansWell_below hinOrder (Node.mem_descendants_iff.1 hn)).mono hsub.subset
  · exact Program.union_of_checkRules hnames (Program.check_eq_ok ha).2

/-- Names in brackets, branches without braces, and a character of two bytes in a comment. -/
theorem Source.program_spanTree_brackets :
    ∃ text p a toks owns, text =
        "def Signature()\x7bx=((1));if(x)(x=(x));else x=/*é*/x;return f(x,(x));\x7ddef f(a,b)\x7breturn(a)?b:a;\x7d".toList ∧
      Source.program text = .ok p ∧ p.check (.single .signature) text = .ok a ∧
      p.functions.length = 2 ∧ a.localTypes.size = 8 ∧ Source.tokens text = .ok toks ∧
      (∀ n ∈ (Node.program p).descendants, n.SpansWell toks) ∧
      (Node.program p).nameOffsets.Nodup ∧
      List.Forall₂ (fun f own => f.check (.single .signature) p.signatures = .ok own)
        p.functions owns ∧ a.Union owns := by
  obtain ⟨text, htext⟩ : ∃ text, text =
      "def Signature()\x7bx=((1));if(x)(x=(x));else x=/*é*/x;return f(x,(x));\x7ddef f(a,b)\x7breturn(a)?b:a;\x7d".toList :=
    ⟨_, rfl⟩
  have hruns : (do
      let p ← Source.program text
      let a ← p.check (.single .signature) text
      return (p.functions.length, a.localTypes.size)) = Except.ok (2, 8) := by
    rw [htext, String.toList_ofList]
    decide +kernel
  obtain ⟨p, hp, hruns⟩ := ok_of_bind hruns
  obtain ⟨a, ha, hruns⟩ := ok_of_bind hruns
  obtain ⟨hlength, hsize⟩ := Prod.mk.inj (Except.ok.inj hruns)
  have hne : p.functions ≠ [] := fun hnil => by
    rw [hnil] at hlength
    cases hlength
  obtain ⟨⟨toks, htoks, hspans⟩, hnames, -, hunion⟩ := Source.program_spanTree hp hne
  obtain ⟨owns, howns, hunion⟩ := hunion _ a ha
  exact ⟨text, p, a, toks, owns, htext, hp, ha, hlength, hsize, htoks, hspans, hnames, howns, hunion⟩

end ContractCompiler
