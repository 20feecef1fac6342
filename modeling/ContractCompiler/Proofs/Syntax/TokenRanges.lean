import ContractCompiler.Proofs.Syntax.Derivations
import ContractCompiler.Proofs.Syntax.Descendants
import ContractCompiler.Syntax.ProgramReader

/-!
# The tokens of a node

A node of a syntax tree covers the tokens from the first to the last one of its span, and its children
stand among these tokens, one after the other. Brackets move the ends of a node's span outwards, but
not those of its children.
-/

namespace ContractCompiler

mutual

/-- `n.Covers k toks`: the node starts with the first of the tokens and ends with the last one, and its
children stand among them. There are at least `k` other tokens; an expression has at least seven
around it, as many as `def f() { ; }`. A case has a value. -/
inductive Node.Covers : Nat → Node → List Token → Prop where
  | node {k : Nat} {n : Node} {toks : List Token}
      (hfirst : toks.head?.map Token.extent = some n.span.first)
      (hlast : toks.getLast?.map Token.extent = some n.span.last)
      (hexpr : ∀ e, n = .expr e →
        7 ≤ k ∧ Phrase.Within (.run Level.all e) toks (maxDepth - 1))
      (hchildren : Node.Among k n.children toks)
      (hvalues : ∀ c, n.case? = some c → c.values ≠ []) : Node.Covers k n toks

/-- `Node.Among k ns toks`: the nodes stand among the tokens, one after the other. There are at least
`k` other tokens. -/
inductive Node.Among : Nat → List Node → List Token → Prop where
  | nil {k : Nat} {toks : List Token} : Node.Among k [] toks
  | cons {k : Nat} {n : Node} {ns : List Node} {gap used rest : List Token}
      (hn : Node.Covers (k + gap.length + rest.length) n used)
      (hns : Node.Among (k + gap.length + used.length) ns rest) :
    Node.Among k (n :: ns) (gap ++ (used ++ rest))

end

namespace Node

variable {k k' : Nat} {n m : Node} {ns ms : List Node} {toks a b : List Token} {t : Token}

mutual

theorem Covers.mono : ∀ {k k' : Nat} {n : Node} {toks : List Token}, n.Covers k toks → k ≤ k' →
    n.Covers k' toks
  | _, _, _, _, .node hfirst hlast hexpr hchildren hvalues, hk =>
    .node hfirst hlast (fun e he => ⟨Nat.le_trans (hexpr e he).1 hk, (hexpr e he).2⟩)
      (hchildren.mono hk) hvalues
termination_by structural _ _ _ _ h => h

theorem Among.mono : ∀ {k k' : Nat} {ns : List Node} {toks : List Token}, Among k ns toks → k ≤ k' →
    Among k' ns toks
  | _, _, _, _, .nil, _ => .nil
  | _, _, _, _, .cons hn hns, hk => .cons (hn.mono (by omega)) (hns.mono (by omega))
termination_by structural _ _ _ _ h => h

end

/-! ## Nodes among tokens -/

/-- Tokens before the nodes. -/
theorem Among.prepend (h : Among (k + a.length) ns toks) : Among k ns (a ++ toks) := by
  cases h with
  | nil => exact .nil
  | @cons _ n ns gap used rest hn hns =>
    rw [← List.append_assoc]
    refine .cons (hn.mono ?_) (hns.mono ?_) <;> rw [List.length_append] <;> omega

/-- Nodes among tokens, and more nodes among the tokens after them. -/
theorem Among.append (ha : Among (k + b.length) ns a) (hb : Among (k + a.length) ms b) :
    Among k (ns ++ ms) (a ++ b) := by
  induction ns generalizing k a with
  | nil => exact hb.prepend
  | cons n ns ih =>
    cases ha with
    | @cons _ _ _ gap used rest hn hns =>
      simp only [List.length_append] at hb
      rw [List.append_assoc, List.append_assoc, List.cons_append]
      refine .cons (hn.mono ?_) (ih (hns.mono ?_) (hb.mono ?_))
      · rw [List.length_append]
        omega
      · omega
      · omega

theorem Among.single (h : n.Covers k toks) : Among k [n] toks := by
  have hcons : Among k [n] ([] ++ (toks ++ [])) := .cons h .nil
  rwa [List.nil_append, List.append_nil] at hcons

/-- A node, and more nodes among the tokens after it. -/
theorem Covers.followed (hn : n.Covers (k + b.length) a) (hb : Among (k + a.length) ns b) :
    Among k (n :: ns) (a ++ b) :=
  (Among.single hn).append hb

/-- One of the nodes. -/
theorem Among.mem (h : Among k ns toks) (hn : n ∈ ns) :
    ∃ before used after, toks = before ++ (used ++ after) ∧
      n.Covers (k + before.length + after.length) used := by
  induction ns generalizing k toks with
  | nil => cases hn
  | cons m ns ih =>
    cases h with
    | @cons _ _ _ gap used rest hm hns =>
      rcases List.mem_cons.1 hn with rfl | hn
      · exact ⟨gap, used, rest, rfl, hm⟩
      · obtain ⟨before, used', after, rfl, hcovers⟩ := ih hns hn
        refine ⟨gap ++ (used ++ before), used', after, by simp, hcovers.mono ?_⟩
        simp only [List.length_append]
        omega

namespace Covers

theorem children (h : n.Covers k toks) : Among k n.children toks := by
  cases h with
  | node _ _ _ hchildren _ => exact hchildren

/-- What stands below a node covers a part of its tokens. -/
theorem descend (h : n.Covers k toks) (hm : n.Below m) :
    ∃ before used after, toks = before ++ (used ++ after) ∧
      m.Covers (k + before.length + after.length) used := by
  induction hm generalizing k toks with
  | refl => exact ⟨[], toks, [], by simp, h⟩
  | child hc _ ih =>
    obtain ⟨before, used, after, rfl, hc⟩ := h.children.mem hc
    obtain ⟨before', used', after', rfl, hm⟩ := ih hc
    refine ⟨before ++ before', used', after' ++ after, by simp, hm.mono ?_⟩
    simp only [List.length_append]
    omega

/-- The first token of a node, whatever follows. -/
theorem first (h : n.Covers k a) (b : List Token) :
    (a ++ b).head?.map Token.extent = some n.span.first := by
  cases h with
  | node hfirst _ _ _ _ =>
    cases a with
    | nil => cases hfirst
    | cons t a => exact hfirst

/-- The last token of a node, whatever comes before. -/
theorem last (h : n.Covers k b) (a : List Token) :
    (a ++ b).getLast?.map Token.extent = some n.span.last := by
  cases h with
  | node _ hlast _ _ _ =>
    cases hb : b.getLast? with
    | none =>
      rw [hb] at hlast
      cases hlast
    | some t => rwa [List.getLast?_append, hb, Option.some_or, ← hb]

end Covers

/-! ## Names and cases below a node -/

theorem nameOffset?_eq_some {o : Nat} (h : n.nameOffset? = some o) :
    n.children = [] ∧ n.span.first.offset = o := by
  cases n with
  | place v =>
    cases v with
    | name name span =>
      cases h
      exact ⟨rfl, rfl⟩
    | index | member => cases h
  | _ => cases h

mutual

/-- The names below a node come from its tokens, in order. -/
theorem Covers.names : ∀ {k : Nat} {n : Node} {toks : List Token}, n.Covers k toks →
    (n.found nameOffset?).Sublist (toks.map Token.offset)
  | _, n, toks, .node hfirst _ _ hchildren _ => by
    rw [found_eq]
    cases hname : n.nameOffset? with
    | none => exact hchildren.names
    | some o =>
      obtain ⟨hnone, rfl⟩ := nameOffset?_eq_some hname
      obtain ⟨t, ht, hextent⟩ := Option.map_eq_some_iff.1 hfirst
      rw [hnone, ← hextent]
      exact List.singleton_sublist.2 (List.mem_map_of_mem (List.mem_of_head? ht))
termination_by structural _ _ _ h => h

theorem Among.names : ∀ {k : Nat} {ns : List Node} {toks : List Token}, Among k ns toks →
    (ns.flatMap (found nameOffset?)).Sublist (toks.map Token.offset)
  | _, _, _, .nil => List.nil_sublist _
  | _, _, _, .cons hn hns => by
    rw [List.flatMap_cons, List.map_append, List.map_append]
    exact (hn.names.append hns.names).trans (List.sublist_append_right _ _)
termination_by structural _ _ _ h => h

end

/-- A case below a node has a value. -/
theorem Covers.values_ne_nil (h : n.Covers k toks) {c : Case} (hc : c ∈ n.found case?) :
    c.values ≠ [] := by
  obtain ⟨m, hm, hmc⟩ := List.mem_filterMap.1 hc
  obtain ⟨_, _, _, -, hcovers⟩ := h.descend (mem_descendants_iff.1 hm)
  cases hcovers with
  | node _ _ _ _ hvalues => exact hvalues c hmc

end Node

/-! ## Expressions -/

section Expressions

open Node

variable {ls : List Level} {e : Expr} {toks : List Token} {n : Nat}

/-- Operators of more levels may occur. -/
theorem Derives.loosen (h : Derives (.run ls e) toks n) (looser : List Level) :
    Derives (.run (looser ++ ls) e) toks n := by
  induction looser with
  | nil => exact h
  | cons l looser ih => exact .tighter ih

theorem Derives.within_all (h : Derives (.run ls e) toks n) (hls : ls <:+ Level.all)
    (hn : n ≤ maxDepth - 1) : Phrase.Within (.run Level.all e) toks (maxDepth - 1) := by
  obtain ⟨looser, hall⟩ := hls
  exact ⟨n, hn, hall ▸ h.loosen looser⟩

theorem Derives.atom_within_all (h : Derives (.atom e) toks n) (hn : n ≤ maxDepth - 1) :
    Phrase.Within (.run Level.all e) toks (maxDepth - 1) :=
  (Derives.tightest h).within_all (List.nil_suffix) hn

/-- An expression covers the tokens that it is derived from. -/
theorem covers_expr (hwithin : Phrase.Within (.run Level.all e) toks (maxDepth - 1))
    (hfirst : toks.head?.map Token.extent = some e.span.first)
    (hlast : toks.getLast?.map Token.extent = some e.span.last)
    (hchildren : Among 7 (Node.expr e).children toks) : (Node.expr e).Covers 7 toks := by
  refine .node hfirst hlast ?_ hchildren nofun
  rintro e ⟨⟩
  exact ⟨Nat.le_refl 7, hwithin⟩

theorem covers_place {v : Variable} (hfirst : toks.head?.map Token.extent = some v.span.first)
    (hlast : toks.getLast?.map Token.extent = some v.span.last)
    (hchildren : Among 7 (Node.place v).children toks) : (Node.place v).Covers 7 toks :=
  .node hfirst hlast nofun hchildren nofun

/-- More tokens around some nodes. -/
theorem Node.Among.enclosed {k : Nat} {ns : List Node} {a b : List Token}
    (h : Among (k + a.length + b.length) ns toks) : Among k ns (a ++ (toks ++ b)) := by
  have happend : Among (k + a.length) (ns ++ []) (toks ++ b) := h.append .nil
  rw [List.append_nil] at happend
  exact happend.prepend

theorem Expr.span_withSpan (e : Expr) (span : Span) : (e.withSpan span).span = span := by
  cases e with
  | var v => cases v <;> rfl
  | _ => rfl

theorem getLast?_enclosed (o c : Token) (toks : List Token) :
    (o :: (toks ++ [c])).getLast? = some c := by
  rw [← List.cons_append, List.getLast?_concat]

/-- Brackets around an expression belong to it, and if it is a place, to the place. -/
theorem among_withSpan (h : (Node.expr e).Covers 7 toks) (o c : Token) (main : Extent) :
    Among 7 (Node.expr (e.withSpan ⟨o.extent, main, c.extent⟩)).children (o :: (toks ++ [c])) := by
  cases e with
  | var v =>
    -- The place gets the brackets with the expression, but what stands below the place does not.
    obtain ⟨before, used, after, rfl, hv⟩ := h.children.mem (List.mem_singleton_self _)
    have hinner : Among 7 (Node.place v).children (o :: (before ++ (used ++ after) ++ [c])) :=
      (hv.children.enclosed.mono (Nat.le_add_right 7 2)).enclosed (a := [o]) (b := [c])
    refine .single (covers_place ?_ ?_ ?_)
    · cases v <;> rfl
    · rw [getLast?_enclosed]
      cases v <;> rfl
    · cases v <;> exact hinner
  | _ => exact (h.children.mono (Nat.le_add_right 7 2)).enclosed (a := [o]) (b := [c])

/-- What the nodes of a phrase cover. -/
def Phrase.Covers : Phrase → List Token → Prop
  | run ls e, toks => ls <:+ Level.all → (Node.expr e).Covers 7 toks
  | atom e, toks => (Node.expr e).Covers 7 toks
  | place v, toks => (Node.place v).Covers 7 toks
  | args es, toks => Among 7 (es.map .expr) toks

/-- Two expressions with an operator between them. -/
theorem covers_joinAt {x y : Expr} {a b : List Token} {t : Token} {op : BinaryOperator}
    (hwithin : Phrase.Within (.run Level.all (joinAt x t op y)) (a ++ t :: b) (maxDepth - 1))
    (hx : (Node.expr x).Covers 7 a) (hy : (Node.expr y).Covers 7 b) :
    (Node.expr (joinAt x t op y)).Covers 7 (a ++ t :: b) := by
  refine covers_expr hwithin (hx.first _) ?_ ?_
  · rw [List.append_cons]
    exact hy.last _
  · have hright : Among (7 + a.length) [.expr y] (t :: b) :=
      Among.prepend (a := [t]) (.single (hy.mono (by omega)))
    exact (hx.mono (by omega)).followed hright

/-- The nodes of a phrase cover its tokens. -/
theorem Derives.covers {φ : Phrase} (h : Derives φ toks n) (hn : n ≤ maxDepth - 1) :
    φ.Covers toks := by
  -- Each case says where the span starts and ends, and lays the children one after the other.
  induction h with
  | tightest _ ih => exact fun _ => ih hn
  | tighter _ ih => exact fun hls => ih hn ((List.suffix_cons _ _).trans hls)
  | left hl ht hop hx hy ihx ihy =>
    intro hls
    obtain ⟨hnx, hny⟩ := Nat.max_le.1 hn
    exact covers_joinAt ((Derives.left hl ht hop hx hy).within_all hls hn) (ihx hnx hls)
      (ihy hny ((List.suffix_cons _ _).trans hls))
  | right hl ht hop hx hy ihx ihy =>
    intro hls
    obtain ⟨hnx, hny⟩ := Nat.max_le.1 hn
    exact covers_joinAt ((Derives.right hl ht hop hx hy).within_all hls hn)
      (ihx hnx ((List.suffix_cons _ _).trans hls)) (ihy hny hls)
  | @paren e o c toks n ho hc h ih =>
    have hinner := ih (Nat.le_of_succ_le hn) (List.suffix_refl _)
    refine covers_expr ((Derives.paren ho hc h).atom_within_all hn) ?_ ?_
      (among_withSpan hinner o c _)
    · rw [Expr.span_withSpan]
      rfl
    · rw [getLast?_enclosed, Expr.span_withSpan]
      rfl
  | @unary op e t toks n ht h ih =>
    have hoperand := ih (Nat.le_of_succ_le hn)
    exact covers_expr ((Derives.unary ht h).atom_within_all hn) rfl (hoperand.last [t])
      (Among.prepend (a := [t]) (.single (hoperand.mono (by omega))))
  | number ht hv =>
    exact covers_expr ((Derives.number ht hv).atom_within_all hn) rfl rfl .nil
  | string ht => exact covers_expr ((Derives.string ht).atom_within_all hn) rfl rfl .nil
  | @bytes o c toks values ho hc h =>
    refine covers_expr ((Derives.bytes ho hc h).atom_within_all hn) rfl ?_ .nil
    rw [getLast?_enclosed]
    rfl
  | @var v toks n h ih =>
    have hplace := ih hn
    have hfirst := hplace.first []
    rw [List.append_nil] at hfirst
    exact covers_expr ((Derives.var h).atom_within_all hn) hfirst (hplace.last []) (.single hplace)
  | @call callee es t o c toks n ht hcallee ho hc h ih =>
    have hargs := ih (Nat.le_of_succ_le hn)
    refine covers_expr ((Derives.call ht hcallee ho hc h).atom_within_all hn) rfl ?_ ?_
    · rw [List.getLast?_cons_cons, getLast?_enclosed]
      rfl
    · exact (hargs.mono (by omega)).enclosed (a := [t, o]) (b := [c])
  | name ht hname => exact covers_place rfl rfl .nil
  | @index v e o c a b n m ho hc hv he ihv ihe =>
    obtain ⟨hnv, hne⟩ := Nat.max_le.1 hn
    have hplace := ihv hnv
    have hinner := ihe (Nat.le_of_succ_le hne) (List.suffix_refl _)
    refine covers_place (hplace.first _) ?_ ?_
    · rw [List.append_cons, ← List.append_assoc, List.getLast?_concat]
      rfl
    · have hright : Among (7 + a.length) [.expr e] (o :: (b ++ [c])) :=
        (Among.single (hinner.mono (by omega))).enclosed (a := [o]) (b := [c])
      exact (hplace.mono (by omega)).followed hright
  | @member v member d t a n hd ht hv ihv =>
    have hplace := ihv hn
    refine covers_place (hplace.first _) ?_ ?_
    · rw [List.getLast?_append]
      rfl
    · exact (hplace.mono (by omega)).followed .nil
  | noArgs => exact .nil
  | lastArg _ ih => exact .single (ih hn (List.suffix_refl _))
  | @consArg e e' es t a b n m ht he hes ihe ihes =>
    obtain ⟨hne, hnes⟩ := Nat.max_le.1 hn
    have hfirst := ihe hne (List.suffix_refl _)
    have hothers : Among (7 + a.length) ((e' :: es).map .expr) (t :: b) :=
      Among.prepend (a := [t]) ((ihes hnes).mono (by omega))
    exact (hfirst.mono (by omega)).followed hothers

end Expressions

/-! ## Nodes that were read -/

/-- The nodes stand among the tokens before `rest`, with at least `k` other tokens around these. -/
def Laid (k : Nat) (ns : List Node) (toks rest : List Token) : Prop :=
  ∃ used, toks = used ++ rest ∧ Node.Among k ns used

/-- The nodes stand among the tokens up to one with the place `x`. More tokens may come between that
one and `rest`. -/
def LaidTo (k : Nat) (ns : List Node) (x : Extent) (toks rest : List Token) : Prop :=
  ∃ used t after, toks = used ++ t :: (after ++ rest) ∧ t.extent = x ∧
    Node.Among (k + after.length) ns (used ++ [t])

section Laid

variable {k k' : Nat} {ns ms : List Node} {n m : Node} {toks mid rest : List Token} {t : Token}
  {x : Extent}

namespace Laid

theorem mono (h : Laid k ns toks rest) (hk : k ≤ k') : Laid k' ns toks rest := by
  obtain ⟨used, htoks, hused⟩ := h
  exact ⟨used, htoks, hused.mono hk⟩

theorem refl : Laid k [] toks toks := ⟨[], rfl, .nil⟩

theorem trans (h : Laid k ns toks mid) (h' : Laid k ms mid rest) :
    Laid k (ns ++ ms) toks rest := by
  obtain ⟨used, rfl, hused⟩ := h
  obtain ⟨used', rfl, hused'⟩ := h'
  exact ⟨used ++ used', (List.append_assoc _ _ _).symm,
    (hused.mono (Nat.le_add_right _ _)).append (hused'.mono (Nat.le_add_right _ _))⟩

/-- A token before the nodes is one that is around them. -/
theorem after (h : Laid (k + 1) ns toks rest) : Laid k ns (t :: toks) rest := by
  obtain ⟨used, rfl, hused⟩ := h
  exact ⟨t :: used, rfl, Node.Among.prepend (a := [t]) hused⟩

/-- So is a token after them. -/
theorem before (h : Laid (k + 1) ns toks (t :: rest)) : Laid k ns toks rest := by
  obtain ⟨used, rfl, hused⟩ := h
  exact ⟨used ++ [t], List.append_cons _ _ _, Node.Among.enclosed (a := []) (b := [t]) hused⟩

/-- The token after the nodes is the last one. -/
theorem close (h : Laid (k + 1) ns toks (t :: rest)) : LaidTo k ns t.extent toks rest := by
  obtain ⟨used, rfl, hused⟩ := h
  exact ⟨used, t, [], rfl, rfl, Node.Among.enclosed (a := []) (b := [t]) hused⟩

/-- The last token of a node is the last one. -/
theorem toLast (h : Laid k [n] toks rest) : LaidTo k [n] n.span.last toks rest := by
  obtain ⟨used, rfl, hused⟩ := h
  cases hused with
  | @cons _ _ _ gap used after hn _ =>
    obtain ⟨t, ht, hextent⟩ := Option.map_eq_some_iff.1 (hn.last [])
    rw [List.nil_append] at ht
    obtain ⟨used, rfl⟩ := List.getLast?_eq_some_iff.1 ht
    refine ⟨gap ++ used, t, after, by simp, hextent, ?_⟩
    rw [List.append_assoc]
    exact Node.Among.prepend (.single (hn.mono (by omega)))

theorem transTo (h : Laid k ns toks mid) (h' : LaidTo k ms x mid rest) :
    LaidTo k (ns ++ ms) x toks rest := by
  obtain ⟨used, rfl, hused⟩ := h
  obtain ⟨used', t, after, rfl, hx, hused'⟩ := h'
  refine ⟨used ++ used', t, after, (List.append_assoc _ _ _).symm, hx, ?_⟩
  rw [List.append_assoc]
  exact (hused.mono (by omega)).append (hused'.mono (by omega))

/-- A node that has nothing but one child of the same span. -/
theorem enclose (h : Laid k [n] toks rest) (hchildren : m.children = [n]) (hspan : m.span = n.span)
    (hm : ∀ e, m ≠ .expr e) (hvalues : ∀ c, m.case? = some c → c.values ≠ []) :
    Laid k [m] toks rest := by
  obtain ⟨used, rfl, hused⟩ := h
  refine ⟨used, rfl, ?_⟩
  cases hused with
  | @cons _ _ _ gap used after hn _ =>
    have hfirst := hn.first []
    rw [List.append_nil, ← hspan] at hfirst
    refine .cons (.node hfirst ?_ (fun e he => absurd he (hm e)) ?_ hvalues) .nil
    · rw [hspan]
      exact hn.last []
    · rw [hchildren]
      exact .single hn

end Laid

/-- A node reaches from the token before its children to the last one. -/
theorem LaidTo.node (h : LaidTo (k + 1) n.children n.span.last toks rest)
    (ht : t.extent = n.span.first) (hn : ∀ e, n ≠ .expr e)
    (hvalues : ∀ c, n.case? = some c → c.values ≠ []) : Laid k [n] (t :: toks) rest := by
  obtain ⟨used, u, after, rfl, hu, hused⟩ := h
  refine ⟨t :: (used ++ u :: after), by simp, ?_⟩
  have hcovers : n.Covers (k + after.length) (t :: (used ++ [u])) := by
    refine .node (congrArg some ht) ?_ (fun e he => absurd he (hn e)) ?_ hvalues
    · rw [getLast?_enclosed]
      exact congrArg some hu
    · exact Node.Among.prepend (a := [t]) (hused.mono (by simp; omega))
  have hall : Node.Among k ([n] ++ []) ((t :: (used ++ [u])) ++ after) :=
    Node.Among.append (.single hcovers) .nil
  simpa using hall

end Laid

/-! ## Statements -/

/-- What is read stands among the tokens that are taken. -/
def Reader.Lays {α : Type} (r : Reader α) (k : Nat) (node : α → Node) : Prop :=
  ∀ toks a rest, r toks = .ok (a, rest) → Laid k [node a] toks rest

theorem Reader.Lays.mono {α : Type} {r : Reader α} {k k' : Nat} {node : α → Node}
    (h : r.Lays k node) (hk : k ≤ k') : r.Lays k' node :=
  fun toks a rest hread => (h toks a rest hread).mono hk

section Statements

variable {expr : Reader Expr} {stmt : Reader Stmt} {deeper : Except SyntaxFault (Reader Stmt)}
  {block : Reader Block} {toks rest : List Token} {t : Token} {fuel k : Nat}

theorem readSymbol_eq_cons {s : Symbol} (h : readSymbol s toks = .ok (t, rest)) :
    toks = t :: rest := by
  cases toks with
  | nil => cases h
  | cons u us =>
    rw [readSymbol] at h
    split at h <;> cases h
    rfl

theorem readWord_eq_cons {word : String} (h : readWord word toks = .ok (t, rest)) :
    toks = t :: rest := by
  cases toks with
  | nil => cases h
  | cons u us =>
    rw [readWord] at h
    split at h <;> cases h
    rfl

theorem readName_eq_cons {what : Expected} {name : String}
    (h : readName what toks = .ok ((name, t), rest)) : toks = t :: rest := by
  cases toks with
  | nil => cases h
  | cons u us =>
    rw [readName] at h
    split at h <;> cases h
    rfl

/-- An expression has the token that ends it after it. -/
theorem readExpr_lays {depth : Nat} (hdepth : depth ≤ maxDepth - 1) :
    Reader.Lays (readExpr depth) 7 .expr := by
  intro toks e rest h
  obtain ⟨⟨run, rest'⟩, hcollect, h⟩ := ok_of_bind h
  obtain ⟨e', hread, h⟩ := ok_of_bind h
  cases h
  obtain ⟨n, hn, hderives⟩ := readRun_sound depth (Run.nested_collect hcollect) hread
  have hcovers := hderives.covers (Nat.le_trans hn hdepth) (List.suffix_refl _)
  exact ⟨run, Run.collect_eq hcollect, .single hcovers⟩

theorem readCondition_lays (hexpr : expr.Lays 7 .expr) : (readCondition expr).Lays 7 .expr := by
  intro toks e rest h
  obtain ⟨⟨o, _⟩, hopen, h⟩ := ok_of_bind h
  obtain ⟨⟨_, _⟩, he, h⟩ := ok_of_bind h
  obtain ⟨⟨c, _⟩, hclose, h⟩ := ok_of_bind h
  cases h
  have hlaid := hexpr _ _ _ he
  rw [readSymbol_eq_cons hclose] at hlaid
  rw [readSymbol_eq_cons hopen]
  exact (hlaid.mono (Nat.le_add_right 7 2)).before.after

theorem readStmts_laid (hstmt : stmt.Lays k .stmt) {acc ss : List Stmt} {closer : Token}
    (h : readStmts stmt fuel toks acc = .ok ((ss, closer), rest)) :
    ∃ new, ss = acc.reverse ++ new ∧ Laid k (new.map .stmt) toks (closer :: rest) := by
  fun_induction readStmts stmt fuel toks acc with
  | case1 | case2 | case4 => cases h
  | case3 =>
    cases h
    exact ⟨[], (List.append_nil _).symm, .refl⟩
  | case5 acc fuel t ts _ s rest' hs ih =>
    obtain ⟨new, rfl, hnew⟩ := ih h
    exact ⟨s :: new, by simp, (hstmt _ _ _ hs).trans hnew⟩

/-- A block has its braces around its statements. -/
theorem readBlock_lays (hdeeper : ∀ r, deeper = .ok r → r.Lays (k + 2) .stmt) :
    (readBlock fuel deeper).Lays k .block := by
  intro toks b rest h
  obtain ⟨r, hr, h⟩ := ok_of_bind h
  obtain ⟨⟨o, _⟩, hopen, h⟩ := ok_of_bind h
  obtain ⟨⟨⟨ss, c⟩, _⟩, hss, h⟩ := ok_of_bind h
  cases h
  obtain ⟨new, rfl, hnew⟩ := readStmts_laid (hdeeper r hr) hss
  rw [readSymbol_eq_cons hopen]
  exact hnew.close.node rfl nofun nofun

theorem readBranch_lays (hdeeper : ∀ r, deeper = .ok r → r.Lays k .stmt) :
    (readBranch fuel deeper).Lays k .block := by
  intro toks b rest h
  unfold readBranch at h
  split at h
  · exact readBlock_lays (fun r hr => (hdeeper r hr).mono (Nat.le_add_right k 2)) _ _ _ h
  · obtain ⟨r, hr, h⟩ := ok_of_bind h
    obtain ⟨⟨s, _⟩, hs, h⟩ := ok_of_bind h
    cases h
    exact (hdeeper r hr _ _ _ hs).enclose rfl rfl nofun nofun

theorem readValues_laid (hexpr : expr.Lays 7 .expr) {acc es : List Expr}
    (h : readValues expr fuel toks acc = .ok (es, rest)) :
    ∃ new, es = acc.reverse ++ new ∧ Laid 7 (new.map .expr) toks rest := by
  fun_induction readValues expr fuel toks acc with
  | case1 =>
    cases h
    exact ⟨[], (List.append_nil _).symm, .refl⟩
  | case2 | case3 => cases h
  | case4 acc fuel t ts _ e rest' he ih =>
    obtain ⟨new, rfl, hnew⟩ := ih h
    exact ⟨e :: new, by simp, ((hexpr _ _ _ he).mono (Nat.le_succ 7)).after.trans hnew⟩
  | case5 =>
    cases h
    exact ⟨[], (List.append_nil _).symm, .refl⟩

theorem readCase_lays (hexpr : expr.Lays 7 .expr) (hblock : block.Lays 6 .block) {c : Case}
    (h : readCase fuel expr block t toks = .ok (c, rest)) : Laid 6 [.case c] (t :: toks) rest := by
  obtain ⟨⟨value, _⟩, hvalue, h⟩ := ok_of_bind h
  obtain ⟨⟨values, _⟩, hvalues, h⟩ := ok_of_bind h
  obtain ⟨⟨body, _⟩, hbody, h⟩ := ok_of_bind h
  cases h
  obtain ⟨new, rfl, hnew⟩ := readValues_laid hexpr hvalues
  have hlast := ((hblock _ _ _ hbody).mono (Nat.le_succ 6)).toLast
  have hall : LaidTo 7 _ body.span.last _ _ := ((hexpr _ _ _ hvalue).trans hnew).transTo hlast
  refine LaidTo.node ?_ rfl nofun ?_
  · show LaidTo 7 _ body.span.last _ _
    simpa [Node.children] using hall
  · rintro _ ⟨⟩
    exact List.cons_ne_nil _ _

theorem readCases_laid (hexpr : expr.Lays 7 .expr) (hblock : block.Lays 6 .block)
    {acc : List Case} {body : SwitchBody}
    (h : readCases expr block fuel toks acc = .ok (body, rest)) :
    ∃ new, body.cases = acc.reverse ++ new ∧
      LaidTo 7 (new.map .case ++ body.otherwise.toList.map .block) body.closer.extent toks rest := by
  fun_induction readCases expr block fuel toks acc with
  | case1 | case2 | case4 | case7 => cases h
  | case3 =>
    cases h
    exact ⟨[], (List.append_nil _).symm, Laid.refl.close⟩
  | case5 acc fuel t ts _ _ c rest' hc ih =>
    obtain ⟨new, hcases, hnew⟩ := ih h
    refine ⟨c :: new, by simp [hcases], ?_⟩
    exact ((readCase_lays hexpr hblock hc).mono (Nat.le_succ 6)).transTo hnew
  | case6 =>
    obtain ⟨⟨b, _⟩, hb, h⟩ := ok_of_bind h
    obtain ⟨⟨_, _⟩, hclose, h⟩ := ok_of_bind h
    cases h
    have hlaid := (hblock _ _ _ hb).mono (Nat.le_add_right 6 3)
    rw [readSymbol_eq_cons hclose] at hlaid
    exact ⟨[], (List.append_nil _).symm, hlaid.after.close⟩

theorem readIf_lays (hexpr : expr.Lays 7 .expr) (hblock : block.Lays 6 .block) {s : Stmt}
    (h : readIf expr block t toks = .ok (s, rest)) : Laid 6 [.stmt s] (t :: toks) rest := by
  obtain ⟨⟨c, _⟩, hc, h⟩ := ok_of_bind h
  obtain ⟨⟨a, toks'⟩, ha, h⟩ := ok_of_bind h
  -- Without an `else`, the statement ends where its first branch does.
  have hcondition := readCondition_lays hexpr _ _ _ hc
  have hthen := (hblock _ _ _ ha).mono (Nat.le_succ 6)
  have hnone := hcondition.transTo hthen.toLast
  dsimp only at h
  split at h
  · split at h
    · obtain ⟨⟨b, _⟩, hb, h⟩ := ok_of_bind h
      cases h
      have helse := (hblock _ _ _ hb).mono (Nat.le_add_right 6 2)
      exact (hcondition.transTo (hthen.transTo helse.after.toLast)).node rfl nofun nofun
    · cases h
      exact hnone.node rfl nofun nofun
  · cases h
    exact hnone.node rfl nofun nofun

theorem readWhile_lays (hexpr : expr.Lays 7 .expr) (hblock : block.Lays 6 .block) {s : Stmt}
    (h : readWhile expr block t toks = .ok (s, rest)) : Laid 6 [.stmt s] (t :: toks) rest := by
  obtain ⟨⟨c, _⟩, hc, h⟩ := ok_of_bind h
  obtain ⟨⟨b, _⟩, hb, h⟩ := ok_of_bind h
  cases h
  have hbody := ((hblock _ _ _ hb).mono (Nat.le_succ 6)).toLast
  exact ((readCondition_lays hexpr _ _ _ hc).transTo hbody).node rfl nofun nofun

theorem readDo_lays (hexpr : expr.Lays 7 .expr) (hblock : block.Lays 6 .block) {s : Stmt}
    (h : readDo expr block t toks = .ok (s, rest)) : Laid 6 [.stmt s] (t :: toks) rest := by
  obtain ⟨⟨b, _⟩, hb, h⟩ := ok_of_bind h
  obtain ⟨⟨_, _⟩, hword, h⟩ := ok_of_bind h
  obtain ⟨⟨c, _⟩, hc, h⟩ := ok_of_bind h
  obtain ⟨⟨_, _⟩, hsemicolon, h⟩ := ok_of_bind h
  cases h
  have hbody := (hblock _ _ _ hb).mono (Nat.le_succ 6)
  have hcondition := (readCondition_lays hexpr _ _ _ hc).mono (Nat.le_add_right 7 2)
  rw [readSymbol_eq_cons hsemicolon] at hcondition
  rw [readWord_eq_cons hword] at hbody
  exact (hbody.transTo hcondition.after.close).node rfl nofun nofun

theorem readSwitch_lays (hexpr : expr.Lays 7 .expr) (hblock : block.Lays 6 .block) {s : Stmt}
    (h : readSwitch fuel expr block t toks = .ok (s, rest)) :
    Laid 6 [.stmt s] (t :: toks) rest := by
  obtain ⟨⟨tested, _⟩, htested, h⟩ := ok_of_bind h
  obtain ⟨⟨_, _⟩, hopen, h⟩ := ok_of_bind h
  obtain ⟨⟨body, _⟩, hbody, h⟩ := ok_of_bind h
  cases h
  obtain ⟨new, hcases, hnew⟩ := readCases_laid hexpr hblock hbody
  have hhead := (readCondition_lays hexpr _ _ _ htested).mono (Nat.le_succ 7)
  rw [readSymbol_eq_cons hopen] at hhead
  refine LaidTo.node ?_ rfl nofun nofun
  simp only [Node.children, Node.ofStmt, hcases, List.reverse_nil, List.nil_append]
  exact hhead.before.transTo hnew

theorem readLeave_lays (hexpr : expr.Lays 7 .expr) {kind : Leaving} {s : Stmt}
    (h : readLeave expr kind t toks = .ok (s, rest)) : Laid 6 [.stmt s] (t :: toks) rest := by
  unfold readLeave at h
  split at h
  · obtain ⟨⟨_, _⟩, hsemicolon, h⟩ := ok_of_bind h
    cases h
    rw [readSymbol_eq_cons hsemicolon]
    exact Laid.refl.close.node rfl nofun nofun
  · obtain ⟨⟨value, _⟩, hvalue, h⟩ := ok_of_bind h
    obtain ⟨⟨_, _⟩, hsemicolon, h⟩ := ok_of_bind h
    cases h
    have hlaid := (hexpr _ _ _ hvalue).mono (Nat.le_succ 7)
    rw [readSymbol_eq_cons hsemicolon] at hlaid
    exact hlaid.close.node rfl nofun nofun

/-- The semicolon of an expression does not belong to the statement. -/
theorem readExprStmt_lays (hexpr : expr.Lays 7 .expr) : (readExprStmt expr).Lays 6 .stmt := by
  intro toks s rest h
  obtain ⟨⟨e, _⟩, he, h⟩ := ok_of_bind h
  obtain ⟨⟨_, _⟩, hsemicolon, h⟩ := ok_of_bind h
  cases h
  have hlaid := hexpr _ _ _ he
  rw [readSymbol_eq_cons hsemicolon] at hlaid
  exact hlaid.before.enclose rfl rfl nofun nofun

/-- A statement stands among its tokens, if what stands inside it does. -/
theorem readStmt_lays (hexpr : expr.Lays 7 .expr) (hdeeper : ∀ r, deeper = .ok r → r.Lays 6 .stmt) :
    (readStmt fuel expr deeper).Lays 6 .stmt := by
  have hbranch : (readBranch fuel deeper).Lays 6 .block := readBranch_lays hdeeper
  have hblock : (readBlock fuel deeper).Lays 6 .block :=
    readBlock_lays fun r hr => (hdeeper r hr).mono (Nat.le_add_right 6 2)
  intro toks s rest h
  cases toks with
  | nil => cases h
  | cons t ts =>
    rw [readStmt] at h
    split at h
    · exact readIf_lays hexpr hbranch h
    · exact readWhile_lays hexpr hbranch h
    · exact readDo_lays hexpr hblock h
    · exact readSwitch_lays hexpr hblock h
    · exact readLeave_lays hexpr h
    · exact readLeave_lays hexpr h
    · exact readLeave_lays hexpr h
    · cases h
    · cases h
    · cases h
    · exact readExprStmt_lays hexpr _ _ _ h

theorem readStmtAt_lays {depth : Nat} (hdepth : depth ≤ maxDepth - 1) :
    (readStmtAt fuel depth).Lays 6 .stmt := by
  induction depth with
  | zero => exact readStmt_lays (readExpr_lays hdepth) nofun
  | succ depth ih =>
    refine readStmt_lays (readExpr_lays hdepth) fun r hr => ?_
    cases hr
    exact ih (Nat.le_of_succ_le hdepth)

end Statements

/-! ## Programs -/

section Programs

variable {toks rest : List Token} {fuel : Nat}

theorem readParams_laid {acc ps : List String} (h : readParams toks acc = .ok (ps, rest)) :
    Laid 3 [] toks rest := by
  fun_induction readParams toks acc with
  | case1 | case2 => cases h
  | case3 =>
    cases h
    exact Laid.refl.after
  | case4 _ _ _ _ _ _ _ ih => exact ((ih h).mono (Nat.le_add_right 3 2)).after.after
  | case5 =>
    cases h
    exact Laid.refl.after

theorem readParamList_laid {ps : List String} (h : readParamList toks = .ok (ps, rest)) :
    Laid 3 [] toks rest := by
  unfold readParamList at h
  split at h
  · cases h
    exact .refl
  · exact readParams_laid h

/-- A function has four tokens before its body, and the braces of the body are around the
statements. -/
theorem readFunction_lays : (readFunction fuel).Lays 0 .function := by
  intro toks f rest h
  obtain ⟨⟨_, _⟩, hdef, h⟩ := ok_of_bind h
  obtain ⟨⟨⟨_, _⟩, _⟩, hname, h⟩ := ok_of_bind h
  obtain ⟨⟨_, _⟩, hopen, h⟩ := ok_of_bind h
  obtain ⟨⟨_, _⟩, hparams, h⟩ := ok_of_bind h
  obtain ⟨⟨_, _⟩, hclose, h⟩ := ok_of_bind h
  obtain ⟨⟨body, _⟩, hbody, h⟩ := ok_of_bind h
  cases h
  -- `def`, the name and the brackets are the four tokens around the body.
  have hblock : Laid 4 [.block body] _ _ :=
    readBlock_lays (fun r hr => by cases hr; exact readStmtAt_lays (Nat.le_refl _)) _ _ _ hbody
  have hhead := readParamList_laid hparams
  rw [readSymbol_eq_cons hclose] at hhead
  rw [readWord_eq_cons hdef, readName_eq_cons hname, readSymbol_eq_cons hopen]
  exact (hhead.trans hblock.after).after.after.toLast.node rfl nofun nofun

theorem readFunctions_laid {function : Reader Function} (hfunction : function.Lays 0 .function)
    {acc fs : List Function} (h : readFunctions function fuel toks acc = .ok fs) :
    ∃ new, fs = acc.reverse ++ new ∧ Laid 0 (new.map .function) toks [] := by
  fun_induction readFunctions function fuel toks acc with
  | case1 =>
    cases h
    exact ⟨[], (List.append_nil _).symm, .refl⟩
  | case2 | case3 => cases h
  | case4 acc fuel t ts f rest' hf ih =>
    obtain ⟨new, rfl, hnew⟩ := ih h
    exact ⟨f :: new, by simp, (hfunction _ _ _ hf).trans hnew⟩

/-- A program with a function covers all tokens but the comments. -/
theorem Program.ofTokens_covers {tokens : List Token} {p : Program}
    (h : Program.ofTokens tokens = .ok p) (hp : p.functions ≠ []) :
    (Node.program p).Covers 0 (tokens.filter (!·.isComment)) := by
  obtain ⟨fs, hfs, h⟩ := ok_of_bind h
  cases h
  obtain ⟨new, rfl, used, hused, hnew⟩ := readFunctions_laid readFunction_lays hfs
  rw [List.append_nil] at hused
  rw [← hused] at hnew
  cases htoks : tokens.filter (!·.isComment) with
  | nil =>
    -- Without tokens there is no function.
    rw [htoks] at hfs
    cases hfs
    exact absurd rfl hp
  | cons t ts =>
    rw [htoks] at hnew
    refine .node rfl ?_ nofun hnew nofun
    rw [List.getLast?_eq_some_getLast (List.cons_ne_nil _ _)]
    rfl

end Programs

end ContractCompiler
