import Mathlib.Data.List.Perm.Subperm
import Mathlib.Order.Lattice.Nat
import ContractCompiler.Proofs.Lowering.LabelGraph
import ContractCompiler.Proofs.Lowering.Relocation

/-!
# The order of functions

An entry needs the functions that a chain of calls leads to. The walk finds them in the order of their
distance, which is the length of a shortest chain, and their code follows in the same order. What the
walk does not find is left out, and counted.
-/

namespace ContractCompiler

open Builder (definedLabels)

/-! ## Chains of calls -/

/-- A call of the name occurs somewhere in the function. -/
def Function.Calls (f : Function) (n : String) : Prop :=
  ∃ args span, (Node.block f.body).Below (.expr (.call n args span))

/-- The calls that a walk over the tree finds are those that occur in it. -/
theorem Function.calls_iff {f : Function} {n : String} : f.Calls n ↔ n ∈ Program.callees f := by
  rw [Program.callees_eq, Node.called, Node.found, List.mem_filterMap]
  constructor
  · rintro ⟨args, span, hbelow⟩
    exact ⟨_, Node.mem_descendants_iff.2 hbelow, rfl⟩
  · rintro ⟨m, hm, hname⟩
    obtain ⟨call, hcall, rfl⟩ := Option.map_eq_some_iff.1 hname
    unfold Node.call? at hcall
    split at hcall
    case h_1 callee args span =>
      cases hcall
      exact ⟨args, span, Node.mem_descendants_iff.1 hm⟩
    case h_2 => cases hcall

namespace Program

variable {p : Program} {main f g : Function} {queue acc : List Function} {seen : List String}
  {k : Nat}

/-- A chain of `k` calls leads from `main` to a function of the program. -/
inductive Chain (p : Program) (main : Function) : (k : Nat) → Function → Prop where
  | main : Chain p main 0 main
  | call {k : Nat} {f g : Function} {n : String} (h : Chain p main k f) (hn : f.Calls n)
      (hg : p.function? n = some g) : Chain p main (k + 1) g

/-- The length of a shortest chain of calls from `main` to a function. -/
noncomputable def distance (p : Program) (main f : Function) : Nat :=
  sInf {k | p.Chain main k f}

theorem distance_le (h : p.Chain main k f) : p.distance main f ≤ k :=
  Nat.sInf_le h

theorem Chain.shortest (h : p.Chain main k f) : p.Chain main (p.distance main f) f :=
  Nat.sInf_mem (s := {k | p.Chain main k f}) ⟨k, h⟩

theorem distance_main : p.distance main main = 0 :=
  Nat.le_zero.1 (distance_le .main)

/-! ## The walk -/

/-- What the walk knows of distances: functions are met in their order, those in the queue are at
most one call farther than the first of them, and all that are not farther than that were seen. -/
structure Layered (p : Program) (main : Function) (queue : List Function) (seen : List String)
    (acc : List Function) : Prop where
  chain : ∀ f ∈ acc.reverse ++ queue, ∃ k, p.Chain main k f
  sorted : (acc.reverse ++ queue).Pairwise fun f g => p.distance main f ≤ p.distance main g
  near : ∀ f ∈ queue.head?, ∀ g ∈ queue, p.distance main g ≤ p.distance main f + 1
  full : ∀ f ∈ queue.head?, ∀ k ≤ p.distance main f, ∀ g, p.Chain main k g → g.name ∈ seen

theorem Layered.start (p : Program) (main : Function) : p.Layered main [main] [main.name] [] where
  chain := by
    rintro f hf
    cases List.mem_singleton.1 hf
    exact ⟨0, .main⟩
  sorted := List.pairwise_singleton _ _
  near := by
    rintro f ⟨⟩ g hg
    cases List.mem_singleton.1 hg
    exact Nat.le_succ _
  full := by
    rintro f ⟨⟩ k hk g hg
    rw [distance_main, Nat.le_zero] at hk
    subst hk
    cases hg
    exact List.mem_singleton_self _

/-- What is new is one call farther than the function that calls it: otherwise it would have been
seen. -/
theorem Layered.distance_new (h : p.Layered main (f :: queue) seen acc)
    (hg : g ∈ p.newCallees seen (callees f)) :
    p.Chain main (p.distance main f + 1) g ∧ p.distance main g = p.distance main f + 1 := by
  obtain ⟨hfound, hnew, hcalled⟩ := mem_newCallees hg
  obtain ⟨k, hf⟩ := h.chain f (by simp)
  have hchain : p.Chain main (p.distance main f + 1) g :=
    .call hf.shortest (Function.calls_iff.2 hcalled) hfound
  refine ⟨hchain, Nat.le_antisymm (distance_le hchain) ?_⟩
  by_contra hlt
  exact hnew (h.full f rfl _ (by omega) g hchain.shortest)

theorem Layered.sorted_step (h : p.Layered main (f :: queue) seen acc) :
    ((acc.reverse ++ f :: queue) ++ p.newCallees seen (callees f)).Pairwise
      fun f g => p.distance main f ≤ p.distance main g := by
  have hle : ∀ g ∈ acc.reverse ++ f :: queue, p.distance main g ≤ p.distance main f + 1 := by
    intro g hg
    rcases List.mem_append.1 hg with hg | hg
    · have hbefore := (List.pairwise_append.1 h.sorted).2.2 g hg f List.mem_cons_self
      exact Nat.le_succ_of_le hbefore
    · exact h.near f rfl g hg
  refine List.pairwise_append.2 ⟨h.sorted, ?_, fun g hg k hk => ?_⟩
  · refine List.pairwise_of_forall_mem_list fun g hg k hk => ?_
    rw [(h.distance_new hg).2, (h.distance_new hk).2]
  · rw [(h.distance_new hk).2]
    exact hle g hg

/-- A function that a chain leads to is known by its name. -/
theorem Chain.found (hmain : p.function? main.name = some main) (h : p.Chain main k f) :
    p.function? f.name = some f := by
  cases h with
  | main => exact hmain
  | call _ _ hg => rwa [name_of_function? hg]

section Next

variable {next : Function}

/-- The next function is as near as all that are in the queue already. -/
theorem Layered.next_le (h : p.Layered main (f :: queue) seen acc)
    (hnext : next ∈ (queue ++ p.newCallees seen (callees f)).head?) (hg : g ∈ queue) :
    p.distance main next ≤ p.distance main g := by
  cases queue with
  | nil => cases hg
  | cons r queue =>
    cases hnext
    rcases List.mem_cons.1 hg with rfl | hg
    · exact Nat.le_refl _
    · have htail := (List.pairwise_cons.1 (List.pairwise_append.1 h.sorted).2.1).2
      exact (List.pairwise_cons.1 htail).1 g hg

theorem Layered.next_le_succ (h : p.Layered main (f :: queue) seen acc)
    (hnext : next ∈ (queue ++ p.newCallees seen (callees f)).head?) :
    p.distance main next ≤ p.distance main f + 1 := by
  rcases List.mem_append.1 (List.mem_of_mem_head? hnext) with hmem | hmem
  · exact h.near f rfl next (List.mem_cons_of_mem _ hmem)
  · exact Nat.le_of_eq (h.distance_new hmem).2

/-- Functions that are nearer than the next one were walked. -/
theorem Layered.walked (hmain : p.function? main.name = some main)
    (hwalk : Walk p main (f :: queue) seen acc) (h : p.Layered main (f :: queue) seen acc)
    (hnext : next ∈ (queue ++ p.newCallees seen (callees f)).head?) (hg : p.Chain main k g)
    (hk : k < p.distance main next) : g ∈ f :: acc := by
  have hnextLe := h.next_le_succ hnext
  have hseen := (hwalk.mem_seen g.name).1 (h.full f rfl k (by omega) g hg)
  -- What was seen is known by its name, so `g` is the function of this name that was met.
  obtain ⟨r, hr, hname⟩ := List.mem_map.1 hseen
  have hsame := hwalk.found r hr
  rw [hname, hg.found hmain] at hsame
  cases hsame
  rcases List.mem_append.1 hr with hr | hr
  · exact List.mem_cons_of_mem _ (List.mem_reverse.1 hr)
  rcases List.mem_cons.1 hr with rfl | hr
  · exact List.mem_cons_self
  · -- In the queue it would be too far.
    have hfar := h.next_le hnext hr
    have hle := distance_le hg
    omega

/-- Once all functions that are as near as `f` were walked, those that are one call farther were
seen. -/
theorem Layered.full_step (hmain : p.function? main.name = some main)
    (hwalk : Walk p main (f :: queue) seen acc) (h : p.Layered main (f :: queue) seen acc)
    (hnext : next ∈ (queue ++ p.newCallees seen (callees f)).head?)
    (hk : k ≤ p.distance main next) (hg : p.Chain main k g) :
    g.name ∈ (p.newCallees seen (callees f)).reverse.map Function.name ++ seen := by
  by_cases hnear : k ≤ p.distance main f
  · exact List.mem_append_right _ (h.full f rfl k hnear g hg)
  · cases hg with
    | main => exact absurd (Nat.zero_le _) hnear
    | @call j pred _ n hpred hn hg =>
      rw [name_of_function? hg]
      exact hwalk.step.closed pred (h.walked hmain hwalk hnext hpred hk) n
        (Function.calls_iff.1 hn) g hg

end Next

/-- Walking one function keeps the order of distances. -/
theorem Layered.step (hmain : p.function? main.name = some main)
    (hwalk : Walk p main (f :: queue) seen acc) (h : p.Layered main (f :: queue) seen acc) :
    p.Layered main (queue ++ p.newCallees seen (callees f))
      ((p.newCallees seen (callees f)).reverse.map Function.name ++ seen) (f :: acc) := by
  have hsplit : (f :: acc).reverse ++ (queue ++ p.newCallees seen (callees f)) =
      (acc.reverse ++ f :: queue) ++ p.newCallees seen (callees f) := by simp
  refine ⟨?_, hsplit ▸ h.sorted_step, fun next hnext g hg => ?_, fun next hnext k hk g hg =>
    h.full_step hmain hwalk hnext hk hg⟩
  · rw [hsplit]
    intro g hg
    rcases List.mem_append.1 hg with hg | hg
    · exact h.chain g hg
    · exact ⟨_, (h.distance_new hg).1⟩
  · have hfirst : p.distance main f ≤ p.distance main next := by
      have hmem : next ∈ queue ++ p.newCallees seen (callees f) := List.mem_of_mem_head? hnext
      have hsorted := h.sorted_step
      rw [List.append_assoc, List.cons_append] at hsorted
      exact (List.pairwise_cons.1 (List.pairwise_append.1 hsorted).2.1).1 next hmem
    rcases List.mem_append.1 hg with hg | hg
    · exact Nat.le_trans (h.near f rfl g (List.mem_cons_of_mem _ hg)) (Nat.succ_le_succ hfirst)
    · rw [(h.distance_new hg).2]
      exact Nat.succ_le_succ hfirst

/-- The walk meets functions in the order of their distances. -/
theorem Layered.reachFrom_sorted (hmain : p.function? main.name = some main)
    (hwalk : Walk p main queue seen acc) (h : p.Layered main queue seen acc) :
    (∀ f ∈ p.reachFrom queue seen acc, ∃ k, p.Chain main k f) ∧
      (p.reachFrom queue seen acc).Pairwise
        fun f g => p.distance main f ≤ p.distance main g := by
  fun_induction reachFrom p queue seen acc with
  | case1 seen acc =>
    rw [← List.append_nil acc.reverse]
    exact ⟨h.chain, h.sorted⟩
  | case2 seen acc f rest new ih => exact ih hwalk.step (h.step hmain hwalk)

theorem Reached.mem_of_chain {fs : List Function} (h : p.Reached main fs)
    (hf : p.Chain main k f) : f ∈ fs := by
  induction hf with
  | main => exact List.mem_of_head? h.head
  | call _ hn hg ih => exact h.closed _ ih _ (Function.calls_iff.1 hn) _ hg

/-- The functions that are not found, and how many they are. -/
theorem Reached.exists_perm {fs : List Function} (h : p.Reached main fs) :
    ∃ left, p.functions.Perm (fs ++ left) ∧ p.functions.length - fs.length = left.length := by
  obtain ⟨fs', hfs', hsublist⟩ := List.subperm_of_subset h.nodup.of_map fun _ => h.mem
  obtain ⟨left, hleft⟩ := hsublist.exists_perm_append
  have hperm : p.functions.Perm (fs ++ left) := hleft.trans (hfs'.append_right left)
  refine ⟨left, hperm, ?_⟩
  rw [hperm.length_eq, List.length_append, Nat.add_sub_cancel_left]

end Program

/-! ## The code of functions -/

section Pieces

variable {env : LowerEnv} {s s' : LowerState} {entry : String}

/-- The code of a function starts with its head. -/
theorem Function.lower_piece (f : Function) {main : Bool} (h : f.lower main env s = .ok () s') :
    ∃ piece, s'.builder.emitted = piece.reverse ++ s.builder.emitted ∧ f.headCode main <+: piece := by
  have hbody : (f.lowerBody main).Balances env (fun _ => True) [] [] :=
    f.lowerBody_balances fun _ _ => trivial
  cases main with
  | true =>
    obtain ⟨code, _, _, hcode, -⟩ := hbody _ _ _ h
    exact ⟨code, hcode, List.nil_prefix⟩
  | false =>
    rw [f.lower_subroutine] at h
    obtain ⟨code, _, _, hcode, -⟩ := hbody _ _ _ h
    refine ⟨f.headCode false ++ code, ?_, List.prefix_append _ _⟩
    rw [hcode]
    simp [Function.headCode]

/-- The code of functions has one piece for each of them, in order. -/
theorem Function.lowerAll_pieces {fs : List Function}
    (h : Function.lowerAll entry fs env s = .ok () s') :
    ∃ pieces : List (List Instruction),
      s'.builder.emitted = pieces.flatten.reverse ++ s.builder.emitted ∧
      List.Forall₂ (fun f piece => f.headCode (f.name == entry) <+: piece) fs pieces := by
  induction fs generalizing s with
  | nil =>
    cases h
    exact ⟨[], rfl, .nil⟩
  | cons f fs ih =>
    rw [Function.lowerAll, Lower.run_bind] at h
    unfold Lower.within at h
    cases hf : f.lower (f.name == entry) env { s with site := f.name :: s.site } with
    | error d s₁ =>
      rw [hf] at h
      cases h
    | ok u s₁ =>
      rw [hf] at h
      obtain ⟨piece, hpiece, hhead⟩ := f.lower_piece hf
      obtain ⟨pieces, hpieces, hheads⟩ := ih h
      refine ⟨piece :: pieces, ?_, .cons hhead hheads⟩
      rw [hpieces, List.flatten_cons, List.reverse_append, List.append_assoc]
      exact congrArg _ hpiece

/-- The labels of subroutines stand in the order of the subroutines. -/
theorem Function.sublist_pieces {fs : List Function} {pieces : List (List Instruction)}
    (h : List.Forall₂ (fun f piece => f.headCode (f.name == entry) <+: piece) fs pieces) :
    (Function.subroutines entry fs).Sublist (definedLabels pieces.flatten) := by
  induction h with
  | nil => exact List.Sublist.refl _
  | @cons f piece fs pieces hhead _ ih =>
    rw [Function.subroutines, List.map_cons, List.filter_cons, List.flatten_cons, definedLabels,
      List.filterMap_append]
    cases hmain : f.name == entry with
    | true =>
      rw [bne, hmain]
      exact ih.trans (List.sublist_append_right _ _)
    | false =>
      rw [bne, hmain]
      rw [hmain] at hhead
      exact (hhead.sublist.filterMap Instruction.label?).append ih

end Pieces

/-- All functions but the first are subroutines. -/
theorem Program.Reached.subroutines_eq {p : Program} {main : Function} {fs : List Function}
    (h : p.Reached main fs) :
    Function.subroutines main.name fs = fs.tail.map Function.name := by
  obtain ⟨rest, rfl⟩ := List.head?_eq_some_iff.1 h.head
  have hnodup := h.nodup
  rw [List.map_cons, List.nodup_cons] at hnodup
  rw [Function.subroutines, List.map_cons, List.filter_cons_of_neg (by simp), List.tail_cons,
    List.filter_eq_self]
  intro n hn
  exact bne_iff_ne.2 fun heq => hnodup.1 (heq ▸ hn)

theorem Pairing.Programs.pruned_eq {π : Pairing} {asm : Assembly} {r : Except Diagnostic Assembly}
    (h : π.Programs (.ok asm) r) : asm.metrics.pruned = π.pruned := by
  cases h with
  | ok _ hcounts =>
    obtain ⟨hpruned, -, -⟩ := hcounts
    exact hpruned

/-- The number of functions that are left out is kept while an entry is lowered. -/
theorem Program.generate_metrics_pruned {p : Program} {localType? : Nat → Option StackType}
    {version : Nat} {entry : Entry} {asm : Assembly} {main : Function}
    (hmain : p.function? entry.functionName = some main)
    (h : p.generate localType? version entry = .ok asm) :
    asm.metrics.pruned = p.functions.length - (p.reachable main).length := by
  -- A run of lowering goes along with itself, and this relation keeps the number.
  let pruned := p.functions.length - (p.reachable main).length
  let π : Pairing := ⟨.ofProgram p localType? entry, .ofProgram p localType? entry, version, version,
    pruned, pruned, rfl, fun hc => ⟨_, hc, Nat.le_refl _⟩⟩
  have hreachable : p.reachable (Relocation.refl.function main) =
      (p.reachable main).map Relocation.refl.function := by
    rw [Relocation.function_refl, funext Relocation.function_refl, List.map_id']
  have hprograms : π.Programs (p.generate localType? version entry)
      (p.generate localType? version entry) :=
    π.generate_paired rfl rfl rfl rfl hmain (by rw [hmain, Relocation.function_refl]) hreachable
      fun f _ => ⟨fun _ _ => rfl, fun _ _ => rfl⟩
  rw [h] at hprograms
  exact hprograms.pruned_eq

/-- What is selected from a list, if it stands there in order and the rest is not selected. -/
theorem filter_eq_of_sublist_of_perm {α : Type} {q : α → Bool} {xs ys zs : List α}
    (hsublist : xs.Sublist zs) (hperm : zs.Perm (xs ++ ys)) (hxs : ∀ x ∈ xs, q x = true)
    (hys : ∀ y ∈ ys, q y = false) : zs.filter q = xs := by
  have hself : xs.filter q = xs := List.filter_eq_self.2 hxs
  have hnone : ys.filter q = [] := List.filter_eq_nil_iff.2 fun y hy => by rw [hys y hy]; decide
  have hlength := (hperm.filter q).length_eq
  rw [List.filter_append, hself, hnone, List.append_nil] at hlength
  have hfiltered := hsublist.filter q
  rw [hself] at hfiltered
  exact (hfiltered.eq_of_length hlength.symm).symm

section Order

variable {p : Program} {entry : Entry} {main : Function}

/-- Of the labels of a program, those that are names of functions are the subroutines, in order. -/
theorem Program.labels_of_functions (hmain : p.function? entry.functionName = some main)
    {localType? : Nat → Option StackType} {version : Nat} {asm : Assembly}
    (h : p.generate localType? version entry = .ok asm) :
    (∃ pieces : List (List Instruction), asm.code = pieces.flatten ∧
      List.Forall₂ (fun f piece => f.headCode (f.name == entry.functionName) <+: piece)
        (p.reachable main) pieces) ∧
    (definedLabels asm.code).filter (· ∈ (p.reachable main).map Function.name) =
      (p.reachable main).tail.map Function.name := by
  obtain ⟨main', s, hmain', hrun, hfinish⟩ := Program.generate_eq_ok h
  cases hmain.symm.trans hmain'
  obtain ⟨hcode, -, hnodup, -⟩ := finish_eq_ok hfinish
  have hname := name_of_function? hmain
  have hreached := reachable_reached (hname ▸ hmain)
  obtain ⟨pieces, hpieces, hheads⟩ := Function.lowerAll_pieces hrun
  have hflat : asm.code = pieces.flatten := by
    rw [hcode, Builder.code, hpieces, List.reverse_append, List.reverse_reverse]
    rfl
  refine ⟨⟨pieces, hflat, hheads⟩, ?_⟩
  obtain ⟨code, made, _, hemitted, hmade, hdefined, -⟩ :=
    Function.lowerAll_balances (fun _ _ _ _ => trivial : ∀ f ∈ p.reachable main,
      ∀ n ∈ (Node.function f).called, True) _ _ _ hrun
  obtain rfl : asm.code = code := by
    rw [hcode, Builder.code, hemitted, List.reverse_append, List.reverse_reverse]
    rfl
  rw [← hcode] at hnodup
  have htail := hreached.subroutines_eq
  rw [hname] at htail
  rw [htail] at hdefined
  -- A label that was made is the name of no function that is reached.
  have hmadeOther : ∀ l ∈ made, l ∉ (p.reachable main).map Function.name := by
    intro l hl hmem
    have hdisjoint := (List.nodup_append.1 (hdefined.nodup_iff.1 hnodup)).2.2
    obtain ⟨rest, hrest⟩ := List.head?_eq_some_iff.1 hreached.head
    rw [hrest, List.map_cons, List.mem_cons] at hmem
    rcases hmem with rfl | hmem
    · obtain ⟨purpose, n, hlabel, -⟩ := hmade.labels_spec.2 _ hl
      exact Builder.labelOf_ne_functionName purpose n entry (hlabel ▸ hname)
    · refine hdisjoint l ?_ l hl rfl
      rw [hrest]
      exact hmem
  have hsublist : ((p.reachable main).tail.map Function.name).Sublist (definedLabels asm.code) := by
    have hsub := Function.sublist_pieces hheads
    rwa [htail, ← hflat] at hsub
  refine filter_eq_of_sublist_of_perm hsublist hdefined (fun l hl => decide_eq_true ?_)
    fun l hl => decide_eq_false (hmadeOther l hl)
  exact ((List.tail_sublist _).map _).subset hl

/-- A function needs those that chains of calls lead to. They are found with the function itself first,
each under its name, and none before one that is nearer; if it is an entry, their code follows in this
order, and the other functions are left out and counted. -/
theorem Program.reachable_exact {n : String} (hmain : p.function? n = some main) :
    (p.reachable main).head? = some main ∧
    (∀ f, f ∈ p.reachable main ↔ ∃ k, p.Chain main k f) ∧
    ((p.reachable main).map Function.name).Nodup ∧
    (p.reachable main).Pairwise (fun f g => p.distance main f ≤ p.distance main g) ∧
    (p.reachable main).length ≤ p.functions.length ∧
    ∃ left, p.functions.Perm (p.reachable main ++ left) ∧
      ∀ (entry : Entry) localType? version asm, entry.functionName = n →
        p.generate localType? version entry = .ok asm →
        (∃ pieces : List (List Instruction), asm.code = pieces.flatten ∧
          List.Forall₂ (fun f piece => f.headCode (f.name == n) <+: piece) (p.reachable main)
            pieces) ∧
        (definedLabels asm.code).filter (· ∈ (p.reachable main).map Function.name) =
          (p.reachable main).tail.map Function.name ∧
        asm.metrics.pruned = left.length := by
  have hfound : p.function? main.name = some main := name_of_function? hmain ▸ hmain
  have hreached := reachable_reached hfound
  obtain ⟨hchain, hsorted⟩ :=
    Layered.reachFrom_sorted hfound (Walk.start hfound) (Layered.start p main)
  obtain ⟨left, hperm, hleft⟩ := hreached.exists_perm
  refine ⟨hreached.head, fun f => ⟨hchain f, fun ⟨_, hf⟩ => hreached.mem_of_chain hf⟩,
    hreached.nodup, hsorted, ?_, left, hperm, ?_⟩
  · rw [hperm.length_eq, List.length_append]
    exact Nat.le_add_right _ _
  · rintro entry localType? version asm rfl h
    obtain ⟨hpieces, hlabels⟩ := labels_of_functions hmain h
    exact ⟨hpieces, hlabels, (generate_metrics_pruned hmain h).trans hleft⟩

/-- Functions that call each other and themselves, two functions of one name, and one that is called by
the second of these only. -/
theorem Program.reachable_exact_cycle :
    ∃ (p : Program) (main : Function) (asm : Assembly) (left : List Function),
      Source.program "def f(x) \x7b return g(x); \x7d def g(x) \x7b return f(g(x)); \x7d
        def f() \x7b return h(); \x7d def h() \x7b return 1; \x7d def k(x) \x7b return x; \x7d
        def Signature() \x7b return 2; while (k(g(1))) \x7b \x7d \x7d".toList = .ok p ∧
      p.function? Entry.signature.functionName = some main ∧
      p.generate (fun _ => none) 5 .signature = .ok asm ∧
      (p.reachable main).map Function.name = ["Signature", "k", "g", "f"] ∧
      (p.reachable main).Pairwise (fun f g => p.distance main f ≤ p.distance main g) ∧
      (definedLabels asm.code).filter (· ∈ ["Signature", "k", "g", "f"]) = ["k", "g", "f"] ∧
      p.functions.Perm (p.reachable main ++ left) ∧ asm.metrics.pruned = left.length ∧
      left.length = 2 := by
  have hruns : (do
      let p ← Source.program "def f(x) \x7b return g(x); \x7d def g(x) \x7b return f(g(x)); \x7d
        def f() \x7b return h(); \x7d def h() \x7b return 1; \x7d def k(x) \x7b return x; \x7d
        def Signature() \x7b return 2; while (k(g(1))) \x7b \x7d \x7d".toList
      let asm ← p.generate (fun _ => none) 5 .signature
      return (((p.function? "Signature").map p.reachable).map (List.map Function.name),
        asm.metrics.pruned)) = Except.ok (some ["Signature", "k", "g", "f"], 2) := by
    rw [String.toList_ofList]
    decide +kernel
  obtain ⟨p, hp, hruns⟩ := ok_of_bind hruns
  obtain ⟨asm, hasm, hruns⟩ := ok_of_bind hruns
  obtain ⟨main, _, hmain, -, -⟩ := Program.generate_eq_ok hasm
  obtain ⟨-, -, -, hsorted, -, left, hperm, hgenerate⟩ := Program.reachable_exact hmain
  obtain ⟨-, hlabels, hpruned⟩ := hgenerate _ _ _ _ rfl hasm
  have hpair := Except.ok.inj hruns
  have hnames : (p.reachable main).map Function.name = ["Signature", "k", "g", "f"] := by
    rw [show p.function? "Signature" = some main from hmain] at hpair
    exact Option.some.inj (congrArg Prod.fst hpair)
  have htwo : asm.metrics.pruned = 2 := congrArg Prod.snd hpair
  rw [List.map_tail, hnames] at hlabels
  exact ⟨p, main, asm, left, hp, hmain, hasm, hnames, hsorted, hlabels, hperm, hpruned,
    hpruned.symm.trans htwo⟩

end Order

end ContractCompiler
