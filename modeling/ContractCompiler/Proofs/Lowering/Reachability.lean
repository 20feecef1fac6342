import ContractCompiler.Lowering.Reach

/-!
# What is reached

The walk along the calls finds a set of functions that is closed under calls, each function once
and under the name that the program knows it by. All of them but the first are called by one of
them.
-/

namespace ContractCompiler

namespace Program

variable {p : Program} {main f g : Function} {queue acc : List Function}
  {seen names : List String}

theorem name_of_function? {n : String} (h : p.function? n = some f) : f.name = n := by
  simpa using List.find?_some h

/-! ## New functions -/

theorem mem_newCallees (h : f ∈ p.newCallees seen names) :
    p.function? f.name = some f ∧ f.name ∉ seen ∧ f.name ∈ names := by
  fun_induction newCallees p seen names with
  | case1 => cases h
  | case2 seen n ns hn ih =>
    obtain ⟨hfound, hnew, hmem⟩ := ih h
    exact ⟨hfound, hnew, List.mem_cons_of_mem _ hmem⟩
  | case3 seen n ns g hg hseen ih =>
    obtain ⟨hfound, hnew, hmem⟩ := ih h
    exact ⟨hfound, hnew, List.mem_cons_of_mem _ hmem⟩
  | case4 seen n ns g hg hseen ih =>
    rcases List.mem_cons.1 h with rfl | h
    · rw [name_of_function? hg] at hseen ⊢
      exact ⟨hg, by simpa using hseen, List.mem_cons_self⟩
    · obtain ⟨hfound, hnew, hmem⟩ := ih h
      exact ⟨hfound, fun hmem' => hnew (List.mem_cons_of_mem _ hmem'),
        List.mem_cons_of_mem _ hmem⟩

theorem nodup_newCallees : ((p.newCallees seen names).map Function.name).Nodup := by
  fun_induction newCallees p seen names with
  | case1 => exact List.nodup_nil
  | case2 seen n ns hn ih => exact ih
  | case3 seen n ns g hg hseen ih => exact ih
  | case4 seen n ns g hg hseen ih =>
    refine List.nodup_cons.2 ⟨fun hmem => ?_, ih⟩
    obtain ⟨f, hf, hname⟩ := List.mem_map.1 hmem
    exact (mem_newCallees hf).2.1 (hname ▸ List.mem_cons_self)

/-- Every function that is called was seen before, or is new. -/
theorem newCallees_complete {n : String} (hn : n ∈ names) (hf : p.function? n = some f) :
    n ∈ seen ∨ n ∈ (p.newCallees seen names).map Function.name := by
  fun_induction newCallees p seen names with
  | case1 => cases hn
  | case2 seen m ns hm ih =>
    rcases List.mem_cons.1 hn with rfl | hn
    · rw [hf] at hm
      cases hm
    · exact ih hn
  | case3 seen m ns g hg hseen ih =>
    rcases List.mem_cons.1 hn with rfl | hn
    · rw [name_of_function? hg] at hseen
      exact .inl (by simpa using hseen)
    · exact ih hn
  | case4 seen m ns g hg hseen ih =>
    rcases List.mem_cons.1 hn with rfl | hn
    · exact .inr (List.mem_cons.2 (.inl (name_of_function? hg).symm))
    · rcases ih hn with hmem | hmem
      · rcases List.mem_cons.1 hmem with rfl | hmem
        · exact .inr List.mem_cons_self
        · exact .inl hmem
      · exact .inr (List.mem_cons_of_mem _ hmem)

/-! ## The walk -/

/-- Functions among which no call leads outside: each is known by its name, and all but `main`
are called by one of them. -/
structure Reached (p : Program) (main : Function) (fs : List Function) : Prop where
  head : fs.head? = some main
  found : ∀ f ∈ fs, p.function? f.name = some f
  nodup : (fs.map Function.name).Nodup
  called : ∀ f ∈ fs, f = main ∨ ∃ g ∈ fs, f.name ∈ callees g
  closed : ∀ f ∈ fs, ∀ n ∈ callees f, ∀ g, p.function? n = some g → g ∈ fs

/-- The invariant of the walk: the functions that were walked and those in the queue are the ones
seen, and those that were walked call none but them. -/
structure Walk (p : Program) (main : Function) (queue : List Function) (seen : List String)
    (acc : List Function) : Prop where
  mem_seen : ∀ n, n ∈ seen ↔ n ∈ (acc.reverse ++ queue).map Function.name
  head : (acc.reverse ++ queue).head? = some main
  found : ∀ f ∈ acc.reverse ++ queue, p.function? f.name = some f
  nodup : ((acc.reverse ++ queue).map Function.name).Nodup
  called : ∀ f ∈ acc.reverse ++ queue, f = main ∨ ∃ g ∈ acc.reverse ++ queue, f.name ∈ callees g
  closed : ∀ f ∈ acc, ∀ n ∈ callees f, ∀ g, p.function? n = some g → n ∈ seen

theorem Walk.start (h : p.function? main.name = some main) : Walk p main [main] [main.name] [] where
  mem_seen := by simp
  head := rfl
  found := by simpa using h
  nodup := by simp
  called := by simp
  closed := nofun

/-- Walking one function puts the functions that it calls at the end of the queue. -/
theorem Walk.step (h : Walk p main (f :: queue) seen acc) :
    Walk p main (queue ++ p.newCallees seen (callees f))
      ((p.newCallees seen (callees f)).reverse.map Function.name ++ seen) (f :: acc) := by
  have hsplit : (f :: acc).reverse ++ (queue ++ p.newCallees seen (callees f)) =
      (acc.reverse ++ f :: queue) ++ p.newCallees seen (callees f) := by simp
  have hf : f ∈ acc.reverse ++ f :: queue := by simp
  refine ⟨fun n => ?_, ?_, ?_, ?_, ?_, ?_⟩
  · rw [hsplit, List.map_append, List.mem_append, List.mem_append, h.mem_seen n, List.map_reverse,
      List.mem_reverse, or_comm]
  · rw [hsplit, List.head?_append, h.head]
    rfl
  · rw [hsplit]
    intro g hg
    rcases List.mem_append.1 hg with hg | hg
    · exact h.found g hg
    · exact (mem_newCallees hg).1
  · rw [hsplit, List.map_append]
    refine List.nodup_append.2 ⟨h.nodup, nodup_newCallees, ?_⟩
    rintro n hn m hm rfl
    obtain ⟨g, hg, rfl⟩ := List.mem_map.1 hm
    exact (mem_newCallees hg).2.1 ((h.mem_seen _).2 hn)
  · rw [hsplit]
    intro g hg
    rcases List.mem_append.1 hg with hg | hg
    · rcases h.called g hg with rfl | ⟨k, hk, hcall⟩
      · exact .inl rfl
      · exact .inr ⟨k, List.mem_append_left _ hk, hcall⟩
    · exact .inr ⟨f, List.mem_append_left _ hf, (mem_newCallees hg).2.2⟩
  · intro g hg n hn k hk
    rw [List.mem_append, List.map_reverse, List.mem_reverse]
    rcases List.mem_cons.1 hg with rfl | hg
    · exact (newCallees_complete hn hk).symm
    · exact .inr (h.closed g hg n hn k hk)

/-- When the queue is empty, no call leads outside. -/
theorem Walk.reached (h : Walk p main queue seen acc) :
    Reached p main (p.reachFrom queue seen acc) := by
  fun_induction reachFrom p queue seen acc with
  | case1 seen acc =>
    have hall : acc.reverse ++ [] = acc.reverse := List.append_nil _
    refine ⟨hall ▸ h.head, hall ▸ h.found, hall ▸ h.nodup, hall ▸ h.called, ?_⟩
    intro f hf n hn g hg
    have hmem := (h.mem_seen n).1 (h.closed f (List.mem_reverse.1 hf) n hn g hg)
    rw [hall] at hmem
    obtain ⟨k, hk, rfl⟩ := List.mem_map.1 hmem
    have hfound := h.found k (hall.symm ▸ hk)
    rw [hg] at hfound
    cases hfound
    exact hk
  | case2 seen acc f rest new ih => exact ih h.step

/-- The functions that an entry needs. -/
theorem reachable_reached (h : p.function? main.name = some main) :
    Reached p main (p.reachable main) :=
  (Walk.start h).reached

end Program

end ContractCompiler
