import Mathlib.Data.List.Chain

/-!
# Cutting a list into longest runs

A loop that adds every element to the current run as long as the run keeps a property, and starts a
new run otherwise, cuts a list into runs that cannot be longer (`Cut`). When the property passes to
every beginning of a run there is only one such cut (`Cut.unique`).
-/

open List

namespace LongestRuns

variable {α : Type*} {P : List α → Prop} {runs runs' : List (List α)} {run : List α} {x : α}

/-- The runs are not empty and have `P`, and none has `P` together with the element after it. -/
structure Cut (P : List α → Prop) (runs : List (List α)) : Prop where
  ne_nil : ∀ run ∈ runs, run ≠ []
  holds : ∀ run ∈ runs, P run
  longest : runs.IsChain fun run next => ∀ x ∈ next.head?, ¬ P (run ++ [x])

theorem cut_nil : Cut P [] := ⟨by simp, by simp, .nil⟩

theorem Cut.extend (h : Cut P (runs ++ [run])) (hP : P (run ++ [x])) :
    Cut P (runs ++ [run ++ [x]]) := by
  have hne : run ≠ [] := h.ne_nil run (by simp)
  refine ⟨fun r hr => ?_, fun r hr => ?_, ?_⟩
  · rcases mem_append.mp hr with hr | hr
    · exact h.ne_nil r (mem_append_left _ hr)
    · obtain rfl := mem_singleton.mp hr
      simp
  · rcases mem_append.mp hr with hr | hr
    · exact h.holds r (mem_append_left _ hr)
    · exact mem_singleton.mp hr ▸ hP
  · -- the first element of the last run is still the same
    have hlast := h.longest
    rw [isChain_append] at hlast ⊢
    refine ⟨hlast.1, .singleton _, fun r hr next hnext => ?_⟩
    obtain rfl := Option.mem_some_iff.mp hnext
    rw [head?_append_of_ne_nil _ hne]
    exact hlast.2.2 r hr run rfl

theorem Cut.start (h : Cut P runs) (hx : P [x])
    (hlast : ∀ run ∈ runs.getLast?, ¬ P (run ++ [x])) : Cut P (runs ++ [[x]]) := by
  refine ⟨fun r hr => ?_, fun r hr => ?_, ?_⟩
  · rcases mem_append.mp hr with hr | hr
    · exact h.ne_nil r hr
    · obtain rfl := mem_singleton.mp hr
      simp
  · rcases mem_append.mp hr with hr | hr
    · exact h.holds r hr
    · exact mem_singleton.mp hr ▸ hx
  · rw [isChain_append]
    refine ⟨h.longest, .singleton _, fun r hr next hnext y hy => ?_⟩
    obtain rfl := Option.mem_some_iff.mp hnext
    obtain rfl := Option.mem_some_iff.mp hy
    exact hlast r hr

theorem Cut.eq_nil_of_append (hclosed : ∀ run more, run ≠ [] → P (run ++ more) → P run)
    (h : Cut P (run :: runs)) {more rest : List α} (hP : P (run ++ more))
    (heq : runs.flatten = more ++ rest) : more = [] := by
  cases more with
  | nil => rfl
  | cons x more =>
    exfalso
    -- the next run starts with the first of the elements that would join
    obtain ⟨next, runs, rfl⟩ : ∃ next tail, runs = next :: tail := by
      cases runs with
      | nil => simp at heq
      | cons next tail => exact ⟨next, tail, rfl⟩
    have hne : next ≠ [] := h.ne_nil next (by simp)
    have hhead : next.head? = some x := by
      have hfirst := congrArg List.head? heq
      rwa [flatten_cons, head?_append_of_ne_nil _ hne, cons_append,
        head?_cons] at hfirst
    refine (isChain_cons_cons.mp h.longest).1 x hhead (hclosed (run ++ [x]) more (by simp) ?_)
    rwa [append_assoc]

/-- **There is one cut.** -/
theorem Cut.unique (hclosed : ∀ run more, run ≠ [] → P (run ++ more) → P run) (h : Cut P runs)
    (h' : Cut P runs') (heq : runs.flatten = runs'.flatten) : runs = runs' := by
  induction runs generalizing runs' with
  | nil =>
    cases runs' with
    | nil => rfl
    | cons run' runs' =>
      rw [flatten_cons, flatten_nil, eq_comm, append_eq_nil_iff] at heq
      exact absurd heq.1 (h'.ne_nil run' (by simp))
  | cons run runs ih =>
    cases runs' with
    | nil =>
      rw [flatten_cons, flatten_nil, append_eq_nil_iff] at heq
      exact absurd heq.1 (h.ne_nil run (by simp))
    | cons run' runs' =>
      rw [flatten_cons, flatten_cons] at heq
      -- one of the first runs is the beginning of the other, so they are the same
      obtain rfl : run = run' := by
        rcases append_eq_append_iff.mp heq with ⟨more, hrun, hrest⟩ | ⟨more, hrun, hrest⟩
        · have hP : P (run ++ more) := hrun ▸ h'.holds run' (by simp)
          rw [hrun, h.eq_nil_of_append hclosed hP hrest, append_nil]
        · have hP : P (run' ++ more) := hrun ▸ h.holds run (by simp)
          rw [hrun, h'.eq_nil_of_append hclosed hP hrest, append_nil]
      rw [append_cancel_left_eq] at heq
      have htail {rs : List (List α)} (hrs : Cut P (run :: rs)) : Cut P rs :=
        ⟨fun r hr => hrs.ne_nil r (mem_cons_of_mem _ hr),
          fun r hr => hrs.holds r (mem_cons_of_mem _ hr), hrs.longest.tail⟩
      rw [ih (htail h) (htail h') heq]

end LongestRuns
