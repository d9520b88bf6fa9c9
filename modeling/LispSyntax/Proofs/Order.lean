import LispSyntax.Diagnostic

/-! # Diagnostics in the order of their places

`Diagnostic.sortByStart` keeps the diagnostics it is given and puts them in order. It is stable, so the order
of some of them does not depend on the others (`Diagnostic.filter_sortByStart`). What a stable sort is does not
depend on how it is done (`Diagnostic.IsStableSort`).
-/

namespace LispSyntax

namespace Diagnostic

variable {d e : Diagnostic} {ds : List Diagnostic}

theorem mem_insertByStart : e ∈ insertByStart d ds ↔ e = d ∨ e ∈ ds := by
  induction ds with
  | nil => simp [insertByStart]
  | cons f ds inductionHypothesis =>
    rw [insertByStart]
    split
    · exact List.mem_cons
    · rw [List.mem_cons, inductionHypothesis, List.mem_cons, or_left_comm]

theorem mem_sortByStart : e ∈ sortByStart ds ↔ e ∈ ds := by
  induction ds with
  | nil => rfl
  | cons d ds inductionHypothesis =>
    rw [sortByStart, List.foldr_cons, mem_insertByStart, List.mem_cons, ← inductionHypothesis]
    rfl

def Sorted (ds : List Diagnostic) : Prop :=
  ds.Pairwise fun d e => d.span.start ≤ e.span.start

theorem Sorted.insertByStart (sorted : Sorted ds) : Sorted (insertByStart d ds) := by
  induction ds with
  | nil => exact List.pairwise_singleton _ d
  | cons e ds inductionHypothesis =>
    obtain ⟨first, rest⟩ := List.pairwise_cons.mp sorted
    rw [Diagnostic.insertByStart]
    split
    · rename_i before
      refine List.pairwise_cons.mpr ⟨fun f member => ?_, sorted⟩
      rcases List.mem_cons.mp member with rfl | member
      · exact before
      · exact Nat.le_trans before (first f member)
    · rename_i after
      refine List.pairwise_cons.mpr ⟨fun f member => ?_, inductionHypothesis rest⟩
      rcases mem_insertByStart.mp member with rfl | member
      · omega
      · exact first f member

theorem sorted_sortByStart (ds : List Diagnostic) : Sorted (sortByStart ds) := by
  induction ds with
  | nil => exact List.Pairwise.nil
  | cons d ds inductionHypothesis => exact inductionHypothesis.insertByStart

theorem insertByStart_of_le (before : ∀ e ∈ ds, d.span.start ≤ e.span.start) :
    insertByStart d ds = d :: ds := by
  cases ds with
  | nil => rfl
  | cons e ds => rw [insertByStart, if_pos (before e List.mem_cons_self)]

theorem Sorted.sortByStart_eq (sorted : Sorted ds) : sortByStart ds = ds := by
  induction ds with
  | nil => rfl
  | cons d ds inductionHypothesis =>
    obtain ⟨first, rest⟩ := List.pairwise_cons.mp sorted
    have sortedRest := inductionHypothesis rest
    rw [sortByStart] at sortedRest ⊢
    rw [List.foldr_cons, sortedRest, insertByStart_of_le first]

theorem Sorted.filter_insertByStart (sorted : Sorted ds) (keep : Diagnostic → Bool) :
    (Diagnostic.insertByStart d ds).filter keep =
      if keep d then Diagnostic.insertByStart d (ds.filter keep) else ds.filter keep := by
  induction ds with
  | nil =>
    rw [Diagnostic.insertByStart, List.filter_cons]
    rfl
  | cons e ds inductionHypothesis =>
    obtain ⟨first, rest⟩ := List.pairwise_cons.mp sorted
    rw [Diagnostic.insertByStart]
    split
    · rename_i before
      -- Whatever is left of the list starts where the inserted one does, or after.
      have later : ∀ f ∈ (e :: ds).filter keep, d.span.start ≤ f.span.start := by
        intro f member
        rcases List.mem_cons.mp (List.mem_filter.mp member).1 with rfl | member
        · exact before
        · exact Nat.le_trans before (first f member)
      rw [List.filter_cons, insertByStart_of_le later]
    · rename_i after
      rw [List.filter_cons, List.filter_cons, inductionHypothesis rest]
      split
      · split
        · rw [Diagnostic.insertByStart, if_neg after]
        · rfl
      · rfl

/-- Sorting by place is stable, so it may be done after leaving diagnostics out. -/
theorem filter_sortByStart (keep : Diagnostic → Bool) (ds : List Diagnostic) :
    (sortByStart ds).filter keep = sortByStart (ds.filter keep) := by
  induction ds with
  | nil => rfl
  | cons d ds inductionHypothesis =>
    have inserted := (sorted_sortByStart ds).filter_insertByStart (d := d) keep
    rw [inductionHypothesis] at inserted
    rw [sortByStart, List.foldr_cons, ← sortByStart, inserted, List.filter_cons]
    split <;> rfl

/-! ## Stable sorts -/

theorem insertByStart_perm (d : Diagnostic) (ds : List Diagnostic) : (insertByStart d ds).Perm (d :: ds) := by
  induction ds with
  | nil => exact List.Perm.refl _
  | cons e ds inductionHypothesis =>
    rw [insertByStart]
    split
    · exact List.Perm.refl _
    · exact (inductionHypothesis.cons e).trans (List.Perm.swap d e ds)

theorem sortByStart_perm (ds : List Diagnostic) : (sortByStart ds).Perm ds := by
  induction ds with
  | nil => exact List.Perm.refl _
  | cons d ds inductionHypothesis =>
    exact (insertByStart_perm d (sortByStart ds)).trans (inductionHypothesis.cons d)

/-- The second list has the diagnostics of the first by start, and those that start together in the order of the
first. -/
structure IsStableSort (ds sorted : List Diagnostic) : Prop where
  perm : sorted.Perm ds
  inOrder : Sorted sorted
  stable : ∀ offset, sorted.filter (fun d => d.span.start == offset) = ds.filter (fun d => d.span.start == offset)

theorem isStableSort_sortByStart (ds : List Diagnostic) : IsStableSort ds (sortByStart ds) where
  perm := sortByStart_perm ds
  inOrder := sorted_sortByStart ds
  stable offset := by
    rw [filter_sortByStart]
    -- The ones kept start together, so they are in order as they are.
    apply Sorted.sortByStart_eq
    refine List.pairwise_of_forall_mem_list fun d here e here' => ?_
    have first := (List.mem_filter.mp here).2
    have second := (List.mem_filter.mp here').2
    simp only [beq_iff_eq] at first second
    omega

/-- Two diagnostics that start together are in the order they had before. -/
theorem IsStableSort.sublist {sorted : List Diagnostic} (isSort : IsStableSort ds sorted)
    (inOrder : [d, e].Sublist sorted) (together : d.span.start = e.span.start) : [d, e].Sublist ds := by
  have kept := inOrder.filter fun f => f.span.start == d.span.start
  rw [isSort.stable, List.filter_cons_of_pos (by simp), List.filter_cons_of_pos (by simp [together]),
    List.filter_nil] at kept
  exact kept.trans List.filter_sublist

/-- What holds of any two diagnostics in their first order holds of two that start together. -/
theorem IsStableSort.pairwise {sorted : List Diagnostic} {R : Diagnostic → Diagnostic → Prop}
    (isSort : IsStableSort ds sorted) (related : ds.Pairwise R) :
    sorted.Pairwise fun d e => d.span.start = e.span.start → R d e := by
  rw [List.pairwise_iff_forall_sublist] at related ⊢
  exact fun inOrder together => related (isSort.sublist inOrder together)

/-- It makes no difference if the last ones are sorted on their own first. -/
theorem sortByStart_append_sortByStart (ds es : List Diagnostic) :
    sortByStart (ds ++ sortByStart es) = sortByStart (ds ++ es) := by
  have inserted (es : List Diagnostic) : sortByStart (ds ++ es) = ds.foldr insertByStart (sortByStart es) :=
    List.foldr_append
  rw [inserted, inserted, (sorted_sortByStart es).sortByStart_eq]

end Diagnostic

end LispSyntax
