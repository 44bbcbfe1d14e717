import Covering.Proofs.SearchTree.Following

/-!
# Following a path among identical rows

Rows that use the same columns have the same labels, and a saved path cannot tell them apart: it is
followed into the first of them. What lies below depends only on what is covered, so the path can be
followed to its end all the same: `Table.follow_consumes`. The node that was saved is the one
reached, or is left for later: `Table.follow_eq_or_mem_passed`.
-/

namespace Covering
set_option autoImplicit false

namespace Table

variable {t : Table} {base path path' suffix : List Nat} {row row' : Nat}

/-- Rows with the same labels cover the same. -/
theorem coveredBy_concat_of_labels (wf : t.WellFormed)
    (h : t.coveredBy base path = t.coveredBy base path') (e : t.labels row = t.labels row') :
    t.coveredBy base (path ++ [row]) = t.coveredBy base (path' ++ [row']) := by
  rw [coveredBy_concat, coveredBy_concat, h, wf.ones_toFinset_of_labels e]

/-- The labels of the rows below a node can be followed from any node that covers the same. -/
theorem follow_consumes (wf : t.WellFormed) (h : path ++ suffix ∈ t.preorder base path)
    (hcovered : t.coveredBy base path = t.coveredBy base path') :
    (t.follow base (t.labelsOfPath suffix) path').2 = [] := by
  induction suffix generalizing path path' with
  | nil => simp [labelsOfPath, follow]
  | cons row suffix ih =>
    obtain ⟨hrow, hbelow⟩ := mem_preorder_append_cons h
    have hrow' : row ∈ t.children base path' := by
      rw [children, ← hcovered]
      exact hrow
    obtain ⟨first, after, -, hlabels, -, hfollow⟩ := exists_first_child hrow'
    rw [labelsOfPath, List.map_cons, (hfollow _).1]
    exact ih hbelow (coveredBy_concat_of_labels wf hcovered hlabels.symm)

/-- The labels of a node lead to it, or past a row that stands before one of its own. Then the node
is among those left for later. -/
theorem follow_eq_or_mem_passed (h : path ++ suffix ∈ t.preorder base path) :
    t.follow base (t.labelsOfPath suffix) path = (path ++ suffix, []) ∨
      path ++ suffix ∈ t.passed base (t.labelsOfPath suffix) path := by
  induction suffix generalizing path with
  | nil => simp [labelsOfPath, follow]
  | cons row suffix ih =>
    obtain ⟨hrow, hbelow⟩ := mem_preorder_append_cons h
    obtain ⟨first, after, -, -, hplace, hfollow⟩ := exists_first_child hrow
    rw [labelsOfPath, List.map_cons, (hfollow _).1, (hfollow _).2, List.append_cons path row suffix]
    rcases hplace with rfl | hafter
    · exact (ih hbelow).imp_right (List.mem_append_left _)
    · exact .inr (List.mem_append_right _ (List.mem_flatMap.2 ⟨row, hafter, hbelow⟩))

end Table

end Covering
