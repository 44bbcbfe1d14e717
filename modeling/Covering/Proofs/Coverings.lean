import Covering.Proofs.Run.Calls
import Mathlib.Data.Finset.Lattice.Lemmas

/-!
# A search finds every covering once

A covering is a set of rows that use every open primary column once and every open secondary column
at most once. The rows of a solution of the search tree are one, since a child only adds a row that
shares no column with those chosen: `Table.Chosen`. In the other direction a covering leads from the
root to one solution only: at each node exactly one of its rows is among the children.
-/

namespace Covering
set_option autoImplicit false

namespace Table

variable {t : Table} {base path node : List Nat} {rows : Finset Nat} {c row row' : Nat}

/-- The rows cover what `covered` leaves open. -/
structure IsCovering (t : Table) (covered : List Nat) (rows : Finset Nat) : Prop where
  exist : ∀ row ∈ rows, row < t.rowCount
  avoids : ∀ row ∈ rows, ∀ c ∈ covered, c ∉ t.ones row
  useful : ∀ row ∈ rows, ∃ c < t.primaryCount, c ∉ covered ∧ c ∈ t.ones row
  once : ∀ c < t.primaryCount, c ∉ covered → ∃! row, row ∈ rows ∧ c ∈ t.ones row
  atMostOnce : ∀ c, t.primaryCount ≤ c → c < t.columnCount → c ∉ covered →
    ∀ row ∈ rows, ∀ row' ∈ rows, c ∈ t.ones row → c ∈ t.ones row' → row = row'

/-- Two rows of a covering share no column. -/
theorem IsCovering.eq_of_shared (wf : t.WellFormed) (h : t.IsCovering base rows) (hrow : row ∈ rows)
    (hrow' : row' ∈ rows) (hc : c ∈ t.ones row) (hc' : c ∈ t.ones row') : row = row' := by
  have hb : c ∉ base := by
    intro hb
    exact h.avoids row hrow c hb hc
  rcases Nat.lt_or_ge c t.primaryCount with hp | hp
  · exact (h.once c hp hb).unique ⟨hrow, hc⟩ ⟨hrow', hc'⟩
  · exact h.atMostOnce c hp (wf.inRange row c hc) hb row hrow row' hrow' hc hc'

/-! ## Solutions are coverings -/

/-- What holds of the rows of every node. -/
structure Chosen (t : Table) (base path : List Nat) : Prop where
  nodup : path.Nodup
  avoids : ∀ row ∈ path, ∀ c ∈ base, c ∉ t.ones row
  useful : ∀ row ∈ path, ∃ c < t.primaryCount, c ∉ base ∧ c ∈ t.ones row
  shared : ∀ row ∈ path, ∀ row' ∈ path, ∀ c ∈ t.ones row, c ∈ t.ones row' → row = row'

theorem Chosen.nil : t.Chosen base [] := ⟨List.nodup_nil, by simp, by simp, by simp⟩

theorem Chosen.child (h : t.Chosen base path) (hrow : row ∈ t.children base path) :
    t.Chosen base (path ++ [row]) := by
  obtain ⟨c, hc, hcompatible⟩ := mem_choices.1 hrow
  obtain ⟨hone, hfree⟩ := mem_compatible.1 hcompatible
  obtain ⟨hp, hopen⟩ := mem_openColumns.1 (mem_openColumns_of_branchColumn hc)
  have hbase : ∀ d ∈ base, d ∉ t.ones row := by
    intro d hd hd'
    exact hfree d hd' (mem_coveredBy.2 (.inl hd))
  have hpath : ∀ row' ∈ path, ∀ d ∈ t.ones row, d ∉ t.ones row' := by
    intro row' hrow' d hd hd'
    exact hfree d hd (mem_coveredBy.2 (.inr ⟨row', hrow', hd'⟩))
  refine ⟨List.nodup_append'.2 ⟨h.nodup, List.nodup_singleton row, ?_⟩, ?_, ?_, ?_⟩
  · rw [List.disjoint_singleton]
    intro hmem
    exact hpath row hmem c hone hone
  · simp only [List.forall_mem_append, List.forall_mem_singleton]
    exact ⟨h.avoids, hbase⟩
  · simp only [List.forall_mem_append, List.forall_mem_singleton]
    exact ⟨h.useful, c, hp, fun hd => hopen (mem_coveredBy.2 (.inl hd)), hone⟩
  · simp only [List.forall_mem_append, List.forall_mem_singleton]
    refine ⟨fun row' hrow' => ⟨h.shared row' hrow', fun d hd hd' => ?_⟩,
      fun row' hrow' d hd hd' => ?_, fun _ _ _ => trivial⟩
    · exact absurd hd (hpath row' hrow' d hd')
    · exact absurd hd' (hpath row' hrow' d hd)

theorem Chosen.of_mem_preorder (h : t.Chosen base path) (hnode : node ∈ t.preorder base path) :
    t.Chosen base node := by
  induction path using node_induction (t := t) base with
  | h path ih =>
    rcases mem_preorder.1 hnode with rfl | ⟨row, hrow, hnode⟩
    · exact h
    · exact ih row hrow (h.child hrow) hnode

theorem coveredBy_of_isSolution (h : t.isSolution base path) (hp : c < t.primaryCount) :
    c ∈ t.coveredBy base path := by
  by_contra hopen
  have hmem := mem_openColumns.2 ⟨hp, hopen⟩
  rw [List.isEmpty_iff.1 h] at hmem
  exact List.not_mem_nil hmem

/-- The rows of a solution are a covering. -/
theorem Chosen.isCovering (h : t.Chosen base path) (hsol : t.isSolution base path) :
    t.IsCovering base path.toFinset where
  exist row hrow := by
    obtain ⟨c, -, -, hone⟩ := h.useful row (List.mem_toFinset.1 hrow)
    exact lt_rowCount_of_mem_ones hone
  avoids row hrow := h.avoids row (List.mem_toFinset.1 hrow)
  useful row hrow := h.useful row (List.mem_toFinset.1 hrow)
  once c hp hb := by
    rcases mem_coveredBy.1 (coveredBy_of_isSolution hsol hp) with hc | ⟨row, hrow, hone⟩
    · exact absurd hc hb
    · refine ⟨row, ⟨List.mem_toFinset.2 hrow, hone⟩, fun row' hrow' => ?_⟩
      exact h.shared row' (List.mem_toFinset.1 hrow'.1) row hrow c hrow'.2 hone
  atMostOnce c _ _ _ row hrow row' hrow' hone hone' :=
    h.shared row (List.mem_toFinset.1 hrow) row' (List.mem_toFinset.1 hrow') c hone hone'

/-! ## Coverings are solutions -/

/-- A solution within a covering is all of it: any further row would have a column to itself. -/
theorem IsCovering.eq_of_isSolution (h : t.IsCovering base rows) (hsub : path.toFinset ⊆ rows)
    (hsol : t.isSolution base path) : path.toFinset = rows := by
  apply hsub.antisymm
  intro row hrow
  obtain ⟨c, hp, hb, hone⟩ := h.useful row hrow
  rcases mem_coveredBy.1 (coveredBy_of_isSolution hsol hp) with hc | ⟨row', hrow', hone'⟩
  · exact absurd hc hb
  · have hrow'' := List.mem_toFinset.2 hrow'
    rwa [(h.once c hp hb).unique ⟨hrow, hone⟩ ⟨hsub hrow'', hone'⟩]

/-- Of a covering exactly one row is among the children of a node within it. -/
theorem IsCovering.existsUnique_child (wf : t.WellFormed) (h : t.IsCovering base rows)
    (hsub : path.toFinset ⊆ rows) (hsol : ¬t.isSolution base path) :
    ∃! row, row ∈ t.children base path ∧ row ∈ rows := by
  obtain ⟨c, hc⟩ := Option.ne_none_iff_exists'.1 fun hnone => hsol (isSolution_iff.2 hnone)
  obtain ⟨hp, hopen⟩ := mem_openColumns.1 (mem_openColumns_of_branchColumn hc)
  rw [mem_coveredBy, not_or] at hopen
  obtain ⟨row, ⟨hrow, hone⟩, honly⟩ := h.once c hp hopen.1
  rw [children_eq hc]
  refine ⟨row, ⟨mem_compatible.2 ⟨hone, fun d hd hcov => ?_⟩, hrow⟩, fun row' hrow' => ?_⟩
  · rcases mem_coveredBy.1 hcov with hb | ⟨row', hrow', hd'⟩
    · exact h.avoids row hrow d hb hd
    · have := h.eq_of_shared wf hrow (hsub (List.mem_toFinset.2 hrow')) hd hd'
      exact hopen.2 ⟨row', hrow', this ▸ hone⟩
  · exact honly row' ⟨hrow'.2, (mem_compatible.1 hrow'.1).1⟩

/-- A covering is the set of rows of exactly one solution below a node within it. -/
theorem IsCovering.existsUnique_solution (wf : t.WellFormed) (h : t.IsCovering base rows)
    (hsub : path.toFinset ⊆ rows) :
    ∃! node, node ∈ t.preorder base path ∧ t.isSolution base node ∧ node.toFinset = rows := by
  induction path using node_induction (t := t) base with
  | h path ih =>
    by_cases hsol : t.isSolution base path
    · refine ⟨path, ⟨mem_preorder.2 (.inl rfl), hsol, h.eq_of_isSolution hsub hsol⟩, ?_⟩
      rintro node ⟨hnode, -⟩
      rcases mem_preorder.1 hnode with rfl | ⟨row, hrow, -⟩
      · rfl
      · rw [children_of_isSolution hsol] at hrow
        exact absurd hrow List.not_mem_nil
    · obtain ⟨row, ⟨hchild, hrow⟩, honly⟩ := h.existsUnique_child wf hsub hsol
      have hsub' : (path ++ [row]).toFinset ⊆ rows := by
        rw [List.toFinset_append]
        exact Finset.union_subset hsub (by simpa using hrow)
      obtain ⟨node, ⟨hnode, hspec⟩, hunique⟩ := ih row hchild hsub'
      refine ⟨node, ⟨mem_preorder.2 (.inr ⟨row, hchild, hnode⟩), hspec⟩, ?_⟩
      rintro node' ⟨hnode', hsol', hset'⟩
      rcases mem_preorder.1 hnode' with rfl | ⟨row', hchild', hbelow⟩
      · exact absurd hsol' hsol
      · -- The row that leads to `node'` belongs to the covering, too.
        have hmem : row' ∈ rows := by
          have hin := (prefix_of_mem_preorder hbelow).subset (a := row') (by simp)
          exact hset' ▸ List.mem_toFinset.2 hin
        obtain rfl := honly row' ⟨hchild', hmem⟩
        exact hunique node' ⟨hbelow, hsol', hset'⟩

/-! ## The search -/

/-- The solutions of the tree, in the order in which the search finds them. -/
def leaves (t : Table) (base : List Nat) : List (List Nat) :=
  (t.preorder base []).filter (t.isSolution base)

theorem nodup_and_isCovering_of_mem_leaves (h : path ∈ t.leaves base) :
    path.Nodup ∧ t.IsCovering base path.toFinset := by
  obtain ⟨hmem, hsol⟩ := List.mem_filter.1 h
  have hchosen := Chosen.nil.of_mem_preorder hmem
  exact ⟨hchosen.nodup, hchosen.isCovering hsol⟩

theorem nodup_leaves : (t.leaves base).Nodup := (preorder_nodup base []).filter _

/-- A covering is the rows of one solution. -/
theorem IsCovering.existsUnique_mem_leaves (wf : t.WellFormed) (h : t.IsCovering base rows) :
    ∃! path, path ∈ t.leaves base ∧ path.toFinset = rows := by
  have hnode := h.existsUnique_solution wf (show ([] : List Nat).toFinset ⊆ rows by simp)
  refine (existsUnique_congr fun path => ?_).1 hnode
  rw [leaves, List.mem_filter, and_assoc]

theorem IsCovering.existsUnique_leaf (wf : t.WellFormed) (h : t.IsCovering base rows) :
    ∃! i : Fin (t.leaves base).length, ((t.leaves base).get i).toFinset = rows := by
  obtain ⟨node, ⟨hnode, hset⟩, honly⟩ := h.existsUnique_mem_leaves wf
  obtain ⟨i, hi⟩ := List.mem_iff_get.1 hnode
  have hget : (t.leaves base).get i = node := hi
  refine ⟨i, (congrArg List.toFinset hget).trans hset, fun j hj => ?_⟩
  have hsame := honly _ ⟨List.get_mem (t.leaves base) j, hj⟩
  exact List.nodup_iff_injective_get.1 nodup_leaves (hsame.trans hget.symm)

/-- Draining a search over a table gives each covering of what `base` leaves open exactly once, as
the labels of its rows. It comes to an end unless the nodes that branch are more than a counter can
count. -/
theorem solve_gives_coverings (built : t.Built) (nodup : base.Nodup)
    (inRange : ∀ c ∈ base, c < t.columnCount) :
    ∃ m, base.foldlM Mesh.cover (.ofTable t) = .ok m ∧
      ∃ found : List (List Nat),
        (∀ rows ∈ found, rows.Nodup ∧ t.IsCovering base rows.toFinset) ∧
        (∀ rows, t.IsCovering base rows →
          ∃! i : Fin found.length, (found.get i).toFinset = rows) ∧
        if (t.preorder base []).countP (!t.isSolution base ·) < UInt64.size then
          ∃ r, (Problem.ofMesh m).solve.drain = .ok (found.map (·.map m.labelsOfRow), r)
        else (Problem.ofMesh m).solve.drain = .error .tallyOverflow := by
  have wf := built.wellFormed
  have hb : t.Coverable base := ⟨nodup, inRange⟩
  refine ⟨.covering t base, Mesh.foldlM_cover_ofTable wf hb, t.leaves base,
    fun rows => nodup_and_isCovering_of_mem_leaves, fun rows h => h.existsUnique_leaf wf, ?_⟩
  have hat := Run.at_solve (p := .ofMesh (.covering t base)) rfl
  rw [(Mesh.reads_covering wf hb).map_labelsOfRow]
  have hzero : (Problem.ofMesh (.covering t base)).solve.tally.searches.toNat = 0 := rfl
  have hdrain := Run.drain_eq wf hb hat
  rw [Moves.searches_notice, Moves.searches_told, Moves.searches_moves_nil, Moves.solutions_notice,
    Moves.solutions_told, Moves.solutions_moves_nil, hzero, Nat.zero_add] at hdrain
  split
  · next hlt =>
    rw [if_pos hlt] at hdrain
    obtain ⟨r, hdrain, -⟩ := hdrain
    exact ⟨r, hdrain⟩
  · next hle =>
    rw [if_neg hle] at hdrain
    exact hdrain

/-- The case of `abc` with its secondary column covered. -/
theorem solve_gives_coverings_abc :
    ∃ m, [2].foldlM Mesh.cover (.ofTable abc) = .ok m ∧
      ∃ found : List (List Nat),
        (∀ rows ∈ found, rows.Nodup ∧ abc.IsCovering [2] rows.toFinset) ∧
        (∀ rows, abc.IsCovering [2] rows →
          ∃! i : Fin found.length, (found.get i).toFinset = rows) ∧
        ∃ r, (Problem.ofMesh m).solve.drain = .ok (found.map (·.map m.labelsOfRow), r) := by
  obtain ⟨m, hm, found, hsound, hcomplete, hdrain⟩ :=
    solve_gives_coverings built_abc (by decide : [2].Nodup) (by decide)
  have hcount : (abc.preorder [2] []).countP (!abc.isSolution [2] ·) < UInt64.size := by
    decide +kernel
  rw [if_pos hcount] at hdrain
  exact ⟨m, hm, found, hsound, hcomplete, hdrain⟩

end Table

end Covering
