import Covering.Mesh
import Covering.Proofs.Table
import Mathlib.Data.List.TakeWhile

/-!
# Rows under covers

What covers mean on a table, without any links. When columns are covered in order, a column keeps
in its lane the rows that use none of the columns covered before it: `Table.linked`. One further
cover takes `Table.gone` out of each other lane, and leaves what is linked after it.
-/

namespace Covering
set_option autoImplicit false

namespace Table

variable {t : Table} {cs : List Nat} {c d row : Nat}

/-- The knots of `row`, left to right. -/
def knots (t : Table) (row : Nat) : List Knot :=
  (t.ones row).map fun column => ⟨column, t.slotOf column row⟩

/-- The primary columns outside `covered`, left to right. -/
def openColumns (t : Table) (covered : Finset Nat) : List Nat :=
  (List.range t.primaryCount).filter fun c => decide (c ∉ covered)

/-- The rows that stay in the lane of `column` when `cs` are covered in order: a covered column
keeps the rows that it had when it was covered. -/
def linked (t : Table) (cs : List Nat) (column : Nat) : List Nat :=
  (t.holders column).filter fun row =>
    decide (∀ c ∈ cs.takeWhile (· != column), c ∉ t.ones row)

/-- The knots of `row` outside `column`, rightward from it and around. -/
def mates (t : Table) (row column : Nat) : List Knot :=
  (t.knots row).filter (column < ·.column) ++ (t.knots row).filter (·.column < column)

/-- The other columns of `row`, in the order in which they are covered with it. -/
def mateColumns (t : Table) (row column : Nat) : List Nat := (t.mates row column).map (·.column)

/-- The columns `cs` exist and differ, so that they can be covered in this order. -/
def Coverable (t : Table) (cs : List Nat) : Prop := cs.Nodup ∧ ∀ c ∈ cs, c < t.columnCount

theorem Coverable.left {ds : List Nat} (h : t.Coverable (cs ++ ds)) : t.Coverable cs :=
  ⟨(List.nodup_append'.1 h.1).1, fun c hc => h.2 c (List.mem_append_left _ hc)⟩

theorem Coverable.last_lt (h : t.Coverable (cs ++ [c])) : c < t.columnCount :=
  h.2 c (List.mem_append_right _ (List.mem_singleton_self c))

theorem Coverable.last_notMem (h : t.Coverable (cs ++ [c])) : c ∉ cs := fun hc =>
  (List.nodup_append'.1 h.1).2.2 hc (List.mem_singleton_self c)

theorem mem_linked : row ∈ t.linked cs d ↔
    d ∈ t.ones row ∧ ∀ c ∈ cs.takeWhile (· != d), c ∉ t.ones row := by
  simp only [linked, List.mem_filter, mem_holders, decide_eq_true_eq]

theorem takeWhile_ne_of_notMem (h : d ∉ cs) : cs.takeWhile (· != d) = cs := by
  rw [List.takeWhile_eq_self_iff]
  intro c hc
  simpa using fun e : c = d => h (e ▸ hc)

theorem linked_of_notMem (h : d ∉ cs) :
    t.linked cs d = (t.holders d).filter fun row => decide (∀ c ∈ cs, c ∉ t.ones row) := by
  rw [linked, takeWhile_ne_of_notMem h]

theorem mem_linked_of_notMem (h : d ∉ cs) :
    row ∈ t.linked cs d ↔ d ∈ t.ones row ∧ ∀ c ∈ cs, c ∉ t.ones row := by
  rw [mem_linked, takeWhile_ne_of_notMem h]

theorem linked_nil : t.linked [] d = t.holders d := by simp [linked]

/-- A further cover takes its rows from the columns that are still open. -/
theorem linked_concat : t.linked (cs ++ [c]) d =
    if d ∈ cs ∨ d = c then t.linked cs d
    else (t.linked cs d).filter fun row => decide (c ∉ t.ones row) := by
  by_cases hd : d ∈ cs
  · rw [if_pos (.inl hd)]
    have hlt : (cs.takeWhile (· != d)).length ≠ cs.length := by
      intro hl
      have hself := (List.takeWhile_prefix (p := (· != d)) (l := cs)).eq_of_length hl
      simpa using List.takeWhile_eq_self_iff.1 hself d hd
    rw [linked, List.takeWhile_append, if_neg hlt]
    rfl
  · by_cases hdc : d = c
    · subst hdc
      rw [if_pos (.inr rfl), linked, linked, List.takeWhile_append, takeWhile_ne_of_notMem hd]
      simp
    · rw [if_neg (by simp [hd, hdc]), linked_of_notMem hd, linked_of_notMem (by simp [hd, hdc]),
        List.filter_filter]
      apply List.filter_congr
      intro row _
      simp [or_imp, forall_and, Bool.and_comm]

theorem linked_sublist : (t.linked cs d).Sublist (t.holders d) := List.filter_sublist

theorem linked_nodup : (t.linked cs d).Nodup :=
  (holders_ascending.imp Nat.ne_of_lt).sublist linked_sublist

/-- A row has at most one knot in a column. -/
theorem WellFormed.knots_filter (wf : t.WellFormed) :
    (t.knots row).filter (fun k => k.column == d) =
      if d ∈ t.ones row then [⟨d, t.slotOf d row⟩] else [] := by
  have hf : (t.ones row).filter ((fun k : Knot => k.column == d) ∘ fun c => ⟨c, t.slotOf c row⟩) =
      List.replicate ((t.ones row).count d) d := List.filter_beq d
  rw [knots, List.filter_map, hf]
  split
  · next hd =>
    rw [List.count_eq_one_of_mem wf.ones_nodup hd]
    rfl
  · next hd =>
    rw [List.count_eq_zero_of_not_mem hd]
    rfl

/-- The mates of a row in some other column. -/
theorem WellFormed.mates_filter (wf : t.WellFormed) (hdc : d ≠ c) :
    (t.mates row c).filter (fun k => k.column == d) =
      if d ∈ t.ones row then [⟨d, t.slotOf d row⟩] else [] := by
  rw [← wf.knots_filter, mates, List.filter_append, List.filter_filter, List.filter_filter]
  rcases Nat.lt_or_gt_of_ne hdc with hlt | hlt
  · have hno : (t.knots row).filter (fun k => k.column == d && decide (c < k.column)) = [] := by
      apply List.filter_eq_nil_iff.2
      intro k _
      simp only [Bool.and_eq_true, beq_iff_eq, decide_eq_true_eq]
      omega
    rw [hno, List.nil_append]
    apply List.filter_congr
    intro k _
    by_cases hk : k.column = d
    · simp [hk, hlt]
    · simp [hk]
  · have hno : (t.knots row).filter (fun k => k.column == d && decide (k.column < c)) = [] := by
      apply List.filter_eq_nil_iff.2
      intro k _
      simp only [Bool.and_eq_true, beq_iff_eq, decide_eq_true_eq]
      omega
    rw [hno, List.append_nil]
    apply List.filter_congr
    intro k _
    by_cases hk : k.column = d
    · simp [hk, hlt]
    · simp [hk]

theorem mates_filter_self : (t.mates row c).filter (fun k => k.column == c) = [] := by
  apply List.filter_eq_nil_iff.2
  intro k hk
  simp only [mates, List.mem_append, List.mem_filter, decide_eq_true_eq] at hk
  simp only [beq_iff_eq]
  omega

theorem mem_openColumns {covered : Finset Nat} :
    c ∈ t.openColumns covered ↔ c < t.primaryCount ∧ c ∉ covered := by simp [openColumns]

/-- A cover of a primary column takes it out of the open ones; a secondary one was not there. -/
theorem openColumns_concat : t.openColumns (cs ++ [c]).toFinset =
    (t.openColumns cs.toFinset).filter fun d => decide (d ≠ c) := by
  rw [openColumns, openColumns, List.filter_filter]
  apply List.filter_congr
  intro d _
  have hopen : d ∉ (cs ++ [c]).toFinset ↔ d ≠ c ∧ d ∉ cs.toFinset := by
    rw [List.mem_toFinset, List.mem_toFinset, List.mem_append, List.mem_singleton, not_or, and_comm]
  rw [← Bool.decide_and, decide_eq_decide]
  exact hopen

theorem openColumns_concat_of_secondary (h : t.primaryCount ≤ c) :
    t.openColumns (cs ++ [c]).toFinset = t.openColumns cs.toFinset := by
  rw [openColumns_concat, List.filter_eq_self]
  intro d hd
  have := (mem_openColumns.1 hd).1
  simpa using (by omega : d ≠ c)

/-- The rows that a cover of `c` takes out of the lane of `d`. -/
def gone (t : Table) (cs : List Nat) (c d : Nat) : List Nat :=
  (t.linked cs c).filter fun row => decide (d ∈ t.ones row)

theorem gone_eq_nil (hc : c ∉ cs) (hd : d ∈ cs) : t.gone cs c d = [] := by
  apply List.filter_eq_nil_iff.2
  intro row hrow
  simpa using ((mem_linked_of_notMem hc).1 hrow).2 d hd

/-- An open lane loses the rows of its own that use the column covered. -/
theorem gone_eq_filter (hc : c ∉ cs) (hd : d ∉ cs) :
    t.gone cs c d = (t.linked cs d).filter fun row => decide (c ∈ t.ones row) := by
  rw [gone, linked_of_notMem hc, linked_of_notMem hd]
  simp only [holders, holdersBelow, List.filter_filter]
  apply List.filter_congr
  intro row _
  simp only [Bool.and_comm, Bool.and_left_comm]

theorem gone_subset (hc : c ∉ cs) : t.gone cs c d ⊆ t.linked cs d := by
  by_cases hd : d ∈ cs
  · simp [gone_eq_nil hc hd]
  · rw [gone_eq_filter hc hd]
    exact List.filter_sublist.subset

theorem gone_nodup : (t.gone cs c d).Nodup := linked_nodup.filter _

/-- What a cover leaves in a lane. -/
theorem linked_sdiff_gone (hc : c ∉ cs) (hdc : d ≠ c) :
    (t.linked cs d).filter (fun row => decide (row ∉ t.gone cs c d)) = t.linked (cs ++ [c]) d := by
  by_cases hd : d ∈ cs
  · rw [linked_concat, if_pos (.inl hd), gone_eq_nil hc hd]
    simp
  · rw [linked_concat, if_neg (by simp [hd, hdc]), gone_eq_filter hc hd]
    apply List.filter_congr
    intro row hrow
    simp [hrow]

theorem length_linked_add_gone (hc : c ∉ cs) (hdc : d ≠ c) :
    (t.linked (cs ++ [c]) d).length + (t.gone cs c d).length = (t.linked cs d).length := by
  by_cases hd : d ∈ cs
  · rw [linked_concat, if_pos (.inl hd), gone_eq_nil hc hd, List.length_nil, Nat.add_zero]
  · rw [linked_concat, if_neg (by simp [hd, hdc]), gone_eq_filter hc hd, Nat.add_comm]
    simpa using (List.length_eq_length_filter_add (l := t.linked cs d)
      fun row => decide (c ∈ t.ones row)).symm

/-! ## Slots -/

theorem gone_slots_nodup : ((t.gone cs c d).map (t.slotOf d)).Nodup := by
  apply (List.nodup_map_iff_inj_on gone_nodup).2
  intro row hrow row' hrow' e
  have hmem : ∀ row ∈ t.gone cs c d, row ∈ t.holders d := by
    intro row hrow
    exact mem_holders.2 (by simpa using (List.mem_filter.1 hrow).2)
  exact slotOf_inj (hmem row hrow) (hmem row' hrow') e

theorem gone_slots_subset (hcs : c ∉ cs) :
    (t.gone cs c d).map (t.slotOf d) ⊆ (t.linked cs d).map (t.slotOf d) :=
  List.map_subset _ (gone_subset hcs)

/-- The slots left in an open lane. -/
theorem slots_sdiff_gone (hcs : c ∉ cs) (hdc : d ≠ c) :
    ((t.linked cs d).map (t.slotOf d)).filter
      (fun slot => decide (slot ∉ (t.gone cs c d).map (t.slotOf d))) =
    (t.linked (cs ++ [c]) d).map (t.slotOf d) := by
  rw [← linked_sdiff_gone hcs hdc, List.filter_map]
  congr 1
  apply List.filter_congr
  intro row hrow
  have hiff : t.slotOf d row ∈ (t.gone cs c d).map (t.slotOf d) ↔ row ∈ t.gone cs c d := by
    refine ⟨fun hmem => ?_, List.mem_map_of_mem⟩
    obtain ⟨row', hrow', e⟩ := List.mem_map.1 hmem
    have hh : row' ∈ t.holders d := linked_sublist.subset (gone_subset hcs hrow')
    rwa [← slotOf_inj hh (linked_sublist.subset hrow) e]
  simp only [Function.comp, hiff]

/-- The knots of the rows in a lane that stand in another column. -/
theorem WellFormed.conflicts_filter (wf : t.WellFormed) (hdc : d ≠ c) :
    (((t.linked cs c).flatMap fun row => t.mates row c).filter fun k => k.column == d).map (·.slot) =
      (t.gone cs c d).map (t.slotOf d) := by
  unfold gone
  induction t.linked cs c with
  | nil => rfl
  | cons row rows ih =>
    rw [List.flatMap_cons, List.filter_append, List.map_append, ih, wf.mates_filter hdc]
    by_cases hd : d ∈ t.ones row
    · rw [if_pos hd, List.filter_cons_of_pos (by simpa using hd)]
      rfl
    · rw [if_neg hd, List.filter_cons_of_neg (by simpa using hd)]
      rfl

theorem conflicts_filter_self :
    ((t.linked cs c).flatMap fun row => t.mates row c).filter (fun k => k.column == c) = [] := by
  rw [List.filter_flatMap, List.flatMap_eq_nil_iff]
  intro _ _
  exact mates_filter_self

end Table

end Covering
