import Covering.Proofs.Mesh.Covers
import Mathlib.Data.Finset.Lattice.Basic
import Mathlib.Data.List.MinMax

/-!
# The search tree of a table

A node of the tree is the list of rows chosen on the way to it, outermost first. What a node covers
are the columns of `base`, covered before the search, and those of its rows. If primary columns are
still open the node branches on the one with the fewest compatible rows, and these rows lead to its
children; otherwise the node is a solution. `Table.preorder` lists the nodes of a subtree.

All this speaks of the table only. Main statement about the mesh, `Mesh.chooseColumn_covering`: it
branches on the same column.
-/

namespace Covering
set_option autoImplicit false

namespace Table

variable {t : Table} {covered : Finset Nat} {base cs path path' : List Nat} {c d row row' : Nat}

/-- The rows that use `column` and no covered column, top to bottom. -/
def compatible (t : Table) (covered : Finset Nat) (column : Nat) : List Nat :=
  (t.holders column).filter fun row => decide (∀ c ∈ t.ones row, c ∉ covered)

/-- The open column with the fewest compatible rows, the leftmost if several have. -/
def branchColumn (t : Table) (covered : Finset Nat) : Option Nat :=
  (t.openColumns covered).argmin fun c => (t.compatible covered c).length

/-- The rows among which the search branches. -/
def choices (t : Table) (covered : Finset Nat) : List Nat :=
  match t.branchColumn covered with
  | none => []
  | some c => t.compatible covered c

/-- The columns covered at a node: those of `base` and those of its rows. -/
def coveredBy (t : Table) (base path : List Nat) : Finset Nat :=
  (base ++ path.flatMap t.ones).toFinset

/-- Whether the rows of a node leave no primary column open. -/
def isSolution (t : Table) (base path : List Nat) : Bool :=
  (t.openColumns (t.coveredBy base path)).isEmpty

/-- The rows that lead to the children of a node, in order. -/
def children (t : Table) (base path : List Nat) : List Nat := t.choices (t.coveredBy base path)

/-- The labels of the rows of a node. -/
def labelsOfPath (t : Table) (path : List Nat) : List Labels := path.map t.labels

theorem labelsOfPath_concat :
    (t.labelsOfPath (path ++ [row])).reverse = t.labels row :: (t.labelsOfPath path).reverse := by
  simp [labelsOfPath]

/-! ## Branching -/

theorem mem_compatible : row ∈ t.compatible covered c ↔
    c ∈ t.ones row ∧ ∀ d ∈ t.ones row, d ∉ covered := by
  simp only [compatible, List.mem_filter, mem_holders, decide_eq_true_eq]

theorem compatible_ascending : (t.compatible covered c).Pairwise (· < ·) :=
  holders_ascending.sublist List.filter_sublist

theorem compatible_nodup : (t.compatible covered c).Nodup := compatible_ascending.imp Nat.ne_of_lt

/-- The lane of a column that is open keeps the compatible rows. -/
theorem linked_eq_compatible (h : c ∉ cs) : t.linked cs c = t.compatible cs.toFinset c := by
  rw [linked_of_notMem h, compatible]
  apply List.filter_congr
  intro row _
  rw [decide_eq_decide]
  simp only [List.mem_toFinset]
  exact ⟨fun hall d hd hcs => hall d hcs hd, fun hall d hd hone => hall d hone hd⟩

/-- From its column rightward to the end of the row, and then from the start. -/
theorem mateColumns_eq :
    t.mateColumns row c = (t.ones row).filter (c < ·) ++ (t.ones row).filter (· < c) := by
  have hid : ∀ xs : List Nat,
      xs.map ((fun k : Knot => k.column) ∘ fun d => ⟨d, t.slotOf d row⟩) = xs :=
    fun xs => List.map_id' xs
  simp only [mateColumns, mates, knots, List.filter_map, List.map_append, List.map_map, hid]
  rfl

theorem mem_mateColumns : d ∈ t.mateColumns row c ↔ d ∈ t.ones row ∧ d ≠ c := by
  simp only [mateColumns_eq, List.mem_append, List.mem_filter, decide_eq_true_eq]
  constructor
  · rintro (⟨hd, hlt⟩ | ⟨hd, hlt⟩)
    · exact ⟨hd, Nat.ne_of_gt hlt⟩
    · exact ⟨hd, Nat.ne_of_lt hlt⟩
  · rintro ⟨hd, hne⟩
    rcases Nat.lt_or_gt_of_ne hne with hlt | hlt
    · exact .inr ⟨hd, hlt⟩
    · exact .inl ⟨hd, hlt⟩

theorem WellFormed.mateColumns_nodup (wf : t.WellFormed) : (t.mateColumns row c).Nodup := by
  rw [mateColumns_eq]
  refine List.nodup_append'.2 ⟨wf.ones_nodup.filter _, wf.ones_nodup.filter _, fun d h1 h2 => ?_⟩
  simp only [List.mem_filter, decide_eq_true_eq] at h1 h2
  omega

/-- A column with one of its compatible rows can be covered after `cs`. -/
theorem Coverable.concat_row (wf : t.WellFormed) (hcs : t.Coverable cs) (hc : c ∉ cs)
    (hrow : row ∈ t.compatible cs.toFinset c) : t.Coverable (cs ++ c :: t.mateColumns row c) := by
  obtain ⟨hone, hfree⟩ := mem_compatible.1 hrow
  refine ⟨List.nodup_append'.2 ⟨hcs.1, List.nodup_cons.2 ⟨?_, wf.mateColumns_nodup⟩, ?_⟩, ?_⟩
  · intro h
    exact (mem_mateColumns.1 h).2 rfl
  · intro d hd hmem
    rcases List.mem_cons.1 hmem with rfl | hmate
    · exact hc hd
    · exact hfree d (mem_mateColumns.1 hmate).1 (by simpa using hd)
  · intro d hd
    rcases List.mem_append.1 hd with hd | hd
    · exact hcs.2 d hd
    · rcases List.mem_cons.1 hd with rfl | hmate
      · exact wf.inRange row _ hone
      · exact wf.inRange row d (mem_mateColumns.1 hmate).1

/-- Covering a column and the mates of a row in it covers the columns of the row. -/
theorem toFinset_row (hone : c ∈ t.ones row) :
    (cs ++ c :: t.mateColumns row c).toFinset = cs.toFinset ∪ (t.ones row).toFinset := by
  ext d
  simp only [List.mem_toFinset, List.mem_append, List.mem_cons, mem_mateColumns, Finset.mem_union]
  constructor
  · rintro (hd | rfl | ⟨hd, -⟩)
    · exact .inl hd
    · exact .inr hone
    · exact .inr hd
  · rintro (hd | hd)
    · exact .inl hd
    · by_cases hdc : d = c
      · exact .inr (.inl hdc)
      · exact .inr (.inr ⟨hd, hdc⟩)

theorem branchColumn_eq_none_iff : t.branchColumn covered = none ↔ t.openColumns covered = [] :=
  List.argmin_eq_none

theorem mem_openColumns_of_branchColumn (h : t.branchColumn covered = some c) :
    c ∈ t.openColumns covered := List.argmin_mem h

theorem choices_eq (h : t.branchColumn covered = some c) :
    t.choices covered = t.compatible covered c := by rw [choices, h]

theorem children_eq (h : t.branchColumn (t.coveredBy base path) = some c) :
    t.children base path = t.compatible (t.coveredBy base path) c := choices_eq h

/-- The rows below a node hold the column that it branches on. -/
theorem mem_ones_of_mem_children (h : t.branchColumn (t.coveredBy base path) = some c)
    (hrow : row ∈ t.children base path) : c ∈ t.ones row := by
  rw [children_eq h] at hrow
  exact (mem_compatible.1 hrow).1

/-- What a row among the choices is. -/
theorem mem_choices : row ∈ t.choices covered ↔
    ∃ c, t.branchColumn covered = some c ∧ row ∈ t.compatible covered c := by
  unfold choices
  cases t.branchColumn covered with
  | none => simp
  | some c => simp

theorem choices_nodup : (t.choices covered).Nodup := by
  unfold choices
  split
  · exact List.nodup_nil
  · exact compatible_nodup

theorem mem_coveredBy : c ∈ t.coveredBy base path ↔ c ∈ base ∨ ∃ row ∈ path, c ∈ t.ones row := by
  simp [coveredBy]

theorem coveredBy_nil : t.coveredBy base [] = base.toFinset := by simp [coveredBy]

theorem coveredBy_concat :
    t.coveredBy base (path ++ [row]) = t.coveredBy base path ∪ (t.ones row).toFinset := by
  ext c
  simp only [mem_coveredBy, Finset.mem_union, List.mem_toFinset, List.mem_append,
    List.mem_singleton]
  constructor
  · rintro (hb | ⟨row', hrow' | rfl, hc⟩)
    · exact .inl (.inl hb)
    · exact .inl (.inr ⟨row', hrow', hc⟩)
    · exact .inr hc
  · rintro ((hb | ⟨row', hrow', hc⟩) | hc)
    · exact .inl hb
    · exact .inr ⟨row', .inl hrow', hc⟩
    · exact .inr ⟨row, .inr rfl, hc⟩

theorem isSolution_iff : t.isSolution base path ↔ t.branchColumn (t.coveredBy base path) = none := by
  rw [isSolution, List.isEmpty_iff, branchColumn_eq_none_iff]

theorem children_of_isSolution (h : t.isSolution base path) : t.children base path = [] := by
  rw [children, choices, isSolution_iff.1 h]

/-- A child has fewer open columns: the column branched on is covered. -/
theorem length_openColumns_lt (h : row ∈ t.children base path) :
    (t.openColumns (t.coveredBy base (path ++ [row]))).length <
      (t.openColumns (t.coveredBy base path)).length := by
  obtain ⟨c, hc, hrow⟩ := mem_choices.1 h
  have hopen : t.openColumns (t.coveredBy base (path ++ [row])) =
      (t.openColumns (t.coveredBy base path)).filter fun d => decide (d ∉ t.ones row) := by
    rw [coveredBy_concat, openColumns, openColumns, List.filter_filter]
    apply List.filter_congr
    intro d _
    simp [not_or, Bool.and_comm]
  rw [hopen, List.length_filter_lt_length_iff_exists]
  exact ⟨c, mem_openColumns_of_branchColumn hc, by simpa using (mem_compatible.1 hrow).1⟩

/-! ## Nodes in preorder -/

/-- The nodes of the subtree of `path`, each before its children, these in order. -/
def preorder (t : Table) (base path : List Nat) : List (List Nat) :=
  path :: (t.children base path).attach.flatMap fun row => t.preorder base (path ++ [row.1])
termination_by (t.openColumns (t.coveredBy base path)).length
decreasing_by exact length_openColumns_lt row.2

/-- The nodes of the subtrees that `rows` lead to from `path`. -/
def subtrees (t : Table) (base path rows : List Nat) : List (List Nat) :=
  rows.flatMap fun row => t.preorder base (path ++ [row])

@[simp] theorem subtrees_nil : t.subtrees base path [] = [] := rfl

@[simp] theorem subtrees_cons {rows : List Nat} : t.subtrees base path (row :: rows) =
    t.preorder base (path ++ [row]) ++ t.subtrees base path rows := rfl

/-- The nodes below `path`. -/
def descendants (t : Table) (base path : List Nat) : List (List Nat) :=
  t.subtrees base path (t.children base path)

theorem preorder_eq : t.preorder base path = path :: t.descendants base path := by
  rw [preorder, descendants, subtrees]
  conv_rhs => rw [← List.attach_map_subtype_val (t.children base path), List.flatMap_map]

/-- What holds of a node when it holds of its children holds of all nodes. -/
theorem node_induction {motive : List Nat → Prop} (base : List Nat)
    (h : ∀ path, (∀ row ∈ t.children base path, motive (path ++ [row])) → motive path)
    (path : List Nat) : motive path := by
  induction hn : (t.openColumns (t.coveredBy base path)).length using Nat.strongRecOn
    generalizing path with
  | ind n ih =>
    refine h path fun row hrow => ih _ ?_ (path ++ [row]) rfl
    rw [← hn]
    exact length_openColumns_lt hrow

theorem mem_preorder {node : List Nat} : node ∈ t.preorder base path ↔
    node = path ∨ ∃ row ∈ t.children base path, node ∈ t.preorder base (path ++ [row]) := by
  rw [preorder_eq, List.mem_cons, descendants, subtrees, List.mem_flatMap]

/-- Every node of a subtree begins with the rows of its root. -/
theorem prefix_of_mem_preorder {node : List Nat} (h : node ∈ t.preorder base path) :
    path <+: node := by
  induction path using node_induction (t := t) base with
  | h path ih =>
    rcases mem_preorder.1 h with rfl | ⟨row, hrow, h⟩
    · exact List.prefix_rfl
    · exact (List.prefix_append path [row]).trans (ih row hrow h)

/-- The subtrees of two children have no node in common. -/
theorem row_eq_of_mem_preorder {node : List Nat} (h : node ∈ t.preorder base (path ++ [row]))
    (h' : node ∈ t.preorder base (path ++ [row'])) : row = row' := by
  have hpre := List.prefix_of_prefix_length_le (prefix_of_mem_preorder h)
    (prefix_of_mem_preorder h') (by simp)
  simpa using hpre.eq_of_length (by simp)

theorem preorder_nodup (base path : List Nat) : (t.preorder base path).Nodup := by
  induction path using node_induction (t := t) base with
  | h path ih =>
    rw [preorder_eq, List.nodup_cons]
    constructor
    · intro h
      obtain ⟨row, -, hnode⟩ := List.mem_flatMap.1 h
      have hle := (prefix_of_mem_preorder hnode).length_le
      rw [List.length_append, List.length_singleton] at hle
      omega
    · refine List.nodup_flatMap.2 ⟨ih, choices_nodup.imp fun {row row'} hne => ?_⟩
      intro node h h'
      exact hne (row_eq_of_mem_preorder h h')

/-- A node has no more children than any open column has compatible rows. -/
theorem length_children_le (hopen : c ∈ t.openColumns (t.coveredBy base path)) :
    (t.children base path).length ≤ (t.compatible (t.coveredBy base path) c).length := by
  cases hbranch : t.branchColumn (t.coveredBy base path) with
  | none =>
    rw [branchColumn_eq_none_iff.1 hbranch] at hopen
    cases hopen
  | some d =>
    rw [children_eq hbranch]
    let size := fun c => (t.compatible (t.coveredBy base path) c).length
    show size d ≤ size c
    exact List.le_of_mem_argmin hopen hbranch

/-- Where no node has two children the nodes stand in a line, which covers a column at each. -/
theorem length_preorder_le
    (narrow : ∀ node ∈ t.preorder base path, (t.children base node).length ≤ 1) :
    (t.preorder base path).length ≤ (t.openColumns (t.coveredBy base path)).length + 1 := by
  induction path using node_induction (t := t) base with
  | h path ih =>
    have hone := narrow path (mem_preorder.2 (.inl rfl))
    rw [preorder_eq, descendants, List.length_cons]
    cases hchildren : t.children base path with
    | nil => simp
    | cons row rest =>
      rw [hchildren, List.length_cons] at hone
      obtain rfl : rest = [] := List.length_eq_zero_iff.1 (by omega)
      have hrow : row ∈ t.children base path := hchildren ▸ List.mem_cons_self ..
      have hbelow := ih row hrow fun node hnode =>
        narrow node (mem_preorder.2 (.inr ⟨row, hrow, hnode⟩))
      have hlt := length_openColumns_lt hrow
      simp only [subtrees, List.flatMap_cons, List.flatMap_nil, List.append_nil]
      omega

/-- Only the last node of a line can be a solution. -/
theorem length_solutions_le
    (narrow : ∀ node ∈ t.preorder base path, (t.children base node).length ≤ 1) :
    ((t.preorder base path).filter (t.isSolution base)).length ≤ 1 := by
  induction path using node_induction (t := t) base with
  | h path ih =>
    have hone := narrow path (mem_preorder.2 (.inl rfl))
    rw [preorder_eq, descendants]
    cases hchildren : t.children base path with
    | nil => exact List.length_filter_le _ [path]
    | cons row rest =>
      rw [hchildren, List.length_cons] at hone
      obtain rfl : rest = [] := List.length_eq_zero_iff.1 (by omega)
      have hrow : row ∈ t.children base path := hchildren ▸ List.mem_cons_self ..
      have hnot : ¬t.isSolution base path := fun hsol => by
        simp [children_of_isSolution hsol] at hchildren
      rw [List.filter_cons_of_neg hnot, subtrees_cons, subtrees_nil, List.append_nil]
      exact ih row hrow fun node hnode => narrow node (mem_preorder.2 (.inr ⟨row, hrow, hnode⟩))

end Table

namespace Mesh

variable {t : Table} {cs before after : List Nat} {c row : Nat}

/-- Going on from `best` through further columns finds what is smallest in the table. -/
theorem foldl_argAux {m : Mesh} {size : Nat → Nat} {columns : List Nat} {best : Nat}
    (h : ∀ c ∈ best :: columns, (m.lane c).size = size c) :
    columns.foldl (List.argAux fun b c => size b < size c) (some best) =
      some (m.smallest best columns) := by
  induction columns generalizing best with
  | nil => rfl
  | cons c columns ih =>
    obtain ⟨hb, hc, hrest⟩ := List.forall_mem_cons.1 h |>.imp_right List.forall_mem_cons.1
    rw [List.foldl_cons, smallest, hb, hc]
    simp only [List.argAux, Int.ofNat_lt]
    by_cases hlt : size c < size best
    · rw [if_pos hlt, if_pos hlt]
      exact ih (List.forall_mem_cons.2 ⟨hc, hrest⟩)
    · rw [if_neg hlt, if_neg hlt]
      exact ih (List.forall_mem_cons.2 ⟨hb, hrest⟩)

/-- The mesh branches where its table does. -/
theorem chooseColumn_covering (wf : t.WellFormed) (hcs : t.Coverable cs) :
    (covering t cs).chooseColumn = t.branchColumn cs.toFinset := by
  have hr := reads_covering wf hcs
  have hactive : (covering t cs).activeColumns = t.openColumns cs.toFinset := by
    rw [activeColumns, hr.active.slots_eq, List.map_map]
    exact List.map_id' _
  have hsize : ∀ c ∈ t.openColumns cs.toFinset,
      ((covering t cs).lane c).size = (t.compatible cs.toFinset c).length := by
    intro c hc
    obtain ⟨hp, hn⟩ := Table.mem_openColumns.1 hc
    rw [hr.lane_size c (hp.trans_le Table.primaryCount_le),
      Table.linked_eq_compatible (by simpa using hn)]
  rw [chooseColumn, hactive, Table.branchColumn]
  cases hopen : t.openColumns cs.toFinset with
  | nil => rfl
  | cons c columns =>
    rw [hopen] at hsize
    exact (foldl_argAux hsize).symm

/-- The slots to be tried of a column just covered. -/
theorem after_zero_covering (wf : t.WellFormed) (hcs : t.Coverable (cs ++ [c])) :
    ((covering t (cs ++ [c])).lane c).ring.after 0 =
      (t.compatible cs.toFinset c).map (t.slotOf c) := by
  rw [← Table.linked_eq_compatible hcs.last_notMem]
  have hkeep : t.linked (cs ++ [c]) c = t.linked cs c := by
    rw [Table.linked_concat, if_pos (.inr rfl)]
  rw [← hkeep]
  exact ((reads_covering wf hcs).lane_ring c hcs.last_lt).slots_eq

/-- The slots to be tried after the one of `row`. -/
theorem after_slotOf_covering (wf : t.WellFormed) (hcs : t.Coverable (cs ++ [c]))
    (h : t.compatible cs.toFinset c = before ++ row :: after) :
    ((covering t (cs ++ [c])).lane c).ring.after (t.slotOf c row) = after.map (t.slotOf c) := by
  have hring := (reads_covering wf hcs).lane_ring c hcs.last_lt
  have hkeep : t.linked (cs ++ [c]) c = t.linked cs c := by
    rw [Table.linked_concat, if_pos (.inr rfl)]
  rw [hkeep, Table.linked_eq_compatible hcs.last_notMem, h, List.map_append, List.map_cons] at hring
  exact hring.after_eq

end Mesh

end Covering
