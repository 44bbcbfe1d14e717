import Covering.Proofs.Mesh.Building

/-!
# Equal meshes

A mesh does not show how its rows were given, cell by cell or as lists of columns in some order, and
shows all else: meshes that were built are equal exactly if they have the same header, the same
number of secondary columns, as many rows, and row by row the same columns. All of this can be told
from the names, labels, knots and links, without the table that they were made from. Main statement:
`GivenRows.build_faithful`.
-/

namespace Covering
set_option autoImplicit false

namespace Table

variable {t t' : Table}

/-- A well-formed table is its header and the columns that each of its rows uses. -/
theorem WellFormed.ext (h : t.WellFormed) (h' : t'.WellFormed) (names : t.names = t'.names)
    (secondary : t.secondary = t'.secondary) (count : t.rowCount = t'.rowCount)
    (uses : ∀ row c, c ∈ t.ones row ↔ c ∈ t'.ones row) : t = t' := by
  have hones : ∀ row, t.ones row = t'.ones row := fun row =>
    (h.ascending row).eq_of_mem_iff (h'.ascending row) (uses row)
  have hrows : t.rows = t'.rows := by
    apply List.ext_getElem count
    intro row hlt hlt'
    have hrow := hones row
    rwa [ones, ones, List.getD_eq_getElem _ _ hlt, List.getD_eq_getElem _ _ hlt'] at hrow
  cases t
  cases t'
  simp_all

/-- The columns of a row are those of its knots. -/
theorem map_column_knots (row : Nat) : (t.knots row).map (·.column) = t.ones row := by
  rw [knots, List.map_map]
  exact List.map_id _

end Table

/-- The list `listed` has the columns of the ones among `cells`, each once and in any order. -/
def ListsOnes (cells : List Cell) (listed : List Nat) : Prop :=
  listed.Nodup ∧ ∀ c, c ∈ listed ↔ ∃ cell, cells[c]? = some cell ∧ cell.isOne

/-- Rows as they are given: cell by cell, or as lists of columns. -/
inductive GivenRows where
  | cells (rows : List (List Cell))
  | indices (rows : List (List Nat))

namespace GivenRows

variable {rows : GivenRows} {names : List String} {secondary : Nat} {t : Table}

/-- The number of rows. -/
def count : GivenRows → Nat
  | cells rows => rows.length
  | indices rows => rows.length

/-- Whether `row` is given with a one in column `c`. -/
def Uses : GivenRows → Nat → Nat → Prop
  | cells rows, row, c =>
    ∃ cells, rows[row]? = some cells ∧ ∃ cell, cells[c]? = some cell ∧ cell.isOne
  | indices rows, row, c => ∃ listed, rows[row]? = some listed ∧ c ∈ listed

/-- The table of a header and these rows. -/
def table (names : List String) (secondary : Nat) : GivenRows → Except Defect Table
  | cells rows => Table.ofCells names secondary rows
  | indices rows => Table.ofIndices names secondary rows

/-- The mesh of a header and these rows. -/
def build (names : List String) (secondary : Nat) (rows : GivenRows) : Except Defect Mesh :=
  (rows.table names secondary).map Mesh.ofTable

theorem build_eq_ok_iff {m : Mesh} : rows.build names secondary = .ok m ↔
    ∃ t, rows.table names secondary = .ok t ∧ Mesh.ofTable t = m := by
  rw [build]
  cases rows.table names secondary <;> simp [Except.map]

/-- A table has the header and the rows that it was made from. -/
theorem table_eq_ok (h : rows.table names secondary = .ok t) : t.WellFormed ∧ t.names = names ∧
    t.secondary = secondary ∧ t.rowCount = rows.count ∧
      ∀ row c, c ∈ t.ones row ↔ rows.Uses row c := by
  have hnone : ∀ {α : Type} {given : List α} {row : Nat}, given.length = t.rowCount →
      given[row]? = none → t.ones row = [] := by
    intro α given row hlength hrow
    exact Table.ones_eq_nil (hlength ▸ List.getElem?_eq_none_iff.1 hrow)
  cases rows with
  | cells rows =>
    have wf : t.WellFormed := Table.Built.wellFormed (.inl ⟨_, _, _, h⟩)
    obtain ⟨-, -, hnames, hsecondary, hlength, hrows⟩ := Table.ofRows_eq_ok_iff.1 h
    refine ⟨wf, hnames, hsecondary, hlength.symm, fun row c => ?_⟩
    cases hrow : rows[row]? with
    | none => simp [Uses, hrow, hnone hlength hrow]
    | some cells =>
      obtain ⟨-, -, hmem⟩ := Table.onesOfCells_eq_ok_iff.1 (hrows row cells hrow)
      simp [Uses, hrow, hmem]
  | indices rows =>
    have wf : t.WellFormed := Table.Built.wellFormed (.inr ⟨_, _, _, h⟩)
    obtain ⟨-, -, hnames, hsecondary, hlength, hrows⟩ := Table.ofRows_eq_ok_iff.1 h
    refine ⟨wf, hnames, hsecondary, hlength.symm, fun row c => ?_⟩
    cases hrow : rows[row]? with
    | none => simp [Uses, hrow, hnone hlength hrow]
    | some listed =>
      obtain ⟨-, -, -, hmem⟩ := Table.onesOfIndices_eq_ok_iff.1 (hrows row listed hrow)
      simp [Uses, hrow, hmem]

/-- Lists of the columns of the ones make the table that the cells make. -/
theorem table_indices {rows : List (List Cell)} {lists : List (List Nat)}
    (h : (cells rows).table names secondary = .ok t) (hlists : List.Forall₂ ListsOnes rows lists) :
    (indices lists).table names secondary = .ok t := by
  obtain ⟨hroom, hnodup, rfl, rfl, hlength, hrows⟩ := Table.ofRows_eq_ok_iff.1 h
  refine Table.ofRows_eq_ok_iff.2 ⟨hroom, hnodup, rfl, rfl, hlists.length_eq ▸ hlength, ?_⟩
  intro row listed hrow
  obtain ⟨hlt, rfl⟩ := List.getElem?_eq_some_iff.1 hrow
  have hlt' : row < rows.length := hlists.length_eq ▸ hlt
  obtain ⟨hlisted, hmem⟩ : ListsOnes rows[row] lists[row] := hlists.get hlt' hlt
  obtain ⟨hcells, hones, hones'⟩ :=
    Table.onesOfCells_eq_ok_iff.1 (hrows row _ (List.getElem?_eq_getElem hlt'))
  refine Table.onesOfIndices_eq_ok_iff.2 ⟨fun c hc => ?_, hlisted, hones, fun c => ?_⟩
  · obtain ⟨cell, hcell, -⟩ := (hmem c).1 hc
    exact hcells ▸ (List.getElem?_eq_some_iff.1 hcell).1
  · exact (hones' c).trans (hmem c).symm

end GivenRows

namespace Mesh

/-- Two meshes have the same names and as many secondary columns, the same labels and knots row by
row, and the same links and sizes in every lane and among the active columns. -/
structure SameGraph (m m' : Mesh) : Prop where
  names : m.table.names = m'.table.names
  secondary : m.table.secondary = m'.table.secondary
  labels : m.labels = m'.labels
  knots : m.rows = m'.rows
  lanes : m.lanes = m'.lanes
  active : m.active = m'.active

/-- The table of a mesh can be told from the rest of it. -/
theorem SameGraph.table_eq {t t' : Table} (h : (ofTable t).SameGraph (ofTable t'))
    (wf : t.WellFormed) (wf' : t'.WellFormed) : t = t' := by
  have hshape := ofTable_shape wf
  have hshape' := ofTable_shape wf'
  have hnames := h.names
  have hsecondary := h.secondary
  have hknots := congrArg Array.toList h.knots
  rw [hshape.table, hshape'.table] at hnames hsecondary
  simp only [hshape.rows, hshape'.rows] at hknots
  have hcount : t.rowCount = t'.rowCount := by simpa using congrArg List.length hknots
  refine wf.ext wf' hnames hsecondary hcount fun row c => ?_
  by_cases hrow : row < t.rowCount
  · have hsame : t.knots row = t'.knots row := by
      simpa [hrow, hcount ▸ hrow] using congrArg (·[row]?) hknots
    rw [← Table.map_column_knots, hsame, Table.map_column_knots]
  · rw [Table.ones_eq_nil (by omega), Table.ones_eq_nil (by omega)]

end Mesh

namespace GivenRows

/-- A mesh is the same for cells and for lists of their columns in any order, and meshes are equal
exactly if their headers, numbers of secondary columns and rows are; nothing but their graphs need
be compared. -/
theorem build_faithful (names : List String) (secondary : Nat) :
    (∀ (rows : List (List Cell)) (m : Mesh), (cells rows).build names secondary = .ok m →
      ∀ lists, List.Forall₂ ListsOnes rows lists →
        (indices lists).build names secondary = .ok m) ∧
    ∀ (rows : GivenRows) (m : Mesh), rows.build names secondary = .ok m →
      ∀ names' secondary' (rows' : GivenRows) (m' : Mesh), rows'.build names' secondary' = .ok m' →
        (m = m' ↔ names = names' ∧ secondary = secondary' ∧ rows.count = rows'.count ∧
          ∀ row c, rows.Uses row c ↔ rows'.Uses row c) ∧
        (m = m' ↔ m.SameGraph m') := by
  constructor
  · intro rows m h lists hlists
    obtain ⟨t, ht, rfl⟩ := build_eq_ok_iff.1 h
    exact build_eq_ok_iff.2 ⟨t, table_indices ht hlists, rfl⟩
  · intro rows m h names' secondary' rows' m' h'
    obtain ⟨t, ht, rfl⟩ := build_eq_ok_iff.1 h
    obtain ⟨t', ht', rfl⟩ := build_eq_ok_iff.1 h'
    obtain ⟨wf, rfl, rfl, hcount, huses⟩ := table_eq_ok ht
    obtain ⟨wf', rfl, rfl, hcount', huses'⟩ := table_eq_ok ht'
    have hgraph : Mesh.ofTable t = Mesh.ofTable t' →
        (Mesh.ofTable t).SameGraph (Mesh.ofTable t') := fun e => e ▸ ⟨rfl, rfl, rfl, rfl, rfl, rfl⟩
    refine ⟨⟨fun e => ?_, fun ⟨hnames, hsecondary, hrows, hsame⟩ => ?_⟩, hgraph, fun hsame => ?_⟩
    · obtain rfl := (hgraph e).table_eq wf wf'
      exact ⟨rfl, rfl, hcount.symm.trans hcount', fun row c =>
        (huses row c).symm.trans (huses' row c)⟩
    · refine congrArg Mesh.ofTable (wf.ext wf' hnames hsecondary ?_ fun row c => ?_)
      · rw [hcount, hcount', hrows]
      · rw [huses, huses', hsame]
    · rw [hsame.table_eq wf wf']

/-- The columns of a row may be listed backward, and a row in which another column is used makes
another mesh. -/
theorem build_faithful_abc :
    (indices [[1, 0], [0], [2, 1], [1]]).build ["a", "b", "c"] 1 = .ok (Mesh.ofTable Table.abc) ∧
      Mesh.ofTable Table.abc ≠
        Mesh.ofTable ⟨["a", "b", "c"], 1, [[0, 1], [0], [1, 2], [0]]⟩ := by
  have hcells : (cells [[.flag true, .number (-2), .number 0], [.number 1, .flag false, .number 0],
      [.flag false, .number 1, .flag true], [.number 0, .number 7, .number 0]]).build
        ["a", "b", "c"] 1 = .ok (Mesh.ofTable Table.abc) :=
    build_eq_ok_iff.2 ⟨Table.abc, by decide, rfl⟩
  have hother : (indices [[0, 1], [0], [1, 2], [0]]).build ["a", "b", "c"] 1 =
      .ok (Mesh.ofTable ⟨["a", "b", "c"], 1, [[0, 1], [0], [1, 2], [0]]⟩) :=
    build_eq_ok_iff.2 ⟨_, by decide, rfl⟩
  obtain ⟨hsame, hequal⟩ := build_faithful ["a", "b", "c"] 1
  refine ⟨hsame _ _ hcells _ ?_, fun e => ?_⟩
  · refine .cons ⟨by decide, fun c => ?_⟩ (.cons ⟨by decide, fun c => ?_⟩
      (.cons ⟨by decide, fun c => ?_⟩ (.cons ⟨by decide, fun c => ?_⟩ .nil)))
    all_goals rcases c with _ | _ | _ | c <;> simp [Cell.isOne]
  · obtain ⟨-, -, -, huses⟩ := (hequal _ _ hcells _ _ _ _ hother).1.1 e
    have hthird := (huses 3 1).1 ⟨_, rfl, _, rfl, rfl⟩
    simp [Uses] at hthird

end GivenRows

end Covering
