import Covering.Proofs.Mesh.Equality
import Covering.Proofs.Mesh.Showing

/-!
# Sizes by position

The sizes of the lanes stand in one row of numbers with the columns of the ones, and
`Mesh.columnSize` asks that row for a position without a look at the number of columns. Main
statement, `Mesh.foldlM_cover_sizes`: a column answers the rows in its lane, a position from the
last column on answers the column of the one that stands there, covered or not, and only past the
last one of the table there is no answer.
-/

namespace Covering
set_option autoImplicit false

namespace Table

variable {t : Table}

/-- The ones of all rows together. -/
theorem flatMap_ones : (List.range t.rowCount).flatMap t.ones = t.rows.flatten := by
  rw [List.flatMap_def]
  congr 1
  apply List.ext_getElem (by simp [rowCount])
  intro row hrow hrow'
  simp [ones, hrow']

/-- The columns of all knots, row by row. -/
theorem map_column_flatMap_knots :
    ((List.range t.rowCount).flatMap t.knots).map (·.column) = t.rows.flatten := by
  rw [List.map_flatMap, ← flatMap_ones]
  exact List.flatMap_congr fun row _ => map_column_knots row

end Table

namespace Mesh

variable {t : Table} {m : Mesh} {cs : List Nat} {c : Nat}

/-- Past the columns a position is that of a one. -/
theorem Reads.columnSize_of_le (h : Reads t cs m) (hc : t.columnCount ≤ c) :
    m.columnSize c = match t.rows.flatten[c - t.columnCount]? with
      | some column => .ok (column + 1)
      | none => .error (.missingColumn c) := by
  have hlane : m.lanes[c]? = none := by
    rw [Array.getElem?_eq_none_iff, h.lanes_size]
    exact hc
  have hknots : m.rows.toList.flatten = (List.range t.rowCount).flatMap t.knots := by
    rw [h.rows, List.flatMap_def]
  rw [columnSize, hlane, hknots, h.lanes_size, ← Table.map_column_flatMap_knots, List.getElem?_map]
  cases ((List.range t.rowCount).flatMap t.knots)[c - t.columnCount]? <;> rfl

/-- What the positions of a mesh answer, with columns that differ covered: a column the number of
rows in its lane, the position of a one the column of it counted from 1, and no other position
anything. -/
theorem foldlM_cover_sizes (built : t.Built) (nodup : cs.Nodup)
    (inRange : ∀ c ∈ cs, c < t.columnCount) :
    ∃ m, cs.foldlM cover (ofTable t) = .ok m ∧
      (∀ c < t.columnCount, m.columnSize c = .ok (m.lane c).ring.slots.length ∧
        (m.lane c).Shows (t.holdersOutside (cs.takeWhile (· != c)) c)) ∧
      (∀ position column, t.rows.flatten[position]? = some column →
        m.columnSize (t.columnCount + position) = .ok (column + 1)) ∧
      ∀ c, t.columnCount + t.rows.flatten.length ≤ c ↔
        m.columnSize c = .error (.missingColumn c) := by
  have wf := built.wellFormed
  have hcs : t.Coverable cs := ⟨nodup, inRange⟩
  have h := reads_covering wf hcs
  refine ⟨covering t cs, foldlM_cover_ofTable wf hcs, fun c hc => ⟨h.columnSize_eq hc, ?_⟩,
    fun position column hposition => ?_, fun c => ?_⟩
  · rw [← Table.linked_eq_holdersOutside]
    exact h.lane_shows hc
  · rw [h.columnSize_of_le (Nat.le_add_right ..), Nat.add_sub_cancel_left, hposition]
  · by_cases hc : c < t.columnCount
    · rw [h.columnSize_eq hc]
      simp
      omega
    · have hc' : t.columnCount ≤ c := Nat.le_of_not_lt hc
      rw [h.columnSize_of_le hc', ← Nat.le_sub_iff_add_le' hc', ← List.getElem?_eq_none_iff]
      cases t.rows.flatten[c - t.columnCount]? <;> simp

/-- The case of `abc` with a primary and a secondary column covered. -/
theorem foldlM_cover_sizes_abc :
    ∃ m, [1, 2].foldlM cover (ofTable Table.abc) = .ok m ∧
      (∀ c < Table.abc.columnCount, m.columnSize c = .ok (m.lane c).ring.slots.length ∧
        (m.lane c).Shows (Table.abc.holdersOutside ([1, 2].takeWhile (· != c)) c)) ∧
      (∀ position column, Table.abc.rows.flatten[position]? = some column →
        m.columnSize (Table.abc.columnCount + position) = .ok (column + 1)) ∧
      ∀ c, Table.abc.columnCount + Table.abc.rows.flatten.length ≤ c ↔
        m.columnSize c = .error (.missingColumn c) :=
  foldlM_cover_sizes Table.built_abc (by decide) (by decide)

/-- There are positions that are no column and answer. -/
theorem exists_columnSize_of_no_column :
    ¬ ∀ (t : Table) (cs : List Nat) (m : Mesh) (c : Nat), t.Built → cs.Nodup →
      (∀ c ∈ cs, c < t.columnCount) → cs.foldlM cover (ofTable t) = .ok m → t.columnCount ≤ c →
      ∃ fault, m.columnSize c = .error fault := by
  intro hall
  obtain ⟨fault, hfault⟩ := hall Table.abc [] (ofTable Table.abc) 3 Table.built_abc (by decide)
    (by decide) rfl (by decide)
  have hsize : (ofTable Table.abc).columnSize 3 = .ok 1 := by decide
  rw [hsize] at hfault
  cases hfault

end Mesh

end Covering
