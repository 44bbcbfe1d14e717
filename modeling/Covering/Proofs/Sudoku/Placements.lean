import Covering.Proofs.Coverings
import Covering.Proofs.Sudoku.Rules
import Mathlib.Data.Finset.Filter
import Mathlib.Data.Finset.Range
import Mathlib.Data.List.ProdSigma

/-!
# The table of a grid

The rows of the table are the placements of the givens and those that share no column with any of
them. So a covering of the table is an exact choice of digits that keeps the givens:
`Sudoku.isCovering_iff`.
-/

namespace Covering.Sudoku
set_option autoImplicit false

variable {grid : List Char} {value : Nat → Nat} {rows : Finset Nat} {p q : Nat × Nat}
  {cell digit row c : Nat}

/-- The columns of a placement, a cell with its digit. -/
def columnsOf (p : Nat × Nat) : List Nat := placementColumns p.1 p.2

/-- The placements that share no column with any given. -/
def free (grid : List Char) : List (Nat × Nat) :=
  (List.range 81 ×ˢ List.range 9).filter fun p =>
    ∀ given ∈ givens grid, ∀ c ∈ columnsOf p, c ∉ columnsOf given

/-- The placements of the rows of the table. -/
def placed (grid : List Char) : List (Nat × Nat) := givens grid ++ free grid

/-- The table of a grid. -/
def tableOf (grid : List Char) : Table := ⟨columnNames, 0, placements grid⟩

/-- The placement of a row of the table. -/
def placedAt (grid : List Char) (row : Nat) : Nat × Nat := (placed grid).getD row (0, 0)

/-- The rows of the table that place what `value` does. -/
def rowsOf (grid : List Char) (value : Nat → Nat) : Finset Nat :=
  (Finset.range (placed grid).length).filter fun row =>
    value (placedAt grid row).1 = (placedAt grid row).2

/-! ## Placements -/

theorem given?_eq_some_iff {c : Char} : given? c = some digit ↔ digit < 9 ∧ c = digitOf digit := by
  constructor
  · intro h
    rw [given?] at h
    split at h
    · next hc =>
      have hlow : 49 ≤ c.toNat := hc.1
      have hhigh : c.toNat ≤ 57 := hc.2
      have hdigit : c.toNat - 49 = digit := Option.some.inj h
      refine ⟨by omega, Char.toNat_inj.1 ?_⟩
      rw [digitOf, Nat.toNat_digitChar_of_lt_ten (by omega)]
      omega
    · cases h
  · rintro ⟨hdigit, rfl⟩
    have hall : ∀ digit < 9, given? (digitOf digit) = some digit := by decide
    exact hall digit hdigit

theorem mem_givens : p ∈ givens grid ↔
    p.1 < grid.length ∧ p.2 < 9 ∧ grid.getD p.1 '.' = digitOf p.2 := by
  obtain ⟨cell, digit⟩ := p
  simp only [givens, List.mem_filterMap, Prod.exists, List.mem_zipIdx_iff_getElem?,
    Option.map_eq_some_iff, Prod.mk.injEq, given?_eq_some_iff]
  constructor
  · rintro ⟨c, i, hget, digit', ⟨hdigit, rfl⟩, rfl, rfl⟩
    obtain ⟨hi, hc⟩ := List.getElem?_eq_some_iff.1 hget
    exact ⟨hi, hdigit, by rw [List.getD_eq_getElem _ _ hi, hc]⟩
  · rintro ⟨hcell, hdigit, hc⟩
    rw [List.getD_eq_getElem _ _ hcell] at hc
    exact ⟨_, cell, List.getElem?_eq_some_iff.2 ⟨hcell, hc⟩, digit, ⟨hdigit, rfl⟩, rfl, rfl⟩

theorem mem_columnsOf_self : p.1 ∈ columnsOf p := List.mem_cons_self ..

theorem mem_free : p ∈ free grid ↔ p.1 < 81 ∧ p.2 < 9 ∧
    ∀ given ∈ givens grid, ∀ c ∈ columnsOf p, c ∉ columnsOf given := by
  obtain ⟨cell, digit⟩ := p
  simp [free, and_assoc]

theorem lt_of_mem_placed (h : grid.length = 81) (hp : p ∈ placed grid) : p.1 < 81 ∧ p.2 < 9 := by
  rcases List.mem_append.1 hp with hp | hp
  · have hgiven := mem_givens.1 hp
    exact ⟨h ▸ hgiven.1, hgiven.2.1⟩
  · have hfree := mem_free.1 hp
    exact ⟨hfree.1, hfree.2.1⟩

theorem nodup_placed : (placed grid).Nodup := by
  have hgivens : (givens grid).Nodup := by
    have hcells : grid.zipIdx.Nodup := by
      apply List.Nodup.of_map Prod.snd
      rw [List.zipIdx_map_snd]
      exact List.nodup_range'
    refine List.Nodup.filterMap ?_ hcells
    rintro ⟨c, cell⟩ ⟨c', cell'⟩ p hp hp'
    obtain ⟨digit, hdigit, rfl⟩ := Option.map_eq_some_iff.1 hp
    obtain ⟨digit', hdigit', hsame⟩ := Option.map_eq_some_iff.1 hp'
    obtain ⟨rfl, rfl⟩ := Prod.mk.inj hsame
    rw [(given?_eq_some_iff.1 hdigit).2, (given?_eq_some_iff.1 hdigit').2]
  have hfree : (free grid).Nodup := (List.nodup_range.product List.nodup_range).filter _
  refine List.nodup_append.2 ⟨hgivens, hfree, ?_⟩
  rintro p hp _ hq rfl
  exact (mem_free.1 hq).2.2 p hp p.1 mem_columnsOf_self mem_columnsOf_self

theorem ascending_placementColumns (hcell : cell < 81) (hdigit : digit < 9) :
    (placementColumns cell digit).Pairwise (· < ·) ∧
      ∀ c ∈ placementColumns cell digit, c < 324 := by
  constructor
  · simp only [placementColumns, List.pairwise_cons, List.mem_cons, List.not_mem_nil, or_false,
      forall_eq_or_imp, forall_eq, IsEmpty.forall_iff, implies_true, List.Pairwise.nil, and_true]
    omega
  · simp only [placementColumns, List.mem_cons, List.not_mem_nil, or_false, forall_eq_or_imp,
      forall_eq]
    omega

/-- The flags of the taken columns tell whether a given covers one of `columns`. -/
theorem all_not_taken {columns : List Nat} (h : ∀ c ∈ columns, c < 324) :
    let given := (givens grid).map columnsOf
    let taken := ((List.range 324).map fun column => given.any (·.contains column)).toArray
    (columns.all fun column => !taken.getD column false) =
      decide (∀ given ∈ givens grid, ∀ c ∈ columns, c ∉ columnsOf given) := by
  intro given taken
  have htaken : ∀ c < 324, taken.getD c false = given.any (·.contains c) := by
    intro c hc
    simp [taken, hc]
  rw [Bool.eq_iff_iff, List.all_eq_true, decide_eq_true_iff]
  constructor
  · intro hall q hq c hc hmem
    have hfree := hall c hc
    rw [htaken c (h c hc), Bool.not_eq_true', List.any_eq_false] at hfree
    exact hfree _ (List.mem_map_of_mem hq) (List.contains_iff_mem.2 hmem)
  · intro hall c hc
    rw [htaken c (h c hc), Bool.not_eq_true', List.any_eq_false]
    intro columns' hcolumns' hmem
    obtain ⟨q, hq, rfl⟩ := List.mem_map.1 hcolumns'
    exact hall q hq c hc (List.contains_iff_mem.1 hmem)

theorem placements_eq : placements grid = (placed grid).map columnsOf := by
  rw [placed, List.map_append]
  refine congrArg (_ ++ ·) ?_
  -- What is left are the free placements, listed cell by cell on both sides.
  rw [free]
  show _ = (((List.range 81).flatMap fun cell => (List.range 9).map (Prod.mk cell)).filter _).map _
  rw [List.filter_flatMap, List.map_flatMap]
  refine List.flatMap_congr fun cell hcell => ?_
  rw [List.filter_map, List.filter_map, List.map_map]
  refine congrArg (List.map _) (List.filter_congr fun digit hdigit => ?_)
  exact all_not_taken (ascending_placementColumns (List.mem_range.1 hcell) (List.mem_range.1 hdigit)).2

/-! ## The table -/

/-- The placements of a grid are accepted as they stand. -/
theorem ofIndices_placements (h : grid.length = 81) :
    Table.ofIndices columnNames 0 (placements grid) = .ok (tableOf grid) := by
  have hcolumns : ∀ ones ∈ placements grid, ones.Pairwise (· < ·) ∧ ∀ c ∈ ones, c < 324 := by
    rw [placements_eq]
    intro ones hones
    obtain ⟨p, hp, rfl⟩ := List.mem_map.1 hones
    obtain ⟨hcell, hdigit⟩ := lt_of_mem_placed h hp
    exact ascending_placementColumns hcell hdigit
  apply Table.ofIndices_of_pairwise nodup_columnNames (Nat.zero_le _)
  · exact fun ones hones => (hcolumns ones hones).1
  · rw [length_columnNames]
    exact fun ones hones => (hcolumns ones hones).2

theorem built_tableOf (h : grid.length = 81) : (tableOf grid).Built :=
  .inr ⟨columnNames, 0, placements grid, ofIndices_placements h⟩

theorem primaryCount_tableOf : (tableOf grid).primaryCount = 324 := by
  show columnNames.length - 0 = 324
  rw [length_columnNames]

theorem columnCount_tableOf : (tableOf grid).columnCount = 324 := by
  show columnNames.length = 324
  rw [length_columnNames]

theorem rowCount_tableOf : (tableOf grid).rowCount = (placed grid).length := by
  rw [Table.rowCount, tableOf, placements_eq, List.length_map]

theorem ones_tableOf (hrow : row < (placed grid).length) :
    (tableOf grid).ones row = columnsOf (placedAt grid row) := by
  show (placements grid).getD row [] = _
  rw [placements_eq, placedAt, List.getD_eq_getElem _ _ (by simpa using hrow),
    List.getD_eq_getElem _ _ hrow, List.getElem_map]

theorem placedAt_mem (hrow : row < (placed grid).length) : placedAt grid row ∈ placed grid := by
  rw [placedAt, List.getD_eq_getElem _ _ hrow]
  exact List.getElem_mem hrow

theorem exists_placedAt (hp : p ∈ placed grid) :
    ∃ row < (placed grid).length, placedAt grid row = p := by
  obtain ⟨row, hrow, hget⟩ := List.mem_iff_getElem.1 hp
  exact ⟨row, hrow, by rw [placedAt, List.getD_eq_getElem _ _ hrow, hget]⟩

theorem placedAt_inj {row' : Nat} (hrow : row < (placed grid).length)
    (hrow' : row' < (placed grid).length) (h : placedAt grid row = placedAt grid row') :
    row = row' := by
  rw [placedAt, placedAt, List.getD_eq_getElem _ _ hrow, List.getD_eq_getElem _ _ hrow',
    nodup_placed.getElem_inj_iff] at h
  exact h

/-- Different placements cover different columns. -/
theorem distinct_tableOf (h : grid.length = 81) :
    ∀ row < (tableOf grid).rowCount, ∀ row' < (tableOf grid).rowCount,
      (tableOf grid).ones row ≠ [] →
      ((tableOf grid).ones row).toFinset = ((tableOf grid).ones row').toFinset → row = row' := by
  intro row hrow row' hrow' _ hsame
  rw [rowCount_tableOf] at hrow hrow'
  rw [ones_tableOf hrow, ones_tableOf hrow'] at hsame
  obtain ⟨hcell, hdigit⟩ := lt_of_mem_placed h (placedAt_mem hrow)
  obtain ⟨hcell', hdigit'⟩ := lt_of_mem_placed h (placedAt_mem hrow')
  have hmem : ∀ column ∈ columnsOf (placedAt grid row), column ∈ columnsOf (placedAt grid row') := by
    intro column hcolumn
    rw [← List.mem_toFinset, ← hsame]
    exact List.mem_toFinset.2 hcolumn
  have hcells : (placedAt grid row').1 = (placedAt grid row).1 :=
    (mem_placementColumns_cell hcell' hcell).1 (hmem _ mem_columnsOf_self)
  have hrows := hmem (81 + (placedAt grid row).1 / 9 * 9 + (placedAt grid row).2)
    (by simp [columnsOf, placementColumns])
  simp only [columnsOf, placementColumns, List.mem_cons, List.not_mem_nil, or_false] at hrows
  exact placedAt_inj hrow hrow' (Prod.ext hcells.symm (by omega))

theorem mem_rowsOf : row ∈ rowsOf grid value ↔ row < (placed grid).length ∧
    value (placedAt grid row).1 = (placedAt grid row).2 := by
  rw [rowsOf, Finset.mem_filter, Finset.mem_range]

/-! ## Coverings -/

/-- An exact choice of digits that keeps the givens is there to be made: a placement that shares a
column with a given is that given. -/
theorem Exact.mem_placed (h : grid.length = 81) (exact : Exact value)
    (keeps : ∀ given ∈ givens grid, value given.1 = given.2) (hcell : cell < 81) :
    (cell, value cell) ∈ placed grid := by
  by_cases hgiven : (cell, value cell) ∈ givens grid
  · exact List.mem_append_left _ hgiven
  · refine List.mem_append_right _ (mem_free.2 ⟨hcell, exact.lt cell hcell, ?_⟩)
    intro given hmem c hc hshared
    have hlt : given.1 < 81 := h ▸ (mem_givens.1 hmem).1
    have hc324 := (ascending_placementColumns hcell (exact.lt cell hcell)).2 c hc
    rw [columnsOf, ← keeps given hmem] at hshared
    have hsame := (exact.once c hc324).unique ⟨hcell, hc⟩ ⟨hlt, hshared⟩
    apply hgiven
    rw [hsame, keeps given hmem]
    exact hmem

/-- The rows that place an exact choice of digits cover the table. -/
theorem Exact.isCovering (h : grid.length = 81) (exact : Exact value)
    (keeps : ∀ given ∈ givens grid, value given.1 = given.2) :
    (tableOf grid).IsCovering [] (rowsOf grid value) where
  exist row hrow := rowCount_tableOf ▸ (mem_rowsOf.1 hrow).1
  avoids _ _ c hc := absurd hc List.not_mem_nil
  useful row hrow := by
    obtain ⟨hlt, -⟩ := mem_rowsOf.1 hrow
    have hcell := (lt_of_mem_placed h (placedAt_mem hlt)).1
    rw [ones_tableOf hlt, primaryCount_tableOf]
    exact ⟨_, by omega, List.not_mem_nil, mem_columnsOf_self⟩
  once c hc _ := by
    rw [primaryCount_tableOf] at hc
    obtain ⟨cell, ⟨hcell, hmem⟩, honly⟩ := exact.once c hc
    obtain ⟨row, hrow, hplaced⟩ := exists_placedAt (exact.mem_placed h keeps hcell)
    refine ⟨row, ⟨mem_rowsOf.2 ⟨hrow, by rw [hplaced]⟩, ?_⟩, ?_⟩
    · rw [ones_tableOf hrow, hplaced]
      exact hmem
    · rintro row' ⟨hrow', hone⟩
      obtain ⟨hlt, hvalue⟩ := mem_rowsOf.1 hrow'
      have hcell' := (lt_of_mem_placed h (placedAt_mem hlt)).1
      rw [ones_tableOf hlt, columnsOf, ← hvalue] at hone
      have hsame := honly _ ⟨hcell', hone⟩
      apply placedAt_inj hlt hrow
      rw [hplaced, ← hsame, hvalue]
  atMostOnce c hc hc' := by
    rw [primaryCount_tableOf] at hc
    rw [columnCount_tableOf] at hc'
    omega

/-- A covering has one row for the column of each cell, so it places one digit in each cell. -/
theorem exists_value (h : grid.length = 81) (covering : (tableOf grid).IsCovering [] rows) :
    ∃ value, (∀ cell < 81, (cell, value cell) ∈ placed grid) ∧ rows = rowsOf grid value := by
  have hexist : ∀ row ∈ rows, row < (placed grid).length := fun row hrow =>
    rowCount_tableOf ▸ covering.exist row hrow
  have hcell : ∀ row ∈ rows, ∀ cell < 81,
      cell ∈ (tableOf grid).ones row ↔ (placedAt grid row).1 = cell := by
    intro row hrow cell hcell
    rw [ones_tableOf (hexist row hrow)]
    exact mem_placementColumns_cell (lt_of_mem_placed h (placedAt_mem (hexist row hrow))).1 hcell
  have honly : ∀ cell < 81, ∃! row, row ∈ rows ∧ (placedAt grid row).1 = cell := by
    intro cell hlt
    have honce := covering.once cell (by rw [primaryCount_tableOf]; omega) List.not_mem_nil
    refine (existsUnique_congr fun row => ?_).1 honce
    exact and_congr_right fun hrow => hcell row hrow cell hlt
  have hrow : ∀ cell, ∃ row, cell < 81 → row ∈ rows ∧ (placedAt grid row).1 = cell := by
    intro cell
    by_cases hlt : cell < 81
    · obtain ⟨row, hrow, -⟩ := honly cell hlt
      exact ⟨row, fun _ => hrow⟩
    · exact ⟨0, fun h => absurd h hlt⟩
  choose rowOf hrowOf using hrow
  have hplaced : ∀ cell < 81, placedAt grid (rowOf cell) = (cell, (placedAt grid (rowOf cell)).2) :=
    fun cell hlt => Prod.ext (hrowOf cell hlt).2 rfl
  refine ⟨fun cell => (placedAt grid (rowOf cell)).2, fun cell hlt => ?_, ?_⟩
  · rw [← hplaced cell hlt]
    exact placedAt_mem (hexist _ (hrowOf cell hlt).1)
  · ext row
    rw [mem_rowsOf]
    constructor
    · intro hrow
      have hlt := (lt_of_mem_placed h (placedAt_mem (hexist row hrow))).1
      refine ⟨hexist row hrow, ?_⟩
      show (placedAt grid (rowOf _)).2 = _
      rw [(honly _ hlt).unique (hrowOf _ hlt) ⟨hrow, rfl⟩]
    · rintro ⟨hrow, hvalue⟩
      have hlt := (lt_of_mem_placed h (placedAt_mem hrow)).1
      have hmem := (hrowOf _ hlt).1
      have hsame : placedAt grid row = placedAt grid (rowOf (placedAt grid row).1) := by
        rw [hplaced _ hlt, hvalue]
      rw [placedAt_inj hrow (hexist _ hmem) hsame]
      exact hmem

theorem exact_of_isCovering (h : grid.length = 81)
    (covering : (tableOf grid).IsCovering [] (rowsOf grid value))
    (hplaced : ∀ cell < 81, (cell, value cell) ∈ placed grid) : Exact value where
  lt cell hcell := (lt_of_mem_placed h (hplaced cell hcell)).2
  once c hc := by
    have honce := covering.once c (by rwa [primaryCount_tableOf]) List.not_mem_nil
    obtain ⟨row, hrow, hone⟩ := honce.exists
    obtain ⟨hlt, hvalue⟩ := mem_rowsOf.1 hrow
    have hcell := (lt_of_mem_placed h (placedAt_mem hlt)).1
    refine ⟨(placedAt grid row).1, ⟨hcell, ?_⟩, ?_⟩
    · rw [ones_tableOf hlt] at hone
      rw [hvalue]
      exact hone
    · rintro cell ⟨hcell', hmem⟩
      obtain ⟨row', hlt', hplaced'⟩ := exists_placedAt (hplaced cell hcell')
      have hrow' : row' ∈ rowsOf grid value := mem_rowsOf.2 ⟨hlt', by rw [hplaced']⟩
      have hone' : c ∈ (tableOf grid).ones row' := by
        rw [ones_tableOf hlt', hplaced']
        exact hmem
      rw [honce.unique ⟨hrow, hone⟩ ⟨hrow', hone'⟩, hplaced']

theorem keeps_of_placed (h : grid.length = 81)
    (hplaced : ∀ cell < 81, (cell, value cell) ∈ placed grid) :
    ∀ given ∈ givens grid, value given.1 = given.2 := by
  intro given hgiven
  obtain ⟨hcell, hdigit, hc⟩ := mem_givens.1 hgiven
  rcases List.mem_append.1 (hplaced given.1 (h ▸ hcell)) with hmem | hmem
  · obtain ⟨-, hdigit', hc'⟩ := mem_givens.1 hmem
    exact digitOf_inj hdigit' hdigit (hc'.symm.trans hc)
  · exact absurd mem_columnsOf_self ((mem_free.1 hmem).2.2 given hgiven given.1 mem_columnsOf_self)

/-- The coverings of the table place the exact choices of digits that keep the givens. -/
theorem isCovering_iff (h : grid.length = 81) : (tableOf grid).IsCovering [] rows ↔
    ∃ value, Exact value ∧ (∀ given ∈ givens grid, value given.1 = given.2) ∧
      rows = rowsOf grid value := by
  constructor
  · intro covering
    obtain ⟨value, hplaced, rfl⟩ := exists_value h covering
    exact ⟨value, exact_of_isCovering h covering hplaced, keeps_of_placed h hplaced, rfl⟩
  · rintro ⟨value, hexact, hkeeps, rfl⟩
    exact hexact.isCovering h hkeeps

end Covering.Sudoku
