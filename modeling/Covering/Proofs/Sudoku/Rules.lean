import Covering.Proofs.Sudoku.Names
import Mathlib.Data.List.Perm.Subperm

/-!
# The rules of Sudoku

Every row, column and box of a filled grid holds each digit once, and the grid keeps the digits that
it was made from. Read on the columns of the table, the rules say that the placements in all cells
cover each column once: `Sudoku.fills_iff`.
-/

namespace Covering.Sudoku
set_option autoImplicit false

variable {value : Nat → Nat} {place : Nat → Nat} {grid filled : List Char} {cell digit u c : Nat}

/-- The number of the box of a cell. -/
def boxOf (cell : Nat) : Nat := cell / 9 / 3 * 3 + cell % 9 / 3

/-- The digits of a filled grid. -/
def digits : List Char := ['1', '2', '3', '4', '5', '6', '7', '8', '9']

/-- The cells of a row, a column or a box, where `place` tells the number of that of each cell. -/
def cellsOf (place : Nat → Nat) (u : Nat) : List Nat := (List.range 81).filter (place · = u)

/-- The characters of `grid` in the cells of a row, a column or a box. -/
def unit (grid : List Char) (place : Nat → Nat) (u : Nat) : List Char :=
  (cellsOf place u).map (grid.getD · '.')

/-- `filled` has a digit in every cell, obeys the rules and keeps the digits that `grid` has. -/
structure Fills (grid filled : List Char) : Prop where
  length : filled.length = 81
  onlyDigits : ∀ c ∈ filled, c ∈ digits
  rows : ∀ row < 9, (unit filled (· / 9) row).Perm digits
  columns : ∀ column < 9, (unit filled (· % 9) column).Perm digits
  boxes : ∀ box < 9, (unit filled boxOf box).Perm digits
  keeps : ∀ cell < 81, grid.getD cell '.' ∈ digits → filled.getD cell '.' = grid.getD cell '.'

/-- Two cells of a row, a column or a box have the same digit. -/
def Conflicting (grid : List Char) : Prop :=
  ∃ cell < 81, ∃ cell' < 81, cell ≠ cell' ∧ grid.getD cell '.' ∈ digits ∧
    grid.getD cell' '.' = grid.getD cell '.' ∧
    (cell / 9 = cell' / 9 ∨ cell % 9 = cell' % 9 ∨ boxOf cell = boxOf cell')

/-- The digits that `value` places in the cells, counted from 0, cover each column once. -/
structure Exact (value : Nat → Nat) : Prop where
  lt : ∀ cell < 81, value cell < 9
  once : ∀ c < 324, ∃! cell, cell < 81 ∧ c ∈ placementColumns cell (value cell)

/-- The grid that shows what `value` places. -/
def shown (value : Nat → Nat) : List Char := (List.range 81).map fun cell => digitOf (value cell)

/-! ## Digits and cells -/

theorem mem_digits {c : Char} : c ∈ digits ↔ ∃ digit < 9, c = digitOf digit := by
  have hdigits : digits = (List.range 9).map digitOf := by decide
  simp [hdigits, eq_comm]

theorem nodup_digits : digits.Nodup := by decide

theorem mem_cellsOf : cell ∈ cellsOf place u ↔ cell < 81 ∧ place cell = u := by
  simp [cellsOf]

theorem length_cellsOf (h : u < 9) : (cellsOf (· / 9) u).length = 9 ∧
    (cellsOf (· % 9) u).length = 9 ∧ (cellsOf boxOf u).length = 9 := by
  have hall : ∀ u < 9, (cellsOf (· / 9) u).length = 9 ∧ (cellsOf (· % 9) u).length = 9 ∧
      (cellsOf boxOf u).length = 9 := by decide +kernel
  exact hall u h

example : cellsOf boxOf 5 = [33, 34, 35, 42, 43, 44, 51, 52, 53] := by decide

theorem length_shown : (shown value).length = 81 := by simp [shown]

theorem getD_shown (h : cell < 81) : (shown value).getD cell '.' = digitOf (value cell) := by
  rw [List.getD_eq_getElem _ _ (by rwa [length_shown])]
  simp [shown]

/-- A row, column or box holds the digits if each of them is in one of its cells only. -/
theorem perm_digits_iff (lt : ∀ cell < 81, value cell < 9) (h : (cellsOf place u).length = 9) :
    (unit (shown value) place u).Perm digits ↔
      ∀ digit < 9, ∃! cell, cell < 81 ∧ place cell = u ∧ value cell = digit := by
  have hunit : unit (shown value) place u =
      (cellsOf place u).map fun cell => digitOf (value cell) :=
    List.map_congr_left fun cell hcell => getD_shown (mem_cellsOf.1 hcell).1
  rw [hunit]
  constructor
  · intro hperm digit hdigit
    have hnodup := hperm.nodup_iff.2 nodup_digits
    have hmem := hperm.mem_iff.2 (mem_digits.2 ⟨digit, hdigit, rfl⟩)
    obtain ⟨cell, hcell, hvalue⟩ := List.mem_map.1 hmem
    obtain ⟨hlt, hplace⟩ := mem_cellsOf.1 hcell
    have hsame := digitOf_inj (lt cell hlt) hdigit hvalue
    refine ⟨cell, ⟨hlt, hplace, hsame⟩, ?_⟩
    rintro other ⟨hlt', hplace', rfl⟩
    exact List.inj_on_of_nodup_map hnodup (mem_cellsOf.2 ⟨hlt', hplace'⟩) hcell hvalue.symm
  · intro honce
    have hsub : digits ⊆ (cellsOf place u).map fun cell => digitOf (value cell) := by
      intro c hc
      obtain ⟨digit, hdigit, rfl⟩ := mem_digits.1 hc
      obtain ⟨cell, ⟨hlt, hplace, rfl⟩, -⟩ := honce digit hdigit
      exact List.mem_map.2 ⟨cell, mem_cellsOf.2 ⟨hlt, hplace⟩, rfl⟩
    refine ((nodup_digits.subperm hsub).perm_of_length_le ?_).symm
    rw [List.length_map, h]
    rfl

/-! ## Columns -/

/-- Each column is that of a cell, or says that a row, a column or a box holds a digit. -/
theorem forall_column {P : Nat → Prop} : (∀ c < 324, P c) ↔ (∀ cell < 81, P cell) ∧
    ∀ u < 9, ∀ digit < 9,
      P (81 + (u * 9 + digit)) ∧ P (162 + (u * 9 + digit)) ∧ P (243 + (u * 9 + digit)) := by
  constructor
  · intro h
    exact ⟨fun cell hcell => h cell (by omega), fun u hu digit hdigit =>
      ⟨h _ (by omega), h _ (by omega), h _ (by omega)⟩⟩
  · rintro ⟨hcells, hgroups⟩ c hc
    by_cases hcell : c < 81
    · exact hcells c hcell
    · have hgroup := hgroups (c % 81 / 9) (by omega) (c % 9) (by omega)
      obtain h | h | h : 81 + (c % 81 / 9 * 9 + c % 9) = c ∨ 162 + (c % 81 / 9 * 9 + c % 9) = c ∨
          243 + (c % 81 / 9 * 9 + c % 9) = c := by omega
      · exact h ▸ hgroup.1
      · exact h ▸ hgroup.2.1
      · exact h ▸ hgroup.2.2

theorem mem_placementColumns_cell (hcell : cell < 81) (hc : c < 81) :
    c ∈ placementColumns cell digit ↔ cell = c := by
  simp only [placementColumns, List.mem_cons, List.not_mem_nil, or_false]
  omega

theorem mem_placementColumns_group {digit' : Nat} (hcell : cell < 81) (hdigit : digit < 9)
    (hu : u < 9) (hdigit' : digit' < 9) :
    (81 + (u * 9 + digit') ∈ placementColumns cell digit ↔ cell / 9 = u ∧ digit = digit') ∧
      (162 + (u * 9 + digit') ∈ placementColumns cell digit ↔ cell % 9 = u ∧ digit = digit') ∧
      (243 + (u * 9 + digit') ∈ placementColumns cell digit ↔ boxOf cell = u ∧ digit = digit') := by
  simp only [placementColumns, boxOf, List.mem_cons, List.not_mem_nil, or_false]
  refine ⟨?_, ?_, ?_⟩ <;> omega

/-- The rules as columns: the digits in all cells cover each column once if each row, column and box
has each digit in one cell only. -/
theorem once_iff (lt : ∀ cell < 81, value cell < 9) :
    (∀ c < 324, ∃! cell, cell < 81 ∧ c ∈ placementColumns cell (value cell)) ↔
      ∀ u < 9, ∀ digit < 9,
        (∃! cell, cell < 81 ∧ cell / 9 = u ∧ value cell = digit) ∧
        (∃! cell, cell < 81 ∧ cell % 9 = u ∧ value cell = digit) ∧
        (∃! cell, cell < 81 ∧ boxOf cell = u ∧ value cell = digit) := by
  have hcells : ∀ cell < 81,
      ∃! other, other < 81 ∧ cell ∈ placementColumns other (value other) := by
    intro cell hcell
    refine ⟨cell, ⟨hcell, (mem_placementColumns_cell hcell hcell).2 rfl⟩, ?_⟩
    rintro other ⟨hother, hmem⟩
    exact (mem_placementColumns_cell hother hcell).1 hmem
  rw [forall_column, and_iff_right hcells]
  refine forall₄_congr fun u hu digit hdigit => ?_
  have hgroup := fun cell (hcell : cell < 81) =>
    mem_placementColumns_group hcell (lt cell hcell) hu hdigit
  refine and_congr ?_ (and_congr ?_ ?_)
  · exact existsUnique_congr fun cell => and_congr_right fun hcell => (hgroup cell hcell).1
  · exact existsUnique_congr fun cell => and_congr_right fun hcell => (hgroup cell hcell).2.1
  · exact existsUnique_congr fun cell => and_congr_right fun hcell => (hgroup cell hcell).2.2

/-! ## Filled grids -/

theorem exists_shown (length : filled.length = 81) (onlyDigits : ∀ c ∈ filled, c ∈ digits) :
    ∃ value : Nat → Nat, (∀ cell < 81, value cell < 9) ∧ filled = shown value := by
  have hdigit : ∀ cell, ∃ digit, cell < 81 → digit < 9 ∧ filled.getD cell '.' = digitOf digit := by
    intro cell
    by_cases hcell : cell < 81
    · rw [List.getD_eq_getElem _ _ (by omega)]
      obtain ⟨digit, hdigit, hc⟩ := mem_digits.1 (onlyDigits _ (List.getElem_mem _))
      exact ⟨digit, fun _ => ⟨hdigit, hc⟩⟩
    · exact ⟨0, fun h => absurd h hcell⟩
  choose value hvalue using hdigit
  refine ⟨value, fun cell hcell => (hvalue cell hcell).1, ?_⟩
  apply List.ext_getElem
  · rw [length, length_shown]
  · intro cell hcell hcell'
    rw [← List.getD_eq_getElem _ '.' hcell, ← List.getD_eq_getElem _ '.' hcell',
      getD_shown (by omega)]
    exact (hvalue cell (by omega)).2

/-- The grids that fill `grid` are those that show an exact choice of digits which keeps its own. -/
theorem fills_iff : Fills grid filled ↔ ∃ value, Exact value ∧
    (∀ cell < 81, grid.getD cell '.' ∈ digits → digitOf (value cell) = grid.getD cell '.') ∧
      filled = shown value := by
  constructor
  · intro h
    obtain ⟨value, hlt, rfl⟩ := exists_shown h.length h.onlyDigits
    refine ⟨value, ⟨hlt, (once_iff hlt).2 fun u hu digit hdigit => ?_⟩, ?_, rfl⟩
    · obtain ⟨hrows, hcolumns, hboxes⟩ := length_cellsOf hu
      exact ⟨(perm_digits_iff hlt hrows).1 (h.rows u hu) digit hdigit,
        (perm_digits_iff hlt hcolumns).1 (h.columns u hu) digit hdigit,
        (perm_digits_iff hlt hboxes).1 (h.boxes u hu) digit hdigit⟩
    · intro cell hcell hgiven
      rw [← getD_shown hcell]
      exact h.keeps cell hcell hgiven
  · rintro ⟨value, hexact, hkeeps, rfl⟩
    have honce := (once_iff hexact.lt).1 hexact.once
    refine ⟨length_shown, ?_, fun u hu => ?_, fun u hu => ?_, fun u hu => ?_, ?_⟩
    · intro c hc
      obtain ⟨cell, hcell, rfl⟩ := List.mem_map.1 hc
      exact mem_digits.2 ⟨_, hexact.lt cell (List.mem_range.1 hcell), rfl⟩
    · exact (perm_digits_iff hexact.lt (length_cellsOf hu).1).2 fun digit hdigit =>
        (honce u hu digit hdigit).1
    · exact (perm_digits_iff hexact.lt (length_cellsOf hu).2.1).2 fun digit hdigit =>
        (honce u hu digit hdigit).2.1
    · exact (perm_digits_iff hexact.lt (length_cellsOf hu).2.2).2 fun digit hdigit =>
        (honce u hu digit hdigit).2.2
    · intro cell hcell hgiven
      rw [getD_shown hcell]
      exact hkeeps cell hcell hgiven

/-- No grid fills one whose givens conflict. -/
theorem Fills.not_conflicting (h : Fills grid filled) : ¬Conflicting grid := by
  rintro ⟨cell, hcell, cell', hcell', hne, hgiven, hsame, hunit⟩
  obtain ⟨value, hexact, hkeeps, -⟩ := fills_iff.1 h
  have hdigit := hkeeps cell hcell hgiven
  have hdigit' := hkeeps cell' hcell' (hsame ▸ hgiven)
  have hvalue : value cell = value cell' :=
    digitOf_inj (hexact.lt cell hcell) (hexact.lt cell' hcell')
      (hdigit.trans (hsame.symm.trans hdigit'.symm))
  have honce := (once_iff hexact.lt).1 hexact.once
  apply hne
  rcases hunit with hrow | hcolumn | hbox
  · exact (honce (cell' / 9) (by omega) _ (hexact.lt cell' hcell')).1.unique
      ⟨hcell, hrow, hvalue⟩ ⟨hcell', rfl, rfl⟩
  · exact (honce (cell' % 9) (by omega) _ (hexact.lt cell' hcell')).2.1.unique
      ⟨hcell, hcolumn, hvalue⟩ ⟨hcell', rfl, rfl⟩
  · have hlt : boxOf cell' < 9 := by
      unfold boxOf
      omega
    exact (honce (boxOf cell') hlt _ (hexact.lt cell' hcell')).2.2.unique
      ⟨hcell, hbox, hvalue⟩ ⟨hcell', rfl, rfl⟩

end Covering.Sudoku
