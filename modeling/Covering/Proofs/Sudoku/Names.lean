import Covering.Proofs.Table
import Covering.Sudoku

/-!
# The names of the columns of a Sudoku

The name of a column begins with the letter of its group and shows the numbers of the column in
decimal digits. So the names differ, and the names of a placement, in whatever order, tell its cell
and its digit: `Sudoku.placement?_labelsOf`.
-/

namespace Covering.Sudoku
set_option autoImplicit false

variable {cell digit i j : Nat} {letter : Char}

/-- The digit counted `digit` from 0, as grids show it. -/
def digitOf (digit : Nat) : Char := Nat.digitChar (digit + 1)

/-- The name of the column of a cell. -/
def cellName (cell : Nat) : String := s!"c{cell / 9}{cell % 9}"

/-- The name of the column with number `i` in the group of `letter`. -/
def groupName (letter : String) (i : Nat) : String := s!"{letter}{i / 9}n{i % 9 + 1}"

/-- The names of the columns in the group of `letter`. -/
def group (letter : Char) : List String :=
  (List.range 81).map (groupName (String.singleton letter))

theorem columnNames_eq :
    columnNames = (List.range 81).map cellName ++ group 'r' ++ group 'k' ++ group 'b' := rfl

theorem length_columnNames : columnNames.length = 324 := by simp [columnNames_eq, group]

/-! ## Names as characters -/

theorem toList_toString (h : i < 10) : (toString i).toList = [Nat.digitChar i] := by
  show (Nat.repr i).toList = _
  rw [Nat.repr, String.toList_ofList, Nat.toDigits_of_lt_base h]

theorem toList_cellName (h : cell < 81) :
    (cellName cell).toList = ['c', Nat.digitChar (cell / 9), Nat.digitChar (cell % 9)] := by
  have hname : cellName cell = "c" ++ toString (cell / 9) ++ toString (cell % 9) := rfl
  rw [hname, String.toList_append, String.toList_append, toList_toString (by omega),
    toList_toString (by omega)]
  rfl

theorem toList_groupName (h : i < 81) :
    (groupName (String.singleton letter) i).toList =
      [letter, Nat.digitChar (i / 9), 'n', digitOf (i % 9)] := by
  have hname : groupName (String.singleton letter) i =
      String.singleton letter ++ toString (i / 9) ++ "n" ++ toString (i % 9 + 1) := rfl
  rw [hname, String.toList_append, String.toList_append, String.toList_append,
    String.toList_singleton, toList_toString (by omega), toList_toString (by omega)]
  rfl

theorem digitChar_inj (hi : i < 10) (hj : j < 10) (h : Nat.digitChar i = Nat.digitChar j) :
    i = j := by
  have hvalue := congrArg Char.toNat h
  rw [Nat.toNat_digitChar_of_lt_ten hi, Nat.toNat_digitChar_of_lt_ten hj] at hvalue
  omega

theorem digitOf_inj (hi : i < 9) (hj : j < 9) (h : digitOf i = digitOf j) : i = j := by
  have := digitChar_inj (by omega) (by omega) h
  omega

theorem digit?_digitChar (h : i < 10) : digit? (Nat.digitChar i) = some i := by
  have hall : ∀ i < 10, digit? (Nat.digitChar i) = some i := by decide
  exact hall i h

/-! ## The names differ -/

theorem cellName_inj (hi : i < 81) (hj : j < 81) (h : cellName i = cellName j) : i = j := by
  have hchars := congrArg String.toList h
  rw [toList_cellName hi, toList_cellName hj] at hchars
  simp only [List.cons.injEq, true_and, and_true] at hchars
  have hrow := digitChar_inj (by omega) (by omega) hchars.1
  have hcolumn := digitChar_inj (by omega) (by omega) hchars.2
  omega

theorem groupName_inj (hi : i < 81) (hj : j < 81)
    (h : groupName (String.singleton letter) i = groupName (String.singleton letter) j) :
    i = j := by
  have hchars := congrArg String.toList h
  rw [toList_groupName hi, toList_groupName hj] at hchars
  simp only [List.cons.injEq, true_and, and_true] at hchars
  have hplace := digitChar_inj (by omega) (by omega) hchars.1
  have hdigit := digitOf_inj (by omega) (by omega) hchars.2
  omega

theorem head?_groupName (h : i < 81) :
    (groupName (String.singleton letter) i).toList.head? = some letter := by
  rw [toList_groupName h]
  rfl

theorem head?_of_mem_group {name : String} (h : name ∈ group letter) :
    name.toList.head? = some letter := by
  obtain ⟨i, hi, rfl⟩ := List.mem_map.1 h
  exact head?_groupName (List.mem_range.1 hi)

/-- A group whose letter begins none of the names before it repeats none of them. -/
theorem nodup_append_group {names : List String} {letters : List Char} (nodup : names.Nodup)
    (initials : ∀ name ∈ names, ∃ l ∈ letters, name.toList.head? = some l) (h : letter ∉ letters) :
    (names ++ group letter).Nodup ∧
      ∀ name ∈ names ++ group letter, ∃ l ∈ letter :: letters, name.toList.head? = some l := by
  constructor
  · have hgroup : (group letter).Nodup := by
      refine List.Nodup.map_on (fun i hi j hj hij => ?_) List.nodup_range
      exact groupName_inj (List.mem_range.1 hi) (List.mem_range.1 hj) hij
    refine List.nodup_append.2 ⟨nodup, hgroup, fun name hname other hother e => ?_⟩
    obtain ⟨l, hl, hinitial⟩ := initials name hname
    rw [e, head?_of_mem_group hother] at hinitial
    exact h (Option.some.inj hinitial ▸ hl)
  · intro name hname
    rcases List.mem_append.1 hname with hname | hname
    · obtain ⟨l, hl, hinitial⟩ := initials name hname
      exact ⟨l, List.mem_cons_of_mem _ hl, hinitial⟩
    · exact ⟨letter, List.mem_cons_self .., head?_of_mem_group hname⟩

theorem nodup_columnNames : columnNames.Nodup := by
  have hcells : ((List.range 81).map cellName).Nodup := by
    refine List.Nodup.map_on (fun i hi j hj hij => ?_) List.nodup_range
    exact cellName_inj (List.mem_range.1 hi) (List.mem_range.1 hj) hij
  have hinitials : ∀ name ∈ (List.range 81).map cellName,
      ∃ l ∈ ['c'], name.toList.head? = some l := by
    intro name hname
    obtain ⟨i, hi, rfl⟩ := List.mem_map.1 hname
    rw [toList_cellName (List.mem_range.1 hi)]
    exact ⟨'c', List.mem_cons_self .., rfl⟩
  obtain ⟨hrows, hrow⟩ := nodup_append_group hcells hinitials (show 'r' ∉ ['c'] by decide)
  obtain ⟨hcolumns, hcolumn⟩ := nodup_append_group hrows hrow (show 'k' ∉ ['r', 'c'] by decide)
  rw [columnNames_eq]
  exact (nodup_append_group hcolumns hcolumn (show 'b' ∉ ['k', 'r', 'c'] by decide)).1

/-! ## A placement read off its names -/

/-- The names of 81 columns one after the other, wherever these begin. -/
theorem getD_columnNames {front rest : List String} {name : Nat → String} {start : Nat}
    (hsplit : columnNames = front ++ ((List.range 81).map name ++ rest))
    (hfront : front.length = start) (h : i < 81) : columnNames.getD (start + i) "" = name i := by
  have hlength : i < ((List.range 81).map name).length := by simpa using h
  rw [hsplit, ← hfront, List.getD_append_right _ _ _ _ (Nat.le_add_right ..),
    Nat.add_sub_cancel_left, List.getD_append _ _ _ _ hlength, List.getD_eq_getElem _ _ hlength,
    List.getElem_map, List.getElem_range]

/-- The four names of a placement, one of each group. -/
def namesOf (cell digit : Nat) : List String :=
  [cellName cell, groupName (String.singleton 'r') (cell / 9 * 9 + digit),
    groupName (String.singleton 'k') (cell % 9 * 9 + digit),
    groupName (String.singleton 'b') ((cell / 9 / 3 * 3 + cell % 9 / 3) * 9 + digit)]

theorem map_getD_placementColumns (hcell : cell < 81) (hdigit : digit < 9) :
    (placementColumns cell digit).map (columnNames.getD · "") = namesOf cell digit := by
  let cells := (List.range 81).map cellName
  have hcells : cells.length = 81 := by simp [cells]
  have hgroup : ∀ letter, (group letter).length = 81 := by simp [group]
  have hc : columnNames = [] ++ (cells ++ (group 'r' ++ group 'k' ++ group 'b')) := by
    simp [columnNames_eq, cells]
  have hr : columnNames = cells ++ (group 'r' ++ (group 'k' ++ group 'b')) := by
    simp [columnNames_eq, cells]
  have hk : columnNames = (cells ++ group 'r') ++ (group 'k' ++ group 'b') := by
    simp [columnNames_eq, cells]
  have hb : columnNames = (cells ++ group 'r' ++ group 'k') ++ (group 'b' ++ []) := by
    simp [columnNames_eq, cells]
  have hcell' := getD_columnNames hc List.length_nil hcell
  rw [Nat.zero_add] at hcell'
  simp only [placementColumns, List.map_cons, List.map_nil, Nat.add_assoc, hcell']
  rw [getD_columnNames hr hcells (by omega),
    getD_columnNames hk (by simp [hcells, hgroup]) (by omega),
    getD_columnNames hb (by simp [hcells, hgroup]) (by omega), namesOf]

theorem perm_labelsOf {t : Table} (h : t.names = columnNames) (hcell : cell < 81)
    (hdigit : digit < 9) : (t.labelsOf (placementColumns cell digit)).Perm (namesOf cell digit) := by
  rw [Table.labelsOf, h, ← map_getD_placementColumns hcell hdigit]
  exact perm_sorted _ _

theorem nodup_initials (hcell : cell < 81) (hdigit : digit < 9) :
    ((namesOf cell digit).map (·.toList.head?)).Nodup := by
  simp only [namesOf, List.map_cons, List.map_nil, toList_cellName hcell]
  rw [head?_groupName (by omega), head?_groupName (by omega), head?_groupName (by omega)]
  show [some 'c', some 'r', some 'k', some 'b'].Nodup
  decide

/-- The name that begins with a letter, if all begin with different ones. -/
theorem nameWith?_eq_some {row : Labels} {name : String}
    (nodup : (row.map (·.toList.head?)).Nodup) (hname : name ∈ row)
    (hinitial : name.toList.head? = some letter) :
    nameWith? letter row = some name.toList := by
  rw [nameWith?, List.find?_map]
  cases hfind : row.find? ((·.head? == some letter) ∘ (·.toList)) with
  | none =>
    have hno := List.find?_eq_none.1 hfind name hname
    simp [hinitial] at hno
  | some other =>
    have hother := List.find?_some hfind
    simp only [Function.comp_apply, beq_iff_eq] at hother
    have hsame := List.inj_on_of_nodup_map nodup (List.mem_of_find?_eq_some hfind) hname
      (hother.trans hinitial.symm)
    rw [hsame]
    rfl

/-- The names of a placement, in order, tell where it places which digit. -/
theorem placement?_labelsOf {t : Table} (h : t.names = columnNames) (hcell : cell < 81)
    (hdigit : digit < 9) :
    placement? (t.labelsOf (placementColumns cell digit)) = some (cell, digitOf digit) := by
  have hperm := perm_labelsOf h hcell hdigit
  have hnodup := (hperm.map (·.toList.head?)).nodup_iff.2 (nodup_initials hcell hdigit)
  have hcellName : nameWith? 'c' (t.labelsOf (placementColumns cell digit)) = _ :=
    nameWith?_eq_some hnodup (hperm.mem_iff.2 (List.mem_cons_self ..))
      (by rw [toList_cellName hcell]; rfl)
  have hrowName : nameWith? 'r' (t.labelsOf (placementColumns cell digit)) = _ :=
    nameWith?_eq_some hnodup (hperm.mem_iff.2 (List.mem_cons_of_mem _ (List.mem_cons_self ..)))
      (head?_groupName (by omega))
  have hmod : (cell / 9 * 9 + digit) % 9 = digit := by omega
  rw [toList_cellName hcell] at hcellName
  rw [toList_groupName (by omega), hmod] at hrowName
  have hrow := digit?_digitChar (show cell / 9 < 10 by omega)
  have hcolumn := digit?_digitChar (show cell % 9 < 10 by omega)
  have hnumbers : [Nat.digitChar (cell / 9), Nat.digitChar (cell % 9)].filterMap digit? =
      [cell / 9, cell % 9] := by
    simp [hrow, hcolumn]
  have hsum : cell / 9 * 9 + cell % 9 = cell := by omega
  simp only [placement?, hcellName, hrowName, Option.bind_eq_bind, Option.bind_some, List.tail_cons,
    hnumbers]
  rw [hsum]
  rfl

end Covering.Sudoku
