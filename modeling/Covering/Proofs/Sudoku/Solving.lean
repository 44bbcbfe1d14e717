import Covering.Proofs.Remainder
import Covering.Proofs.Sudoku.Placements

/-!
# The solutions of a Sudoku

A search over the table of a grid gives each grid that fills it, once, and no other. Main statement:
`Sudoku.solve_fills`. A solution is read back by its labels only, and all that matters of the order
of its rows is that each cell is set by one of them.
-/

namespace Covering.Sudoku
set_option autoImplicit false

variable {grid : List Char} {value : Nat → Nat} {path : List Nat} {p : Nat × Nat} {cell row : Nat}

/-! ## Reading a solution back -/

theorem length_foldl_set {mark : Nat → Char} (cells : List Nat) (marked : List Char) :
    (cells.foldl (fun marked cell => marked.set cell (mark cell)) marked).length =
      marked.length := by
  induction cells generalizing marked with
  | nil => rfl
  | cons cell cells ih => rw [List.foldl_cons, ih, List.length_set]

theorem getD_foldl_set {mark : Nat → Char} (cells : List Nat) {marked : List Char}
    (h : cell < marked.length) :
    (cells.foldl (fun marked cell => marked.set cell (mark cell)) marked).getD cell '.' =
      if cell ∈ cells then mark cell else marked.getD cell '.' := by
  induction cells generalizing marked with
  | nil => rfl
  | cons other cells ih =>
    rw [List.foldl_cons, ih (by rwa [List.length_set])]
    by_cases hmem : cell ∈ cells
    · simp [hmem]
    · rw [if_neg hmem]
      by_cases hother : other = cell
      · subst hother
        simp [List.getD_eq_getElem?_getD, h]
      · simp [List.getD_eq_getElem?_getD, hmem, hother, Ne.symm hother]

/-- Rows that place a digit in every cell are read back as the grid of these digits. -/
theorem render_labelsOfPath (h : grid.length = 81) (hpath : path.toFinset = rowsOf grid value)
    (hplaced : ∀ cell < 81, (cell, value cell) ∈ placed grid) :
    render ((tableOf grid).labelsOfPath path) = String.ofList (shown value) := by
  have hmem : ∀ row, row ∈ path ↔ row < (placed grid).length ∧
      value (placedAt grid row).1 = (placedAt grid row).2 := by
    intro row
    rw [← List.mem_toFinset, hpath, mem_rowsOf]
  have hread : ∀ row ∈ path, placement? ((tableOf grid).labels row) =
      some ((placedAt grid row).1, digitOf (value (placedAt grid row).1)) := by
    intro row hrow
    obtain ⟨hlt, hvalue⟩ := (hmem row).1 hrow
    obtain ⟨hcell, hdigit⟩ := lt_of_mem_placed h (placedAt_mem hlt)
    rw [Table.labels, ones_tableOf hlt, columnsOf, placement?_labelsOf rfl hcell hdigit, hvalue]
  let cells := path.map fun row => (placedAt grid row).1
  have hcells : ∀ cell < 81, cell ∈ cells := by
    intro cell hcell
    obtain ⟨row, hlt, hrow⟩ := exists_placedAt (hplaced cell hcell)
    exact List.mem_map.2 ⟨row, (hmem row).2 ⟨hlt, by rw [hrow]⟩, by rw [hrow]⟩
  have hfold : render ((tableOf grid).labelsOfPath path) = String.ofList
      (cells.foldl (fun marked cell => marked.set cell (digitOf (value cell)))
        (List.replicate 81 '.')) := by
    rw [render, Table.labelsOfPath, List.foldl_map, List.foldl_map]
    refine congrArg String.ofList (List.foldl_ext _ _ _ fun marked row hrow => ?_)
    rw [hread row hrow]
  rw [hfold]
  refine congrArg String.ofList (List.ext_getElem ?_ fun cell hcell hcell' => ?_)
  · rw [length_foldl_set, List.length_replicate, length_shown]
  · have hlt : cell < 81 := length_shown ▸ hcell'
    rw [← List.getD_eq_getElem _ '.' hcell, ← List.getD_eq_getElem _ '.' hcell', getD_shown hlt,
      getD_foldl_set _ (by rwa [List.length_replicate]), if_pos (hcells cell hlt)]

/-! ## Solutions and filled grids -/

theorem keeps_iff (h : grid.length = 81) (lt : ∀ cell < 81, value cell < 9) :
    (∀ given ∈ givens grid, value given.1 = given.2) ↔
      ∀ cell < 81, grid.getD cell '.' ∈ digits → digitOf (value cell) = grid.getD cell '.' := by
  constructor
  · intro hkeeps cell hcell hgiven
    obtain ⟨digit, hdigit, hc⟩ := mem_digits.1 hgiven
    rw [hc, hkeeps (cell, digit) (mem_givens.2 ⟨h ▸ hcell, hdigit, hc⟩)]
  · intro hkeeps given hgiven
    obtain ⟨hcell, hdigit, hc⟩ := mem_givens.1 hgiven
    rw [h] at hcell
    have hsame := hkeeps given.1 hcell (mem_digits.2 ⟨given.2, hdigit, hc⟩)
    exact digitOf_inj (lt given.1 hcell) hdigit (hsame.trans hc)

/-- A solution of the table places an exact choice of digits that keeps the givens, and it is read
back as the grid of these digits. -/
theorem exists_of_mem_leaves (h : grid.length = 81) (hpath : path ∈ (tableOf grid).leaves []) :
    ∃ value, Exact value ∧ (∀ given ∈ givens grid, value given.1 = given.2) ∧
      path.toFinset = rowsOf grid value ∧
      render ((tableOf grid).labelsOfPath path) = String.ofList (shown value) := by
  obtain ⟨-, hcovering⟩ := Table.nodup_and_isCovering_of_mem_leaves hpath
  obtain ⟨value, hexact, hkeeps, hrows⟩ := (isCovering_iff h).1 hcovering
  exact ⟨value, hexact, hkeeps, hrows,
    render_labelsOfPath h hrows fun cell hcell => hexact.mem_placed h hkeeps hcell⟩

/-- The solutions of the table are read back as different grids. -/
theorem nodup_map_render (h : grid.length = 81) :
    ((((tableOf grid).leaves []).map (tableOf grid).labelsOfPath).map render).Nodup := by
  rw [List.map_map]
  refine List.Nodup.map_on (fun path hpath path' hpath' hsame => ?_) Table.nodup_leaves
  obtain ⟨value, hexact, hkeeps, hrows, hrender⟩ := exists_of_mem_leaves h hpath
  obtain ⟨value', hexact', -, hrows', hrender'⟩ := exists_of_mem_leaves h hpath'
  have hshown : shown value = shown value' :=
    String.ofList_injective (hrender.symm.trans (hsame.trans hrender'))
  have hvalue : ∀ cell < 81, value cell = value' cell := by
    intro cell hcell
    apply digitOf_inj (hexact.lt cell hcell) (hexact'.lt cell hcell)
    rw [← getD_shown hcell, ← getD_shown hcell, hshown]
  have hrowsOf : rowsOf grid value = rowsOf grid value' := by
    ext row
    rw [mem_rowsOf, mem_rowsOf]
    refine and_congr_right fun hrow => ?_
    rw [hvalue _ (lt_of_mem_placed h (placedAt_mem hrow)).1]
  have hcovering := hexact.isCovering h hkeeps
  exact (hcovering.existsUnique_mem_leaves (built_tableOf h).wellFormed).unique
    ⟨hpath, hrows⟩ ⟨hpath', hrows'.trans hrowsOf.symm⟩

/-- The grids that fill `grid` are those that a solution of the table is read back as. -/
theorem mem_map_render_iff (h : grid.length = 81) {filled : String} :
    filled ∈ (((tableOf grid).leaves []).map (tableOf grid).labelsOfPath).map render ↔
      Fills grid filled.toList := by
  rw [List.map_map, List.mem_map, fills_iff]
  constructor
  · rintro ⟨path, hpath, rfl⟩
    obtain ⟨value, hexact, hkeeps, -, hrender⟩ := exists_of_mem_leaves h hpath
    refine ⟨value, hexact, (keeps_iff h hexact.lt).1 hkeeps, ?_⟩
    rw [Function.comp_apply, hrender, String.toList_ofList]
  · rintro ⟨value, hexact, hgiven, hshown⟩
    have hkeeps := (keeps_iff h hexact.lt).2 hgiven
    have hcovering := hexact.isCovering h hkeeps
    obtain ⟨path, hpath, hrows⟩ :=
      (hcovering.existsUnique_mem_leaves (built_tableOf h).wellFormed).exists
    have hplaced := fun cell (hcell : cell < 81) => hexact.mem_placed h hkeeps hcell
    refine ⟨path, hpath, ?_⟩
    rw [Function.comp_apply, render_labelsOfPath h hrows hplaced, ← hshown, String.ofList_toList]

/-! ## Givens that conflict -/

/-- Conflicting givens are two of the placements and share a column. -/
theorem exists_shared_of_conflicting (h : grid.length = 81) (conflicting : Conflicting grid) :
    ∃ p ∈ givens grid, ∃ q ∈ givens grid, p ≠ q ∧ ∃ c ∈ columnsOf p, c ∈ columnsOf q := by
  obtain ⟨cell, hcell, cell', hcell', hne, hgiven, hsame, hunit⟩ := conflicting
  obtain ⟨digit, hdigit, hc⟩ := mem_digits.1 hgiven
  refine ⟨(cell, digit), mem_givens.2 ⟨h ▸ hcell, hdigit, hc⟩,
    (cell', digit), mem_givens.2 ⟨h ▸ hcell', hdigit, hsame.trans hc⟩,
    fun e => hne (congrArg Prod.fst e), ?_⟩
  simp only [boxOf] at hunit
  rcases hunit with hrow | hcolumn | hbox
  · exact ⟨81 + cell / 9 * 9 + digit, by simp [columnsOf, placementColumns],
      by simp [columnsOf, placementColumns, hrow]⟩
  · exact ⟨162 + cell % 9 * 9 + digit, by simp [columnsOf, placementColumns],
      by simp [columnsOf, placementColumns, hcolumn]⟩
  · exact ⟨243 + (cell / 9 / 3 * 3 + cell % 9 / 3) * 9 + digit,
      by simp [columnsOf, placementColumns], by simp [columnsOf, placementColumns, hbox]⟩

/-- Only the row of a given covers the column of its cell. -/
theorem placedAt_of_given (h : grid.length = 81) (hp : p ∈ givens grid)
    (hone : p.1 ∈ (tableOf grid).ones row) : placedAt grid row = p := by
  have hrow : row < (placed grid).length := rowCount_tableOf ▸ Table.lt_rowCount_of_mem_ones hone
  rw [ones_tableOf hrow] at hone
  have hmem := placedAt_mem hrow
  have hcell : (placedAt grid row).1 = p.1 :=
    (mem_placementColumns_cell (lt_of_mem_placed h hmem).1 (h ▸ (mem_givens.1 hp).1)).1 hone
  rcases List.mem_append.1 hmem with hgiven | hfree
  · obtain ⟨-, hdigit, hc⟩ := mem_givens.1 hp
    obtain ⟨-, hdigit', hc'⟩ := mem_givens.1 hgiven
    rw [hcell, hc] at hc'
    exact Prod.ext hcell (digitOf_inj hdigit' hdigit hc'.symm)
  · exact absurd mem_columnsOf_self ((mem_free.1 hfree).2.2 p hp p.1 hone)

/-- Of two givens that share a column one is not chosen, so the column of its cell is open. -/
theorem exists_open_given (h : grid.length = 81) (conflicting : Conflicting grid)
    (chosen : (tableOf grid).Chosen [] path) :
    ∃ given ∈ givens grid, given.1 ∉ (tableOf grid).coveredBy [] path := by
  obtain ⟨p, hp, q, hq, hne, c, hcp, hcq⟩ := exists_shared_of_conflicting h conflicting
  by_contra hcovered
  push Not at hcovered
  have hchosen : ∀ given ∈ givens grid, ∃ row ∈ path, placedAt grid row = given ∧
      (tableOf grid).ones row = columnsOf given := by
    intro given hgiven
    obtain hbase | ⟨row, hrow, hone⟩ := Table.mem_coveredBy.1 (hcovered given hgiven)
    · cases hbase
    · have hplaced := placedAt_of_given h hgiven hone
      have hlt := rowCount_tableOf ▸ Table.lt_rowCount_of_mem_ones hone
      exact ⟨row, hrow, hplaced, by rw [ones_tableOf hlt, hplaced]⟩
  obtain ⟨row, hrow, hplaced, hones⟩ := hchosen p hp
  obtain ⟨row', hrow', hplaced', hones'⟩ := hchosen q hq
  have hsame := chosen.shared row hrow row' hrow' c (hones ▸ hcp) (hones' ▸ hcq)
  exact hne (hplaced.symm.trans (hsame ▸ hplaced'))

/-- Where givens conflict no node has two children: for the cell of a given that is not chosen there
is no row but its own. -/
theorem length_children_le_one (h : grid.length = 81) (conflicting : Conflicting grid)
    (hnode : path ∈ (tableOf grid).preorder [] []) :
    ((tableOf grid).children [] path).length ≤ 1 := by
  obtain ⟨given, hgiven, hfree⟩ :=
    exists_open_given h conflicting (Table.Chosen.nil.of_mem_preorder hnode)
  have hlt : given.1 < 81 := h ▸ (mem_givens.1 hgiven).1
  obtain ⟨row, hrow, hplaced⟩ := exists_placedAt (List.mem_append_left (free grid) hgiven)
  have honly : (tableOf grid).compatible ((tableOf grid).coveredBy [] path) given.1 ⊆ [row] := by
    intro row' hrow'
    have hone := (Table.mem_compatible.1 hrow').1
    have hlt' := rowCount_tableOf ▸ Table.lt_rowCount_of_mem_ones hone
    rw [List.mem_singleton]
    exact placedAt_inj hlt' hrow ((placedAt_of_given h hgiven hone).trans hplaced.symm)
  have hopen : given.1 ∈ (tableOf grid).openColumns ((tableOf grid).coveredBy [] path) := by
    apply Table.mem_openColumns.2
    rw [primaryCount_tableOf]
    exact ⟨by omega, hfree⟩
  exact (Table.length_children_le hopen).trans (Table.compatible_nodup.subperm honly).length_le

/-- A search that goes down a single line covers a column at each node. -/
theorem length_preorder_of_narrow (narrow : ∀ node ∈ (tableOf grid).preorder [] [],
    ((tableOf grid).children [] node).length ≤ 1) :
    ((tableOf grid).preorder [] []).length ≤ 325 := by
  have hnarrow : ((tableOf grid).preorder [] []).length ≤ _ := Table.length_preorder_le narrow
  have hopen : ((tableOf grid).openColumns ((tableOf grid).coveredBy [] [])).length ≤ 324 := by
    refine (List.length_filter_le _ _).trans ?_
    rw [List.length_range, primaryCount_tableOf]
  omega

theorem length_preorder_of_conflicting (h : grid.length = 81) (conflicting : Conflicting grid) :
    ((tableOf grid).preorder [] []).length ≤ 325 :=
  length_preorder_of_narrow fun _ hnode => length_children_le_one h conflicting hnode

theorem leaves_of_conflicting (h : grid.length = 81) (conflicting : Conflicting grid) :
    (tableOf grid).leaves [] = [] := by
  apply List.eq_nil_iff_forall_not_mem.2
  intro path hpath
  have hfills := (mem_map_render_iff h).1 (List.mem_map_of_mem (List.mem_map_of_mem hpath))
  exact hfills.not_conflicting conflicting

/-! ## No more placements than cells -/

/-- If there are no more placements than cells an exact choice that keeps the givens makes them all. -/
theorem mem_rowsOf_of_length (h : grid.length = 81) (few : (placements grid).length = 81)
    (exact : Exact value) (keeps : ∀ given ∈ givens grid, value given.1 = given.2)
    (hrow : row < (placed grid).length) : row ∈ rowsOf grid value := by
  let made := (List.range 81).map fun cell => (cell, value cell)
  have hnodup : made.Nodup := List.nodup_range.map fun _ _ hsame => congrArg Prod.fst hsame
  have hsubset : made ⊆ placed grid := by
    intro p hp
    obtain ⟨cell, hcell, rfl⟩ := List.mem_map.1 hp
    exact exact.mem_placed h keeps (List.mem_range.1 hcell)
  have hlength : (placed grid).length ≤ made.length := by
    simp only [placements_eq, List.length_map] at few
    simp [made, few]
  have hperm := (hnodup.subperm hsubset).perm_of_length_le hlength
  obtain ⟨cell, -, hplaced⟩ := List.mem_map.1 (hperm.mem_iff.2 (placedAt_mem hrow))
  exact mem_rowsOf.2 ⟨hrow, by rw [← hplaced]⟩

section

variable {filled : String} (h : grid.length = 81) (few : (placements grid).length = 81)
  (fills : Fills grid filled.toList)
include h few fills

/-- Then no two of them share a column, so no node has two children. -/
theorem length_children_of_fills (path : List Nat) :
    ((tableOf grid).children [] path).length ≤ 1 := by
  obtain ⟨value, hexact, hgiven, -⟩ := fills_iff.1 fills
  have hkeeps := (keeps_iff h hexact.lt).2 hgiven
  have hcovering := hexact.isCovering h hkeeps
  have hmem : ∀ c row, c ∈ (tableOf grid).ones row → row ∈ rowsOf grid value := fun c row hone =>
    mem_rowsOf_of_length h few hexact hkeeps (rowCount_tableOf ▸ Table.lt_rowCount_of_mem_ones hone)
  cases hbranch : (tableOf grid).branchColumn ((tableOf grid).coveredBy [] path) with
  | none => simp [Table.children_of_isSolution (Table.isSolution_iff.2 hbranch)]
  | some c =>
    rw [Table.children_eq hbranch]
    cases hrows : (tableOf grid).compatible ((tableOf grid).coveredBy [] path) c with
    | nil => simp
    | cons row rest =>
      have hone : ∀ row' ∈ row :: rest, c ∈ (tableOf grid).ones row' := fun row' hrow' =>
        (Table.mem_compatible.1 (hrows ▸ hrow')).1
      have honly : row :: rest ⊆ [row] := by
        intro row' hrow'
        have hc := hone row List.mem_cons_self
        have hc' := hone row' hrow'
        exact List.mem_singleton.2 (hcovering.eq_of_shared (built_tableOf h).wellFormed
          (hmem c row' hc') (hmem c row hc) hc' hc)
      exact ((hrows ▸ Table.compatible_nodup).subperm honly).length_le

/-- A counter can count the nodes that branch, and the solutions. -/
theorem counts_of_fills :
    ((tableOf grid).preorder [] []).countP (!(tableOf grid).isSolution [] ·) < UInt64.size ∧
      ((tableOf grid).leaves []).length < UInt64.size := by
  have hfew := length_preorder_of_narrow fun node _ => length_children_of_fills h few fills node
  have hsize : 325 < UInt64.size := by decide
  exact ⟨(List.countP_le_length.trans hfew).trans_lt hsize,
    ((List.length_filter_le ..).trans hfew).trans_lt hsize⟩

/-- A call finds the one grid that fills the given one. -/
theorem next_of_fills :
    ∃ solution left, (Problem.ofMesh (.covering (tableOf grid) [])).solve.next.2 =
      .ok (some solution, left) ∧ render solution = filled := by
  have wf := (built_tableOf h).wellFormed
  have hb : (tableOf grid).Coverable [] := ⟨List.nodup_nil, by simp⟩
  have hone : ((tableOf grid).leaves []).length ≤ 1 :=
    Table.length_solutions_le fun node _ => length_children_of_fills h few fills node
  obtain ⟨hcounted, -⟩ := counts_of_fills h few fills
  obtain ⟨solution, hmem, hrender⟩ := List.mem_map.1 ((mem_map_render_iff h).2 fills)
  have hfound : Moves.solutions ((tableOf grid).moves [] false []) = [solution] := by
    rw [Moves.solutions_moves_nil, ← Table.leaves]
    rw [← List.length_map (tableOf grid).labelsOfPath] at hone
    obtain ⟨only, honly⟩ :=
      List.length_eq_one_iff.1 (Nat.le_antisymm hone (List.length_pos_of_mem hmem))
    have hsame : solution = only := List.mem_singleton.1 (honly ▸ hmem)
    rw [honly, hsame]
  let p := Problem.ofMesh (.covering (tableOf grid) [])
  rcases Run.next_cases wf hb (Run.at_solve (p := p) rfl) with
    ⟨solution', left, ms, hnext, -, -, hsolutions, -⟩ | ⟨left, hnext, -, hnone, -⟩ | ⟨-, hfull⟩
  · rw [Moves.solutions_notice, Moves.solutions_told, hfound] at hsolutions
    obtain ⟨rfl, -⟩ := List.cons.inj hsolutions
    exact ⟨solution, left, hnext, hrender⟩
  · rw [Moves.solutions_notice, Moves.solutions_told, hfound] at hnone
    cases hnone
  · rw [Moves.searches_notice, Moves.searches_told, Moves.searches_moves_nil] at hfull
    have hzero : p.solve.tally.searches.toNat = 0 := rfl
    omega

end

/-! ## The search -/

/-- A grid of 81 characters is a problem, and its solutions are read back, each once, as the grids
that fill it. Draining a search gives them all unless the nodes that branch are more than a counter
can count; they are few where givens conflict, and nothing is found there. Other grids are no
problem. -/
theorem solve_fills (grid : String) :
    if grid.toList.length = 81 then
      ∃ t, problem? grid = some (.ofMesh (.ofTable t)) ∧
        let search := (Problem.ofMesh (.ofTable t)).solve
        ∃ found : List Solution,
          (found.map render).Nodup ∧
          (∀ filled : String, filled ∈ found.map render ↔ Fills grid.toList filled.toList) ∧
          (Conflicting grid.toList → ∃ r, search.drain = .ok ([], r)) ∧
          if (t.preorder [] []).countP (!t.isSolution [] ·) < UInt64.size then
            ∃ r, search.drain = .ok (found, r)
          else search.drain = .error .tallyOverflow
    else problem? grid = none := by
  split
  · next h =>
    have hproblem : problem? grid = some (.ofMesh (.ofTable (tableOf grid.toList))) := by
      simp only [problem?, h, if_true, ofIndices_placements h]
    refine ⟨tableOf grid.toList, hproblem, ?_⟩
    intro search
    have hcoverable : (tableOf grid.toList).Coverable [] := ⟨List.nodup_nil, by simp⟩
    have hdrain := Table.drain_solve (built_tableOf h).wellFormed hcoverable .zero
    have hzero : Tally.zero.searches.toNat = 0 := rfl
    rw [hzero, Nat.zero_add] at hdrain
    refine ⟨_, nodup_map_render h, fun filled => mem_map_render_iff h, fun conflicting => ?_, ?_⟩
    · have hfew : ((tableOf grid.toList).preorder [] []).countP
          (!(tableOf grid.toList).isSolution [] ·) < UInt64.size :=
        (List.countP_le_length.trans (length_preorder_of_conflicting h conflicting)).trans_lt
          (by decide)
      have hnone : ((tableOf grid.toList).preorder [] []).filter
          ((tableOf grid.toList).isSolution []) = [] := leaves_of_conflicting h conflicting
      rw [if_pos hfew, hnone] at hdrain
      obtain ⟨r, hgiven, -⟩ := hdrain
      exact ⟨r, hgiven⟩
    · split
      · next hcount =>
        rw [if_pos hcount] at hdrain
        obtain ⟨r, hgiven, -⟩ := hdrain
        exact ⟨r, hgiven⟩
      · next hcount =>
        rw [if_neg hcount] at hdrain
        exact hdrain
  · next h => simp only [problem?, h, if_false]

end Covering.Sudoku
