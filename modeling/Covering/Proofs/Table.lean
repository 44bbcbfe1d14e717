import Covering.Table
import Mathlib.Data.List.Forall2
import Mathlib.Data.List.GetD
import Mathlib.Data.List.Range
import Mathlib.Data.List.Sort
import Mathlib.Data.Finset.Dedup

/-!
# Well-formed tables

A table is well formed if its names differ, its secondary columns are among its columns, and each
row lists columns that exist in ascending order. Main statement: `Table.ofCells` and
`Table.ofIndices` make no other tables. Rows of such a table with the same labels use the same
columns, because each name belongs to one column.
-/

namespace Covering
set_option autoImplicit false

/-- A traversal succeeds exactly if it succeeds on each member. -/
theorem mapM_eq_ok_iff {ε α β : Type} {f : α → Except ε β} {xs : List α} {ys : List β} :
    xs.mapM f = .ok ys ↔ List.Forall₂ (fun x y => f x = .ok y) xs ys := by
  induction xs generalizing ys with
  | nil =>
    constructor
    · intro h
      cases h
      exact .nil
    · intro h
      cases h
      rfl
  | cons x xs ih =>
    rw [List.mapM_cons]
    constructor
    · intro h
      cases hx : f x with
      | error e => simp [hx, bind, Except.bind] at h
      | ok y =>
        cases hr : xs.mapM f with
        | error e => simp [hx, hr, bind, Except.bind] at h
        | ok rest =>
          simp only [hx, hr, bind, Except.bind, pure, Except.pure, Except.ok.injEq] at h
          subst h
          exact .cons hx (ih.1 hr)
    · intro h
      cases h with
      | cons hx hr =>
        rw [hx, ih.2 hr]
        rfl

/-- A traversal fails exactly if it fails on a member and succeeds on those before it. -/
theorem mapM_eq_error_iff {ε α β : Type} {f : α → Except ε β} {xs : List α} {e : ε} :
    xs.mapM f = .error e ↔ ∃ before x after, xs = before ++ x :: after ∧
      (∀ y ∈ before, ∃ z, f y = .ok z) ∧ f x = .error e := by
  induction xs with
  | nil => simp [pure, Except.pure]
  | cons x xs ih =>
    rw [List.mapM_cons]
    cases hx : f x with
    | error e' =>
      simp only [bind, Except.bind, Except.error.injEq]
      constructor
      · rintro rfl
        exact ⟨[], x, xs, rfl, by simp, hx⟩
      · rintro ⟨before, y, after, hsplit, hbefore, hy⟩
        cases before with
        | nil =>
          obtain ⟨rfl, -⟩ := List.cons.inj hsplit
          exact Except.error.inj (hx.symm.trans hy)
        | cons z before =>
          obtain ⟨rfl, -⟩ := List.cons.inj hsplit
          obtain ⟨z, hz⟩ := hbefore _ List.mem_cons_self
          cases hx.symm.trans hz
    | ok y =>
      have hrest : (do
          let rest ← xs.mapM f
          pure (y :: rest)) = .error e ↔ xs.mapM f = .error e := by
        cases xs.mapM f <;> simp [bind, Except.bind, pure, Except.pure]
      refine hrest.trans (ih.trans ⟨?_, ?_⟩)
      · rintro ⟨before, z, after, rfl, hbefore, hz⟩
        exact ⟨x :: before, z, after, rfl, List.forall_mem_cons.2 ⟨⟨y, hx⟩, hbefore⟩, hz⟩
      · rintro ⟨before, z, after, hsplit, hbefore, hz⟩
        cases before with
        | nil =>
          obtain ⟨rfl, -⟩ := List.cons.inj hsplit
          cases hx.symm.trans hz
        | cons w before =>
          obtain ⟨-, rfl⟩ := List.cons.inj hsplit
          exact ⟨before, z, after, rfl, (List.forall_mem_cons.1 hbefore).2, hz⟩

theorem pairwise_le_sorted (xs : List Nat) :
    (sorted (fun a b => a ≤ b) xs).Pairwise (· ≤ ·) := by
  have hle := @pairwise_sorted Nat (fun a b => decide (a ≤ b)) (fun a b => by simp; omega)
    (fun a b c => by simp; omega) xs
  exact hle.imp (by simp)

theorem pairwise_lt_sorted {xs : List Nat} (h : xs.Nodup) :
    (sorted (fun a b => a ≤ b) xs).Pairwise (· < ·) := by
  have hnodup := (perm_sorted (fun a b => decide (a ≤ b)) xs).nodup_iff.2 h
  exact ((pairwise_le_sorted xs).and hnodup).imp fun h => Nat.lt_of_le_of_ne h.1 h.2

/-- An ascending list without twins is strictly ascending. -/
theorem pairwise_lt_of_firstTwin_eq_none {xs : List Nat} (hle : xs.Pairwise (· ≤ ·))
    (h : firstTwin xs = none) : xs.Pairwise (· < ·) := by
  induction xs with
  | nil => exact .nil
  | cons x xs ih =>
    obtain ⟨hx, hle⟩ := List.pairwise_cons.1 hle
    cases xs with
    | nil => exact List.pairwise_singleton _ _
    | cons y ys =>
      simp only [firstTwin] at h
      split at h
      · cases h
      · next hxy =>
        have hys := ih hle h
        have hlt : x < y := Nat.lt_of_le_of_ne (hx y (by simp)) hxy
        refine List.pairwise_cons.2 ⟨fun z hz => ?_, hys⟩
        rcases List.mem_cons.1 hz with rfl | hz
        · exact hlt
        · exact hlt.trans ((List.pairwise_cons.1 hys).1 z hz)

theorem firstTwin_eq_none_of_pairwise {xs : List Nat} (h : xs.Pairwise (· < ·)) :
    firstTwin xs = none := by
  induction xs with
  | nil => rfl
  | cons x xs ih =>
    obtain ⟨hx, hxs⟩ := List.pairwise_cons.1 h
    cases xs with
    | nil => rfl
    | cons y ys =>
      have hne : x ≠ y := Nat.ne_of_lt (hx y (List.mem_cons_self ..))
      rw [firstTwin, if_neg hne]
      exact ih hxs

namespace Table

variable {t : Table} {c d row row' : Nat}

/-- The columns of the ones of `row`. -/
def ones (t : Table) (row : Nat) : List Nat := t.rows.getD row []

/-- The names of the columns that `row` uses, in order of code points. -/
def labels (t : Table) (row : Nat) : Labels := t.labelsOf (t.ones row)

/-- What every table has that describes a problem. -/
structure WellFormed (t : Table) : Prop where
  names_nodup : t.names.Nodup
  secondary_le : t.secondary ≤ t.columnCount
  ascending : ∀ row, (t.ones row).Pairwise (· < ·)
  inRange : ∀ row, ∀ c ∈ t.ones row, c < t.columnCount

/-- The table was made from cells or from lists of columns. -/
def Built (t : Table) : Prop :=
  (∃ names secondary rows, ofCells names secondary rows = .ok t) ∨
    ∃ names secondary rows, ofIndices names secondary rows = .ok t

/-! ## What the constructors check -/

theorem checkHeader_eq_ok_iff {names : List String} {secondary : Nat} :
    checkHeader names secondary = .ok () ↔ secondary ≤ names.length ∧ names.Nodup := by
  have hrepeat : firstRepeat [] names = none ↔ names.Nodup := by simp [firstRepeat_eq_none_iff]
  simp only [checkHeader]
  split
  · next hs => simp [Nat.not_le.2 hs]
  · next hs =>
    rw [← hrepeat]
    cases firstRepeat [] names <;> simp [Nat.not_lt.1 hs]

/-- Cells are read as the ascending columns of the ones among them, if there is one for each
column. -/
theorem onesOfCells_eq_ok_iff {columns row : Nat} {cells : List Cell} {ones : List Nat} :
    onesOfCells columns row cells = .ok ones ↔ cells.length = columns ∧ ones.Pairwise (· < ·) ∧
      ∀ c, c ∈ ones ↔ ∃ cell, cells[c]? = some cell ∧ cell.isOne := by
  have hread : ((cells.zipIdx.filter fun cell => cell.1.isOne).map (·.2)).Pairwise (· < ·) := by
    have hsub : ((cells.zipIdx.filter fun cell => cell.1.isOne).map (·.2)).Sublist
        (List.range' 0 cells.length) := by
      rw [← List.zipIdx_map_snd 0 cells]
      exact List.filter_sublist.map _
    exact List.Pairwise.sublist hsub List.pairwise_lt_range'
  have hmem : ∀ c, c ∈ (cells.zipIdx.filter fun cell => cell.1.isOne).map (·.2) ↔
      ∃ cell, cells[c]? = some cell ∧ cell.isOne := by
    simp [List.mem_zipIdx_iff_getElem?]
  rw [onesOfCells]
  split
  · next hlength =>
    simp only [Except.ok.injEq, hlength, true_and]
    constructor
    · rintro rfl
      exact ⟨hread, hmem⟩
    · rintro ⟨hones, hones'⟩
      exact hread.eq_of_mem_iff hones fun c => (hmem c).trans (hones' c).symm
  · next hlength => simp [hlength]

/-- Listed columns are read as the same columns, ascending, if they exist and differ. -/
theorem onesOfIndices_eq_ok_iff {columns row : Nat} {listed ones : List Nat} :
    onesOfIndices columns row listed = .ok ones ↔ (∀ c ∈ listed, c < columns) ∧ listed.Nodup ∧
      ones.Pairwise (· < ·) ∧ ∀ c, c ∈ ones ↔ c ∈ listed := by
  have hperm := perm_sorted (fun a b => decide (a ≤ b)) listed
  simp only [onesOfIndices]
  cases hfind : listed.find? (columns ≤ ·) with
  | some column =>
    have hmissing : columns ≤ column := by simpa using List.find?_some hfind
    simp only [reduceCtorEq, false_iff]
    rintro ⟨hrange, -⟩
    exact absurd (hrange column (List.mem_of_find?_eq_some hfind)) (Nat.not_lt.2 hmissing)
  | none =>
    have hrange : ∀ c ∈ listed, c < columns := by simpa using List.find?_eq_none.1 hfind
    cases htwin : firstTwin (sorted (fun a b => a ≤ b) listed) with
    | some column =>
      simp only [reduceCtorEq, false_iff]
      rintro ⟨-, hnodup, -⟩
      simp [firstTwin_eq_none_of_pairwise (pairwise_lt_sorted hnodup)] at htwin
    | none =>
      have hlt := pairwise_lt_of_firstTwin_eq_none (pairwise_le_sorted listed) htwin
      have hnodup : listed.Nodup := hperm.nodup_iff.1 (hlt.imp Nat.ne_of_lt)
      simp only [Except.ok.injEq, hnodup, true_and]
      constructor
      · rintro rfl
        exact ⟨hrange, hlt, fun c => hperm.mem_iff⟩
      · rintro ⟨-, hones, hones'⟩
        exact hlt.eq_of_mem_iff hones fun c => hperm.mem_iff.trans (hones' c).symm

section OfRows

variable {α : Type} {read : Nat → Nat → α → Except Defect (List Nat)} {names : List String}
  {secondary : Nat} {rows : List α}

/-- A table is made of a header that passes and of rows that are each read. -/
theorem ofRows_eq_ok_iff : ofRows read names secondary rows = .ok t ↔
    secondary ≤ names.length ∧ names.Nodup ∧ t.names = names ∧ t.secondary = secondary ∧
      rows.length = t.rowCount ∧ ∀ row content, rows[row]? = some content →
        read names.length row content = .ok (t.ones row) := by
  have hrows : (rows.zipIdx.mapM fun content => read names.length content.2 content.1) =
      .ok t.rows ↔ rows.length = t.rowCount ∧ ∀ row content, rows[row]? = some content →
        read names.length row content = .ok (t.ones row) := by
    rw [mapM_eq_ok_iff, List.forall₂_iff_get]
    constructor
    · rintro ⟨hlength, h⟩
      rw [List.length_zipIdx] at hlength
      refine ⟨hlength, fun row content hrow => ?_⟩
      obtain ⟨hlt, rfl⟩ := List.getElem?_eq_some_iff.1 hrow
      have hread := h row (by simpa using hlt) (hlength ▸ hlt)
      rw [ones, List.getD_eq_getElem _ _ (hlength ▸ hlt)]
      simpa using hread
    · rintro ⟨hlength, h⟩
      refine ⟨by rwa [List.length_zipIdx], fun row _ hlt => ?_⟩
      have hread := h row _ (List.getElem?_eq_getElem (hlength ▸ hlt))
      rw [ones, List.getD_eq_getElem _ _ hlt] at hread
      simpa using hread
  have hheader := @checkHeader_eq_ok_iff names secondary
  rw [← hrows, ← and_assoc, ← hheader, ofRows]
  cases checkHeader names secondary with
  | error d => simp [bind, Except.bind]
  | ok _ =>
    cases rows.zipIdx.mapM fun content => read names.length content.2 content.1 with
    | error d => simp [bind, Except.bind]
    | ok lists =>
      obtain ⟨names', secondary', rows'⟩ := t
      simp [bind, Except.bind, pure, Except.pure, eq_comm]

/-- A table of rows that are each read as ascending columns is well formed. -/
theorem wellFormed_ofRows
    (hread : ∀ columns row content ones, read columns row content = .ok ones →
      ones.Pairwise (· < ·) ∧ ∀ c ∈ ones, c < columns)
    (h : ofRows read names secondary rows = .ok t) : t.WellFormed := by
  obtain ⟨hs, hn, rfl, rfl, hlength, hrows⟩ := ofRows_eq_ok_iff.1 h
  have hall : ∀ row, (t.ones row).Pairwise (· < ·) ∧ ∀ c ∈ t.ones row, c < t.names.length := by
    intro row
    by_cases hrow : row < rows.length
    · exact hread _ _ _ _ (hrows row _ (List.getElem?_eq_getElem hrow))
    · rw [ones, List.getD_eq_default _ _ (by rw [rowCount] at hlength; omega)]
      simp
  exact ⟨hn, hs, fun row => (hall row).1, fun row => (hall row).2⟩

end OfRows

/-- The constructors make well-formed tables only. -/
theorem Built.wellFormed (h : t.Built) : t.WellFormed := by
  rcases h with ⟨_, _, _, h⟩ | ⟨_, _, _, h⟩
  · refine wellFormed_ofRows (fun columns row cells ones hread => ?_) h
    obtain ⟨rfl, hones, hmem⟩ := onesOfCells_eq_ok_iff.1 hread
    refine ⟨hones, fun c hc => ?_⟩
    obtain ⟨cell, hcell, -⟩ := (hmem c).1 hc
    exact (List.getElem?_eq_some_iff.1 hcell).1
  · refine wellFormed_ofRows (fun columns row listed ones hread => ?_) h
    obtain ⟨hrange, -, hones, hmem⟩ := onesOfIndices_eq_ok_iff.1 hread
    exact ⟨hones, fun c hc => hrange c ((hmem c).1 hc)⟩

/-- Ascending rows under names that differ make the table that has them. -/
theorem ofIndices_of_pairwise {names : List String} {secondary : Nat} {rows : List (List Nat)}
    (nodup : names.Nodup) (room : secondary ≤ names.length)
    (ascending : ∀ ones ∈ rows, ones.Pairwise (· < ·))
    (inRange : ∀ ones ∈ rows, ∀ c ∈ ones, c < names.length) :
    ofIndices names secondary rows = .ok ⟨names, secondary, rows⟩ := by
  refine ofRows_eq_ok_iff.2 ⟨room, nodup, rfl, rfl, rfl, fun row listed hrow => ?_⟩
  have hmem := List.mem_of_getElem? hrow
  have hones : (Table.mk names secondary rows).ones row = listed := by
    simp [ones, List.getD_eq_getElem?_getD, hrow]
  rw [hones]
  have hlt := ascending listed hmem
  exact onesOfIndices_eq_ok_iff.2
    ⟨inRange listed hmem, hlt.imp Nat.ne_of_lt, hlt, fun _ => Iff.rfl⟩

/-! ## Rows -/

/-- Two primary columns and a secondary one, with rows that cover them in three ways. -/
def abc : Table := ⟨["a", "b", "c"], 1, [[0, 1], [0], [1, 2], [1]]⟩

theorem built_abc : abc.Built :=
  .inr ⟨["a", "b", "c"], 1, [[1, 0], [0], [1, 2], [1]], by decide⟩

theorem primaryCount_le : t.primaryCount ≤ t.columnCount := Nat.sub_le ..

theorem WellFormed.ones_nodup (h : t.WellFormed) : (t.ones row).Nodup :=
  (h.ascending row).imp Nat.ne_of_lt

theorem ones_eq_nil (h : t.rowCount ≤ row) : t.ones row = [] := List.getD_eq_default _ _ h

theorem lt_rowCount_of_mem_ones (h : c ∈ t.ones row) : row < t.rowCount := by
  by_contra hlt
  simp [ones_eq_nil (Nat.le_of_not_lt hlt)] at h

/-- Each name belongs to one column, so rows with the same labels have the same columns. -/
theorem WellFormed.ones_toFinset_of_labels (h : t.WellFormed) (e : t.labels row = t.labels row') :
    (t.ones row).toFinset = (t.ones row').toFinset := by
  have hinj : ∀ row row', t.labels row = t.labels row' → t.ones row ⊆ t.ones row' := by
    intro row row' e c hc
    have hlt : c < t.names.length := h.inRange row c hc
    have hmem : t.names.getD c "" ∈ t.labels row :=
      (perm_sorted _ _).mem_iff.2 (List.mem_map_of_mem hc)
    rw [e] at hmem
    obtain ⟨c', hc', he⟩ := List.mem_map.1 ((perm_sorted _ _).mem_iff.1 hmem)
    have hlt' : c' < t.names.length := h.inRange row' c' hc'
    rw [List.getD_eq_getElem _ _ hlt, List.getD_eq_getElem _ _ hlt',
      h.names_nodup.getElem_inj_iff] at he
    exact he ▸ hc'
  ext c
  simp only [List.mem_toFinset]
  exact ⟨fun hc => hinj _ _ e hc, fun hc => hinj _ _ e.symm hc⟩

/-! ## Holders of a column -/

/-- The rows above `n` that use `column`, top to bottom. -/
def holdersBelow (t : Table) (n column : Nat) : List Nat :=
  (List.range n).filter fun row => decide (column ∈ t.ones row)

/-- The rows that use `column`, top to bottom. -/
def holders (t : Table) (column : Nat) : List Nat := t.holdersBelow t.rowCount column

/-- The slot that `row` has in the lane of `column`, which it uses: one more than the rows above
it in that lane. -/
def slotOf (t : Table) (column row : Nat) : Nat := (t.holdersBelow row column).length + 1

theorem holdersBelow_succ {n : Nat} : t.holdersBelow (n + 1) c =
    t.holdersBelow n c ++ if c ∈ t.ones n then [n] else [] := by
  rw [holdersBelow, List.range_succ, List.filter_append]
  split <;> simp_all [holdersBelow]

theorem mem_holders : row ∈ t.holders c ↔ c ∈ t.ones row := by
  simp only [holders, holdersBelow, List.mem_filter, List.mem_range, decide_eq_true_eq]
  exact ⟨fun h => h.2, fun h => ⟨lt_rowCount_of_mem_ones h, h⟩⟩

theorem holders_ascending : (t.holders c).Pairwise (· < ·) := List.pairwise_lt_range.filter _

/-- The slots of a column count its rows from the top. -/
theorem map_slotOf_holdersBelow (n : Nat) :
    (t.holdersBelow n c).map (t.slotOf c) = List.range' 1 (t.holdersBelow n c).length := by
  induction n with
  | zero => rfl
  | succ n ih =>
    rw [holdersBelow_succ]
    split
    · rw [List.map_append, ih, List.length_append, List.length_singleton, List.range'_concat]
      simp [slotOf, Nat.add_comm]
    · rw [List.append_nil, ih]

theorem map_slotOf_holders : (t.holders c).map (t.slotOf c) = List.range' 1 (t.holders c).length :=
  map_slotOf_holdersBelow t.rowCount

/-- A row stands at its slot. -/
theorem getD_slotOf (h : row ∈ t.holders c) : (t.holders c).getD (t.slotOf c row - 1) 0 = row := by
  obtain ⟨i, hi, rfl⟩ := List.getElem_of_mem h
  have hs : t.slotOf c (t.holders c)[i] = 1 + i := by
    have := congrArg (·[i]?) (map_slotOf_holders (t := t) (c := c))
    simpa [hi] using this
  rw [hs, Nat.add_sub_cancel_left, List.getD_eq_getElem _ _ hi]

theorem slotOf_inj (h : row ∈ t.holders c) (h' : row' ∈ t.holders c)
    (e : t.slotOf c row = t.slotOf c row') : row = row' := by
  rw [← getD_slotOf h, ← getD_slotOf h', e]

theorem slotOf_le (h : row < t.rowCount) : t.slotOf c row ≤ t.rowCount := by
  have hle := List.length_filter_le (fun row => decide (c ∈ t.ones row)) (List.range row)
  rw [List.length_range] at hle
  exact Nat.succ_le_of_lt (hle.trans_lt h)

/-- A row has one of the slots of its lane. -/
theorem slotOf_mem (h : row ∈ t.holders c) :
    0 < t.slotOf c row ∧ t.slotOf c row ≤ (t.holders c).length := by
  have hmem := List.mem_map_of_mem (f := t.slotOf c) h
  rw [map_slotOf_holders, List.mem_range'_1] at hmem
  omega

/-- Slots go down the lane. -/
theorem slotOf_lt (h : row ∈ t.holders c) (hlt : row < row') :
    t.slotOf c row < t.slotOf c row' := by
  have hsub : (t.holdersBelow (row + 1) c).Sublist (t.holdersBelow row' c) :=
    (List.range_sublist.2 hlt).filter _
  have hle := hsub.length_le
  rw [holdersBelow_succ, if_pos (mem_holders.1 h), List.length_append, List.length_singleton] at hle
  exact Nat.succ_lt_succ hle

end Table

end Covering
