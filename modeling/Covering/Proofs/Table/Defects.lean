import Covering.Proofs.Table

/-!
# The first defect

A header and its rows are a table, or else their first defect is named: too many secondary columns,
then the first name that repeats an earlier one, then the first row that does not fit. A row of
cells fits if it has a cell for each column; a list of columns fits if these exist and differ, and
otherwise names the first that does not exist or, if all exist, the least that is listed twice. Main
statement: `Table.read_or_first_defect`.
-/

namespace Covering
set_option autoImplicit false

/-- What repeats first: all before it differ from each other and from those seen before. -/
theorem firstRepeat_eq_some_iff {α : Type} [DecidableEq α] {seen xs : List α} {x : α} :
    firstRepeat seen xs = some x ↔ ∃ before after, xs = before ++ x :: after ∧ before.Nodup ∧
      (∀ y ∈ before, y ∉ seen) ∧ (x ∈ before ∨ x ∈ seen) := by
  induction xs generalizing seen with
  | nil => simp [firstRepeat]
  | cons y ys ih =>
    rw [firstRepeat]
    split
    · next hy =>
      constructor
      · rintro ⟨⟩
        exact ⟨[], ys, rfl, .nil, by simp, .inr hy⟩
      · rintro ⟨before, after, hsplit, -, hseen, -⟩
        cases before with
        | nil => simp_all
        | cons z before =>
          obtain ⟨rfl, -⟩ := List.cons.inj hsplit
          exact absurd hy (hseen y List.mem_cons_self)
    · next hy =>
      rw [ih]
      constructor
      · rintro ⟨before, after, rfl, hnodup, hseen, hx⟩
        have hfresh : y ∉ before := fun h => hseen y h List.mem_cons_self
        refine ⟨y :: before, after, rfl, List.nodup_cons.2 ⟨hfresh, hnodup⟩, fun z hz => ?_, ?_⟩
        · rcases List.mem_cons.1 hz with rfl | hz
          · exact hy
          · exact fun h => hseen z hz (List.mem_cons_of_mem _ h)
        · rcases hx with hx | hx
          · exact .inl (List.mem_cons_of_mem _ hx)
          · rcases List.mem_cons.1 hx with rfl | hx
            · exact .inl List.mem_cons_self
            · exact .inr hx
      · rintro ⟨before, after, hsplit, hnodup, hseen, hx⟩
        cases before with
        | nil =>
          obtain ⟨rfl, -⟩ := List.cons.inj hsplit
          simp [hy] at hx
        | cons z before =>
          obtain ⟨rfl, rfl⟩ := List.cons.inj hsplit
          obtain ⟨hfresh, hnodup⟩ := List.nodup_cons.1 hnodup
          refine ⟨before, after, rfl, hnodup, fun z hz h => ?_, ?_⟩
          · rcases List.mem_cons.1 h with rfl | h
            · exact hfresh hz
            · exact hseen z (List.mem_cons_of_mem _ hz) h
          · rcases hx with hx | hx
            · exact (List.mem_cons.1 hx).elim (fun e => .inr (e ▸ List.mem_cons_self)) .inl
            · exact .inr (List.mem_cons_of_mem _ hx)

/-- The first twin of an ascending list is its least member that occurs twice. -/
theorem firstTwin_eq_some_iff {xs : List Nat} {x : Nat} (h : xs.Pairwise (· ≤ ·)) :
    firstTwin xs = some x ↔ 2 ≤ xs.count x ∧ ∀ y < x, xs.count y ≤ 1 := by
  induction xs with
  | nil => simp [firstTwin]
  | cons y xs ih =>
    obtain ⟨hy, hxs⟩ := List.pairwise_cons.1 h
    cases xs with
    | nil =>
      have hle : [y].count x ≤ 1 := List.count_le_length
      simp only [firstTwin, reduceCtorEq, false_iff]
      omega
    | cons z zs =>
      have hcount : ∀ c, (y :: z :: zs).count c =
          (z :: zs).count c + if y = c then 1 else 0 := by simp [List.count_cons]
      rw [firstTwin]
      split
      · next hyz =>
        subst hyz
        have htwice : 2 ≤ (y :: y :: zs).count y := by simp
        have hbelow : ∀ c < y, (y :: y :: zs).count c = 0 := by
          intro c hc
          refine List.count_eq_zero.2 fun hmem => ?_
          rcases List.mem_cons.1 hmem with rfl | hmem
          · omega
          · exact absurd (hy c hmem) (by omega)
        constructor
        · rintro ⟨⟩
          exact ⟨htwice, fun c hc => by simp [hbelow c hc]⟩
        · rintro ⟨hx, hleast⟩
          have hge : ¬ x < y := fun hlt => by simp [hbelow x hlt] at hx
          have hle : ¬ y < x := fun hlt => by have := hleast y hlt; omega
          exact congrArg some (by omega)
      · next hyz =>
        have hlt : y < z := Nat.lt_of_le_of_ne (hy z List.mem_cons_self) hyz
        have honce : (z :: zs).count y = 0 := by
          refine List.count_eq_zero.2 fun hmem => ?_
          rcases List.mem_cons.1 hmem with rfl | hmem
          · exact hyz rfl
          · have := (List.pairwise_cons.1 hxs).1 y hmem
            omega
        have hsame : ∀ c, y ≠ c → (y :: z :: zs).count c = (z :: zs).count c := by
          intro c hc
          simp [hcount, hc]
        rw [ih hxs]
        by_cases hxy : y = x
        · subst hxy
          simp [hcount, honce]
        · rw [hsame x hxy]
          refine and_congr_right fun _ => forall₂_congr fun c hc => ?_
          by_cases hyc : y = c
          · subst hyc
            simp [hcount, honce]
          · rw [hsame c hyc]

namespace Table

variable {columns row : Nat} {d : Defect}

/-! ## What a defect is -/

/-- The rows of cells that fit a header. -/
def CellsFit (columns : Nat) (cells : List Cell) : Prop := cells.length = columns

/-- The lists of columns that fit a header. -/
def IndicesFit (columns : Nat) (listed : List Nat) : Prop :=
  (∀ c ∈ listed, c < columns) ∧ listed.Nodup

/-- The defect of a row of cells that does not fit. -/
inductive CellsDefect (columns row : Nat) (cells : List Cell) : Defect → Prop
  | ragged (unfit : cells.length ≠ columns) :
    CellsDefect columns row cells (.raggedRow row cells.length columns)

/-- The defect of a list of columns that does not fit. -/
inductive IndicesDefect (columns row : Nat) (listed : List Nat) : Defect → Prop
  /-- The first column that does not exist. -/
  | missing {before after : List Nat} {column : Nat} (split : listed = before ++ column :: after)
      (inRange : ∀ c ∈ before, c < columns) (beyond : columns ≤ column) :
    IndicesDefect columns row listed (.missingColumn row column columns)
  /-- The least column that is listed more than once. -/
  | repeated {column : Nat} (inRange : ∀ c ∈ listed, c < columns) (twice : 2 ≤ listed.count column)
      (least : ∀ c < column, listed.count c ≤ 1) :
    IndicesDefect columns row listed (.repeatedColumn row column)

/-- The first defect of a header and its rows, for rows of any kind. -/
inductive FirstDefect {α : Type} (Fits : Nat → α → Prop)
    (RowDefect : Nat → Nat → α → Defect → Prop) (names : List String) (secondary : Nat)
    (rows : List α) : Defect → Prop
  | secondary (many : names.length < secondary) :
    FirstDefect Fits RowDefect names secondary rows (.tooManySecondary secondary names.length)
  | name {before after : List String} {name : String} (room : secondary ≤ names.length)
      (split : names = before ++ name :: after) (distinct : before.Nodup) (repeats : name ∈ before) :
    FirstDefect Fits RowDefect names secondary rows (.repeatedName name)
  | row {before after : List α} {content : α} {d : Defect} (room : secondary ≤ names.length)
      (distinct : names.Nodup) (split : rows = before ++ content :: after)
      (fit : ∀ earlier ∈ before, Fits names.length earlier)
      (defect : RowDefect names.length before.length content d) :
    FirstDefect Fits RowDefect names secondary rows d

/-! ## Headers and rows -/

theorem checkHeader_eq_error_iff {names : List String} {secondary : Nat} :
    checkHeader names secondary = .error d ↔
      names.length < secondary ∧ d = .tooManySecondary secondary names.length ∨
      secondary ≤ names.length ∧ ∃ before name after, names = before ++ name :: after ∧
        before.Nodup ∧ name ∈ before ∧ d = .repeatedName name := by
  rw [checkHeader]
  split
  · next hmany => simp [hmany, Nat.not_le.2 hmany, eq_comm]
  · next hroom =>
    have hrepeat : ∀ name, firstRepeat [] names = some name ↔ ∃ before after,
        names = before ++ name :: after ∧ before.Nodup ∧ name ∈ before := by
      simp [firstRepeat_eq_some_iff]
    cases hfirst : firstRepeat [] names with
    | none =>
      simp only [hfirst, reduceCtorEq, false_iff, not_exists, not_and] at hrepeat ⊢
      rintro (⟨hmany, -⟩ | ⟨-, before, name, after, hsplit, hnodup, hmem, -⟩)
      · exact hroom hmany
      · exact hrepeat name before after hsplit hnodup hmem
    | some name =>
      simp only [Except.error.injEq, hroom, false_and, Nat.not_lt.1 hroom, true_and, false_or]
      constructor
      · rintro rfl
        obtain ⟨before, after, hsplit, hnodup, hmem⟩ := (hrepeat name).1 hfirst
        exact ⟨before, name, after, hsplit, hnodup, hmem, rfl⟩
      · rintro ⟨before, other, after, hsplit, hnodup, hmem, rfl⟩
        have hother := (hrepeat other).2 ⟨before, after, hsplit, hnodup, hmem⟩
        rw [Option.some.inj (hfirst.symm.trans hother)]

theorem onesOfIndices_eq_error_iff {listed : List Nat} :
    onesOfIndices columns row listed = .error d ↔ IndicesDefect columns row listed d := by
  have hbeyond : ∀ column, listed.find? (columns ≤ ·) = some column ↔ columns ≤ column ∧
      ∃ before after, listed = before ++ column :: after ∧ ∀ c ∈ before, c < columns := by
    simp [List.find?_eq_some_iff_append]
  have htwin : ∀ column, firstTwin (sorted (fun a b => a ≤ b) listed) = some column ↔
      2 ≤ listed.count column ∧ ∀ c < column, listed.count c ≤ 1 := by
    intro column
    rw [firstTwin_eq_some_iff (pairwise_le_sorted listed)]
    simp only [(perm_sorted (fun a b => decide (a ≤ b)) listed).count_eq]
  simp only [onesOfIndices]
  constructor
  · intro h
    cases hfind : listed.find? (columns ≤ ·) with
    | some column =>
      obtain ⟨hcolumn, before, after, hsplit, hrange⟩ := (hbeyond column).1 hfind
      simp only [hfind, Except.error.injEq] at h
      exact h ▸ .missing hsplit hrange hcolumn
    | none =>
      have hrange : ∀ c ∈ listed, c < columns := by simpa using List.find?_eq_none.1 hfind
      cases hfirst : firstTwin (sorted (fun a b => a ≤ b) listed) with
      | none => simp [hfind, hfirst] at h
      | some column =>
        obtain ⟨htwice, hleast⟩ := (htwin column).1 hfirst
        simp only [hfind, hfirst, Except.error.injEq] at h
        exact h ▸ .repeated hrange htwice hleast
  · intro h
    cases h with
    | missing hsplit hrange hcolumn =>
      simp only [(hbeyond _).2 ⟨hcolumn, _, _, hsplit, hrange⟩]
    | repeated hrange htwice hleast =>
      have hfind : listed.find? (columns ≤ ·) = none := by
        simpa [List.find?_eq_none] using hrange
      simp only [hfind, (htwin _).2 ⟨htwice, hleast⟩]

/-- `read` reads the rows that fit, wherever they stand, and names the defect of every other row. -/
structure Checks {α : Type} (read : Nat → Nat → α → Except Defect (List Nat))
    (Fits : Nat → α → Prop) (RowDefect : Nat → Nat → α → Defect → Prop) : Prop where
  reads_iff {columns row : Nat} {content : α} :
    (∃ ones, read columns row content = .ok ones) ↔ Fits columns content
  refuses_iff {columns row : Nat} {content : α} {d : Defect} :
    read columns row content = .error d ↔ RowDefect columns row content d

theorem checks_cells : Checks onesOfCells CellsFit CellsDefect where
  reads_iff {columns row cells} := by
    rw [CellsFit, onesOfCells]
    split <;> simp_all
  refuses_iff {columns row cells d} := by
    rw [onesOfCells]
    split
    · next hlength =>
      simp only [reduceCtorEq, false_iff]
      rintro ⟨hunfit⟩
      exact hunfit hlength
    · next hunfit =>
      constructor
      · rintro ⟨⟩
        exact .ragged hunfit
      · rintro ⟨-⟩
        rfl

theorem checks_indices : Checks onesOfIndices IndicesFit IndicesDefect where
  reads_iff {columns row listed} := by
    constructor
    · rintro ⟨ones, h⟩
      obtain ⟨hrange, hnodup, -⟩ := onesOfIndices_eq_ok_iff.1 h
      exact ⟨hrange, hnodup⟩
    · rintro ⟨hrange, hnodup⟩
      exact ⟨_, onesOfIndices_eq_ok_iff.2
        ⟨hrange, hnodup, pairwise_lt_sorted hnodup, fun c => (perm_sorted _ _).mem_iff⟩⟩
  refuses_iff := onesOfIndices_eq_error_iff

section OfRows

variable {α : Type} {read : Nat → Nat → α → Except Defect (List Nat)} {names : List String}
  {secondary : Nat} {rows : List α} {Fits : Nat → α → Prop}
  {RowDefect : Nat → Nat → α → Defect → Prop}

/-- Rows are read up to the first that does not fit. -/
theorem Checks.mapM_zipIdx (h : Checks read Fits RowDefect) {columns : Nat} :
    (rows.zipIdx.mapM fun content => read columns content.2 content.1) = .error d ↔
      ∃ before content after, rows = before ++ content :: after ∧
        (∀ earlier ∈ before, Fits columns earlier) ∧
        RowDefect columns before.length content d := by
  rw [mapM_eq_error_iff]
  constructor
  · rintro ⟨before, ⟨content, row⟩, after, hsplit, hread, hcontent⟩
    have hrows := congrArg (List.map Prod.fst) hsplit
    have hrow := congrArg (fun content => (content.map Prod.snd)[before.length]?) hsplit
    simp only [List.zipIdx_map_fst, List.zipIdx_map_snd, List.map_append, List.map_cons] at hrows hrow
    obtain rfl : before.length = row := by
      have hlt : before.length < rows.length := by simp [hrows]
      simpa [hlt] using hrow
    refine ⟨_, content, _, hrows, fun earlier hmem => ?_, ?_⟩
    · obtain ⟨entry, hentry, rfl⟩ := List.mem_map.1 hmem
      exact h.reads_iff.1 (hread entry hentry)
    · rw [List.length_map]
      exact h.refuses_iff.1 hcontent
  · rintro ⟨before, content, after, rfl, hfit, hcontent⟩
    refine ⟨before.zipIdx, (content, before.length), after.zipIdx (before.length + 1), ?_, ?_, ?_⟩
    · rw [List.zipIdx_append, List.zipIdx_cons, Nat.zero_add]
    · rintro ⟨earlier, row⟩ hmem
      exact h.reads_iff.2 (hfit earlier (List.fst_mem_of_mem_zipIdx hmem))
    · exact h.refuses_iff.2 hcontent

theorem Checks.ofRows_eq_error_iff (h : Checks read Fits RowDefect) :
    ofRows read names secondary rows = .error d ↔
      FirstDefect Fits RowDefect names secondary rows d := by
  have hrows : (rows.zipIdx.mapM fun content => read names.length content.2 content.1) =
      .error d ↔ _ := h.mapM_zipIdx
  have hparts : ofRows read names secondary rows = .error d ↔
      checkHeader names secondary = .error d ∨ checkHeader names secondary = .ok () ∧
        (rows.zipIdx.mapM fun content => read names.length content.2 content.1) = .error d := by
    rw [ofRows]
    cases checkHeader names secondary with
    | error e => simp [bind, Except.bind]
    | ok _ =>
      cases rows.zipIdx.mapM fun content => read names.length content.2 content.1 <;>
        simp [bind, Except.bind, pure, Except.pure]
  rw [hparts, checkHeader_eq_error_iff, checkHeader_eq_ok_iff, hrows]
  constructor
  · rintro ((⟨hmany, rfl⟩ | ⟨hroom, before, name, after, hsplit, hnodup, hmem, rfl⟩) |
      ⟨⟨hroom, hnodup⟩, before, content, after, hsplit, hfit, hcontent⟩)
    · exact .secondary hmany
    · exact .name hroom hsplit hnodup hmem
    · exact .row hroom hnodup hsplit hfit hcontent
  · intro hfirst
    cases hfirst with
    | secondary hmany => exact .inl (.inl ⟨hmany, rfl⟩)
    | name hroom hsplit hnodup hmem =>
      exact .inl (.inr ⟨hroom, _, _, _, hsplit, hnodup, hmem, rfl⟩)
    | row hroom hnodup hsplit hfit hcontent =>
      exact .inr ⟨⟨hroom, hnodup⟩, _, _, _, hsplit, hfit, hcontent⟩

/-- Rows that fit under a header that passes have no defect. -/
theorem Checks.exists_ofRows_iff (h : Checks read Fits RowDefect) :
    (∃ t, ofRows read names secondary rows = .ok t) ↔
      secondary ≤ names.length ∧ names.Nodup ∧ ∀ content ∈ rows, Fits names.length content := by
  constructor
  · rintro ⟨t, hread⟩
    obtain ⟨hroom, hnodup, -, -, -, hrows⟩ := ofRows_eq_ok_iff.1 hread
    refine ⟨hroom, hnodup, fun content hmem => ?_⟩
    obtain ⟨row, hrow⟩ := List.mem_iff_getElem?.1 hmem
    exact h.reads_iff.1 ⟨_, hrows row content hrow⟩
  · rintro ⟨hroom, hnodup, hrows⟩
    cases hread : ofRows read names secondary rows with
    | ok t => exact ⟨t, rfl⟩
    | error d =>
      exfalso
      cases h.ofRows_eq_error_iff.1 hread with
      | secondary hmany => omega
      | name _ hsplit _ hmem =>
        rw [hsplit] at hnodup
        exact List.disjoint_of_nodup_append hnodup hmem List.mem_cons_self
      | row _ _ hsplit _ hcontent =>
        have hmem : _ ∈ rows := hsplit ▸ List.mem_append_right _ List.mem_cons_self
        obtain ⟨ones, hones⟩ := h.reads_iff.2 (hrows _ hmem)
        cases hones.symm.trans (h.refuses_iff.2 hcontent)

end OfRows

/-- Cells and lists of columns are read as a table exactly if the header passes and every row fits,
and otherwise their first defect is named. -/
theorem read_or_first_defect (names : List String) (secondary : Nat) :
    (∀ rows : List (List Cell),
      ((∃ t, ofCells names secondary rows = .ok t) ↔
        secondary ≤ names.length ∧ names.Nodup ∧ ∀ cells ∈ rows, CellsFit names.length cells) ∧
      ∀ d, ofCells names secondary rows = .error d ↔
        FirstDefect CellsFit CellsDefect names secondary rows d) ∧
    ∀ rows : List (List Nat),
      ((∃ t, ofIndices names secondary rows = .ok t) ↔
        secondary ≤ names.length ∧ names.Nodup ∧ ∀ listed ∈ rows, IndicesFit names.length listed) ∧
      ∀ d, ofIndices names secondary rows = .error d ↔
        FirstDefect IndicesFit IndicesDefect names secondary rows d := by
  refine ⟨fun rows => ⟨?_, fun d => ?_⟩, fun rows => ⟨?_, fun d => ?_⟩⟩
  · exact checks_cells.exists_ofRows_iff
  · exact checks_cells.ofRows_eq_error_iff
  · exact checks_indices.exists_ofRows_iff
  · exact checks_indices.ofRows_eq_error_iff

/-- A column that does not exist is named before one that is listed twice. -/
example : ofIndices ["a", "b"] 0 [[0], [1, 0, 1, 5]] = .error (.missingColumn 1 5 2) := by decide

end Table

end Covering
