import Covering.Table.Defect

/-!
# Tables of ones

A table has columns with distinct names, the last few of them secondary, and rows, each with the
ascending list of columns in which it has a one. A covering uses every primary column exactly once
and every secondary column at most once.

`Table.ofCells` reads rows given cell by cell, `Table.ofIndices` rows given as lists of columns;
both refuse what is no table and name the first defect.
-/

namespace Covering
set_option autoImplicit false

/-- A row as solutions show it: the names of its columns, in order of code points. -/
abbrev Labels := List String

/-- The rows of a covering, in the order in which they were chosen. -/
abbrev Solution := List Labels

/-- A cell of a row. -/
inductive Cell where
  | flag (value : Bool)
  | number (value : Int)
  deriving DecidableEq

/-- A cell holds a one unless it is a false flag or the number zero. -/
def Cell.isOne : Cell → Bool
  | .flag value => value
  | .number value => value != 0

/-- `x` placed before the first member of `xs` that it does not exceed. -/
def insertSorted {α : Type} (le : α → α → Bool) (x : α) : List α → List α
  | [] => [x]
  | y :: ys => if le x y then x :: y :: ys else y :: insertSorted le x ys

/-- `xs` in ascending order; equal members keep their order. -/
def sorted {α : Type} (le : α → α → Bool) (xs : List α) : List α :=
  xs.foldr (insertSorted le) []

/-- The first member of `xs` that repeats an earlier one, or one of `seen`. -/
def firstRepeat {α : Type} [DecidableEq α] (seen : List α) : List α → Option α
  | [] => none
  | x :: xs => if x ∈ seen then some x else firstRepeat (x :: seen) xs

theorem perm_insertSorted {α : Type} (le : α → α → Bool) (x : α) (xs : List α) :
    (insertSorted le x xs).Perm (x :: xs) := by
  induction xs with
  | nil => exact .refl _
  | cons y ys ih =>
    simp only [insertSorted]
    split
    · exact .refl _
    · exact (ih.cons y).trans (.swap x y ys)

theorem perm_sorted {α : Type} (le : α → α → Bool) (xs : List α) : (sorted le xs).Perm xs := by
  induction xs with
  | nil => exact .refl _
  | cons x xs ih => exact (perm_insertSorted le x _).trans (ih.cons x)

theorem pairwise_insertSorted {α : Type} {le : α → α → Bool}
    (total : ∀ a b, le a b ∨ le b a) (trans : ∀ a b c, le a b → le b c → le a c)
    (x : α) {xs : List α} (h : xs.Pairwise (le · ·)) :
    (insertSorted le x xs).Pairwise (le · ·) := by
  induction xs with
  | nil => simp [insertSorted]
  | cons y ys ih =>
    obtain ⟨hy, hys⟩ := List.pairwise_cons.1 h
    simp only [insertSorted]
    split
    · next hxy =>
      refine List.pairwise_cons.2 ⟨fun z hz => ?_, h⟩
      rcases List.mem_cons.1 hz with rfl | hz
      · exact hxy
      · exact trans x y z hxy (hy z hz)
    · next hxy =>
      refine List.pairwise_cons.2 ⟨fun z hz => ?_, ih hys⟩
      rcases List.mem_cons.1 ((perm_insertSorted le x ys).mem_iff.1 hz) with rfl | hz
      · exact (total y z).resolve_right hxy
      · exact hy z hz

theorem pairwise_sorted {α : Type} {le : α → α → Bool}
    (total : ∀ a b, le a b ∨ le b a) (trans : ∀ a b c, le a b → le b c → le a c)
    (xs : List α) : (sorted le xs).Pairwise (le · ·) := by
  induction xs with
  | nil => exact .nil
  | cons x xs ih => exact pairwise_insertSorted total trans x ih

/-- Nothing repeats exactly if the members differ from each other and from those seen before. -/
theorem firstRepeat_eq_none_iff {α : Type} [DecidableEq α] {seen xs : List α} :
    firstRepeat seen xs = none ↔ xs.Nodup ∧ ∀ x ∈ xs, x ∉ seen := by
  induction xs generalizing seen with
  | nil => simp [firstRepeat]
  | cons x xs ih =>
    simp only [firstRepeat]
    split
    · simp_all
    · next hx =>
      rw [ih, List.nodup_cons]
      constructor
      · rintro ⟨hn, hs⟩
        refine ⟨⟨fun h => hs x h (List.mem_cons_self ..), hn⟩, fun y hy => ?_⟩
        rcases List.mem_cons.1 hy with rfl | hy
        · exact hx
        · exact fun h => hs y hy (List.mem_cons_of_mem _ h)
      · rintro ⟨⟨hxs, hn⟩, hs⟩
        refine ⟨hn, fun y hy h => ?_⟩
        rcases List.mem_cons.1 h with rfl | h
        · exact hxs hy
        · exact hs y (List.mem_cons_of_mem _ hy) h

/-- The first of two equal neighbours. -/
def firstTwin {α : Type} [DecidableEq α] : List α → Option α
  | x :: y :: rest => if x = y then some x else firstTwin (y :: rest)
  | _ => none

/-- Named columns, the last `secondary` of them secondary, and for each row the ascending columns
of its ones. -/
structure Table where
  names : List String
  secondary : Nat
  rows : List (List Nat)
  deriving DecidableEq

namespace Table

/-- Number of columns, primary and secondary. -/
def columnCount (t : Table) : Nat := t.names.length

/-- Number of columns that every covering uses exactly once. -/
def primaryCount (t : Table) : Nat := t.columnCount - t.secondary

/-- Number of rows, empty ones included. -/
def rowCount (t : Table) : Nat := t.rows.length

/-- Whether `column` is one of the secondary columns. -/
def isSecondary (t : Table) (column : Nat) : Bool :=
  t.primaryCount ≤ column && column < t.columnCount

/-- The names of `columns`, in order of code points. -/
def labelsOf (t : Table) (columns : List Nat) : Labels :=
  sorted (fun a b => a ≤ b) (columns.map fun c => t.names.getD c "")

/-- The header must have room for the secondary columns, and its names must differ. -/
def checkHeader (names : List String) (secondary : Nat) : Except Defect Unit :=
  if names.length < secondary then .error (.tooManySecondary secondary names.length)
  else match firstRepeat [] names with
    | some name => .error (.repeatedName name)
    | none => .ok ()

/-- The columns of the ones among `cells`, which must be as many as there are columns. -/
def onesOfCells (columns row : Nat) (cells : List Cell) : Except Defect (List Nat) :=
  if cells.length = columns then
    .ok ((cells.zipIdx.filter fun (cell, _) => cell.isOne).map fun (_, column) => column)
  else .error (.raggedRow row cells.length columns)

/-- `listed` in ascending order; its members must exist and differ. -/
def onesOfIndices (columns row : Nat) (listed : List Nat) : Except Defect (List Nat) :=
  match listed.find? (columns ≤ ·) with
  | some column => .error (.missingColumn row column columns)
  | none =>
    let ones := sorted (fun a b => a ≤ b) listed
    match firstTwin ones with
    | some column => .error (.repeatedColumn row column)
    | none => .ok ones

/-- A header with the rows that `ones` reads from `rows`, given the number of columns and the
position of the row. -/
def ofRows {α : Type} (ones : Nat → Nat → α → Except Defect (List Nat)) (names : List String)
    (secondary : Nat) (rows : List α) : Except Defect Table := do
  checkHeader names secondary
  let rows ← rows.zipIdx.mapM fun (content, row) => ones names.length row content
  return { names, secondary, rows }

/-- The table whose rows are given cell by cell. -/
def ofCells (names : List String) (secondary : Nat) (rows : List (List Cell)) :
    Except Defect Table :=
  ofRows onesOfCells names secondary rows

/-- The table whose rows are given as lists of columns, in any order. -/
def ofIndices (names : List String) (secondary : Nat) (rows : List (List Nat)) :
    Except Defect Table :=
  ofRows onesOfIndices names secondary rows

end Table

end Covering
