import Covering.Run
import Covering.Proofs.SearchTree

/-!
# The moves of a search

What a search does at the nodes of its tree, without the mesh: it tells something, counts a search,
reports a row chosen, or finds a solution. `Table.moves` lists what a search resumed with a path
does from its first node on, `Moves.told` what is left of this if there is nobody to report to, and
`Moves.next` plays such a list up to the next solution, with the tally as the only state.
-/

namespace Covering
set_option autoImplicit false

/-- Something a search does. -/
inductive Move where
  | notice (notice : Run.Notice)
  /-- A search is counted. -/
  | search
  /-- The rows chosen are reported, in the order in which they were chosen. -/
  | report (path : List Labels)
  | found (solution : Solution)
  deriving DecidableEq

namespace Table

variable {t : Table} {base path : List Nat} {depth row : Nat} {reported : Bool}

/-- What is done on arrival at a node when `pending` is left of the saved path. `skip` says that a
solution at its very end is not wanted. -/
def arrival (t : Table) (base : List Nat) (skip : Bool) : List Labels → List Nat → List Move
  | wanted :: later, path =>
    if t.isSolution base path then
      [.notice (.pathTooLong (path.length + (wanted :: later).length) path.length),
        .notice (.solutionFound path.length), .found (t.labelsOfPath path)]
    else []
  | [], path =>
    if t.isSolution base path then
      if skip then [.notice .pathReplayed]
      else [.notice (.solutionFound path.length), .found (t.labelsOfPath path)]
    else [.search]

/-- What is done to choose the last row of a node and to arrive there, `depth` being the length of
the saved path. -/
def visit (t : Table) (base : List Nat) (depth : Nat) (path : List Nat) : List Move :=
  (if path.length - 1 < depth then [.notice (.pathLeft (path.length - 1))] else []) ++
    .report (t.labelsOfPath path) :: t.arrival base false [] path

/-- What is done below a node from which `pending` is to be followed. -/
def follows (t : Table) (base : List Nat) (depth : Nat) (reported : Bool) :
    List Labels → List Nat → List Move
  | [], path => (t.descendants base path).flatMap (t.visit base depth)
  | wanted :: later, path =>
    match (t.children base path).dropWhile fun row => !(t.labels row == wanted) with
    | [] => if t.isSolution base path then [] else [.notice (.pathUnmatched path.length)]
    | row :: after =>
      t.arrival base reported later (path ++ [row]) ++
        follows t base depth reported later (path ++ [row]) ++
        (t.subtrees base path after).flatMap (t.visit base depth)

/-- What a search resumed with `saved` does after its first notice. -/
def moves (t : Table) (base : List Nat) (reported : Bool) (saved : List Labels) : List Move :=
  t.arrival base reported saved [] ++ t.follows base saved.length reported saved []

theorem follows_of_isSolution {pending : List Labels} (h : t.isSolution base path) :
    t.follows base depth reported pending path = [] := by
  cases pending with
  | nil => simp [follows, descendants, children_of_isSolution h]
  | cons wanted later => simp [follows, children_of_isSolution h, h]

end Table

namespace Tally

variable {tally tally' : Tally} {fault : Fault}

/-- When a search can be counted, and what it leaves. -/
theorem countSearch_eq_ok (h : tally.searches.toNat + 1 < UInt64.size) :
    ∃ tally', tally.countSearch = .ok tally' ∧ tally'.solutions = tally.solutions ∧
      tally'.searches.toNat = tally.searches.toNat + 1 := by
  refine ⟨{ tally with searches := tally.searches + 1 }, ?_, rfl, ?_⟩
  · simp [countSearch, bump, if_pos h, bind, Except.bind, pure, Except.pure]
  · rw [UInt64.toNat_add]
    exact Nat.mod_eq_of_lt h

theorem countSearch_eq_error (h : UInt64.size ≤ tally.searches.toNat + 1) :
    tally.countSearch = .error .tallyOverflow := by
  simp [countSearch, bump, Nat.not_lt.2 h, bind, Except.bind]

/-- When a solution can be counted, and what it leaves. -/
theorem countSolution_eq_ok (h : tally.solutions.toNat + 1 < UInt64.size) :
    ∃ tally', tally.countSolution = .ok tally' ∧
      tally'.solutions.toNat = tally.solutions.toNat + 1 ∧ tally'.searches = tally.searches := by
  refine ⟨{ tally with solutions := tally.solutions + 1 }, ?_, ?_, rfl⟩
  · simp [countSolution, bump, if_pos h, bind, Except.bind, pure, Except.pure]
  · rw [UInt64.toNat_add]
    exact Nat.mod_eq_of_lt h

theorem countSolution_eq_error (h : UInt64.size ≤ tally.solutions.toNat + 1) :
    tally.countSolution = .error .tallyOverflow := by
  simp [countSolution, bump, Nat.not_lt.2 h, bind, Except.bind]

theorem fault_countSearch (h : tally.countSearch = .error fault) : fault = .tallyOverflow := by
  by_cases hlt : tally.searches.toNat + 1 < UInt64.size
  · obtain ⟨_, hok, -⟩ := countSearch_eq_ok hlt
    cases hok.symm.trans h
  · exact Except.error.inj (h.symm.trans (countSearch_eq_error (Nat.le_of_not_lt hlt)))

theorem fault_countSolution (h : tally.countSolution = .error fault) : fault = .tallyOverflow := by
  by_cases hlt : tally.solutions.toNat + 1 < UInt64.size
  · obtain ⟨_, hok, -⟩ := countSolution_eq_ok hlt
    cases hok.symm.trans h
  · exact Except.error.inj (h.symm.trans (countSolution_eq_error (Nat.le_of_not_lt hlt)))

/-- What counting a solution that can be counted leaves. -/
theorem of_countSolution {counted : Tally} (h : tally.countSolution = .ok counted) :
    counted.solutions.toNat = tally.solutions.toNat + 1 ∧ counted.searches = tally.searches := by
  by_cases hlt : tally.solutions.toNat + 1 < UInt64.size
  · obtain ⟨_, hok, hleft⟩ := countSolution_eq_ok hlt
    obtain rfl := Except.ok.inj (hok.symm.trans h)
    exact hleft
  · cases (countSolution_eq_error (Nat.le_of_not_lt hlt)).symm.trans h

theorem searches_countSolution {counted : Tally} (h : tally.countSolution = .ok counted) :
    counted.searches = tally.searches := (of_countSolution h).2

/-- Nothing counted, raised to a tally, is that tally. -/
theorem raiseTo_zero : zero.raiseTo tally = tally := by
  have hmax : ∀ n : UInt64, max 0 n = n := by
    intro n
    exact if_pos (UInt64.zero_le)
  rw [raiseTo, zero, hmax, hmax]

end Tally

namespace Moves

variable {tally tally' : Tally} {ms ms' : List Move}

/-- `emitted` before what is emitted next. -/
def emit {ε α : Type} (emitted : List ε) (rest : List ε × α) : List ε × α :=
  (emitted ++ rest.1, rest.2)

/-- Goes on to the next solution: what is emitted on the way, and the solution with the tally and
the moves after it, or none at the end. -/
def next : Tally → List Move → List Event × Except Fault (Option Solution × Tally × List Move)
  | tally, [] => ([], .ok (none, tally, []))
  | tally, .notice notice :: ms => emit [.notice notice] (next tally ms)
  | tally, .search :: ms =>
    match tally.countSearch with
    | .error fault => ([], .error fault)
    | .ok tally => next tally ms
  | tally, .report path :: ms => emit [.report ⟨path.reverse, tally⟩] (next tally ms)
  | tally, .found solution :: ms => ([], .ok (some solution, tally, ms))

/-- The solutions found. -/
def solutions (ms : List Move) : List Solution :=
  ms.filterMap fun
    | .found solution => some solution
    | _ => none

/-- The number of searches counted. -/
def searches (ms : List Move) : Nat := ms.countP (· matches .search)

/-- The moves of a search: without the reports, unless it is watched. -/
def told (watched : Bool) (ms : List Move) : List Move :=
  if watched then ms else ms.filter (!· matches .report _)

theorem emit_emit {ε α : Type} {emitted emitted' : List ε} {rest : List ε × α} :
    emit emitted (emit emitted' rest) = emit (emitted ++ emitted') rest := by
  simp [emit, List.append_assoc]

@[simp] theorem emit_nil {ε α : Type} {rest : List ε × α} : emit [] rest = rest := rfl

@[simp] theorem solutions_notice {notice : Run.Notice} :
    solutions (.notice notice :: ms) = solutions ms := rfl

@[simp] theorem searches_notice {notice : Run.Notice} :
    searches (.notice notice :: ms) = searches ms := by simp [searches]

@[simp] theorem solutions_append : solutions (ms ++ ms') = solutions ms ++ solutions ms' :=
  List.filterMap_append

@[simp] theorem searches_append : searches (ms ++ ms') = searches ms + searches ms' :=
  List.countP_append

section Told

variable {watched : Bool}

@[simp] theorem told_true : told true ms = ms := rfl

@[simp] theorem told_nil : told watched [] = [] := by cases watched <;> rfl

@[simp] theorem told_append : told watched (ms ++ ms') = told watched ms ++ told watched ms' := by
  cases watched with
  | true => rfl
  | false => exact List.filter_append ..

@[simp] theorem told_notice {notice : Run.Notice} :
    told watched (.notice notice :: ms) = .notice notice :: told watched ms := by
  cases watched <;> rfl

@[simp] theorem told_search : told watched (.search :: ms) = .search :: told watched ms := by
  cases watched <;> rfl

@[simp] theorem told_found {solution : Solution} :
    told watched (.found solution :: ms) = .found solution :: told watched ms := by
  cases watched <;> rfl

theorem told_report {path : List Labels} : told watched (.report path :: ms) =
    (if watched then [.report path] else []) ++ told watched ms := by
  cases watched <;> rfl

/-- Whether it is watched or not, a search finds and counts the same. -/
@[simp] theorem solutions_told : solutions (told watched ms) = solutions ms := by
  cases watched with
  | true => rfl
  | false =>
    induction ms with
    | nil => rfl
    | cons m ms ih =>
      cases m with
      | found solution => exact congrArg (solution :: ·) ih
      | notice | search | report => exact ih

@[simp] theorem searches_told : searches (told watched ms) = searches ms := by
  cases watched with
  | true => rfl
  | false =>
    rw [searches, searches, told, if_neg Bool.false_ne_true, List.countP_filter]
    apply List.countP_congr
    intro m _
    cases m <;> simp

end Told

section Visits

variable {t : Table} {base path : List Nat} {depth : Nat}

/-- Nothing is reported on arrival at a node. -/
@[simp] theorem told_arrival {watched skip : Bool} {pending : List Labels} :
    told watched (t.arrival base skip pending path) = t.arrival base skip pending path := by
  cases pending with
  | nil =>
    rw [Table.arrival]
    split
    · split <;> simp
    · simp
  | cons wanted later =>
    rw [Table.arrival]
    split <;> simp

theorem solutions_arrival : solutions (t.arrival base false [] path) =
    ([path].filter (t.isSolution base)).map t.labelsOfPath := by
  rw [Table.arrival, List.filter_singleton]
  cases t.isSolution base path <;> rfl

theorem searches_arrival (skip : Bool) : searches (t.arrival base skip [] path) =
    [path].countP (!t.isSolution base ·) := by
  rw [Table.arrival, List.countP_singleton]
  cases t.isSolution base path <;> cases skip <;> rfl

theorem solutions_visit : solutions (t.visit base depth path) =
    ([path].filter (t.isSolution base)).map t.labelsOfPath := by
  rw [← solutions_arrival, Table.visit]
  split <;> rfl

theorem searches_visit : searches (t.visit base depth path) =
    [path].countP (!t.isSolution base ·) := by
  rw [← searches_arrival false, Table.visit]
  split <;> simp [searches]

theorem solutions_visits (nodes : List (List Nat)) :
    solutions (nodes.flatMap (t.visit base depth)) =
      (nodes.filter (t.isSolution base)).map t.labelsOfPath := by
  induction nodes with
  | nil => rfl
  | cons node nodes ih =>
    rw [List.flatMap_cons, solutions_append, ih, solutions_visit, ← List.map_append,
      ← List.filter_append, List.singleton_append]

theorem searches_visits (nodes : List (List Nat)) :
    searches (nodes.flatMap (t.visit base depth)) = nodes.countP (!t.isSolution base ·) := by
  induction nodes with
  | nil => rfl
  | cons node nodes ih =>
    rw [List.flatMap_cons, searches_append, ih, searches_visit, ← List.countP_append,
      List.singleton_append]

theorem solutions_moves_nil : solutions (t.moves base false []) =
    ((t.preorder base []).filter (t.isSolution base)).map t.labelsOfPath := by
  rw [Table.moves, Table.follows, solutions_append, solutions_arrival, solutions_visits,
    ← List.map_append, ← List.filter_append, List.singleton_append, ← Table.preorder_eq]

theorem searches_moves_nil : searches (t.moves base false []) =
    (t.preorder base []).countP (!t.isSolution base ·) := by
  rw [Table.moves, Table.follows, searches_append, searches_arrival, searches_visits,
    ← List.countP_append, List.singleton_append, ← Table.preorder_eq]

end Visits

/-- What becomes of the solutions and of the count until the next solution. -/
theorem next_cases (tally : Tally) (ms : List Move) :
    (∃ solution tally' ms', (next tally ms).2 = .ok (some solution, tally', ms') ∧
      solutions ms = solution :: solutions ms' ∧ tally'.solutions = tally.solutions ∧
      tally'.searches.toNat + searches ms' = tally.searches.toNat + searches ms) ∨
    (∃ tally', (next tally ms).2 = .ok (none, tally', []) ∧
      solutions ms = [] ∧ tally'.solutions = tally.solutions ∧
      tally'.searches.toNat = tally.searches.toNat + searches ms) ∨
    ((next tally ms).2 = .error .tallyOverflow ∧
      UInt64.size ≤ tally.searches.toNat + searches ms) := by
  induction ms generalizing tally with
  | nil => exact .inr (.inl ⟨tally, rfl, rfl, rfl, rfl⟩)
  | cons m ms ih =>
    cases m with
    | notice notice => exact ih tally
    | report path => exact ih tally
    | found solution => exact .inl ⟨solution, tally, ms, rfl, rfl, rfl, rfl⟩
    | search =>
      have hcount : searches (.search :: ms) = searches ms + 1 := by simp [searches]
      have hsol : solutions (.search :: ms) = solutions ms := rfl
      rw [hcount, hsol, next]
      by_cases h : tally.searches.toNat + 1 < UInt64.size
      · obtain ⟨counted, hok, hs, hn⟩ := Tally.countSearch_eq_ok h
        rw [hok]
        have hsum : tally.searches.toNat + (searches ms + 1) =
            counted.searches.toNat + searches ms := by omega
        rw [← hs, hsum]
        exact ih counted
      · have hle := Nat.le_of_not_lt h
        rw [Tally.countSearch_eq_error hle]
        exact .inr (.inr ⟨rfl, by omega⟩)

end Moves

end Covering
