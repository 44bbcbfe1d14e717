import Covering.Proofs.Run.Calls

/-!
# A run is the recursion taken apart

`Table.algorithmX` is the search as a recursion over the table. It shows marks: the rows reported
and the solutions, each with the searches counted by then. These are the marks among the moves of
the search (`Table.algorithmX_eq_shown`), so a run that reports to somebody shows them in the same
order, and each call of `next` only those up to the next solution (`Run.shows_of_at`).
-/

namespace Covering
set_option autoImplicit false

/-- Something that a search shows, with the searches counted by then. -/
inductive Mark where
  | report (path : List Labels) (searches : Nat)
  | solution (rows : Solution) (searches : Nat)
  deriving DecidableEq

namespace Mark

/-- The searches counted by then. -/
def searches : Mark → Nat
  | .report _ searches => searches
  | .solution _ searches => searches

/-- Whether a solution is shown. -/
def isSolution : Mark → Bool
  | .report _ _ => false
  | .solution _ _ => true

/-- The marks up to and including the solution with number `k`, counted from 1; all of them if there
are fewer solutions. -/
def upTo : Nat → List Mark → List Mark
  | 0, _ => []
  | _ + 1, [] => []
  | k + 1, .report path searches :: marks => .report path searches :: upTo (k + 1) marks
  | k + 1, .solution rows searches :: marks => .solution rows searches :: upTo k marks

/-- Whether a word can count the searches up to the `k`-th solution shown, or all of them if there
are fewer solutions. -/
def Fits (k : Nat) (shown : List Mark × Nat) : Prop :=
  if k ≤ shown.1.countP isSolution then ∀ mark ∈ upTo k shown.1, mark.searches < UInt64.size
  else shown.2 < UInt64.size

instance (k : Nat) (shown : List Mark × Nat) : Decidable (Fits k shown) :=
  inferInstanceAs (Decidable (if k ≤ shown.1.countP isSolution then
    ∀ mark ∈ upTo k shown.1, mark.searches < UInt64.size else shown.2 < UInt64.size))

section UpTo

variable {k : Nat} {marks reports : List Mark}

@[simp] theorem upTo_nil : upTo k [] = [] := by cases k <;> rfl

theorem upTo_append (h : ∀ mark ∈ reports, mark.isSolution = false) :
    upTo (k + 1) (reports ++ marks) = reports ++ upTo (k + 1) marks := by
  induction reports with
  | nil => rfl
  | cons mark reports ih =>
    obtain ⟨hmark, hreports⟩ := List.forall_mem_cons.1 h
    cases mark with
    | report => simp [upTo, ih hreports]
    | solution => simp [isSolution] at hmark

theorem upTo_subset : upTo k marks ⊆ marks := by
  induction marks generalizing k with
  | nil => cases k <;> exact List.Subset.refl _
  | cons mark marks ih =>
    cases k with
    | zero => exact List.nil_subset _
    | succ k => cases mark <;> exact List.cons_subset_cons _ ih

theorem upTo_ne_nil (h : marks ≠ []) : upTo (k + 1) marks ≠ [] := by
  cases marks with
  | nil => contradiction
  | cons mark marks => cases mark <;> simp [upTo]

theorem countP_append_reports (h : ∀ mark ∈ reports, mark.isSolution = false) :
    (reports ++ marks).countP isSolution = marks.countP isSolution := by
  rw [List.countP_append, List.countP_eq_zero.2 (by simpa using h), Nat.zero_add]

section Reports

variable {total n : Nat} {rows : Solution}
  (h : ∀ mark ∈ reports, mark.isSolution = false ∧ mark.searches < UInt64.size)
include h

/-- Reports and a solution that have been counted leave the rest to be counted. -/
theorem fits_append_solution (hn : n < UInt64.size) :
    Fits (k + 1) (reports ++ .solution rows n :: marks, total) ↔ Fits k (marks, total) := by
  have hcount : (reports ++ .solution rows n :: marks).countP isSolution =
      marks.countP isSolution + 1 := by
    rw [countP_append_reports fun mark hmark => (h mark hmark).1]
    exact List.countP_cons_of_pos rfl
  simp only [Fits, hcount, Nat.add_le_add_iff_right]
  split
  · rw [upTo_append fun mark hmark => (h mark hmark).1, upTo, List.forall_mem_append,
      List.forall_mem_cons]
    exact ⟨fun hall => hall.2.2, fun hall => ⟨fun mark hmark => (h mark hmark).2, hn, hall⟩⟩
  · rfl

theorem fits_reports : Fits (k + 1) (reports ++ [], total) ↔ total < UInt64.size := by
  rw [Fits, countP_append_reports fun mark hmark => (h mark hmark).1]
  simp

/-- Marks that cannot be counted do not fit, and none of them is shown. -/
theorem not_fits_append (hmarks : ∀ mark ∈ marks, UInt64.size ≤ mark.searches)
    (htotal : UInt64.size ≤ total) : ¬Fits (k + 1) (reports ++ marks, total) := by
  rw [Fits, countP_append_reports fun mark hmark => (h mark hmark).1]
  split
  · next hle =>
    rw [upTo_append fun mark hmark => (h mark hmark).1]
    intro hall
    have hne : marks ≠ [] := by
      rintro rfl
      simp at hle
    obtain ⟨mark, hmark⟩ := List.exists_mem_of_ne_nil _ (upTo_ne_nil (k := k) hne)
    exact Nat.not_lt.2 (hmarks mark (upTo_subset hmark))
      (hall mark (List.mem_append_right _ hmark))
  · exact Nat.not_lt.2 htotal

theorem takeWhile_append_solution (hn : n < UInt64.size) :
    (upTo (k + 1) (reports ++ .solution rows n :: marks)).takeWhile (·.searches < UInt64.size) =
      reports ++ .solution rows n :: (upTo k marks).takeWhile (·.searches < UInt64.size) := by
  have hcounted : decide ((Mark.solution rows n).searches < UInt64.size) = true := decide_eq_true hn
  rw [upTo_append fun mark hmark => (h mark hmark).1, upTo,
    List.takeWhile_append_of_pos fun mark hmark => by simpa using (h mark hmark).2,
    List.takeWhile_cons, hcounted, if_pos rfl]

theorem takeWhile_append (hmarks : ∀ mark ∈ marks, UInt64.size ≤ mark.searches) :
    (upTo (k + 1) (reports ++ marks)).takeWhile (·.searches < UInt64.size) = reports := by
  rw [upTo_append fun mark hmark => (h mark hmark).1,
    List.takeWhile_append_of_pos fun mark hmark => by simpa using (h mark hmark).2]
  have hnil : (upTo (k + 1) marks).takeWhile (·.searches < UInt64.size) = [] := by
    apply List.takeWhile_eq_nil_iff.2
    intro hpos
    rw [decide_eq_true_eq]
    exact Nat.not_lt.2 (hmarks _ (upTo_subset (List.getElem_mem hpos)))
  rw [hnil, List.append_nil]

end Reports

end UpTo

/-- What an event shows. -/
def ofEvent : Event → Option Mark
  | .report shown => some (.report shown.path shown.tally.searches.toNat)
  | .notice _ => none

end Mark

namespace Run

/-- What `k` calls of `next` show, and the run after them. -/
def calls : Nat → Run → List Mark × Except Fault Run
  | 0, r => ([], .ok r)
  | k + 1, r =>
    match r.next with
    | (events, .error fault) => (events.toList.filterMap Mark.ofEvent, .error fault)
    | (events, .ok (solution, r)) =>
      let given := solution.toList.map (Mark.solution · r.tally.searches.toNat)
      let later := calls k r
      (events.toList.filterMap Mark.ofEvent ++ given ++ later.1, later.2)

/-- The calls of `r` show the marks `shown.1` in turn, where `shown.2` searches are counted in the end.
After `k` calls these are all up to the `k`-th solution; if the searches until then cannot be
counted, they are the marks that can be, and the run has failed. -/
def Shows (r : Run) (shown : List Mark × Nat) : Prop :=
  ∀ k, (Mark.Fits k shown → ∃ r', r.calls k = (Mark.upTo k shown.1, .ok r')) ∧
    (¬Mark.Fits k shown → r.calls k =
      ((Mark.upTo k shown.1).takeWhile (·.searches < UInt64.size), .error .tallyOverflow))

end Run

namespace Table

variable {t : Table} {base path : List Nat} {depth n : Nat}

/-- Algorithm X on the table from a node on, with `searches` counted before: what it shows, and the
count in the end. -/
def algorithmX (t : Table) (base path : List Nat) (searches : Nat) : List Mark × Nat :=
  match hc : t.branchColumn (t.coveredBy base path) with
  | none => ([.solution (t.labelsOfPath path) searches], searches)
  | some c =>
    (t.compatible (t.coveredBy base path) c).attach.foldl
      (fun shown row =>
        let below := t.algorithmX base (path ++ [row.1]) shown.2
        (shown.1 ++ .report (t.labelsOfPath (path ++ [row.1])) shown.2 :: below.1, below.2))
      ([], searches + 1)
termination_by (t.openColumns (t.coveredBy base path)).length
decreasing_by exact length_openColumns_lt (by rw [children_eq hc]; exact row.2)

end Table

namespace Moves

variable {ms ms' : List Move} {n : Nat}

/-- The marks among the moves, with `n` searches counted before. -/
def marks : Nat → List Move → List Mark
  | _, [] => []
  | n, .notice _ :: ms => marks n ms
  | n, .search :: ms => marks (n + 1) ms
  | n, .report path :: ms => .report path n :: marks n ms
  | n, .found solution :: ms => .solution solution n :: marks n ms

theorem marks_append : marks n (ms ++ ms') = marks n ms ++ marks (n + searches ms) ms' := by
  induction ms generalizing n with
  | nil => rfl
  | cons m ms ih =>
    cases m with
    | search => simp [marks, ih, searches, Nat.add_assoc, Nat.add_comm 1]
    | notice => simp [marks, ih, searches]
    | report => simp [marks, ih, searches]
    | found => simp [marks, ih, searches]

theorem marks_told : marks n (told false ms) = (marks n ms).filter (·.isSolution) := by
  induction ms generalizing n with
  | nil => rfl
  | cons m ms ih =>
    cases m with
    | notice => exact (congrArg (marks n) told_notice).trans ih
    | search => exact (congrArg (marks n) told_search).trans ih
    | report => exact ih
    | found solution => exact (congrArg (marks n) told_found).trans (congrArg (_ :: ·) ih)

theorem le_searches_of_mem_marks {mark : Mark} (h : mark ∈ marks n ms) : n ≤ mark.searches := by
  induction ms generalizing n with
  | nil => exact absurd h List.not_mem_nil
  | cons m ms ih =>
    cases m with
    | notice => exact ih h
    | search => exact (Nat.le_succ n).trans (ih h)
    | report =>
      rcases List.mem_cons.1 h with rfl | h
      · exact Nat.le_refl _
      · exact ih h
    | found =>
      rcases List.mem_cons.1 h with rfl | h
      · exact Nat.le_refl _
      · exact ih h

theorem filterMap_ofEvent_report {tally : Tally} {path : List Labels} :
    (next tally (.report path :: ms)).1.filterMap Mark.ofEvent =
      .report path tally.searches.toNat :: (next tally ms).1.filterMap Mark.ofEvent := by
  simp [next, emit, Mark.ofEvent, Report.path]

/-- What is emitted until the next solution are reports that could be counted. -/
theorem reports_next (tally : Tally) (ms : List Move) :
    ∀ mark ∈ (next tally ms).1.filterMap Mark.ofEvent,
      mark.isSolution = false ∧ mark.searches < UInt64.size := by
  induction ms generalizing tally with
  | nil => simp [next]
  | cons m ms ih =>
    cases m with
    | notice => exact ih tally
    | found => simp [next]
    | search =>
      rw [next]
      split
      · simp
      · exact ih _
    | report =>
      rw [filterMap_ofEvent_report]
      exact List.forall_mem_cons.2 ⟨⟨rfl, tally.searches.toNat_lt_size⟩, ih tally⟩

/-- What the marks among the moves have beyond those emitted until the next solution. -/
theorem marks_next (tally : Tally) (ms : List Move) :
    ∃ beyond, marks tally.searches.toNat ms =
        (next tally ms).1.filterMap Mark.ofEvent ++ beyond ∧
      match (next tally ms).2 with
      | .error _ => ∀ mark ∈ beyond, UInt64.size ≤ mark.searches
      | .ok (none, _, _) => beyond = []
      | .ok (some solution, tally', ms') =>
        beyond = .solution solution tally'.searches.toNat :: marks tally'.searches.toNat ms' := by
  induction ms generalizing tally with
  | nil => exact ⟨[], rfl, rfl⟩
  | cons m ms ih =>
    cases m with
    | notice => exact ih tally
    | found solution => exact ⟨_, rfl, rfl⟩
    | report path =>
      obtain ⟨beyond, hmarks, h⟩ := ih tally
      rw [marks, hmarks, filterMap_ofEvent_report]
      exact ⟨beyond, rfl, h⟩
    | search =>
      rw [next, marks]
      by_cases h : tally.searches.toNat + 1 < UInt64.size
      · obtain ⟨counted, hok, -, hn⟩ := Tally.countSearch_eq_ok h
        rw [hok, ← hn]
        exact ih counted
      · rw [Tally.countSearch_eq_error (Nat.le_of_not_lt h)]
        refine ⟨_, rfl, fun mark hmark => ?_⟩
        exact (Nat.le_of_not_lt h).trans (le_searches_of_mem_marks hmark)

end Moves

namespace Table

variable {t : Table} {base path : List Nat} {depth n : Nat}

theorem marks_visit : Moves.marks n (t.visit base depth path) =
    .report (t.labelsOfPath path) n :: Moves.marks n (t.arrival base false [] path) := by
  unfold visit
  split <;> rfl

/-- What a visit of the subtree of a child adds to what was shown before. -/
def showChild (t : Table) (base path : List Nat) (shown : List Mark × Nat) (row : Nat) :
    List Mark × Nat :=
  let below := t.algorithmX base (path ++ [row]) shown.2
  (shown.1 ++ .report (t.labelsOfPath (path ++ [row])) shown.2 :: below.1, below.2)

theorem algorithmX_of_isSolution (h : t.isSolution base path) :
    t.algorithmX base path n = ([.solution (t.labelsOfPath path) n], n) := by
  unfold algorithmX
  split
  · rfl
  · next hc =>
    rw [isSolution_iff.1 h] at hc
    contradiction

theorem algorithmX_of_not_isSolution (h : ¬t.isSolution base path) :
    t.algorithmX base path n = (t.children base path).foldl (t.showChild base path) ([], n + 1) := by
  unfold algorithmX
  split
  · next hc => exact absurd (isSolution_iff.2 hc) h
  · next hc =>
    rw [children_eq hc]
    exact List.foldl_attach (f := t.showChild base path)

/-- The marks and the searches of a node's subtree. -/
def shown (t : Table) (base : List Nat) (depth n : Nat) (path : List Nat) : List Mark × Nat :=
  let ms := t.arrival base false [] path ++ (t.descendants base path).flatMap (t.visit base depth)
  (Moves.marks n ms, n + Moves.searches ms)

theorem foldl_showChild (depth : Nat) {rows : List Nat} {marks : List Mark}
    (h : ∀ row ∈ rows, ∀ n, t.algorithmX base (path ++ [row]) n =
      t.shown base depth n (path ++ [row])) :
    rows.foldl (t.showChild base path) (marks, n) =
      (marks ++ Moves.marks n ((t.subtrees base path rows).flatMap (t.visit base depth)),
        n + Moves.searches ((t.subtrees base path rows).flatMap (t.visit base depth))) := by
  induction rows generalizing marks n with
  | nil => simp [Moves.marks, Moves.searches]
  | cons row rows ih =>
    obtain ⟨hrow, hrows⟩ := List.forall_mem_cons.1 h
    rw [List.foldl_cons, showChild, hrow n, ih hrows]
    simp only [shown, subtrees_cons, preorder_eq, List.cons_append, List.flatMap_append,
      List.flatMap_cons, Moves.marks_append, Moves.searches_append, marks_visit,
      Moves.searches_visit, Moves.searches_arrival, List.append_assoc, Nat.add_assoc]

/-- The recursion shows the moves of the search. -/
theorem algorithmX_eq_shown (depth : Nat) (path : List Nat) (n : Nat) :
    t.algorithmX base path n = t.shown base depth n path := by
  induction path using node_induction (t := t) base generalizing n with
  | h path ih =>
    by_cases hsol : t.isSolution base path
    · rw [algorithmX_of_isSolution hsol]
      simp [shown, descendants, children_of_isSolution hsol, arrival, hsol, Moves.marks,
        Moves.searches]
    · rw [algorithmX_of_not_isSolution hsol, foldl_showChild depth ih]
      simp [shown, descendants, arrival, hsol, Moves.marks, Moves.searches, Nat.add_assoc,
        Nat.add_comm 1]

end Table

namespace Run

variable {t : Table} {base : List Nat} {r : Run} {ms : List Move}

/-- The calls show the marks among the moves. -/
theorem shows_of_at (wf : t.WellFormed) (hb : t.Coverable base) (h : At t base r ms) :
    r.Shows (Moves.marks r.tally.searches.toNat ms,
      r.tally.searches.toNat + Moves.searches ms) := by
  intro k
  induction k generalizing r ms with
  | zero => simp [Mark.Fits, Mark.upTo, calls]
  | succ k ih =>
    -- Each outcome of the next call says how the marks before it begin and what is counted there.
    have hans := next_answers wf hb h
    have hcases := Moves.next_cases r.tally ms
    have hreports := Moves.reports_next r.tally ms
    have hmarks := Moves.marks_next r.tally ms
    rw [calls]
    generalize Moves.next r.tally ms = a at hans hcases hreports hmarks
    generalize r.next = b at hans ⊢
    obtain ⟨emitted, result⟩ := b
    simp only at hans
    obtain ⟨beyond, hbeyond, hrest⟩ := hmarks
    generalize ha : emitted.toList = events at hans
    rw [hbeyond]
    cases hans with
    | failed =>
      simp only at hreports hrest hcases ⊢
      obtain ⟨hfault, htotal⟩ : _ = Fault.tallyOverflow ∧ _ := by simpa using hcases
      have hnot := Mark.not_fits_append (k := k) hreports hrest htotal
      constructor
      · intro hfits
        exact absurd hfits hnot
      · intro _
        rw [Mark.takeWhile_append hreports hrest, ha, hfault]
    | @found _ solution r' ms' stands lower =>
      simp only at hreports hrest hcases ⊢
      obtain ⟨-, -, htotal⟩ : Moves.solutions ms = solution :: Moves.solutions ms' ∧ _ ∧
          r'.tally.searches.toNat + Moves.searches ms' =
            r.tally.searches.toNat + Moves.searches ms := by
        simpa using hcases
      rw [hrest, ← htotal, Mark.fits_append_solution hreports r'.tally.searches.toNat_lt_size, ha]
      obtain ⟨hok, herror⟩ := ih stands
      constructor
      · intro hfits
        obtain ⟨r₁, hcalls⟩ := hok hfits
        rw [Mark.upTo_append fun mark hmark => (hreports mark hmark).1, Mark.upTo]
        exact ⟨r₁, by simp [hcalls]⟩
      · intro hfits
        rw [herror hfits, Mark.takeWhile_append_solution hreports r'.tally.searches.toNat_lt_size]
        simp
    | @ended _ r' stands =>
      simp only at hreports hrest hcases ⊢
      obtain ⟨-, -, htotal⟩ : _ ∧ _ ∧
          r'.tally.searches.toNat = r.tally.searches.toNat + Moves.searches ms := by
        simpa using hcases
      rw [hrest, ← htotal, Mark.fits_reports hreports, ha]
      have hcounted : r'.tally.searches.toNat < UInt64.size := r'.tally.searches.toNat_lt_size
      obtain ⟨r₁, hcalls⟩ := (ih stands).1 (by simp [Mark.Fits, Moves.marks, Moves.searches, hcounted])
      constructor
      · intro _
        rw [hcalls, Mark.upTo_append fun mark hmark => (hreports mark hmark).1]
        exact ⟨r₁, by simp [Moves.marks]⟩
      · intro hfits
        exact absurd hcounted hfits

end Run

namespace Table

variable {t : Table} {base : List Nat}

/-- The calls of a run that was begun afresh and reports to somebody show, one after the other, what
the recursion shows. With nobody to report to they show the solutions that the recursion shows. -/
theorem calls_eq_algorithmX (built : t.Built) (nodup : base.Nodup)
    (inRange : ∀ c ∈ base, c < t.columnCount) :
    ∃ m, base.foldlM Mesh.cover (.ofTable t) = .ok m ∧ ∀ tally : Tally,
      (∀ saved, let r := Problem.resume ⟨m, tally⟩ ⟨[], saved, false⟩
        r.Shows (t.algorithmX base [] r.tally.searches.toNat)) ∧
      let shown := t.algorithmX base [] tally.searches.toNat
      (Problem.solve ⟨m, tally⟩).Shows (shown.1.filter (·.isSolution), shown.2) := by
  have wf := built.wellFormed
  have hb : t.Coverable base := ⟨nodup, inRange⟩
  refine ⟨.covering t base, Mesh.foldlM_cover_ofTable wf hb, fun tally => ⟨fun saved => ?_, ?_⟩⟩
  · have hshows := Run.shows_of_at wf hb
      (Run.at_resume (p := ⟨.covering t base, tally⟩) ⟨[], saved, false⟩ rfl)
    rw [Moves.searches_notice] at hshows
    intro r
    rw [algorithmX_eq_shown ([] : List Labels).length]
    exact hshows
  · have hshows := Run.shows_of_at wf hb (Run.at_solve (p := ⟨.covering t base, tally⟩) rfl)
    rw [Moves.searches_notice, Moves.searches_told, Moves.marks, Moves.marks_told] at hshows
    intro shown
    have hshown : shown = t.shown base ([] : List Labels).length tally.searches.toNat [] :=
      algorithmX_eq_shown ..
    rw [hshown]
    exact hshows

/-- The case of `abc`. Two calls of a run from a bookmark without a path show all up to the second
solution, two calls of a run from the start the two solutions. -/
theorem calls_eq_algorithmX_abc :
    let m := Mesh.ofTable abc
    let found : List (List Labels) := [[["a", "b"]], [["a"], ["b", "c"]], [["a"], ["b"]]]
    let shown := [.report [["a", "b"]] 4, .solution found[0] 4, .report [["a"]] 4, .report found[1] 5,
      .solution found[1] 5, .report found[2] 5, .solution found[2] 5]
    abc.algorithmX [] [] 3 = (shown, 5) ∧
      (∃ r', (Problem.resume ⟨m, .zero⟩ ⟨[], some ⟨0, 3⟩, false⟩).calls 2 = (shown.take 5, .ok r')) ∧
      ∃ r', (Problem.solve ⟨m, ⟨0, 3⟩⟩).calls 2 =
        ([.solution found[0] 4, .solution found[1] 5], .ok r') := by
  intro m found shown
  have hshown : abc.algorithmX [] [] 3 = (shown, 5) := by decide +kernel
  obtain ⟨_, hm, h⟩ := calls_eq_algorithmX built_abc List.nodup_nil (by decide)
  obtain rfl : m = _ := Except.ok.inj hm
  have hresumed := (h .zero).1 (some ⟨0, 3⟩)
  have hsolved := (h ⟨0, 3⟩).2
  have hcounted : (Problem.resume ⟨m, .zero⟩ ⟨[], some ⟨0, 3⟩, false⟩).tally.searches.toNat = 3 := rfl
  have hcounted' : (Tally.mk 0 3).searches.toNat = 3 := rfl
  simp only [hcounted, hcounted', hshown] at hresumed hsolved
  exact ⟨hshown, (hresumed 2).1 (by decide), (hsolved 2).1 (by decide)⟩

end Table

end Covering
