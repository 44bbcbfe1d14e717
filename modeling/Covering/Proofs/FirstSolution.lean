import Covering.Proofs.Sittings

/-!
# Where a search for one solution stops

A search that is to give one solution stops at the first, or at the last node if there is none; its
checkpoint is the position of that node. A search resumed at any position before does the same, and
one resumed there stops at once, gives the same and leaves the checkpoint as it is:
`Table.next_from_position`. Every search stops so, unless a counter is full before:
`Table.stops_or_overflows`.
-/

namespace Covering
set_option autoImplicit false

namespace Moves

variable {tally : Tally} {earlier ms : List Move}

/-- A counter that cannot count the searches before the next solution stops the call. -/
theorem next_append_full (hnone : solutions earlier = [])
    (hfull : UInt64.size ≤ tally.searches.toNat + searches earlier) :
    (next tally (earlier ++ ms)).2 = .error .tallyOverflow := by
  induction earlier generalizing tally with
  | nil =>
    have := tally.searches.toNat_lt_size
    exact absurd hfull (by simpa [searches] using Nat.not_le.2 this)
  | cons m earlier ih =>
    cases m with
    | found solution => simp [solutions] at hnone
    | notice notice => exact ih hnone (by simpa using hfull)
    | report path => exact ih hnone (by simpa [searches] using hfull)
    | search =>
      have hsearches : searches (.search :: earlier) = searches earlier + 1 := by simp [searches]
      rw [List.cons_append, next]
      by_cases hlt : tally.searches.toNat + 1 < UInt64.size
      · rw [Tally.countSearch_eq_count hlt]
        refine ih hnone ?_
        rw [Tally.searches_count hlt]
        omega
      · rw [Tally.countSearch_eq_error (Nat.le_of_not_lt hlt)]

/-- The next thing that the moves do is to find `solution`; without one there are no moves. -/
def Begins (solution : Option Solution) (ms : List Move) : Prop :=
  match solution with
  | some solution => ∃ later, ms = .found solution :: later
  | none => ms = []

theorem Begins.told {solution : Option Solution} {watched : Bool} (h : Begins solution ms) :
    Begins solution (told watched ms) := by
  cases solution with
  | some solution =>
    obtain ⟨later, rfl⟩ := h
    exact ⟨Moves.told watched later, told_found⟩
  | none =>
    obtain rfl : ms = [] := h
    exact told_nil

end Moves

/-- The call that finds that there is no solution any more. -/
theorem Run.next_ended {t : Table} {base : List Nat} {r : Run} {ms : List Move} (wf : t.WellFormed)
    (hb : t.Coverable base) (h : At t base r ms) (hnone : Moves.solutions ms = [])
    (hcount : r.tally.searches.toNat + Moves.searches ms < UInt64.size) :
    ∃ r', (r.next.1.toList, r.next.2) = (Moves.events r.tally ms, .ok (none, r')) ∧
      r'.tally = r.tally.count (Moves.searches ms) := by
  have hans := next_answers wf hb h
  have hnext : Moves.next r.tally (ms ++ []) = _ := Moves.next_append hnone hcount
  rw [List.append_nil, Moves.next, Moves.emit, List.append_nil] at hnext
  rw [hnext] at hans
  generalize (r.next.1.toList, r.next.2) = given at hans ⊢
  generalize htally : r.tally.count (Moves.searches ms) = tally at hans ⊢
  cases hans with
  | @ended _ r' => exact ⟨r', rfl, rfl⟩

namespace Table

variable {t : Table} {base node start : List Nat} {before between later after : List (List Nat)}
  {depth : Nat}

/-- The solution at a node, if it is one. -/
def solutionAt? (t : Table) (base node : List Nat) : Option Solution :=
  if t.isSolution base node then some (t.labelsOfPath node) else none

/-- A search for one solution stops at `node`, after the nodes `before` it: they are no solutions,
and `node` is one or the last. The searches counted up to there are no more than a counter can
count. -/
structure StopsAt (t : Table) (base : List Nat) (before : List (List Nat)) (node : List Nat)
    (later : List (List Nat)) : Prop where
  tree : t.preorder base [] = before ++ node :: later
  none : before.filter (t.isSolution base) = []
  last : t.isSolution base node ∨ later = []
  counted : (before ++ [node]).countP (!t.isSolution base ·) < UInt64.size

/-- The moves from the arrival at `start` on, up to where the search stops: there is a solution, or
there are no more moves. -/
theorem way_to_stop (depth : Nat) (h : start :: after = between ++ node :: later)
    (hnone : between.filter (t.isSolution base) = []) (hlast : t.isSolution base node ∨ later = []) :
    ∃ way rest, t.arrival base false [] start ++ after.flatMap (t.visit base depth) = way ++ rest ∧
      Moves.solutions way = [] ∧
      Moves.searches way = (between ++ [node]).countP (!t.isSolution base ·) ∧
      (∀ tally, (Checkpoint.mk (t.labelsOfPath start) tally false).follow (Moves.events tally way) =
        ⟨t.labelsOfPath node, tally.count (between.countP (!t.isSolution base ·)), false⟩) ∧
      Moves.Begins (t.solutionAt? base node) rest := by
  obtain ⟨ms, hms, hsolutions, hsearches, hfollow⟩ := moves_split depth h
  rw [hnone, List.map_nil] at hsolutions
  by_cases hsol : t.isSolution base node
  · refine ⟨ms ++ [.notice (.solutionFound node.length)],
      .found (t.labelsOfPath node) :: later.flatMap (t.visit base depth), ?_, ?_, ?_,
      fun tally => ?_, ?_⟩
    · rw [hms, arrival_of_isSolution hsol, List.append_assoc]
      rfl
    · rw [Moves.solutions_append, hsolutions]
      rfl
    · rw [Moves.searches_append, hsearches, List.countP_append]
      simp [Moves.searches, hsol]
    · rw [Moves.events_append, Checkpoint.follow_append, hfollow, hsearches]
      rfl
    · rw [solutionAt?, if_pos hsol]
      exact ⟨_, rfl⟩
  · have hend := hlast.resolve_left hsol
    have harrival : t.arrival base false [] node = [.search] := by simp [arrival, hsol]
    refine ⟨ms ++ [.search], [], ?_, ?_, ?_, fun tally => ?_, ?_⟩
    · rw [hms, hend, harrival, List.flatMap_nil, List.append_nil, List.append_nil]
    · rw [Moves.solutions_append, hsolutions]
      rfl
    · rw [Moves.searches_append, hsearches, List.countP_append]
      simp [Moves.searches, hsol]
    · rw [Moves.events_append, Checkpoint.follow_append, hfollow, hsearches]
      rfl
    · rw [solutionAt?, if_neg hsol]
      rfl

section

variable (wf : t.WellFormed) (hb : t.Coverable base)
include wf hb

/-- The call that goes `way` to where a search for one solution stops. -/
theorem next_to_stop {r : Run} {way rest : List Move} (hat : Run.At t base r (way ++ rest))
    (hsolutions : Moves.solutions way = [])
    (hcount : r.tally.searches.toNat + Moves.searches way < UInt64.size)
    (hrest : Moves.Begins (t.solutionAt? base node) rest) :
    ∃ left, (r.next.1.toList, r.next.2) =
        (Moves.events r.tally way, .ok (t.solutionAt? base node, left)) ∧
      left.tally = r.tally.count (Moves.searches way) := by
  cases hfound : t.solutionAt? base node with
  | some solution =>
    rw [hfound] at hrest
    obtain ⟨ms, rfl⟩ := hrest
    obtain ⟨left, hnext, -, hleft⟩ := Run.next_found wf hb hat hsolutions hcount
    exact ⟨left, hnext, hleft⟩
  | none =>
    rw [hfound] at hrest
    rw [hrest, List.append_nil] at hat
    exact Run.next_ended wf hb hat hsolutions hcount

/-- From a position on, a search for one solution goes to where it stops, and leaves the position of
that node. -/
theorem next_from_position
    (distinct : ∀ row < t.rowCount, ∀ row' < t.rowCount, t.ones row ≠ [] →
      (t.ones row).toFinset = (t.ones row').toFinset → row = row')
    (hstop : t.StopsAt base (before ++ between) node later)
    (h : start :: after = between ++ node :: later) :
    let c := t.position base before start
    let r := (Problem.ofMesh (.covering t base)).resume c.bookmark
    (∃ left, r.next.2 = .ok (t.solutionAt? base node, left) ∧ left.tally.solutions = 0) ∧
      c.follow r.next.1.toList = t.position base (before ++ between) node := by
  intro c r
  have htree : t.preorder base [] = before ++ start :: after := by
    rw [hstop.tree, h, List.append_assoc]
  have hsum : ((before ++ between) ++ [node]).countP (!t.isSolution base ·) =
      before.countP (!t.isSolution base ·) + (between ++ [node]).countP (!t.isSolution base ·) := by
    rw [List.append_assoc, List.countP_append]
  have hcounted := hstop.counted
  have hnone : between.filter (t.isSolution base) = [] := by
    have := hstop.none
    rw [List.filter_append] at this
    exact (List.append_eq_nil_iff.1 this).2
  have hzero : Tally.zero.searches.toNat = 0 := rfl
  have htally : r.tally = Tally.zero.count (before.countP (!t.isSolution base ·)) :=
    Tally.raiseTo_zero
  have hstart : r.tally.searches.toNat = before.countP (!t.isSolution base ·) := by
    rw [htally, Tally.searches_count (by omega), hzero, Nat.zero_add]
  obtain ⟨way, rest, hway, hsolutions, hsearches, hfollow, hrest⟩ :=
    way_to_stop (t.labelsOfPath start).length h hnone hstop.last
  have hat : Run.At t base r
      (.notice r.startNotice :: t.moves base false (t.labelsOfPath start)) := Run.at_resume _ rfl
  rw [moves_labelsOfPath wf distinct htree, hway, ← List.cons_append] at hat
  have hcount : r.tally.searches.toNat + Moves.searches (.notice r.startNotice :: way) <
      UInt64.size := by
    rw [Moves.searches_notice, hsearches]
    omega
  have hposition : c.follow (Moves.events r.tally (.notice r.startNotice :: way)) =
      t.position base (before ++ between) node := by
    have hnotice : c.follow (Moves.events r.tally (.notice r.startNotice :: way)) =
        c.follow (Moves.events r.tally way) := rfl
    have hc : c = ⟨t.labelsOfPath start, r.tally, false⟩ := by rw [htally]; rfl
    rw [hnotice, hc, hfollow, htally, Tally.count_count, position, List.countP_append]
  obtain ⟨left, hnext, hleft⟩ := next_to_stop wf hb hat hsolutions hcount hrest
  obtain ⟨hevents, hnext⟩ := Prod.mk.inj hnext
  exact ⟨⟨left, hnext, by rw [hleft, htally]; rfl⟩, by rw [hevents, hposition]⟩

omit wf hb in
/-- The moves of a search from the start, as far as it goes before it stops. -/
theorem at_solve_split {way rest : List Move} (hway : t.moves base false [] = way ++ rest) :
    Run.At t base (Problem.ofMesh (.covering t base)).solve
      ((.notice (Problem.ofMesh (.covering t base)).solve.startNotice :: Moves.told false way) ++
        Moves.told false rest) := by
  have hat := Run.at_solve (p := .ofMesh (.covering t base)) rfl
  rwa [hway, Moves.told_append, ← List.cons_append] at hat

/-- A search from the start goes there, too. -/
theorem next_solve (hstop : t.StopsAt base before node later) :
    ∃ left, (Problem.ofMesh (.covering t base)).solve.next.2 =
      .ok (t.solutionAt? base node, left) := by
  obtain ⟨way, rest, hway, hsolutions, hsearches, -, hrest⟩ :=
    way_to_stop 0 (preorder_eq.symm.trans hstop.tree) hstop.none hstop.last
  have hzero : (Problem.ofMesh (.covering t base)).solve.tally.searches.toNat = 0 := rfl
  obtain ⟨left, hnext, -⟩ := next_to_stop wf hb (at_solve_split hway)
    (by rw [Moves.solutions_notice, Moves.solutions_told, hsolutions])
    (by
      rw [Moves.searches_notice, Moves.searches_told, hsearches, hzero, Nat.zero_add]
      exact hstop.counted) hrest.told
  exact ⟨left, (Prod.mk.inj hnext).2⟩

/-- A search for one solution stops somewhere, unless a counter is full before. -/
theorem stops_or_overflows :
    (∃ before node later, t.StopsAt base before node later) ∨
      (Problem.ofMesh (.covering t base)).solve.next.2 = .error .tallyOverflow ∧
        UInt64.size ≤ (t.preorder base []).countP (!t.isSolution base ·) := by
  obtain ⟨before, node, later, htree, hnone, hlast⟩ : ∃ before node later,
      t.preorder base [] = before ++ node :: later ∧ before.filter (t.isSolution base) = [] ∧
        (t.isSolution base node ∨ later = []) := by
    by_cases hall : (t.preorder base []).filter (t.isSolution base) = []
    · have hne : t.preorder base [] ≠ [] := by rw [preorder_eq]; simp
      refine ⟨(t.preorder base []).dropLast, (t.preorder base []).getLast hne, [],
        (List.dropLast_append_getLast hne).symm, ?_, .inr rfl⟩
      exact List.filter_eq_nil_iff.2 fun path hpath =>
        List.filter_eq_nil_iff.1 hall path (List.dropLast_subset _ hpath)
    · obtain ⟨before, node, later, htree, hsol, hbefore, -⟩ :=
        exists_split_solution (List.length_pos_iff.2 hall)
      exact ⟨before, node, later, htree, hbefore, .inl hsol⟩
  rcases Nat.lt_or_ge ((before ++ [node]).countP (!t.isSolution base ·)) UInt64.size with
    hcounted | hfull
  · exact .inl ⟨before, node, later, htree, hnone, hlast, hcounted⟩
  right
  obtain ⟨way, rest, hway, hsolutions, hsearches, -⟩ :=
    way_to_stop 0 (preorder_eq.symm.trans htree) hnone hlast
  have hout := Run.next_outcome wf hb (at_solve_split hway)
  have hfails : (Moves.next (Problem.ofMesh (.covering t base)).solve.tally
      ((.notice (Problem.ofMesh (.covering t base)).solve.startNotice :: Moves.told false way) ++
        Moves.told false rest)).2 = .error .tallyOverflow :=
    Moves.next_append_full (by rw [Moves.solutions_notice, Moves.solutions_told, hsolutions])
      (by rw [Moves.searches_notice, Moves.searches_told, hsearches]; omega)
  rw [hfails] at hout
  have hprefix : before ++ [node] <+: t.preorder base [] := ⟨later, by rw [htree]; simp⟩
  exact ⟨hout, hfull.trans hprefix.sublist.countP_le⟩

end

end Table

end Covering
