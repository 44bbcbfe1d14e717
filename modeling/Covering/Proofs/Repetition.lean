import Covering.Proofs.Remainder
import Covering.Proofs.SearchTree.Identical
import Covering.Proofs.Transparency

/-!
# A resumed search may repeat but skips nothing

Where rows use the same columns, a saved path leads a resumed search to the first of them, which may
stand before the row that the path was saved at. Main statement, `Table.resume_skips_nothing`: the
solutions given then end with all those that come after the position saved. Those before them are
given again.
-/

namespace Covering
set_option autoImplicit false

namespace Shown

/-- Whether it is a solution that is shown. -/
def isSolution : Shown → Bool
  | .solution _ _ => true
  | .report _ => false

/-- The move that is shown. -/
def move : Shown → Move
  | .report position => .report position.path
  | .solution rows _ => .found rows

end Shown

namespace Moves

variable {formats : Bool} {tally : Tally} {ms : List Move}

/-- The moves that show something. -/
def visible (ms : List Move) : List Move :=
  ms.filter fun
    | .report _ | .found _ => true
    | _ => false

theorem solutions_visible : solutions (visible ms) = solutions ms := by
  rw [solutions, visible, List.filterMap_filter]
  apply List.filterMap_congr
  intro m _
  cases m <;> rfl

theorem length_solutions_move (shown : List Shown) :
    (solutions (shown.map Shown.move)).length = shown.countP Shown.isSolution := by
  induction shown with
  | nil => rfl
  | cons first shown ih =>
    cases first with
    | report position => exact ih
    | solution rows tally =>
      rw [List.countP_cons, ← ih]
      rfl

/-- A record shows the moves in their order, up to the end or to a fault. -/
theorem record_prefix : (record formats tally ms).1.map Shown.move <+: visible ms := by
  induction ms generalizing tally with
  | nil => exact List.nil_prefix
  | cons m ms ih =>
    cases m with
    | notice notice => exact ih
    | search =>
      rw [record]
      cases tally.countSearch with
      | error fault => exact List.nil_prefix
      | ok counted => exact ih
    | report path =>
      have hpath : Report.path ⟨path.reverse, tally⟩ = path := List.reverse_reverse path
      rw [record, emit, List.singleton_append, List.map_cons, Shown.move, hpath]
      exact List.cons_prefix_cons.2 ⟨rfl, ih⟩
    | found solution =>
      rw [record, emit, List.singleton_append, List.map_cons, Shown.move]
      refine List.cons_prefix_cons.2 ⟨rfl, ?_⟩
      cases if formats then tally.countSolution else .ok tally with
      | error fault => exact List.nil_prefix
      | ok formatted => exact ih

/-- A report that is shown, with the solutions found before it. -/
theorem record_report {before after : List Shown} {position : Report}
    (h : (record formats tally ms).1 = before ++ .report position :: after) :
    ∃ earlier later, ms = earlier ++ .report position.path :: later ∧
      (solutions earlier).length = before.countP Shown.isSolution := by
  obtain ⟨rest, hrest⟩ : (record formats tally ms).1.map Shown.move <+: visible ms := record_prefix
  rw [h, List.map_append, List.map_cons, List.append_assoc, List.cons_append] at hrest
  obtain ⟨front, back, rfl, hfront, hback⟩ := List.filter_eq_append_iff.1 hrest.symm
  obtain ⟨skipped, later, rfl, hskipped, -, -⟩ := List.filter_eq_cons_iff.1 hback
  refine ⟨front ++ skipped, later, (List.append_assoc ..).symm, ?_⟩
  have hvisible : visible (front ++ skipped) = before.map Shown.move := by
    rw [visible, List.filter_append, hfront, List.filter_eq_nil_iff.2 hskipped, List.append_nil]
  rw [← solutions_visible, hvisible, length_solutions_move]

end Moves

namespace Table

variable {t : Table} {base node : List Nat} {earlier later : List (List Nat)}

/-- A search resumed at the labels of a node visits last the nodes after it, and before these,
unless it is reported, the node itself. None of them is taken for the solution reported. -/
theorem suffix_resumedNodes (wf : t.WellFormed) (h : t.preorder base [] = earlier ++ node :: later)
    (reported : Bool) :
    let rest := if reported then later else node :: later
    rest <:+ t.resumedNodes base (t.labelsOfPath node) ∧ ∀ other ∈ rest,
      (reported && t.follow base (t.labelsOfPath node) [] == (other, [])) = false := by
  intro rest
  have hmem : [] ++ node ∈ t.preorder base [] := by
    rw [h]
    simp
  have hrest : rest <:+ node :: later := by
    cases reported with
    | true => exact List.suffix_cons node later
    | false => exact List.suffix_rfl
  obtain ⟨before, hsplit⟩ := preorder_eq_append_passed (t := t) base (t.labelsOfPath node) []
  have hreached := follow_notMem_rest (t := t) base (t.labelsOfPath node)
  rw [← passed_eq] at hreached
  rcases follow_eq_or_mem_passed hmem with hfollow | hpassed
  · -- The path leads to the node itself.
    have hnode : t.preorder base node = node :: t.descendants base node := preorder_eq
    rw [List.nil_append] at hfollow
    rw [hfollow] at hsplit hreached
    simp only [hnode, List.append_assoc, List.cons_append] at hsplit
    have hlater := later_unique h hsplit
    have hnodes : t.resumedNodes base (t.labelsOfPath node) = node :: later := by
      simp only [resumedNodes, hfollow, hlater, passed_eq, hnode, List.cons_append]
    refine ⟨hnodes ▸ hrest, fun other hother => ?_⟩
    cases reported with
    | false => rfl
    | true =>
      rw [← hlater] at hreached
      have hne : node ≠ other := fun e => hreached (e ▸ hother)
      simp [hfollow, hne]
  · -- The node is left for later, and so is all that comes after it.
    obtain ⟨first, last, hsides⟩ := List.append_of_mem hpassed
    have hlater : later = last := by
      rw [hsides, ← List.append_assoc] at hsplit
      exact later_unique h hsplit
    have hsuffix : node :: later <:+ t.passed base (t.labelsOfPath node) [] := by
      rw [hsides, hlater]
      exact List.suffix_append ..
    have hconsumed : (t.follow base (t.labelsOfPath node) []).2 = [] :=
      follow_consumes wf hmem rfl
    constructor
    · have hnodes : t.passed base (t.labelsOfPath node) [] <:+
          t.resumedNodes base (t.labelsOfPath node) := by
        rw [passed_eq, resumedNodes]
        generalize t.follow base (t.labelsOfPath node) [] = reached at hconsumed
        obtain ⟨found, left⟩ := reached
        obtain rfl : left = [] := hconsumed
        exact List.suffix_append ..
      exact (hrest.trans hsuffix).trans hnodes
    · intro other hother
      have hne : (t.follow base (t.labelsOfPath node) []).1 ≠ other := by
        intro e
        refine hreached (List.mem_append_right _ ?_)
        rw [e]
        exact (hrest.trans hsuffix).subset hother
      have hpair : (t.follow base (t.labelsOfPath node) [] == (other, [])) = false :=
        beq_eq_false_iff_ne.2 fun e => hne (congrArg Prod.fst e)
      rw [hpair, Bool.and_false]

/-- The same of the solutions that it gives. -/
theorem suffix_resumedSolutions (wf : t.WellFormed)
    (h : t.preorder base [] = earlier ++ node :: later) (reported : Bool) :
    (if reported then later else node :: later).filter (t.isSolution base) <:+
      t.resumedSolutions base (t.labelsOfPath node) reported := by
  obtain ⟨hsuffix, hkept⟩ := suffix_resumedNodes wf h reported
  have hfilter := (hsuffix.filter (t.isSolution base)).filter fun other =>
    !(reported && t.follow base (t.labelsOfPath node) [] == (other, []))
  rw [List.filter_eq_self.2] at hfilter
  · exact hfilter
  · intro other hother
    rw [hkept other (List.mem_filter.1 hother).1, Bool.not_false]

/-- Resumed at `path`, whatever has been counted before, a search over `m` gives solutions of which
`rest` are the last, unless what it visits is more than its counter can count. -/
def ResumesTo (t : Table) (base : List Nat) (m : Mesh) (path : List Labels) (reported : Bool)
    (rest : List Solution) : Prop :=
  ∀ (tally : Tally) (saved : Option Tally),
    let raised := saved.elim tally tally.raiseTo
    let resumed := Problem.resume ⟨m, tally⟩ ⟨path, saved, reported⟩
    if raised.searches.toNat + (t.resumedNodes base path).countP (!t.isSolution base ·) <
        UInt64.size then
      ∃ earlier r, resumed.drain = .ok (earlier ++ rest, r)
    else resumed.drain = .error .tallyOverflow

/-- A search resumed at a node of the tree. -/
theorem resumesTo_of_node (wf : t.WellFormed) (hb : t.Coverable base)
    (h : t.preorder base [] = earlier ++ node :: later) (reported : Bool) :
    t.ResumesTo base (.covering t base) (t.labelsOfPath node) reported
      (((if reported then later else node :: later).filter (t.isSolution base)).map
        t.labelsOfPath) := by
  intro tally saved raised resumed
  have hat : Run.At t base resumed _ := Run.at_resume _ rfl
  have hraised : resumed.tally = raised := by cases saved <;> rfl
  have hdrain := Run.drain_eq wf hb hat
  rw [Moves.searches_notice, searches_moves, Moves.solutions_notice, solutions_moves, hraised]
    at hdrain
  split
  · next hcount =>
    rw [if_pos hcount] at hdrain
    obtain ⟨r, hgiven, -⟩ := hdrain
    obtain ⟨first, hfirst⟩ := suffix_resumedSolutions wf h reported
    refine ⟨first.map t.labelsOfPath, r, ?_⟩
    rw [hgiven, ← List.map_append, hfirst]
  · next hcount =>
    rw [if_neg hcount] at hdrain
    exact hdrain

/-- A report of a search from the start is made at a node of the tree, and what is left to be found
then are the solutions from that node on. -/
theorem exists_node_of_report {earlier later : List Move} {path : List Labels}
    (h : t.moves base false [] = earlier ++ .report path :: later) :
    ∃ before node after, t.preorder base [] = before ++ node :: after ∧
      path = t.labelsOfPath node ∧
      ((node :: after).filter (t.isSolution base)).map t.labelsOfPath =
        (((t.preorder base []).filter (t.isSolution base)).map t.labelsOfPath).drop
          (Moves.solutions earlier).length := by
  obtain ⟨ms, hvisits⟩ := arrival_split h
  obtain ⟨before, node, after, hnodes, hpath, hrest⟩ := visits_split hvisits
  refine ⟨[] :: before, node, after, by rw [preorder_eq, hnodes, List.cons_append], hpath, ?_⟩
  have hlater : Moves.solutions (.report path :: later) =
      ((node :: after).filter (t.isSolution base)).map t.labelsOfPath := by
    change Moves.solutions later = _
    rw [hrest, Moves.solutions_append, Moves.solutions_arrival, Moves.solutions_visits,
      ← List.map_append, ← List.filter_append, List.singleton_append]
  rw [← Moves.solutions_moves_nil, h, Moves.solutions_append, List.drop_left, hlater]

/-- Let a search from the start give `all` in the end, with any rows that use the same columns.
Resumed at one of these solutions, reported, a search still gives all that come later, these last.
Resumed at a report of a search from the start, not reported, it still gives all those that had not
been given at the report. -/
theorem resume_skips_nothing (built : t.Built) (nodup : base.Nodup)
    (inRange : ∀ c ∈ base, c < t.columnCount) :
    ∃ m, base.foldlM Mesh.cover (.ofTable t) = .ok m ∧
      ∀ tally : Tally,
        let search := Problem.solve ⟨m, tally⟩
        if tally.searches.toNat + (t.preorder base []).countP (!t.isSolution base ·) <
            UInt64.size then
          ∃ all r, search.drain = .ok (all, r) ∧
            (∀ n (hn : n < all.length), t.ResumesTo base m all[n] true (all.drop (n + 1))) ∧
            ∀ (counted : Tally) (saved : Option Tally) (formats : Bool),
              let original := Problem.resume ⟨m, counted⟩ ⟨[], saved, false⟩
              ∀ before report after,
                (original.record formats original.stepBound).1 =
                  before ++ .report report :: after →
                t.ResumesTo base m report.path false (all.drop (before.countP (·.isSolution)))
        else search.drain = .error .tallyOverflow := by
  have wf := built.wellFormed
  have hb : t.Coverable base := ⟨nodup, inRange⟩
  refine ⟨.covering t base, Mesh.foldlM_cover_ofTable wf hb, fun tally => ?_⟩
  intro search
  have hdrain := drain_solve wf hb tally
  split
  · next hcount =>
    rw [if_pos hcount] at hdrain
    obtain ⟨r, hall, -⟩ := hdrain
    refine ⟨_, r, hall, fun n hn => ?_, fun counted saved formats => ?_⟩
    · rw [List.length_map] at hn
      obtain ⟨earlier, leaf, later, htree, -, -, hleaf, hlater⟩ := exists_split_solution hn
      have hresumes := resumesTo_of_node wf hb htree true
      rw [List.getElem_map, hleaf, ← List.map_drop, ← hlater]
      exact hresumes
    · intro original before report after hrecord
      have hat := Run.at_resume (p := ⟨.covering t base, counted⟩) ⟨[], saved, false⟩ rfl
      rw [Run.record_stepBound wf hb hat, Moves.record] at hrecord
      obtain ⟨earlier, later, hms, hfound⟩ := Moves.record_report hrecord
      obtain ⟨_, node, _, htree, hpath, hrest⟩ := exists_node_of_report hms
      rw [hpath, ← hfound, ← hrest]
      exact resumesTo_of_node wf hb htree false
  · next hcount =>
    rw [if_neg hcount] at hdrain
    exact hdrain

/-- Two columns that two rows each cover alone. -/
def twins : Table := ⟨["a", "b"], 0, [[0], [1], [0], [1]]⟩

theorem built_twins : twins.Built := .inr ⟨["a", "b"], 0, [[0], [1], [0], [1]], by decide⟩

/-- The case of `twins`, whose four solutions have the same labels: resumed at the third solution, and
at the first report after one had been given. -/
theorem resume_skips_nothing_twins :
    let m := Mesh.ofTable twins
    let solution : Solution := [["a"], ["b"]]
    let original := Problem.resume ⟨m, .zero⟩ ⟨[], none, false⟩
    (∃ r, (Problem.solve ⟨m, .zero⟩).drain = .ok (List.replicate 4 solution, r)) ∧
      twins.ResumesTo [] m solution true [solution] ∧
      ∃ before report after,
        (original.record true original.stepBound).1 = before ++ .report report :: after ∧
          before.countP (·.isSolution) = 1 ∧
          twins.ResumesTo [] m report.path false (List.replicate 3 solution) := by
  intro m solution original
  obtain ⟨_, hm, h⟩ := resume_skips_nothing built_twins List.nodup_nil (by decide)
  obtain rfl : m = _ := Except.ok.inj hm
  have hcount : Tally.zero.searches.toNat + (twins.preorder [] []).countP (!twins.isSolution [] ·) <
      UInt64.size := by decide +kernel
  have hdrained : (Problem.solve ⟨m, .zero⟩).drain.map Prod.fst =
      .ok (List.replicate 4 solution) := by decide +kernel
  have hzero := h .zero
  rw [if_pos hcount] at hzero
  obtain ⟨all, r, hall, hsolutions, hreports⟩ := hzero
  obtain rfl : all = List.replicate 4 solution := by simpa [hall, Except.map] using hdrained
  let chosen : List Labels := [["b"], ["a"]]
  have hrecord : (original.record true original.stepBound).1 =
      [.report ⟨[["a"]], ⟨0, 1⟩⟩, .report ⟨chosen, ⟨0, 2⟩⟩, .solution solution ⟨0, 2⟩] ++
        .report ⟨chosen, ⟨1, 2⟩⟩ ::
          [.solution solution ⟨1, 2⟩, .report ⟨[["a"]], ⟨2, 2⟩⟩, .report ⟨chosen, ⟨2, 3⟩⟩,
            .solution solution ⟨2, 3⟩, .report ⟨chosen, ⟨3, 3⟩⟩, .solution solution ⟨3, 3⟩] := by
    decide +kernel
  exact ⟨⟨r, hall⟩, hsolutions 2 (by decide), _, _, _, hrecord, rfl,
    hreports .zero none true _ _ _ hrecord⟩

end Table

end Covering
