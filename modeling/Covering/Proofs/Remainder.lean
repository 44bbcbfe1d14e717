import Covering.Checkpoint
import Covering.Proofs.Resumption
import Covering.Proofs.Run.Taking

/-!
# What follows a solution

A caller who keeps a solution can go on after it later. A search resumed at that solution, reported,
gives those that the original search gives after it, in order, and counts each node that the
original search counts after it: `Table.resume_gives_later`.
-/

namespace Covering
set_option autoImplicit false

namespace Table

variable {t : Table} {base node leaf : List Nat} {earlier later rest : List (List Nat)}
  {depth : Nat}

/-- The moves from the arrival at a node on, split at the arrival at another. On the way from one to
the other a checkpoint goes from the position of the first to that of the second. -/
theorem moves_split (depth : Nat) (h : node :: later = earlier ++ leaf :: rest) :
    ∃ ms, t.arrival base false [] node ++ later.flatMap (t.visit base depth) =
        ms ++ (t.arrival base false [] leaf ++ rest.flatMap (t.visit base depth)) ∧
      Moves.solutions ms = (earlier.filter (t.isSolution base)).map t.labelsOfPath ∧
      Moves.searches ms = earlier.countP (!t.isSolution base ·) ∧
      ∀ tally, (Checkpoint.mk (t.labelsOfPath node) tally false).follow (Moves.events tally ms) =
        ⟨t.labelsOfPath leaf, tally.count (Moves.searches ms), false⟩ := by
  cases earlier with
  | nil =>
    obtain ⟨rfl, rfl⟩ := List.cons.inj h
    exact ⟨[], rfl, rfl, rfl, fun tally => congrArg (Checkpoint.mk _ · false) Tally.count_zero.symm⟩
  | cons first earlier =>
    obtain ⟨rfl, rfl⟩ := List.cons.inj h
    obtain ⟨ms, hvisit, hsolutions, hsearches, hfollow⟩ : ∃ ms,
        t.visit base depth leaf = ms ++ t.arrival base false [] leaf ∧
          Moves.solutions ms = [] ∧ Moves.searches ms = 0 ∧
          ∀ (c : Checkpoint) tally,
            c.follow (Moves.events tally ms) = ⟨t.labelsOfPath leaf, tally, false⟩ := by
      have hreport : ∀ tally, Checkpoint.ofReport ⟨(t.labelsOfPath leaf).reverse, tally⟩ =
          ⟨t.labelsOfPath leaf, tally, false⟩ := by
        intro tally
        rw [Checkpoint.ofReport, Report.path, List.reverse_reverse]
      rw [visit]
      split
      · exact ⟨[_, _], rfl, rfl, rfl, fun c tally => hreport tally⟩
      · exact ⟨[_], rfl, rfl, rfl, fun c tally => hreport tally⟩
    refine ⟨t.arrival base false [] node ++ earlier.flatMap (t.visit base depth) ++ ms, ?_, ?_, ?_,
      fun tally => ?_⟩
    · rw [List.append_eq, List.flatMap_append, List.flatMap_cons, hvisit]
      simp only [List.append_assoc]
    · rw [Moves.solutions_append, Moves.solutions_append, Moves.solutions_arrival,
        Moves.solutions_visits, hsolutions, List.append_nil, ← List.map_append,
        ← List.filter_append, List.singleton_append]
    · rw [Moves.searches_append, Moves.searches_append, Moves.searches_arrival,
        Moves.searches_visits, hsearches, Nat.add_zero, ← List.countP_append,
        List.singleton_append]
    · generalize t.arrival base false [] node ++ earlier.flatMap (t.visit base depth) = passed
      rw [Moves.events_append, Checkpoint.follow_append, hfollow, Moves.searches_append, hsearches,
        Nat.add_zero]

theorem arrival_of_isSolution (hsol : t.isSolution base leaf) : t.arrival base false [] leaf =
    [.notice (.solutionFound leaf.length), .found (t.labelsOfPath leaf)] := by
  simp [arrival, hsol]

/-- The moves split at a solution. -/
theorem arrival_append_visits (h : node :: later = earlier ++ leaf :: rest)
    (hsol : t.isSolution base leaf) :
    ∃ ms, t.arrival base false [] node ++ later.flatMap (t.visit base depth) =
        ms ++ .found (t.labelsOfPath leaf) :: rest.flatMap (t.visit base depth) ∧
      Moves.solutions ms = (earlier.filter (t.isSolution base)).map t.labelsOfPath ∧
      Moves.searches ms = earlier.countP (!t.isSolution base ·) ∧
      ∀ tally, (Checkpoint.mk (t.labelsOfPath node) tally false).follow (Moves.events tally ms) =
        ⟨t.labelsOfPath leaf, tally.count (Moves.searches ms), false⟩ := by
  obtain ⟨ms, hms, hsolutions, hsearches, hfollow⟩ := moves_split depth h
  have hnotice : Moves.searches (ms ++ [.notice (.solutionFound leaf.length)]) =
      Moves.searches ms := by
    rw [Moves.searches_append, Moves.searches_notice]
    rfl
  refine ⟨ms ++ [.notice (.solutionFound leaf.length)], ?_, ?_, hnotice.trans hsearches,
    fun tally => ?_⟩
  · rw [hms, arrival_of_isSolution hsol]
    simp only [List.append_assoc, List.cons_append, List.nil_append]
  · rw [Moves.solutions_append, hsolutions]
    exact List.append_nil _
  · rw [hnotice, Moves.events_append, Checkpoint.follow_append, hfollow]
    rfl

/-- The solution with the number `n`, with the nodes before and after it. -/
theorem exists_split_solution {nodes : List (List Nat)} {n : Nat}
    (hn : n < (nodes.filter (t.isSolution base)).length) :
    ∃ earlier leaf later, nodes = earlier ++ leaf :: later ∧ t.isSolution base leaf ∧
      earlier.filter (t.isSolution base) = (nodes.filter (t.isSolution base)).take n ∧
      (nodes.filter (t.isSolution base))[n] = leaf ∧
      later.filter (t.isSolution base) = (nodes.filter (t.isSolution base)).drop (n + 1) := by
  have hall := (List.take_append_drop n (nodes.filter (t.isSolution base))).symm
  obtain ⟨front, back, hnodes, hfront, hback⟩ := List.filter_eq_append_iff.1 hall
  rw [List.drop_eq_getElem_cons hn] at hback
  obtain ⟨skipped, later, rfl, hskipped, hsol, hlater⟩ := List.filter_eq_cons_iff.1 hback
  refine ⟨front ++ skipped, _, later, hnodes.trans (List.append_assoc ..).symm, hsol, ?_, rfl,
    hlater⟩
  rw [List.filter_append, hfront, List.filter_eq_nil_iff.2 hskipped, List.append_nil]

/-- What a search from the start gives and counts: all solutions, and the nodes that branch. -/
theorem drain_solve (wf : t.WellFormed) (hb : t.Coverable base) (tally : Tally) :
    let search := Problem.solve ⟨.covering t base, tally⟩
    let total := tally.searches.toNat + (t.preorder base []).countP (!t.isSolution base ·)
    if total < UInt64.size then
      ∃ r, search.drain =
          .ok (((t.preorder base []).filter (t.isSolution base)).map t.labelsOfPath, r) ∧
        r.tally.searches.toNat = total
    else search.drain = .error .tallyOverflow := by
  intro search total
  have hat : Run.At t base search _ := Run.at_solve rfl
  have htally : search.tally = tally := rfl
  have hdrain := Run.drain_eq wf hb hat
  rw [Moves.searches_notice, Moves.searches_told, Moves.searches_moves_nil, Moves.solutions_notice,
    Moves.solutions_told, Moves.solutions_moves_nil, htally] at hdrain
  split
  · next hcount =>
    rw [if_pos hcount] at hdrain
    obtain ⟨r, hgiven, -, hsearches⟩ := hdrain
    exact ⟨r, hgiven, hsearches⟩
  · next hcount =>
    rw [if_neg hcount] at hdrain
    exact hdrain

/-- What a search resumed at a node gives and counts: the solutions from that node on, the node left
out if it is reported, and the nodes that branch. -/
theorem drain_resumed (wf : t.WellFormed) (hb : t.Coverable base)
    (distinct : ∀ row < t.rowCount, ∀ row' < t.rowCount, t.ones row ≠ [] →
      (t.ones row).toFinset = (t.ones row').toFinset → row = row')
    (h : t.preorder base [] = earlier ++ node :: later) (reported : Bool) (counted : Tally)
    (saved : Option Tally) :
    let raised := saved.elim counted counted.raiseTo
    let resumed := Problem.resume ⟨.covering t base, counted⟩ ⟨t.labelsOfPath node, saved, reported⟩
    let rest := if reported then later else node :: later
    let total := raised.searches.toNat + (node :: later).countP (!t.isSolution base ·)
    if total < UInt64.size then
      ∃ r, resumed.drain = .ok ((rest.filter (t.isSolution base)).map t.labelsOfPath, r) ∧
        r.tally.searches.toNat = total
    else resumed.drain = .error .tallyOverflow := by
  intro raised resumed rest total
  have hat : Run.At t base resumed _ := Run.at_resume _ rfl
  have hraised : resumed.tally = raised := by cases saved <;> rfl
  have hsolutions : Moves.solutions (t.arrival base reported [] node) ++
      (later.filter (t.isSolution base)).map t.labelsOfPath =
        (rest.filter (t.isSolution base)).map t.labelsOfPath := by
    cases reported with
    | false =>
      rw [Moves.solutions_arrival, ← List.map_append, ← List.filter_append]
      rfl
    | true =>
      rw [arrival]
      cases t.isSolution base node <;> rfl
  have hdrain := Run.drain_eq wf hb hat
  rw [moves_labelsOfPath wf distinct h, Moves.searches_notice, Moves.searches_append,
    Moves.searches_arrival, Moves.searches_visits, ← List.countP_append, Moves.solutions_notice,
    Moves.solutions_append, Moves.solutions_visits, hsolutions, hraised] at hdrain
  split
  · next hcount =>
    rw [List.singleton_append, if_pos hcount] at hdrain
    obtain ⟨r, hgiven, -, hsearches⟩ := hdrain
    exact ⟨r, hgiven, hsearches⟩
  · next hcount =>
    rw [List.singleton_append, if_neg hcount] at hdrain
    exact hdrain

/-- Let a search from the start give `all` in the end. After any of these solutions, resuming at it,
reported, gives the solutions that come later, in order, whatever tally is saved with it. What the
resumed run counts on top of the raised tally is what the search counts from that solution to its
end; only a full counter stops it. -/
theorem resume_gives_later (built : t.Built) (nodup : base.Nodup)
    (inRange : ∀ c ∈ base, c < t.columnCount)
    (distinct : ∀ row < t.rowCount, ∀ row' < t.rowCount, t.ones row ≠ [] →
      (t.ones row).toFinset = (t.ones row').toFinset → row = row') :
    ∃ m, base.foldlM Mesh.cover (.ofTable t) = .ok m ∧
      ∀ tally : Tally,
        let search := Problem.solve ⟨m, tally⟩
        if tally.searches.toNat + (t.preorder base []).countP (!t.isSolution base ·) <
            UInt64.size then
          ∃ all final, search.drain = .ok (all, final) ∧ ∀ n (hn : n < all.length),
            ∃ reached, search.take (n + 1) = .ok (all.take (n + 1), reached) ∧
              ∀ (counted : Tally) (saved : Option Tally),
                let raised := saved.elim counted counted.raiseTo
                let resumed := Problem.resume ⟨m, counted⟩ ⟨all[n], saved, true⟩
                if raised.searches.toNat + final.tally.searches.toNat <
                    UInt64.size + reached.tally.searches.toNat then
                  ∃ r, resumed.drain = .ok (all.drop (n + 1), r) ∧
                    r.tally.searches.toNat + reached.tally.searches.toNat =
                      raised.searches.toNat + final.tally.searches.toNat
                else resumed.drain = .error .tallyOverflow
        else search.drain = .error .tallyOverflow := by
  have wf := built.wellFormed
  have hb : t.Coverable base := ⟨nodup, inRange⟩
  refine ⟨.covering t base, Mesh.foldlM_cover_ofTable wf hb, fun tally => ?_⟩
  intro search
  have hat : Run.At t base search _ := Run.at_solve rfl
  have htally : search.tally = tally := rfl
  have hdrain := drain_solve wf hb tally
  split
  · next hcount =>
    rw [if_pos hcount] at hdrain
    obtain ⟨final, hall, hfinal⟩ := hdrain
    refine ⟨_, final, hall, fun n hn => ?_⟩
    rw [List.length_map] at hn
    obtain ⟨earlier, leaf, later, htree, hsol, hearlier, hleaf, hlater⟩ := exists_split_solution hn
    obtain ⟨ms, hms, hsolutions, hsearches, -⟩ : ∃ ms, t.moves base false [] =
          ms ++ .found (t.labelsOfPath leaf) :: later.flatMap (t.visit base 0) ∧ _ :=
      arrival_append_visits (preorder_eq.symm.trans htree) hsol
    have hsum : (t.preorder base []).countP (!t.isSolution base ·) =
        earlier.countP (!t.isSolution base ·) + later.countP (!t.isSolution base ·) := by
      simp [htree, hsol]
    rw [hms, Moves.told_append, Moves.told_found, ← List.cons_append] at hat
    rw [hearlier] at hsolutions
    obtain ⟨reached, htake, -, -, hreached⟩ := Run.take_found wf hb hat (n := n)
      (by
        rw [Moves.solutions_notice, Moves.solutions_told, hsolutions, List.length_map,
          List.length_take]
        omega)
      (by rw [Moves.searches_notice, Moves.searches_told, hsearches, htally]; omega)
    refine ⟨reached, ?_, fun counted saved => ?_⟩
    · rw [htake, Moves.solutions_notice, Moves.solutions_told, hsolutions, ← hleaf,
        ← List.map_take, List.take_succ_eq_append_getElem hn, List.map_append, List.map_singleton]
    · have hcounted : reached.tally.searches.toNat =
          tally.searches.toNat + earlier.countP (!t.isSolution base ·) := by
        rw [hreached, Moves.searches_notice, Moves.searches_told, hsearches, htally]
        exact Tally.searches_count (by omega)
      have hrest := drain_resumed wf hb distinct htree true counted saved
      have hbranches : (leaf :: later).countP (!t.isSolution base ·) =
          later.countP (!t.isSolution base ·) := by simp [hsol]
      simp only [if_true, hlater, hbranches] at hrest
      simp only [List.getElem_map, hleaf, ← List.map_drop]
      split
      · next hlt =>
        rw [if_pos (by omega)] at hrest
        obtain ⟨r, hgiven, hsearches'⟩ := hrest
        exact ⟨r, hgiven, by omega⟩
      · next hle =>
        rwa [if_neg (by omega)] at hrest
  · next hcount =>
    rw [if_neg hcount] at hdrain
    exact hdrain

/-- The case of `abc`, resumed at the checkpoint of its first solution. -/
theorem resume_gives_later_abc :
    let p := Problem.ofMesh (.ofTable abc)
    let all : List Solution := [[["a", "b"]], [["a"], ["b", "c"]], [["a"], ["b"]]]
    ∃ final reached, p.solve.drain = .ok (all, final) ∧
      p.solve.take 1 = .ok (all.take 1, reached) ∧
      ∃ r, (p.resume (Checkpoint.ofSolution all[0]).bookmark).drain = .ok (all.drop 1, r) ∧
        r.tally.searches.toNat + reached.tally.searches.toNat = final.tally.searches.toNat := by
  intro p all
  obtain ⟨m, hm, h⟩ := resume_gives_later built_abc List.nodup_nil (by decide) (by decide)
  obtain rfl : m = .ofTable abc := (Except.ok.inj hm).symm
  have hcount : Tally.zero.searches.toNat + (abc.preorder [] []).countP (!abc.isSolution [] ·) <
      UInt64.size := by decide +kernel
  have hdrained : p.solve.drain.map (fun given => (given.1, given.2.tally)) = .ok (all, ⟨0, 2⟩) := by
    decide +kernel
  have hzero := h .zero
  rw [if_pos hcount] at hzero
  obtain ⟨found, final, hfound, hlater⟩ := hzero
  obtain ⟨rfl, htally⟩ : found = all ∧ final.tally = ⟨0, 2⟩ := by
    simpa [p, Problem.ofMesh, hfound, Except.map] using hdrained
  obtain ⟨reached, htake, hresumed⟩ := hlater 0 (by decide)
  have hroom : 0 + final.tally.searches.toNat < UInt64.size + reached.tally.searches.toNat := by
    rw [htally]
    exact Nat.lt_add_right _ (by decide)
  obtain ⟨r, hdrain, hsearches⟩ := (if_pos hroom).mp (hresumed .zero (some .zero))
  exact ⟨final, reached, hfound, htake, r, hdrain, hsearches.trans (Nat.zero_add _)⟩

end Table

end Covering
