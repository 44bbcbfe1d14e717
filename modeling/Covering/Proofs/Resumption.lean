import Covering.Proofs.Run.Calls
import Covering.Proofs.SearchTree.Following

/-!
# What a resumed search still finds

A search can be resumed with any saved path. It follows the path as far as it can and then searches
what comes after the node reached, including the subtree of that node if the path ends there:
`Table.resumedNodes`. Nothing is done on the way to that node (`Table.arrival_append_follows`), and
what is done after it visits those nodes, with all that they count and find.
-/

namespace Covering
set_option autoImplicit false

namespace Table

variable {t : Table} {base path node : List Nat} {saved : List Labels} {depth : Nat}
  {reported : Bool}

/-- The nodes that a search resumed with `saved` visits. If the path is used up at a node, these are
its subtree and all after it. If a solution comes before the end of the path, they are this solution
and all after it. If no child fits, they are those after the subtree. -/
def resumedNodes (t : Table) (base : List Nat) (saved : List Labels) : List (List Nat) :=
  match t.follow base saved [] with
  | (node, []) => t.preorder base node ++ t.afterSubtree base node
  | (node, _ :: _) =>
    if t.isSolution base node then node :: t.afterSubtree base node else t.afterSubtree base node

/-- The solutions that it gives: not the one at the end of the path if that is reported. -/
def resumedSolutions (t : Table) (base : List Nat) (saved : List Labels) (reported : Bool) :
    List (List Nat) :=
  ((t.resumedNodes base saved).filter (t.isSolution base)).filter fun node =>
    !(reported && t.follow base saved [] == (node, []))

/-- What is done at the node where following a path ends, and below it. -/
def landing (t : Table) (base : List Nat) (depth : Nat) (reported : Bool) :
    List Nat × List Labels → List Move
  | (node, []) =>
    t.arrival base reported [] node ++ (t.descendants base node).flatMap (t.visit base depth)
  | (node, wanted :: later) =>
    t.arrival base reported (wanted :: later) node ++
      if t.isSolution base node then [] else [.notice (.pathUnmatched node.length)]

/-- Following a path, nothing is done before its end. -/
theorem arrival_append_follows (saved : List Labels) (path : List Nat) :
    t.arrival base reported saved path ++ t.follows base depth reported saved path =
      t.landing base depth reported (t.follow base saved path) ++
        (t.passed base saved path).flatMap (t.visit base depth) := by
  induction saved generalizing path with
  | nil => simp [follow, passed, landing, follows]
  | cons wanted later ih =>
    rw [follow, passed, follows, List.find?_eq_head?_dropWhile_not]
    cases hdrop : (t.children base path).dropWhile fun row => !(t.labels row == wanted) with
    | nil => simp [landing]
    | cons row after =>
      have hsol : ¬t.isSolution base path := by
        intro hsol
        rw [children_of_isSolution hsol] at hdrop
        simp at hdrop
      have harrival : t.arrival base reported (wanted :: later) path = [] := by
        rw [arrival, if_neg hsol]
      simp only [List.head?_cons, harrival, List.nil_append, List.flatMap_append, ih,
        List.append_assoc]

/-- The node where following a path ends is not visited again. -/
theorem follow_notMem_rest (base : List Nat) (saved : List Labels) : (t.follow base saved []).1 ∉
    t.descendants base (t.follow base saved []).1 ++
      t.afterSubtree base (t.follow base saved []).1 := by
  obtain ⟨earlier, h⟩ := preorder_eq_append_passed (t := t) base saved []
  have hnodup := preorder_nodup (t := t) base []
  rw [h, passed_eq, List.append_assoc, preorder_eq, List.cons_append] at hnodup
  exact (List.nodup_cons.1 (List.nodup_append'.1 hnodup).2.1).1

/-- The solutions among the moves of a resumed search. -/
theorem solutions_moves : Moves.solutions (t.moves base reported saved) =
    (t.resumedSolutions base saved reported).map t.labelsOfPath := by
  have hrest := follow_notMem_rest (t := t) base saved
  rw [moves, arrival_append_follows, passed_eq, resumedSolutions, resumedNodes,
    Moves.solutions_append, Moves.solutions_visits]
  generalize t.follow base saved [] = reached at hrest ⊢
  obtain ⟨node, left⟩ := reached
  cases left with
  | nil =>
    simp only [landing, Moves.solutions_append, Moves.solutions_visits] at hrest ⊢
    rw [preorder_eq, List.cons_append, ← List.singleton_append, List.append_assoc,
      ← List.map_append, ← List.filter_append, List.filter_append [node],
      List.filter_append ([node].filter _), List.map_append]
    congr 1
    · cases reported with
      | false => simp [Moves.solutions_arrival]
      | true =>
        rw [arrival]
        cases t.isSolution base node <;> simp [Moves.solutions]
    · congr 1
      refine (List.filter_eq_self.2 fun other hother => ?_).symm
      have hne : node ≠ other := by
        intro e
        exact hrest (e ▸ (List.mem_filter.1 hother).1)
      simp [hne]
  | cons wanted later =>
    have hleft : ∀ other, ((node, wanted :: later) == (other, ([] : List Labels))) = false := by
      simp
    simp only [hleft, Bool.and_false, Bool.not_false, List.filter_true]
    by_cases hsol : t.isSolution base node
    · simp [landing, arrival, hsol, Moves.solutions]
    · simp [landing, arrival, hsol, Moves.solutions]

/-- The searches counted among the moves of a resumed search. -/
theorem searches_moves : Moves.searches (t.moves base reported saved) =
    (t.resumedNodes base saved).countP (!t.isSolution base ·) := by
  rw [moves, arrival_append_follows, passed_eq, resumedNodes, Moves.searches_append,
    Moves.searches_visits]
  obtain ⟨node, left⟩ := t.follow base saved []
  cases left with
  | nil =>
    simp only [landing]
    rw [Moves.searches_append, Moves.searches_arrival, Moves.searches_visits, ← List.countP_append,
      List.singleton_append, ← preorder_eq, List.countP_append]
  | cons wanted later =>
    by_cases hsol : t.isSolution base node
    · simp [landing, arrival, hsol, Moves.searches]
    · simp [landing, arrival, hsol, Moves.searches]

/-- If the rows that are not empty differ in their columns, the labels of a node lead a resumed
search back to it, and what is left there are the nodes after it in preorder. -/
theorem moves_labelsOfPath (wf : t.WellFormed)
    (distinct : ∀ row < t.rowCount, ∀ row' < t.rowCount, t.ones row ≠ [] →
      (t.ones row).toFinset = (t.ones row').toFinset → row = row')
    {earlier later : List (List Nat)} (h : t.preorder base [] = earlier ++ node :: later) :
    t.moves base reported (t.labelsOfPath node) = t.arrival base reported [] node ++
      later.flatMap (t.visit base (t.labelsOfPath node).length) := by
  have hmem : [] ++ node ∈ t.preorder base [] := by
    rw [h]
    simp
  have hfollow := follow_labelsOfPath wf distinct hmem
  obtain ⟨earlier', hsplit⟩ := preorder_eq_append_passed (t := t) base (t.labelsOfPath node) []
  have hnode : t.preorder base node = node :: t.descendants base node := preorder_eq
  rw [List.nil_append] at hfollow
  rw [hfollow, hnode, List.append_assoc, List.cons_append] at hsplit
  have hrest := later_unique h hsplit
  rw [hrest, moves, arrival_append_follows, hfollow, landing, List.flatMap_append, List.append_assoc]

/-- Draining a search resumed with any bookmark gives the solutions that the bookmark leaves, in
the order of the tree, and counts the nodes visited that branch on top of the raised tally. It comes
to an end unless the counter cannot count them. -/
theorem resume_gives_rest (built : t.Built) (nodup : base.Nodup)
    (inRange : ∀ c ∈ base, c < t.columnCount) :
    ∃ m, base.foldlM Mesh.cover (.ofTable t) = .ok m ∧
      ∀ (tally : Tally) (b : Bookmark),
        let raised := b.tally.elim tally tally.raiseTo
        let counted := raised.searches.toNat +
          (t.resumedNodes base b.path).countP (!t.isSolution base ·)
        if counted < UInt64.size then
          ∃ r, (Problem.resume ⟨m, tally⟩ b).drain =
              .ok ((t.resumedSolutions base b.path b.reported).map (·.map m.labelsOfRow), r) ∧
            r.tally.solutions = raised.solutions ∧ r.tally.searches.toNat = counted
        else (Problem.resume ⟨m, tally⟩ b).drain = .error .tallyOverflow := by
  have wf := built.wellFormed
  have hb : t.Coverable base := ⟨nodup, inRange⟩
  refine ⟨.covering t base, Mesh.foldlM_cover_ofTable wf hb, fun tally b => ?_⟩
  have hat := Run.at_resume (p := ⟨.covering t base, tally⟩) b rfl
  have htally : (Problem.resume ⟨.covering t base, tally⟩ b).tally =
      b.tally.elim tally tally.raiseTo := by
    cases h : b.tally <;> simp [Problem.resume, Run.start, h]
  have hdrain := Run.drain_eq wf hb hat
  rw [Moves.searches_notice, searches_moves, Moves.solutions_notice, solutions_moves, htally]
    at hdrain
  intro raised counted
  rw [(Mesh.reads_covering wf hb).map_labelsOfRow]
  exact hdrain

/-- The case of `abc`, resumed with a path that ends at the first of its solutions. -/
theorem resume_gives_rest_abc :
    let b : Bookmark := ⟨[["a", "b"]], some ⟨0, 1⟩, true⟩
    ∃ r, ((Problem.ofMesh (.ofTable abc)).resume b).drain =
        .ok ([[["a"], ["b", "c"]], [["a"], ["b"]]], r) ∧
      r.tally.solutions = 0 ∧ r.tally.searches.toNat = 2 := by
  intro b
  obtain ⟨m, hm, h⟩ := resume_gives_rest built_abc List.nodup_nil (by decide)
  obtain rfl : m = .ofTable abc := (Except.ok.inj hm).symm
  have hrest := h .zero b
  have hcounted : (abc.resumedNodes [] b.path).countP (!abc.isSolution [] ·) = 1 := by
    decide +kernel
  have hsolutions : (abc.resumedSolutions [] b.path true).map
      (·.map (Mesh.ofTable abc).labelsOfRow) = [[["a"], ["b", "c"]], [["a"], ["b"]]] := by
    decide +kernel
  simp only [hcounted] at hrest
  rw [if_pos (by decide), hsolutions] at hrest
  exact hrest

end Table

end Covering
