import Covering.Proofs.Mesh.Covers
import Covering.Proofs.SearchTree

/-!
# Uncovering what is not covered

A column that is uncovered a second time finds its rows linked already. Putting them back changes no
link, but every knot put back is counted once more in its lane. Main statement,
`Mesh.Reads.showMates_of_notCovered`: the same of a row whose other columns are uncovered a second time. To
count knots again and to uncover columns can be exchanged, so the surplus stays to the end; it is
there unless there was no knot to count, `Mesh.countAgain_eq_self_iff`.
-/

namespace Covering
set_option autoImplicit false

namespace Ring

variable {r : Ring} {xs slots : List Nat} {x : Nat}

/-- A linked slot that is put back stays where it is. -/
theorem Spells.relink (h : r.Spells xs) (hx : x ∈ xs) : r.relink x = r := by
  obtain ⟨as, bs, rfl⟩ := List.append_of_mem hx
  obtain ⟨h1, h2⟩ := path_append_iff.1 h.path
  obtain ⟨p, -, hp⟩ := h1.prev_eq
  obtain ⟨q, -, hq⟩ := h2.next_eq
  obtain ⟨next, prev⟩ := r
  have hbefore : prev.getD x 0 = p := by simp [Array.getD_eq_getD_getElem?, hp.2]
  have hafter : next.getD x 0 = q := by simp [Array.getD_eq_getD_getElem?, hq.1]
  simp only [Ring.relink, hbefore, hafter]
  rw [setIfInBounds_self hp.1, setIfInBounds_self hq.2]

theorem Spells.foldl_relink (h : r.Spells xs) (hs : slots ⊆ xs) : slots.foldl Ring.relink r = r := by
  induction slots with
  | nil => rfl
  | cons slot slots ih =>
    obtain ⟨hslot, hslots⟩ := List.cons_subset.1 hs
    rw [List.foldl_cons, h.relink hslot]
    exact ih hslots

end Ring

namespace Lane

variable {l : Lane} {slots slots' : List Nat}

/-- Counts a linked knot once more. -/
def countAgain (l : Lane) (_slot : Nat) : Lane := { l with size := l.size + 1 }

theorem foldl_countAgain : slots.foldl countAgain l = { l with size := l.size + slots.length } := by
  induction slots generalizing l with
  | nil => simp
  | cons slot slots ih =>
    rw [List.foldl_cons, ih]
    simp [countAgain]
    omega

/-- Linked knots that are put back are counted again, and that is all. -/
theorem foldl_relink_of_linked {xs : List Nat} (h : l.ring.Spells xs) (hs : slots ⊆ xs) :
    slots.foldl relink l = slots.foldl countAgain l := by
  rw [foldl_relink, foldl_countAgain, h.foldl_relink hs]

theorem foldl_relink_countAgain : slots.foldl relink (slots'.foldl countAgain l) =
    slots'.foldl countAgain (slots.foldl relink l) := by
  simp only [foldl_relink, foldl_countAgain, Int.add_right_comm]

end Lane

namespace Mesh

variable {t : Table} {m : Mesh} {cs : List Nat} {ks ks' : List Knot} {k : Knot}
  {c d row slot : Nat}

/-! ## Counting again -/

/-- The mesh with each of `knots` counted once more in its lane. -/
def countAgain (m : Mesh) (knots : List Knot) : Mesh := m.onKnots Lane.countAgain knots

theorem countAgain_nil : m.countAgain [] = m := rfl

theorem countAgain_append : m.countAgain (ks ++ ks') = (m.countAgain ks).countAgain ks' :=
  List.foldl_append ..

theorem lanes_size_countAgain : (m.countAgain ks).lanes.size = m.lanes.size :=
  (onKnots_frame Lane.countAgain m ks).2.2.2.2

theorem lane_countAgain (hd : d < m.lanes.size) : (m.countAgain ks).lane d =
    { m.lane d with size := (m.lane d).size + ks.countP (·.column == d) } := by
  rw [countAgain, lane_onKnots Lane.countAgain m ks hd, Lane.foldl_countAgain, List.length_map,
    List.countP_eq_length_filter]

/-- Knots are counted in lanes only, and not in their links. -/
theorem lane_links_countAgain (m : Mesh) (ks : List Knot) (c : Nat) :
    ((m.countAgain ks).lane c).rows = (m.lane c).rows ∧
      ((m.countAgain ks).lane c).ring = (m.lane c).ring := by
  by_cases hc : c < m.lanes.size
  · rw [lane_countAgain hc]
    exact ⟨rfl, rfl⟩
  · have hc' : ¬c < (m.countAgain ks).lanes.size := by rwa [lanes_size_countAgain]
    simp [Mesh.lane, Array.getD_eq_getD_getElem?, hc, hc']

@[simp] theorem mates_countAgain : (m.countAgain ks).mates row c = m.mates row c := by
  simp only [Mesh.mates, Mesh.knots, countAgain, (onKnots_frame Lane.countAgain m ks).2.2.1]

@[simp] theorem rowAt_countAgain : (m.countAgain ks).rowAt c slot = m.rowAt c slot := by
  simp only [Mesh.rowAt, Lane.rowAt, (lane_links_countAgain m ks c).1]

@[simp] theorem returns_countAgain : (m.countAgain ks).returns c = m.returns c := by
  simp only [Mesh.returns, Lane.rowAt, (lane_links_countAgain m ks c).1,
    (lane_links_countAgain m ks c).2, mates_countAgain]

/-- Knots counted again show in the sizes. -/
theorem countAgain_eq_self_iff (h : ∀ k ∈ ks, k.column < m.lanes.size) :
    m.countAgain ks = m ↔ ks = [] := by
  constructor
  · intro hsame
    cases ks with
    | nil => rfl
    | cons k ks =>
      have hsize := congrArg (fun m => (m.lane k.column).size) hsame
      simp only [lane_countAgain (h k List.mem_cons_self), List.countP_cons_of_pos, beq_self_eq_true]
        at hsize
      omega
  · rintro rfl
    exact countAgain_nil

/-! ## Uncovering with knots counted again -/

/-- What is counted too much before a column is uncovered is so after it. -/
theorem showColumn_countAgain : (m.countAgain ks).showColumn c = (m.showColumn c).countAgain ks := by
  obtain ⟨h1, h2, h3, h4, h5⟩ := onKnots_frame Lane.countAgain m ks
  obtain ⟨f1, f2, f3, f4, f5⟩ := (m.countAgain ks).showColumn_frame c
  obtain ⟨g1, g2, g3, g4, g5⟩ := m.showColumn_frame c
  obtain ⟨e1, e2, e3, e4, e5⟩ := onKnots_frame Lane.countAgain (m.showColumn c) ks
  refine eq_of_lanes (f1.trans (h1.trans (e1.trans g1).symm)) (f2.trans (h2.trans (e2.trans g2).symm))
    (f3.trans (h3.trans (e3.trans g3).symm)) ?_ (f5.trans (h5.trans (e5.trans g5).symm))
    fun d hd => ?_
  · rw [f4, countAgain, h4]
    exact (e4.trans g4).symm
  · have hd' : d < m.lanes.size := by rwa [f5, lanes_size_countAgain] at hd
    rw [lane_showColumn _ _ (by rwa [lanes_size_countAgain]), returns_countAgain, countAgain,
      countAgain, lane_onKnots _ _ _ hd', lane_onKnots _ _ _ (by rwa [g5]), lane_showColumn _ _ hd',
      Lane.foldl_relink_countAgain]

theorem showMates_countAgain :
    (m.countAgain ks).showMates c slot = (m.showMates c slot).countAgain ks := by
  simp only [showMates, rowAt_countAgain, mates_countAgain]
  generalize (m.mates (m.rowAt c slot) c).reverse = mates
  induction mates generalizing m with
  | nil => rfl
  | cons knot mates ih => rw [List.foldl_cons, List.foldl_cons, showColumn_countAgain, ih]

/-! ## Uncovering a second time -/

section

variable (h : Reads t cs m) (wf : t.WellFormed)
include h

/-- The active ring keeps a column that is in it, and takes no secondary one. -/
theorem Reads.relink_active (hc : c < t.columnCount) (hcs : c ∉ cs) :
    m.active.relink (c + 1) = m.active := by
  by_cases hp : c < t.primaryCount
  · have hopen := Table.mem_openColumns.2 ⟨hp, show c ∉ cs.toFinset by simpa using hcs⟩
    exact h.active.relink (List.mem_map_of_mem hopen)
  · exact Ring.relink_of_joined_self (h.alone c (Nat.le_of_not_lt hp) hc)

include wf

/-- A column that is not covered is uncovered. -/
theorem Reads.showColumn_of_notCovered (hc : c < t.columnCount) (hcs : c ∉ cs) :
    m.showColumn c = m.countAgain (m.returns c) := by
  obtain ⟨g1, g2, g3, g4, g5⟩ := m.showColumn_frame c
  obtain ⟨e1, e2, e3, e4, e5⟩ := onKnots_frame Lane.countAgain m (m.returns c)
  refine eq_of_lanes (g1.trans e1.symm) (g2.trans e2.symm) (g3.trans e3.symm) ?_ (g5.trans e5.symm)
    fun d hd => ?_
  · rw [g4, h.relink_active hc hcs]
    exact e4.symm
  · have hd' : d < m.lanes.size := by rwa [g5] at hd
    have hdt : d < t.columnCount := h.lanes_size ▸ hd'
    rw [countAgain, lane_showColumn _ _ hd', lane_onKnots _ _ _ hd', h.returns_eq hc,
      List.filter_reverse, List.map_reverse]
    by_cases hdc : d = c
    · rw [hdc, Table.conflicts_filter_self]
      rfl
    · rw [wf.conflicts_filter hdc]
      refine Lane.foldl_relink_of_linked (h.lane_ring d hdt) ?_
      exact (List.reverse_subset.2 (Table.gone_slots_subset hcs))

/-- The other columns of a row, none of which is covered, are uncovered. -/
theorem Reads.showMates_of_notCovered (hone : c ∈ t.ones row)
    (hcs : t.Coverable (cs ++ t.mateColumns row c)) :
    m.showMates c (t.slotOf c row) =
      m.countAgain ((m.mates row c).flatMap fun knot => m.returns knot.column) := by
  rw [showMates, h.rowAt_slotOf (wf.inRange row c hone) hone, List.foldl_reverse]
  have hmates : ∀ knot ∈ m.mates row c, knot.column < t.columnCount ∧ knot.column ∉ cs := by
    intro knot hknot
    have hcolumn : knot.column ∈ t.mateColumns row c :=
      List.mem_map_of_mem (h.mates_eq ▸ hknot)
    exact ⟨hcs.2 _ (List.mem_append_right _ hcolumn), fun hmem =>
      (List.nodup_append'.1 hcs.1).2.2 hmem hcolumn⟩
  -- The last column comes first, and what has been counted again moves past each of the others.
  generalize m.mates row c = mates at hmates
  induction mates with
  | nil => rfl
  | cons knot mates ih =>
    obtain ⟨⟨hlt, hnot⟩, hrest⟩ := List.forall_mem_cons.1 hmates
    rw [List.foldr_cons, ih hrest, showColumn_countAgain, h.showColumn_of_notCovered wf hlt hnot,
      List.flatMap_cons, countAgain_append]

/-- Only knots of the table come back. -/
theorem Reads.column_lt_of_mem_returns (hc : c < t.columnCount) (hk : k ∈ m.returns c) :
    k.column < t.columnCount := by
  rw [h.returns_eq hc, List.mem_reverse] at hk
  obtain ⟨row, -, hmate⟩ := List.mem_flatMap.1 hk
  exact wf.inRange row _ (Table.mem_mateColumns.1 (List.mem_map_of_mem hmate)).1

end

end Mesh

end Covering
