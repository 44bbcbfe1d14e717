import Covering.Proofs.Course
import Covering.Proofs.Mesh.Misuse

/-!
# Courses of covers

What a search does to a mesh, with every loop as long as its links lead, every place read or written
one that must exist, and every size checked as it changes. On sound meshes that can count their
sizes each of these courses ends with what the function of the mesh gives: `Sound.coverCourse_eq`,
`Sound.uncoverCourse_eq`, `Sound.chooseCourse_eq` and `Sound.pickCourse_eq`. So no walk misses the
head, no place is out of range, and no size leaves its range on the way.
-/

namespace Covering
set_option autoImplicit false

open Course

/-- Reads the links of `slot` and those of the neighbours that they name, all of which must exist:
to take the slot out or to put it back is to write the latter. -/
def Ring.reachCourse (r : Ring) (slot : Nat) : Course Unit := do
  let before ← read r.prev slot
  let after ← read r.next slot
  let _ ← read r.next before
  let _ ← read r.prev after
  return ()

namespace Mesh

/-! ## Courses -/

/-- The row that `column` has at `slot`, which must not be the head. -/
def rowCourse (m : Mesh) (column : Nat) : Nat → Course Nat
  | 0 => of (.error (.missingRow 0))
  | place + 1 => do
    let lane ← read m.lanes column
    let row ← read lane.rows place
    let _ ← read m.rows row
    return row

/-- `change` made for one knot, and the size of its lane checked. -/
def knotCourse (change : Lane → Nat → Lane) (m : Mesh) (knot : Knot) : Course Mesh := do
  let lane ← read m.lanes knot.column
  lane.ring.reachCourse knot.slot
  (m.onKnots change [knot]).checkedAt knot.column

/-- From `slot` on through the lane of `column`, `way` down or up, to the head: `change` is made for
the mates of each row, in some `order`. -/
def laneCourse (way : Ring → Array Nat) (change : Lane → Nat → Lane)
    (order : List Knot → List Knot) (column slot : Nat) (m : Mesh) : Course Mesh :=
  loop (fun (slot, m) => do
    let lane ← read m.lanes column
    let following ← read (way lane.ring) slot
    if following = 0 then
      return .inr m
    else
      let row ← m.rowCourse column following
      let m ← (order (m.mates row column)).foldlM (knotCourse change) m
      return .inl (following, m)) (slot, m)

/-- Covers `column`. -/
def coverCourse (m : Mesh) (column : Nat) : Course Mesh := do
  m.active.reachCourse (column + 1)
  laneCourse Ring.next Lane.unlink id column 0 { m with active := m.active.unlink (column + 1) }

/-- Uncovers `column`. -/
def uncoverCourse (m : Mesh) (column : Nat) : Course Mesh := do
  let m ← laneCourse Ring.prev Lane.relink List.reverse column 0 m
  m.active.reachCourse (column + 1)
  return { m with active := m.active.relink (column + 1) }

/-- Covers the other columns of the row that `column` has at `slot`. -/
def coverMatesCourse (m : Mesh) (column slot : Nat) : Course Mesh := do
  let row ← m.rowCourse column slot
  (m.mates row column).foldlM (fun m knot => m.coverCourse knot.column) m

/-- Uncovers the other columns of the row that `column` has at `slot`. -/
def showMatesCourse (m : Mesh) (column slot : Nat) : Course Mesh := do
  let row ← m.rowCourse column slot
  (m.mates row column).reverse.foldlM (fun m knot => m.uncoverCourse knot.column) m

/-- The first with the fewest rows of `best` and the columns after `slot` in the active ring. -/
def smallestCourse (m : Mesh) (slot best : Nat) : Course Nat :=
  loop (fun (slot, best) => do
    let following ← read m.active.next slot
    if following = 0 then
      return .inr best
    else
      let lane ← read m.lanes (following - 1)
      let least ← read m.lanes best
      return .inl (following, if lane.size < least.size then following - 1 else best)) (slot, best)

/-- Chooses the active column with the fewest rows. -/
def chooseCourse (m : Mesh) : Course (Option Nat) := do
  let first ← read m.active.next 0
  if first = 0 then
    return none
  else
    let best ← m.smallestCourse first (first - 1)
    return some best

/-- Tries the slot after `slot` in the lane of `column`. -/
def pickRound (m : Mesh) (wanted : Labels → Bool) (column slot : Nat) :
    Course (Nat ⊕ Option Nat) := do
  let lane ← read m.lanes column
  let following ← read lane.ring.next slot
  if following = 0 then
    return .inr none
  else
    let row ← m.rowCourse column following
    let labels ← read m.labels row
    return if wanted labels then .inr (some following) else .inl following

/-- The first slot after `slot` in the lane of `column` whose row has labels that are `wanted`. -/
def pickCourse (m : Mesh) (wanted : Labels → Bool) (column slot : Nat) : Course (Option Nat) :=
  loop (m.pickRound wanted column) slot

end Mesh

/-! ## Places that exist -/

theorem Ring.Joined.reachCourse_eq {r : Ring} {slot : Nat} (h : r.Joined slot slot) :
    r.reachCourse slot = of (.ok ()) := by
  simp only [reachCourse, read_eq h.1, read_eq h.2, ok_bind]
  rfl

theorem Ring.Rising.reachCourse_eq {r : Ring} {slot last : Nat} (h : r.Rising last)
    (hs : slot ≤ last) : r.reachCourse slot = of (.ok ()) := by
  obtain ⟨after, hnext, hup⟩ := h.next slot hs
  obtain ⟨before, hprev, hle, -⟩ := h.prev slot hs
  obtain ⟨_, hbefore, -⟩ := h.next before hle
  obtain ⟨_, hafter, -⟩ := h.prev after (by omega)
  simp only [reachCourse, read_eq hprev, read_eq hnext, read_eq hbefore, read_eq hafter, ok_bind]
  rfl

namespace Mesh

variable {t : Table} {m m' : Mesh} {change : Lane → Nat → Lane} {knots : List Knot}
  {c slot row : Nat} {xs : List Nat}

theorem read_lane (hc : c < m.lanes.size) : read m.lanes c = of (.ok (m.lane c)) :=
  read_eq (by simp [Mesh.lane, Array.getD_eq_getD_getElem?, hc])

namespace Sound

variable (wf : t.WellFormed) (h : Sound t m)
include h

theorem read_lane (hc : c < t.columnCount) : read m.lanes c = of (.ok (m.lane c)) :=
  Mesh.read_lane (h.lanes_size ▸ hc)

theorem reach_active (hc : c < t.columnCount) : m.active.reachCourse (c + 1) = of (.ok ()) := by
  by_cases hp : c < t.primaryCount
  · exact h.active_rising.reachCourse_eq hp
  · exact (h.alone c (Nat.le_of_not_lt hp) hc).reachCourse_eq

include wf

theorem rowCourse_eq (hc : c < t.columnCount) (h0 : slot ≠ 0)
    (hs : slot ≤ (t.holders c).length) :
    m.rowCourse c slot = of (.ok (m.rowAt c slot)) ∧ m.rowAt c slot < t.rowCount := by
  obtain ⟨place, rfl⟩ := Nat.exists_eq_succ_of_ne_zero h0
  have hrow : (m.lane c).rows[place]? = some (m.rowAt c (place + 1)) := by
    rw [Mesh.rowAt, Lane.rowAt, Array.getD_eq_getD_getElem?, h.lane_rows c hc]
    simp [Nat.lt_of_succ_le hs]
  have hlt : m.rowAt c (place + 1) < t.rowCount := by
    rw [h.lane_rows c hc, List.getElem?_toArray] at hrow
    exact Table.lt_rowCount_of_mem_ones (Table.mem_holders.1 (List.mem_of_getElem? hrow))
  have hsize : m.rows.size = t.rowCount := by
    rw [h.rows, (reads_ofTable wf).rows]
    simp
  have hknots : m.rows[m.rowAt c (place + 1)]? = some (m.knots (m.rowAt c (place + 1))) := by
    simp [Mesh.knots, Array.getD_eq_getD_getElem?, hsize, hlt]
  refine ⟨?_, hlt⟩
  simp only [rowCourse, h.read_lane hc, read_eq hrow, read_eq hknots, ok_bind]
  rfl

theorem read_labels (hrow : row < t.rowCount) :
    read m.labels row = of (.ok (m.labelsOfRow row)) := by
  have hsize : m.labels.size = t.rowCount := by
    rw [h.labels, (reads_ofTable wf).labels]
    simp
  exact read_eq (by simp [Mesh.labelsOfRow, Array.getD_eq_getD_getElem?, hsize, hrow])

theorem column_lt {k : Knot} (hk : k ∈ m.knots row) : k.column < t.columnCount := by
  have hknots : m.knots row = t.knots row := by
    rw [Mesh.knots, h.rows, ← Mesh.knots, (reads_ofTable wf).knots_eq]
  rw [hknots] at hk
  obtain ⟨d, hd, rfl⟩ := List.mem_map.1 hk
  exact wf.inRange row d hd

/-- Changes for knots of the mesh are made in range. -/
theorem foldlM_knotCourse (hchange : Lane.Steady change)
    (hknots : ∀ k ∈ knots, ∃ row, k ∈ m.knots row) :
    knots.foldlM (knotCourse change) m = of (m.onEach change knots) := by
  refine (foldlM_eq (fun s => Sound t s ∧ s.rows = m.rows) (fun k hk s hgood => ?_) ⟨h, rfl⟩).1
  obtain ⟨hs, hrows⟩ := hgood
  obtain ⟨row, hrow⟩ := hknots k hk
  have hrow' : k ∈ s.knots row := by rwa [Mesh.knots, hrows]
  have hc := hs.column_lt wf hrow'
  have hreach := (hs.lane_rising k.column hc).reachCourse_eq (hs.mem_knots wf hrow').2
  refine ⟨?_, fun s' hs' => ?_⟩
  · simp only [knotCourse, hs.read_lane hc, ok_bind, hreach]
    rfl
  · simp only [checkedAt] at hs'
    split at hs'
    · obtain rfl := Except.ok.inj hs'
      refine ⟨hs.onKnots wf hchange fun k' hk' => ?_, (onKnots_frame change s [k]).2.2.1.trans hrows⟩
      exact ⟨row, List.mem_singleton.1 hk' ▸ hrow'⟩
    · cases hs'

/-- A walk through a lane comes to the head, all on the way being in range. -/
theorem laneCourse_eq {way : Ring → Array Nat} {order : List Knot → List Knot} {links : Array Nat}
    (hchange : Lane.Steady change) (horder : ∀ ks, ∀ k ∈ order ks, k ∈ ks)
    (hc : c < t.columnCount) (hlinks : way (m.lane c).ring = links)
    (hleads : Ring.Leads links slot xs) (hxs : ∀ x ∈ xs, 0 < x ∧ x ≤ (t.holders c).length) :
    laneCourse way change order c slot m =
      of (m.onEach change (xs.flatMap fun slot => order (m.mates (m.rowAt c slot) c))) := by
  rw [laneCourse]
  induction hleads generalizing m with
  | home hlink =>
    rw [loop_eq]
    simp only [h.read_lane hc, ok_bind, hlinks, read_eq hlink, if_true, pure_eq]
    rfl
  | @onward slot following xs hlink hne _ ih =>
    obtain ⟨⟨hpos, hle⟩, hxs⟩ := List.forall_mem_cons.1 hxs
    have hknots : ∀ k ∈ order (m.mates (m.rowAt c following) c), ∃ row, k ∈ m.knots row :=
      fun k hk => ⟨_, (mem_mates (horder _ k hk)).1⟩
    rw [loop_eq, List.flatMap_cons, onEach_append]
    simp only [h.read_lane hc, ok_bind, hlinks, read_eq hlink, if_neg hne,
      (h.rowCourse_eq wf hc hne hle).1, h.foldlM_knotCourse wf hchange hknots]
    cases hwork : m.onEach change (order (m.mates (m.rowAt c following) c)) with
    | error fault =>
      rw [error_bind, error_bind]
      rfl
    | ok m' =>
      simp only [ok_bind, pure_eq]
      obtain rfl := onKnots_of_onEach hwork
      obtain ⟨hlane, hmates⟩ := onKnots_elsewhere change
        (fun k hk => (mem_mates (horder _ k hk)).2) (h.lanes_size ▸ hc)
      have hrest := ih (h.onKnots wf hchange hknots) (by rw [hlane, hlinks]) hxs
      simp only [hmates] at hrest
      exact hrest

/-- To cover a column ends. -/
theorem coverCourse_eq (hm : m.Counted) (hc : c < t.columnCount) :
    m.coverCourse c = of (m.cover c) := by
  have hlt : c < m.lanes.size := h.lanes_size ▸ hc
  obtain ⟨hleads, -, hin⟩ := (h.lane_rising c hc).slots
  have hlane := (h.active hc (.inl rfl)).laneCourse_eq wf Lane.steady_unlink
    (fun _ _ hk => hk) hc rfl hleads hin
  rw [onEach_eq (m := { m with active := m.active.unlink (c + 1) }) Lane.steady_unlink hm] at hlane
  rw [coverCourse, h.reach_active hc, ok_bind, cover, if_pos hlt]
  exact hlane

/-- To uncover a column ends. -/
theorem uncoverCourse_eq (hm : m.Counted) (hc : c < t.columnCount) :
    m.uncoverCourse c = of (m.uncover c) := by
  have hlt : c < m.lanes.size := h.lanes_size ▸ hc
  obtain ⟨hleads, hin⟩ := (h.lane_rising c hc).slotsBack
  have hlane := h.laneCourse_eq wf Lane.steady_relink
    (fun _ _ hk => List.mem_reverse.1 hk) hc rfl hleads hin
  rw [onEach_eq Lane.steady_relink hm] at hlane
  have hshown : Sound t (m.onKnots Lane.relink (m.returns c)) := h.onKnots wf Lane.steady_relink
    fun k hk => by
      obtain ⟨slot, -, hk⟩ := List.mem_flatMap.1 hk
      exact ⟨_, (mem_mates (List.mem_reverse.1 hk)).1⟩
  change laneCourse Ring.prev Lane.relink List.reverse c 0 m =
    of (m.onKnots Lane.relink (m.returns c)).checked at hlane
  rw [uncoverCourse, hlane, uncover, if_pos hlt, showColumn_eq]
  generalize m.onKnots Lane.relink (m.returns c) = shown at hshown
  rw [checked, checked]
  by_cases hall : shown.lanes.all (·.inRange) = true
  · rw [if_pos hall, if_pos hall, ok_bind, hshown.reach_active hc, ok_bind]
    rfl
  · rw [if_neg hall, if_neg hall, error_bind]

omit wf in
theorem smallestCourse_eq {best : Nat} (hbest : best < t.columnCount)
    (hleads : Ring.Leads m.active.next slot xs) (hxs : ∀ x ∈ xs, 0 < x ∧ x ≤ t.primaryCount) :
    m.smallestCourse slot best = of (.ok (m.smallest best (xs.map (· - 1)))) := by
  rw [smallestCourse]
  induction hleads generalizing best with
  | home hlink =>
    rw [loop_eq]
    simp only [read_eq hlink, ok_bind, if_true, pure_eq]
    rfl
  | @onward slot following xs hlink hne _ ih =>
    obtain ⟨⟨hpos, hle⟩, hxs⟩ := List.forall_mem_cons.1 hxs
    have hcolumn : following - 1 < t.columnCount := by
      have := Table.primaryCount_le (t := t)
      omega
    have hsmaller : (if (m.lane (following - 1)).size < (m.lane best).size then following - 1
        else best) < t.columnCount := by
      split
      · exact hcolumn
      · exact hbest
    rw [loop_eq, List.map_cons, smallest]
    simp only [read_eq hlink, ok_bind, if_neg hne, h.read_lane hcolumn, h.read_lane hbest, pure_eq]
    exact ih hsmaller hxs

omit wf in
/-- To choose a column ends. -/
theorem chooseCourse_eq : m.chooseCourse = of (.ok m.chooseColumn) := by
  obtain ⟨hleads, -, hin⟩ := h.active_rising.slots
  rw [chooseCourse, chooseColumn, Mesh.activeColumns]
  generalize m.active.slots = slots at hleads hin
  cases hleads with
  | home hlink =>
    rw [read_eq hlink, ok_bind, if_pos rfl]
    rfl
  | @onward _ first xs hlink hne hleads =>
    obtain ⟨⟨hpos, hle⟩, hxs⟩ := List.forall_mem_cons.1 hin
    have hfirst : first - 1 < t.columnCount := by
      have := Table.primaryCount_le (t := t)
      omega
    rw [read_eq hlink, ok_bind, if_neg hne, h.smallestCourse_eq hfirst hleads hxs, ok_bind]
    rfl

omit wf in
/-- The column that is chosen exists. -/
theorem chooseColumn_lt (hchoose : m.chooseColumn = some c) : c < t.columnCount := by
  have hsmallest : ∀ columns best, m.smallest best columns ∈ best :: columns := by
    intro columns
    induction columns with
    | nil => simp [smallest]
    | cons d columns ih =>
      intro best
      rw [smallest]
      split
      · exact List.mem_cons_of_mem _ (ih d)
      · rcases List.mem_cons.1 (ih best) with heq | hmem
        · rw [heq]
          exact List.mem_cons_self
        · exact List.mem_cons_of_mem _ (List.mem_cons_of_mem _ hmem)
  rw [chooseColumn] at hchoose
  split at hchoose
  · cases hchoose
  · next first rest hactive =>
    obtain rfl := Option.some.inj hchoose
    exact (h.activeColumns.2 _ (hactive ▸ hsmallest rest first)).trans_le Table.primaryCount_le

/-- To pick a row from a lane ends. -/
theorem pickCourse_eq (wanted : Labels → Bool) (hc : c < t.columnCount)
    (hs : slot ≤ (t.holders c).length) :
    m.pickCourse wanted c slot = of (.ok (((m.lane c).ring.after slot).find? fun slot =>
      wanted (m.labelsOfRow (m.rowAt c slot)))) := by
  obtain ⟨hleads, -, hlast⟩ := (h.lane_rising c hc).after hs
  rw [pickCourse]
  generalize (m.lane c).ring.after slot = xs at hleads hlast
  clear hs
  induction hleads with
  | home hlink =>
    rw [loop_eq, pickRound, h.read_lane hc, ok_bind, read_eq hlink, ok_bind, if_pos rfl, pure_eq,
      ok_bind]
    rfl
  | @onward slot following xs hlink hne _ ih =>
    obtain ⟨hle, hlast⟩ := List.forall_mem_cons.1 hlast
    obtain ⟨hrow, hlt⟩ := h.rowCourse_eq wf hc hne hle
    rw [loop_eq, pickRound, h.read_lane hc, ok_bind, read_eq hlink, ok_bind, if_neg hne, hrow,
      ok_bind, h.read_labels wf hlt, ok_bind, pure_eq, ok_bind, List.find?_cons]
    cases wanted (m.labelsOfRow (m.rowAt c following)) with
    | true => rfl
    | false => exact ih hlast

/-- What a change leaves is as sound. -/
theorem of_change (step : Change) (hc : step.column < t.columnCount)
    (hok : m.change step = .ok m') : Sound t m' ∧ m'.Counted := by
  rcases h.change wf hc with ⟨_, hok', hgood⟩ | ⟨herror, -⟩
  · exact Except.ok.inj (hok'.symm.trans hok) ▸ hgood
  · cases herror.symm.trans hok

/-- To cover the mates of a row ends, and what it leaves is as sound. -/
theorem coverMatesCourse_eq (hm : m.Counted) (hc : c < t.columnCount) (h0 : slot ≠ 0)
    (hs : slot ≤ (t.holders c).length) :
    m.coverMatesCourse c slot = of (m.coverMates c slot) ∧
      ∀ m', m.coverMates c slot = .ok m' → Sound t m' ∧ m'.Counted := by
  rw [coverMatesCourse, (h.rowCourse_eq wf hc h0 hs).1, ok_bind, coverMates]
  refine foldlM_eq (fun s => Sound t s ∧ s.Counted) (fun k hk s hgood => ?_) ⟨h, hm⟩
  obtain ⟨hsound, hcounted⟩ := hgood
  have hk' := h.column_lt wf (mem_mates hk).1
  exact ⟨hsound.coverCourse_eq wf hcounted hk', fun s' =>
    hsound.of_change wf (.cover k.column) hk'⟩

end Sound

/-! ## Nested covers -/

variable {cs ds : List Nat}

/-- Nested covers leave a sound mesh. -/
theorem sound_covering (wf : t.WellFormed) (hcs : t.Coverable cs) :
    Sound t (covering t cs) ∧ (covering t cs).Counted := by
  refine ⟨?_, (counted_of_checked (reads_covering wf hcs).checked_eq).2⟩
  induction cs using List.reverseRecOn with
  | nil => exact sound_ofTable wf
  | append_singleton cs c ih =>
    rw [covering_concat]
    exact (ih hcs.left).hideColumn wf hcs.last_lt

/-- Nested covers undone, with all sizes checked. -/
theorem foldlM_uncover (wf : t.WellFormed) (hcs : t.Coverable (cs ++ ds)) :
    ds.reverse.foldlM uncover (covering t (cs ++ ds)) = .ok (covering t cs) := by
  induction ds using List.reverseRecOn with
  | nil =>
    rw [List.append_nil]
    rfl
  | append_singleton ds d ih =>
    rw [← List.append_assoc] at hcs ⊢
    rw [List.reverse_append, List.reverse_singleton, List.singleton_append, List.foldlM_cons,
      uncover_covering wf hcs]
    exact ih hcs.left

/-- To uncover the mates of a row, innermost first, ends. -/
theorem showMatesCourse_covering (wf : t.WellFormed) (hc : c ∈ t.ones row)
    (hcs : t.Coverable (cs ++ t.mateColumns row c)) :
    (covering t (cs ++ t.mateColumns row c)).showMatesCourse c (t.slotOf c row) =
      of (.ok (covering t cs)) := by
  obtain ⟨h, hm⟩ := sound_covering wf hcs
  have hreads := reads_covering wf hcs
  have hlt := wf.inRange row c hc
  have hslot := Table.slotOf_mem (Table.mem_holders.2 hc)
  rw [showMatesCourse, (h.rowCourse_eq wf hlt (Nat.ne_of_gt hslot.1) hslot.2).1, ok_bind,
    hreads.rowAt_slotOf hlt hc]
  generalize hmates : Mesh.mates (covering t (cs ++ t.mateColumns row c)) row c = mates
  have hfold : mates.reverse.foldlM (fun m knot => m.uncoverCourse knot.column)
        (covering t (cs ++ t.mateColumns row c)) =
      of (mates.reverse.foldlM (fun m knot => m.uncover knot.column)
        (covering t (cs ++ t.mateColumns row c))) := by
    refine (foldlM_eq (fun s => Sound t s ∧ s.Counted) (fun k hk s hgood => ?_) ⟨h, hm⟩).1
    obtain ⟨hsound, hcounted⟩ := hgood
    have hk' := h.column_lt wf (mem_mates (hmates ▸ List.mem_reverse.1 hk)).1
    exact ⟨hsound.uncoverCourse_eq wf hcounted hk', fun s' =>
      hsound.of_change wf (.uncover k.column) hk'⟩
  have hundo := foldlM_uncover wf hcs
  rw [Table.mateColumns, ← List.map_reverse, List.foldlM_map] at hundo
  rw [hfold, ← hmates, hreads.mates_eq]
  exact congrArg of hundo

end Mesh

end Covering
