import Covering.Proofs.Mesh.Changes
import Covering.Proofs.Ring.Walks

/-!
# Covers and uncovers in any order

A caller may cover a column twice, uncover columns in another order than the one in which they were
covered, or uncover one that never was. The rings then show no sensible rows any more, but what
`Mesh.Sound` says is kept by every change: links rise, and whatever is no link is as built. Main
statement, `Mesh.foldlM_change_any_order`: so every change comes to an end, and the only thing that
can go wrong with it is that a lane cannot count its size.

That a change ends is said of its loop without a bound: `Mesh.Loop` reads each link when it gets
there, and checks each size as it changes.
-/

namespace Covering
set_option autoImplicit false

/-- The column that a change is about. -/
def Change.column : Change → Nat
  | .cover column => column
  | .uncover column => column

namespace Lane

variable {l : Lane} {slot : Nat} {slots : List Nat}

/-- A change at one slot that keeps the rows, lets links rise, and leads back into the range of
sizes by no number of repetitions once it has led out of it. -/
structure Steady (change : Lane → Nat → Lane) : Prop where
  rows : ∀ (l : Lane) (slot : Nat), (change l slot).rows = l.rows
  rising : ∀ (l : Lane) (slot last : Nat), l.ring.Rising last → slot ≠ 0 → slot ≤ last →
    (change l slot).ring.Rising last
  stays_out : ∀ (l : Lane) (slot : Nat) (slots : List Nat), l.inRange → ¬(change l slot).inRange →
    ¬(slots.foldl change (change l slot)).inRange

/-- No 64-bit word is the size. -/
def NoWord (l : Lane) : Prop := l.size < 0 ∨ (UInt64.size : Int) ≤ l.size

theorem inRange_iff : l.inRange ↔ 0 ≤ l.size ∧ l.size ≤ l.capacity := by
  rw [inRange, Bool.and_eq_true, decide_eq_true_eq, decide_eq_true_eq]

theorem steady_unlink : Steady unlink where
  rows _ _ := rfl
  rising _ _ _ h h0 hs := h.unlink h0 hs
  stays_out l slot slots hin hout := by
    rw [foldl_unlink]
    simp only [inRange_iff, unlink, capacity] at *
    omega

theorem steady_relink : Steady relink where
  rows _ _ := rfl
  rising _ _ _ h h0 hs := h.relink h0 hs
  stays_out l slot slots hin hout := by
    rw [foldl_relink]
    simp only [inRange_iff, relink, capacity] at *
    omega

theorem Steady.foldl_rows {change : Lane → Nat → Lane} (h : Steady change) :
    (slots.foldl change l).rows = l.rows := by
  induction slots generalizing l with
  | nil => rfl
  | cons slot slots ih => exact ih.trans (h.rows l slot)

theorem Steady.foldl_rising {change : Lane → Nat → Lane} {last : Nat} (h : Steady change)
    (hl : l.ring.Rising last) (hs : ∀ slot ∈ slots, slot ≠ 0 ∧ slot ≤ last) :
    (slots.foldl change l).ring.Rising last := by
  induction slots generalizing l with
  | nil => exact hl
  | cons slot slots ih =>
    obtain ⟨⟨h0, hle⟩, hs⟩ := List.forall_mem_cons.1 hs
    exact ih (h.rising l slot last hl h0 hle) hs

end Lane

namespace Mesh

variable {t : Table} {m m' : Mesh} {knots knots' : List Knot} {c d slot : Nat} {xs : List Nat}

section Loops

variable {change : Lane → Nat → Lane}

/-! ## Sizes checked one by one -/

/-- The mesh itself, if the lane of `column` can count its size. -/
def checkedAt (m : Mesh) (column : Nat) : Except Fault Mesh :=
  if (m.lane column).inRange then .ok m else .error .sizeOutOfRange

/-- `change` made in its lane for each of `knots`, each size checked as it changes. -/
def onEach (change : Lane → Nat → Lane) (m : Mesh) (knots : List Knot) : Except Fault Mesh :=
  knots.foldlM (fun m knot => (m.onKnots change [knot]).checkedAt knot.column) m

/-- Every lane can count its size. -/
def Counted (m : Mesh) : Prop := ∀ d < m.lanes.size, (m.lane d).inRange

theorem counted_iff : m.Counted ↔ m.lanes.all (·.inRange) = true := by
  rw [Array.all_eq_true]
  refine forall_congr' fun d => forall_congr' fun hd => ?_
  have hlane : m.lane d = m.lanes[d] := by simp [Mesh.lane, Array.getD_eq_getD_getElem?, hd]
  rw [hlane]

theorem checked_of_counted (h : m.Counted) : m.checked = .ok m := if_pos (counted_iff.1 h)

theorem checked_of_not_counted (h : ¬m.Counted) : m.checked = .error .sizeOutOfRange :=
  if_neg fun hall => h (counted_iff.2 hall)

theorem counted_of_checked (h : m.checked = .ok m') : m' = m ∧ m.Counted := by
  by_cases hm : m.Counted
  · rw [checked_of_counted hm] at h
    exact ⟨(Except.ok.inj h).symm, hm⟩
  · rw [checked_of_not_counted hm] at h
    cases h

/-- A lane after a change for one knot. -/
theorem lane_onKnots_singleton {k : Knot} (hd : d < m.lanes.size) :
    (m.onKnots change [k]).lane d =
      if k.column = d then change (m.lane d) k.slot else m.lane d := by
  rw [lane_onKnots change m [k] hd, List.filter_singleton]
  by_cases hk : k.column = d
  · simp [hk]
  · simp [hk, beq_eq_false_iff_ne.2 hk]

/-- To check each size as it changes comes to the same as to check all of them in the end. -/
theorem onEach_eq (hchange : Lane.Steady change) (h : m.Counted) :
    m.onEach change knots = (m.onKnots change knots).checked := by
  induction knots generalizing m with
  | nil => exact (checked_of_counted h).symm
  | cons k knots ih =>
    have hcons : m.onKnots change (k :: knots) = (m.onKnots change [k]).onKnots change knots := rfl
    have hsize : (m.onKnots change [k]).lanes.size = m.lanes.size :=
      (onKnots_frame change m [k]).2.2.2.2
    rw [onEach, List.foldlM_cons, checkedAt]
    by_cases hk : ((m.onKnots change [k]).lane k.column).inRange
    · have hcounted : (m.onKnots change [k]).Counted := by
        intro d hd
        by_cases hkd : k.column = d
        · exact hkd ▸ hk
        · rw [lane_onKnots_singleton (hsize ▸ hd), if_neg hkd]
          exact h d (hsize ▸ hd)
      rw [if_pos hk, hcons]
      exact ih hcounted
    · have hlt : k.column < m.lanes.size := by
        by_contra hge
        have hempty : (m.onKnots change [k]).lane k.column = .empty := by
          simp [Mesh.lane, Array.getD_eq_getD_getElem?, hsize, Nat.le_of_not_lt hge]
        rw [hempty] at hk
        exact hk (by decide)
      have hout : ¬(m.onKnots change (k :: knots)).Counted := by
        intro hall
        have hfinal := hall k.column (by rwa [(onKnots_frame change m (k :: knots)).2.2.2.2])
        rw [lane_onKnots_singleton hlt, if_pos rfl] at hk
        rw [lane_onKnots change m (k :: knots) hlt, List.filter_cons_of_pos (by simp)] at hfinal
        exact hchange.stays_out _ _ _ (h k.column hlt) hk hfinal
      rw [if_neg hk, checked_of_not_counted hout]
      rfl

/-! ## Loops -/

/-- A loop along `link` from `slot` to the head, with `work` at each slot on the way. The link of a
slot is read when the work before it is done. -/
inductive Loop (link : Mesh → Nat → Option Nat) (work : Mesh → Nat → Except Fault Mesh) :
    Nat → Mesh → Except Fault Mesh → Prop where
  | home {slot : Nat} {m : Mesh} : link m slot = some 0 → Loop link work slot m (.ok m)
  | fault {slot following : Nat} {m : Mesh} {fault : Fault} : link m slot = some following →
      following ≠ 0 → work m following = .error fault → Loop link work slot m (.error fault)
  | onward {slot following : Nat} {m m' : Mesh} {result : Except Fault Mesh} :
      link m slot = some following → following ≠ 0 → work m following = .ok m' →
      Loop link work following m' result → Loop link work slot m result

/-- A loop through the lane of `column`, `way` down or up, that makes `change` for the mates of each
row on the way, these in some `order`. -/
def LaneLoop (way : Ring → Array Nat) (change : Lane → Nat → Lane) (order : List Knot → List Knot)
    (column : Nat) : Nat → Mesh → Except Fault Mesh → Prop :=
  Loop (fun m slot => (way (m.lane column).ring)[slot]?)
    fun m slot => m.onEach change (order (m.mates (m.rowAt column slot) column))

/-- To cover `column` comes to `result`: it leaves the active ring, and down its lane the mates of
each row leave their lanes. -/
def CoverEnds (m : Mesh) (column : Nat) (result : Except Fault Mesh) : Prop :=
  LaneLoop Ring.next Lane.unlink id column 0
    { m with active := m.active.unlink (column + 1) } result

/-- To uncover `column` comes to `result`: up its lane the mates of each row return to their lanes,
and then it returns to the active ring. -/
def UncoverEnds (m : Mesh) (column : Nat) (result : Except Fault Mesh) : Prop :=
  ∃ shown, LaneLoop Ring.prev Lane.relink List.reverse column 0 m shown ∧
    result = shown.map fun m => { m with active := m.active.relink (column + 1) }

theorem mem_mates {row : Nat} {k : Knot} (h : k ∈ m.mates row c) :
    k ∈ m.knots row ∧ k.column ≠ c := by
  simp only [mates, List.mem_append, List.mem_filter, decide_eq_true_eq] at h
  rcases h with ⟨hk, hlt⟩ | ⟨hk, hlt⟩
  · exact ⟨hk, Nat.ne_of_gt hlt⟩
  · exact ⟨hk, Nat.ne_of_lt hlt⟩

theorem onKnots_of_onEach (h : m.onEach change knots = .ok m') : m' = m.onKnots change knots := by
  induction knots generalizing m with
  | nil => exact (Except.ok.inj h).symm
  | cons k knots ih =>
    rw [onEach, List.foldlM_cons, checkedAt] at h
    split at h
    · exact ih h
    · cases h

theorem onEach_append : m.onEach change (knots ++ knots') =
    m.onEach change knots >>= fun m => m.onEach change knots' := by
  rw [onEach, List.foldlM_append]
  rfl

/-- Changes for mates in the lane of `c` leave that lane, and with it the links still ahead and the
mates of the rows there. -/
theorem onKnots_elsewhere (change : Lane → Nat → Lane) (hknots : ∀ k ∈ knots, k.column ≠ c) (hc : c < m.lanes.size) :
    (m.onKnots change knots).lane c = m.lane c ∧ ∀ slot,
      (m.onKnots change knots).mates ((m.onKnots change knots).rowAt c slot) c =
        m.mates (m.rowAt c slot) c := by
  have hrows := (onKnots_frame change m knots).2.2.1
  have hlane : (m.onKnots change knots).lane c = m.lane c := by
    have hnone : knots.filter (fun k => k.column == c) = [] :=
      List.filter_eq_nil_iff.2 fun k hk => by simpa using hknots k hk
    rw [lane_onKnots change m knots hc, hnone]
    rfl
  refine ⟨hlane, fun slot => ?_⟩
  simp only [mates, Mesh.knots, rowAt, hlane, hrows]

/-- A loop along links that lead to the head ends. -/
theorem laneLoop_of_leads {way : Ring → Array Nat} {order : List Knot → List Knot}
    {links : Array Nat} (horder : ∀ ks, ∀ k ∈ order ks, k ∈ ks) (hc : c < m.lanes.size)
    (hlinks : way (m.lane c).ring = links) (h : Ring.Leads links slot xs) :
    LaneLoop way change order c slot m
      (m.onEach change (xs.flatMap fun slot => order (m.mates (m.rowAt c slot) c))) := by
  induction h generalizing m with
  | home hlink => exact .home (by simpa only [hlinks] using hlink)
  | @onward slot following xs hlink hne _ ih =>
    have hlink' : (way (m.lane c).ring)[slot]? = some following := by rwa [hlinks]
    rw [List.flatMap_cons, onEach_append]
    cases hwork : m.onEach change (order (m.mates (m.rowAt c following) c)) with
    | error fault => exact .fault hlink' hne hwork
    | ok m' =>
      refine .onward hlink' hne hwork ?_
      obtain rfl := onKnots_of_onEach hwork
      have hsize := (onKnots_frame change m (order (m.mates (m.rowAt c following) c))).2.2.2.2
      obtain ⟨hlane, hmates⟩ := onKnots_elsewhere change
        (fun k hk => (mem_mates (horder _ k hk)).2) hc
      have hrest := ih (hsize ▸ hc) (by rw [hlane, hlinks])
      simp only [hmates] at hrest
      exact hrest

/-! ## What every change keeps -/

/-- What stands in the mesh of `t` after any changes: whatever is no link is as built, and links
rise. -/
structure Sound (t : Table) (m : Mesh) : Prop where
  table : m.table = t
  labels : m.labels = (ofTable t).labels
  rows : m.rows = (ofTable t).rows
  lanes_size : m.lanes.size = t.columnCount
  lane_rows : ∀ c < t.columnCount, (m.lane c).rows = (t.holders c).toArray
  lane_rising : ∀ c < t.columnCount, (m.lane c).ring.Rising (t.holders c).length
  active_rising : m.active.Rising t.primaryCount
  alone : ∀ c, t.primaryCount ≤ c → c < t.columnCount → m.active.Joined (c + 1) (c + 1)

theorem sound_ofTable (wf : t.WellFormed) : Sound t (ofTable t) := by
  have h := reads_ofTable wf
  refine ⟨h.table, rfl, rfl, h.lanes_size, h.lane_rows, fun c hc => ?_, ?_, h.alone⟩
  · have hring := h.lane_ring c hc
    rw [Table.linked_nil, Table.map_slotOf_holders] at hring
    exact hring.rising
  · have hring := h.active
    have hrange : (t.openColumns [].toFinset).map (· + 1) = List.range' 1 t.primaryCount := by
      rw [List.range'_eq_map_range]
      simp [Table.openColumns, Nat.add_comm]
    rw [hrange] at hring
    exact hring.rising

namespace Sound

variable (h : Sound t m)
include h

theorem mem_knots (wf : t.WellFormed) {row : Nat} {k : Knot} (hk : k ∈ m.knots row) :
    k.slot ≠ 0 ∧ k.slot ≤ (t.holders k.column).length := by
  have hknots : m.knots row = t.knots row := by
    rw [Mesh.knots, h.rows, ← Mesh.knots, (reads_ofTable wf).knots_eq]
  rw [hknots] at hk
  obtain ⟨d, hd, rfl⟩ := List.mem_map.1 hk
  have hslot := Table.slotOf_mem (Table.mem_holders.2 hd)
  exact ⟨Nat.ne_of_gt hslot.1, hslot.2⟩

theorem onKnots (wf : t.WellFormed) (hchange : Lane.Steady change)
    (hknots : ∀ k ∈ knots, ∃ row, k ∈ m.knots row) : Sound t (m.onKnots change knots) := by
  obtain ⟨h1, h2, h3, h4, h5⟩ := onKnots_frame change m knots
  refine ⟨h1.trans h.table, h2.trans h.labels, h3.trans h.rows, h5.trans h.lanes_size,
    fun c hc => ?_, fun c hc => ?_, h4 ▸ h.active_rising, h4 ▸ h.alone⟩
  · rw [lane_onKnots change m knots (h.lanes_size ▸ hc), hchange.foldl_rows, h.lane_rows c hc]
  · rw [lane_onKnots change m knots (h.lanes_size ▸ hc)]
    apply hchange.foldl_rising (h.lane_rising c hc)
    intro slot hslot
    obtain ⟨k, hk, rfl⟩ := List.mem_map.1 hslot
    obtain ⟨hk, hcolumn⟩ := List.mem_filter.1 hk
    obtain ⟨row, hrow⟩ := hknots k hk
    have hkc : k.column = c := by simpa using hcolumn
    exact hkc ▸ h.mem_knots wf hrow

/-- A column goes out of the active ring, or back into it. -/
theorem active {r : Ring} (hc : c < t.columnCount)
    (hr : r = m.active.unlink (c + 1) ∨ r = m.active.relink (c + 1)) :
    Sound t { m with active := r } := by
  by_cases hp : c < t.primaryCount
  · refine ⟨h.table, h.labels, h.rows, h.lanes_size, h.lane_rows, h.lane_rising, ?_,
      fun d hpd hd => ?_⟩
    · rcases hr with rfl | rfl
      · exact h.active_rising.unlink (Nat.succ_ne_zero c) hp
      · exact h.active_rising.relink (Nat.succ_ne_zero c) hp
    · have hboth := (h.alone d hpd hd).of_beyond h.active_rising (Nat.succ_ne_zero c) hp
        (Nat.lt_succ_of_le hpd)
      rcases hr with rfl | rfl
      · exact hboth.1
      · exact hboth.2
  · -- A secondary column is linked to itself only.
    have hj := h.alone c (Nat.le_of_not_lt hp) hc
    have hsame : r = m.active := by
      rcases hr with rfl | rfl
      · exact Ring.unlink_of_joined_self hj
      · exact Ring.relink_of_joined_self hj
    rw [hsame]
    exact h

theorem hideColumn (wf : t.WellFormed) (hc : c < t.columnCount) : Sound t (m.hideColumn c) := by
  apply (h.active hc (.inl rfl)).onKnots wf Lane.steady_unlink
  intro k hk
  obtain ⟨slot, -, hk⟩ := List.mem_flatMap.1 hk
  exact ⟨_, (mem_mates hk).1⟩

theorem showColumn (wf : t.WellFormed) (hc : c < t.columnCount) : Sound t (m.showColumn c) := by
  refine Sound.active (h.onKnots wf Lane.steady_relink ?_) hc (.inr rfl)
  intro k hk
  obtain ⟨slot, -, hk⟩ := List.mem_flatMap.1 hk
  exact ⟨_, (mem_mates (List.mem_reverse.1 hk)).1⟩

end Sound

end Loops

/-! ## Any changes -/

/-- What no change of the mesh of `t` destroys: every walk from a head comes back to it, through
columns or knots that ascend, every change to come ends, and the rest is as built. -/
structure Intact (t : Table) (m : Mesh) : Prop where
  table : m.table = t
  labels : m.labels = (ofTable t).labels
  rows : m.rows = (ofTable t).rows
  lanes_size : m.lanes.size = t.columnCount
  lane_rows : ∀ c < t.columnCount, (m.lane c).rows = ((ofTable t).lane c).rows
  alone : ∀ c, t.primaryCount ≤ c → c < t.columnCount → m.active.Joined (c + 1) (c + 1)
  active_home : Ring.Leads m.active.next 0 m.active.slots
  active_ascending : m.activeColumns.Pairwise (· < ·)
  active_primary : ∀ c ∈ m.activeColumns, c < t.primaryCount
  lane_home : ∀ c < t.columnCount, Ring.Leads (m.lane c).ring.next 0 (m.lane c).ring.slots
  lane_knots : ∀ c < t.columnCount, ∀ slot ∈ (m.lane c).ring.slots,
    0 < slot ∧ slot ≤ (m.lane c).rows.size
  lane_ascending : ∀ c < t.columnCount,
    ((m.lane c).ring.slots.map (m.lane c).rowAt).Pairwise (· < ·)
  cover_ends : ∀ c < t.columnCount, m.CoverEnds c (m.cover c)
  uncover_ends : ∀ c < t.columnCount, m.UncoverEnds c (m.uncover c)

/-- The mesh after a change, whether or not its lanes can count their sizes. -/
def attempt (m : Mesh) : Change → Mesh
  | .cover column => m.hideColumn column
  | .uncover column => m.showColumn column

theorem change_eq {step : Change} (hc : step.column < m.lanes.size) :
    m.change step = (m.attempt step).checked := by
  cases step with
  | cover c => exact if_pos hc
  | uncover c => exact if_pos hc

namespace Sound

variable (h : Sound t m) (hm : m.Counted) (wf : t.WellFormed)

include h in
theorem activeColumns : m.activeColumns.Pairwise (· < ·) ∧
    ∀ c ∈ m.activeColumns, c < t.primaryCount := by
  obtain ⟨-, hup, hin⟩ := h.active_rising.slots
  constructor
  · refine List.pairwise_map.2 (hup.imp_of_mem fun {a b} ha hb hlt => ?_)
    have := hin a ha
    omega
  · intro c hc
    obtain ⟨slot, hslot, rfl⟩ := List.mem_map.1 hc
    have := hin slot hslot
    omega

include h in
theorem lane_ascending (hc : c < t.columnCount) :
    ((m.lane c).ring.slots.map (m.lane c).rowAt).Pairwise (· < ·) := by
  obtain ⟨-, hup, hin⟩ := (h.lane_rising c hc).slots
  refine List.pairwise_map.2 (hup.imp_of_mem fun {a b} ha hb hlt => ?_)
  have ha' := hin a ha
  have hb' := hin b hb
  have hget : ∀ slot, (hs : slot - 1 < (t.holders c).length) →
      (m.lane c).rowAt slot = (t.holders c).get ⟨slot - 1, hs⟩ := by
    intro slot hs
    rw [Lane.rowAt, h.lane_rows c hc]
    simp [hs]
  rw [hget a (by omega), hget b (by omega)]
  exact List.pairwise_iff_get.1 Table.holders_ascending _ _ (Fin.mk_lt_mk.2 (by omega))

include h hm in
theorem cover_ends (hc : c < t.columnCount) : m.CoverEnds c (m.cover c) := by
  have hlt : c < m.lanes.size := h.lanes_size ▸ hc
  have hloop : LaneLoop Ring.next Lane.unlink id c 0
      { m with active := m.active.unlink (c + 1) } _ :=
    laneLoop_of_leads (fun _ _ hk => hk) hlt rfl (h.lane_rising c hc).slots.1
  rw [onEach_eq (m := { m with active := m.active.unlink (c + 1) }) Lane.steady_unlink hm] at hloop
  rw [cover, if_pos hlt]
  exact hloop

include h hm in
theorem uncover_ends (hc : c < t.columnCount) : m.UncoverEnds c (m.uncover c) := by
  have hlt : c < m.lanes.size := h.lanes_size ▸ hc
  have hloop : LaneLoop Ring.prev Lane.relink List.reverse c 0 m _ :=
    laneLoop_of_leads (fun _ _ hk => List.mem_reverse.1 hk) hlt rfl
      (h.lane_rising c hc).slotsBack.1
  rw [onEach_eq Lane.steady_relink hm] at hloop
  refine ⟨_, hloop, ?_⟩
  rw [uncover, if_pos hlt, showColumn_eq]
  generalize hshown : m.onKnots Lane.relink (m.returns c) = shown
  have hsame : m.onKnots Lane.relink ((m.lane c).ring.slotsBack.flatMap fun slot =>
      (m.mates (m.rowAt c slot) c).reverse) = shown := hshown
  rw [hsame, checked, checked]
  by_cases hall : shown.lanes.all (·.inRange) = true
  · rw [if_pos hall, if_pos hall]
    rfl
  · rw [if_neg hall, if_neg hall]
    rfl

include h hm wf in
theorem intact : Intact t m where
  table := h.table
  labels := h.labels
  rows := h.rows
  lanes_size := h.lanes_size
  lane_rows c hc := (h.lane_rows c hc).trans ((sound_ofTable wf).lane_rows c hc).symm
  alone := h.alone
  active_home := h.active_rising.slots.1
  active_ascending := h.activeColumns.1
  active_primary := h.activeColumns.2
  lane_home c hc := (h.lane_rising c hc).slots.1
  lane_knots c hc := by
    rw [h.lane_rows c hc]
    exact (h.lane_rising c hc).slots.2.2
  lane_ascending c hc := h.lane_ascending hc
  cover_ends c hc := h.cover_ends hm hc
  uncover_ends c hc := h.uncover_ends hm hc

include h wf in
/-- One change succeeds, or some lane cannot count its size. -/
theorem change {step : Change} (hc : step.column < t.columnCount) :
    (∃ m', m.change step = .ok m' ∧ Sound t m' ∧ m'.Counted) ∨
      m.change step = .error .sizeOutOfRange ∧ ∃ d < t.columnCount,
        ((m.attempt step).lane d).NoWord := by
  have hafter : Sound t (m.attempt step) := by
    cases step with
    | cover c => exact h.hideColumn wf hc
    | uncover c => exact h.showColumn wf hc
  rw [change_eq (h.lanes_size ▸ hc)]
  by_cases hcounted : (m.attempt step).Counted
  · exact .inl ⟨_, checked_of_counted hcounted, hafter, hcounted⟩
  · refine .inr ⟨checked_of_not_counted hcounted, ?_⟩
    simp only [Counted, not_forall] at hcounted
    obtain ⟨d, hd, hout⟩ := hcounted
    have hcap : UInt64.size - 1 ≤ ((m.attempt step).lane d).capacity := Nat.le_max_left _ _
    refine ⟨d, hafter.lanes_size ▸ hd, ?_⟩
    rw [Lane.inRange_iff] at hout
    unfold Lane.NoWord
    omega

end Sound

/-- Any changes of sound meshes. -/
theorem foldlM_change_sound {changes : List Change} (wf : t.WellFormed) (h : Sound t m)
    (hm : m.Counted) (inRange : ∀ step ∈ changes, step.column < t.columnCount) :
    (∃ m', changes.foldlM change m = .ok m' ∧ m'.Intact t) ∨
      ∃ before step after m', changes = before ++ step :: after ∧
        before.foldlM change m = .ok m' ∧ m'.Intact t ∧
        changes.foldlM change m = .error .sizeOutOfRange ∧ ∃ d < t.columnCount,
          ((m'.attempt step).lane d).NoWord := by
  induction changes generalizing m with
  | nil => exact .inl ⟨m, rfl, h.intact hm wf⟩
  | cons step changes ih =>
    obtain ⟨hc, inRange⟩ := List.forall_mem_cons.1 inRange
    rw [List.foldlM_cons]
    rcases h.change wf hc with ⟨m₁, hstep, h₁, hm₁⟩ | ⟨hstep, hsize⟩
    · rw [hstep]
      rcases ih h₁ hm₁ inRange with hok | ⟨before, last, after, m', rfl, hbefore, hrest⟩
      · exact .inl hok
      · refine .inr ⟨step :: before, last, after, m', rfl, ?_, hrest⟩
        rw [List.foldlM_cons, hstep]
        exact hbefore
    · rw [hstep]
      exact .inr ⟨[], step, changes, m, rfl, rfl, h.intact hm wf, rfl, hsize⟩

/-- Any covers and uncovers of columns that exist, in any order, leave the mesh of a table intact, up
to the first after which a lane has a size that cannot be counted. That one fails and no other
does. -/
theorem foldlM_change_any_order {changes : List Change} (built : t.Built)
    (inRange : ∀ step ∈ changes, step.column < t.columnCount) :
    (∃ m, changes.foldlM change (ofTable t) = .ok m ∧ m.Intact t) ∨
      ∃ before step after m, changes = before ++ step :: after ∧
        before.foldlM change (ofTable t) = .ok m ∧ m.Intact t ∧
        changes.foldlM change (ofTable t) = .error .sizeOutOfRange ∧ ∃ c < t.columnCount,
          ((m.attempt step).lane c).NoWord := by
  have wf := built.wellFormed
  have hcounted := (counted_of_checked (reads_ofTable wf).checked_eq).2
  exact foldlM_change_sound wf (sound_ofTable wf) hcounted inRange

/-- The case of `abc` with a column covered twice and another uncovered that never was covered. -/
theorem foldlM_change_any_order_abc :
    let changes : List Change := [.cover 0, .cover 0, .uncover 1, .cover 2, .uncover 0]
    (∃ m, changes.foldlM change (ofTable Table.abc) = .ok m ∧ m.Intact Table.abc) ∨
      ∃ before step after m, changes = before ++ step :: after ∧
        before.foldlM change (ofTable Table.abc) = .ok m ∧ m.Intact Table.abc ∧
        changes.foldlM change (ofTable Table.abc) = .error .sizeOutOfRange ∧
        ∃ c < Table.abc.columnCount, ((m.attempt step).lane c).NoWord :=
  foldlM_change_any_order Table.built_abc (by decide)

end Mesh

end Covering
