import Covering.Proofs.Mesh.Building

/-!
# What a mesh means after covers

`Mesh.Reads t cs m` says what stands in the mesh of `t` once the columns `cs` are covered in this
order: the active ring has the primary columns outside `cs`, and the lane of each column has the
rows that `Table.linked` names. Main statements: covering one more column keeps this
(`Reads.hideColumn`), and uncovering it gives back the very mesh from before (`Reads.show_hide`).
So the mesh of any nested search is `Mesh.covering` of its open covers.
-/

namespace Covering
set_option autoImplicit false

namespace Lane

variable {l : Lane} {slots : List Nat}

theorem foldl_unlink : slots.foldl unlink l =
    { l with ring := l.ring.unlinkAll slots, size := l.size - slots.length } := by
  induction slots generalizing l with
  | nil => simp [Ring.unlinkAll]
  | cons slot slots ih =>
    rw [List.foldl_cons, ih]
    simp [unlink, Ring.unlinkAll]
    omega

theorem foldl_relink : slots.foldl relink l =
    { l with ring := slots.foldl Ring.relink l.ring, size := l.size + slots.length } := by
  induction slots generalizing l with
  | nil => simp
  | cons slot slots ih =>
    rw [List.foldl_cons, ih]
    simp [relink]
    omega

/-- Knots put back last to first leave the lane as it was. -/
theorem foldl_relink_unlink {xs : List Nat} (h : l.ring.Spells xs) (hd : slots.Nodup)
    (hs : slots ⊆ xs) : slots.reverse.foldl relink (slots.foldl unlink l) = l := by
  rw [foldl_unlink, foldl_relink]
  simp [h.relink_unlinkAll hd hs]

end Lane

namespace Mesh

variable {t : Table} {m m' : Mesh} {cs : List Nat} {c d row : Nat}

/-- `change` made in its lane for each of `knots`. -/
def onKnots (change : Lane → Nat → Lane) (m : Mesh) (knots : List Knot) : Mesh :=
  knots.foldl (fun m k => { m with lanes := m.lanes.modify k.column (change · k.slot) }) m

/-- Changes in lanes are changes in lanes only. -/
theorem onKnots_frame (change : Lane → Nat → Lane) (m : Mesh) (knots : List Knot) :
    (m.onKnots change knots).table = m.table ∧ (m.onKnots change knots).labels = m.labels ∧
    (m.onKnots change knots).rows = m.rows ∧ (m.onKnots change knots).active = m.active ∧
    (m.onKnots change knots).lanes.size = m.lanes.size := by
  induction knots generalizing m with
  | nil => exact ⟨rfl, rfl, rfl, rfl, rfl⟩
  | cons k knots ih =>
    obtain ⟨h1, h2, h3, h4, h5⟩ := ih { m with lanes := m.lanes.modify k.column (change · k.slot) }
    exact ⟨h1, h2, h3, h4, h5.trans (Array.size_modify ..)⟩

/-- What a cover leaves alone outside the lanes. -/
theorem hideColumn_frame (m : Mesh) (c : Nat) :
    (m.hideColumn c).table = m.table ∧ (m.hideColumn c).labels = m.labels ∧
    (m.hideColumn c).rows = m.rows ∧ (m.hideColumn c).active = m.active.unlink (c + 1) ∧
    (m.hideColumn c).lanes.size = m.lanes.size :=
  onKnots_frame Lane.unlink { m with active := m.active.unlink (c + 1) } (m.conflicts c)

theorem showColumn_eq (m : Mesh) (c : Nat) : m.showColumn c =
    { m.onKnots Lane.relink (m.returns c) with
      active := (m.onKnots Lane.relink (m.returns c)).active.relink (c + 1) } := rfl

theorem showColumn_frame (m : Mesh) (c : Nat) :
    (m.showColumn c).table = m.table ∧ (m.showColumn c).labels = m.labels ∧
    (m.showColumn c).rows = m.rows ∧ (m.showColumn c).active = m.active.relink (c + 1) ∧
    (m.showColumn c).lanes.size = m.lanes.size := by
  obtain ⟨h1, h2, h3, h4, h5⟩ := onKnots_frame Lane.relink m (m.returns c)
  rw [showColumn_eq]
  exact ⟨h1, h2, h3, congrArg (·.relink (c + 1)) h4, h5⟩

/-- A lane sees the changes for its own knots. -/
theorem lane_onKnots (change : Lane → Nat → Lane) (m : Mesh) (knots : List Knot)
    (hd : d < m.lanes.size) :
    (m.onKnots change knots).lane d =
      ((knots.filter (fun k => k.column == d)).map (·.slot)).foldl change (m.lane d) := by
  induction knots generalizing m with
  | nil => rfl
  | cons k knots ih =>
    have hstep := ih { m with lanes := m.lanes.modify k.column (change · k.slot) } (by simpa using hd)
    refine Eq.trans hstep ?_
    by_cases hk : k.column = d
    · rw [List.filter_cons_of_pos (by simpa using hk), List.map_cons, List.foldl_cons]
      simp [Mesh.lane, Array.getD_eq_getD_getElem?, hk, hd, Array.getElem_modify]
    · rw [List.filter_cons_of_neg (by simpa using hk)]
      simp [Mesh.lane, Array.getD_eq_getD_getElem?, Array.getElem?_modify, hk]

theorem lane_showColumn (m : Mesh) (c : Nat) (hd : d < m.lanes.size) : (m.showColumn c).lane d =
    (((m.returns c).filter (fun k => k.column == d)).map (·.slot)).foldl Lane.relink (m.lane d) :=
  lane_onKnots Lane.relink m (m.returns c) hd

/-- Meshes are equal if their lanes and all else are. -/
theorem eq_of_lanes (h1 : m.table = m'.table) (h2 : m.labels = m'.labels) (h3 : m.rows = m'.rows)
    (h4 : m.active = m'.active) (h5 : m.lanes.size = m'.lanes.size)
    (h6 : ∀ d < m.lanes.size, m.lane d = m'.lane d) : m = m' := by
  have hl : m.lanes = m'.lanes := by
    apply Array.ext h5
    intro d hd hd'
    simpa [Mesh.lane, Array.getD_eq_getD_getElem?, hd, hd'] using h6 d hd
  obtain ⟨_, _, _, _, _⟩ := m
  obtain ⟨_, _, _, _, _⟩ := m'
  simp_all

/-! ## Reading a mesh -/

/-- `m` is the mesh of `t` with the columns `cs` covered in this order. -/
structure Reads (t : Table) (cs : List Nat) (m : Mesh) : Prop where
  table : m.table = t
  labels : m.labels = ((List.range t.rowCount).map t.labels).toArray
  rows : m.rows = ((List.range t.rowCount).map t.knots).toArray
  lanes_size : m.lanes.size = t.columnCount
  lane_rows : ∀ c < t.columnCount, (m.lane c).rows = (t.holders c).toArray
  lane_ring : ∀ c < t.columnCount, (m.lane c).ring.Spells ((t.linked cs c).map (t.slotOf c))
  lane_size : ∀ c < t.columnCount, (m.lane c).size = (t.linked cs c).length
  active : m.active.Spells ((t.openColumns cs.toFinset).map (· + 1))
  alone : ∀ c, t.primaryCount ≤ c → c < t.columnCount → m.active.Joined (c + 1) (c + 1)

theorem reads_ofTable (wf : t.WellFormed) : Reads t [] (ofTable t) := by
  have h := ofTable_shape wf
  have hlane : ∀ c < t.columnCount, (ofTable t).lane c = Lane.ofRows (t.holders c) := h.lane
  refine ⟨h.table, h.labels, h.rows, h.lanes_size, fun c hc => ?_, fun c hc => ?_, fun c hc => ?_,
    ?_, ?_⟩
  · rw [hlane c hc, Lane.rows_ofRows]
  · rw [hlane c hc, Table.linked_nil, Table.map_slotOf_holders]
    exact Lane.ring_ofRows.2.2
  · rw [hlane c hc, Table.linked_nil, Lane.size_ofRows]
  · rw [h.active]
    simpa [Table.openColumns] using active_ofHeader.1
  · rw [h.active]
    exact active_ofHeader.2

namespace Reads

variable (h : Reads t cs m)
include h

theorem knots_eq : m.knots row = t.knots row := by
  rw [Mesh.knots, h.rows]
  by_cases hrow : row < t.rowCount
  · simp [Array.getD_eq_getD_getElem?, hrow]
  · simp [Array.getD_eq_getD_getElem?, hrow, Table.knots, Table.ones_eq_nil (Nat.le_of_not_lt hrow)]

theorem labelsOfRow_eq : m.labelsOfRow row = t.labels row := by
  rw [Mesh.labelsOfRow, h.labels]
  by_cases hrow : row < t.rowCount
  · simp [Array.getD_eq_getD_getElem?, hrow]
  · simp [Array.getD_eq_getD_getElem?, hrow, Table.labels, Table.ones_eq_nil (Nat.le_of_not_lt hrow),
      Table.labelsOf, sorted]

theorem map_labelsOfRow (paths : List (List Nat)) :
    paths.map (·.map m.labelsOfRow) = paths.map (·.map t.labels) := by
  apply List.map_congr_left
  intro path _
  apply List.map_congr_left
  intro row _
  exact h.labelsOfRow_eq

theorem mates_eq : m.mates row c = t.mates row c := by
  simp only [Mesh.mates, Table.mates, h.knots_eq]

theorem rowAt_slotOf (hc : c < t.columnCount) (hrow : c ∈ t.ones row) :
    m.rowAt c (t.slotOf c row) = row := by
  rw [Mesh.rowAt, Lane.rowAt, h.lane_rows c hc]
  simpa using Table.getD_slotOf (Table.mem_holders.2 hrow)

theorem flatMap_slots {α : Type} (hc : c < t.columnCount) (f : Nat → List α) :
    ((t.linked cs c).map (t.slotOf c)).flatMap (fun slot => f ((m.lane c).rowAt slot)) =
      (t.linked cs c).flatMap f := by
  rw [List.flatMap_map]
  apply List.flatMap_congr
  intro row hrow
  congr 1
  exact h.rowAt_slotOf hc (Table.mem_linked.1 hrow).1

theorem conflicts_eq (hc : c < t.columnCount) :
    m.conflicts c = (t.linked cs c).flatMap fun row => t.mates row c := by
  simp only [Mesh.conflicts, (h.lane_ring c hc).slots_eq, h.mates_eq]
  exact h.flatMap_slots hc fun row => t.mates row c

theorem returns_eq (hc : c < t.columnCount) :
    m.returns c = ((t.linked cs c).flatMap fun row => t.mates row c).reverse := by
  simp only [Mesh.returns, (h.lane_ring c hc).slotsBack_eq, h.mates_eq]
  rw [List.flatMap_reverse, ← h.flatMap_slots hc fun row => t.mates row c]
  congr 2
  funext slot
  exact List.reverse_reverse _

/-- A cover changes the other lanes only, each by the rows it loses. -/
theorem lane_hideColumn (wf : t.WellFormed) (hc : c < t.columnCount) (hd : d < t.columnCount) :
    (m.hideColumn c).lane d =
      if d = c then m.lane c else ((t.gone cs c d).map (t.slotOf d)).foldl Lane.unlink (m.lane d) := by
  refine (lane_onKnots Lane.unlink { m with active := m.active.unlink (c + 1) } (m.conflicts c)
    (h.lanes_size ▸ hd)).trans ?_
  rw [h.conflicts_eq hc]
  split
  · next e =>
    subst e
    rw [Table.conflicts_filter_self]
    rfl
  · next hdc =>
    rw [wf.conflicts_filter hdc]
    rfl

/-- The active ring after one more cover. -/
theorem active_unlink (hc : c < t.columnCount) (hcs : c ∉ cs) :
    (m.active.unlink (c + 1)).Spells ((t.openColumns (cs ++ [c]).toFinset).map (· + 1)) ∧
      ∀ d, t.primaryCount ≤ d → d < t.columnCount →
        (m.active.unlink (c + 1)).Joined (d + 1) (d + 1) := by
  by_cases hp : c < t.primaryCount
  · have hmem : c + 1 ∈ (t.openColumns cs.toFinset).map (· + 1) :=
      List.mem_map_of_mem (Table.mem_openColumns.2 ⟨hp, by simpa using hcs⟩)
    refine ⟨?_, fun d hpd hd => ?_⟩
    · have hsp := h.active.unlink hmem
      rw [List.filter_map] at hsp
      rw [Table.openColumns_concat]
      have hcomp : ((fun slot => decide (slot ≠ c + 1)) ∘ fun d => d + 1) =
          fun d => decide (d ≠ c) := by
        funext d
        simp
      rwa [hcomp] at hsp
    · -- The neighbours of `c + 1` are the head and slots of primary columns.
      have hle : ∀ slot ∈ (t.openColumns cs.toFinset).map (· + 1), slot ≤ t.primaryCount := by
        intro slot hslot
        obtain ⟨e, he, rfl⟩ := List.mem_map.1 hslot
        exact (Table.mem_openColumns.1 he).1
      obtain ⟨as, bs, e⟩ := List.append_of_mem hmem
      have hpath := h.active.path
      rw [e] at hpath hle
      obtain ⟨h1, h2⟩ := Ring.path_append_iff.1 hpath
      obtain ⟨p, hpm, hpj⟩ := h1.prev_eq
      obtain ⟨q, hqm, hqj⟩ := h2.next_eq
      refine hpj.unlink hqj (h.alone d hpd hd) ?_ ?_
      · rintro rfl
        rcases List.mem_cons.1 hpm with e0 | hm
        · omega
        · have := hle (d + 1) (by simp [hm])
          omega
      · rintro rfl
        rcases List.mem_append.1 hqm with hm | hm
        · have := hle (d + 1) (by simp [hm])
          omega
        · simp at hm
  · have hp' : t.primaryCount ≤ c := Nat.le_of_not_lt hp
    rw [Ring.unlink_of_joined_self (h.alone c hp' hc), Table.openColumns_concat_of_secondary hp']
    exact ⟨h.active, h.alone⟩

theorem relink_unlink_active (hc : c < t.columnCount) (hcs : c ∉ cs) :
    (m.active.unlink (c + 1)).relink (c + 1) = m.active := by
  by_cases hp : c < t.primaryCount
  · have hopen := Table.mem_openColumns.2 ⟨hp, show c ∉ cs.toFinset by simpa using hcs⟩
    exact h.active.relink_unlink (List.mem_map_of_mem hopen)
  · have hj := h.alone c (Nat.le_of_not_lt hp) hc
    rw [Ring.unlink_of_joined_self hj, Ring.relink_of_joined_self hj]

/-- Covering one more column. -/
theorem hideColumn (wf : t.WellFormed) (hc : c < t.columnCount) (hcs : c ∉ cs) :
    Reads t (cs ++ [c]) (m.hideColumn c) := by
  obtain ⟨h1, h2, h3, h4, h5⟩ := m.hideColumn_frame c
  have hkeep : t.linked (cs ++ [c]) c = t.linked cs c := by rw [Table.linked_concat, if_pos (.inr rfl)]
  refine ⟨h1.trans h.table, h2.trans h.labels, h3.trans h.rows, h5.trans h.lanes_size, ?_, ?_, ?_,
    ?_, ?_⟩
  · intro d hd
    rw [h.lane_hideColumn wf hc hd]
    split
    · next e => rw [h.lane_rows c hc, e]
    · rw [Lane.foldl_unlink]
      exact h.lane_rows d hd
  · intro d hd
    rw [h.lane_hideColumn wf hc hd]
    split
    · next e =>
      rw [e, hkeep]
      exact h.lane_ring c hc
    · next hdc =>
      rw [Lane.foldl_unlink, ← Table.slots_sdiff_gone hcs hdc]
      exact (h.lane_ring d hd).unlinkAll Table.gone_slots_nodup (Table.gone_slots_subset hcs)
  · intro d hd
    rw [h.lane_hideColumn wf hc hd]
    split
    · next e =>
      rw [e, hkeep]
      exact h.lane_size c hc
    · next hdc =>
      have hsum := Table.length_linked_add_gone (t := t) hcs hdc
      rw [Lane.foldl_unlink]
      simp only [h.lane_size d hd, List.length_map]
      omega
  · rw [h4]
    exact (h.active_unlink hc hcs).1
  · rw [h4]
    exact (h.active_unlink hc hcs).2

/-- Uncovering the column covered last gives back the mesh from before. -/
theorem show_hide (wf : t.WellFormed) (hc : c < t.columnCount) (hcs : c ∉ cs) :
    (m.hideColumn c).showColumn c = m := by
  have hh := h.hideColumn wf hc hcs
  obtain ⟨h1, h2, h3, h4, h5⟩ := m.hideColumn_frame c
  obtain ⟨g1, g2, g3, g4, g5⟩ := (m.hideColumn c).showColumn_frame c
  refine eq_of_lanes (g1.trans h1) (g2.trans h2) (g3.trans h3) ?_ (g5.trans h5) fun d hd => ?_
  · rw [g4, h4]
    exact h.relink_unlink_active hc hcs
  · have hd' : d < t.columnCount := by rwa [g5, h5, h.lanes_size] at hd
    have hkeep : t.linked (cs ++ [c]) c = t.linked cs c := by
      rw [Table.linked_concat, if_pos (.inr rfl)]
    rw [lane_showColumn _ _ (by rwa [hh.lanes_size]), hh.returns_eq hc, hkeep,
      List.filter_reverse, List.map_reverse, h.lane_hideColumn wf hc hd']
    split
    · next e =>
      rw [e, Table.conflicts_filter_self]
      rfl
    · next hdc =>
      rw [wf.conflicts_filter hdc]
      exact Lane.foldl_relink_unlink (h.lane_ring d hd') Table.gone_slots_nodup
        (Table.gone_slots_subset hcs)

/-- No lane has more rows than it can count. -/
theorem checked_eq : m.checked = .ok m := by
  have hall : m.lanes.all (·.inRange) = true := by
    apply Array.all_eq_true.2
    intro c hc
    have hc' : c < t.columnCount := h.lanes_size ▸ hc
    have hlane : m.lane c = m.lanes[c] := by simp [Mesh.lane, Array.getD_eq_getD_getElem?, hc]
    have hle := (Table.linked_sublist : (t.linked cs c).Sublist _).length_le
    have hsize := h.lane_size c hc'
    have hrows := h.lane_rows c hc'
    rw [hlane] at hsize hrows
    simp only [Lane.inRange, Lane.capacity, hsize, hrows, Bool.and_eq_true, decide_eq_true_eq,
      List.size_toArray]
    omega
  rw [Mesh.checked, if_pos hall]

end Reads

/-! ## Covers one after the other -/

/-- The mesh of `t` with the columns `cs` covered in this order. -/
def covering (t : Table) (cs : List Nat) : Mesh := cs.foldl Mesh.hideColumn (ofTable t)

theorem covering_concat : covering t (cs ++ [c]) = (covering t cs).hideColumn c := by
  simp [covering, List.foldl_append]

theorem reads_covering (wf : t.WellFormed) (hcs : t.Coverable cs) : Reads t cs (covering t cs) := by
  induction cs using List.reverseRecOn with
  | nil => exact reads_ofTable wf
  | append_singleton cs c ih =>
    rw [covering_concat]
    exact (ih hcs.left).hideColumn wf hcs.last_lt hcs.last_notMem

theorem showColumn_covering (wf : t.WellFormed) (hcs : t.Coverable (cs ++ [c])) :
    (covering t (cs ++ [c])).showColumn c = covering t cs := by
  rw [covering_concat]
  exact (reads_covering wf hcs.left).show_hide wf hcs.last_lt hcs.last_notMem

theorem cover_covering (wf : t.WellFormed) (hcs : t.Coverable (cs ++ [c])) :
    (covering t cs).cover c = .ok (covering t (cs ++ [c])) := by
  have hr := reads_covering wf hcs.left
  rw [cover, if_pos (hr.lanes_size ▸ hcs.last_lt), ← covering_concat]
  exact (reads_covering wf hcs).checked_eq

/-- Columns that differ can be covered in any order. -/
theorem foldlM_cover {ds : List Nat} (wf : t.WellFormed) (hcs : t.Coverable (cs ++ ds)) :
    ds.foldlM cover (covering t cs) = .ok (covering t (cs ++ ds)) := by
  induction ds generalizing cs with
  | nil => simp [pure, Except.pure]
  | cons d ds ih =>
    rw [List.append_cons] at hcs ⊢
    rw [List.foldlM_cons, cover_covering wf hcs.left]
    exact ih hcs

/-- Covering columns of the mesh of a table, before any search. -/
theorem foldlM_cover_ofTable (wf : t.WellFormed) (hcs : t.Coverable cs) :
    cs.foldlM cover (ofTable t) = .ok (covering t cs) :=
  foldlM_cover wf (show t.Coverable ([] ++ cs) from hcs)

theorem foldl_showColumn {ds : List Nat} (wf : t.WellFormed) (hcs : t.Coverable (cs ++ ds)) :
    ds.reverse.foldl showColumn (covering t (cs ++ ds)) = covering t cs := by
  induction ds using List.reverseRecOn with
  | nil => simp
  | append_singleton ds d ih =>
    rw [← List.append_assoc] at hcs ⊢
    rw [List.reverse_append, List.reverse_singleton, List.singleton_append, List.foldl_cons,
      showColumn_covering wf hcs]
    exact ih hcs.left

/-- The other columns of a row are covered rightward from its column in the search. -/
theorem coverMates_covering (wf : t.WellFormed) (hc : c ∈ t.ones row)
    (hcs : t.Coverable (cs ++ t.mateColumns row c)) :
    (covering t cs).coverMates c (t.slotOf c row) = .ok (covering t (cs ++ t.mateColumns row c)) := by
  have hr := reads_covering wf hcs.left
  rw [coverMates, hr.rowAt_slotOf (wf.inRange row c hc) hc, hr.mates_eq, ← foldlM_cover wf hcs,
    Table.mateColumns, List.foldlM_map]

theorem showMates_covering (wf : t.WellFormed) (hc : c ∈ t.ones row)
    (hcs : t.Coverable (cs ++ t.mateColumns row c)) :
    (covering t (cs ++ t.mateColumns row c)).showMates c (t.slotOf c row) = covering t cs := by
  have hr := reads_covering wf hcs
  rw [showMates, hr.rowAt_slotOf (wf.inRange row c hc) hc, hr.mates_eq]
  refine Eq.trans ?_ (foldl_showColumn wf hcs)
  rw [Table.mateColumns, ← List.map_reverse, List.foldl_map]

end Mesh

end Covering
