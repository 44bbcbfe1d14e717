import Covering.Proofs.Ring.Walks
import Covering.Proofs.SearchTree

/-!
# What a mesh shows

A caller reads a mesh by its rings: the active columns, the rows of a lane downward and upward, the
sizes, and the column to branch on. Main statement, `Mesh.foldlM_cover_shows`: once columns that
differ are covered in some order, all of these are what the table says of the rows that use none of
the columns covered before, and every walk comes back to its head.
-/

namespace Covering
set_option autoImplicit false

/-- In an ascending list what stands first is smallest. -/
theorem le_of_idxOf_le {xs : List Nat} {a b : Nat} (h : xs.Pairwise (· < ·)) (ha : a ∈ xs)
    (hb : b ∈ xs) (hle : xs.idxOf a ≤ xs.idxOf b) : a ≤ b := by
  have hia := List.idxOf_lt_length_of_mem ha
  have hib := List.idxOf_lt_length_of_mem hb
  rcases Nat.lt_or_eq_of_le hle with hlt | heq
  · have := List.pairwise_iff_getElem.1 h _ _ hia hib hlt
    rw [List.getElem_idxOf, List.getElem_idxOf] at this
    exact this.le
  · exact ((List.idxOf_inj ha).1 heq).le

namespace Table

variable {t : Table} {cs earlier later : List Nat} {covered : Finset Nat} {c d : Nat}

/-- The rows that use `column` and none of `others`, top to bottom. -/
def holdersOutside (t : Table) (others : List Nat) (column : Nat) : List Nat :=
  (List.range t.rowCount).filter fun row =>
    decide (column ∈ t.ones row ∧ ∀ c ∈ others, c ∉ t.ones row)

theorem linked_eq_holdersOutside :
    t.linked cs d = t.holdersOutside (cs.takeWhile (· != d)) d := by
  rw [linked, holders, holdersBelow, List.filter_filter, holdersOutside]
  apply List.filter_congr
  intro row _
  rw [Bool.decide_and, Bool.and_comm]

/-- A column in the list keeps what it had before. -/
theorem linked_append_cons (h : (earlier ++ d :: later).Nodup) :
    t.linked (earlier ++ d :: later) d = t.holdersOutside earlier d := by
  have hd : d ∉ earlier := fun hd => (List.nodup_append'.1 h).2.2 hd List.mem_cons_self
  have hne : ∀ c ∈ earlier, (c != d) = true := by
    intro c hc
    exact bne_iff_ne.2 fun e => hd (e ▸ hc)
  rw [linked_eq_holdersOutside, List.takeWhile_append_of_pos hne,
    List.takeWhile_cons_of_neg (by simp), List.append_nil]

theorem openColumns_ascending : (t.openColumns covered).Pairwise (· < ·) :=
  List.pairwise_lt_range.filter _

/-- The column to branch on has the fewest rows and is the leftmost of those that do. -/
theorem branchColumn_eq_some_iff : t.branchColumn covered = some c ↔ c ∈ t.openColumns covered ∧
    ∀ d ∈ t.openColumns covered,
      (t.compatible covered c).length < (t.compatible covered d).length ∨
        (t.compatible covered c).length = (t.compatible covered d).length ∧ c ≤ d := by
  have hfirst : ∀ c, t.branchColumn covered = some c → ∀ d ∈ t.openColumns covered,
      (t.compatible covered c).length < (t.compatible covered d).length ∨
        (t.compatible covered c).length = (t.compatible covered d).length ∧ c ≤ d := by
    intro c hc d hd
    obtain ⟨hmem, hmin, hleft⟩ := List.argmin_eq_some_iff.1 hc
    rcases Nat.lt_or_eq_of_le (hmin d hd) with hlt | heq
    · exact .inl hlt
    · exact .inr ⟨heq, le_of_idxOf_le openColumns_ascending hmem hd (hleft d hd heq.ge)⟩
  constructor
  · intro hc
    exact ⟨mem_openColumns_of_branchColumn hc, hfirst c hc⟩
  · rintro ⟨hmem, hall⟩
    obtain ⟨d, hd⟩ := Option.ne_none_iff_exists'.1 fun hnone =>
      List.not_mem_nil (branchColumn_eq_none_iff.1 hnone ▸ hmem)
    have hcd := hall d (mem_openColumns_of_branchColumn hd)
    have hdc := hfirst d hd c hmem
    rw [hd, show c = d by omega]

end Table

/-- Down from its head the ring of a lane leads through the knots of `rows` and back to the head,
and up through the same in reverse. -/
structure Lane.Shows (l : Lane) (rows : List Nat) : Prop where
  knots : ∀ slot ∈ l.ring.slots, 0 < slot ∧ slot ≤ l.rows.size
  down : l.ring.slots.map l.rowAt = rows
  up : l.ring.slotsBack.map l.rowAt = rows.reverse
  down_home : Ring.Leads l.ring.next 0 l.ring.slots
  up_home : Ring.Leads l.ring.prev 0 l.ring.slotsBack

namespace Mesh

variable {t : Table} {m : Mesh} {cs : List Nat} {c d : Nat}

/-- What a caller sees of the mesh of `t` with the columns `cs` covered in this order. -/
structure Shows (t : Table) (cs : List Nat) (m : Mesh) : Prop where
  active : m.activeColumns = (List.range t.primaryCount).filter fun c => decide (c ∉ cs)
  active_back : m.active.slotsBack.map (· - 1) = m.activeColumns.reverse
  active_home : Ring.Leads m.active.next 0 m.active.slots
  active_back_home : Ring.Leads m.active.prev 0 m.active.slotsBack
  lane_of_notMem : ∀ d < t.columnCount, d ∉ cs → (m.lane d).Shows (t.holdersOutside cs d)
  lane_of_mem : ∀ earlier d later, cs = earlier ++ d :: later →
    (m.lane d).Shows (t.holdersOutside earlier d)
  size : ∀ d < t.columnCount, m.columnSize d = .ok (m.lane d).ring.slots.length
  choose_eq_none : m.chooseColumn = none ↔ ∀ c < t.primaryCount, c ∈ cs
  choose_eq_some : ∀ c, m.chooseColumn = some c ↔ (c < t.primaryCount ∧ c ∉ cs) ∧
    ∀ d < t.primaryCount, d ∉ cs →
      (t.holdersOutside cs c).length < (t.holdersOutside cs d).length ∨
        (t.holdersOutside cs c).length = (t.holdersOutside cs d).length ∧ c ≤ d

namespace Reads

variable (h : Reads t cs m)
include h

/-- The rows of the linked slots. -/
theorem map_rowAt (hd : d < t.columnCount) :
    ((t.linked cs d).map (t.slotOf d)).map (m.lane d).rowAt = t.linked cs d := by
  rw [List.map_map]
  conv_rhs => rw [← List.map_id (t.linked cs d)]
  apply List.map_congr_left
  intro row hrow
  exact h.rowAt_slotOf hd (Table.mem_linked.1 hrow).1

theorem lane_shows (hd : d < t.columnCount) : (m.lane d).Shows (t.linked cs d) := by
  have hring := h.lane_ring d hd
  constructor
  · rw [hring.slots_eq, h.lane_rows d hd, List.size_toArray]
    intro slot hslot
    obtain ⟨row, hrow, rfl⟩ := List.mem_map.1 hslot
    exact Table.slotOf_mem (Table.linked_sublist.subset hrow)
  · rw [hring.slots_eq, h.map_rowAt hd]
  · rw [hring.slotsBack_eq, List.map_reverse, h.map_rowAt hd]
  · rw [hring.slots_eq]
    exact hring.leads
  · rw [hring.slotsBack_eq]
    exact hring.leadsBack

theorem columnSize_eq (hd : d < t.columnCount) :
    m.columnSize d = .ok (m.lane d).ring.slots.length := by
  have hsome : m.lanes[d]? = some (m.lane d) := by
    simp [Mesh.lane, Array.getD_eq_getD_getElem?, h.lanes_size, hd]
  rw [columnSize, hsome]
  simp only [h.lane_size d hd, (h.lane_ring d hd).slots_eq, List.length_map, Int.toNat_natCast]

end Reads

/-- Columns that differ can be covered one after the other, and the mesh then shows what the table
says. -/
theorem foldlM_cover_shows (built : t.Built) (nodup : cs.Nodup) (inRange : ∀ c ∈ cs, c < t.columnCount) :
    ∃ m, cs.foldlM cover (ofTable t) = .ok m ∧ m.Shows t cs := by
  have wf := built.wellFormed
  have hcs : t.Coverable cs := ⟨nodup, inRange⟩
  have h := reads_covering wf hcs
  have hslots := h.active.slots_eq
  have hback := h.active.slotsBack_eq
  have hmap : ∀ xs : List Nat, (xs.map (· + 1)).map (· - 1) = xs := by
    intro xs
    rw [List.map_map]
    exact List.map_id' xs
  have hactive : (covering t cs).activeColumns = t.openColumns cs.toFinset := by
    rw [activeColumns, hslots, hmap]
  have hopen : ∀ c, c ∈ t.openColumns cs.toFinset ↔ c < t.primaryCount ∧ c ∉ cs := by
    intro c
    rw [Table.mem_openColumns, List.mem_toFinset]
  have hlinked : ∀ d, d ∉ cs → t.linked cs d = t.holdersOutside cs d := by
    intro d hd
    rw [Table.linked_eq_holdersOutside, Table.takeWhile_ne_of_notMem hd]
  refine ⟨covering t cs, foldlM_cover_ofTable wf hcs, ?_, ?_, ?_, ?_, ?_, ?_, ?_, ?_, ?_⟩
  · rw [hactive, Table.openColumns]
    simp
  · rw [hback, hactive, List.map_reverse, hmap]
  · rw [hslots]
    exact h.active.leads
  · rw [hback]
    exact h.active.leadsBack
  · intro d hd hdcs
    rw [← hlinked d hdcs]
    exact h.lane_shows hd
  · rintro earlier d later rfl
    rw [← Table.linked_append_cons nodup]
    exact h.lane_shows (inRange d (by simp))
  · intro d hd
    exact h.columnSize_eq hd
  · rw [chooseColumn_covering wf hcs, Table.branchColumn_eq_none_iff, List.eq_nil_iff_forall_not_mem]
    simp only [hopen, not_and, not_not]
  · intro c
    have hsize : ∀ d, d ∉ cs →
        (t.compatible cs.toFinset d).length = (t.holdersOutside cs d).length := by
      intro d hd
      rw [← Table.linked_eq_compatible hd, hlinked d hd]
    rw [chooseColumn_covering wf hcs, Table.branchColumn_eq_some_iff]
    simp only [hopen, and_imp]
    refine and_congr_right fun hc => forall_congr' fun d => imp_congr_right fun _ =>
      imp_congr_right fun hd => ?_
    rw [hsize c hc.2, hsize d hd]

/-- The case of `abc` with a primary and a secondary column covered. -/
theorem foldlM_cover_shows_abc :
    ∃ m, [1, 2].foldlM cover (ofTable Table.abc) = .ok m ∧ m.Shows Table.abc [1, 2] :=
  foldlM_cover_shows Table.built_abc (by decide) (by decide)

end Mesh

end Covering
