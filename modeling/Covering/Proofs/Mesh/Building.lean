import Covering.Proofs.Ring
import Covering.Proofs.Table.Knots

/-!
# The mesh that a table is made into

Main statement, `Mesh.ofTable_shape`: in the mesh of a table each row has its labels and its knots,
each lane has the rows that use its column, all linked, and the active ring has the primary
columns. The proof follows the rows as they are pushed, with `Mesh.Shape` as invariant.
-/

namespace Covering
set_option autoImplicit false

namespace Lane

variable {rows : List Nat} {row : Nat}

/-- The lane of a column with ones in `rows`, all of them linked. -/
def ofRows (rows : List Nat) : Lane := rows.foldl push .empty

theorem ofRows_concat : ofRows (rows ++ [row]) = (ofRows rows).push row := by
  simp [ofRows, List.foldl_append]

theorem rows_ofRows : (ofRows rows).rows = rows.toArray := by
  induction rows using List.reverseRecOn with
  | nil => rfl
  | append_singleton rows row ih => simp [ofRows_concat, push, ih]

theorem size_ofRows : (ofRows rows).size = rows.length := by
  induction rows using List.reverseRecOn with
  | nil => rfl
  | append_singleton rows row ih => simp [ofRows_concat, push, ih]

/-- The ring of a lane links the slots from 1 on. -/
theorem ring_ofRows : (ofRows rows).ring.Square ∧ (ofRows rows).ring.next.size = rows.length + 1 ∧
    (ofRows rows).ring.Spells (List.range' 1 rows.length) := by
  induction rows using List.reverseRecOn with
  | nil => exact ⟨rfl, rfl, Ring.spells_empty⟩
  | append_singleton rows row ih =>
    obtain ⟨hsq, hsz, hsp⟩ := ih
    rw [ofRows_concat]
    refine ⟨hsq.push, ?_, ?_⟩
    · simp [push, Ring.push, hsz]
    · have hpush := hsp.push hsq
      rw [hsz] at hpush
      rwa [List.length_append, List.length_singleton, List.range'_concat, Nat.one_mul, Nat.add_comm 1]

end Lane

namespace Mesh

variable {t : Table} {m : Mesh} {n c d : Nat}

/-- `m` has the columns of `t` and its first `n` rows, all of them linked. -/
structure Shape (t : Table) (n : Nat) (m : Mesh) : Prop where
  table : m.table = t
  labels : m.labels = ((List.range n).map t.labels).toArray
  rows : m.rows = ((List.range n).map t.knots).toArray
  lanes_size : m.lanes.size = t.columnCount
  lane : ∀ c < t.columnCount, m.lane c = Lane.ofRows (t.holdersBelow n c)
  active : m.active = (ofHeader t).active

theorem shape_ofHeader : Shape t 0 (ofHeader t) where
  table := rfl
  labels := rfl
  rows := rfl
  lanes_size := by simp [ofHeader]
  lane c hc := by simp [ofHeader, Mesh.lane, hc, Table.holdersBelow, Lane.ofRows]
  active := rfl

/-- Lanes that get a knot each, one after the other. -/
theorem getD_foldl_push {row : Nat} {columns : List Nat} (hd : columns.Nodup) (lanes : Array Lane)
    (hc : c < lanes.size) :
    (columns.foldl (fun lanes c => lanes.modify c (·.push row)) lanes).size = lanes.size ∧
    (columns.foldl (fun lanes c => lanes.modify c (·.push row)) lanes).getD c .empty =
      if c ∈ columns then (lanes.getD c .empty).push row else lanes.getD c .empty := by
  induction columns generalizing lanes with
  | nil => simp
  | cons d columns ih =>
    obtain ⟨hnd, hd⟩ := List.nodup_cons.1 hd
    obtain ⟨hs, hl⟩ := ih hd (lanes.modify d (·.push row)) (by simpa using hc)
    refine ⟨by simpa using hs, ?_⟩
    rw [List.foldl_cons, hl]
    by_cases hcd : c = d
    · subst hcd
      simp [hnd, Array.getD_eq_getD_getElem?, hc, Array.getElem_modify]
    · simp [hcd, Ne.symm hcd, Array.getD_eq_getD_getElem?, Array.getElem?_modify]

/-- The next row. -/
theorem Shape.pushRow (h : Shape t n m) (wf : t.WellFormed) : Shape t (n + 1) (m.pushRow (t.ones n)) where
  table := h.table
  labels := by simp [Mesh.pushRow, h.labels, h.table, List.range_succ, Table.labels]
  rows := by
    have hk : ∀ c ∈ t.ones n, (m.lanes.getD c .empty).rows.size + 1 = t.slotOf c n := by
      intro c hc
      have hl := h.lane c (wf.inRange n c hc)
      simp only [Mesh.lane] at hl
      rw [hl, Lane.rows_ofRows]
      rfl
    have hknots : (t.ones n).map (fun c => Knot.mk c ((m.lanes.getD c .empty).rows.size + 1)) =
        t.knots n := List.map_congr_left fun c hc => by rw [hk c hc]
    simp only [Mesh.pushRow]
    rw [hknots, h.rows, List.range_succ]
    simp
  lanes_size := by
    simp only [Mesh.pushRow]
    by_cases h0 : 0 < m.lanes.size
    · rw [(getD_foldl_push wf.ones_nodup m.lanes h0).1, h.lanes_size]
    · have hnil : t.ones n = [] := by
        apply List.eq_nil_iff_forall_not_mem.2
        intro c hc
        have := wf.inRange n c hc
        rw [h.lanes_size] at h0
        omega
      rw [hnil]
      exact h.lanes_size
  lane c hc := by
    have hl := h.lane c hc
    simp only [Mesh.lane] at hl
    simp only [Mesh.lane, Mesh.pushRow]
    rw [(getD_foldl_push wf.ones_nodup m.lanes (h.lanes_size ▸ hc)).2, hl, Table.holdersBelow_succ]
    have hn : m.rows.size = n := by simp [h.rows]
    split
    · rw [Lane.ofRows_concat, hn]
    · rw [List.append_nil]
  active := h.active

theorem shape_take (wf : t.WellFormed) (hn : n ≤ t.rowCount) :
    Shape t n ((t.rows.take n).foldl pushRow (ofHeader t)) := by
  induction n with
  | zero => exact shape_ofHeader
  | succ n ih =>
    have hlt : n < t.rows.length := hn
    rw [← List.take_concat_get' _ _ hlt, List.foldl_append]
    have hones : t.rows[n] = t.ones n := (List.getD_eq_getElem _ _ hlt).symm
    rw [hones]
    exact (ih (by omega)).pushRow wf

/-- The mesh of a table has all its rows. -/
theorem ofTable_shape (wf : t.WellFormed) : Shape t t.rowCount (ofTable t) := by
  have h := shape_take wf (Nat.le_refl t.rowCount)
  rwa [Table.rowCount, List.take_length] at h

/-- Pushing rows does not change the table that a mesh is of. -/
theorem table_ofTable (t : Table) : (ofTable t).table = t := by
  have hpush : ∀ (rows : List (List Nat)) (m : Mesh), (rows.foldl pushRow m).table = m.table := by
    intro rows
    induction rows with
    | nil => exact fun _ => rfl
    | cons row rows ih => exact fun m => ih (m.pushRow row)
  exact hpush t.rows (ofHeader t)

/-! ## The active ring -/

/-- The ring of the first `n` columns: the primary ones linked, the others by themselves. -/
def activeUpTo (t : Table) (n : Nat) : Ring :=
  (List.range n).foldl (fun ring c => if c < t.primaryCount then ring.push else ring.pushAlone) .empty

theorem activeUpTo_succ : activeUpTo t (n + 1) =
    if n < t.primaryCount then (activeUpTo t n).push else (activeUpTo t n).pushAlone := by
  simp [activeUpTo, List.range_succ, List.foldl_append]

theorem active_upTo : (activeUpTo t n).Square ∧ (activeUpTo t n).next.size = n + 1 ∧
    (activeUpTo t n).Spells (List.range' 1 (min n t.primaryCount)) ∧
    ∀ c, t.primaryCount ≤ c → c < n → (activeUpTo t n).Joined (c + 1) (c + 1) := by
  induction n with
  | zero => exact ⟨rfl, rfl, by simpa [activeUpTo] using Ring.spells_empty, by omega⟩
  | succ n ih =>
    obtain ⟨hsq, hsz, hsp, hal⟩ := ih
    rw [activeUpTo_succ]
    split
    · next hp =>
      refine ⟨hsq.push, by rw [Ring.size_push, hsz], ?_, by omega⟩
      have hpush := hsp.push hsq
      rw [hsz, Nat.min_eq_left hp.le] at hpush
      rwa [Nat.min_eq_left hp, List.range'_concat, Nat.one_mul, Nat.add_comm 1]
    · next hp =>
      refine ⟨hsq.pushAlone, by rw [Ring.size_pushAlone, hsz], ?_, fun c hpc hcn => ?_⟩
      · have halone := hsp.pushAlone hsq
        rw [Nat.min_eq_right (by omega)] at halone ⊢
        exact halone
      · rcases Nat.lt_or_eq_of_le (Nat.le_of_lt_succ hcn) with hlt | rfl
        · exact (hal c hpc hlt).pushAlone
        · rw [← hsz]
          exact Ring.joined_pushAlone hsq

theorem active_ofHeader : (ofHeader t).active.Spells ((List.range t.primaryCount).map (· + 1)) ∧
    ∀ c, t.primaryCount ≤ c → c < t.columnCount → (ofHeader t).active.Joined (c + 1) (c + 1) := by
  obtain ⟨_, _, hsp, hal⟩ := active_upTo (t := t) (n := t.columnCount)
  rw [Nat.min_eq_right Table.primaryCount_le] at hsp
  have hr : (List.range t.primaryCount).map (· + 1) = List.range' 1 t.primaryCount := by
    rw [List.range'_eq_map_range]
    exact List.map_congr_left fun c _ => Nat.add_comm c 1
  rw [hr]
  exact ⟨hsp, hal⟩

end Mesh

end Covering
