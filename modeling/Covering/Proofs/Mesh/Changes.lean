import Covering.Proofs.Mesh.Covers

/-!
# Covers and uncovers in any nesting

A column that is uncovered must be the last one covered that is still covered, and a column must not
be covered twice: `Table.openAfter?` follows the columns that are covered through such changes. Main
statement, `Mesh.foldlM_change`: of all the changes made to the mesh of a table only the covers that
were not undone can be seen in it, links of hidden knots included.
-/

namespace Covering
set_option autoImplicit false

/-- A change that a caller makes to a mesh. -/
inductive Change where
  | cover (column : Nat)
  | uncover (column : Nat)
  deriving DecidableEq

/-- The columns that are covered, in the order in which they were, after a change; none if the
change covers a column twice or uncovers one that is not the last. -/
def Table.openAfter? (t : Table) (opened : List Nat) : Change → Option (List Nat)
  | .cover column =>
    if column < t.columnCount ∧ column ∉ opened then some (opened ++ [column]) else none
  | .uncover column => if opened.getLast? = some column then some opened.dropLast else none

namespace Mesh

/-- The mesh after a change. -/
def change (m : Mesh) : Change → Except Fault Mesh
  | .cover column => m.cover column
  | .uncover column => m.uncover column

variable {t : Table} {cs opened opened' : List Nat} {c : Nat} {changes : List Change}
  {step : Change}

theorem uncover_covering (wf : t.WellFormed) (hcs : t.Coverable (cs ++ [c])) :
    (covering t (cs ++ [c])).uncover c = .ok (covering t cs) := by
  have hr := reads_covering wf hcs
  rw [uncover, if_pos (hr.lanes_size ▸ hcs.last_lt), showColumn_covering wf hcs]
  exact (reads_covering wf hcs.left).checked_eq

/-- One change covers the columns it should. -/
theorem change_covering (wf : t.WellFormed) (hcs : t.Coverable opened)
    (h : t.openAfter? opened step = some opened') :
    t.Coverable opened' ∧ (covering t opened).change step = .ok (covering t opened') := by
  cases step with
  | cover c =>
    obtain ⟨⟨hc, hnew⟩, rfl⟩ : (c < t.columnCount ∧ c ∉ opened) ∧ opened ++ [c] = opened' := by
      simpa [Table.openAfter?] using h
    have hcover : t.Coverable (opened ++ [c]) := by
      constructor
      · exact List.nodup_append'.2 ⟨hcs.1, List.nodup_singleton c, by simpa using hnew⟩
      · intro d hd
        rcases List.mem_append.1 hd with hd | hd
        · exact hcs.2 d hd
        · rwa [List.mem_singleton.1 hd]
    exact ⟨hcover, cover_covering wf hcover⟩
  | uncover c =>
    obtain ⟨hlast, rfl⟩ : opened.getLast? = some c ∧ opened.dropLast = opened' := by
      simpa [Table.openAfter?] using h
    obtain ⟨cs, rfl⟩ := List.getLast?_eq_some_iff.1 hlast
    rw [List.dropLast_concat]
    exact ⟨hcs.left, uncover_covering wf hcs⟩

/-- Any number of changes. -/
theorem foldlM_change_covering (wf : t.WellFormed) (hcs : t.Coverable opened)
    (h : changes.foldlM t.openAfter? opened = some opened') :
    t.Coverable opened' ∧ changes.foldlM change (covering t opened) = .ok (covering t opened') := by
  induction changes generalizing opened with
  | nil =>
    obtain rfl : opened = opened' := by simpa using h
    exact ⟨hcs, rfl⟩
  | cons step changes ih =>
    rw [List.foldlM_cons] at h ⊢
    obtain ⟨between, hstep, hrest⟩ := Option.bind_eq_some_iff.1 h
    obtain ⟨hbetween, hchange⟩ := change_covering wf hcs hstep
    rw [hchange]
    exact ih hbetween hrest

/-- Changes of the mesh of a table succeed and leave it as if the columns still covered had been
covered in their order and nothing else had happened. If none is covered it is the mesh from
before. -/
theorem foldlM_change (built : t.Built) (h : changes.foldlM t.openAfter? [] = some opened) :
    ∃ m, changes.foldlM change (ofTable t) = .ok m ∧ opened.foldlM cover (ofTable t) = .ok m ∧
      (opened = [] → m = ofTable t) := by
  have wf := built.wellFormed
  obtain ⟨hcs, hchanges⟩ := foldlM_change_covering wf ⟨List.nodup_nil, by simp⟩ h
  refine ⟨covering t opened, hchanges, foldlM_cover_ofTable wf hcs, ?_⟩
  rintro rfl
  rfl

/-- The case of `abc` with four covers, of which two are undone before the next. -/
theorem foldlM_change_abc :
    let changes : List Change :=
      [.cover 1, .cover 0, .uncover 0, .cover 2, .cover 0, .uncover 0]
    changes.foldlM Table.abc.openAfter? [] = some [1, 2] ∧
      ∃ m, changes.foldlM change (ofTable Table.abc) = .ok m ∧
        [1, 2].foldlM cover (ofTable Table.abc) = .ok m ∧
        ([1, 2] = ([] : List Nat) → m = ofTable Table.abc) :=
  ⟨by decide, foldlM_change Table.built_abc (by decide)⟩

end Mesh

end Covering
