import Covering.Proofs.Mesh.Equality
import Covering.Proofs.Run.Replaying
import Mathlib.Data.List.Rotate

/-!
# What the branches of a run tell

Between two calls a run has chosen one row for each of its branches, and its branches tell all the
rest: which rows these are, what is covered and in which order, and how far the saved path was
followed. `Run.Consistent` spells this out by the mesh that the run began with. Main statement,
`Run.calls_consistent`: so it is after every call of `next`, also after one that fails; and a run
that has come to its end has no branches and stays as it is.

In the middle of a call this need not hold, since the rest of the saved path stands among the rows
and the innermost branch may have none. `Run.At` and `Run.Tracks` go through the steps instead.
-/

namespace Covering
set_option autoImplicit false

/-- In an ascending list stands on either side of a member what is smaller and what is larger. -/
theorem filter_lt_of_ascending {before after : List Nat} {c : Nat}
    (h : (before ++ c :: after).Pairwise (· < ·)) :
    (before ++ c :: after).filter (· < c) = before ∧
      (before ++ c :: after).filter (c < ·) = after := by
  obtain ⟨-, hright, hleft⟩ := List.pairwise_append.1 h
  have hafter : ∀ d ∈ after, c < d := (List.pairwise_cons.1 hright).1
  have hbefore : ∀ d ∈ before, d < c := fun d hd => hleft d hd c List.mem_cons_self
  constructor
  · have hall : before.filter (· < c) = before := List.filter_eq_self.2 (by simpa using hbefore)
    have hnone : after.filter (· < c) = [] :=
      List.filter_eq_nil_iff.2 (by simpa using fun d hd => (hafter d hd).le)
    rw [List.filter_append, List.filter_cons_of_neg (by simp), hall, hnone, List.append_nil]
  · have hall : after.filter (c < ·) = after := List.filter_eq_self.2 (by simpa using hafter)
    have hnone : before.filter (c < ·) = [] :=
      List.filter_eq_nil_iff.2 (by simpa using fun d hd => (hbefore d hd).le)
    rw [List.filter_append, List.filter_cons_of_neg (by simp), hall, hnone, List.nil_append]

/-- A row in ring order from one of its columns on. -/
theorem Table.WellFormed.rotate_ones {t : Table} {c row : Nat} (wf : t.WellFormed)
    (hone : c ∈ t.ones row) :
    (t.ones row).rotate ((t.ones row).idxOf c) = c :: t.mateColumns row c := by
  obtain ⟨before, after, hsplit⟩ := List.append_of_mem hone
  have hasc := wf.ascending row
  rw [hsplit] at hasc
  obtain ⟨hleft, hright⟩ := filter_lt_of_ascending hasc
  have hnot : c ∉ before := by
    rw [← hleft]
    simp
  rw [mateColumns_eq, hsplit, hleft, hright, List.idxOf_append_of_notMem hnot, List.idxOf_cons_self,
    Nat.add_zero, List.rotate_append_length_eq, List.cons_append]

namespace Branch

/-- The row that a branch of a run over `m` has chosen. -/
def row (m : Mesh) (b : Branch) : Nat := m.rowAt b.column b.slot

/-- The columns of the row that a branch has chosen, from its own rightward and around. -/
def columns (m : Mesh) (b : Branch) : List Nat :=
  let columns := (m.knots (b.row m)).map (·.column)
  columns.rotate (columns.idxOf b.column)

variable {t : Table} {cs : List Nat} {m : Mesh} {c row : Nat}

/-- What the mesh tells of a branch at a row. -/
theorem row_slotOf (wf : t.WellFormed) (h : Mesh.Reads t cs m) (hone : c ∈ t.ones row)
    (replayed : Bool) : Branch.row m ⟨c, t.slotOf c row, replayed⟩ = row :=
  h.rowAt_slotOf (wf.inRange row c hone) hone

theorem columns_slotOf (wf : t.WellFormed) (h : Mesh.Reads t cs m) (hone : c ∈ t.ones row)
    (replayed : Bool) :
    Branch.columns m ⟨c, t.slotOf c row, replayed⟩ = c :: t.mateColumns row c := by
  rw [columns, row_slotOf wf h hone, h.knots_eq, Table.map_column_knots]
  exact wf.rotate_ones hone

end Branch

namespace Run

/-- What `branches`, innermost first, cover of `m`, in this order: branch by branch its column and
then the others of its row. -/
def coverOrder (m : Mesh) (branches : List Branch) : List Nat :=
  branches.reverse.flatMap (·.columns m)

/-- The stack of rows: those chosen, and the rest of the saved path while it is followed. -/
def rows (r : Run) : List Labels := r.solution ++ r.pending

/-- The branches of a run account for all of it, if it began with the mesh `m`, in which `base` was
covered, and with the path `saved`. -/
structure Consistent (base : List Nat) (m : Mesh) (saved : List Labels) (r : Run) : Prop where
  length_rows : r.rows.length = r.level
  level_le : r.level ≤ m.table.primaryCount
  /-- Each branch has a row, which has a one in the branch's column, at its slot. -/
  rows_eq : r.rows = r.branches.reverse.map fun b => m.labelsOfRow (b.row m)
  knot : ∀ b ∈ r.branches, ⟨b.column, b.slot⟩ ∈ m.knots (b.row m)
  /-- When its level was entered the column was the one to branch on, and the row linked in it. -/
  column : ∀ inner b outer, r.branches = inner ++ b :: outer → ∃ entered,
    (coverOrder m outer).foldlM Mesh.cover m = .ok entered ∧ entered.chooseColumn = some b.column ∧
      b.slot ∈ (entered.lane b.column).ring.slots
  /-- No column is covered twice. -/
  once : (base ++ coverOrder m r.branches).Nodup
  /-- The saved path chose the rows of the first levels, and no others. -/
  replayed : ∃ k ≤ r.level, r.branches.reverse.map (·.replayed) =
      List.replicate k true ++ List.replicate (r.level - k) false ∧
    r.rows.take k = saved.take k
  mesh : (coverOrder m r.branches).foldlM Mesh.cover m = .ok r.mesh

/-- A run over `m` before its first call, from the start or from a bookmark with the path
`saved`. -/
inductive Begun (m : Mesh) : List Labels → Run → Prop
  | solve (tally : Tally) : Begun m [] (Problem.solve ⟨m, tally⟩)
  | resume (tally : Tally) (b : Bookmark) : Begun m b.path (Problem.resume ⟨m, tally⟩ b)

/-- The run after a call, whether this was answered or failed. -/
def after (r : Run) (call : Call) : Run :=
  match r.answer call with
  | .ok (_, left) => left
  | .error (_, left) => left

variable {t : Table} {base path cs : List Nat} {ahead : List (List Nat)} {saved : List Labels}
  {r r' e : Run} {b : Branch} {branches : List Branch} {ms : List Move} {solution : Solution}
  {m : Mesh} {c row : Nat}

/-- To print a solution counts it, and leaves the rest of the run alone. -/
theorem exists_after_format (r : Run) (solution : Solution) :
    ∃ tally, r.after (.format solution) = { r with tally } := by
  cases hcount : r.tally.countSolution with
  | error fault =>
    exact ⟨r.tally, by simp only [after, answer, format, hcount, bind, Except.bind]⟩
  | ok counted =>
    exact ⟨counted,
      by simp only [after, answer, format, hcount, bind, Except.bind, pure, Except.pure]⟩

theorem coverOrder_cons : coverOrder m (b :: branches) = coverOrder m branches ++ b.columns m := by
  simp [coverOrder]

/-! ## At a node of the search tree -/

/-- Within a branch stand the others at a node on the way. -/
theorem Stack.outer {inner outer : List Branch}
    (h : Stack t base (inner ++ b :: outer) path cs ahead) :
    ∃ path' cs' ahead' row, Stack t base outer path' cs' ahead' ∧
      t.branchColumn (t.coveredBy base path') = some b.column ∧ row ∈ t.children base path' ∧
      b.slot = t.slotOf b.column row := by
  induction inner generalizing path cs ahead with
  | nil =>
    cases h with
    | choice replayed outer column rows => exact ⟨_, _, _, _, outer, column, by simp [rows], rfl⟩
  | cons b' inner ih =>
    cases h with
    | choice replayed outer => exact ih outer

/-- Every level leaves fewer columns open. -/
theorem Stack.level_le (h : Stack t base branches path cs ahead) :
    branches.length + (t.openColumns (t.coveredBy base path)).length ≤ t.primaryCount := by
  induction h with
  | root =>
    have hle := List.length_filter_le (fun c => decide (c ∉ t.coveredBy base []))
      (List.range t.primaryCount)
    rw [List.length_range] at hle
    rwa [List.length_nil, Nat.zero_add]
  | @choice branches path cs ahead c row before after replayed outer column rows ih =>
    have hrow : row ∈ t.children base path := by simp [rows]
    have hlt := Table.length_openColumns_lt hrow
    rw [List.length_cons]
    omega

section

variable (wf : t.WellFormed) (hr : Mesh.Reads t base m)
include wf hr

theorem Stack.eq_coverOrder (h : Stack t base branches path cs ahead) :
    cs = base ++ coverOrder m branches := by
  induction h with
  | root => simp [coverOrder]
  | @choice branches path cs ahead c row before after replayed outer column rows ih =>
    have hrow : row ∈ t.children base path := by simp [rows]
    have hone := Table.mem_ones_of_mem_children column hrow
    rw [coverOrder_cons, Branch.columns_slotOf wf hr hone, ih, List.append_assoc]

theorem Stack.chosen_eq (h : Stack t base branches path cs ahead) :
    (t.labelsOfPath path).reverse = branches.map fun b => m.labelsOfRow (b.row m) := by
  induction h with
  | root => rfl
  | @choice branches path cs ahead c row before after replayed outer column rows ih =>
    have hrow : row ∈ t.children base path := by simp [rows]
    have hone := Table.mem_ones_of_mem_children column hrow
    rw [Table.labelsOfPath_concat, ih, List.map_cons, Branch.row_slotOf wf hr hone,
      hr.labelsOfRow_eq]

/-- A branch has chosen a row of its column. -/
theorem Stack.knot (h : Stack t base branches path cs ahead) (hb : b ∈ branches) :
    b.slot ≠ 0 ∧ ⟨b.column, b.slot⟩ ∈ m.knots (b.row m) := by
  obtain ⟨inner, outer, rfl⟩ := List.append_of_mem hb
  obtain ⟨path', cs', ahead', row, -, column, hrow, hslot⟩ := h.outer
  have hone := Table.mem_ones_of_mem_children column hrow
  obtain ⟨c, slot, replayed⟩ := b
  obtain rfl : slot = t.slotOf c row := hslot
  refine ⟨Nat.succ_ne_zero _, ?_⟩
  rw [Branch.row_slotOf wf hr hone, hr.knots_eq]
  exact List.mem_map_of_mem hone

end

/-- The run stands at the node `path`, where each of its branches has chosen a row. -/
structure Lands (t : Table) (base path cs : List Nat) (ahead : List (List Nat)) (r : Run) :
    Prop where
  stack : Stack t base r.branches path cs ahead
  mesh : r.mesh = .covering t cs
  chosen : r.chosen = (t.labelsOfPath path).reverse
  started : r.started = true

/-- Between two calls a run stands at a node, and nothing of the saved path is left. -/
structure Settled (t : Table) (base : List Nat) (saved : List Labels) (r : Run) : Prop where
  lands : ∃ path cs ahead, r.Lands t base path cs ahead
  pending : r.pending = []
  tracks : r.Tracks saved

/-- Before a call, the first one included, it stands somewhere in its search. -/
structure Searching (t : Table) (base : List Nat) (saved : List Labels) (r : Run) : Prop where
  stands : ∃ ms, At t base r ms
  tracks : r.Tracks saved

theorem Settled.searching (h : r.Settled t base saved) : r.Searching t base saved := by
  obtain ⟨path, cs, ahead, hlands⟩ := h.lands
  exact ⟨⟨_, .settled hlands.stack hlands.mesh hlands.chosen hlands.started h.pending⟩, h.tracks⟩

theorem Begun.searching (h : Begun (.covering t base) saved r) : r.Searching t base saved := by
  cases h with
  | solve tally => exact ⟨⟨_, at_solve rfl⟩, tracks_start ..⟩
  | resume tally b => exact ⟨⟨_, at_resume b rfl⟩, tracks_start ..⟩

section

variable (wf : t.WellFormed) (hb : t.Coverable base)
include wf hb

/-- The mesh that the branches at a node have covered. -/
theorem Stack.foldlM_coverOrder (h : Stack t base branches path cs ahead) :
    (coverOrder (.covering t base) branches).foldlM Mesh.cover (.covering t base) =
      .ok (.covering t cs) := by
  have hcs := (h.covers wf hb).1
  rw [h.eq_coverOrder wf (Mesh.reads_covering wf hb)] at hcs ⊢
  exact Mesh.foldlM_cover wf hcs

/-- So the branches account for the run. -/
theorem Settled.consistent (h : r.Settled t base saved) :
    r.Consistent base (.covering t base) saved := by
  obtain ⟨⟨path, cs, ahead, stack, mesh, chosen, -⟩, pending, tracks⟩ := h
  have hr := Mesh.reads_covering wf hb
  have hrows : r.rows = r.branches.reverse.map fun b =>
      (Mesh.covering t base).labelsOfRow (b.row (.covering t base)) := by
    rw [rows, solution, pending, List.append_nil, chosen, stack.chosen_eq wf hr, List.map_reverse]
  have hchoosers : r.choosers = r.branches :=
    List.filter_eq_self.2 fun b hb' => by simpa using (stack.knot wf hr hb').1
  constructor
  case length_rows => rw [hrows, List.length_map, List.length_reverse, level]
  case level_le =>
    rw [hr.table]
    exact (Nat.le_add_right _ _).trans stack.level_le
  case rows_eq => exact hrows
  case knot => exact fun b hb' => (stack.knot wf hr hb').2
  case column =>
    intro inner b outer hsplit
    rw [hsplit] at stack
    obtain ⟨path', cs', ahead', row, stack', column, hrow, hslot⟩ := stack.outer
    obtain ⟨hcs, hset⟩ := stack'.covers wf hb
    have hnew := (stack'.coverable_concat wf hb column).last_notMem
    refine ⟨_, stack'.foldlM_coverOrder wf hb, ?_, ?_⟩
    · rw [Mesh.chooseColumn_covering wf hcs, hset]
      exact column
    · have hlt := (stack'.coverable_concat wf hb column).last_lt
      rw [((Mesh.reads_covering wf hcs).lane_ring b.column hlt).slots_eq,
        Table.linked_eq_compatible hnew, hset, ← Table.children_eq column, hslot]
      exact List.mem_map_of_mem hrow
  case once =>
    rw [← stack.eq_coverOrder wf hr]
    exact (stack.covers wf hb).1.1
  case replayed =>
    have htraced := tracks.traced
    rw [hchoosers] at htraced
    obtain ⟨k, hk, hflags, htake⟩ := htraced.exists_level
    refine ⟨k, hk, hflags, ?_⟩
    rw [rows, pending, List.append_nil]
    exact htake
  case mesh =>
    rw [mesh]
    exact stack.foldlM_coverOrder wf hb

/-! ## Through a call -/

/-- A level begins at a node. -/
theorem At.lands (h : At t base r ms) (hentrance : r.entrance = some e) :
    ∃ path cs ahead, e.Lands t base path cs ahead := by
  rcases entrance_cases hentrance with
    ⟨started, rfl⟩ | ⟨b, branches, slot, mesh, started, top, hfind, hcover, rfl⟩
  · cases h with
    | fresh mesh branches chosen =>
      exact ⟨[], base, [], ⟨branches ▸ .root, mesh, chosen, rfl⟩⟩
    | opened stack column top mesh chosen hstarted => simp [hstarted] at started
    | settled stack mesh chosen hstarted => simp [hstarted] at started
  · obtain ⟨path, cs, ahead, rows, hpoised⟩ := h.poised wf hb top
    have hmem := List.mem_of_find?_eq_some hfind
    rw [hpoised.mesh, hpoised.slots] at hmem
    obtain ⟨row, hrow, rfl⟩ := List.mem_map.1 hmem
    have hchild := hpoised.subset hrow
    have hone := Table.mem_ones_of_mem_children hpoised.column hchild
    obtain ⟨before, after, hsplit⟩ := List.append_of_mem hchild
    have hcs := hpoised.stack.coverable_concat wf hb hpoised.column
    rw [hpoised.mesh, hpoised.stack.coverMates_row wf hb hpoised.column hchild] at hcover
    refine ⟨path ++ [row], cs ++ b.column :: t.mateColumns row b.column,
      t.subtrees base path after ++ ahead, ?_, (Except.ok.inj hcover).symm, ?_, ?_⟩
    · simp only [tail_undo top]
      exact .choice _ hpoised.stack hpoised.column hsplit
    · simp only [hpoised.mesh, labels_slotOf wf hcs hone, hpoised.chosen, Table.labelsOfPath_concat]
    · exact (r.undo_frame b).2.2.2.trans started

/-- A solution is the rows of the run, and the run is settled. -/
theorem At.settled_of_found (h : At t base r ms) (tracks : r.Tracks saved)
    (hturn : r.step.turn = .ok (.found solution r')) :
    r'.Settled t base saved ∧ solution = r'.rows := by
  have hgoes := r.goes_step
  generalize hstep : r.step.turn = turn at hgoes hturn
  cases hgoes with
  | @entered e hentrance =>
    obtain ⟨path, cs, ahead, hlands⟩ := h.lands wf hb hentrance
    have htracks := tracks.entrance hentrance
    have henters := e.enters_enter
    rw [hturn] at henters
    cases henters with
    | found =>
      refine ⟨⟨⟨path, cs, ahead, hlands.stack, hlands.mesh, hlands.chosen, hlands.started⟩, rfl,
        htracks.traced, fun hnil => absurd rfl hnil⟩, ?_⟩
      rw [rows, List.append_nil]
      rfl
  | retreated => cases hturn
  | ended => cases hturn
  | failed => cases hturn

/-- So it is where the counter was full as a level began. -/
theorem At.settled_of_failed (h : At t base r ms) (tracks : r.Tracks saved)
    (hturn : r.step.turn = .error .tallyOverflow) : r.interrupted.Settled t base saved := by
  obtain ⟨e, hentrance, hfull⟩ := step_overflows_iff.1 hturn
  rw [interrupted_of_entrance hentrance]
  exact ⟨h.lands wf hb hentrance, hfull.off, tracks.entrance hentrance⟩

omit wf hb in
/-- And at the end. -/
theorem At.settled_of_over (h : At t base r ms) (tracks : r.Tracks saved) (hover : r.Over) :
    r.Settled t base saved := by
  cases h with
  | fresh mesh branches chosen depth started =>
    rw [hover.started] at started
    cases started
  | opened stack column top =>
    rw [hover.branches] at top
    cases top
  | settled stack mesh chosen started pending =>
    exact ⟨⟨_, _, _, stack, mesh, chosen, started⟩, pending, tracks⟩

/-- What is left of a call leaves the run settled. -/
theorem seek_settles (bound : Nat) (events : Array Event) (h : At t base r ms)
    (tracks : r.Tracks saved) :
    match (seek bound r events).2 with
    | .ok (some solution, left) => left.Settled t base saved ∧ solution = left.rows
    | .ok (none, left) => left.Settled t base saved ∧ left.Over
    | .error fault => fault = .tallyOverflow → (stopped bound r).Settled t base saved := by
  -- `At` goes on by what the step does, `Tracks` by what it comes to.
  induction bound generalizing r ms events with
  | zero => exact fun hfault => by cases hfault
  | succ bound ih =>
    have hdoes := step_does wf hb h
    simp only [seek, stopped]
    cases hturn : r.step.turn with
    | error fault =>
      rintro rfl
      exact h.settled_of_failed wf hb tracks hturn
    | ok turn =>
      have hstep : r.step = ⟨r.step.events, .ok turn⟩ := by rw [← hturn]
      rw [hstep] at hdoes
      cases turn with
      | found solution left => exact h.settled_of_found wf hb tracks hturn
      | moved next =>
        cases hdoes with
        | moved stands => exact ih _ stands (tracks.step hturn)
      | ended left =>
        obtain ⟨rfl, hover⟩ := step_ended hturn
        exact ⟨h.settled_of_over tracks hover, hover⟩

/-- A call of `next` leaves the run settled, whatever comes of it. -/
theorem Searching.next_settles (h : r.Searching t base saved) :
    match r.next.2 with
    | .ok (some solution, left) => left.Settled t base saved ∧ solution = left.rows
    | .ok (none, left) => left.Settled t base saved ∧ left.Over
    | .error fault => fault = .tallyOverflow ∧ (r.after .next).Settled t base saved := by
  obtain ⟨⟨ms, hat⟩, htracks⟩ := h
  have hsettles := seek_settles wf hb r.stepBound #[] hat htracks
  have hfault := (hat.completes wf hb).fault
  rw [← next] at hsettles
  simp only [after, answer]
  generalize r.next.2 = result at hsettles hfault ⊢
  cases result with
  | error fault => exact ⟨hfault fault rfl, hsettles (hfault fault rfl)⟩
  | ok given =>
    obtain ⟨found, left⟩ := given
    cases found with
    | none => exact hsettles
    | some solution => exact hsettles

/-- Any call leaves the run in its search. -/
theorem Searching.after (h : r.Searching t base saved) (call : Call) :
    (r.after call).Searching t base saved := by
  cases call with
  | format solution =>
    obtain ⟨⟨ms, hat⟩, htracks⟩ := h
    obtain ⟨tally, hafter⟩ := r.exists_after_format solution
    rw [hafter]
    exact ⟨⟨ms, hat.retally tally⟩, htracks.traced, htracks.pending⟩
  | next =>
    have hsettles := h.next_settles wf hb
    cases hnext : r.next.2 with
    | error fault =>
      rw [hnext] at hsettles
      exact hsettles.2.searching
    | ok given =>
      obtain ⟨found, left⟩ := given
      have hafter : r.after .next = left := by simp only [Run.after, answer, hnext]
      rw [hnext] at hsettles
      rw [hafter]
      cases found with
      | none => exact hsettles.1.searching
      | some solution => exact hsettles.1.searching

theorem Searching.foldl_after (h : r.Searching t base saved) (calls : List Call) :
    (calls.foldl Run.after r).Searching t base saved := by
  induction calls generalizing r with
  | nil => exact h
  | cons call calls ih => exact ih (h.after wf hb call)

end

/-! ## After the end -/

theorem Over.after (h : r.Over) (call : Call) : (r.after call).Over := by
  cases call with
  | next => simpa only [Run.after, answer, h.next] using h
  | format solution =>
    obtain ⟨tally, hafter⟩ := r.exists_after_format solution
    rw [hafter]
    exact ⟨h.started, h.branches⟩

theorem Over.foldl_after (h : r.Over) (calls : List Call) : (calls.foldl Run.after r).Over := by
  induction calls generalizing r with
  | nil => exact h
  | cons call calls ih => exact ih (h.after call)

/-- However a search over a table was begun and whatever was asked of it before, after a call of
`next` its branches account for all of it, and a solution that the call finds is its rows. Once
there was no solution any more it has neither rows nor branches, and a further call of `next` finds
none, tells nothing and leaves the run as it is, its tally included. -/
theorem calls_consistent (built : t.Built) (nodup : base.Nodup)
    (inRange : ∀ c ∈ base, c < t.columnCount) :
    ∃ m, base.foldlM Mesh.cover (.ofTable t) = .ok m ∧
      ∀ saved r, Begun m saved r → ∀ calls : List Call,
        match (calls.foldl after r).next.2 with
        | .ok (some solution, left) => left.Consistent base m saved ∧ solution = left.rows
        | .ok (none, left) =>
          left.Consistent base m saved ∧ left.rows = [] ∧ left.branches = [] ∧
            ∀ later : List Call, (later.foldl after left).next =
              (#[], .ok (none, later.foldl after left))
        | .error fault =>
          fault = .tallyOverflow ∧ ((calls.foldl after r).after .next).Consistent base m saved := by
  have wf := built.wellFormed
  have hb : t.Coverable base := ⟨nodup, inRange⟩
  refine ⟨.covering t base, Mesh.foldlM_cover_ofTable wf hb, fun saved r hbegun calls => ?_⟩
  have hsettles := (hbegun.searching.foldl_after wf hb calls).next_settles wf hb
  generalize (calls.foldl after r).next.2 = result at hsettles ⊢
  match result with
  | .ok (some solution, left) => exact ⟨hsettles.1.consistent wf hb, hsettles.2⟩
  | .ok (none, left) =>
    obtain ⟨hsettled, hover⟩ := hsettles
    have hconsistent := hsettled.consistent wf hb
    refine ⟨hconsistent, ?_, hover.branches, fun later => (hover.foldl_after later).next_eq⟩
    rw [hconsistent.rows_eq, hover.branches]
    rfl
  | .error fault => exact ⟨hsettles.1, hsettles.2.consistent wf hb⟩

/-- The case of `abc` with its secondary column covered, resumed at a row of its first column: a
call finds a solution, whose first row the path has chosen, and a further call none. -/
theorem calls_consistent_abc :
    let m := Mesh.covering Table.abc [2]
    let r := Problem.resume ⟨m, .zero⟩ ⟨[["a"]], some ⟨0, 1⟩, true⟩
    let left := r.after .next
    let ended := left.after .next
    Begun m [["a"]] r ∧
      (r.next.2 = .ok (some [["a"], ["b"]], left) ∧ left.Consistent [2] m [["a"]] ∧
        left.branches.map (·.replayed) = [false, true]) ∧
      left.next.2 = .ok (none, ended) ∧ ended.Consistent [2] m [["a"]] ∧
        ended.next = (#[], .ok (none, ended)) := by
  obtain ⟨m, hm, h⟩ := calls_consistent Table.built_abc (by decide : [2].Nodup) (by decide)
  obtain rfl : m = .covering Table.abc [2] := Except.ok.inj (hm.symm.trans
    (Mesh.foldlM_cover_ofTable Table.built_abc.wellFormed ⟨by decide, by decide⟩))
  have hfound : ∀ saved r solution left, Begun (.covering Table.abc [2]) saved r →
      r.next.2 = .ok (some solution, left) →
      left.Consistent [2] (.covering Table.abc [2]) saved := by
    intro saved r solution left hbegun hnext
    have hcall := h saved r hbegun []
    rw [List.foldl_nil, hnext] at hcall
    exact hcall.1
  have hnone : ∀ saved r ended, Begun (.covering Table.abc [2]) saved r →
      (r.after .next).next.2 = .ok (none, ended) →
      ended.Consistent [2] (.covering Table.abc [2]) saved ∧
        ended.next = (#[], .ok (none, ended)) := by
    intro saved r ended hbegun hnext
    have hcall := h saved r hbegun [.next]
    rw [List.foldl_cons, List.foldl_nil, hnext] at hcall
    exact ⟨hcall.1, hcall.2.2.2 []⟩
  intro m r left ended
  have hbegun : Begun m [["a"]] r := .resume .zero ⟨[["a"]], some ⟨0, 1⟩, true⟩
  have hfirst : r.next.2 = .ok (some [["a"], ["b"]], left) := by decide +kernel
  have hsecond : left.next.2 = .ok (none, ended) := by decide +kernel
  have hflags : left.branches.map (·.replayed) = [false, true] := by decide +kernel
  have hlast := hnone _ r ended hbegun hsecond
  exact ⟨hbegun, ⟨hfirst, hfound _ r _ left hbegun hfirst, hflags⟩, hsecond, hlast⟩

end Run

end Covering
