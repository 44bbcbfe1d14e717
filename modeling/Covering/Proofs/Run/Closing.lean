import Covering.Run.Calls
import Covering.Proofs.Run.Calls

/-!
# A run gives its mesh back

Wherever a run is given up, closing it undoes all its covers, innermost first. Between two steps
this is so because the branches say exactly what is covered: `Run.unwind_stack`. A step that fails
does so at the moment it begins a level, and leaves the run in the state `Run.interrupted`, with the
row chosen and no column covered for the new level; closing undoes that, too. A run that has come to
its end has no branches, so there is nothing to undo.

Main statement: `Run.perform_keeps`, for any calls that a caller makes, as long as nobody breaks off at
a report.
-/

namespace Covering
set_option autoImplicit false

namespace Run

variable {t : Table} {base path cs : List Nat} {ahead : List (List Nat)} {r r' : Run}
  {branches : List Branch} {ms : List Move} {c row : Nat}

/-- To undo a choice changes the mesh and the rows only. -/
theorem undo_frame (r : Run) (b : Branch) :
    (r.undo b).tally = r.tally ∧ (r.undo b).branches = r.branches ∧
      (r.undo b).watched = r.watched ∧ (r.undo b).started = r.started := by
  unfold undo
  split <;> exact ⟨rfl, rfl, rfl, rfl⟩

theorem tail_undo {b : Branch} (top : r.branches = b :: branches) :
    (r.undo b).branches.tail = branches := by
  rw [(r.undo_frame b).2.1, top, List.tail_cons]

/-! ## What closing undoes -/

/-- A run that has nothing more to do. -/
structure Over (r : Run) : Prop where
  started : r.started = true
  branches : r.branches = []

theorem enter_turn_ne_ended : r.enter.turn ≠ .ok (.ended r') := by
  unfold enter
  split
  · split
    · simp
    · split <;> simp
  · next column _ =>
    have hcover : ∀ tally : Tally, (do
        let mesh ← r.mesh.cover column
        return .moved { r with mesh, tally, branches := ⟨column, 0, false⟩ :: r.branches }) ≠
          Except.ok (Turn.ended r') := by
      intro tally
      cases r.mesh.cover column <;> simp [bind, Except.bind, pure, Except.pure]
    cases hpending : r.pending.isEmpty with
    | false =>
      exact hcover r.tally
    | true =>
      simp only [if_true]
      cases r.tally.countSearch with
      | error fault => simp [bind, Except.bind]
      | ok counted => exact hcover counted

theorem choose_turn_ne_ended {slot : Nat} {replayed : Bool} :
    (r.choose c slot replayed).turn ≠ .ok (.ended r') := by
  unfold choose
  split
  · simp
  · exact enter_turn_ne_ended

/-- A run ends only when its last branch is gone. -/
theorem step_ended (h : r.step.turn = .ok (.ended r')) : r' = r ∧ r.Over := by
  unfold step at h
  split at h
  · next started =>
    split at h
    · next branches =>
      simp only [Except.ok.injEq, Turn.ended.injEq] at h
      exact ⟨h.symm, started, branches⟩
    · next branch _ _ =>
      exfalso
      unfold advance at h
      simp only at h
      split at h
      · split at h
        · exact choose_turn_ne_ended h
        · simp at h
      · split at h
        · simp at h
        · exact choose_turn_ne_ended h
  · exact absurd h enter_turn_ne_ended

theorem seek_none {bound : Nat} {events : Array Event}
    (h : (seek bound r events).2 = .ok (none, r')) : r'.Over := by
  induction bound generalizing r events with
  | zero => simp [seek] at h
  | succ bound ih =>
    simp only [seek] at h
    cases hturn : r.step.turn with
    | error fault => simp [hturn] at h
    | ok turn =>
      simp only [hturn] at h
      cases turn with
      | found solution s => simp at h
      | moved s => exact ih h
      | ended s =>
        obtain ⟨rfl, hover⟩ := step_ended hturn
        simp only [Except.ok.injEq, Prod.mk.injEq, true_and] at h
        exact h ▸ hover

/-- A run that is over stays so, and tells nothing. -/
theorem Over.next_eq (h : r.Over) : r.next = (#[], .ok (none, r)) := by
  have hstep : r.step = ⟨[], .ok (.ended r)⟩ := by rw [step, if_pos h.started, h.branches]
  obtain ⟨bound, hbound⟩ := Nat.exists_eq_succ_of_ne_zero (stepBound_pos r).ne'
  rw [Run.next, hbound, seek, hstep]
  rfl

theorem Over.next (h : r.Over) : r.next.2 = .ok (none, r) := by rw [h.next_eq]

section

variable (wf : t.WellFormed) (hb : t.Coverable base)
include wf hb

/-- Closing undoes the covers at a node of the search tree, row by row and column by column. -/
theorem unwind_stack (stack : Stack t base branches path cs ahead) :
    unwind (.covering t cs) branches = .covering t base := by
  induction stack with
  | root => rfl
  | @choice branches path cs ahead c row before after replayed outer column rows ih =>
    have hrow : row ∈ t.children base path := by simp [rows]
    have hslot : ¬t.slotOf c row = 0 := Nat.succ_ne_zero _
    simp only [unwind, if_neg hslot, outer.showMates_row wf hb column hrow,
      Mesh.showColumn_covering wf (outer.coverable_concat wf hb column)]
    exact ih

/-- Closing undoes the cover of a column none of whose rows is chosen. -/
theorem unwind_opened {replayed : Bool} (stack : Stack t base branches path cs ahead)
    (column : t.branchColumn (t.coveredBy base path) = some c) :
    unwind (.covering t (cs ++ [c])) (⟨c, 0, replayed⟩ :: branches) = .covering t base := by
  rw [unwind, if_pos rfl, Mesh.showColumn_covering wf (stack.coverable_concat wf hb column)]
  exact unwind_stack wf hb stack

/-- Between two steps. -/
theorem At.close_mesh (h : At t base r ms) : r.close.mesh = .covering t base := by
  rw [close]
  cases h with
  | fresh mesh branches => rw [mesh, branches, unwind]
  | opened stack column top mesh =>
    rw [mesh, top]
    exact unwind_opened wf hb stack column
  | settled stack mesh =>
    rw [mesh]
    exact unwind_stack wf hb stack

/-- With a row just chosen. -/
theorem close_entering {s : Run} {replayed : Bool}
    (h : r.entering c (t.slotOf c row) replayed = .ok s)
    (stack : Stack t base branches path cs ahead)
    (column : t.branchColumn (t.coveredBy base path) = some c) (hrow : row ∈ t.children base path)
    (mesh : r.mesh = .covering t (cs ++ [c])) (tail : r.branches.tail = branches) :
    s.close.mesh = .covering t base := by
  obtain ⟨before, after, rows⟩ := List.append_of_mem hrow
  rw [entering, mesh, stack.coverMates_row wf hb column hrow] at h
  obtain rfl := Except.ok.inj h
  simp only [close, tail]
  exact unwind_stack wf hb (.choice replayed stack column rows)

/-- The innermost branch `b` of `r` with its choice undone: its column is covered at the node
`path`, and `rows` are those still to be tried of the rows that this node branches into. -/
structure Poised (t : Table) (base : List Nat) (r : Run) (b : Branch) (branches : List Branch)
    (path cs : List Nat) (ahead : List (List Nat)) (rows : List Nat) : Prop where
  stack : Stack t base branches path cs ahead
  column : t.branchColumn (t.coveredBy base path) = some b.column
  slot : b.slot = 0 ∨ ∃ row ∈ t.children base path, b.slot = t.slotOf b.column row
  subset : rows ⊆ t.children base path
  slots : ((Mesh.covering t (cs ++ [b.column])).lane b.column).ring.after b.slot =
    rows.map (t.slotOf b.column)
  mesh : (r.undo b).mesh = .covering t (cs ++ [b.column])
  chosen : (r.undo b).chosen = (t.labelsOfPath path).reverse

/-- Between two steps a branch is about to move on. -/
theorem At.poised {b : Branch} (h : At t base r ms) (top : r.branches = b :: branches) :
    ∃ path cs ahead rows, r.Poised t base b branches path cs ahead rows := by
  cases h with
  | fresh mesh none =>
    rw [none] at top
    cases top
  | opened stack column first mesh chosen =>
    obtain ⟨rfl, rfl⟩ := List.cons.inj (first.symm.trans top)
    exact ⟨_, _, _, _, stack, column, .inl rfl, List.Subset.refl _, after_opened wf hb stack column,
      mesh, chosen⟩
  | settled stack mesh chosen =>
    generalize hbs : r.branches = stacked at stack
    cases stack with
    | root =>
      rw [hbs] at top
      cases top
    | @choice branches path cs ahead c row before after replayed outer column rows =>
      obtain ⟨rfl, rfl⟩ := List.cons.inj (hbs.symm.trans top)
      have hrow : row ∈ t.children base path := by simp [rows]
      have hslot : ¬t.slotOf c row = 0 := Nat.succ_ne_zero _
      refine ⟨path, cs, ahead, after, outer, column, .inr ⟨row, hrow, rfl⟩, ?_,
        after_chosen wf hb outer column rows, ?_, ?_⟩
      · intro row' hrow'
        simp [rows, hrow']
      · simp only [undo, if_neg hslot, mesh]
        exact outer.showMates_row wf hb column hrow
      · simp only [undo, if_neg hslot, chosen, Table.labelsOfPath_concat, List.tail_cons]

/-- In the middle of a step of a branch. -/
theorem Poised.close_interrupted {b : Branch} {rows : List Nat}
    (h : r.Poised t base b branches path cs ahead rows) (started : r.started = true)
    (top : r.branches = b :: branches) (hclose : r.close.mesh = .covering t base) :
    r.interrupted.close.mesh = .covering t base := by
  have hbranches := tail_undo top
  unfold interrupted
  rw [if_pos started, top]
  simp only [h.mesh, h.slots]
  split
  · next s entered =>
    split at entered
    · next wanted later _ =>
      split at entered
      · next slot hfind =>
        obtain ⟨row, hrow, rfl⟩ := List.mem_map.1 (List.mem_of_find?_eq_some hfind)
        exact close_entering wf hb entered h.stack h.column (h.subset hrow) rfl hbranches
      · exact Except.ok.inj entered ▸ hclose
    · split at entered
      · exact Except.ok.inj entered ▸ hclose
      · next slot _ hslots =>
        have hslot : slot ∈ rows.map (t.slotOf b.column) := by simp [hslots]
        obtain ⟨row, hrow, rfl⟩ := List.mem_map.1 hslot
        exact close_entering wf hb entered h.stack h.column (h.subset hrow) rfl hbranches
  · exact hclose

/-- In the middle of any step. -/
theorem At.close_interrupted (h : At t base r ms) :
    r.interrupted.close.mesh = .covering t base := by
  have hclose := h.close_mesh wf hb
  by_cases started : r.started = true
  · cases top : r.branches with
    | nil =>
      have hsame : r.interrupted = r := by rw [interrupted, if_pos started, top]
      rwa [hsame]
    | cons b branches =>
      obtain ⟨path, cs, ahead, rows, hpoised⟩ := h.poised wf hb top
      exact hpoised.close_interrupted wf hb started top hclose
  · rw [interrupted, if_neg started]
    exact hclose

/-- In the middle of a call. -/
theorem At.close_stopped {bound : Nat} (h : At t base r ms) :
    (stopped bound r).close.mesh = .covering t base := by
  induction bound generalizing r ms with
  | zero => exact h.close_mesh wf hb
  | succ bound ih =>
    have hdoes := step_does wf hb h
    have hmid := h.close_interrupted wf hb
    rw [stopped]
    generalize r.step = s at hdoes ⊢
    cases hdoes with
    | failed => exact hmid
    | found => exact hmid
    | ended => exact hmid
    | moved stands => exact ih stands

/-! ## Whole histories -/

/-- One call keeps a run in its search, or fails because a counter is full; a run that has come to
its end stays there. -/
theorem answer_keeps (call : Call) (h : At t base r ms) :
    match r.answer call with
    | .ok (answer, left) =>
      (∃ ms', At t base left ms') ∧ (answer = .next none → left.Over) ∧ (r.Over → left.Over)
    | .error (fault, left) => fault = .tallyOverflow ∧ left.close.mesh = .covering t base := by
  cases call with
  | format solution =>
    cases hcount : r.tally.countSolution with
    | error fault =>
      simp only [answer, format, hcount, bind, Except.bind]
      exact ⟨Tally.fault_countSolution hcount, h.close_mesh wf hb⟩
    | ok counted =>
      simp only [answer, format, hcount, bind, Except.bind, pure, Except.pure]
      exact ⟨⟨ms, h.retally counted⟩, by simp, fun hover => ⟨hover.started, hover.branches⟩⟩
  | next =>
    have hover := fun hover : r.Over => hover.next
    have hstopped : (stopped r.stepBound r).close.mesh = .covering t base := h.close_stopped wf hb
    rcases next_cases wf hb h with ⟨solution, left, ms', hnext, stands, -⟩ |
      ⟨left, hnext, stands, -⟩ | ⟨hnext, -⟩
    · simp only [answer, hnext]
      refine ⟨⟨ms', stands⟩, by simp, fun h => ?_⟩
      rw [hover h] at hnext
      simp at hnext
    · simp only [answer, hnext]
      have hend : left.Over := seek_none hnext
      exact ⟨⟨[], stands⟩, fun _ => hend, fun _ => hend⟩
    · simp only [answer, hnext]
      exact ⟨trivial, hstopped⟩

/-- Any number of calls. -/
theorem perform_keeps (calls : List Call) (h : At t base r ms) :
    match r.perform calls with
    | .ok (answers, left) =>
      (∃ ms', At t base left ms') ∧ (.next none ∈ answers ∨ r.Over → left.Over)
    | .error (fault, left) => fault = .tallyOverflow ∧ left.close.mesh = .covering t base := by
  induction calls generalizing r ms with
  | nil => exact ⟨⟨ms, h⟩, by simp⟩
  | cons call calls ih =>
    have hfirst := answer_keeps wf hb call h
    rw [perform]
    cases hcall : r.answer call with
    | error failed =>
      rw [hcall] at hfirst
      exact hfirst
    | ok given =>
      rw [hcall] at hfirst
      obtain ⟨⟨ms', stands⟩, hnone, hover⟩ := hfirst
      have hrest := ih stands
      simp only [bind, Except.bind]
      cases hperform : given.2.perform calls with
      | error failed =>
        rw [hperform] at hrest
        exact hrest
      | ok rest =>
        rw [hperform] at hrest
        obtain ⟨hstands, hend⟩ := hrest
        refine ⟨hstands, fun h => hend ?_⟩
        rcases h with h | h
        · rcases List.mem_cons.1 h with h | h
          · exact .inr (hnone h.symm)
          · exact .inl h
        · exact .inr (hover h)

end

end Run

end Covering
