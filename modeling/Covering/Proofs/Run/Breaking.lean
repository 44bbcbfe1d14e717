import Covering.Proofs.Mesh.Recounting
import Covering.Proofs.Run.Counting
import Covering.Proofs.Run.Replaying

/-!
# A run broken off at a report

A listener that breaks off leaves the run in the middle of a step, at `Run.reporting`: the innermost
branch still names the row before the one reported, though its choice has been undone. Closing
undoes the choice once more, and the knots of `Run.doubled` are then counted twice. They are the
only difference: the run gives its mesh back exactly if there are none, which is so if the branch
names no row yet.

Main statement: `Run.performWith_gives_back`, for any calls that a caller makes and any listener. If
the listener never breaks off, or if the run is not watched, the mesh is always given back.
-/

namespace Covering
set_option autoImplicit false

/-- A listener that breaks off heard a report. -/
theorem Listener.exists_report {σ : Type} {l : Listener σ} {kept broken : σ} {events : List Event}
    (h : l.hearAll kept events = .error broken) :
    ∃ report kept, .report report ∈ events ∧ l.hear kept report = .error broken := by
  induction events generalizing kept with
  | nil => cases h
  | cons event events ih =>
    cases event with
    | notice notice =>
      obtain ⟨report, kept, hmem, hbroken⟩ := ih h
      exact ⟨report, kept, List.mem_cons_of_mem _ hmem, hbroken⟩
    | report report =>
      rw [hearAll] at h
      cases hheard : l.hear kept report with
      | error left =>
        rw [hheard] at h
        exact ⟨report, kept, List.mem_cons_self, hheard.trans h⟩
      | ok left =>
        rw [hheard] at h
        obtain ⟨report, kept, hmem, hbroken⟩ := ih h
        exact ⟨report, kept, List.mem_cons_of_mem _ hmem, hbroken⟩

namespace Run

variable {σ : Type} {l : Listener σ} {kept : σ} {t : Table} {base path cs : List Nat}
  {ahead : List (List Nat)} {r r' : Run} {b : Branch} {branches : List Branch} {ms : List Move}
  {ks : List Knot} {report : Report} {rows : List Nat}

/-! ## Where reports are made -/

theorem report_notMem_enter : Event.report report ∉ r.enter.events := by
  unfold enter
  split
  · split
    · simp
    · split <;> simp
  · simp

theorem report_notMem_choose {column slot : Nat} {replayed : Bool} :
    Event.report report ∉ (r.choose column slot replayed).events := by
  unfold choose
  split
  · simp
  · exact report_notMem_enter

/-- A report is made where a branch moves on to a row that the saved path did not choose. -/
theorem of_report_mem (h : Event.report report ∈ r.step.events) :
    r.watched = true ∧ ∃ b branches, r.branches = b :: branches ∧
      ((r.undo b).mesh.lane b.column).ring.after b.slot ≠ [] := by
  unfold step at h
  split at h
  · split at h
    · simp at h
    · next b branches top =>
      unfold advance at h
      simp only at h
      split at h
      · split at h
        · exact absurd h report_notMem_choose
        · simp at h
      · split at h
        · simp at h
        · next slot later hslots =>
          simp only [List.mem_append, report_notMem_choose, or_false] at h
          rcases h with h | h
          · split at h <;> simp at h
          · rw [Run.report] at h
            split at h
            · next hwatching =>
              exact ⟨(r.undo_frame b).2.2.1 ▸ hwatching, b, branches, top, by simp [hslots]⟩
            · simp at h
  · simp [report_notMem_enter] at h

/-! ## Watched runs -/

theorem Enters.watched {e : Run} {turn : Turn} (h : e.Enters (.ok turn)) :
    turn.run.watched = e.watched := by
  cases h <;> rfl

theorem watched_entrance {e : Run} (h : r.entrance = some e) : e.watched = r.watched := by
  rcases entrance_cases h with ⟨-, rfl⟩ | ⟨b, branches, slot, mesh, -, -, -, -, rfl⟩
  · rfl
  · exact (r.undo_frame b).2.2.1

/-- Whether somebody watches does not change. -/
theorem watched_step {turn : Turn} (h : r.step.turn = .ok turn) : turn.run.watched = r.watched := by
  have hgoes := r.goes_step
  generalize r.step.turn = outcome at h hgoes
  cases hgoes with
  | @entered e entrance =>
    have henters := e.enters_enter
    rw [h] at henters
    exact henters.watched.trans (watched_entrance entrance)
  | retreated top =>
    obtain rfl := Except.ok.inj h
    exact (r.undo_frame _).2.2.1
  | ended =>
    obtain rfl := Except.ok.inj h
    rfl
  | failed => cases h

theorem watched_seek {bound : Nat} {events : Array Event} {solution : Option Solution}
    (h : (seek bound r events).2 = .ok (solution, r')) : r'.watched = r.watched := by
  induction bound generalizing r events with
  | zero => cases h
  | succ bound ih =>
    simp only [seek] at h
    cases hturn : r.step.turn with
    | error fault =>
      rw [hturn] at h
      cases h
    | ok turn =>
      have hstep := watched_step hturn
      rw [hturn] at h
      cases turn with
      | found solution left =>
        cases h
        exact hstep
      | moved left => exact (ih h).trans hstep
      | ended left =>
        cases h
        exact hstep

theorem watched_answer {call : Call} {answer : Answer} (h : r.answer call = .ok (answer, r')) :
    r'.watched = r.watched := by
  cases call with
  | next =>
    rw [Run.answer] at h
    cases hnext : r.next.2 with
    | error fault =>
      rw [hnext] at h
      cases h
    | ok given =>
      rw [hnext] at h
      cases h
      exact watched_seek hnext
  | format solution =>
    simp only [Run.answer, Run.format] at h
    cases hcount : r.tally.countSolution with
    | error fault =>
      rw [hcount] at h
      cases h
    | ok tally =>
      rw [hcount] at h
      cases h
      rfl

/-! ## Closing -/

/-- The knots that are put back a second time if `r` is closed with the choice of its innermost
branch undone already. -/
def doubled (r : Run) : List Knot :=
  match r.branches with
  | [] => []
  | branch :: _ =>
    if branch.slot = 0 then []
    else
      (r.mesh.mates (r.mesh.rowAt branch.column branch.slot) branch.column).flatMap fun knot =>
        r.mesh.returns knot.column

theorem unwind_countAgain (m : Mesh) (branches : List Branch) :
    unwind (m.countAgain ks) branches = (unwind m branches).countAgain ks := by
  induction branches generalizing m with
  | nil => rfl
  | cons b branches ih =>
    rw [unwind, unwind, ← ih, ← Mesh.showColumn_countAgain]
    split
    · rfl
    · rw [Mesh.showMates_countAgain]

section

variable (wf : t.WellFormed) (hb : t.Coverable base)
include wf hb

/-- Closing a run at a report, branch by branch. -/
theorem Poised.close_reporting (h : r.Poised t base b branches path cs ahead rows)
    (top : r.branches = b :: branches)
    (more : ((r.undo b).mesh.lane b.column).ring.after b.slot ≠ []) :
    r.reporting.close.mesh = (Mesh.covering t base).countAgain r.reporting.doubled ∧
      ∀ k ∈ r.reporting.doubled, k.column < t.columnCount := by
  have hcover := h.stack.coverable_concat wf hb h.column
  have hclosed : unwind (.covering t (cs ++ [b.column])) (⟨b.column, 0, b.replayed⟩ :: branches) =
      .covering t base := unwind_opened wf hb h.stack h.column
  have hbranches : (r.undo b).branches = b :: branches := (r.undo_frame b).2.1.trans top
  obtain ⟨slot, further, hslots⟩ := List.exists_cons_of_ne_nil more
  -- The row reported is not covered yet, so the branches say what is covered but for the slot.
  have hreporting : r.reporting.mesh = .covering t (cs ++ [b.column]) ∧
      r.reporting.branches = b :: branches := by
    rw [reporting, top]
    simp only [hslots]
    split
    · exact ⟨h.mesh, hbranches⟩
    · exact ⟨h.mesh, hbranches⟩
  obtain ⟨hmesh, hleft⟩ := hreporting
  rw [close, doubled, hmesh, hleft]
  simp only [unwind]
  rw [unwind, if_pos rfl] at hclosed
  rcases h.slot with hzero | ⟨row, hrow, hslot⟩
  · rw [if_pos hzero, if_pos hzero]
    exact ⟨hclosed, by simp⟩
  · have hpos : ¬b.slot = 0 := hslot ▸ Nat.succ_ne_zero _
    have hreads := Mesh.reads_covering wf hcover
    have hone := Table.mem_ones_of_mem_children h.column hrow
    have hmates := h.stack.coverable_row wf hb h.column hrow
    rw [if_neg hpos, if_neg hpos, hslot, hreads.showMates_of_notCovered wf hone hmates,
      hreads.rowAt_slotOf (wf.inRange row b.column hone) hone, Mesh.showColumn_countAgain,
      unwind_countAgain, hclosed]
    refine ⟨rfl, fun k hk => ?_⟩
    obtain ⟨knot, hknot, hk⟩ := List.mem_flatMap.1 hk
    rw [hreads.mates_eq] at hknot
    have hcolumn := hmates.2 knot.column (List.mem_append_right _ (List.mem_map_of_mem hknot))
    exact hreads.column_lt_of_mem_returns wf hcolumn hk

/-- `left` is left of a run with a listener that broke off. -/
structure BrokenOff (l : Listener σ) (t : Table) (base : List Nat) (watched : Bool) (left : Run) :
    Prop where
  broke : ∃ kept report broken, l.hear kept report = .error broken
  watching : watched = true
  mesh : left.close.mesh = (Mesh.covering t base).countAgain left.doubled
  inRange : ∀ k ∈ left.doubled, k.column < t.columnCount

/-- At the report of a step. -/
theorem At.brokenOff {broken : σ} (h : At t base r ms)
    (hbroken : l.hearAll kept r.step.events = .error broken) :
    BrokenOff l t base r.watched r.reporting := by
  obtain ⟨report, heard, hmem, hbreaks⟩ := Listener.exists_report hbroken
  obtain ⟨hwatched, b, branches, top, more⟩ := of_report_mem hmem
  obtain ⟨path, cs, ahead, rows, hpoised⟩ := h.poised wf hb top
  obtain ⟨hmesh, hinRange⟩ := hpoised.close_reporting wf hb top more
  exact ⟨⟨heard, report, broken, hbreaks⟩, hwatched, hmesh, hinRange⟩

/-! ## Calls -/

/-- What is left of a call comes to the same with a listener, unless this breaks off. -/
theorem seekWith_cases (l : Listener σ) (kept : σ) (bound : Nat) (h : At t base r ms) :
    (seekWith l bound r kept).1 =
        (seek bound r #[]).2.mapError (fun fault => (fault, stopped bound r)) ∨
      ∃ left, (seekWith l bound r kept).1 = .error (.brokenOff, left) ∧
        BrokenOff l t base r.watched left := by
  induction bound generalizing r ms kept with
  | zero => exact .inl rfl
  | succ bound ih =>
    rw [seekWith]
    cases hheard : l.hearAll kept r.step.events with
    | error broken => exact .inr ⟨_, rfl, h.brokenOff wf hb hheard⟩
    | ok heard =>
      have hdoes := step_does wf hb h
      have hwatched := @watched_step r
      simp only [seek, stopped]
      generalize r.step = s at hdoes hwatched
      cases hdoes with
      | failed => exact .inl rfl
      | found => exact .inl rfl
      | ended => exact .inl rfl
      | @moved events left ms' stands =>
        have hkept : left.watched = r.watched := hwatched rfl
        have hevents := congrArg Prod.snd (seek_eq_emit bound left (events.foldl Array.push #[]))
        simp only [Moves.emit] at hevents
        simp only [hevents, ← hkept]
        exact ih heard stands

theorem answerWith_cases (l : Listener σ) (kept : σ) (call : Call) (h : At t base r ms) :
    (r.answerWith l kept call).1 = r.answer call ∨
      ∃ left, (r.answerWith l kept call).1 = .error (.brokenOff, left) ∧
        BrokenOff l t base r.watched left := by
  cases call with
  | format solution => exact .inl rfl
  | next =>
    rw [answerWith, answer, next]
    rcases seekWith_cases wf hb l kept r.stepBound h with
      hsame | ⟨left, hbroken, hleft⟩
    · simp only [hsame]
      cases (seek r.stepBound r #[]).2 with
      | error fault => exact .inl rfl
      | ok given => exact .inl rfl
    · simp only [hbroken]
      exact .inr ⟨left, rfl, hleft⟩

theorem performWith_cases (l : Listener σ) (kept : σ) (calls : List Call) (h : At t base r ms) :
    (performWith l calls r kept).1 = r.perform calls ∨
      ∃ left, (performWith l calls r kept).1 = .error (.brokenOff, left) ∧
        BrokenOff l t base r.watched left := by
  induction calls generalizing r ms kept with
  | nil => exact .inl rfl
  | cons call calls ih =>
    have hkeeps := answer_keeps wf hb call h
    have hwatched := @watched_answer r
    have hcall := answerWith_cases wf hb l kept call h
    rw [performWith, perform]
    generalize r.answerWith l kept call = given at hcall
    obtain ⟨given, heard⟩ := given
    simp only at hcall
    rcases hcall with rfl | ⟨left, rfl, hleft⟩
    · cases hanswer : r.answer call with
      | error failed => exact .inl rfl
      | ok answered =>
        rw [hanswer] at hkeeps
        obtain ⟨answer, next⟩ := answered
        obtain ⟨⟨ms', stands⟩, -⟩ := hkeeps
        rw [← hwatched hanswer]
        simp only [bind, Except.bind]
        rcases ih heard stands with hsame | ⟨left, hbroken, hleft⟩
        · rw [hsame]
          cases next.perform calls with
          | error failed => exact .inl rfl
          | ok rest => exact .inl rfl
        · rw [hbroken]
          exact .inr ⟨left, rfl, hleft⟩
    · exact .inr ⟨left, rfl, hleft⟩

end

/-- However a search over a table was begun, whatever was asked of it, and whoever takes its reports,
closing it gives back the mesh from before, also when a call has failed because a counter was full,
unless it is watched and the listener breaks off. Then the knots doubled are counted twice and all
else is as before: the mesh is given back exactly if none is doubled. Once there was no solution any
more, the mesh is already the one from before. -/
theorem performWith_gives_back (built : t.Built) (nodup : base.Nodup)
    (inRange : ∀ c ∈ base, c < t.columnCount) :
    ∃ m, base.foldlM Mesh.cover (.ofTable t) = .ok m ∧
      ∀ (tally : Tally) (r : Run), r = Problem.solve ⟨m, tally⟩ ∨
          (∃ b, r = Problem.resume ⟨m, tally⟩ b) →
        ∀ (σ : Type) (l : Listener σ) (kept : σ) (calls : List Call),
          match (performWith l calls r kept).1 with
          | .ok (answers, left) =>
            left.close.mesh = m ∧ (.next none ∈ answers → left.mesh = m)
          | .error (fault, left) =>
            fault = .tallyOverflow ∧ left.close.mesh = m ∨
              fault = .brokenOff ∧ r.watched ∧
                (∃ kept report broken, l.hear kept report = .error broken) ∧
                left.close.mesh = m.countAgain left.doubled ∧
                (left.close.mesh = m ↔ left.doubled = []) := by
  have wf := built.wellFormed
  have hb : t.Coverable base := ⟨nodup, inRange⟩
  refine ⟨.covering t base, Mesh.foldlM_cover_ofTable wf hb, fun tally r hr σ l kept calls => ?_⟩
  obtain ⟨ms, stands⟩ := exists_at hr
  rcases performWith_cases wf hb l kept calls stands with
    hsame | ⟨left, hbroken, hleft⟩
  · have hkeeps := perform_keeps wf hb calls stands
    rw [hsame]
    cases hperform : r.perform calls with
    | error failed =>
      rw [hperform] at hkeeps
      exact .inl hkeeps
    | ok rest =>
      rw [hperform] at hkeeps
      obtain ⟨⟨ms', hstands⟩, hend⟩ := hkeeps
      have hclose := hstands.close_mesh wf hb
      refine ⟨hclose, fun hnone => ?_⟩
      rwa [close, (hend (.inl hnone)).branches] at hclose
  · rw [hbroken]
    have hsize := (Mesh.reads_covering wf hb).lanes_size
    refine .inr ⟨rfl, hleft.watching, hleft.broke, hleft.mesh, ?_⟩
    rw [hleft.mesh]
    exact Mesh.countAgain_eq_self_iff fun k hk => hsize ▸ hleft.inRange k hk

/-- A listener that takes `n` reports and breaks off at the next. -/
def breakingAfter (n : Nat) : Listener Nat where
  hear kept _ := if kept < n then .ok (kept + 1) else .error kept

/-- Three primary columns, with rows that use two each. -/
def abd : Table := ⟨["a", "b", "d"], 0, [[0, 1], [0, 2], [1, 2], [1, 2]]⟩

theorem built_abd : abd.Built :=
  .inr ⟨["a", "b", "d"], 0, [[0, 1], [0, 2], [1, 2], [1, 2]], by decide⟩

/-- What a listener leaves that breaks off at the second report of a search over `abd`: the row chosen
first has been given up and is still the one named. -/
def brokenAbd : Run :=
  ⟨.covering abd [0], ⟨0, 2⟩, [⟨0, 1, false⟩], [["a", "d"]], [], 0, false, true, true⟩

theorem performWith_abd : (performWith (breakingAfter 1) [.next]
    (Problem.resume ⟨.ofTable abd, .zero⟩ ⟨[], none, false⟩) 0).1 = .error (.brokenOff, brokenAbd) := by
  decide +kernel

/-- The case of `abd`, where the last column counts two rows twice. -/
theorem performWith_gives_back_abd :
    let m := Mesh.ofTable abd
    (performWith (breakingAfter 1) [.next] (Problem.resume ⟨m, .zero⟩ ⟨[], none, false⟩) 0).1 =
        .error (.brokenOff, brokenAbd) ∧
      brokenAbd.close.mesh = m.countAgain [⟨2, 3⟩, ⟨2, 2⟩] ∧ brokenAbd.close.mesh ≠ m := by
  intro m
  obtain ⟨_, hm, h⟩ := performWith_gives_back built_abd List.nodup_nil (by decide)
  obtain rfl : m = _ := Except.ok.inj hm
  -- For any calls, so that nothing evaluates them before what they come to is known.
  have hbreaks : ∀ b (l : Listener Nat) calls left,
      (performWith l calls (Problem.resume ⟨m, .zero⟩ b) 0).1 = .error (.brokenOff, left) →
      left.close.mesh = m.countAgain left.doubled ∧ (left.close.mesh = m ↔ left.doubled = []) := by
    intro b l calls left hbroken
    have hrun := h .zero _ (.inr ⟨b, rfl⟩) Nat l 0 calls
    rw [hbroken] at hrun
    rcases hrun with ⟨hfault, -⟩ | ⟨-, -, -, hmesh, hiff⟩
    · cases hfault
    · exact ⟨hmesh, hiff⟩
  have hdoubled : brokenAbd.doubled = [⟨2, 3⟩, ⟨2, 2⟩] := by decide +kernel
  obtain ⟨hmesh, hiff⟩ := hbreaks _ _ _ brokenAbd performWith_abd
  rw [hdoubled] at hmesh hiff
  exact ⟨performWith_abd, hmesh, fun hsame => by cases hiff.1 hsame⟩

/-- A listener that breaks off can keep a run from giving its mesh back. -/
theorem exists_not_given_back :
    ¬ ∀ (t : Table) (base : List Nat) (m : Mesh) (tally : Tally) (b : Bookmark) (σ : Type)
        (l : Listener σ) (kept : σ) (calls : List Call), t.Built → base.Nodup →
      (∀ c ∈ base, c < t.columnCount) → base.foldlM Mesh.cover (.ofTable t) = .ok m →
      match (performWith l calls (Problem.resume ⟨m, tally⟩ b) kept).1 with
      | .ok (_, left) => left.close.mesh = m
      | .error (_, left) => left.close.mesh = m := by
  intro hall
  have hback : ∀ b (l : Listener Nat) calls left,
      (performWith l calls (Problem.resume ⟨.ofTable abd, .zero⟩ b) 0).1 =
        .error (.brokenOff, left) → left.close.mesh = .ofTable abd := by
    intro b l calls left hbroken
    have hgiven := hall abd [] _ .zero b Nat l 0 calls built_abd List.nodup_nil (by decide) rfl
    rw [hbroken] at hgiven
    exact hgiven
  have hsizes : (List.range 3).map brokenAbd.close.mesh.columnSize = [.ok 2, .ok 3, .ok 5] := by
    decide +kernel
  have hbefore : (List.range 3).map (Mesh.ofTable abd).columnSize = [.ok 2, .ok 3, .ok 3] := by
    decide +kernel
  rw [hback _ _ _ brokenAbd performWith_abd, hbefore] at hsizes
  exact absurd hsizes (by decide)

end Run

end Covering
