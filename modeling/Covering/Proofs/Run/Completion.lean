import Covering.Proofs.Mesh.Courses
import Covering.Proofs.Run.Closing
import Covering.Proofs.Run.Taking

/-!
# Every call comes to its end

A call of `next` takes `stepBound` steps at most, and a read in it answers something for any place.
`Run.nextCourse` is the call without these conveniences, and `Run.nextCourse_eq` says that it makes
no difference: wherever a run stands in a search, the call ends, everything that it reads is there,
every size stays in range, and the answer is that of `next`.

What can go wrong is that the counter of searches is full when it should go up, and this happens
exactly when the call comes to a level to be counted with a column left to choose:
`Run.next_overflows_iff`. Otherwise calls go on to find solutions until there is none. Main
statement: `Run.perform_completes`, after any calls that a caller makes.
-/

namespace Covering
set_option autoImplicit false

open Course

namespace Run

/-! ## Courses -/

/-- Begins a level. -/
def enterCourse (r : Run) : Course Turn := do
  match ← r.mesh.chooseCourse with
  | none =>
    match r.pending with
    | _ :: _ => return .found r.solution { r with pending := [] }
    | [] => return if r.isReplayed then .moved r else .found r.solution r
  | some column =>
    let tally ← if r.pending.isEmpty then r.tally.countSearch else pure r.tally
    let mesh ← r.mesh.coverCourse column
    return .moved { r with mesh, tally, branches := ⟨column, 0, false⟩ :: r.branches }

/-- Undoes the choice of a branch. -/
def undoCourse (r : Run) (branch : Branch) : Course Run :=
  if branch.slot = 0 then
    return r
  else do
    let mesh ← r.mesh.showMatesCourse branch.column branch.slot
    return { r with mesh, chosen := r.chosen.tail, pending := [] }

/-- Whether the saved path, if anything is left of it, asks for a row with these labels. -/
def asksFor (r : Run) (labels : Labels) : Bool :=
  match r.pending with
  | wanted :: _ => labels == wanted
  | [] => true

/-- Moves a branch on to its next row. -/
def advanceCourse (r : Run) (branch : Branch) : Course Turn := do
  let column := branch.column
  let r ← r.undoCourse branch
  match ← r.mesh.pickCourse r.asksFor column branch.slot with
  | none =>
    let mesh ← r.mesh.uncoverCourse column
    return .moved { r with mesh, branches := r.branches.tail, pending := [] }
  | some slot =>
    let row ← r.mesh.rowCourse column slot
    let labels ← read r.mesh.labels row
    let mesh ← r.mesh.coverMatesCourse column slot
    enterCourse
      { r with
        mesh
        chosen := labels :: r.chosen
        pending := r.pending.tail
        branches := ⟨column, slot, !r.pending.isEmpty⟩ :: r.branches.tail }

/-- Makes one move. -/
def stepCourse (r : Run) : Course Turn :=
  if r.started then
    match r.branches with
    | [] => return .ended r
    | branch :: _ => r.advanceCourse branch
  else enterCourse { r with started := true }

/-- Goes on to the next solution. -/
def nextCourse (r : Run) : Course (Option Solution × Run) :=
  loop (fun r => do
    match ← r.stepCourse with
    | .found solution r => return .inr (some solution, r)
    | .moved r => return .inl r
    | .ended r => return .inr (none, r)) r

variable {t : Table} {base path cs : List Nat} {r r' s e : Run} {branches : List Branch}
  {ms : List Move} {c slot bound : Nat} {b : Branch}

section

variable (wf : t.WellFormed)
include wf

theorem enterCourse_eq (h : r.mesh.Sound t) (hm : r.mesh.Counted) :
    r.enterCourse = of r.enter.turn := by
  rw [enterCourse, h.chooseCourse_eq, ok_bind, enter]
  cases hchoose : r.mesh.chooseColumn with
  | none =>
    cases r.pending with
    | cons wanted later => rfl
    | nil =>
      simp only
      split <;> rfl
  | some column =>
    have hcover := h.coverCourse_eq wf hm (h.chooseColumn_lt hchoose)
    have hrest : ∀ tally : Tally, (do
        let mesh ← of (r.mesh.cover column)
        return Turn.moved
          { r with mesh, tally, branches := ⟨column, 0, false⟩ :: r.branches } : Course Turn) =
        of (do
          let mesh ← r.mesh.cover column
          return .moved { r with mesh, tally, branches := ⟨column, 0, false⟩ :: r.branches }) :=
      fun tally => of_bind fun mesh _ => rfl
    simp only [hcover]
    cases r.pending.isEmpty with
    | true => exact of_bind fun tally _ => hrest tally
    | false =>
      exact of_bind fun tally (_ : (pure r.tally : Except Fault Tally) = .ok tally) => hrest tally

omit wf in
/-- The row that a branch moves on to: the first below whose labels are asked for. -/
theorem advance_turn (r : Run) (b : Branch) :
    (r.advance b).turn =
      match (((r.undo b).mesh.lane b.column).ring.after b.slot).find? fun slot =>
        (r.undo b).asksFor ((r.undo b).mesh.labelsOfRow ((r.undo b).mesh.rowAt b.column slot)) with
      | none => .ok (.moved ((r.undo b).retreat b.column))
      | some slot =>
        (choose
          { r.undo b with
            chosen := (r.undo b).mesh.labelsOfRow ((r.undo b).mesh.rowAt b.column slot) ::
              (r.undo b).chosen
            pending := (r.undo b).pending.tail }
          b.column slot (!(r.undo b).pending.isEmpty)).turn := by
  rw [advance]
  generalize r.undo b = s
  generalize (s.mesh.lane b.column).ring.after b.slot = candidates
  cases hpending : s.pending with
  | nil =>
    cases candidates with
    | nil => simp [asksFor, hpending]
    | cons slot rest => simp [asksFor, hpending]
  | cons wanted later =>
    simp only [asksFor, hpending]
    cases hfind : candidates.find? fun slot =>
        s.mesh.labelsOfRow (s.mesh.rowAt b.column slot) == wanted with
    | none => rfl
    | some slot =>
      have hwanted := List.find?_some hfind
      rw [beq_iff_eq] at hwanted
      subst hwanted
      rfl

/-- A branch that has undone its choice moves on. -/
theorem advanceCourse_eq (hundo : r.undoCourse b = of (.ok (r.undo b)))
    (h : (r.undo b).mesh.Sound t) (hm : (r.undo b).mesh.Counted) (hc : b.column < t.columnCount)
    (hslot : b.slot ≤ (t.holders b.column).length)
    (hshow : (r.undo b).mesh.uncover b.column = .ok ((r.undo b).mesh.showColumn b.column)) :
    r.advanceCourse b = of (r.advance b).turn := by
  rw [advanceCourse, hundo, advance_turn]
  simp only [ok_bind]
  generalize r.undo b = s at *
  rw [h.pickCourse_eq wf s.asksFor hc hslot, ok_bind]
  obtain ⟨-, hup, hlast⟩ := (h.lane_rising b.column hc).after hslot
  cases hfind : ((s.mesh.lane b.column).ring.after b.slot).find? fun slot =>
      s.asksFor (s.mesh.labelsOfRow (s.mesh.rowAt b.column slot)) with
  | none =>
    simp only [h.uncoverCourse_eq wf hm hc, hshow, ok_bind]
    rfl
  | some slot =>
    have hmem := List.mem_of_find?_eq_some hfind
    have h0 : slot ≠ 0 := Nat.ne_of_gt (Nat.zero_lt_of_lt ((List.pairwise_cons.1 hup).1 slot hmem))
    obtain ⟨hrow, hlt⟩ := h.rowCourse_eq wf hc h0 (hlast slot hmem)
    obtain ⟨hmates, hgood⟩ := h.coverMatesCourse_eq wf hm hc h0 (hlast slot hmem)
    simp only [hrow, h.read_labels wf hlt, hmates, ok_bind, choose]
    cases hcover : s.mesh.coverMates b.column slot with
    | error fault => exact error_bind
    | ok mesh =>
      obtain ⟨hsound, hcounted⟩ := hgood mesh hcover
      rw [ok_bind]
      exact enterCourse_eq wf hsound hcounted

end

section

variable (wf : t.WellFormed) (hb : t.Coverable base)
include wf hb

/-- The innermost branch of a run moves on. -/
theorem advanceCourse_covering {ahead : List (List Nat)}
    (stack : Stack t base branches path cs ahead)
    (column : t.branchColumn (t.coveredBy base path) = some b.column)
    (hundo : r.undoCourse b = of (.ok (r.undo b)))
    (mesh : (r.undo b).mesh = .covering t (cs ++ [b.column]))
    (hslot : b.slot ≤ (t.holders b.column).length) : r.advanceCourse b = of (r.advance b).turn := by
  have hcs := stack.coverable_concat wf hb column
  obtain ⟨hsound, hcounted⟩ := Mesh.sound_covering wf hcs
  refine advanceCourse_eq wf hundo (mesh ▸ hsound) (mesh ▸ hcounted) hcs.last_lt hslot ?_
  rw [mesh, Mesh.uncover_covering wf hcs, Mesh.showColumn_covering wf hcs]

/-- One move of a search ends. -/
theorem stepCourse_eq (h : At t base r ms) : r.stepCourse = of r.step.turn := by
  rw [stepCourse, step]
  cases h with
  | fresh mesh _ _ _ started =>
    have hnot : ¬r.started = true := by simp [started]
    obtain ⟨hsound, hcounted⟩ := Mesh.sound_covering wf hb
    rw [if_neg hnot, if_neg hnot]
    exact enterCourse_eq wf (mesh ▸ hsound) (mesh ▸ hcounted)
  | @opened branches path cs ahead c replayed stack column top mesh _ started =>
    rw [if_pos started, if_pos started, top]
    exact advanceCourse_covering wf hb stack column rfl mesh (Nat.zero_le _)
  | @settled path cs ahead stack mesh _ started =>
    rw [if_pos started, if_pos started]
    generalize hbs : r.branches = branches at stack
    cases stack with
    | root => rfl
    | @choice branches path cs ahead c row before after replayed outer column rows =>
      have hrow : row ∈ t.children base path := by simp [rows]
      have hone := Table.mem_ones_of_mem_children column hrow
      have hslot : ¬t.slotOf c row = 0 := Nat.succ_ne_zero _
      have hmesh := outer.showMates_row wf hb column hrow
      refine advanceCourse_covering wf hb outer column ?_ ?_
        (Table.slotOf_mem (Table.mem_holders.2 hone)).2
      · have hcourse := Mesh.showMatesCourse_covering wf hone (outer.coverable_row wf hb column hrow)
        rw [← List.append_cons, ← mesh] at hcourse
        rw [← mesh] at hmesh
        simp only [undoCourse, undo, if_neg hslot, hcourse, ok_bind, hmesh]
        rfl
      · simp only [undo, if_neg hslot, mesh]
        exact hmesh

/-- A call ends, with the answer that `next` gives. -/
theorem nextCourse_eq (h : At t base r ms) : r.nextCourse = of r.next.2 := by
  have hseek : ∀ bound (r : Run) (ms : List Move) (events : Array Event), At t base r ms →
      r.budget t < bound → r.nextCourse = of (seek bound r events).2 := by
    intro bound
    induction bound with
    | zero => exact fun r ms events _ hlt => absurd hlt (Nat.not_lt_zero _)
    | succ bound ih =>
      intro r ms events h hlt
      have hdoes := step_does wf hb h
      rw [nextCourse, loop_eq, stepCourse_eq wf hb h, seek]
      generalize r.step = step at hdoes
      cases hdoes with
      | failed => simp only [error_bind]
      | found => simp only [ok_bind, pure_eq]
      | ended => simp only [ok_bind, pure_eq]
      | moved stands lower =>
        simp only [ok_bind, pure_eq]
        exact ih _ _ _ stands (by omega)
  exact hseek r.stepBound r ms #[] h (budget_lt_stepBound wf hb h)

end

/-! ## Full counters -/

/-- The run as its next step begins a level, if that is what it does: before the first step, or with
a row chosen and its columns covered. -/
def entrance (r : Run) : Option Run :=
  if r.started then
    match r.branches with
    | [] => none
    | branch :: _ =>
      let column := branch.column
      let s := r.undo branch
      let found := ((s.mesh.lane column).ring.after branch.slot).find? fun slot =>
        s.asksFor (s.mesh.labelsOfRow (s.mesh.rowAt column slot))
      found.bind fun slot =>
        match s.mesh.coverMates column slot with
        | .error _ => none
        | .ok mesh =>
          some
            { s with
              mesh
              chosen := s.mesh.labelsOfRow (s.mesh.rowAt column slot) :: s.chosen
              pending := s.pending.tail
              branches := ⟨column, slot, !s.pending.isEmpty⟩ :: s.branches.tail }
  else some { r with started := true }

/-- At the beginning of a level the counter should go up and is full: the saved path leads no
further, a column is left to choose, and as many searches as the counter can hold are counted. -/
structure Full (r : Run) : Prop where
  off : r.pending = []
  column : r.mesh.chooseColumn ≠ none
  searches : r.tally.searches.toNat = UInt64.size - 1

/-- The run comes to another by steps that find nothing. -/
inductive Reaches : Run → Run → Prop
  | refl (r : Run) : Reaches r r
  | step {r r' s : Run} : r.step.turn = .ok (.moved r') → Reaches r' s → Reaches r s

theorem cover_ne_overflow {m : Mesh} : m.cover c ≠ .error .tallyOverflow := by
  rw [Mesh.cover, Mesh.checked]
  split
  · split <;> simp
  · simp

theorem coverMates_ne_overflow (m : Mesh) (c slot : Nat) :
    m.coverMates c slot ≠ .error .tallyOverflow := by
  rw [Mesh.coverMates]
  generalize m.mates (m.rowAt c slot) c = knots
  induction knots generalizing m with
  | nil => simp [pure, Except.pure]
  | cons k knots ih =>
    rw [List.foldlM_cons]
    cases hcover : m.cover k.column with
    | error fault =>
      have hne := cover_ne_overflow (m := m) (c := k.column)
      rwa [hcover] at hne
    | ok m' => exact ih m'

/-- To begin a level fails for want of room in the counter exactly where the counter is full. -/
theorem enter_overflows_iff : e.enter.turn = .error .tallyOverflow ↔ e.Full := by
  rw [enter]
  cases hchoose : e.mesh.chooseColumn with
  | none =>
    refine ⟨fun h => ?_, fun h => absurd hchoose h.column⟩
    simp only at h
    split at h
    · cases h
    · split at h <;> cases h
  | some column =>
    have hcover : ∀ (tally : Tally) (pending : List Labels), (do
        let mesh ← e.mesh.cover column
        let branches := ⟨column, 0, false⟩ :: e.branches
        return Turn.moved { e with mesh, tally, pending, branches } : Except Fault Turn) ≠
          .error .tallyOverflow := by
      intro tally pending
      have hne := cover_ne_overflow (m := e.mesh) (c := column)
      cases hmesh : e.mesh.cover column with
      | error fault => simpa [hmesh, bind, Except.bind] using hne
      | ok mesh => simp [bind, Except.bind, pure, Except.pure]
    simp only
    cases hpending : e.pending with
    | cons wanted later =>
      refine ⟨fun h => absurd h (hcover e.tally (wanted :: later)), fun h => ?_⟩
      rw [h.off] at hpending
      cases hpending
    | nil =>
      have hsize : UInt64.size = 2 ^ 64 := rfl
      by_cases hlt : e.tally.searches.toNat + 1 < UInt64.size
      · refine ⟨fun h => ?_, fun h => ?_⟩
        · simp only [List.isEmpty_nil, if_true, Tally.countSearch_eq_count hlt] at h
          exact absurd h (hcover (e.tally.count 1) [])
        · have := h.searches
          omega
      · have hfull := Tally.countSearch_eq_error (Nat.le_of_not_lt hlt)
        simp only [List.isEmpty_nil, if_true, hfull]
        have hle := e.tally.searches.toNat_lt_size
        exact ⟨fun _ => ⟨hpending, by simp [hchoose], by omega⟩, fun _ => rfl⟩

/-- A step does so at the level that it begins. -/
theorem step_overflows_iff :
    r.step.turn = .error .tallyOverflow ↔ ∃ e, r.entrance = some e ∧ e.Full := by
  have hentered : ∀ e : Run, e.enter.turn = .error .tallyOverflow ↔
      ∃ e', some e = some e' ∧ e'.Full := by
    intro e
    simp only [Option.some.injEq, exists_eq_left', enter_overflows_iff]
  rw [step, entrance]
  by_cases hstarted : r.started = true
  · rw [if_pos hstarted, if_pos hstarted]
    cases r.branches with
    | nil => simp
    | cons branch rest =>
      simp only
      rw [advance_turn]
      generalize r.undo branch = s
      generalize ((s.mesh.lane branch.column).ring.after branch.slot).find? _ = found
      cases found with
      | none => simp
      | some slot =>
        have hne := coverMates_ne_overflow s.mesh branch.column slot
        simp only [choose, Option.bind_some]
        cases hcover : s.mesh.coverMates branch.column slot with
        | error fault => simpa [hcover] using hne
        | ok mesh => exact hentered _
  · rw [if_neg hstarted, if_neg hstarted]
    exact hentered _

/-! ## Calls -/

theorem exists_reaches_of_seek {events : Array Event}
    (h : (seek bound r events).2 = .error .tallyOverflow) :
    ∃ s, Reaches r s ∧ s.step.turn = .error .tallyOverflow := by
  induction bound generalizing r events with
  | zero => simp [seek] at h
  | succ bound ih =>
    rw [seek] at h
    cases hturn : r.step.turn with
    | error fault =>
      simp only [hturn] at h
      exact ⟨r, .refl r, by rw [hturn, Except.error.inj h]⟩
    | ok turn =>
      simp only [hturn] at h
      cases turn with
      | found solution r' => simp at h
      | ended r' => simp at h
      | moved r' =>
        obtain ⟨s, hreaches, hs⟩ := ih h
        exact ⟨s, .step hturn hreaches, hs⟩

/-- What holds of a run after any calls of it. -/
structure Completes (r : Run) : Prop where
  /-- A call ends, all that it reads is there, and no size leaves its range. -/
  ends : r.nextCourse = of r.next.2
  /-- Nothing but a full counter makes it fail. -/
  fault : ∀ fault, r.next.2 = .error fault → fault = .tallyOverflow
  /-- It does so at a level that the call comes to. -/
  overflows_iff : r.next.2 = .error .tallyOverflow ↔
    ∃ s e, Reaches r s ∧ s.entrance = some e ∧ e.Full
  /-- After so many calls there is no solution any more, or the counter is full. -/
  exhausts : ∃ calls, match r.perform (List.replicate calls .next) with
    | .ok (answers, _) => .next none ∈ answers
    | .error (fault, _) => fault = .tallyOverflow

section

variable (wf : t.WellFormed) (hb : t.Coverable base)
include wf hb

theorem seek_overflows {events : Array Event} (hreaches : Reaches r s)
    (hs : s.step.turn = .error .tallyOverflow) (h : At t base r ms) (hlt : r.budget t < bound) :
    (seek bound r events).2 = .error .tallyOverflow := by
  induction hreaches generalizing ms bound events with
  | refl r =>
    cases bound with
    | zero => omega
    | succ bound => simp only [seek, hs]
  | @step r r' s hturn _ ih =>
    cases bound with
    | zero => omega
    | succ bound =>
      have hdoes := step_does wf hb h
      simp only [seek, hturn]
      generalize r.step = step at hdoes hturn
      cases hdoes with
      | failed => cases hturn
      | found => cases hturn
      | ended => cases hturn
      | moved stands lower =>
        obtain rfl := Turn.moved.inj (Except.ok.inj hturn)
        exact ih hs stands (by omega)

/-- A call fails for want of room in the counter exactly where it comes to a level at which the
counter is full. -/
theorem next_overflows_iff (h : At t base r ms) :
    r.next.2 = .error .tallyOverflow ↔ ∃ s e, Reaches r s ∧ s.entrance = some e ∧ e.Full := by
  constructor
  · intro hnext
    obtain ⟨s, hreaches, hs⟩ := exists_reaches_of_seek hnext
    obtain ⟨e, hentrance, hfull⟩ := step_overflows_iff.1 hs
    exact ⟨s, e, hreaches, hentrance, hfull⟩
  · rintro ⟨s, e, hreaches, hentrance, hfull⟩
    exact seek_overflows wf hb hreaches (step_overflows_iff.2 ⟨e, hentrance, hfull⟩) h
      (budget_lt_stepBound wf hb h)

/-- Each call that finds a solution leaves less to be searched. -/
theorem exists_exhausting_calls (h : At t base r ms) :
    ∃ calls, match r.perform (List.replicate calls .next) with
      | .ok (answers, _) => .next none ∈ answers
      | .error (fault, _) => fault = .tallyOverflow := by
  induction hbudget : r.budget t using Nat.strongRecOn generalizing r ms with
  | ind budget ih =>
    rcases next_cases wf hb h with ⟨solution, r', ms', hnext, stands, lower, -⟩ |
      ⟨r', hnext, -⟩ | ⟨hnext, -⟩
    · obtain ⟨calls, hcalls⟩ := ih _ (hbudget ▸ lower) stands rfl
      refine ⟨calls + 1, ?_⟩
      simp only [List.replicate_succ, perform, answer, hnext, bind, Except.bind, pure, Except.pure]
      cases hperform : r'.perform (List.replicate calls .next) with
      | error failed =>
        rw [hperform] at hcalls
        exact hcalls
      | ok given =>
        rw [hperform] at hcalls
        exact List.mem_cons_of_mem _ hcalls
    · refine ⟨1, ?_⟩
      simp [perform, answer, hnext, bind, Except.bind, pure, Except.pure]
    · refine ⟨1, ?_⟩
      simp [perform, answer, hnext, bind, Except.bind]

theorem At.completes (h : At t base r ms) : r.Completes where
  ends := nextCourse_eq wf hb h
  fault fault hfault := by
    rcases next_cases wf hb h with ⟨_, _, _, hnext, -⟩ | ⟨_, hnext, -⟩ | ⟨hnext, -⟩
    · cases hnext.symm.trans hfault
    · cases hnext.symm.trans hfault
    · exact Except.error.inj (hfault.symm.trans hnext)
  overflows_iff := next_overflows_iff wf hb h
  exhausts := exists_exhausting_calls wf hb h

end

/-- However a search over a table was begun and whatever was asked of it, it goes on to its end. -/
theorem perform_completes (built : t.Built) (nodup : base.Nodup)
    (inRange : ∀ c ∈ base, c < t.columnCount) :
    ∃ m, base.foldlM Mesh.cover (.ofTable t) = .ok m ∧
      ∀ (tally : Tally) (r : Run), r = Problem.solve ⟨m, tally⟩ ∨
          (∃ b, r = Problem.resume ⟨m, tally⟩ b) →
        ∀ calls : List Call,
          match r.perform calls with
          | .ok (_, left) => left.Completes
          | .error (fault, _) => fault = .tallyOverflow := by
  have wf := built.wellFormed
  have hb : t.Coverable base := ⟨nodup, inRange⟩
  refine ⟨.covering t base, Mesh.foldlM_cover_ofTable wf hb, fun tally r hr calls => ?_⟩
  obtain ⟨ms, hat⟩ := exists_at hr
  have hkeeps := perform_keeps wf hb calls hat
  cases hperform : r.perform calls with
  | error failed =>
    rw [hperform] at hkeeps
    exact hkeeps.1
  | ok given =>
    rw [hperform] at hkeeps
    obtain ⟨⟨ms, stands⟩, -⟩ := hkeeps
    exact stands.completes wf hb

/-- The case of `abc` with its secondary column covered, resumed at a path that no row matches. -/
theorem perform_completes_abc :
    let m := Mesh.covering Table.abc [2]
    let left : Run := ⟨m, ⟨0, 1⟩, [], [], [], 1, true, true, true⟩
    (Problem.resume ⟨m, .zero⟩ ⟨[["b", "z"]], some ⟨0, 1⟩, true⟩).perform [.next] =
      .ok ([.next none], left) ∧ left.Completes := by
  obtain ⟨m, hm, h⟩ := perform_completes Table.built_abc (by decide : [2].Nodup) (by decide)
  obtain rfl : m = .covering Table.abc [2] := Except.ok.inj (hm.symm.trans
    (Mesh.foldlM_cover_ofTable Table.built_abc.wellFormed ⟨by decide, by decide⟩))
  have hcompletes : ∀ b calls answers left,
      (Problem.resume ⟨.covering Table.abc [2], .zero⟩ b).perform calls = .ok (answers, left) →
      left.Completes := by
    intro b calls answers left hperform
    have hends := h .zero _ (.inr ⟨b, rfl⟩) calls
    rw [hperform] at hends
    exact hends
  intro m left
  have hperform : (Problem.resume ⟨m, .zero⟩ ⟨[["b", "z"]], some ⟨0, 1⟩, true⟩).perform [.next] =
      .ok ([.next none], left) := by decide +kernel
  exact ⟨hperform, hcompletes _ _ _ left hperform⟩

end Run

end Covering
