import Covering.Proofs.Run.Closing

/-!
# Replies

What the caller of a run sees of a call of `next`: the events on the way, and then the solution, the
level and the tally, or the fault. Main statement, `Run.replies_eq`: any number of calls of a run
that has the moves `ms` before it reply as `Moves.replies` says, so what holds of the moves of a
search holds of its replies. The level needs an argument of its own, since the moves do not show
it: a call that finds a solution stops at the level of its rows (`Run.seek_level`).
-/

namespace Covering
set_option autoImplicit false

/-- The events of a call of `next`, and the solution, the level and the tally after it. -/
structure Run.Reply where
  events : List Event
  outcome : Except Fault (Option Solution × Nat × Tally)

/-- The solution that a call yields. -/
def Run.Reply.solution? (reply : Run.Reply) : Option Solution :=
  match reply.outcome with
  | .ok (solution, _) => solution
  | .error _ => none

/-- The replies to a number of calls of `next`, or to those up to one that fails. -/
def Run.replies : Nat → Run → List Run.Reply
  | 0, _ => []
  | calls + 1, r =>
    match r.next with
    | (events, .error fault) => [⟨events.toList, .error fault⟩]
    | (events, .ok (solution, r)) =>
      ⟨events.toList, .ok (solution, r.level, r.tally)⟩ :: replies calls r

/-- The level after a call. -/
def Solution.levelAfter (solution : Option Solution) : Nat := solution.elim 0 List.length

/-- The replies that the moves give. -/
def Moves.replies : Nat → Tally → List Move → List Run.Reply
  | 0, _, _ => []
  | calls + 1, tally, ms =>
    match Moves.next tally ms with
    | (events, .error fault) => [⟨events, .error fault⟩]
    | (events, .ok (solution, tally, ms)) =>
      ⟨events, .ok (solution, Solution.levelAfter solution, tally)⟩ :: replies calls tally ms

theorem Ring.ne_zero_of_mem_walk {links : Array Nat} {bound slot following : Nat}
    (h : following ∈ walk links bound slot) : following ≠ 0 := by
  induction bound generalizing slot with
  | zero => simp [walk] at h
  | succ bound ih =>
    rw [walk] at h
    split at h
    · simp at h
    · next hne =>
      rcases List.mem_cons.1 h with rfl | h
      · exact hne
      · exact ih h

namespace Run

variable {t : Table} {base : List Nat} {r r' : Run} {ms : List Move} {solution : Solution}
  {c slot bound : Nat}

/-- The rows chosen are the solution, and the innermost branch has chosen one. -/
structure Rests (r : Run) (solution : Solution) : Prop where
  solution : r.solution = solution
  chosen : ∀ branch ∈ r.branches.head?, branch.slot ≠ 0

/-- Entering chooses no row. -/
theorem enter_found (hchosen : ∀ branch ∈ r.branches.head?, branch.slot ≠ 0)
    (h : r.enter.turn = .ok (.found solution r')) : r'.Rests solution := by
  have hsame : r'.chosen = r.chosen ∧ r'.branches = r.branches ∧ r.solution = solution := by
    unfold enter at h
    split at h
    · split at h
      · simp only [Except.ok.injEq, Turn.found.injEq] at h
        exact ⟨h.2 ▸ rfl, h.2 ▸ rfl, h.1⟩
      · split at h
        · simp at h
        · simp only [Except.ok.injEq, Turn.found.injEq] at h
          exact ⟨h.2 ▸ rfl, h.2 ▸ rfl, h.1⟩
    · next column _ =>
      generalize r.pending.isEmpty = followed at h
      generalize r.tally.countSearch = counted at h
      generalize r.mesh.cover column = covered at h
      cases followed <;> cases counted <;> cases covered <;>
        simp [bind, Except.bind, pure, Except.pure] at h
  obtain ⟨hrows, hbranches, rfl⟩ := hsame
  exact ⟨by rw [Run.solution, Run.solution, hrows], hbranches ▸ hchosen⟩

/-- Behind a row just chosen. -/
theorem choose_found {replayed : Bool} (hslot : slot ≠ 0)
    (h : (r.choose c slot replayed).turn = .ok (.found solution r')) : r'.Rests solution := by
  unfold choose at h
  split at h
  · simp at h
  · exact enter_found (by simpa using hslot) h

theorem step_found (hfresh : r.started = false → r.branches = [])
    (h : r.step.turn = .ok (.found solution r')) : r'.Rests solution := by
  unfold step at h
  split at h
  · split at h
    · simp at h
    · unfold advance at h
      simp only at h
      split at h
      · split at h
        · next slot hfind =>
          exact choose_found (Ring.ne_zero_of_mem_walk (List.mem_of_find?_eq_some hfind)) h
        · simp at h
      · split at h
        · simp at h
        · next slot below hslots =>
          have hmem : slot ∈ slot :: below := List.mem_cons_self
          rw [← hslots] at hmem
          exact choose_found (Ring.ne_zero_of_mem_walk hmem) h
  · next hstarted =>
    have hnone : r.branches = [] := hfresh (by simpa using hstarted)
    exact enter_found (by simp [hnone]) h

/-- A run between two steps that rests on a solution stands at the level of its rows. -/
theorem At.level_of_rests (h : At t base r ms) (hrests : r.Rests solution) :
    r.level = solution.length := by
  rw [level, ← hrests.solution, Run.solution, List.length_reverse]
  cases h with
  | fresh mesh branches chosen => simp [branches, chosen]
  | opened stack column top =>
    have hslot := hrests.chosen
    simp [top] at hslot
  | settled stack mesh chosen =>
    rw [chosen, stack.level_eq, List.length_reverse, Table.labelsOfPath, List.length_map]

section

variable (wf : t.WellFormed) (hb : t.Coverable base)
include wf hb

/-- A call that finds a solution stops at the level of its rows. -/
theorem seek_level {events : Array Event} {found : Option Solution} (h : At t base r ms)
    (hseek : (seek bound r events).2 = .ok (found, r')) :
    r'.level = Solution.levelAfter found := by
  induction bound generalizing r ms events with
  | zero => simp [seek] at hseek
  | succ bound ih =>
    have hdoes := step_does wf hb h
    have hfresh : r.started = false → r.branches = [] := by
      cases h with
      | fresh mesh branches => exact fun _ => branches
      | opened stack column top mesh chosen started => simp [started]
      | settled stack mesh chosen started => simp [started]
    simp only [seek] at hseek
    cases hturn : r.step.turn with
    | error fault => simp [hturn] at hseek
    | ok turn =>
      simp only [hturn] at hseek
      have hstep : r.step = ⟨r.step.events, .ok turn⟩ := by rw [← hturn]
      rw [hstep] at hdoes
      cases hdoes with
      | @found _ solution r₁ _ stands =>
        simp only [Except.ok.injEq, Prod.mk.injEq] at hseek
        obtain ⟨rfl, rfl⟩ := hseek
        exact stands.level_of_rests (step_found hfresh hturn)
      | moved stands => exact ih stands hseek
      | ended stands =>
        simp only [Except.ok.injEq, Prod.mk.injEq] at hseek
        obtain ⟨rfl, rfl⟩ := hseek
        obtain ⟨rfl, hover⟩ := step_ended hturn
        rw [level, hover.branches]
        rfl

theorem next_level {found : Option Solution} (h : At t base r ms)
    (hnext : r.next.2 = .ok (found, r')) : r'.level = Solution.levelAfter found :=
  seek_level wf hb h hnext

/-- A call emits the events that the moves say. -/
theorem next_events (h : At t base r ms) : r.next.1.toList = (Moves.next r.tally ms).1 := by
  have hanswers := next_answers wf hb h
  generalize Moves.next r.tally ms = a at hanswers ⊢
  generalize r.next = given at hanswers ⊢
  obtain ⟨events, result⟩ := given
  cases hanswers <;> rfl

/-- Calls reply as the moves say. -/
theorem replies_eq (calls : Nat) (h : At t base r ms) :
    r.replies calls = Moves.replies calls r.tally ms := by
  induction calls generalizing r ms with
  | zero => rfl
  | succ calls ih =>
    have hanswers := next_answers wf hb h
    have hlevel : ∀ found r', r.next.2 = .ok (found, r') → r'.level = Solution.levelAfter found :=
      fun _ _ => next_level wf hb h
    rw [replies, Moves.replies]
    generalize Moves.next r.tally ms = a at hanswers ⊢
    generalize r.next = given at hanswers hlevel ⊢
    obtain ⟨events, result⟩ := given
    cases hanswers with
    | failed => rfl
    | found stands =>
      simp only
      rw [hlevel _ _ rfl, ih stands]
    | ended stands =>
      simp only
      rw [hlevel _ _ rfl, ih stands]

end

end Run

end Covering
