import Covering.Proofs.Run.Simulation

/-!
# Calls of a run

From one step to a whole call: a run that has the moves `ms` before it answers a call of `next` as
`Moves.next` does, and keeps the moves that are left: `Run.next_answers`. Calls until there is no
solution any more give all solutions among the moves, if the counter can count their searches:
`Run.drain_eq`.
-/

namespace Covering
set_option autoImplicit false

namespace Run

variable {t : Table} {base : List Nat} {r r' : Run} {ms ms' : List Move} {tally : Tally}
  {bound : Nat}

/-- What a call, or what is left of it, gives: the events and the outcome of `Moves.next`, and a run
that has the moves left over before it. A call that finds a solution lowers the budget. -/
inductive Answers (t : Table) (base : List Nat) (budget : Nat) :
    List Event × Except Fault (Option Solution × Tally × List Move) →
    List Event × Except Fault (Option Solution × Run) → Prop
  | failed {events : List Event} {fault : Fault} :
      Answers t base budget (events, .error fault) (events, .error fault)
  | found {events : List Event} {solution : Solution} {r : Run} {ms : List Move}
      (stands : At t base r ms) (lower : r.budget t < budget) :
      Answers t base budget (events, .ok (some solution, r.tally, ms))
        (events, .ok (some solution, r))
  | ended {events : List Event} {r : Run} (stands : At t base r []) :
      Answers t base budget (events, .ok (none, r.tally, [])) (events, .ok (none, r))

theorem Answers.emit {budget budget' : Nat} {emitted : List Event}
    {a : List Event × Except Fault (Option Solution × Tally × List Move)}
    {b : List Event × Except Fault (Option Solution × Run)}
    (h : Answers t base budget a b) (hle : budget ≤ budget') :
    Answers t base budget' (Moves.emit emitted a) (Moves.emit emitted b) := by
  cases h with
  | failed => exact .failed
  | found stands lower => exact .found stands (lower.trans_le hle)
  | ended stands => exact .ended stands

theorem stepBound_pos (r : Run) : 0 < r.stepBound :=
  Nat.mul_pos (Nat.succ_pos _) (Nat.succ_pos _)

/-- Events emitted before do not matter to what follows. -/
theorem seek_eq_emit (bound : Nat) (r : Run) (events : Array Event) :
    ((seek bound r events).1.toList, (seek bound r events).2) =
      Moves.emit events.toList ((seek bound r #[]).1.toList, (seek bound r #[]).2) := by
  induction bound generalizing r events with
  | zero => simp [seek, Moves.emit]
  | succ bound ih =>
    simp only [seek]
    generalize r.step = s
    obtain ⟨emitted, turn⟩ := s
    simp only [List.foldl_push_eq_append']
    cases turn with
    | error fault => simp [Moves.emit]
    | ok turn =>
      cases turn with
      | found solution r => simp [Moves.emit]
      | ended r => simp [Moves.emit]
      | moved r =>
        simp only
        rw [ih r (events ++ emitted.toArray), ih r (#[] ++ emitted.toArray), Moves.emit_emit]
        simp

/-- A run from a bookmark, before its first step. -/
theorem at_resume {p : Problem} (b : Bookmark) (hp : p.mesh = .covering t base) :
    At t base (p.resume b)
      (.notice (p.resume b).startNotice :: t.moves base b.reported b.path) :=
  .fresh hp rfl rfl rfl rfl

/-- A run from the start, before its first step. -/
theorem at_solve {p : Problem} (hp : p.mesh = .covering t base) :
    At t base p.solve
      (.notice p.solve.startNotice :: Moves.told false (t.moves base false [])) :=
  .fresh hp rfl rfl rfl rfl

/-- A run before its first step, however it was begun. -/
theorem exists_at (h : r = Problem.solve ⟨.covering t base, tally⟩ ∨
    ∃ b, r = Problem.resume ⟨.covering t base, tally⟩ b) : ∃ ms, At t base r ms := by
  rcases h with rfl | ⟨b, rfl⟩
  · exact ⟨_, at_solve rfl⟩
  · exact ⟨_, at_resume b rfl⟩

variable (wf : t.WellFormed) (hb : t.Coverable base)
include wf hb

theorem seek_answers (h : At t base r ms) (hlt : r.budget t < bound) :
    Answers t base (r.budget t) (Moves.next r.tally ms)
      ((seek bound r #[]).1.toList, (seek bound r #[]).2) := by
  induction bound generalizing r ms with
  | zero => omega
  | succ bound ih =>
    have hdoes := step_does wf hb h
    simp only [seek]
    generalize r.step = s at hdoes ⊢
    cases hdoes with
    | failed next =>
      rw [next]
      simpa using Answers.failed
    | found stands lower next =>
      rw [next]
      simpa using Answers.found stands lower
    | ended stands next =>
      rw [next]
      simpa using Answers.ended stands
    | moved stands lower next =>
      rw [next]
      simp only
      rw [seek_eq_emit]
      simpa using (ih stands (by omega)).emit (Nat.le_of_lt lower)

theorem At.table_eq (h : At t base r ms) : r.mesh.table = t := by
  cases h with
  | fresh mesh => rw [mesh, (Mesh.reads_covering wf hb).table]
  | opened stack column _ mesh =>
    rw [mesh, (Mesh.reads_covering wf (stack.coverable_concat wf hb column)).table]
  | settled stack mesh => rw [mesh, (Mesh.reads_covering wf (stack.covers wf hb).1).table]

/-- The steps that a call may take are enough. -/
theorem budget_lt_stepBound (h : At t base r ms) : r.budget t < r.stepBound := by
  have hspare : spare t r.branches ≤ r.level * (t.rowCount + 2) := spare_le r.branches
  have hall : r.budget t ≤ r.allowance t r.pending.length + 1 := by
    unfold budget
    split
    · exact (allowance_mono (Nat.sub_le _ _)).trans (Nat.le_succ _)
    · exact Nat.le_refl _
  have hle : (UInt64.size - 1 - r.tally.searches.toNat + r.pending.length) * (t.rowCount + 2) ≤
      (UInt64.size + r.pending.length) * (t.rowCount + 2) :=
    Nat.mul_le_mul_right _ (by omega)
  rw [stepBound, h.table_eq wf hb, Nat.add_mul _ 1, Nat.add_mul _ r.level]
  rw [allowance] at hall
  omega

theorem next_answers (h : At t base r ms) :
    Answers t base (r.budget t) (Moves.next r.tally ms) (r.next.1.toList, r.next.2) :=
  seek_answers wf hb h (budget_lt_stepBound wf hb h)

/-- What a call gives, told by the moves. -/
theorem next_outcome (h : At t base r ms) :
    match (Moves.next r.tally ms).2 with
    | .ok (solution, tally, ms') =>
      ∃ left, r.next.2 = .ok (solution, left) ∧ left.tally = tally ∧ At t base left ms'
    | .error fault => r.next.2 = .error fault := by
  have hanswers := next_answers wf hb h
  generalize Moves.next r.tally ms = a at hanswers ⊢
  generalize r.next.1.toList = emitted at hanswers
  generalize r.next.2 = result at hanswers ⊢
  cases hanswers with
  | failed => rfl
  | found stands => exact ⟨_, rfl, rfl, stands⟩
  | ended stands => exact ⟨_, rfl, rfl, stands⟩

/-! ## Draining -/

/-- A call finds the next solution, ends the run or fills the counter. -/
theorem next_cases (h : At t base r ms) :
    (∃ solution r' ms', r.next.2 = .ok (some solution, r') ∧ At t base r' ms' ∧
      r'.budget t < r.budget t ∧ Moves.solutions ms = solution :: Moves.solutions ms' ∧
      r'.tally.solutions = r.tally.solutions ∧
      r'.tally.searches.toNat + Moves.searches ms' =
        r.tally.searches.toNat + Moves.searches ms) ∨
    (∃ r', r.next.2 = .ok (none, r') ∧ At t base r' [] ∧ Moves.solutions ms = [] ∧
      r'.tally.solutions = r.tally.solutions ∧
      r'.tally.searches.toNat = r.tally.searches.toNat + Moves.searches ms) ∨
    (r.next.2 = .error .tallyOverflow ∧
      UInt64.size ≤ r.tally.searches.toNat + Moves.searches ms) := by
  have hans := next_answers wf hb h
  have hcases := Moves.next_cases r.tally ms
  generalize Moves.next r.tally ms = a at hans hcases
  generalize r.next.1.toList = emitted at hans
  generalize r.next.2 = result at hans ⊢
  cases hans with
  | failed =>
    rcases hcases with ⟨_, _, _, he, -⟩ | ⟨_, he, -⟩ | ⟨he, hle⟩
    · simp at he
    · simp at he
    · exact .inr (.inr ⟨by simpa using he, hle⟩)
  | @found _ solution r' ms' stands lower =>
    rcases hcases with ⟨_, _, _, he, hsol, hs, hn⟩ | ⟨_, he, -⟩ | ⟨he, -⟩
    · simp only [Except.ok.injEq, Prod.mk.injEq, Option.some.injEq] at he
      obtain ⟨rfl, rfl, rfl⟩ := he
      exact .inl ⟨solution, r', ms', rfl, stands, lower, hsol, hs, hn⟩
    · simp at he
    · simp at he
  | @ended _ r' stands =>
    rcases hcases with ⟨_, _, _, he, -⟩ | ⟨_, he, hsol, hs, hn⟩ | ⟨he, -⟩
    · simp at he
    · simp only [Except.ok.injEq, Prod.mk.injEq, and_true, true_and] at he
      subst he
      exact .inr (.inl ⟨r', rfl, stands, hsol, hs, hn⟩)
    · simp at he

/-- The calls find the solutions among the moves, and count what is counted among them. -/
theorem take_of_lt {limit : Nat} (h : At t base r ms) (hlimit : r.budget t < limit)
    (hcount : r.tally.searches.toNat + Moves.searches ms < UInt64.size) :
    ∃ r', take limit r = .ok (Moves.solutions ms, r') ∧
      r'.tally.solutions = r.tally.solutions ∧
      r'.tally.searches.toNat = r.tally.searches.toNat + Moves.searches ms := by
  induction limit generalizing r ms with
  | zero => omega
  | succ limit ih =>
    rcases next_cases wf hb h with ⟨solution, r₁, ms', he, stands, lower, hsol, hs, hn⟩ |
      ⟨r₁, he, stands, hsol, hs, hn⟩ | ⟨-, hle⟩
    · obtain ⟨r', htake, hs', hn'⟩ := ih stands (by omega) (by omega)
      refine ⟨r', ?_, hs'.trans hs, by omega⟩
      rw [take, he]
      simp only [htake, hsol]
      rfl
    · refine ⟨r₁, ?_, hs, hn⟩
      rw [take, he, hsol]
    · omega

/-- The calls fail if the counter cannot count what is counted among the moves. -/
theorem take_of_le {limit : Nat} (h : At t base r ms) (hlimit : r.budget t < limit)
    (hcount : UInt64.size ≤ r.tally.searches.toNat + Moves.searches ms) :
    take limit r = .error .tallyOverflow := by
  induction limit generalizing r ms with
  | zero => omega
  | succ limit ih =>
    rcases next_cases wf hb h with ⟨solution, r₁, ms', he, stands, lower, -, -, hn⟩ |
      ⟨r₁, -, -, -, -, hn⟩ | ⟨he, -⟩
    · rw [take, he]
      simp only [ih stands (by omega) (by omega)]
      rfl
    · have := r₁.tally.searches.toNat_lt_size
      omega
    · rw [take, he]

/-- Draining gives all solutions among the moves, unless the counter cannot count their searches. -/
theorem drain_eq (h : At t base r ms) :
    if r.tally.searches.toNat + Moves.searches ms < UInt64.size then
      ∃ r', r.drain = .ok (Moves.solutions ms, r') ∧ r'.tally.solutions = r.tally.solutions ∧
        r'.tally.searches.toNat = r.tally.searches.toNat + Moves.searches ms
    else r.drain = .error .tallyOverflow := by
  have hlimit := budget_lt_stepBound wf hb h
  split
  · next hlt => exact take_of_lt wf hb h hlimit hlt
  · next hle => exact take_of_le wf hb h hlimit (Nat.le_of_not_lt hle)

end Run

end Covering
