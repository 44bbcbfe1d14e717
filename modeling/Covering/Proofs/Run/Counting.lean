import Covering.Proofs.Run.Closing

/-!
# What a run counts

A tally changes at few moments: when a search begins from a bookmark it is raised, when a level is
begun off the saved path a search is counted, and when a solution is formatted it is counted.
`Run.moments` lists what happens in a call of `next`, step by step, with the tally right after, and
`Run.momentsOf` does so for all the calls of a caller. Nothing else changes the tally, so it can be
told from these moments: `Run.account_momentsOf`.
-/

namespace Covering
set_option autoImplicit false

/-- Something that happens to a problem or to a search over it. -/
inductive Occasion where
  /-- A search begins, from a bookmark with this tally if it has one. -/
  | begun (saved : Option Tally)
  /-- A search makes a step. `opened` says that it chose a column and covered it, and that no saved
  path led there. -/
  | moved (opened : Bool)
  /-- A solution is formatted. -/
  | formatted
  /-- A search is closed. -/
  | closed
  deriving DecidableEq

/-- An occasion and the tally right after it. -/
structure Moment where
  occasion : Occasion
  tally : Tally
  deriving DecidableEq

namespace Moment

/-- Whether the tally is what the occasion makes of the one before. -/
def Follows (before : Tally) (moment : Moment) : Prop :=
  match moment.occasion with
  | .begun (some saved) =>
    moment.tally.solutions.toNat = max before.solutions.toNat saved.solutions.toNat ∧
      moment.tally.searches.toNat = max before.searches.toNat saved.searches.toNat
  | .moved true =>
    moment.tally.solutions = before.solutions ∧
      moment.tally.searches.toNat = before.searches.toNat + 1
  | .formatted =>
    moment.tally.solutions.toNat = before.solutions.toNat + 1 ∧
      moment.tally.searches = before.searches
  | .begun none | .moved false | .closed => moment.tally = before

/-- Whether every moment follows from the one before it, the first from `before`. -/
def Account : Tally → List Moment → Prop
  | _, [] => True
  | before, moment :: later => moment.Follows before ∧ Account moment.tally later

/-- The tally after all moments. -/
def last (before : Tally) (moments : List Moment) : Tally :=
  moments.foldl (fun _ moment => moment.tally) before

variable {before : Tally} {moment : Moment} {moments moments' : List Moment}

theorem account_append : Account before (moments ++ moments') ↔
    Account before moments ∧ Account (last before moments) moments' := by
  induction moments generalizing before with
  | nil => exact (and_iff_right trivial).symm
  | cons moment moments ih =>
    rw [List.cons_append, Account, Account, ih, and_assoc]
    rfl

theorem last_append : last before (moments ++ moments') = last (last before moments) moments' :=
  List.foldl_append

/-- Whatever happens, neither counter goes down. -/
theorem Follows.le (h : moment.Follows before) :
    before.solutions ≤ moment.tally.solutions ∧ before.searches ≤ moment.tally.searches := by
  obtain ⟨occasion, tally⟩ := moment
  rw [UInt64.le_iff_toNat_le, UInt64.le_iff_toNat_le]
  unfold Follows at h
  split at h
  · omega
  · rw [h.1]
    omega
  · rw [h.2]
    omega
  all_goals rw [h]; omega

/-- Of two moments neither counter is less at the later one. -/
theorem Account.pairwise (h : Account before moments) :
    (before :: moments.map (·.tally)).Pairwise fun earlier later =>
      earlier.solutions ≤ later.solutions ∧ earlier.searches ≤ later.searches := by
  induction moments generalizing before with
  | nil => exact List.pairwise_singleton ..
  | cons moment moments ih =>
    obtain ⟨hfirst, hrest⟩ := h
    have hlater := ih hrest
    refine List.pairwise_cons.2 ⟨List.forall_mem_cons.2 ⟨hfirst.le, fun tally htally => ?_⟩, hlater⟩
    obtain ⟨hsolutions, hsearches⟩ := (List.pairwise_cons.1 hlater).1 tally htally
    exact ⟨UInt64.le_trans hfirst.le.1 hsolutions, UInt64.le_trans hfirst.le.2 hsearches⟩

end Moment

/-! ## Tallies -/

namespace Tally

variable {tally counted saved : Tally}

theorem follows_of_countSearch (h : tally.countSearch = .ok counted) :
    Moment.Follows tally ⟨.moved true, counted⟩ := by
  by_cases hlt : tally.searches.toNat + 1 < UInt64.size
  · obtain ⟨next, hok, hsolutions, hsearches⟩ := countSearch_eq_ok hlt
    obtain rfl := Except.ok.inj (hok.symm.trans h)
    exact ⟨hsolutions, hsearches⟩
  · rw [countSearch_eq_error (Nat.le_of_not_lt hlt)] at h
    cases h

theorem follows_of_countSolution (h : tally.countSolution = .ok counted) :
    Moment.Follows tally ⟨.formatted, counted⟩ := of_countSolution h

theorem follows_raiseTo : Moment.Follows tally ⟨.begun (some saved), tally.raiseTo saved⟩ := by
  have hmax : ∀ a b : UInt64, (max a b).toNat = max a.toNat b.toNat := by
    intro a b
    change (if a ≤ b then b else a).toNat = _
    split
    · next hle => exact (Nat.max_eq_right hle).symm
    · next hlt => exact (Nat.max_eq_left (Nat.le_of_not_le hlt)).symm
  exact ⟨hmax .., hmax ..⟩

end Tally

/-! ## Steps -/

/-- The run that a turn leaves. -/
def Turn.run : Turn → Run
  | .found _ r => r
  | .moved r => r
  | .ended r => r

namespace Run

variable {r r' s : Run} {turn : Turn} {bound : Nat} {events : Array Event}

/-- Whether the way from `r` to `r'` is a step that chose a column and covered it with no saved path
left to follow. -/
def opens (r r' : Run) : Bool := r.level < r'.level && r'.pending.isEmpty

/-- What happens to the tally at a step that leaves a run. -/
def moment (r r' : Run) : Moment := ⟨.moved (r.opens r'), r'.tally⟩

/-- The moments of a call of `next` that takes `bound` steps at most. -/
def moments : Nat → Run → List Moment
  | 0, _ => []
  | bound + 1, r =>
    match r.step.turn with
    | .error _ => []
    | .ok (.moved r') => r.moment r' :: moments bound r'
    | .ok (.found _ r') | .ok (.ended r') => [r.moment r']

/-- The moments of a call. -/
def momentsAt (r : Run) : Call → List Moment
  | .next => r.moments r.stepBound
  | .format _ =>
    match r.tally.countSolution with
    | .ok counted => [⟨.formatted, counted⟩]
    | .error _ => []

/-- The moments of calls, up to one that fails. -/
def momentsOf : List Call → Run → List Moment
  | [], _ => []
  | call :: calls, r =>
    r.momentsAt call ++ match r.answer call with
      | .ok (_, r) => momentsOf calls r
      | .error _ => []

/-- At the beginning of a level the search is counted if its column is covered off the saved
path. -/
theorem enter_counts (h : r.enter.turn = .ok turn) :
    turn.run.level = r.level ∧ turn.run.tally = r.tally ∨
      turn.run.level = r.level + 1 ∧
        (if turn.run.pending.isEmpty then r.tally.countSearch else .ok r.tally) =
          .ok turn.run.tally := by
  unfold enter at h
  split at h
  · split at h
    · obtain rfl := Except.ok.inj h
      exact .inl ⟨rfl, rfl⟩
    · split at h
      all_goals
        obtain rfl := Except.ok.inj h
        exact .inl ⟨rfl, rfl⟩
  · next column _ =>
    have hcover : ∀ tally : Tally, (do
        let mesh ← r.mesh.cover column
        return .moved { r with mesh, tally, branches := ⟨column, 0, false⟩ :: r.branches }) =
          Except.ok turn →
        turn.run.level = r.level + 1 ∧ turn.run.pending = r.pending ∧ turn.run.tally = tally := by
      intro tally h
      cases hmesh : r.mesh.cover column with
      | error fault =>
        rw [hmesh] at h
        cases h
      | ok mesh =>
        rw [hmesh] at h
        obtain rfl := Except.ok.inj h
        exact ⟨rfl, rfl, rfl⟩
    cases hpending : r.pending.isEmpty with
    | false =>
      rw [hpending] at h
      obtain ⟨hlevel, hsame, htally⟩ := hcover r.tally h
      rw [hsame, hpending, htally]
      exact .inr ⟨hlevel, rfl⟩
    | true =>
      rw [hpending] at h
      cases hcount : r.tally.countSearch with
      | error fault =>
        simp only [if_true, hcount] at h
        cases h
      | ok counted =>
        simp only [if_true, hcount] at h
        obtain ⟨hlevel, hsame, htally⟩ := hcover counted h
        rw [hsame, hpending, htally, if_pos rfl]
        exact .inr ⟨hlevel, rfl⟩

theorem choose_counts {column slot : Nat} {replayed : Bool}
    (h : (r.choose column slot replayed).turn = .ok turn) (hlevel : 0 < r.level) :
    turn.run.level = r.level ∧ turn.run.tally = r.tally ∨
      turn.run.level = r.level + 1 ∧
        (if turn.run.pending.isEmpty then r.tally.countSearch else .ok r.tally) =
          .ok turn.run.tally := by
  unfold choose at h
  split at h
  · cases h
  · have hsame : r.branches.tail.length + 1 = r.level := by
      rw [List.length_tail]
      exact Nat.sub_add_cancel hlevel
    have hcounts := enter_counts h
    simp only [level, List.length_cons, hsame] at hcounts
    exact hcounts

/-- A step goes up a level and counts a search, if it is off the saved path, or it leaves the
tally. -/
theorem step_counts (h : r.step.turn = .ok turn) :
    turn.run.level ≤ r.level ∧ turn.run.tally = r.tally ∨
      turn.run.level = r.level + 1 ∧
        (if turn.run.pending.isEmpty then r.tally.countSearch else .ok r.tally) =
          .ok turn.run.tally := by
  unfold step at h
  split at h
  · split at h
    · obtain rfl := Except.ok.inj h
      exact .inl ⟨Nat.le_refl _, rfl⟩
    · next branch rest hbranches =>
      obtain ⟨htally, hsame, -⟩ := r.undo_frame branch
      have hlevel : r.level = rest.length + 1 := by rw [level, hbranches, List.length_cons]
      have hundo : (r.undo branch).level = r.level := congrArg List.length hsame
      -- A row is chosen on the level of the branch, and then a level is begun.
      have hchoose : ∀ (chosen pending : List Labels) (slot : Nat) (replayed : Bool),
          (choose { r.undo branch with chosen, pending } branch.column slot replayed).turn =
            .ok turn → turn.run.level ≤ r.level ∧ turn.run.tally = r.tally ∨
              turn.run.level = r.level + 1 ∧
                (if turn.run.pending.isEmpty then r.tally.countSearch else .ok r.tally) =
                  .ok turn.run.tally := by
        intro chosen pending slot replayed hturn
        have hcounts := choose_counts hturn (hundo.symm ▸ hlevel ▸ Nat.succ_pos _)
        rw [show ({ r.undo branch with chosen, pending } : Run).level = r.level from hundo,
          show ({ r.undo branch with chosen, pending } : Run).tally = r.tally from htally]
          at hcounts
        exact hcounts.imp_left fun h => ⟨h.1.le, h.2⟩
      have hretreat : ((r.undo branch).retreat branch.column).level ≤ r.level ∧
          ((r.undo branch).retreat branch.column).tally = r.tally := by
        refine ⟨?_, htally⟩
        rw [level, retreat, hsame, List.length_tail]
        exact Nat.sub_le _ _
      unfold advance at h
      simp only at h
      split at h
      · split at h
        · exact hchoose _ _ _ _ h
        · obtain rfl := Except.ok.inj h
          exact .inl hretreat
      · split at h
        · obtain rfl := Except.ok.inj h
          exact .inl hretreat
        · exact hchoose _ _ _ _ h
  · exact (enter_counts h).imp_left fun h => ⟨h.1.le, h.2⟩

/-- The tally after a step follows from the one before. -/
theorem follows_moment (h : r.step.turn = .ok turn) :
    (r.moment turn.run).Follows r.tally := by
  rcases step_counts h with ⟨hlevel, htally⟩ | ⟨hlevel, htally⟩
  · have hclosed : r.opens turn.run = false := by simp [opens, Nat.not_lt.2 hlevel]
    rw [moment, hclosed]
    exact htally
  · have hup : decide (r.level < turn.run.level) = true := by simp [hlevel]
    rw [moment, opens, hup, Bool.true_and]
    cases hpending : turn.run.pending.isEmpty with
    | true =>
      rw [hpending, if_pos rfl] at htally
      exact Tally.follows_of_countSearch htally
    | false =>
      rw [hpending] at htally
      exact (Except.ok.inj htally).symm

/-! ## Calls -/

/-- The tally through a call. -/
theorem account_moments (bound : Nat) (r : Run) (events : Array Event) :
    Moment.Account r.tally (r.moments bound) ∧ ∀ solution r',
      (seek bound r events).2 = .ok (solution, r') →
        Moment.last r.tally (r.moments bound) = r'.tally := by
  induction bound generalizing r events with
  | zero => exact ⟨trivial, fun solution r' h => by cases h⟩
  | succ bound ih =>
    rw [moments]
    simp only [seek]
    cases hturn : r.step.turn with
    | error fault => exact ⟨trivial, fun solution r' h => by cases h⟩
    | ok turn =>
      have hfollows := follows_moment hturn
      cases turn with
      | moved left =>
        obtain ⟨haccount, hlast⟩ := ih left (r.step.events.foldl Array.push events)
        exact ⟨⟨hfollows, haccount⟩, hlast⟩
      | found found left =>
        refine ⟨⟨hfollows, trivial⟩, fun solution r' h => ?_⟩
        obtain ⟨-, rfl⟩ := Prod.mk.inj (Except.ok.inj h)
        rfl
      | ended left =>
        refine ⟨⟨hfollows, trivial⟩, fun solution r' h => ?_⟩
        obtain ⟨-, rfl⟩ := Prod.mk.inj (Except.ok.inj h)
        rfl

/-- The tally through a call, whatever it asks for. -/
theorem account_momentsAt (r : Run) (call : Call) :
    Moment.Account r.tally (r.momentsAt call) ∧ ∀ answer r',
      r.answer call = .ok (answer, r') →
        Moment.last r.tally (r.momentsAt call) = r'.tally := by
  cases call with
  | next =>
    obtain ⟨haccount, hlast⟩ := account_moments r.stepBound r #[]
    refine ⟨haccount, fun answer r' h => ?_⟩
    rw [Run.answer, Run.next] at h
    cases hseek : (seek r.stepBound r #[]).2 with
    | error fault => simp [hseek] at h
    | ok given =>
      obtain ⟨solution, left⟩ := given
      rw [hseek] at h
      obtain ⟨-, rfl⟩ := Prod.mk.inj (Except.ok.inj h)
      exact hlast solution left hseek
  | format solution =>
    rw [momentsAt, Run.answer, format]
    cases hcount : r.tally.countSolution with
    | error fault => exact ⟨trivial, fun answer r' h => by cases h⟩
    | ok counted =>
      refine ⟨⟨Tally.follows_of_countSolution hcount, trivial⟩, fun answer r' h => ?_⟩
      obtain ⟨-, rfl⟩ := Prod.mk.inj (Except.ok.inj h)
      rfl

/-- The tally through any calls. -/
theorem account_momentsOf (calls : List Call) (r : Run) :
    Moment.Account r.tally (r.momentsOf calls) ∧ ∀ answers r',
      r.perform calls = .ok (answers, r') →
        Moment.last r.tally (r.momentsOf calls) = r'.tally := by
  induction calls generalizing r with
  | nil =>
    refine ⟨trivial, fun answers r' h => ?_⟩
    obtain ⟨-, rfl⟩ := Prod.mk.inj (Except.ok.inj h)
    rfl
  | cons call calls ih =>
    obtain ⟨haccount, hlast⟩ := account_momentsAt r call
    rw [perform, momentsOf, Moment.account_append, Moment.last_append]
    cases hanswer : r.answer call with
    | error failed => exact ⟨⟨haccount, trivial⟩, fun answers r' h => by cases h⟩
    | ok given =>
      obtain ⟨answer, left⟩ := given
      obtain ⟨hrest, hlater⟩ := ih left
      simp only [hlast answer left hanswer]
      refine ⟨⟨haccount, hrest⟩, fun answers r' h => ?_⟩
      cases hperform : left.perform calls with
      | error failed => simp [hperform, bind, Except.bind] at h
      | ok rest =>
        simp only [hperform, bind, Except.bind] at h
        obtain ⟨-, rfl⟩ := Prod.mk.inj (Except.ok.inj h)
        exact hlater rest.1 rest.2 hperform

end Run

end Covering
