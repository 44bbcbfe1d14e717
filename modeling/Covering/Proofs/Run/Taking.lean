import Covering.Checkpoint
import Covering.Proofs.Run.Calls

/-!
# Taking some of the solutions

A caller may stop before the last solution. If the counter can count the searches up to there, the
calls give the solutions up to there, and leave the moves after the last of them for later:
`Run.take_found`. What happens on the way to a solution is described in full: `Moves.next_append`
gives the events, `Tally.count` the tally.
-/

namespace Covering
set_option autoImplicit false

namespace Tally

variable {tally : Tally} {m n : Nat}

/-- The tally after `n` more searches. -/
def count (tally : Tally) (n : Nat) : Tally :=
  { tally with searches := tally.searches + UInt64.ofNat n }

@[simp] theorem count_zero : tally.count 0 = tally := by simp [count]

theorem count_count : (tally.count m).count n = tally.count (m + n) := by
  simp [count, UInt64.ofNat_add, UInt64.add_assoc]

theorem searches_count (h : tally.searches.toNat + n < UInt64.size) :
    (tally.count n).searches.toNat = tally.searches.toNat + n := by
  have hn : n % UInt64.size = n := Nat.mod_eq_of_lt (by omega)
  rw [count, UInt64.toNat_add, UInt64.toNat_ofNat', hn]
  exact Nat.mod_eq_of_lt h

theorem countSearch_eq_count (h : tally.searches.toNat + 1 < UInt64.size) :
    tally.countSearch = .ok (tally.count 1) := by
  simp [countSearch, bump, if_pos h, count, bind, Except.bind, pure, Except.pure]

end Tally

namespace Moves

variable {tally : Tally} {earlier ms : List Move}

/-- What is emitted on the way through moves that find nothing. -/
def events : Tally → List Move → List Event
  | _, [] => []
  | tally, .notice notice :: ms => .notice notice :: events tally ms
  | tally, .search :: ms => events (tally.count 1) ms
  | tally, .report path :: ms => .report ⟨path.reverse, tally⟩ :: events tally ms
  | tally, .found _ :: ms => events tally ms

theorem events_append {ms' : List Move} :
    events tally (ms ++ ms') = events tally ms ++ events (tally.count (searches ms)) ms' := by
  induction ms generalizing tally with
  | nil => simp [events, searches]
  | cons m ms ih =>
    cases m with
    | notice notice => simp [events, ih]
    | report path => simp [events, ih, searches]
    | found solution => simp [events, ih, searches]
    | search => simp [events, ih, Tally.count_count, searches, Nat.add_comm]

/-- Nothing stops a call before the next solution if the searches up to there can be counted. -/
theorem next_append (hnone : solutions earlier = [])
    (hcount : tally.searches.toNat + searches earlier < UInt64.size) :
    next tally (earlier ++ ms) =
      emit (events tally earlier) (next (tally.count (searches earlier)) ms) := by
  induction earlier generalizing tally with
  | nil => simp [events, searches]
  | cons m earlier ih =>
    cases m with
    | found solution => simp [solutions] at hnone
    | notice notice =>
      rw [List.cons_append, next, ih hnone (by simpa using hcount), emit_emit, searches_notice]
      rfl
    | report path =>
      have hsearches : searches (.report path :: earlier) = searches earlier := by simp [searches]
      rw [hsearches] at hcount ⊢
      rw [List.cons_append, next, ih hnone hcount, emit_emit]
      rfl
    | search =>
      have hsearches : searches (.search :: earlier) = 1 + searches earlier := by
        simp [searches, Nat.add_comm]
      rw [hsearches] at hcount ⊢
      have hone : tally.searches.toNat + 1 < UInt64.size := by omega
      rw [List.cons_append, next, Tally.countSearch_eq_count hone]
      simp only
      rw [ih hnone (by rw [Tally.searches_count hone]; omega), Tally.count_count]
      rfl

/-- What comes before and after the first solution. -/
theorem solutions_eq_cons {solution : Solution} {later : List Solution}
    (h : solutions ms = solution :: later) :
    ∃ earlier rest, ms = earlier ++ .found solution :: rest ∧ solutions earlier = [] ∧
      solutions rest = later := by
  obtain ⟨earlier, m, rest, rfl, hnone, hm, hrest⟩ := List.filterMap_eq_cons_iff.1 h
  have hearlier : solutions earlier = [] := List.filterMap_eq_nil_iff.2 hnone
  cases m with
  | found found =>
    cases hm
    exact ⟨earlier, rest, rfl, hearlier, hrest⟩
  | notice notice => cases hm
  | search => cases hm
  | report path => cases hm

end Moves

/-- A checkpoint takes events part by part. -/
theorem Checkpoint.follow_append {c : Checkpoint} {events events' : List Event} :
    c.follow (events ++ events') = (c.follow events).follow events' := List.foldl_append

namespace Run

/-- What the calls for up to `limit` solutions emit. -/
def emitted : Nat → Run → List Event
  | 0, _ => []
  | limit + 1, r =>
    r.next.1.toList ++ match r.next.2 with
      | .ok (some _, r) => emitted limit r
      | _ => []

variable {t : Table} {base : List Nat} {r : Run} {earlier later : List Move}
  {solution : Solution} {n : Nat}

/-- The call that finds the next solution. -/
theorem next_found (wf : t.WellFormed) (hb : t.Coverable base)
    (h : At t base r (earlier ++ .found solution :: later))
    (hnone : Moves.solutions earlier = [])
    (hcount : r.tally.searches.toNat + Moves.searches earlier < UInt64.size) :
    ∃ r', (r.next.1.toList, r.next.2) =
        (Moves.events r.tally earlier, .ok (some solution, r')) ∧
      At t base r' later ∧ r'.tally = r.tally.count (Moves.searches earlier) := by
  have hans := next_answers wf hb h
  rw [Moves.next_append hnone hcount, Moves.next, Moves.emit, List.append_nil] at hans
  generalize (r.next.1.toList, r.next.2) = given at hans ⊢
  generalize htally : r.tally.count (Moves.searches earlier) = tally at hans ⊢
  cases hans with
  | @found _ _ r' _ stands => exact ⟨r', rfl, stands, rfl⟩

/-- The calls up to a solution among the moves. -/
theorem take_found (wf : t.WellFormed) (hb : t.Coverable base)
    (h : At t base r (earlier ++ .found solution :: later))
    (hn : (Moves.solutions earlier).length = n)
    (hcount : r.tally.searches.toNat + Moves.searches earlier < UInt64.size) :
    ∃ r', take (n + 1) r = .ok (Moves.solutions earlier ++ [solution], r') ∧
      emitted (n + 1) r = Moves.events r.tally earlier ∧
      At t base r' later ∧ r'.tally = r.tally.count (Moves.searches earlier) := by
  induction n generalizing r earlier with
  | zero =>
    have hnone := List.eq_nil_of_length_eq_zero hn
    obtain ⟨r', hnext, stands, htally⟩ := next_found wf hb h hnone hcount
    obtain ⟨hevents, hnext⟩ := Prod.mk.inj hnext
    refine ⟨r', ?_, ?_, stands, htally⟩
    · rw [take, hnext, hnone]
      rfl
    · rw [emitted, hnext, hevents]
      simp only [emitted, List.append_nil]
  | succ n ih =>
    obtain ⟨first, rest, hfirst⟩ := List.exists_cons_of_length_eq_add_one hn
    obtain ⟨before, after, rfl, hnone, hafter⟩ := Moves.solutions_eq_cons hfirst
    have hsplit : Moves.searches (before ++ .found first :: after) =
        Moves.searches before + Moves.searches after := by simp [Moves.searches]
    rw [hsplit] at hcount ⊢
    rw [List.append_assoc, List.cons_append] at h
    obtain ⟨r₁, hnext, stands, htally⟩ := next_found wf hb h hnone (by omega)
    obtain ⟨hevents, hnext⟩ := Prod.mk.inj hnext
    have hcount' : r₁.tally.searches.toNat = r.tally.searches.toNat + Moves.searches before := by
      rw [htally]
      exact Tally.searches_count (by omega)
    have hlength : (Moves.solutions after).length = n := by
      rw [hafter]
      simpa [hfirst] using hn
    obtain ⟨r', htake, hemitted, stands', htally'⟩ := ih stands hlength (by omega)
    refine ⟨r', ?_, ?_, stands', by rw [htally', htally, Tally.count_count]⟩
    · rw [take, hnext, hfirst, ← hafter]
      simp only [htake]
      rfl
    · rw [emitted, hnext, hevents]
      simp only [hemitted, htally, Moves.events_append]
      rfl

end Run

end Covering
