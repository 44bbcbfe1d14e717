import Covering.Proofs.Run.Counting

/-!
# What a problem goes through

A problem is searched, any number of times, from the start or from a bookmark, as far as a caller
likes, and solutions are formatted in between. None of this is left behind but in the tally:
`Problem.history_leaves_no_trace` says that the mesh is the one from before, that the tally is what
`Moment.Account` makes of it, and that a search from the start gives the solutions that it would give
on a new problem, and counts as many searches on the way to each.
-/

namespace Covering
set_option autoImplicit false

/-! ## Two tallies with the same moves -/

namespace Moves

variable {a b b' : Tally} {d : Nat} {solution : Option Solution} {ms' : List Move}

/-- No search is taken back. -/
theorem le_next {ms : List Move} (h : (next b ms).2 = .ok (solution, b', ms')) :
    b.searches.toNat ≤ b'.searches.toNat := by
  induction ms generalizing b with
  | nil =>
    cases h
    exact Nat.le_refl _
  | cons m ms ih =>
    cases m with
    | notice notice => exact ih h
    | report path => exact ih h
    | found solution =>
      cases h
      exact Nat.le_refl _
    | search =>
      rw [next] at h
      cases hcount : b.countSearch with
      | error fault => simp [hcount] at h
      | ok counted =>
        rw [hcount] at h
        exact (Tally.follows_of_countSearch hcount).le.2.trans (ih h)

/-- Moves played with two tallies of which the first is ahead by `d` searches lead to the same
solution and leave it ahead by `d`, unless its counter cannot go as far. -/
theorem next_ahead (hahead : a.searches.toNat = d + b.searches.toNat) (ms : List Move) :
    match (next b ms).2 with
    | .ok (solution, b', ms') =>
      (d + b'.searches.toNat < UInt64.size ∧
        ∃ a', (next a ms).2 = .ok (solution, a', ms') ∧ a'.solutions = a.solutions ∧
          a'.searches.toNat = d + b'.searches.toNat) ∨
      (UInt64.size ≤ d + b'.searches.toNat ∧ (next a ms).2 = .error .tallyOverflow)
    | .error fault => fault = .tallyOverflow ∧ (next a ms).2 = .error .tallyOverflow := by
  have hlt := a.searches.toNat_lt_size
  induction ms generalizing a b with
  | nil => exact .inl ⟨hahead ▸ hlt, a, rfl, rfl, hahead⟩
  | cons m ms ih =>
    cases m with
    | notice notice => exact ih hahead hlt
    | report path => exact ih hahead hlt
    | found solution => exact .inl ⟨hahead ▸ hlt, a, rfl, rfl, hahead⟩
    | search =>
      rw [next, next]
      by_cases hb : b.searches.toNat + 1 < UInt64.size
      · obtain ⟨b₁, hb₁, -, hsearches⟩ := Tally.countSearch_eq_ok hb
        rw [hb₁]
        by_cases ha : a.searches.toNat + 1 < UInt64.size
        · obtain ⟨a₁, ha₁, hsolutions, hsearches'⟩ := Tally.countSearch_eq_ok ha
          rw [ha₁, ← hsolutions]
          exact ih (by omega) a₁.searches.toNat_lt_size
        · rw [Tally.countSearch_eq_error (Nat.le_of_not_lt ha)]
          cases hnext : (next b₁ ms).2 with
          | error fault =>
            rcases next_cases b₁ ms with ⟨_, _, _, he, -⟩ | ⟨_, he, -⟩ | ⟨he, -⟩
            · simp [he] at hnext
            · simp [he] at hnext
            · exact ⟨Except.error.inj (hnext.symm.trans he), rfl⟩
          | ok given =>
            have hle := le_next hnext
            exact .inr ⟨by omega, rfl⟩
      · have ha : UInt64.size ≤ a.searches.toNat + 1 := by omega
        rw [Tally.countSearch_eq_error (Nat.le_of_not_lt hb), Tally.countSearch_eq_error ha]
        exact ⟨rfl, rfl⟩

end Moves

/-! ## Two runs with the same moves -/

namespace Run

variable {t : Table} {base : List Nat} {r r' : Run} {ms : List Move} {d : Nat}

section

variable (wf : t.WellFormed) (hb : t.Coverable base)
include wf hb

/-- A call of a run whose counter is ahead by `d` gives what it gives without. -/
theorem next_ahead (h : At t base r ms) (h' : At t base r' ms)
    (hahead : r.tally.searches.toNat = d + r'.tally.searches.toNat) :
    match r'.next.2 with
    | .ok (solution, left') =>
      r'.tally.searches.toNat ≤ left'.tally.searches.toNat ∧ ∃ ms', At t base left' ms' ∧
        ((d + left'.tally.searches.toNat < UInt64.size ∧
          ∃ left, r.next.2 = .ok (solution, left) ∧ At t base left ms' ∧
            left.tally.solutions = r.tally.solutions ∧
            left.tally.searches.toNat = d + left'.tally.searches.toNat) ∨
        (UInt64.size ≤ d + left'.tally.searches.toNat ∧ r.next.2 = .error .tallyOverflow))
    | .error fault => fault = .tallyOverflow ∧ r.next.2 = .error .tallyOverflow := by
  have hmoves := Moves.next_ahead hahead ms
  have hout := next_outcome wf hb h
  have hout' := next_outcome wf hb h'
  cases hnext : (Moves.next r'.tally ms).2 with
  | error fault =>
    rw [hnext] at hmoves hout'
    rw [hmoves.2] at hout
    rw [hout']
    exact ⟨hmoves.1, hout⟩
  | ok given =>
    obtain ⟨solution, tally', ms'⟩ := given
    have hle := Moves.le_next hnext
    rw [hnext] at hmoves hout'
    obtain ⟨left', hresult', rfl, stands'⟩ := hout'
    rw [hresult']
    refine ⟨hle, ms', stands', hmoves.imp ?_ ?_⟩
    · rintro ⟨hlt, tally, hnext', hsolutions, hsearches⟩
      rw [hnext'] at hout
      obtain ⟨left, hresult, rfl, stands⟩ := hout
      exact ⟨hlt, left, hresult, stands, hsolutions, hsearches⟩
    · rintro ⟨hfull, hfails⟩
      rw [hfails] at hout
      exact ⟨hfull, hout⟩

/-- So do any number of calls. -/
theorem take_ahead (k : Nat) (h : At t base r ms) (h' : At t base r' ms)
    (hahead : r.tally.searches.toNat = d + r'.tally.searches.toNat) :
    match r'.take k with
    | .ok (given, left') =>
      r'.tally.searches.toNat ≤ left'.tally.searches.toNat ∧
        ((d + left'.tally.searches.toNat < UInt64.size ∧
          ∃ left, r.take k = .ok (given, left) ∧ left.tally.solutions = r.tally.solutions ∧
            left.tally.searches.toNat = d + left'.tally.searches.toNat) ∨
        (UInt64.size ≤ d + left'.tally.searches.toNat ∧ r.take k = .error .tallyOverflow))
    | .error fault => fault = .tallyOverflow ∧ r.take k = .error .tallyOverflow := by
  induction k generalizing r r' ms d with
  | zero =>
    exact ⟨Nat.le_refl _, .inl ⟨hahead ▸ r.tally.searches.toNat_lt_size, r, rfl, rfl, hahead⟩⟩
  | succ k ih =>
    have hfirst := next_ahead wf hb h h' hahead
    rw [take, take]
    cases hnext' : r'.next.2 with
    | error fault =>
      rw [hnext'] at hfirst
      rw [hfirst.2]
      exact ⟨hfirst.1, rfl⟩
    | ok answer =>
      obtain ⟨solution, left'⟩ := answer
      rw [hnext'] at hfirst
      obtain ⟨hle, ms', stands', hfirst⟩ := hfirst
      cases solution with
      | none =>
        refine ⟨hle, hfirst.imp ?_ ?_⟩
        · rintro ⟨hlt, left, hnext, -, hsolutions, hsearches⟩
          exact ⟨hlt, left, by rw [hnext], hsolutions, hsearches⟩
        · rintro ⟨hfull, hnext⟩
          exact ⟨hfull, by rw [hnext]⟩
      | some solution =>
        rcases hfirst with ⟨-, left, hnext, stands, hsolutions, hsearches⟩ | ⟨hfull, hnext⟩
        · have hrest := ih stands stands' hsearches
          rw [hnext]
          simp only
          cases htake' : left'.take k with
          | error fault =>
            rw [htake'] at hrest
            obtain ⟨rfl, htake⟩ := hrest
            exact ⟨rfl, by rw [htake]; rfl⟩
          | ok rest =>
            rw [htake'] at hrest
            refine ⟨hle.trans hrest.1, hrest.2.imp ?_ ?_⟩
            · rintro ⟨hlt, last, htake, hsolutions', hsearches'⟩
              exact ⟨hlt, last, by rw [htake]; rfl, hsolutions'.trans hsolutions, hsearches'⟩
            · rintro ⟨hfull, htake⟩
              exact ⟨hfull, by rw [htake]; rfl⟩
        · -- The counter does not reach the first solution, and the later calls count no less.
          have hrest := ih stands' stands' (Nat.zero_add _).symm
          rw [hnext]
          simp only
          cases htake' : left'.take k with
          | error fault =>
            rw [htake'] at hrest
            exact ⟨hrest.1, trivial⟩
          | ok rest =>
            rw [htake'] at hrest
            exact ⟨hle.trans hrest.1, .inr ⟨hfull.trans (Nat.add_le_add_left hrest.1 d), trivial⟩⟩

end

end Run

/-! ## Histories -/

namespace Problem

/-- Something that is done to a problem. -/
inductive Operation where
  /-- A search from the start, or from a bookmark, that answers calls and is then closed. -/
  | search (bookmark : Option Bookmark) (calls : List Run.Call)
  /-- A solution is formatted. -/
  | format (solution : Solution)
  deriving DecidableEq

/-- A search, from the bookmark if there is one. -/
def begin (p : Problem) : Option Bookmark → Run
  | none => p.solve
  | some bookmark => p.resume bookmark

/-- The problem after an operation. -/
def operate (p : Problem) : Operation → Except Fault Problem
  | .search bookmark calls =>
    match (p.begin bookmark).perform calls with
    | .ok (_, left) => .ok left.close
    | .error (fault, _) => .error fault
  | .format solution => (p.format solution).map (·.2)

/-- The moments of an operation. -/
def momentsAt (p : Problem) : Operation → List Moment
  | .search bookmark calls =>
    let r := p.begin bookmark
    ⟨.begun (bookmark.bind (·.tally)), r.tally⟩ :: r.momentsOf calls ++
      match r.perform calls with
      | .ok (_, left) => [⟨.closed, left.close.tally⟩]
      | .error _ => []
  | .format solution =>
    match p.format solution with
    | .ok (_, left) => [⟨.formatted, left.tally⟩]
    | .error _ => []

/-- The moments of operations, up to one that fails. -/
def momentsOf (p : Problem) : List Operation → List Moment
  | [] => []
  | operation :: later =>
    p.momentsAt operation ++ match p.operate operation with
      | .ok p => p.momentsOf later
      | .error _ => []

variable {t : Table} {base : List Nat} {p : Problem}

theorem follows_begin (p : Problem) (bookmark : Option Bookmark) :
    Moment.Follows p.tally ⟨.begun (bookmark.bind (·.tally)), (p.begin bookmark).tally⟩ := by
  cases bookmark with
  | none => exact rfl
  | some bookmark =>
    obtain ⟨path, saved, reported⟩ := bookmark
    cases saved with
    | none => exact rfl
    | some saved => exact Tally.follows_raiseTo

/-- The tally through an operation. -/
theorem account_momentsAt (p : Problem) (operation : Operation) :
    Moment.Account p.tally (p.momentsAt operation) ∧ ∀ left, p.operate operation = .ok left →
      Moment.last p.tally (p.momentsAt operation) = left.tally := by
  cases operation with
  | search bookmark calls =>
    obtain ⟨haccount, hlast⟩ := Run.account_momentsOf calls (p.begin bookmark)
    rw [momentsAt, operate]
    cases hperform : (p.begin bookmark).perform calls with
    | error failed =>
      simp only [List.append_nil]
      exact ⟨⟨follows_begin p bookmark, haccount⟩, fun left h => by cases h⟩
    | ok given =>
      have hend := hlast given.1 given.2 hperform
      simp only [List.cons_append, Moment.Account, Moment.account_append, hend]
      refine ⟨⟨follows_begin p bookmark, haccount, rfl, trivial⟩, fun left h => ?_⟩
      obtain rfl := Except.ok.inj h
      rw [← List.cons_append, Moment.last_append]
      rfl
  | format solution =>
    rw [momentsAt, operate, format]
    cases hcount : p.tally.countSolution with
    | error fault => exact ⟨trivial, fun left h => by cases h⟩
    | ok counted =>
      refine ⟨⟨Tally.follows_of_countSolution hcount, trivial⟩, fun left h => ?_⟩
      obtain rfl := Except.ok.inj h
      rfl

/-- The tally through any operations. -/
theorem account_momentsOf (p : Problem) (operations : List Operation) :
    Moment.Account p.tally (p.momentsOf operations) ∧ ∀ left,
      operations.foldlM operate p = .ok left →
        Moment.last p.tally (p.momentsOf operations) = left.tally := by
  induction operations generalizing p with
  | nil =>
    refine ⟨trivial, fun left h => ?_⟩
    obtain rfl := Except.ok.inj h
    rfl
  | cons operation operations ih =>
    obtain ⟨haccount, hlast⟩ := account_momentsAt p operation
    rw [momentsOf, Moment.account_append, Moment.last_append, List.foldlM_cons]
    cases hoperate : p.operate operation with
    | error fault => exact ⟨⟨haccount, trivial⟩, fun left h => by cases h⟩
    | ok next =>
      obtain ⟨hrest, hlater⟩ := ih next
      rw [hlast next hoperate]
      exact ⟨⟨haccount, hrest⟩, hlater⟩

section

variable (wf : t.WellFormed) (hb : t.Coverable base)
include wf hb

/-- An operation gives the mesh back, or fails because a counter is full. -/
theorem operate_keeps (hmesh : p.mesh = .covering t base) (operation : Operation) :
    match p.operate operation with
    | .ok left => left.mesh = .covering t base
    | .error fault => fault = .tallyOverflow := by
  cases operation with
  | search bookmark calls =>
    obtain ⟨ms, stands⟩ : ∃ ms, Run.At t base (p.begin bookmark) ms := by
      cases bookmark with
      | none => exact ⟨_, Run.at_solve hmesh⟩
      | some bookmark => exact ⟨_, Run.at_resume bookmark hmesh⟩
    have hkeeps := Run.perform_keeps wf hb calls stands
    rw [operate]
    cases hperform : (p.begin bookmark).perform calls with
    | error failed =>
      rw [hperform] at hkeeps
      exact hkeeps.1
    | ok given =>
      rw [hperform] at hkeeps
      obtain ⟨⟨ms', stands'⟩, -⟩ := hkeeps
      exact stands'.close_mesh wf hb
  | format solution =>
    rw [operate, format]
    cases hcount : p.tally.countSolution with
    | error fault => exact Tally.fault_countSolution hcount
    | ok counted => exact hmesh

/-- So do any operations. -/
theorem foldlM_operate_keeps (hmesh : p.mesh = .covering t base) (operations : List Operation) :
    match operations.foldlM operate p with
    | .ok left => left.mesh = .covering t base
    | .error fault => fault = .tallyOverflow := by
  induction operations generalizing p with
  | nil => exact hmesh
  | cons operation operations ih =>
    have hfirst := operate_keeps wf hb hmesh operation
    rw [List.foldlM_cons]
    cases hoperate : p.operate operation with
    | error fault =>
      rw [hoperate] at hfirst
      exact hfirst
    | ok next =>
      rw [hoperate] at hfirst
      exact ih hfirst

end

/-- Whatever a problem goes through, its tally changes only as `Moment.Follows` says, never down,
and afterwards, if no counter was full, its mesh is the one from before, and a search from the start
gives, up to any number of solutions, those that it gives on a new problem. Up to there it counts as
many searches as on a new problem; it fails only because the counter cannot hold them on top of what
has been counted before. -/
theorem history_leaves_no_trace (built : t.Built) (nodup : base.Nodup)
    (inRange : ∀ c ∈ base, c < t.columnCount) :
    ∃ m, base.foldlM Mesh.cover (.ofTable t) = .ok m ∧
      ∀ (tally : Tally) (operations : List Operation),
        let moments := momentsOf ⟨m, tally⟩ operations
        Moment.Account tally moments ∧
          ((tally :: moments.map (·.tally)).Pairwise fun earlier later =>
            earlier.solutions ≤ later.solutions ∧ earlier.searches ≤ later.searches) ∧
          match operations.foldlM operate ⟨m, tally⟩ with
          | .error fault => fault = .tallyOverflow
          | .ok left =>
            left.mesh = m ∧ left.tally = Moment.last tally moments ∧ ∀ limit,
              match (ofMesh m).solve.take limit with
              | .ok (solutions, new) =>
                let searches := left.tally.searches.toNat + new.tally.searches.toNat
                if searches < UInt64.size then
                  ∃ r, left.solve.take limit = .ok (solutions, r) ∧
                    r.tally.solutions = left.tally.solutions ∧
                    r.tally.searches.toNat = searches
                else left.solve.take limit = .error .tallyOverflow
              | .error fault =>
                fault = .tallyOverflow ∧ left.solve.take limit = .error .tallyOverflow := by
  have wf := built.wellFormed
  have hb : t.Coverable base := ⟨nodup, inRange⟩
  refine ⟨.covering t base, Mesh.foldlM_cover_ofTable wf hb, fun tally operations => ?_⟩
  intro moments
  obtain ⟨haccount, hlast⟩ := account_momentsOf ⟨.covering t base, tally⟩ operations
  have hkeeps := foldlM_operate_keeps wf hb (p := ⟨.covering t base, tally⟩) rfl operations
  refine ⟨haccount, haccount.pairwise, ?_⟩
  cases hhistory : operations.foldlM operate ⟨.covering t base, tally⟩ with
  | error fault =>
    rw [hhistory] at hkeeps
    exact hkeeps
  | ok left =>
    rw [hhistory] at hkeeps
    refine ⟨hkeeps, (hlast left hhistory).symm, fun limit => ?_⟩
    -- The mesh being the same, both searches have the same moves before them.
    have hsame : left.solve.startNotice = (ofMesh (.covering t base)).solve.startNotice := by
      rw [Run.startNotice, solve, Run.start, hkeeps]
      rfl
    have hleft := Run.at_solve (p := left) hkeeps
    rw [hsame] at hleft
    have hahead := Run.take_ahead wf hb limit hleft
      (Run.at_solve (p := ofMesh (.covering t base)) rfl) (Nat.add_zero _).symm
    cases htake : (ofMesh (.covering t base)).solve.take limit with
    | error fault =>
      rw [htake] at hahead
      exact hahead
    | ok given =>
      rw [htake] at hahead
      simp only
      rcases hahead.2 with ⟨hlt, r, hr, hsolutions, hsearches⟩ | ⟨hfull, hr⟩
      · exact if_pos hlt ▸ ⟨r, hr, hsolutions, hsearches⟩
      · exact if_neg (Nat.not_lt.2 hfull) ▸ hr

/-- The case of `abc` with its secondary column covered: a search from a row on that is given up
after its first solution, a text, and a search from the start. -/
theorem history_leaves_no_trace_abc :
    let p : Problem := ⟨.covering Table.abc [2], .zero⟩
    let operations := [.search (some ⟨[["a"]], some ⟨0, 1⟩, false⟩) [.next],
      .format [["a"], ["b"]], .search none [.next, .next]]
    operations.foldlM operate p = .ok { p with tally := ⟨1, 4⟩ } ∧
      Moment.last .zero (momentsOf p operations) = ⟨1, 4⟩ := by
  obtain ⟨m, hm, h⟩ := history_leaves_no_trace Table.built_abc (by decide : [2].Nodup) (by decide)
  obtain rfl : m = .covering Table.abc [2] := Except.ok.inj (hm.symm.trans
    (Mesh.foldlM_cover_ofTable Table.built_abc.wellFormed ⟨by decide, by decide⟩))
  have hlast : ∀ operations left,
      operations.foldlM operate ⟨.covering Table.abc [2], .zero⟩ = .ok left →
      left.tally = Moment.last .zero (momentsOf ⟨.covering Table.abc [2], .zero⟩ operations) := by
    intro operations left hhistory
    obtain ⟨-, -, hleft⟩ := h .zero operations
    rw [hhistory] at hleft
    exact hleft.2.1
  intro p operations
  have hhistory : operations.foldlM operate p = .ok { p with tally := ⟨1, 4⟩ } := by
    decide +kernel
  exact ⟨hhistory, (hlast _ _ hhistory).symm⟩

end Problem

end Covering
