import Covering.Proofs.Checkpoint.Keeping
import Covering.Sudoku.CommandLine
import Covering.Proofs.Sudoku.Solving

/-!
# What the Sudoku command prints

The lines that the command prints for all solutions can be told by the moves of its search:
`Moves.lines`. They are the same with a checkpoint file and without, `run_solve_all`, since watching
a run does not change it. A search for one solution prints that, and its file keeps the position at
which it stopped: `run_solve_first`.
-/

namespace Covering
set_option autoImplicit false

open Sudoku (render)

namespace Moves

variable {tally : Tally} {earlier ms ms' : List Move}

/-- The lines printed for all solutions among the moves, up to a fault if there is one. Each
solution is counted. -/
def lines : Tally → List Move → List String × Except Fault Unit
  | _, [] => ([], .ok ())
  | tally, .notice _ :: ms => lines tally ms
  | tally, .report _ :: ms => lines tally ms
  | tally, .search :: ms =>
    match tally.countSearch with
    | .error fault => ([], .error fault)
    | .ok tally => lines tally ms
  | tally, .found solution :: ms =>
    match tally.countSolution with
    | .error fault => ([], .error fault)
    | .ok tally => emit [render solution] (lines tally ms)

theorem lines_notice {notice : Run.Notice} : lines tally (.notice notice :: ms) = lines tally ms := rfl

/-- A search that is not watched prints the same. -/
theorem lines_told {watched : Bool} : lines tally (told watched ms) = lines tally ms := by
  cases watched with
  | true => rfl
  | false =>
    induction ms generalizing tally with
    | nil => rfl
    | cons m ms ih =>
      cases m with
      | notice notice => exact ih
      | report path => exact ih
      | search =>
        rw [told_search, lines, lines]
        cases tally.countSearch with
        | error fault => rfl
        | ok tally => exact ih
      | found solution =>
        rw [told_found, lines, lines]
        cases tally.countSolution with
        | error fault => rfl
        | ok tally => exact congrArg (emit _) ih

/-- The lines, solution by solution. -/
theorem lines_eq_next : lines tally ms =
    match (next tally ms).2 with
    | .error fault => ([], .error fault)
    | .ok (none, _, _) => ([], .ok ())
    | .ok (some solution, tally, ms) =>
      match tally.countSolution with
      | .error fault => ([], .error fault)
      | .ok tally => emit [render solution] (lines tally ms) := by
  induction ms generalizing tally with
  | nil => rfl
  | cons m ms ih =>
    cases m with
    | notice notice => exact ih
    | report path => exact ih
    | found solution => rfl
    | search =>
      rw [lines, next]
      cases tally.countSearch with
      | error fault => rfl
      | ok tally => exact ih

/-- Up to the next solution nothing is printed. -/
theorem lines_append (hnone : solutions earlier = [])
    (hcount : tally.searches.toNat + searches earlier < UInt64.size) :
    lines tally (earlier ++ ms) = lines (tally.count (searches earlier)) ms := by
  rw [lines_eq_next, next_append hnone hcount]
  exact lines_eq_next.symm

/-- All is printed, unless a counter is full before. -/
theorem lines_ending : (lines tally ms).2 =
    if tally.searches.toNat + searches ms < UInt64.size ∧
      tally.solutions.toNat + (solutions ms).length < UInt64.size then .ok ()
    else .error .tallyOverflow := by
  induction ms generalizing tally with
  | nil => exact (if_pos ⟨tally.searches.toNat_lt_size, tally.solutions.toNat_lt_size⟩).symm
  | cons m ms ih =>
    cases m with
    | notice notice => exact ih
    | report path => exact ih
    | search =>
      have hsearches : searches (.search :: ms) = searches ms + 1 := by simp [searches]
      have hsolutions : solutions (.search :: ms) = solutions ms := rfl
      rw [lines, hsearches, hsolutions]
      by_cases hlt : tally.searches.toNat + 1 < UInt64.size
      · obtain ⟨counted, hcount, hkept, hcounted⟩ := Tally.countSearch_eq_ok hlt
        rw [hcount]
        simp only [ih, hkept, hcounted, Nat.add_assoc, Nat.add_comm 1]
      · rw [Tally.countSearch_eq_error (Nat.le_of_not_lt hlt), if_neg (by omega)]
    | found solution =>
      have hsearches : searches (.found solution :: ms) = searches ms := by simp [searches]
      have hsolutions : solutions (.found solution :: ms) = solution :: solutions ms := rfl
      rw [lines, hsearches, hsolutions, List.length_cons]
      by_cases hlt : tally.solutions.toNat + 1 < UInt64.size
      · obtain ⟨counted, hcount, hcounted, hkept⟩ := Tally.countSolution_eq_ok hlt
        rw [hcount]
        simp only [emit, ih, hkept, hcounted, Nat.add_assoc, Nat.add_comm 1]
      · rw [Tally.countSolution_eq_error (Nat.le_of_not_lt hlt), if_neg (by omega)]

/-- A search from the start searches at the nodes that branch. -/
theorem lines_moves_ending {t : Table} {base : List Nat} :
    (lines .zero (t.moves base false [])).2 =
      if (t.preorder base []).countP (!t.isSolution base ·) < UInt64.size ∧
        (t.leaves base).length < UInt64.size then .ok () else .error .tallyOverflow := by
  have hsearches : Tally.zero.searches.toNat = 0 := rfl
  have hsolutions : Tally.zero.solutions.toNat = 0 := rfl
  rw [lines_ending, searches_moves_nil, solutions_moves_nil, List.length_map, hsearches, hsolutions,
    Nat.zero_add, Nat.zero_add]
  rfl

/-- Only what comes later matters to what is printed later. -/
theorem lines_append_congr (h : ∀ tally, lines tally ms = lines tally ms') :
    lines tally (earlier ++ ms) = lines tally (earlier ++ ms') := by
  induction earlier generalizing tally with
  | nil => exact h tally
  | cons m earlier ih =>
    cases m with
    | notice notice => exact ih
    | report path => exact ih
    | search =>
      rw [List.cons_append, List.cons_append, lines, lines]
      cases tally.countSearch with
      | error fault => rfl
      | ok tally => exact ih
    | found solution =>
      rw [List.cons_append, List.cons_append, lines, lines]
      cases tally.countSolution with
      | error fault => rfl
      | ok tally => exact congrArg (emit _) ih

/-- The length of the saved path shows in notices only. -/
theorem lines_visits {t : Table} {base : List Nat} (depth depth' : Nat) (nodes : List (List Nat)) :
    lines tally (nodes.flatMap (t.visit base depth)) =
      lines tally (nodes.flatMap (t.visit base depth')) := by
  induction nodes generalizing tally with
  | nil => rfl
  | cons node nodes ih =>
    have hvisit : ∀ depth ms, lines tally (t.visit base depth node ++ ms) =
        lines tally (t.arrival base false [] node ++ ms) := by
      intro depth ms
      rw [Table.visit]
      split <;> rfl
    rw [List.flatMap_cons, List.flatMap_cons, hvisit, hvisit]
    exact lines_append_congr fun tally => ih

end Moves

namespace Sudoku

variable {t : Table} {base : List Nat} {r : Run} {ms : List Move} {bound : Nat}
  {file : Option CheckpointFile} {f : CheckpointFile} {w : World} {p : Problem}
  {path : Path} {source target : Location}

/-! ## All solutions -/

/-- What holds of a file and a world, the lines being printed so far, whatever calls are made and
lines printed. -/
structure Watching (P : List String → Option CheckpointFile → World → Prop) : Prop where
  next : ∀ printed r file w, P printed file w →
    ((nextSolution r file).run w).1.1 = r.next.2 ∧
      P printed ((nextSolution r file).run w).1.2 ((nextSolution r file).run w).2
  print : ∀ printed line file w, P printed file w →
    P (line :: printed) file { w with printed := line :: w.printed }

theorem watching_none : Watching fun printed file w => file = none ∧ w.printed = printed where
  next _ _ _ _ h := by
    obtain ⟨rfl, h⟩ := h
    exact ⟨rfl, rfl, h⟩
  print _ _ _ _ h := ⟨h.1, congrArg _ h.2⟩

theorem watching_some {Good : FileTree → Prop}
    (hgood : ∀ files, Good files → files.Replaceable path source target)
    (hreplaced : ∀ files text, files.Replaced path source target text → Good files) :
    Watching fun printed file w => ∃ f, file = some f ∧ f.Settled Good path printed w where
  next printed r file w h := by
    obtain ⟨f, rfl, hsettled⟩ := h
    have hleft : ((f.next r).run w).1.2.1.Settled Good path printed ((f.next r).run w).2 :=
      CheckpointFile.run_seek_keeps (CheckpointFile.run_store_settled hgood hreplaced) hsettled
    obtain ⟨hresult, -⟩ := f.run_next r w
    rw [nextSolution, Script.run_bind_do]
    generalize (f.next r).run w = given at hresult hleft ⊢
    obtain ⟨⟨result, f', log⟩, w'⟩ := given
    exact ⟨hresult, f', rfl, hleft⟩
  print _ _ _ _ h := by
    obtain ⟨f, rfl, hsettled⟩ := h
    exact ⟨f, rfl, hsettled.path_eq, hsettled.good, congrArg _ hsettled.printed_eq⟩

/-- The lines for all solutions are those of the moves. -/
theorem run_printSolutions {P : List String → Option CheckpointFile → World → Prop}
    {printed : List String} (wf : t.WellFormed) (hb : t.Coverable base) (hP : Watching P)
    (h : Run.At t base r ms) (hlt : r.budget t < bound) (hfile : P printed file w) :
    ∃ file' w', (printSolutions true bound r file).run w =
        ((Moves.lines r.tally ms).2.map (fun _ => file'), w') ∧
      P ((Moves.lines r.tally ms).1.reverse ++ printed) file' w' := by
  induction bound generalizing r ms file w printed with
  | zero => omega
  | succ bound ih =>
    obtain ⟨hnext, hleft⟩ := hP.next printed r file w hfile
    have hanswers := Run.next_answers wf hb h
    rw [Moves.lines_eq_next, printSolutions, Script.run_bind_do]
    generalize (nextSolution r file).run w = given at hnext hleft ⊢
    obtain ⟨⟨result, file'⟩, w'⟩ := given
    simp only at hnext hleft ⊢
    rw [← hnext] at hanswers
    generalize r.next.1.toList = events at hanswers
    generalize Moves.next r.tally ms = a at hanswers ⊢
    cases hanswers with
    | failed => exact ⟨file', w', rfl, hleft⟩
    | ended => exact ⟨file', w', rfl, hleft⟩
    | @found _ solution left ms' stands lower =>
      simp only
      -- A solution that can be counted is printed, and to count it takes nothing from the steps.
      cases hcount : left.tally.countSolution with
      | error fault =>
        simp only [Run.format, hcount]
        exact ⟨file', w', rfl, hleft⟩
      | ok counted =>
        have hsearches : counted.searches = left.tally.searches :=
          Tally.searches_countSolution hcount
        have hbudget : Run.budget t { left with tally := counted } = left.budget t := by
          simp only [Run.budget, Run.allowance, hsearches]
        have hrest := ih (stands.retally counted) (by rw [hbudget]; omega)
          (hP.print printed (render solution) file' w' hleft)
        simp only [Run.format, hcount, bind, Except.bind, pure, Except.pure, if_true, Script.run,
          Moves.emit, List.singleton_append, List.reverse_cons, List.append_assoc]
        exact hrest

/-! ## The whole command -/

/-- What the command does after it has printed. -/
def ending (all : Bool) : Except Fault (Option CheckpointFile) → Script Exit
  | .error _ => pure .fault
  | .ok none => pure .success
  | .ok (some file) => do
    closeFile all file
    pure .success

/-- The run that prints: from the position in the file, if there is one. -/
def runFrom (p : Problem) : Option CheckpointFile → Run
  | some file => p.resume file.checkpoint.bookmark
  | none => p.solve

theorem solve_eq (all : Bool) (p : Problem) (file : Option CheckpointFile) :
    solve all p file =
      printSolutions all (runFrom p file).stepBound (runFrom p file) file >>= ending all := rfl

/-- How the command ends when its run has ended. -/
def exitOf : Except Fault Unit → Exit
  | .ok () => .success
  | .error _ => .fault

/-- All solutions, without a checkpoint file. -/
theorem run_solve_all (wf : t.WellFormed) (hb : t.Coverable base) (h : Run.At t base p.solve ms) :
    ∃ w', (solve true p none).run w = (exitOf (Moves.lines p.solve.tally ms).2, w') ∧
      w'.printed = (Moves.lines p.solve.tally ms).1.reverse ++ w.printed := by
  obtain ⟨file', w', hrun, rfl, hprinted⟩ := run_printSolutions wf hb watching_none h
    (Run.budget_lt_stepBound wf hb h) (w := w) ⟨rfl, rfl⟩
  refine ⟨w', ?_, hprinted⟩
  rw [solve_eq, Script.run_bind_do, runFrom, hrun]
  cases (Moves.lines p.solve.tally ms).2 with
  | error fault => rfl
  | ok _ => rfl

/-- All solutions from the position in a file on. -/
theorem run_solve_all_file (wf : t.WellFormed) (hb : t.Coverable base)
    (h : Run.At t base (p.resume f.checkpoint.bookmark) ms) {text : String}
    (hfile : w.files.Replaced f.path source target text) :
    let lines := Moves.lines (p.resume f.checkpoint.bookmark).tally ms
    ∃ w', (solve true p (some f)).run w = (exitOf lines.2, w') ∧
      w'.printed = lines.1.reverse ++ w.printed ∧
      (lines.2 = .ok () → w'.files.lookup target = none ∧ w'.files.lookup source = none) := by
  have hwatching : Watching fun printed file w => ∃ f', file = some f' ∧
      f'.Settled (fun files => ∃ text, files.Replaced f.path source target text) f.path printed w :=
    watching_some (fun files ⟨_, h⟩ => h.replaceable) (fun files text h => ⟨text, h⟩)
  obtain ⟨file', w', hrun, f', rfl, hpath, ⟨last, hlast⟩, hprinted⟩ := run_printSolutions wf hb
    hwatching h (Run.budget_lt_stepBound wf hb h) (w := w) ⟨f, rfl, rfl, ⟨text, hfile⟩, rfl⟩
  rw [← hpath] at hlast
  obtain ⟨files, hfinish, hgone⟩ := CheckpointFile.run_finish hlast
  rw [solve_eq, Script.run_bind_do, runFrom, hrun]
  generalize Moves.lines (p.resume f.checkpoint.bookmark).tally ms = given at hprinted ⊢
  obtain ⟨lines, result⟩ := given
  cases result with
  | error fault => exact ⟨w', rfl, hprinted, nofun⟩
  | ok _ =>
    have hclose : (ending true (.ok (some f'))).run w' = (.success, { w' with files }) := by
      simp only [ending, closeFile, Script.run_bind_do, if_true, hfinish]
      rfl
    exact ⟨_, hclose, hprinted, fun _ => hgone⟩

/-- The first solution, if there is one, is printed, and the file has the position that the run
reported last. -/
theorem run_printSolutions_first {first : Option Solution} {left : Run} (hbound : 0 < bound)
    (hnext : r.next.2 = .ok (first, left)) (htally : left.tally.solutions = 0)
    (hfile : w.files.Replaceable f.path source target) :
    ∃ f' w', (printSolutions false bound r (some f)).run w = (.ok (some f'), w') ∧
      f'.Settled (·.Replaceable f.path source target) f.path
        ((first.map render).toList ++ w.printed) w' ∧
      f'.checkpoint = f.checkpoint.follow r.next.1.toList := by
  obtain ⟨bound, rfl⟩ := Nat.exists_eq_succ_of_ne_zero (Nat.ne_of_gt hbound)
  obtain ⟨hresult, hcheckpoint⟩ := f.run_next r w
  have hleft : ((f.next r).run w).1.2.1.Settled (·.Replaceable f.path source target) f.path
      w.printed ((f.next r).run w).2 :=
    CheckpointFile.run_seek_keeps
      (CheckpointFile.run_store_settled (fun _ h => h) (fun _ _ h => h.replaceable))
      ⟨rfl, hfile, rfl⟩
  rw [hnext] at hresult
  rw [printSolutions, Script.run_bind_do, nextSolution, Script.run_bind_do]
  generalize (f.next r).run w = given at hresult hcheckpoint hleft ⊢
  obtain ⟨⟨result, f', log⟩, w'⟩ := given
  obtain rfl : result = .ok (first, left) := hresult
  cases first with
  | none => exact ⟨f', w', rfl, hleft, hcheckpoint⟩
  | some solution =>
    have hcount : left.tally.countSolution = .ok { left.tally with solutions := 1 } := by
      rw [Tally.countSolution, htally]
      rfl
    refine ⟨f', { w' with printed := render solution :: w'.printed }, ?_,
      ⟨hleft.path_eq, hleft.good, congrArg _ hleft.printed_eq⟩, hcheckpoint⟩
    simp only [Script.run_pure_do, Run.format, hcount, bind, Except.bind]
    rfl

/-- A search for one solution saves where it stopped. -/
theorem run_solve_first {first : Option Solution} {left : Run}
    (hnext : (p.resume f.checkpoint.bookmark).next.2 = .ok (first, left))
    (htally : left.tally.solutions = 0) (hfile : w.files.Replaceable f.path source target) :
    let c := f.checkpoint.follow (p.resume f.checkpoint.bookmark).next.1.toList
    ∃ w', (solve false p (some f)).run w = (.success, w') ∧
      w'.printed = (first.map render).toList ++ w.printed ∧
      w'.files.Replaced f.path source target c.toJson.pretty := by
  obtain ⟨f', w', hrun, ⟨hpath, hgood, hprinted⟩, hcheckpoint⟩ :=
    run_printSolutions_first (Run.stepBound_pos _) hnext htally hfile
  rw [← hpath] at hgood
  obtain ⟨time, notices, files, hsave, hreplaced⟩ := CheckpointFile.run_save hgood
  rw [hpath, hcheckpoint] at hreplaced
  have hclose : (ending false (.ok (some f'))).run w' =
      (.success, { w' with files, readings := w'.readings + 1 }) := by
    simp only [ending, closeFile, Script.run_bind_do, Bool.false_eq_true, if_false, hsave]
    rfl
  rw [solve_eq, Script.run_bind_do, runFrom, hrun]
  exact ⟨_, hclose, hprinted, hreplaced⟩

end Sudoku

end Covering
