import Covering.Proofs.FirstSolution
import Covering.Proofs.Sudoku.Printing

/-!
# The Sudoku command, run again and again

A command that prints the first solution and keeps a checkpoint file can be repeated: it prints the
same each time, and leaves the file as it is. A command that is to print all solutions can follow:
it goes on from that solution, so that it prints what it would without the file, and removes the
file in the end. Main statement: `Sudoku.repeat_then_complete`.
-/

namespace Covering
set_option autoImplicit false

namespace Table

variable {t : Table} {base node : List Nat} {before later : List (List Nat)}

theorem covering_nil : Mesh.covering t [] = .ofTable t := rfl

/-- From where a search for one solution stops, the lines for all solutions are those of a search
from the start: none is printed before. -/
theorem StopsAt.lines_eq (wf : t.WellFormed)
    (distinct : ∀ row < t.rowCount, ∀ row' < t.rowCount, t.ones row ≠ [] →
      (t.ones row).toFinset = (t.ones row').toFinset → row = row')
    (hstop : t.StopsAt base before node later) :
    Moves.lines (t.position base before node).tally (t.moves base false (t.labelsOfPath node)) =
      Moves.lines .zero (t.moves base false []) := by
  have hcounted := hstop.counted
  rw [List.countP_append] at hcounted
  obtain ⟨ms, hms, hsolutions, hsearches, -⟩ :=
    moves_split 0 (preorder_eq.symm.trans hstop.tree)
  rw [hstop.none, List.map_nil] at hsolutions
  have hmoves : t.moves base false [] = ms ++ (t.arrival base false [] node ++ _) := hms
  have hzero : Tally.zero.searches.toNat = 0 := rfl
  rw [hmoves, Moves.lines_append hsolutions (by omega), hsearches,
    moves_labelsOfPath wf distinct hstop.tree]
  exact Moves.lines_append_congr fun tally => Moves.lines_visits ..

end Table

namespace Sudoku

open CheckpointFile (Holds)

variable {grid : String} {all : Bool} {path : Path} {interval interval' : UInt64}
  {source target : Location} {w w' : World} {arguments arguments' : List String} {c : Checkpoint}
  {node start : List Nat} {before between later after : List (List Nat)}

/-! ## Processes -/

/-- The command as a process of its own, with nothing printed yet: how it ends, and what it
prints. -/
def process (arguments : List String) (w : World) : (Exit × List String) × World :=
  let ended := (command arguments).run { w with printed := [] }
  ((ended.1, ended.2.lines), ended.2)

theorem process_eq {exit : Exit}
    (h : (command arguments).run { w with printed := [] } = (exit, w')) :
    process arguments w = ((exit, w'.lines), w') := by
  rw [process, h]

/-- Processes one after the other. -/
def processes : List (List String) → World → List (Exit × List String) × World
  | [], w => ([], w)
  | arguments :: rest, w =>
    let ended := process arguments w
    let later := processes rest ended.2
    (ended.1 :: later.1, later.2)

/-! ## One process -/

theorem problem?_eq (h : grid.toList.length = 81) :
    problem? grid = some (.ofMesh (.covering (tableOf grid.toList) [])) := by
  simp only [problem?, h, if_true, ofIndices_placements h]
  rfl

theorem eq_tableOf {t : Table} (h : grid.toList.length = 81)
    (hproblem : problem? grid = some (.ofMesh (.ofTable t))) : t = tableOf grid.toList := by
  have hmesh : Mesh.ofTable t = .covering (tableOf grid.toList) [] :=
    congrArg Problem.mesh (Option.some.inj (hproblem.symm.trans (problem?_eq h)))
  rw [← Mesh.table_ofTable t, hmesh, Table.covering_nil, Mesh.table_ofTable]

/-- With a checkpoint file that can be read, the command solves from there. -/
theorem run_command_file (h : grid.toList.length = 81)
    (hrequest : request arguments = .ok ⟨grid, all, some path, interval⟩)
    (hholds : Holds w.files path c) :
    (command arguments).run w =
      (solve all (.ofMesh (.covering (tableOf grid.toList) []))
        (some ⟨path, interval.toNat, w.clock w.readings, c⟩)).run
          { w with readings := w.readings + 1 } := by
  obtain ⟨notices, hload⟩ := CheckpointFile.run_load hholds
  simp only [command, hrequest, carryOut, problem?_eq h]
  rw [Script.run_bind_do, hload]

theorem run_command (h : grid.toList.length = 81)
    (hrequest : request arguments = .ok ⟨grid, all, none, interval⟩) :
    (command arguments).run w =
      (solve all (.ofMesh (.covering (tableOf grid.toList) [])) none).run w := by
  simp only [command, hrequest, carryOut, problem?_eq h]

section

variable (h : grid.toList.length = 81)
include h

/-- A command that prints the first solution stops where the search stops, whatever position before
is on disk, and leaves the position there. -/
theorem process_first
    (hstop : (tableOf grid.toList).StopsAt [] (before ++ between) node later)
    (hrest : start :: after = between ++ node :: later)
    (hrequest : request arguments = .ok ⟨grid, false, some path, interval⟩)
    (hreplaceable : w.files.Replaceable path source target)
    (hholds : Holds w.files path ((tableOf grid.toList).position [] before start)) :
    (process arguments w).1 =
        (.success, (((tableOf grid.toList).solutionAt? [] node).map render).toList) ∧
      (process arguments w).2.files.Replaced path source target
        ((tableOf grid.toList).position [] (before ++ between) node).toJson.pretty := by
  have wf := (built_tableOf h).wellFormed
  obtain ⟨⟨left, hnext, htally⟩, hfollow⟩ :=
    Table.next_from_position wf ⟨List.nodup_nil, by simp⟩ (distinct_tableOf h) hstop hrest
  obtain ⟨w', hrun, hprinted, hreplaced⟩ := run_solve_first
    (f := ⟨path, interval.toNat, w.clock w.readings, (tableOf grid.toList).position [] before start⟩)
    (w := { w with readings := w.readings + 1, printed := [] }) hnext htally hreplaceable
  rw [hfollow] at hreplaced
  have hcommand := run_command_file (w := { w with printed := [] }) h hrequest hholds
  have hlines : w'.lines = (((tableOf grid.toList).solutionAt? [] node).map render).toList := by
    rw [World.lines, hprinted]
    cases (tableOf grid.toList).solutionAt? [] node <;> rfl
  rw [process_eq (hcommand.trans hrun), hlines]
  exact ⟨rfl, hreplaced⟩

/-- Commands that print the first solution, when its position is on disk: they all print it, and
leave the file as it is. -/
theorem processes_first (hstop : (tableOf grid.toList).StopsAt [] before node later)
    (runs : List (List String))
    (hruns : ∀ arguments ∈ runs, ∃ interval,
      request arguments = .ok ⟨grid, false, some path, interval⟩)
    (hfile : w.files.Replaced path source target
      ((tableOf grid.toList).position [] before node).toJson.pretty) :
    (processes runs w).1 = List.replicate runs.length
        (.success, (((tableOf grid.toList).solutionAt? [] node).map render).toList) ∧
      (processes runs w).2.files.Replaced path source target
        ((tableOf grid.toList).position [] before node).toJson.pretty := by
  induction runs generalizing w with
  | nil => exact ⟨rfl, hfile⟩
  | cons arguments runs ih =>
    obtain ⟨⟨interval, hrequest⟩, hruns⟩ := List.forall_mem_cons.1 hruns
    have hstop' : (tableOf grid.toList).StopsAt [] (before ++ []) node later := by
      rwa [List.append_nil]
    obtain ⟨hgiven, hleft⟩ := process_first h hstop' rfl hrequest hfile.replaceable
      (.inl hfile.read)
    rw [List.append_nil] at hleft
    obtain ⟨hlater, hlast⟩ := ih hruns hleft
    rw [processes, hgiven, hlater]
    exact ⟨rfl, hlast⟩

/-- A command that prints all solutions, when the position of the first is on disk: it prints them
as it would without the file, and removes the file unless it fails. -/
theorem process_all (w' : World)
    (hstop : (tableOf grid.toList).StopsAt [] before node later)
    (hrequest : request arguments = .ok ⟨grid, true, some path, interval⟩)
    (hrequest' : request arguments' = .ok ⟨grid, true, none, interval'⟩)
    (hfile : w.files.Replaced path source target
      ((tableOf grid.toList).position [] before node).toJson.pretty) :
    let lines := Moves.lines .zero ((tableOf grid.toList).moves [] false [])
    (process arguments w).1 = (exitOf lines.2, lines.1) ∧
      (process arguments' w').1 = (exitOf lines.2, lines.1) ∧
      (lines.2 = .ok () → (process arguments w).2.files.lookup target = none ∧
        (process arguments w).2.files.lookup source = none) := by
  have wf := (built_tableOf h).wellFormed
  have hb : (tableOf grid.toList).Coverable [] := ⟨List.nodup_nil, by simp⟩
  let c := (tableOf grid.toList).position [] before node
  let p : Problem := .ofMesh (.covering (tableOf grid.toList) [])
  intro lines
  obtain ⟨final, hrun, hprinted, hgone⟩ := run_solve_all_file
    (f := ⟨path, interval.toNat, w.clock w.readings, c⟩) (p := p)
    (w := { w with readings := w.readings + 1, printed := [] }) wf hb (Run.at_resume _ rfl) hfile
  have htally : (p.resume c.bookmark).tally = c.tally := Tally.raiseTo_zero
  have hlines : Moves.lines (p.resume c.bookmark).tally (.notice (p.resume c.bookmark).startNotice ::
      (tableOf grid.toList).moves [] c.bookmark.reported c.bookmark.path) = lines := by
    rw [htally, Moves.lines_notice]
    exact hstop.lines_eq wf (distinct_tableOf h)
  rw [hlines] at hrun hprinted hgone
  obtain ⟨final', hrun', hprinted'⟩ := run_solve_all (p := p) (w := { w' with printed := [] }) wf hb
    (Run.at_solve rfl)
  have hlines' : Moves.lines p.solve.tally (.notice p.solve.startNotice ::
      Moves.told false ((tableOf grid.toList).moves [] false [])) = lines :=
    Moves.lines_notice.trans Moves.lines_told
  rw [hlines'] at hrun' hprinted'
  have hcommand := run_command_file (w := { w with printed := [] }) h hrequest (.inl hfile.read)
  have hcommand' := run_command (w := { w' with printed := [] }) h hrequest'
  have hgiven : final.lines = lines.1 := by simp [World.lines, hprinted]
  have hgiven' : final'.lines = lines.1 := by simp [World.lines, hprinted']
  rw [process_eq (hcommand.trans hrun), process_eq (hcommand'.trans hrun'), hgiven, hgiven']
  exact ⟨rfl, rfl, hgone⟩

/-- Commands that print the first solution, and no file to begin with. -/
theorem processes_fresh (hstop : (tableOf grid.toList).StopsAt [] before node later)
    {runs : List (List String)} (hne : runs ≠ [])
    (hruns : ∀ arguments ∈ runs, ∃ interval,
      request arguments = .ok ⟨grid, false, some path, interval⟩)
    (hreplaceable : w.files.Replaceable path source target)
    (hholds : Holds w.files path .fresh) :
    (processes runs w).1 = List.replicate runs.length
        (.success, (((tableOf grid.toList).solutionAt? [] node).map render).toList) ∧
      (processes runs w).2.files.Replaced path source target
        ((tableOf grid.toList).position [] before node).toJson.pretty := by
  obtain ⟨arguments, runs, rfl⟩ := List.exists_cons_of_ne_nil hne
  obtain ⟨⟨interval, hrequest⟩, hruns⟩ := List.forall_mem_cons.1 hruns
  have hstop' : (tableOf grid.toList).StopsAt [] ([] ++ before) node later := hstop
  obtain ⟨hgiven, hleft⟩ := process_first h hstop'
    (Table.preorder_eq.symm.trans hstop.tree) hrequest hreplaceable hholds
  obtain ⟨hlater, hlast⟩ := processes_first h hstop runs hruns hleft
  rw [processes, hgiven, hlater]
  exact ⟨rfl, hlast⟩

end

/-- Let a path end in a name, in a directory, with nothing there yet and no directory at its
temporary path. Commands that keep their checkpoint there and print the first solution of a grid, at
any intervals, all end with success, print the answer of the first call of a search, and leave the
same bytes in the file, however many they are. A command that then prints all solutions prints what
one without the file prints, and ends in the same way: with success, unless the searches or the
solutions are more than a counter can count, and then neither the file nor the temporary one is
left. -/
theorem repeat_then_complete (h : grid.toList.length = 81) (hname : path.endsInName)
    (hslash : path.endsInSlash = false) (htarget : w.files.locate path = .ok target)
    (absent : w.files.lookup target = none) (hsource : w.files.locate path.temporary = .ok source)
    (free : w.files.lookup source ≠ some .directory) :
    ∃ t, problem? grid = some (.ofMesh (.ofTable t)) ∧
      let searches := (t.preorder [] []).countP (!t.isSolution [] ·)
      match (Problem.ofMesh (.ofTable t)).solve.next.2 with
      | .error fault => fault = .tallyOverflow ∧ UInt64.size ≤ searches
      | .ok (first, _) =>
        ∃ bytes, ∀ runs : List (List String), runs ≠ [] →
          (∀ arguments ∈ runs, ∃ interval,
            request arguments = .ok ⟨grid, false, some path, interval⟩) →
          let repeated := processes runs w
          repeated.1 = List.replicate runs.length (.success, (first.map render).toList) ∧
            repeated.2.files.lookup target = some (.file bytes) ∧
            ∀ completing plain interval interval' w',
              request completing = .ok ⟨grid, true, some path, interval⟩ →
              request plain = .ok ⟨grid, true, none, interval'⟩ →
              let completed := process completing repeated.2
              completed.1 = (process plain w').1 ∧
                if searches < UInt64.size ∧ (t.leaves []).length < UInt64.size then
                  completed.1.1 = .success ∧ completed.2.files.lookup target = none ∧
                    completed.2.files.lookup source = none
                else completed.1.1 = .fault := by
  have wf := (built_tableOf h).wellFormed
  have hb : (tableOf grid.toList).Coverable [] := ⟨List.nodup_nil, by simp⟩
  have hreplaceable := FileTree.replaceable hname hslash htarget (by simp [absent]) hsource free
  have hholds : Holds w.files path .fresh := .inr ⟨FileTree.read_of_absent htarget absent, rfl⟩
  refine ⟨tableOf grid.toList, problem?_eq h, ?_⟩
  rw [← Table.covering_nil]
  intro searches
  rcases Table.stops_or_overflows wf hb with ⟨before, node, later, hstop⟩ | ⟨hfails, hfull⟩
  · obtain ⟨left, hnext⟩ := Table.next_solve wf hb hstop
    rw [hnext]
    refine ⟨((tableOf grid.toList).position [] before node).toJson.pretty.toUTF8, ?_⟩
    intro runs hne hruns repeated
    obtain ⟨hgiven, hleft⟩ := processes_fresh h hstop hne hruns hreplaceable hholds
    refine ⟨hgiven, hleft.held, ?_⟩
    intro completing plain interval interval' w' hrequest hrequest' completed
    obtain ⟨hall, hplain, hgone⟩ := process_all h w' hstop hrequest hrequest' hleft
    refine ⟨hall.trans hplain.symm, ?_⟩
    have hexit := congrArg Prod.fst hall
    rw [Moves.lines_moves_ending] at hexit hgone
    split
    · next hcount =>
      rw [if_pos hcount] at hexit hgone
      exact ⟨hexit, hgone rfl⟩
    · next hcount =>
      rw [if_neg hcount] at hexit
      exact hexit
  · rw [hfails]
    exact ⟨rfl, hfull⟩

/-- A grid with a blank in each row, column and box. -/
def puzzle : String :=
  ".34678912672.95348198342.678.97614234268.37917139248.696.53728428741.63534528617."

/-- Its blanks filled. -/
def puzzleFilled : String :=
  "534678912672195348198342567859761423426853791713924856961537284287419635345286179"

theorem fills_puzzle : Fills puzzle.toList puzzleFilled.toList := by
  -- Over the list: there are instances that would try every character.
  have hdigits : puzzleFilled.toList.all (· ∈ digits) := by decide +kernel
  constructor
  case onlyDigits => exact fun c hc => of_decide_eq_true (List.all_eq_true.1 hdigits c hc)
  all_goals decide +kernel

/-- The case of `puzzle`, two commands that print the first solution, which is the grid filled, and one
that prints all, in an empty directory. -/
theorem repeat_then_complete_puzzle :
    let path : Path := ⟨"search.json"⟩
    let w : World := .still .empty
    let once := ["--checkpoint", "search.json", puzzle]
    let again := [puzzle, "--checkpoint=search.json", "--interval", "0"]
    let completing := ["--all", puzzle, "--checkpoint", "search.json"]
    let plain := [puzzle, "--all"]
    let repeated := processes [once, again] w
    let completed := process completing repeated.2
    puzzle.toList.length = 81 ∧ path.endsInName ∧ path.endsInSlash = false ∧
      w.files.locate path = .ok ["search.json"] ∧ w.files.lookup ["search.json"] = none ∧
      w.files.locate path.temporary = .ok ["search.tmp"] ∧
      w.files.lookup ["search.tmp"] ≠ some .directory ∧
      repeated.1 = List.replicate 2 (.success, [puzzleFilled]) ∧
      repeated.2.files.lookup ["search.json"] =
        (processes [once] w).2.files.lookup ["search.json"] ∧
      completed.1 = (process plain w).1 ∧ completed.1.1 = .success ∧
      completed.2.files.lookup ["search.json"] = none ∧
      completed.2.files.lookup ["search.tmp"] = none := by
  intro path w once again completing plain
  have hlength : puzzle.toList.length = 81 := by decide
  have hname : path.endsInName := by decide
  have hslash : path.endsInSlash = false := by decide
  have htarget : w.files.locate path = .ok ["search.json"] := by decide
  have absent : w.files.lookup ["search.json"] = none := rfl
  have hsource : w.files.locate path.temporary = .ok ["search.tmp"] := by decide
  have free : w.files.lookup ["search.tmp"] ≠ some .directory := nofun
  obtain ⟨t, hproblem, hruns⟩ :=
    repeat_then_complete hlength hname hslash htarget absent hsource free
  refine ⟨hlength, hname, hslash, htarget, absent, hsource, free, ?_⟩
  have honce : request once = .ok ⟨puzzle, false, some path, 60⟩ := by decide +kernel
  have hagain : request again = .ok ⟨puzzle, false, some path, 0⟩ := by decide +kernel
  have hcompleting : request completing = .ok ⟨puzzle, true, some path, 60⟩ := by decide +kernel
  have hplain : request plain = .ok ⟨puzzle, true, none, 60⟩ := by decide +kernel
  have few : (placements puzzle.toList).length = 81 := by decide +kernel
  obtain ⟨solution, left, hnext, hrender⟩ := next_of_fills hlength few fills_puzzle
  rw [eq_tableOf hlength hproblem, ← Table.covering_nil, hnext] at hruns
  obtain ⟨bytes, hruns⟩ := hruns
  obtain ⟨-, hfile, -⟩ := hruns [once] (by simp) (by simp [honce])
  obtain ⟨hgiven, hfile', hcomplete⟩ := hruns [once, again] (by simp) (by simp [honce, hagain])
  obtain ⟨hprinted, hends⟩ := hcomplete completing plain 60 60 w hcompleting hplain
  rw [if_pos (counts_of_fills hlength few fills_puzzle)] at hends
  rw [Option.map_some, hrender] at hgiven
  exact ⟨hgiven, hfile'.trans hfile.symm, hprinted, hends⟩

end Sudoku

end Covering
