import Covering.Checkpoint.File
import Covering.Proofs.Checkpoint.Format
import Covering.Proofs.Files.Replacing
import Covering.Proofs.Run.Taking

/-!
# A checkpoint file follows a run

Watching a run does not change it: a watched call gives what the call gives, and the file takes the
reports of the call, whatever becomes of its writes: `CheckpointFile.run_next`. If the file is
written at every report, and its path can be replaced, then it holds the checkpoint on disk, and
opening it anew finds the checkpoint: `CheckpointFile.run_take`, `CheckpointFile.run_load`. At any
other interval nothing but the file changes, either: `CheckpointFile.run_store_settled`.
-/

namespace Covering
set_option autoImplicit false

namespace Script

variable {α β : Type}

/-- A script in `do` notation goes on in the world that its first part leaves. -/
theorem run_bind_do (s : Script α) (f : α → Script β) (w : World) :
    (s >>= f).run w = (f (s.run w).1).run (s.run w).2 := run_bind s f w

theorem run_pure_do (value : α) (w : World) : (pure value : Script α).run w = (value, w) := rfl

end Script

namespace CheckpointFile

variable {f : CheckpointFile} {w : World} {r : Run} {events : List Event} {log : Array LogLine}
  {P : CheckpointFile → World → Prop}

/-- Takes solutions of a watched run, `limit` at most. -/
def take : Nat → Run → CheckpointFile → Script (Except Fault (List Solution × Run) × CheckpointFile)
  | 0, r, f => .done (.ok ([], r), f)
  | limit + 1, r, f => do
    let (result, f, _) ← f.next r
    match result with
    | .error fault => return (.error fault, f)
    | .ok (none, r) => return (.ok ([], r), f)
    | .ok (some solution, r) => do
      let (rest, f) ← take limit r f
      return (rest.map fun (solutions, r) => (solution :: solutions, r), f)

/-! ## One report -/

/-- What a save leaves as it is, whether it fails or not. -/
theorem run_save_frame (f : CheckpointFile) (w : World) :
    (f.save.run w).1.2.1.checkpoint = f.checkpoint ∧ (f.save.run w).1.2.1.path = f.path ∧
      (f.save.run w).1.2.1.interval = f.interval := by
  rw [save, Script.run_bind_do]
  generalize (replace f.path f.checkpoint.toJson.pretty).run w = given
  obtain ⟨answer, w⟩ := given
  cases answer with
  | ok _ => exact ⟨rfl, rfl, rfl⟩
  | error e =>
    simp only [Script.run_bind_do]
    exact ⟨rfl, rfl, rfl⟩

/-- A report is taken, whatever becomes of the write. -/
theorem run_store_frame (f : CheckpointFile) (report : Report) (w : World) :
    ((f.store report).run w).1.1.checkpoint = .ofReport report ∧
      ((f.store report).run w).1.1.path = f.path ∧
      ((f.store report).run w).1.1.interval = f.interval := by
  rw [store, Script.run]
  split
  · have hsave := run_save_frame { f with checkpoint := .ofReport report }
      { w with readings := w.readings + 1 }
    rw [Script.run_bind_do]
    generalize (save _).run _ = given at hsave ⊢
    obtain ⟨⟨result, f, notices⟩, w⟩ := given
    cases result <;> exact hsave
  · exact ⟨rfl, rfl, rfl⟩

/-! ## Whole runs -/

/-- What every report keeps is kept by any events. -/
theorem run_follow_keeps
    (hstore : ∀ f report w, P f w → P ((f.store report).run w).1.1 ((f.store report).run w).2)
    (events : List Event) (h : P f w) :
    P ((f.follow log events).run w).1.1 ((f.follow log events).run w).2 := by
  induction events generalizing f w log with
  | nil => exact h
  | cons event events ih =>
    cases event with
    | notice notice => exact ih h
    | report report =>
      simp only [follow, Script.run_bind_do]
      exact ih (hstore f report w h)

theorem run_follow_checkpoint (events : List Event) :
    ((f.follow log events).run w).1.1.checkpoint = f.checkpoint.follow events := by
  induction events generalizing f w log with
  | nil => rfl
  | cons event events ih =>
    cases event with
    | notice notice => exact ih
    | report report =>
      simp only [follow, Script.run_bind_do, ih, (run_store_frame f report w).1]
      rfl

theorem run_seek_keeps {bound : Nat}
    (hstore : ∀ f report w, P f w → P ((f.store report).run w).1.1 ((f.store report).run w).2)
    (h : P f w) : P ((seek bound r f log).run w).1.2.1 ((seek bound r f log).run w).2 := by
  induction bound generalizing f w log r with
  | zero => exact h
  | succ bound ih =>
    have hfollow : P ((f.follow log r.step.events).run w).1.1
        ((f.follow log r.step.events).run w).2 := run_follow_keeps hstore r.step.events h
    simp only [seek, Script.run_bind_do]
    split
    · exact hfollow
    · exact hfollow
    · exact ih hfollow
    · exact hfollow

/-- Watching does not change what a run does, and the file takes its reports. -/
theorem run_seek {bound : Nat} {c : Checkpoint} {emitted : Array Event}
    (h : f.checkpoint = c.follow emitted.toList) :
    ((seek bound r f log).run w).1.1 = (Run.seek bound r emitted).2 ∧
      ((seek bound r f log).run w).1.2.1.checkpoint =
        c.follow (Run.seek bound r emitted).1.toList := by
  induction bound generalizing f w log r emitted with
  | zero => exact ⟨rfl, h⟩
  | succ bound ih =>
    have hfollow : ((f.follow log r.step.events).run w).1.1.checkpoint =
        c.follow (r.step.events.foldl Array.push emitted).toList := by
      rw [run_follow_checkpoint, h]
      simp [Checkpoint.follow]
    simp only [seek, Run.seek, Script.run_bind_do]
    cases r.step.turn with
    | error fault => exact ⟨rfl, hfollow⟩
    | ok turn =>
      cases turn with
      | found solution r => exact ⟨rfl, hfollow⟩
      | moved r => exact ih hfollow
      | ended r => exact ⟨rfl, hfollow⟩

/-- A watched call gives what the call gives, and the file takes its reports. -/
theorem run_next (f : CheckpointFile) (r : Run) (w : World) :
    ((f.next r).run w).1.1 = r.next.2 ∧
      ((f.next r).run w).1.2.1.checkpoint = f.checkpoint.follow r.next.1.toList :=
  run_seek rfl

/-- So do watched calls one after the other. -/
theorem run_take (limit : Nat) (r : Run) (f : CheckpointFile) (w : World) :
    ((take limit r f).run w).1.1 = r.take limit ∧
      ((take limit r f).run w).1.2.checkpoint = f.checkpoint.follow (r.emitted limit) := by
  induction limit generalizing r f w with
  | zero => exact ⟨rfl, rfl⟩
  | succ limit ih =>
    obtain ⟨hresult, hcheckpoint⟩ := run_next f r w
    rw [take, Script.run_bind_do, Run.take, Run.emitted]
    generalize (f.next r).run w = given at hresult hcheckpoint ⊢
    obtain ⟨⟨result, f', log⟩, w'⟩ := given
    simp only at hresult hcheckpoint ⊢
    rw [← hresult]
    cases result with
    | error fault => exact ⟨rfl, by simp [hcheckpoint, Script.run_pure_do]⟩
    | ok found =>
      obtain ⟨solution, r'⟩ := found
      cases solution with
      | none => exact ⟨rfl, by simp [hcheckpoint, Script.run_pure_do]⟩
      | some solution =>
        obtain ⟨htake, hrest⟩ := ih r' f' w'
        simp only [Script.run_bind_do, Script.run_pure_do, htake, hrest, hcheckpoint,
          Checkpoint.follow_append, true_and]

theorem run_take_keeps
    (hstore : ∀ f report w, P f w → P ((f.store report).run w).1.1 ((f.store report).run w).2)
    (limit : Nat) (r : Run) (h : P f w) :
    P ((take limit r f).run w).1.2 ((take limit r f).run w).2 := by
  induction limit generalizing r f w with
  | zero => exact h
  | succ limit ih =>
    have hnext : P ((f.next r).run w).1.2.1 ((f.next r).run w).2 := run_seek_keeps hstore h
    rw [take, Script.run_bind_do]
    generalize (f.next r).run w = given at hnext ⊢
    obtain ⟨⟨result, f', log⟩, w'⟩ := given
    cases result with
    | error fault => exact hnext
    | ok found =>
      obtain ⟨solution, r'⟩ := found
      cases solution with
      | none => exact hnext
      | some solution =>
        simp only [Script.run_bind_do]
        exact ih r' hnext

/-! ## On disk -/

/-- The file at `path` holds `c`, and none does if `c` is fresh. -/
def Holds (files : FileTree) (path : Path) (c : Checkpoint) : Prop :=
  files.read path = .ok c.toJson.pretty ∨ files.read path = .error .notFound ∧ c = .fresh

/-- The file is written at every report, its path can be replaced, and on disk is its checkpoint. -/
structure Kept (path : Path) (source target : Location) (f : CheckpointFile) (w : World) :
    Prop where
  path_eq : f.path = path
  interval_eq : f.interval = 0
  replaceable : w.files.Replaceable path source target
  holds : Holds w.files path f.checkpoint

variable {path : Path} {source target : Location} {c : Checkpoint}

/-- A file that is opened has the checkpoint that it holds on disk. -/
theorem run_load (h : Holds w.files path c) :
    ∃ notices, (load path).run w =
      ((.ok ⟨path, defaultInterval, w.clock w.readings, c⟩, notices),
        { w with readings := w.readings + 1 }) := by
  rw [load, Script.run]
  rcases h with h | ⟨h, rfl⟩
  · have hparse : Checkpoint.parse? c.toJson.pretty = some c := Checkpoint.parse?_write _ c
    simp only [h, hparse]
    exact ⟨_, rfl⟩
  · simp only [h]
    exact ⟨_, rfl⟩

/-- A text is put in the place of a file, and nothing else is changed. -/
theorem run_replace (h : w.files.Replaceable path source target) (text : String) :
    ∃ files, (replace path text).run w = (.ok (), { w with files }) ∧
      files.Replaced path source target text := by
  obtain ⟨written, replaced, hwrite, hrename, hreplaced⟩ := h.replace text
  refine ⟨replaced, ?_, hreplaced⟩
  simp [replace, Script.run, World.change, hwrite, hrename]

/-- A save puts the checkpoint on disk. -/
theorem run_save (h : w.files.Replaceable f.path source target) :
    ∃ time notices files, f.save.run w = ((.ok (), { f with savedAt := time }, notices),
        { w with files, readings := w.readings + 1 }) ∧
      files.Replaced f.path source target f.checkpoint.toJson.pretty := by
  obtain ⟨files, hreplace, hreplaced⟩ := run_replace h f.checkpoint.toJson.pretty
  refine ⟨w.clock w.readings, [.saved f.path f.checkpoint.solution.length f.checkpoint.tally],
    files, ?_, hreplaced⟩
  rw [save, Script.run_bind_do, hreplace]
  rfl

/-- A file that holds a text is removed, and then nothing is left of it. -/
theorem run_finish {text : String} (h : w.files.Replaced f.path source target text) :
    ∃ files, f.finish.run w = (.ok (), { w with files }) ∧ files.lookup target = none ∧
      files.lookup source = none := by
  obtain ⟨removed, hremove, hgone⟩ := h.remove
  refine ⟨removed, ?_, hgone⟩
  simp only [finish, Script.run, World.change, hremove]

/-- What is on disk goes with the reports. -/
theorem run_store_kept {f : CheckpointFile} {report : Report} {w : World}
    (h : Kept path source target f w) :
    Kept path source target ((f.store report).run w).1.1 ((f.store report).run w).2 := by
  obtain ⟨rfl, hinterval, hreplaceable, -⟩ := h
  have hdue : ∀ time, ({ f with checkpoint := .ofReport report } : CheckpointFile).isDue time := by
    intro time
    simp [isDue, hinterval]
  obtain ⟨time, notices, files, hsave, hreplaced⟩ :=
    run_save (f := { f with checkpoint := .ofReport report })
      (w := { w with readings := w.readings + 1 }) hreplaceable
  rw [store, Script.run, if_pos (hdue _), Script.run_bind_do, hsave]
  exact ⟨rfl, hinterval, hreplaced.replaceable, .inl hreplaced.read⟩

/-! ## At any interval -/

/-- However seldom the file is written: it stays at its path, what is on disk stays `Good`, and
nothing is printed. -/
structure Settled (Good : FileTree → Prop) (path : Path) (printed : List String)
    (f : CheckpointFile) (w : World) : Prop where
  path_eq : f.path = path
  good : Good w.files
  printed_eq : w.printed = printed

/-- A report may be written or not. -/
theorem run_store_settled {Good : FileTree → Prop} {printed : List String}
    (hgood : ∀ files, Good files → files.Replaceable path source target)
    (hreplaced : ∀ files text, files.Replaced path source target text → Good files)
    (f : CheckpointFile) (report : Report) (w : World) (h : Settled Good path printed f w) :
    Settled Good path printed ((f.store report).run w).1.1 ((f.store report).run w).2 := by
  obtain ⟨rfl, hfiles, hprinted⟩ := h
  rw [store, Script.run]
  split
  · obtain ⟨time, notices, files, hsave, hfiles'⟩ :=
      run_save (f := { f with checkpoint := .ofReport report })
        (w := { w with readings := w.readings + 1 }) (hgood _ hfiles)
    rw [Script.run_bind_do, hsave]
    exact ⟨rfl, hreplaced _ _ hfiles', hprinted⟩
  · exact ⟨rfl, hfiles, hprinted⟩

end CheckpointFile

end Covering
