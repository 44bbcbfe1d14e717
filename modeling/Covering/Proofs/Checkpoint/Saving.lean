import Covering.Proofs.Checkpoint.Keeping
import Covering.Proofs.Files.Sparing

/-!
# What a save makes of the files

A save that succeeds leaves the checkpoint at the path, where it is found when the file is opened,
and nothing at the temporary path; one that fails leaves nothing but what was there, and no file at
the temporary path. It succeeds exactly if the file can be replaced. The same comes of the save made
at a report, and the run that reports goes on as if nobody watched it. Main statement:
`CheckpointFile.save_outcome`.
-/

namespace Covering
set_option autoImplicit false

namespace CheckpointFile

variable {f : CheckpointFile} {w : World} {path : Path} {text : String} {c : Checkpoint}

/-- What a save of `c` that succeeds makes of the files. -/
structure Saved (before after : FileTree) (path : Path) (c : Checkpoint) : Prop where
  opens : ∀ w : World, w.files = after →
    ∃ f notices, ((load path).run w).1 = (.ok f, notices) ∧ f.path = path ∧ f.checkpoint = c
  temporary_gone : ∀ location, after.locate path.temporary = .ok location →
    after.locate path ≠ .ok location → after.lookup location = none
  elsewhere : ∀ location, before.locate path.temporary ≠ .ok location →
    before.locate path ≠ .ok location → after.lookup location = before.lookup location

/-- What comes of a save of `c`: its result, with what it makes of the files. -/
inductive Outcome (before after : FileTree) (path : Path) (c : Checkpoint) :
    Except Failure Unit → Prop
  | saved (replaceable : ∃ source target, before.Replaceable path source target)
      (files : Saved before after path c) : Outcome before after path c (.ok ())
  | failed {failure : Failure} (blocked : ¬∃ source target, before.Replaceable path source target)
      (files : before.Spared after path) : Outcome before after path c (.error failure)

/-- Replacing ends after the write that fails, or after the rename. -/
theorem run_replace_cases (path : Path) (text : String) (w : World) :
    (∃ written replaced, w.files.write path.temporary text = .ok written ∧
      written.rename path.temporary path = .ok replaced ∧
      (replace path text).run w = (.ok (), { w with files := replaced })) ∨
    (∃ e, w.files.write path.temporary text = .error e ∧
      (replace path text).run w = (.error e, w)) ∨
    ∃ written e, w.files.write path.temporary text = .ok written ∧
      written.rename path.temporary path = .error e ∧
      (replace path text).run w = (.error e, { w with files := written }) := by
  cases hwrite : w.files.write path.temporary text with
  | error e =>
    refine .inr (.inl ⟨e, rfl, ?_⟩)
    simp [replace, Script.run, World.change, hwrite]
  | ok written =>
    cases hrename : written.rename path.temporary path with
    | error e =>
      refine .inr (.inr ⟨written, e, rfl, hrename, ?_⟩)
      simp [replace, Script.run, World.change, hwrite, hrename]
    | ok replaced =>
      refine .inl ⟨written, replaced, rfl, hrename, ?_⟩
      simp [replace, Script.run, World.change, hwrite, hrename]

/-- A checkpoint that was put in the place of a file is what is saved there. -/
theorem saved_of_rename {written replaced : FileTree}
    (hwrite : w.files.write path.temporary c.toJson.pretty = .ok written)
    (hrename : written.rename path.temporary path = .ok replaced) :
    Saved w.files replaced path c := by
  obtain ⟨source, target, hreplaceable⟩ := FileTree.replaceable_of_rename hwrite hrename
  obtain ⟨written', replaced', hwrite', hrename', hreplaced⟩ :=
    hreplaceable.replace c.toJson.pretty
  obtain rfl := Except.ok.inj (hwrite.symm.trans hwrite')
  obtain rfl := Except.ok.inj (hrename.symm.trans hrename')
  refine ⟨fun w hw => ?_, fun location hsource htarget => ?_, fun location => ?_⟩
  · obtain ⟨notices, hload⟩ := run_load (w := w) (.inl (hw ▸ hreplaced.read))
    exact ⟨_, notices, by rw [hload], rfl, rfl⟩
  · obtain rfl := Except.ok.inj (hreplaced.replaceable.source_at.symm.trans hsource)
    refine hreplaced.gone fun hsame => htarget ?_
    rw [hsame, hreplaced.replaceable.target_at]
  · exact FileTree.lookup_of_rename hwrite hrename

/-- What a failed save left is removed, if it can be. -/
theorem run_discard (path : Path) (w : World) :
    ∃ notices, (discard path).run w = (notices, (w.change (w.files.remove path)).2) ∧
      ∀ other failure, Notice.notSaved other failure ∉ notices := by
  cases hremove : w.files.remove path with
  | ok removed =>
    refine ⟨[], ?_, by simp⟩
    simp [discard, Script.run, World.change, hremove]
  | error e =>
    refine ⟨[.leftover path e], ?_, by simp⟩
    simp [discard, Script.run, World.change, hremove]

/-- A save comes to one of its outcomes; it announces no failure itself. -/
theorem run_save_outcome (f : CheckpointFile) (w : World) :
    ∃ result f' notices w', f.save.run w = ((result, f', notices), w') ∧
      Outcome w.files w'.files f.path f.checkpoint result ∧
      ∀ other failure, Notice.notSaved other failure ∉ notices := by
  rw [save, Script.run_bind_do]
  rcases run_replace_cases f.path f.checkpoint.toJson.pretty w with
    ⟨written, replaced, hwrite, hrename, hrun⟩ | ⟨e, hwrite, hrun⟩ |
    ⟨written, e, hwrite, hrename, hrun⟩
  -- Written and renamed.
  · rw [hrun]
    refine ⟨_, _, _, _, rfl, .saved ?_ (saved_of_rename hwrite hrename), by simp⟩
    exact FileTree.replaceable_of_rename hwrite hrename
  -- Not written: a file in the way would have been overwritten, so there is none to remove.
  · obtain ⟨hspared, e', hremove⟩ := FileTree.spared_of_write hwrite
    obtain ⟨notices, hdiscard, hsilent⟩ := run_discard f.path.temporary w
    rw [hremove] at hdiscard
    simp only [hrun, Script.run_bind_do, hdiscard]
    refine ⟨_, _, _, _, rfl, .failed ?_ hspared, hsilent⟩
    rintro ⟨source, target, hreplaceable⟩
    obtain ⟨written, replaced, hwrite', -⟩ := hreplaceable.replace f.checkpoint.toJson.pretty
    cases hwrite.symm.trans hwrite'
  -- Written but not renamed: what was written is removed again.
  · obtain ⟨removed, hremove, hspared⟩ := FileTree.spared_of_remove hwrite
    obtain ⟨notices, hdiscard, hsilent⟩ :=
      run_discard f.path.temporary { w with files := written }
    rw [hremove] at hdiscard
    simp only [hrun, Script.run_bind_do, hdiscard]
    refine ⟨_, _, _, _, rfl, .failed ?_ hspared, hsilent⟩
    rintro ⟨source, target, hreplaceable⟩
    obtain ⟨written', replaced, hwrite', hrename', -⟩ :=
      hreplaceable.replace f.checkpoint.toJson.pretty
    obtain rfl := Except.ok.inj (hwrite.symm.trans hwrite')
    cases hrename.symm.trans hrename'

/-- A report that is due is saved, and a failure of that save is announced and nothing else. -/
theorem run_store_outcome (f : CheckpointFile) (report : Report) (w : World) :
    ∃ f' notices w', (f.store report).run w = ((f', notices), w') ∧
      f'.checkpoint = .ofReport report ∧
      if f.isDue (w.clock w.readings) then
        ∃ result, Outcome w.files w'.files f.path (.ofReport report) result ∧
          ∀ failure, result = .error failure ↔ .notSaved f.path failure ∈ notices
      else w'.files = w.files := by
  have hisDue : ({ f with checkpoint := .ofReport report } : CheckpointFile).isDue =
      f.isDue := rfl
  rw [store, Script.run, hisDue]
  by_cases hdue : f.isDue (w.clock w.readings)
  · obtain ⟨hheld, hpath, -⟩ := run_save_frame { f with checkpoint := .ofReport report }
      { w with readings := w.readings + 1 }
    obtain ⟨result, f', notices, w', hsave, houtcome, hsilent⟩ :=
      run_save_outcome { f with checkpoint := .ofReport report }
        { w with readings := w.readings + 1 }
    rw [hsave] at hheld hpath
    simp only [hdue, if_true, Script.run_bind_do, hsave]
    cases result with
    | ok _ =>
      refine ⟨f', notices, w', rfl, hheld, .ok (), houtcome, fun failure => ?_⟩
      simp [hsilent]
    | error failure =>
      refine ⟨f', notices ++ [.notSaved f'.path failure], w', rfl, hheld, .error failure,
        houtcome, fun other => ?_⟩
      simp only at hpath
      simp [hsilent, hpath, eq_comm]
  · simp only [hdue]
    exact ⟨_, _, _, rfl, rfl, rfl⟩

/-- A save leaves its outcome, whether the caller asks for it or a report is due, and never
changes the checkpoint held or the run that reports. -/
theorem save_outcome (f : CheckpointFile) (w : World) :
    (∃ result f' notices w', f.save.run w = ((result, f', notices), w') ∧
      Outcome w.files w'.files f.path f.checkpoint result ∧ f'.checkpoint = f.checkpoint) ∧
    (∀ report, ∃ f' notices w', (f.store report).run w = ((f', notices), w') ∧
      f'.checkpoint = .ofReport report ∧
      if f.isDue (w.clock w.readings) then
        ∃ result, Outcome w.files w'.files f.path (.ofReport report) result ∧
          ∀ failure, result = .error failure ↔ .notSaved f.path failure ∈ notices
      else w'.files = w.files) ∧
    ∀ limit r, ((take limit r f).run w).1.1 = r.take limit := by
  refine ⟨?_, fun report => run_store_outcome f report w, fun limit r => (run_take limit r f w).1⟩
  obtain ⟨result, f', notices, w', hsave, houtcome, -⟩ := run_save_outcome f w
  have hframe := (run_save_frame f w).1
  rw [hsave] at hframe
  exact ⟨result, f', notices, w', hsave, houtcome, hframe⟩

end CheckpointFile

end Covering
