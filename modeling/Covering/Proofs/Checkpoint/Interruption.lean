import Covering.Proofs.Checkpoint.Saving
import Covering.Proofs.Files.Temporary

/-!
# Saves cut off

A script can be cut off between its operations and in the middle of a write, which then leaves some
of the text in the file: `Script.Leaves`. A save writes to the temporary path first, so wherever it
is cut off, the path is found as it was before the save or as it is after it, with one exception:
the temporary path leads to the file itself, or to where the path has to lead through. Main
statement: `CheckpointFile.save_cut_off_iff`.
-/

namespace Covering
set_option autoImplicit false

namespace Script

variable {α β : Type}

/-- The files that a script may leave when it is cut off. -/
inductive Leaves : Script α → World → FileTree → Prop
  /-- Cut off before its next operation, or not at all. -/
  | stopped {s : Script α} {w : World} : Leaves s w w.files
  /-- Cut off in the middle of a write. -/
  | torn {path : Path} {text : String} {next : Except FileError Unit → Script α} {w : World}
      {written : Nat} {files : FileTree} (part : written < text.toUTF8.size)
      (file : w.files.writeBytes path (text.toUTF8.extract 0 written) = .ok files) :
      Leaves (.write path text next) w files
  | read {path : Path} {next : Except FileError String → Script α} {w : World} {files : FileTree}
      (rest : Leaves (next (w.files.read path)) w files) : Leaves (.read path next) w files
  | write {path : Path} {text : String} {next : Except FileError Unit → Script α} {w : World}
      {files : FileTree} (rest : Leaves (next (w.change (w.files.write path text)).1)
        (w.change (w.files.write path text)).2 files) : Leaves (.write path text next) w files
  | rename {source target : Path} {next : Except FileError Unit → Script α} {w : World}
      {files : FileTree} (rest : Leaves (next (w.change (w.files.rename source target)).1)
        (w.change (w.files.rename source target)).2 files) :
      Leaves (.rename source target next) w files
  | remove {path : Path} {next : Except FileError Unit → Script α} {w : World} {files : FileTree}
      (rest : Leaves (next (w.change (w.files.remove path)).1)
        (w.change (w.files.remove path)).2 files) : Leaves (.remove path next) w files
  | now {next : Nat → Script α} {w : World} {files : FileTree}
      (rest : Leaves (next (w.clock w.readings)) { w with readings := w.readings + 1 } files) :
      Leaves (.now next) w files
  | print {line : String} {next : Unit → Script α} {w : World} {files : FileTree}
      (rest : Leaves (next ()) { w with printed := line :: w.printed } files) :
      Leaves (.print line next) w files

variable {w : World} {files : FileTree}

theorem leaves_done {value : α} (h : Leaves (.done value) w files) : files = w.files := by
  cases h
  rfl

section

variable {path target : Path} {text : String} {next : Except FileError Unit → Script α}

theorem leaves_write (h : Leaves (.write path text next) w files) : files = w.files ∨
    (∃ written < text.toUTF8.size,
      w.files.writeBytes path (text.toUTF8.extract 0 written) = .ok files) ∨
    Leaves (next (w.change (w.files.write path text)).1)
      (w.change (w.files.write path text)).2 files := by
  cases h with
  | stopped => exact .inl rfl
  | torn part file => exact .inr (.inl ⟨_, part, file⟩)
  | write rest => exact .inr (.inr rest)

theorem leaves_rename (h : Leaves (.rename path target next) w files) : files = w.files ∨
    Leaves (next (w.change (w.files.rename path target)).1)
      (w.change (w.files.rename path target)).2 files := by
  cases h with
  | stopped => exact .inl rfl
  | rename rest => exact .inr rest

theorem leaves_remove (h : Leaves (.remove path next) w files) : files = w.files ∨
    Leaves (next (w.change (w.files.remove path)).1) (w.change (w.files.remove path)).2 files := by
  cases h with
  | stopped => exact .inl rfl
  | remove rest => exact .inr rest

end

/-- What a script leaves that is not cut off. -/
theorem leaves_run (s : Script α) (w : World) : Leaves s w (s.run w).2.files := by
  induction s generalizing w with
  | done value => exact .stopped
  | read path next ih => exact .read (ih _ w)
  | write path text next ih => exact .write (ih _ _)
  | rename source target next ih => exact .rename (ih _ _)
  | remove path next ih => exact .remove (ih _ _)
  | now next ih => exact .now (ih _ _)
  | print line next ih => exact .print (ih _ _)

/-- A script in two parts is cut off in the one or in the other. -/
theorem leaves_bind {s : Script α} {f : α → Script β} (h : Leaves (s.bind f) w files) :
    Leaves s w files ∨ Leaves (f (s.run w).1) (s.run w).2 files := by
  induction s generalizing w with
  | done value => exact .inr h
  | read path next ih =>
    cases h with
    | stopped => exact .inl .stopped
    | read rest => exact (ih _ rest).imp .read id
  | write path text next ih =>
    cases h with
    | stopped => exact .inl .stopped
    | torn part file => exact .inl (.torn part file)
    | write rest => exact (ih _ rest).imp .write id
  | rename source target next ih =>
    cases h with
    | stopped => exact .inl .stopped
    | rename rest => exact (ih _ rest).imp .rename id
  | remove path next ih =>
    cases h with
    | stopped => exact .inl .stopped
    | remove rest => exact (ih _ rest).imp .remove id
  | now next ih =>
    cases h with
    | stopped => exact .inl .stopped
    | now rest => exact (ih _ rest).imp .now id
  | print line next ih =>
    cases h with
    | stopped => exact .inl .stopped
    | print rest => exact (ih _ rest).imp .print id

end Script

namespace CheckpointFile

open Script

variable {f : CheckpointFile} {w : World} {files : FileTree} {path : Path} {c before : Checkpoint}
  {text : String}

/-! ## Where a save can be cut off -/

theorem leaves_replace (h : Leaves (replace path text) w files) : files = w.files ∨
    (∃ written < text.toUTF8.size,
      w.files.writeBytes path.temporary (text.toUTF8.extract 0 written) = .ok files) ∨
    ∃ written, w.files.write path.temporary text = .ok written ∧
      (files = written ∨ written.rename path.temporary path = .ok files) := by
  rcases leaves_write h with hsame | htorn | hrest
  · exact .inl hsame
  · exact .inr (.inl htorn)
  · cases hwrite : w.files.write path.temporary text with
    | error e =>
      rw [hwrite] at hrest
      exact .inl (leaves_done hrest)
    | ok written =>
      refine .inr (.inr ⟨written, rfl, ?_⟩)
      rw [hwrite] at hrest
      rcases leaves_rename hrest with hsame | hrest
      · exact .inl hsame
      · simp only [World.change] at hrest
        cases hrename : written.rename path.temporary path with
        | error e =>
          rw [hrename] at hrest
          exact .inl (leaves_done hrest)
        | ok renamed =>
          rw [hrename] at hrest
          exact .inr (congrArg Except.ok (leaves_done hrest).symm)

theorem leaves_discard (h : Leaves (discard path) w files) :
    files = w.files ∨ w.files.remove path = .ok files := by
  rcases leaves_remove h with hsame | hrest
  · exact .inl hsame
  · cases hremove : w.files.remove path with
    | error e =>
      rw [hremove] at hrest
      exact .inl (leaves_done hrest)
    | ok removed =>
      rw [hremove] at hrest
      exact .inr (congrArg Except.ok (leaves_done hrest).symm)

/-- A save is cut off before its write, in it, after it, or after the rename or the removal that
follows. -/
theorem leaves_save (h : Leaves f.save w files) : files = w.files ∨
    (∃ written < f.checkpoint.toJson.pretty.toUTF8.size, w.files.writeBytes f.path.temporary
      (f.checkpoint.toJson.pretty.toUTF8.extract 0 written) = .ok files) ∨
    ∃ written, w.files.write f.path.temporary f.checkpoint.toJson.pretty = .ok written ∧
      (files = written ∨ written.rename f.path.temporary f.path = .ok files ∨
        written.remove f.path.temporary = .ok files) := by
  rcases leaves_bind h with hreplace | hrest
  · rcases leaves_replace hreplace with hsame | htorn | ⟨written, hwrite, hcut⟩
    · exact .inl hsame
    · exact .inr (.inl htorn)
    · exact .inr (.inr ⟨written, hwrite, hcut.imp_right .inl⟩)
  · have hdiscarded : ∀ {w' : World} {e : FileError}, Leaves (do
        let notices ← discard f.path.temporary
        return ((.error (.file e) : Except Failure Unit), f, notices)) w' files →
          files = w'.files ∨ w'.files.remove f.path.temporary = .ok files := by
      intro w' e hrest
      rcases leaves_bind hrest with hdiscard | hdone
      · exact leaves_discard hdiscard
      · exact leaves_discard (leaves_done hdone ▸ leaves_run _ _)
    rcases run_replace_cases f.path f.checkpoint.toJson.pretty w with
      ⟨written, replaced, hwrite, hrename, hrun⟩ | ⟨e, hwrite, hrun⟩ |
      ⟨written, e, hwrite, hrename, hrun⟩
    · rw [hrun] at hrest
      refine .inr (.inr ⟨written, hwrite, .inr (.inl ?_)⟩)
      cases hrest with
      | stopped => exact hrename
      | now rest => rw [leaves_done rest, hrename]
    · rw [hrun] at hrest
      obtain ⟨-, e', hremove⟩ := FileTree.spared_of_write hwrite
      rcases hdiscarded hrest with hsame | hremoved
      · exact .inl hsame
      · cases hremove.symm.trans hremoved
    · rw [hrun] at hrest
      refine .inr (.inr ⟨written, hwrite, ?_⟩)
      rcases hdiscarded hrest with hsame | hremoved
      · exact .inl hsame
      · exact .inr (.inr hremoved)

/-! ## What is found afterwards -/

/-- Whoever opens the path finds `c`. -/
def Opens (files : FileTree) (path : Path) (c : Checkpoint) : Prop :=
  ∀ w : World, w.files = files →
    ∃ f notices, ((load path).run w).1 = (.ok f, notices) ∧ f.path = path ∧ f.checkpoint = c

/-- What is found depends on the text at the path only. -/
theorem opens_iff : Opens files path c ↔
    (∃ text, files.read path = .ok text ∧ Checkpoint.parse? text = some c) ∨
      files.read path = .error .notFound ∧ c = .fresh := by
  constructor
  · intro h
    obtain ⟨f, notices, hload, -, rfl⟩ := h (.still files) rfl
    rw [load, Script.run] at hload
    simp only [World.still] at hload
    cases hread : files.read path with
    | ok text =>
      simp only [hread] at hload
      cases hparse : Checkpoint.parse? text with
      | none => simp [hparse, Script.run] at hload
      | some c =>
        simp only [hparse, Script.run, Prod.mk.injEq, Except.ok.injEq] at hload
        exact .inl ⟨text, rfl, by rw [hparse, ← hload.1]⟩
    | error e =>
      cases e with
      | notFound =>
        simp only [hread, Script.run, Prod.mk.injEq, Except.ok.injEq] at hload
        exact .inr ⟨rfl, by rw [← hload.1]⟩
      | _ => simp [hread, Script.run] at hload
  · rintro (⟨text, hread, hparse⟩ | ⟨hread, rfl⟩) w rfl
    · exact ⟨_, _, by rw [load, Script.run]; simp only [hread, hparse]; rfl, rfl, rfl⟩
    · exact ⟨_, _, by rw [load, Script.run]; simp only [hread]; rfl, rfl, rfl⟩

/-- At a path that leads to nothing yet. -/
theorem opens_of_absent {location : Location} (hlocate : files.locate path = .ok location)
    (habsent : files.lookup location = none) : Opens files path .fresh :=
  opens_iff.2 (.inr ⟨FileTree.read_of_absent hlocate habsent, rfl⟩)

theorem opens_congr {files' : FileTree} (h : files'.read path = files.read path) :
    Opens files' path c ↔ Opens files path c := by rw [opens_iff, opens_iff, h]

/-- The temporary path can be written to, and leads to the file itself or to where the path leads
through. -/
def InTheWay (f : CheckpointFile) (files : FileTree) : Prop :=
  f.path.temporary.names <+: f.path.names ∧
    ∃ written, files.write f.path.temporary f.checkpoint.toJson.pretty = .ok written

/-- A save that is not in its own way may be cut off anywhere. -/
theorem opens_of_leaves (hopens : Opens w.files f.path before) (hway : ¬f.InTheWay w.files)
    (h : Leaves f.save w files) : Opens files f.path before ∨ Opens files f.path f.checkpoint := by
  rcases leaves_save h with rfl | ⟨part, -, htorn⟩ | ⟨written, hwrite, hcut⟩
  · exact .inl hopens
  · obtain ⟨source, hsource, hfree, hslash, rfl⟩ := FileTree.writeBytes_eq_ok_iff.1 htorn
    have hbeside : ¬f.path.temporary.names <+: f.path.names := fun hshared =>
      hway ⟨hshared, _, FileTree.write_eq_ok_iff.2 ⟨source, hsource, hfree, hslash, rfl⟩⟩
    exact .inl ((opens_congr (FileTree.read_of_beside hbeside hsource hfree
      fun _ hne => FileTree.lookup_insert_of_ne hne)).2 hopens)
  · have hbeside : ¬f.path.temporary.names <+: f.path.names := fun hshared =>
      hway ⟨hshared, written, hwrite⟩
    obtain ⟨source, hsource, hfree, -, rfl⟩ := FileTree.write_eq_ok_iff.1 hwrite
    rcases hcut with rfl | hrename | hremove
    · exact .inl ((opens_congr (FileTree.read_of_beside hbeside hsource hfree
        fun _ hne => FileTree.lookup_insert_of_ne hne)).2 hopens)
    · exact .inr (saved_of_rename hwrite hrename).opens
    · obtain ⟨source', bytes, hsource', -, -, rfl⟩ := FileTree.remove_eq_ok_iff.1 hremove
      obtain rfl : source = source' := Except.ok.inj
        (((FileTree.keeps_insert hfree).locate hsource).symm.trans hsource')
      refine .inl ((opens_congr (FileTree.read_of_beside hbeside hsource hfree
        fun _ hne => ?_)).2 hopens)
      rw [FileTree.lookup_erase_of_ne hne, FileTree.lookup_insert_of_ne hne]

/-- A save that is in its own way may be cut off before the first byte of its text is written, and
then nothing can be opened. -/
theorem exists_leaves_of_inTheWay (hopens : Opens w.files f.path before)
    (hway : f.InTheWay w.files) :
    ∃ files, Leaves f.save w files ∧ ∀ c, ¬Opens files f.path c := by
  obtain ⟨hshared, written, hwrite⟩ := hway
  obtain ⟨source, hsource, hfree, hslash, -⟩ := FileTree.write_eq_ok_iff.1 hwrite
  have hempty : Checkpoint.parse? "" = none := by rfl
  have hpositive : 0 < f.checkpoint.toJson.pretty.toUTF8.size := by
    by_contra hsize
    have hpretty : f.checkpoint.toJson.pretty = "" := by simpa using hsize
    have hparse : Checkpoint.parse? f.checkpoint.toJson.pretty = some f.checkpoint :=
      Checkpoint.parse?_write _ _
    rw [hpretty, hempty] at hparse
    cases hparse
  have hread := FileTree.read_of_in_the_way hshared hsource hfree
    ((opens_iff.1 hopens).imp (fun ⟨text, hread, _⟩ => ⟨text, hread⟩) And.left) ""
  refine ⟨w.files.insert source (.file "".toUTF8), .torn hpositive ?_, fun c hc => ?_⟩
  · have hnothing : f.checkpoint.toJson.pretty.toUTF8.extract 0 0 = "".toUTF8 := by simp
    rw [hnothing]
    exact FileTree.writeBytes_eq_ok_iff.2 ⟨source, hsource, hfree, hslash, rfl⟩
  · rcases opens_iff.1 hc with ⟨text, htext, hparse⟩ | ⟨hmissing, -⟩
    · rcases hread with hread | hread
      · obtain rfl := Except.ok.inj (htext.symm.trans hread)
        cases hempty.symm.trans hparse
      · cases htext.symm.trans hread
    · rcases hread with hread | hread <;> cases hmissing.symm.trans hread

/-- However a save of a file that can be opened is cut off, the checkpoint found at its path is the
one that was found there before or the one being saved, exactly if the save is not in its own
way. -/
theorem save_cut_off_iff (f : CheckpointFile) (w : World) (hopens : Opens w.files f.path before) :
    (∀ files, Leaves f.save w files →
      Opens files f.path before ∨ Opens files f.path f.checkpoint) ↔ ¬f.InTheWay w.files := by
  refine ⟨fun hall hway => ?_, fun hway files => opens_of_leaves hopens hway⟩
  obtain ⟨files, hleaves, hnone⟩ := exists_leaves_of_inTheWay hopens hway
  exact (hall files hleaves).elim (hnone _) (hnone _)

/-- A save to `job.json`, which is not there yet, may be cut off anywhere. -/
theorem save_cut_off_iff_job :
    let f : CheckpointFile := ⟨⟨"job.json"⟩, 60, 0, .ofSolution [["a"]]⟩
    ∀ files, Leaves f.save (.still .empty) files →
      Opens files f.path .fresh ∨ Opens files f.path f.checkpoint := by
  intro f
  have hlocate : FileTree.empty.locate ⟨"job.json"⟩ = .ok ["job.json"] := by decide
  have hbeside : ¬(Path.mk "job.json").temporary.names <+: (Path.mk "job.json").names := by decide
  have hopens : Opens FileTree.empty ⟨"job.json"⟩ .fresh := opens_of_absent hlocate rfl
  exact (save_cut_off_iff f (.still .empty) hopens).2 fun hway => hbeside hway.1

/-- A file kept at `x.tmp` is its own temporary file. -/
theorem inTheWay_of_tmp {f : CheckpointFile} (h : f.path = ⟨"x.tmp"⟩) : f.InTheWay .empty := by
  have hshared : (Path.mk "x.tmp").temporary.names <+: (Path.mk "x.tmp").names := by decide
  have hlocate : FileTree.empty.locate (Path.mk "x.tmp").temporary = .ok ["x.tmp"] := by decide
  have hslash : (Path.mk "x.tmp").temporary.endsInSlash = false := by decide
  rw [InTheWay, h]
  exact ⟨hshared, _, FileTree.write_eq_ok_iff.2 ⟨_, hlocate, nofun, hslash, rfl⟩⟩

/-- Not every save that is cut off leaves a checkpoint that can be opened. -/
theorem exists_torn_save :
    ¬ ∀ (f : CheckpointFile) (w : World) (before : Checkpoint), Opens w.files f.path before →
      ∀ files, Leaves f.save w files →
        Opens files f.path before ∨ Opens files f.path f.checkpoint := by
  intro hall
  have hlocate : FileTree.empty.locate ⟨"x.tmp"⟩ = .ok ["x.tmp"] := by decide
  have hopens : Opens FileTree.empty ⟨"x.tmp"⟩ .fresh := opens_of_absent hlocate rfl
  obtain ⟨files, hleaves, hnone⟩ := exists_leaves_of_inTheWay (w := .still .empty)
    (f := ⟨⟨"x.tmp"⟩, 60, 0, .fresh⟩) hopens (inTheWay_of_tmp rfl)
  exact (hall _ _ _ hopens files hleaves).elim (hnone _) (hnone _)

end CheckpointFile

end Covering
