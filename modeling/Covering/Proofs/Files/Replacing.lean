import Covering.Files.Tree
import Covering.Proofs.Files.Path

/-!
# Putting a text in the place of a file

A text is put in the place of a file by writing it to the temporary path and renaming that. If both
paths lead to places where no directory stands, this succeeds, the text is then read at the path,
nothing is left beside it, and it can be done again: `FileTree.Replaceable.replace`. Neither step
removes a directory, so that every path leads where it led before.
-/

namespace Covering
set_option autoImplicit false

namespace FileTree

variable {t t' : FileTree} {p : Path} {here location source target : Location} {bytes : ByteArray}
  {names : List String} {text : String}

/-! ## Directories -/

/-- Every directory of `t` is one of `t'`. -/
def Keeps (t t' : FileTree) : Prop :=
  ∀ location, t.lookup location = some .directory → t'.lookup location = some .directory

theorem Keeps.trans {t'' : FileTree} (h : t.Keeps t') (h' : t'.Keeps t'') : t.Keeps t'' :=
  fun location hl => h' location (h location hl)

theorem keeps_insert (h : t.lookup location ≠ some .directory) :
    t.Keeps (t.insert location (.file bytes)) := by
  intro other hother
  by_cases hroot : other = []
  · rw [hroot, lookup]
  · have hne : other ≠ location := by
      rintro rfl
      exact h hother
    rw [lookup_insert hroot, if_neg hne, hother]

theorem keeps_erase (h : t.lookup location ≠ some .directory) : t.Keeps (t.erase location) := by
  intro other hother
  by_cases hroot : other = []
  · rw [hroot, lookup]
  · have hne : other ≠ location := by
      rintro rfl
      exact h hother
    rw [lookup_erase hroot, if_neg hne, hother]

/-- Names lead where they led as long as the directories are kept. -/
theorem Keeps.walk (h : t.Keeps t') (hwalk : t.walk here names = .ok location) :
    t'.walk here names = .ok location := by
  induction names generalizing here with
  | nil => exact hwalk
  | cons name names ih =>
    rw [FileTree.walk] at hwalk ⊢
    cases hhere : t.lookup here with
    | none => simp [hhere] at hwalk
    | some entry =>
      cases entry with
      | file bytes => simp [hhere] at hwalk
      | directory =>
        rw [h here hhere]
        simp only [hhere] at hwalk ⊢
        split_ifs at hwalk ⊢ with hdot hdots hlong
        · exact ih hwalk
        · exact ih hwalk
        · exact ih hwalk

theorem Keeps.locate (h : t.Keeps t') (hlocate : t.locate p = .ok location) :
    t'.locate p = .ok location := by
  unfold FileTree.locate at hlocate ⊢
  split_ifs at hlocate ⊢ with hnul hempty hlong
  exact h.walk hlocate

theorem walk_of_locate (h : t.locate p = .ok location) : t.walk [] p.names = .ok location := by
  unfold locate at h
  split_ifs at h
  exact h

/-- Names that end by leading up lead to a directory, if all that is above where they begin are
directories. -/
theorem walk_up (habove : ∀ above, above <+: here → above ≠ here → t.lookup above = some .directory)
    (hwalk : t.walk here (names ++ [".."]) = .ok location) :
    t.lookup location = some .directory := by
  induction names generalizing here with
  | nil =>
    have hup : t.lookup here.dropLast = some .directory := by
      by_cases hroot : here = []
      · rw [hroot]
        rfl
      · refine habove _ (List.dropLast_prefix here) fun e => ?_
        have := congrArg List.length e
        have := List.length_pos_iff.2 hroot
        simp only [List.length_dropLast] at *
        omega
    simp only [List.nil_append, walk] at hwalk
    split at hwalk
    · obtain rfl : here.dropLast = location := by simpa using hwalk
      exact hup
    · cases hwalk
    · cases hwalk
  | cons name names ih =>
    simp only [List.cons_append, walk] at hwalk
    split at hwalk
    · next hhere =>
      have hbelow : ∀ above, above <+: here → t.lookup above = some .directory := by
        intro above hpre
        by_cases hsame : above = here
        · rw [hsame, hhere]
        · exact habove above hpre hsame
      split_ifs at hwalk with hdot hdots hlong
      · exact ih habove hwalk
      · exact ih (fun above hpre _ => hbelow above (hpre.trans (List.dropLast_prefix here)))
          hwalk
      · refine ih (fun above hpre hne => ?_) hwalk
        exact hbelow above ((List.prefix_concat_iff.1 hpre).resolve_left hne)
    · cases hwalk
    · cases hwalk

/-! ## Operations that succeed -/

theorem fileAt_eq_ok_iff : t.fileAt p = .ok (location, bytes) ↔ t.locate p = .ok location ∧
    t.lookup location = some (.file bytes) ∧ p.endsInSlash = false := by
  rw [fileAt]
  cases hp : t.locate p with
  | error e => simp [bind, Except.bind]
  | ok place =>
    simp only [bind, Except.bind, Except.ok.injEq]
    constructor
    · intro h
      cases hlookup : t.lookup place with
      | none => simp [hlookup, throw, throwThe, MonadExceptOf.throw] at h
      | some entry =>
        cases entry with
        | directory => simp [hlookup, throw, throwThe, MonadExceptOf.throw] at h
        | file found =>
          cases hslash : p.endsInSlash <;>
            simp_all [pure, Except.pure, throw, throwThe, MonadExceptOf.throw]
    · rintro ⟨rfl, hlookup, hslash⟩
      simp [hlookup, hslash, pure, Except.pure]

theorem writeBytes_eq_ok_iff : t.writeBytes p bytes = .ok t' ↔ ∃ location,
    t.locate p = .ok location ∧ t.lookup location ≠ some .directory ∧ p.endsInSlash = false ∧
    t' = t.insert location (.file bytes) := by
  rw [writeBytes]
  cases hp : t.locate p with
  | error e => simp [bind, Except.bind]
  | ok location =>
    rcases hlookup : t.lookup location with _ | _ | _ <;> cases hslash : p.endsInSlash <;>
      simp [bind, Except.bind, pure, Except.pure, throw, throwThe, MonadExceptOf.throw, hlookup,
        eq_comm]

theorem write_eq_ok_iff : t.write p text = .ok t' ↔ ∃ location, t.locate p = .ok location ∧
    t.lookup location ≠ some .directory ∧ p.endsInSlash = false ∧
    t' = t.insert location (.file text.toUTF8) := writeBytes_eq_ok_iff

theorem remove_eq_ok_iff : t.remove p = .ok t' ↔ ∃ location bytes, t.locate p = .ok location ∧
    t.lookup location = some (.file bytes) ∧ p.endsInSlash = false ∧ t' = t.erase location := by
  rw [remove]
  constructor
  · intro h
    cases hfile : t.fileAt p with
    | error e => simp [hfile, bind, Except.bind] at h
    | ok found =>
      obtain ⟨location, bytes⟩ := found
      obtain ⟨hp, hlookup, hslash⟩ := fileAt_eq_ok_iff.1 hfile
      simp only [hfile, bind, Except.bind, pure, Except.pure, Except.ok.injEq] at h
      exact ⟨location, bytes, hp, hlookup, hslash, h.symm⟩
  · rintro ⟨location, bytes, hp, hlookup, hslash, rfl⟩
    rw [fileAt_eq_ok_iff.2 ⟨hp, hlookup, hslash⟩]
    rfl

theorem rename_eq_ok_iff {p' : Path} : t.rename p p' = .ok t' ↔ ∃ source target bytes,
    t.locate p = .ok source ∧ t.locate p' = .ok target ∧
    (p.endsInName ∧ p.endsInSlash = false) ∧ (p'.endsInName ∧ p'.endsInSlash = false) ∧
    t.lookup source = some (.file bytes) ∧ t.lookup target ≠ some .directory ∧
    t' = (t.erase source).insert target (.file bytes) := by
  rw [rename]
  constructor
  · intro h
    cases hp : t.locate p with
    | error e => simp [hp, bind, Except.bind] at h
    | ok source =>
      cases hp' : t.locate p' with
      | error e => simp [hp, hp', bind, Except.bind] at h
      | ok target =>
        cases hfile : t.fileAt p with
        | error e =>
          cases hname : p.endsInName <;> cases hname' : p'.endsInName <;>
            simp [hp, hp', hname, hname', hfile, bind, Except.bind] at h
        | ok found =>
          obtain ⟨place, bytes⟩ := found
          obtain ⟨hplace, hlookup, hslash⟩ := fileAt_eq_ok_iff.1 hfile
          obtain rfl : source = place := Except.ok.inj (hp.symm.trans hplace)
          simp only [hp, hp', hfile, bind, Except.bind, pure, Except.pure, throw, throwThe,
            MonadExceptOf.throw] at h
          split_ifs at h with hname hslash'
          split at h
          · cases h
          · next hfree =>
            obtain rfl := Except.ok.inj h
            simp only [Bool.or_eq_true, Bool.not_eq_true', not_or, Bool.not_eq_false] at hname
            exact ⟨source, target, bytes, rfl, rfl, ⟨hname.1, hslash⟩,
              ⟨hname.2, Bool.eq_false_iff.2 hslash'⟩, hlookup, hfree, rfl⟩
  · rintro ⟨source, target, bytes, hp, hp', hname, hname', hlookup, hfree, rfl⟩
    have hfile := fileAt_eq_ok_iff.2 ⟨hp, hlookup, hname.2⟩
    simp [hp, hp', hname, hname', hfile, bind, Except.bind, pure, Except.pure]

/-! ## Replacing a file -/

/-- The path `p` leads to `target` and its temporary path to `source`, both end in the name of an
entry, and no directory stands at either. -/
structure Replaceable (t : FileTree) (p : Path) (source target : Location) : Prop where
  source_at : t.locate p.temporary = .ok source
  target_at : t.locate p = .ok target
  source_free : t.lookup source ≠ some .directory
  target_free : t.lookup target ≠ some .directory
  temporary_name : p.temporary.endsInName ∧ p.temporary.endsInSlash = false
  name : p.endsInName ∧ p.endsInSlash = false

/-- A path that ends in the name of an entry can be replaced if both paths lead to places where no
directory stands: then its temporary path does not lead up, and ends in the name of an entry,
too. -/
theorem replaceable (hname : p.endsInName) (hslash : p.endsInSlash = false)
    (htarget : t.locate p = .ok target) (hfree : t.lookup target ≠ some .directory)
    (hsource : t.locate p.temporary = .ok source) (hfree' : t.lookup source ≠ some .directory) :
    t.Replaceable p source target := by
  obtain ⟨parent, name, hends, hdot, hdots⟩ := Path.exists_ends hname hslash
  obtain ⟨other, hother, hcases⟩ := hends.temporary hdot hdots
  refine ⟨hsource, htarget, hfree', hfree, ⟨?_, hother.endsInSlash⟩, hname, hslash⟩
  rw [hother.endsInName_iff]
  rcases hcases with rfl | ⟨stem, rfl⟩
  · exfalso
    have hwalk := walk_of_locate hsource
    rw [hother.names] at hwalk
    exact hfree' (walk_up (by simp) hwalk)
  · constructor
    · intro e
      simpa using congrArg List.length e
    · intro e
      simpa using congrArg List.length e

theorem Replaceable.of_keeps (h : t.Replaceable p source target) (hkeeps : t.Keeps t')
    (hsource : t'.lookup source ≠ some .directory) (htarget : t'.lookup target ≠ some .directory) :
    t'.Replaceable p source target :=
  ⟨hkeeps.locate h.source_at, hkeeps.locate h.target_at, hsource, htarget, h.temporary_name, h.name⟩

theorem ne_nil_of_free (h : t.lookup location ≠ some .directory) : location ≠ [] := by
  rintro rfl
  exact h rfl

/-- The text of a file that is one. -/
theorem read_of_lookup (hp : t.locate p = .ok location) (hslash : p.endsInSlash = false)
    (h : t.lookup location = some (.file text.toUTF8)) : t.read p = .ok text := by
  have htext : String.fromUTF8? text.toUTF8 = some text := dif_pos text.isValidUTF8
  rw [String.toUTF8_eq_toByteArray] at h htext
  simp [read, fileAt, hp, h, hslash, htext, bind, Except.bind, pure, Except.pure]

/-- Where nothing stands there is nothing to be read. -/
theorem read_of_absent (hp : t.locate p = .ok location) (h : t.lookup location = none) :
    t.read p = .error .notFound := by
  simp only [read, fileAt, hp, h, bind, Except.bind]
  rfl

/-- The text was put in the place of the file at `p`: the file holds it, nothing is left at the
temporary path, unless that leads to the file itself, and the file can be replaced again. -/
structure Replaced (t : FileTree) (p : Path) (source target : Location) (text : String) :
    Prop where
  replaceable : t.Replaceable p source target
  held : t.lookup target = some (.file text.toUTF8)
  gone : source ≠ target → t.lookup source = none

theorem Replaced.read (h : t.Replaced p source target text) : t.read p = .ok text :=
  read_of_lookup h.replaceable.target_at h.replaceable.name.2 h.held

/-- A file that holds a text can be removed, and then nothing is left at either path. -/
theorem Replaced.remove (h : t.Replaced p source target text) :
    ∃ removed, t.remove p = .ok removed ∧ removed.lookup target = none ∧
      removed.lookup source = none := by
  have hsource := ne_nil_of_free h.replaceable.source_free
  have htarget := ne_nil_of_free h.replaceable.target_free
  refine ⟨t.erase target, ?_, ?_, ?_⟩
  · exact remove_eq_ok_iff.2 ⟨target, _, h.replaceable.target_at, h.held, h.replaceable.name.2, rfl⟩
  · rw [lookup_erase htarget, if_pos rfl]
  · rw [lookup_erase hsource]
    split
    · rfl
    · next hne => exact h.gone hne

/-- A text is put in the place of a file. -/
theorem Replaceable.replace (h : t.Replaceable p source target) (text : String) :
    ∃ written replaced, t.write p.temporary text = .ok written ∧
      written.rename p.temporary p = .ok replaced ∧ replaced.Replaced p source target text := by
  have hsource := ne_nil_of_free h.source_free
  have htarget := ne_nil_of_free h.target_free
  have hwrite : t.write p.temporary text = .ok (t.insert source (.file text.toUTF8)) :=
    write_eq_ok_iff.2 ⟨source, h.source_at, h.source_free, h.temporary_name.2, rfl⟩
  have hkeeps : t.Keeps (t.insert source (.file text.toUTF8)) := keeps_insert h.source_free
  generalize hwritten : t.insert source (.file text.toUTF8) = written at hwrite hkeeps
  have hstands : written.lookup source = some (.file text.toUTF8) := by
    rw [← hwritten, lookup_insert hsource, if_pos rfl]
  have hfree : written.lookup target ≠ some .directory := by
    rw [← hwritten, lookup_insert htarget]
    split
    · simp
    · exact h.target_free
  have hrename : written.rename p.temporary p =
      .ok ((written.erase source).insert target (.file text.toUTF8)) :=
    rename_eq_ok_iff.2 ⟨source, target, _, hkeeps.locate h.source_at, hkeeps.locate h.target_at,
      h.temporary_name, h.name, hstands, hfree, rfl⟩
  have hkeeps' : written.Keeps ((written.erase source).insert target (.file text.toUTF8)) := by
    refine (keeps_erase (by simp [hstands])).trans (keeps_insert ?_)
    rw [lookup_erase htarget]
    split
    · simp
    · exact hfree
  generalize hreplaced : (written.erase source).insert target (.file text.toUTF8) = replaced
    at hrename hkeeps'
  have hheld : replaced.lookup target = some (.file text.toUTF8) := by
    rw [← hreplaced, lookup_insert htarget, if_pos rfl]
  have hgone : source ≠ target → replaced.lookup source = none := by
    intro hne
    rw [← hreplaced, lookup_insert hsource, lookup_erase hsource, if_neg hne, if_pos rfl]
  have hsource' : replaced.lookup source ≠ some .directory := by
    by_cases hsame : source = target
    · simp [hsame, hheld]
    · simp [hgone hsame]
  exact ⟨written, replaced, hwrite, hrename,
    h.of_keeps (hkeeps.trans hkeeps') hsource' (by simp [hheld]), hheld, hgone⟩

end FileTree

end Covering
