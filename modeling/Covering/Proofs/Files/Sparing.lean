import Covering.Proofs.Files.Replacing

/-!
# A text that cannot be put in the place of a file

If a text cannot be written to the temporary path, or what is written there cannot be renamed to the
file, and what was written is then removed, everything but the temporary path is spared:
`FileTree.Spared`. No file is left there, because a temporary path that leads to a file can be
written to. If both steps succeed, the file could be replaced, and nothing but the two paths is
changed: `FileTree.replaceable_of_rename`, `FileTree.lookup_of_rename`.
-/

namespace Covering
set_option autoImplicit false

namespace FileTree

variable {t t' written : FileTree} {p : Path} {here location other source target : Location}
  {bytes : ByteArray} {names rest : List String} {text : String} {e : FileError}

/-! ## What a change leaves -/

theorem lookup_insert_of_ne {entry : Entry} (h : other ≠ location) :
    (t.insert location entry).lookup other = t.lookup other := by
  by_cases hroot : other = []
  · rw [hroot, lookup, lookup]
  · rw [lookup_insert hroot, if_neg h]

theorem lookup_erase_of_ne (h : other ≠ location) :
    (t.erase location).lookup other = t.lookup other := by
  by_cases hroot : other = []
  · rw [hroot, lookup, lookup]
  · rw [lookup_erase hroot, if_neg h]

/-- A file that is put somewhere makes no directory. -/
theorem keeps_of_insert : (t.insert location (.file bytes)).Keeps t := by
  intro other hother
  by_cases hsame : other = location
  · subst hsame
    by_cases hroot : other = []
    · rw [hroot, lookup]
    · simp [lookup_insert hroot] at hother
  · rwa [lookup_insert_of_ne hsame] at hother

theorem keeps_of_erase : (t.erase location).Keeps t := by
  intro other hother
  by_cases hroot : other = []
  · rw [hroot, lookup]
  · rw [lookup_erase hroot] at hother
    split at hother
    · cases hother
    · exact hother

/-! ## Paths that end in no name -/

theorem walk_append : t.walk here (names ++ rest) = (t.walk here names).bind (t.walk · rest) := by
  induction names generalizing here with
  | nil => rfl
  | cons name names ih =>
    rw [List.cons_append, walk, walk]
    split
    · split_ifs <;> first | exact ih | rfl
    · rfl
    · rfl

/-- A path whose last name is not that of an entry leads to a directory. -/
theorem lookup_of_endsInName (hp : t.locate p = .ok location) (h : p.endsInName = false) :
    t.lookup location = some .directory := by
  have hwalk := walk_of_locate hp
  rcases List.eq_nil_or_concat' p.names with hnames | ⟨front, name, hnames⟩
  · rw [hnames] at hwalk
    obtain rfl : [] = location := Except.ok.inj hwalk
    rfl
  · rw [hnames] at hwalk
    have hname : name = "." ∨ name = ".." := by
      simp only [Path.endsInName, hnames, List.getLast?_concat] at h
      by_cases hdot : name = "."
      · exact .inl hdot
      · exact .inr (by simpa [hdot] using h)
    rcases hname with rfl | rfl
    · rw [walk_append] at hwalk
      cases hmid : t.walk [] front with
      | error e => simp [hmid, Except.bind] at hwalk
      | ok mid =>
        simp only [hmid, Except.bind, walk] at hwalk
        split at hwalk
        · next hdirectory =>
          obtain rfl : mid = location := by simpa using hwalk
          exact hdirectory
        · cases hwalk
        · cases hwalk
    · exact walk_up (by simp) hwalk

/-- Where a temporary path cannot be written to there is no file. -/
theorem no_file_of_write (hwrite : t.write p.temporary text = .error e)
    (hp : t.locate p.temporary = .ok location) : t.lookup location ≠ some (.file bytes) := by
  intro hfile
  have hfree : t.lookup location ≠ some .directory := by simp [hfile]
  cases hslash : p.temporary.endsInSlash with
  | false => cases hwrite.symm.trans (write_eq_ok_iff.2 ⟨location, hp, hfree, hslash, rfl⟩)
  | true => exact hfree (lookup_of_endsInName hp (Path.endsInName_temporary hslash))

/-! ## Failure and success -/

/-- All but the temporary path of `p` is as it was, no file is there, and nothing is new. -/
structure Spared (t t' : FileTree) (p : Path) : Prop where
  elsewhere : ∀ location, t.locate p.temporary ≠ .ok location →
    t'.lookup location = t.lookup location
  no_file : ∀ location bytes, t'.locate p.temporary = .ok location →
    t'.lookup location ≠ some (.file bytes)
  nothing_new : ∀ location, t.lookup location = none → t'.lookup location = none

/-- A temporary path that cannot be written to cannot be removed. -/
theorem spared_of_write (hwrite : t.write p.temporary text = .error e) :
    t.Spared t p ∧ ∃ e, t.remove p.temporary = .error e := by
  refine ⟨⟨fun _ _ => rfl, fun _ _ => no_file_of_write hwrite, fun _ h => h⟩, ?_⟩
  cases hremove : t.remove p.temporary with
  | error e => exact ⟨e, rfl⟩
  | ok removed =>
    obtain ⟨location, bytes, hp, hfile, -⟩ := remove_eq_ok_iff.1 hremove
    exact absurd hfile (no_file_of_write hwrite hp)

/-- What was written to a temporary path can be removed. -/
theorem spared_of_remove (hwrite : t.write p.temporary text = .ok written) :
    ∃ removed, written.remove p.temporary = .ok removed ∧ t.Spared removed p := by
  obtain ⟨source, hp, hfree, hslash, rfl⟩ := write_eq_ok_iff.1 hwrite
  have hsource := ne_nil_of_free hfree
  have hkeeps : t.Keeps (t.insert source (.file text.toUTF8)) := keeps_insert hfree
  have hstands : (t.insert source (.file text.toUTF8)).lookup source =
      some (.file text.toUTF8) := by rw [lookup_insert hsource, if_pos rfl]
  refine ⟨_, remove_eq_ok_iff.2 ⟨source, _, hkeeps.locate hp, hstands, hslash, rfl⟩, ?_, ?_, ?_⟩
  · intro location hne
    have hother : location ≠ source := by
      rintro rfl
      exact hne hp
    rw [lookup_erase_of_ne hother, lookup_insert_of_ne hother]
  · intro location bytes hlocate
    have hsame := (keeps_of_erase.trans keeps_of_insert).locate hlocate
    obtain rfl : source = location := Except.ok.inj (hp.symm.trans hsame)
    simp [lookup_erase hsource]
  · intro location hnone
    by_cases hsame : location = source
    · rw [hsame, lookup_erase hsource, if_pos rfl]
    · rwa [lookup_erase_of_ne hsame, lookup_insert_of_ne hsame]

/-- A file in whose place a text was put can be replaced. -/
theorem replaceable_of_rename (hwrite : t.write p.temporary text = .ok written)
    (hrename : written.rename p.temporary p = .ok t') :
    ∃ source target, t.Replaceable p source target := by
  obtain ⟨source, hp, hfree, -, rfl⟩ := write_eq_ok_iff.1 hwrite
  obtain ⟨source', target, bytes, hp', htarget, hname, hname', -, hfree', -⟩ :=
    rename_eq_ok_iff.1 hrename
  exact ⟨source, target, hp, keeps_of_insert.locate htarget, hfree,
    fun h => hfree' (keeps_insert hfree _ h), hname, hname'⟩

/-- Nothing is changed but where the two paths lead. -/
theorem lookup_of_rename (hwrite : t.write p.temporary text = .ok written)
    (hrename : written.rename p.temporary p = .ok t') (hsource : t.locate p.temporary ≠ .ok location)
    (htarget : t.locate p ≠ .ok location) : t'.lookup location = t.lookup location := by
  obtain ⟨source, hp, hfree, -, rfl⟩ := write_eq_ok_iff.1 hwrite
  obtain ⟨source', target, bytes, hsource', htarget', -, -, -, -, rfl⟩ :=
    rename_eq_ok_iff.1 hrename
  have hne : location ≠ source := by
    rintro rfl
    exact hsource hp
  have hne' : location ≠ source' := by
    rintro rfl
    exact hsource (keeps_of_insert.locate hsource')
  have hne'' : location ≠ target := by
    rintro rfl
    exact htarget (keeps_of_insert.locate htarget')
  rw [lookup_insert_of_ne hne'', lookup_erase_of_ne hne', lookup_insert_of_ne hne]

end FileTree

end Covering
