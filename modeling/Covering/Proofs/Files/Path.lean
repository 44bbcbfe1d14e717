import Covering.Files.Path
import Mathlib.Data.List.Basic
import Mathlib.Data.List.Induction
import Mathlib.Data.List.TakeWhile

/-!
# Names at the end of a path

A path that ends in a name is what leads to the name, with its slash, and the name: `Path.Ends`. Its
temporary path leads there too, and ends in `stem.tmp` for a name `stem.extension`, or else in `..`,
the directory above: `Path.Ends.temporary`. Whatever a path is, its temporary path asks for a
directory only if it ends in no name: `Path.endsInName_temporary`.
-/

namespace Covering
set_option autoImplicit false

namespace Path

variable {mark : Char} {before after parent name path : List Char} {p : Path}

/-! ## Cutting a text -/

theorem cut_of_notMem (h : mark ∉ path) : cut mark path = (path, none) := by
  induction path with
  | nil => rfl
  | cons c path ih =>
    simp only [List.mem_cons, not_or] at h
    rw [cut, if_neg (Ne.symm h.1), ih h.2]

theorem cut_append (h : mark ∉ before) :
    cut mark (before ++ mark :: after) = (before, some after) := by
  induction before with
  | nil => simp [cut]
  | cons c before ih =>
    simp only [List.mem_cons, not_or] at h
    rw [List.cons_append, cut, if_neg (Ne.symm h.1), ih h.2]

/-! ## The names of a path -/

/-- The names that a text leads through. -/
def namesIn (text : List Char) : List String :=
  ((pieces text).filter (· ≠ [])).map String.ofList

theorem names_eq : p.names = namesIn p.text.toList := rfl

theorem pieces_of_noSlash (h : '/' ∉ name) : pieces name = [name] := by
  induction name with
  | nil => rfl
  | cons c name ih =>
    simp only [List.mem_cons, not_or] at h
    rw [pieces, if_neg (Ne.symm h.1), ih h.2]

theorem pieces_ne_nil (text : List Char) : pieces text ≠ [] := by
  cases text with
  | nil => simp [pieces]
  | cons c text =>
    rw [pieces]
    split
    · simp
    · cases pieces text <;> simp

theorem pieces_append_slash (before after : List Char) :
    pieces (before ++ '/' :: after) = pieces before ++ pieces after := by
  induction before with
  | nil => rfl
  | cons c before ih =>
    rw [List.cons_append, pieces, pieces, ih]
    split
    · rfl
    · cases hbefore : pieces before with
      | nil => exact absurd hbefore (pieces_ne_nil before)
      | cons piece others => rfl

theorem namesIn_append_slash (before after : List Char) :
    namesIn (before ++ '/' :: after) = namesIn before ++ namesIn after := by
  rw [namesIn, pieces_append_slash, List.filter_append, List.map_append]
  rfl

theorem namesIn_of_noSlash (h : '/' ∉ name) (hnonempty : name ≠ []) :
    namesIn name = [String.ofList name] := by
  simp [namesIn, pieces_of_noSlash h, hnonempty]

theorem namesIn_append (hparent : parent = [] ∨ ∃ front, parent = front ++ ['/'])
    (hslash : '/' ∉ name) (hnonempty : name ≠ []) :
    namesIn (parent ++ name) = namesIn parent ++ [String.ofList name] := by
  rcases hparent with rfl | ⟨front, rfl⟩
  · rw [List.nil_append, namesIn_of_noSlash hslash hnonempty]
    rfl
  · rw [List.append_assoc, List.singleton_append, namesIn_append_slash, namesIn_append_slash front,
      namesIn_of_noSlash hslash hnonempty]
    simp [namesIn, pieces]

theorem exists_concat_of_noSlash (hslash : '/' ∉ name) (hnonempty : name ≠ []) :
    ∃ front c, name = front ++ [c] ∧ c ≠ '/' := by
  obtain ⟨front, c, rfl⟩ := List.eq_nil_or_concat' name |>.resolve_left hnonempty
  refine ⟨front, c, rfl, ?_⟩
  rintro rfl
  exact hslash (by simp)

/-- The path `p` is `parent`, which is empty or ends in a slash, and then `name`, which has none. -/
structure Ends (p : Path) (parent name : List Char) : Prop where
  text : p.text.toList = parent ++ name
  slash : parent = [] ∨ ∃ front, parent = front ++ ['/']
  noSlash : '/' ∉ name
  nonempty : name ≠ []

theorem Ends.names (h : p.Ends parent name) :
    p.names = namesIn parent ++ [String.ofList name] := by
  rw [names_eq, h.text, namesIn_append h.slash h.noSlash h.nonempty]

/-- The last name is that of an entry unless it is one of the two that lead elsewhere. -/
theorem Ends.endsInName_iff (h : p.Ends parent name) :
    p.endsInName ↔ name ≠ ['.'] ∧ name ≠ ['.', '.'] := by
  have hlast : p.names.getLast? = some (String.ofList name) := by
    rw [h.names, List.getLast?_concat]
  have hne : ∀ text : String, String.ofList name ≠ text ↔ name ≠ text.toList := by
    intro text
    rw [Ne, ← String.toList_inj, String.toList_ofList]
  rw [endsInName, hlast]
  simp only [Bool.and_eq_true, decide_eq_true_eq, hne]
  exact Iff.rfl

theorem Ends.endsInSlash (h : p.Ends parent name) : p.endsInSlash = false := by
  obtain ⟨front, c, rfl, hc⟩ := exists_concat_of_noSlash h.noSlash h.nonempty
  rw [Path.endsInSlash, h.text]
  simpa [← List.append_assoc] using hc

/-- A path that asks for no directory and whose last name is that of an entry ends in this name. -/
theorem exists_ends (hname : p.endsInName) (hslash : p.endsInSlash = false) :
    ∃ parent name, p.Ends parent name ∧ name ≠ ['.'] ∧ name ≠ ['.', '.'] := by
  have htext := List.takeWhile_append_dropWhile (p := (· ≠ '/')) (l := p.text.toList.reverse)
  rw [← List.reverse_inj, List.reverse_append, List.reverse_reverse] at htext
  have hnoSlash : '/' ∉ (p.text.toList.reverse.takeWhile (· ≠ '/')).reverse := by
    intro h
    simpa using List.mem_takeWhile_imp (List.mem_reverse.1 h)
  have hparent : (p.text.toList.reverse.dropWhile (· ≠ '/')).reverse = [] ∨
      ∃ front, (p.text.toList.reverse.dropWhile (· ≠ '/')).reverse = front ++ ['/'] := by
    cases hdrop : p.text.toList.reverse.dropWhile (· ≠ '/') with
    | nil => exact .inl rfl
    | cons c rest =>
      have hne : p.text.toList.reverse.dropWhile (· ≠ '/') ≠ [] := hdrop ▸ List.cons_ne_nil c rest
      have hc := List.head_dropWhile_not (· ≠ '/') hne
      simp only [hdrop, List.head_cons, decide_eq_false_iff_not, not_not] at hc
      obtain rfl := hc
      exact .inr ⟨rest.reverse, by simp⟩
  generalize (p.text.toList.reverse.takeWhile (· ≠ '/')).reverse = name at htext hnoSlash
  generalize (p.text.toList.reverse.dropWhile (· ≠ '/')).reverse = parent at htext hparent
  have hnonempty : name ≠ [] := by
    rintro rfl
    rw [List.append_nil] at htext
    rcases hparent with rfl | ⟨front, rfl⟩
    · simp [endsInName, names, ← htext, pieces] at hname
    · simp [Path.endsInSlash, ← htext] at hslash
  have hends : p.Ends parent name := ⟨htext.symm, hparent, hnoSlash, hnonempty⟩
  exact ⟨parent, name, hends, hends.endsInName_iff.1 hname⟩

/-! ## The temporary path -/

/-- A name keeps what leads to it. -/
theorem dropIdle_reverse (hslash : '/' ∉ name) (hnonempty : name ≠ []) (hdot : name ≠ ['.']) :
    dropIdle (parent ++ name).reverse = (parent ++ name).reverse := by
  obtain ⟨front, c, rfl, hc⟩ := exists_concat_of_noSlash hslash hnonempty
  rw [List.reverse_append, List.reverse_append, List.reverse_singleton, List.singleton_append,
    List.cons_append]
  unfold dropIdle
  split
  · next heq => exact absurd (List.cons.inj heq).1 hc
  · next heq =>
    exfalso
    obtain ⟨rfl, hrest⟩ := List.cons.inj heq
    rcases List.eq_nil_or_concat' front with rfl | ⟨front, d, rfl⟩
    · exact hdot rfl
    · obtain rfl : d = '/' := by simpa using (List.cons.inj (by simpa using hrest)).1
      exact hslash (by simp)
  · rfl

/-- A path that ends in a name is split before it. -/
theorem splitName?_append (hparent : parent = [] ∨ ∃ front, parent = front ++ ['/'])
    (hslash : '/' ∉ name) (hnonempty : name ≠ []) (hdot : name ≠ ['.']) :
    splitName? (parent ++ name) = (parent, if name = ['.', '.'] then none else some name) := by
  have hback : '/' ∉ name.reverse := by simpa using hslash
  rw [splitName?, dropIdle_reverse hslash hnonempty hdot, List.reverse_append]
  rcases hparent with rfl | ⟨front, rfl⟩
  · rw [List.reverse_nil, List.append_nil, cut_of_notMem hback]
    simp [hnonempty, hdot]
  · rw [List.reverse_append, List.reverse_singleton, List.singleton_append, cut_append hback]
    simp [hnonempty, hdot]

theorem splitName?_concat_slash (path : List Char) : splitName? (path ++ ['/']) = splitName? path := by
  rw [splitName?, splitName?, List.reverse_append, List.reverse_singleton, List.singleton_append,
    dropIdle]

/-- A path whose last name is that of an entry has a file name, also with slashes after it. -/
theorem exists_splitName? (h : (Path.mk (String.ofList path)).endsInName) :
    ∃ parent name, splitName? path = (parent, some name) := by
  induction path using List.reverseRecOn with
  | nil => simp [endsInName, names, pieces] at h
  | append_singleton path c ih =>
    by_cases hc : c = '/'
    · subst hc
      have hnames : (Path.mk (String.ofList (path ++ ['/']))).names =
          (Path.mk (String.ofList path)).names := by
        rw [names_eq, names_eq, String.toList_ofList, String.toList_ofList, namesIn_append_slash]
        exact List.append_nil _
      rw [splitName?_concat_slash]
      apply ih
      rwa [endsInName, hnames] at h
    · have hslash : (Path.mk (String.ofList (path ++ [c]))).endsInSlash = false := by
        simpa [endsInSlash] using hc
      obtain ⟨parent, name, hends, hdot, hdots⟩ := exists_ends h hslash
      have htext := hends.text
      rw [String.toList_ofList] at htext
      refine ⟨parent, name, ?_⟩
      rw [htext, splitName?_append hends.slash hends.noSlash hends.nonempty hdot, if_neg hdots]

/-- A name has no extension, or it is a stem, a dot and the extension. -/
theorem splitExtension_cases (name : List Char) : splitExtension name = (name, none) ∨
    ∃ stem extension, name = stem ++ '.' :: extension ∧ stem ≠ [] ∧ '.' ∉ extension ∧
      splitExtension name = (stem, some extension) := by
  by_cases hdot : '.' ∈ name.reverse
  · obtain ⟨back, front, hname, hback⟩ := List.eq_append_cons_of_mem hdot
    have hcut : cut '.' name.reverse = (back, some front) := by rw [hname, cut_append hback]
    cases front with
    | nil =>
      left
      rw [splitExtension, hcut]
    | cons c front =>
      refine .inr ⟨(c :: front).reverse, back.reverse, ?_, by simp, by simpa using hback,
        by rw [splitExtension, hcut]⟩
      rw [← List.reverse_inj, hname]
      simp
  · left
    rw [splitExtension, cut_of_notMem hdot]

theorem splitExtension_append {stem extension : List Char} (hstem : stem ≠ [])
    (hextension : '.' ∉ extension) :
    splitExtension (stem ++ '.' :: extension) = (stem, some extension) := by
  obtain ⟨front, c, rfl⟩ := List.eq_nil_or_concat' stem |>.resolve_left hstem
  have hback : '.' ∉ extension.reverse := by simpa using hextension
  simp [splitExtension, cut_append hback]

theorem shorten_of_none (hsplit : splitName? path = (parent, some name))
    (hname : splitExtension name = (name, none)) : shorten path = path := by
  simp [shorten, hsplit, hname]

/-- Without its extension a path still has the dot before it. -/
theorem shorten_of_some {stem extension : List Char}
    (hsplit : splitName? (parent ++ (stem ++ '.' :: extension)) =
      (parent, some (stem ++ '.' :: extension)))
    (hname : splitExtension (stem ++ '.' :: extension) = (stem, some extension)) :
    shorten (parent ++ (stem ++ '.' :: extension)) = parent ++ (stem ++ ['.']) := by
  have hsame : parent ++ (stem ++ '.' :: extension) = parent ++ (stem ++ ['.']) ++ extension := by
    simp
  rw [shorten, hsplit]
  simp only [hname]
  rw [hsame, List.length_append, Nat.add_sub_cancel, List.take_left]

theorem withTmp_of_split (hsplit : splitName? path = (parent, some name)) :
    withTmp path = parent ++ ((splitExtension name).1 ++ ".tmp".toList) := by
  rw [withTmp, hsplit]
  exact List.append_assoc ..

/-- The temporary path leads to where the path leads, and ends in a name unless nothing but a dot is
left of the name without its extension. -/
theorem Ends.temporary (h : p.Ends parent name) (hdot : name ≠ ['.']) (hdots : name ≠ ['.', '.']) :
    ∃ other, p.temporary.Ends parent other ∧
      (other = ['.', '.'] ∨ ∃ stem, other = stem ++ ".tmp".toList) := by
  have hsplit : splitName? (parent ++ name) = (parent, some name) := by
    rw [splitName?_append h.slash h.noSlash h.nonempty hdot, if_neg hdots]
  have htext : p.temporary.text.toList = withTmp (shorten (parent ++ name)) := by
    rw [Path.temporary, String.toList_ofList, h.text]
  have hstem : ∀ stem : List Char, '/' ∉ stem →
      p.temporary.text.toList = parent ++ (stem ++ ".tmp".toList) →
      p.temporary.Ends parent (stem ++ ".tmp".toList) := by
    intro stem hslash htext
    exact ⟨htext, h.slash, by simp [hslash], by simp⟩
  rcases splitExtension_cases name with hname | ⟨stem, extension, rfl, hstemne, -, hextension⟩
  · refine ⟨_, hstem name h.noSlash ?_, .inr ⟨name, rfl⟩⟩
    rw [htext, shorten_of_none hsplit hname, withTmp_of_split hsplit, hname]
  · have hslash : '/' ∉ stem := fun hmem => h.noSlash (by simp [hmem])
    have hrest : splitName? (parent ++ (stem ++ ['.'])) =
        (parent, if stem ++ ['.'] = ['.', '.'] then none else some (stem ++ ['.'])) :=
      splitName?_append h.slash (by simp [hslash]) (by simp) (by simp [hstemne])
    rw [shorten_of_some hsplit hextension] at htext
    by_cases hlone : stem = ['.']
    · subst hlone
      refine ⟨_, ⟨?_, h.slash, by decide, by decide⟩, .inl rfl⟩
      rw [htext, withTmp, hrest]
      rfl
    · refine ⟨_, hstem stem hslash ?_, .inr ⟨stem, rfl⟩⟩
      have hne : stem ++ ['.'] ≠ ['.', '.'] := fun e => hlone (List.append_inj_left' e rfl)
      rw [if_neg hne] at hrest
      rw [htext, withTmp_of_split hrest, splitExtension_append hstemne List.not_mem_nil]

/-- A temporary path that ends in a slash has no file name before it. -/
theorem endsInName_temporary (h : p.temporary.endsInSlash) : p.temporary.endsInName = false := by
  by_contra hname
  rw [Bool.not_eq_false] at hname
  obtain ⟨text, htext⟩ : ∃ text, p.temporary = ⟨String.ofList (withTmp text)⟩ := ⟨_, rfl⟩
  rw [htext] at h hname
  cases hsplit : splitName? text with
  | mk parent split =>
    cases split with
    | none =>
      have hsame : withTmp text = text := by simp [withTmp, hsplit]
      rw [hsame] at hname
      obtain ⟨_, _, hsome⟩ := exists_splitName? hname
      simp [hsome] at hsplit
    | some name =>
      rw [withTmp_of_split hsplit] at h
      simp [endsInSlash] at h

end Path

end Covering
