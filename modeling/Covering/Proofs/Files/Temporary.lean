import Covering.Proofs.Files.Path
import Covering.Proofs.Files.Sparing

/-!
# Where the temporary path lies

The names of a temporary path begin the names of the path itself, or the temporary path leads to a
place beside the one where the path leads: `Path.temporary_names`. In the first case a file at the
temporary path is the file at the path or stands in the way to it; in the second, whatever happens
at the temporary path cannot be seen from the path: `FileTree.read_of_beside`.
-/

namespace Covering
set_option autoImplicit false

namespace Path

variable {mark : Char} {parent name idle path : List Char} {p : Path}

/-! ## What follows the file name -/

/-- Slashes and names `.` behind a file name. -/
inductive Idle : List Char → Prop
  | nil : Idle []
  | slash {idle : List Char} (h : Idle idle) : Idle (idle ++ ['/'])
  | dot {idle : List Char} (h : Idle idle) : Idle (idle ++ ['/', '.'])

theorem Idle.of_prefix (h : Idle idle) {front : List Char} (hfront : front <+: idle) :
    Idle front := by
  induction h with
  | nil =>
    rw [List.prefix_nil.1 hfront]
    exact .nil
  | slash h ih =>
    rcases List.prefix_concat_iff.1 hfront with rfl | hfront
    · exact .slash h
    · exact ih hfront
  | @dot idle h ih =>
    rw [show idle ++ ['/', '.'] = idle ++ ['/'] ++ ['.'] by simp] at hfront
    rcases List.prefix_concat_iff.1 hfront with rfl | hfront
    · rw [List.append_assoc]
      exact .dot h
    · rcases List.prefix_concat_iff.1 hfront with rfl | hfront
      · exact .slash h
      · exact ih hfront

/-- It adds nothing to the names but the name `.`. -/
theorem Idle.namesIn (h : Idle idle) (text : List Char) :
    ∃ dots, namesIn (text ++ idle) = Path.namesIn text ++ dots ∧ ∀ dot ∈ dots, dot = "." := by
  induction h with
  | nil => exact ⟨[], by simp, by simp⟩
  | slash h ih =>
    obtain ⟨dots, hnames, hdots⟩ := ih
    refine ⟨dots, ?_, hdots⟩
    rw [← List.append_assoc, namesIn_append_slash, hnames]
    simp [Path.namesIn, pieces]
  | dot h ih =>
    obtain ⟨dots, hnames, hdots⟩ := ih
    refine ⟨dots ++ ["."], ?_, ?_⟩
    · rw [← List.append_assoc, namesIn_append_slash, hnames, List.append_assoc]
      rfl
    · simpa [or_imp, forall_and] using hdots

/-- It does not matter to the file name. -/
theorem Idle.splitName? (h : Idle idle) (text : List Char) :
    splitName? (text ++ idle) = Path.splitName? text := by
  induction h with
  | nil => rw [List.append_nil]
  | slash h ih => rw [← List.append_assoc, splitName?_concat_slash, ih]
  | @dot idle h ih =>
    have hdot : ∀ path : List Char,
        Path.splitName? (path ++ ['/', '.']) = Path.splitName? path := by
      intro path
      simp [Path.splitName?, dropIdle]
    rw [← List.append_assoc, hdot, ih]

theorem dropIdle_spec (backward : List Char) :
    ∃ idle, Idle idle ∧ backward.reverse = (dropIdle backward).reverse ++ idle := by
  induction hlength : backward.length using Nat.strongRecOn generalizing backward with
  | ind n ih =>
    subst hlength
    unfold dropIdle
    split
    · next rest =>
      obtain ⟨idle, hidle, hrest⟩ := ih rest.length (by simp) rest rfl
      exact ⟨_, .slash hidle, by rw [List.reverse_cons, hrest, List.append_assoc]⟩
    · next rest =>
      have hlt : rest.length < rest.length + 2 := Nat.lt_add_of_pos_right (by decide)
      obtain ⟨idle, hidle, hrest⟩ := ih rest.length hlt rest rfl
      refine ⟨_, .dot hidle, ?_⟩
      rw [List.reverse_cons, List.reverse_cons, hrest, dropIdle]
      simp
    · exact ⟨[], .nil, by simp⟩

theorem cut_spec (mark : Char) (text : List Char) : match cut mark text with
    | (before, some after) => mark ∉ before ∧ text = before ++ mark :: after
    | (before, none) => mark ∉ before ∧ text = before := by
  by_cases h : mark ∈ text
  · obtain ⟨before, after, rfl, hbefore⟩ := List.eq_append_cons_of_mem h
    rw [cut_append hbefore]
    exact ⟨hbefore, rfl⟩
  · rw [cut_of_notMem h]
    exact ⟨h, rfl⟩

/-- A path with a file name is what leads to it, the file name, and what follows it. -/
theorem splitName?_eq_some (h : splitName? path = (parent, some name)) : ∃ idle, Idle idle ∧
    path = parent ++ name ++ idle ∧ (parent = [] ∨ ∃ front, parent = front ++ ['/']) ∧
      '/' ∉ name ∧ name ≠ [] ∧ name ≠ ['.'] ∧ name ≠ ['.', '.'] := by
  obtain ⟨idle, hidle, hpath⟩ := dropIdle_spec path.reverse
  rw [List.reverse_reverse] at hpath
  have hcut := cut_spec '/' (dropIdle path.reverse)
  rw [splitName?] at h
  generalize cut '/' (dropIdle path.reverse) = given at h hcut
  obtain ⟨backward, before⟩ := given
  simp only [Prod.mk.injEq, Option.ite_none_left_eq_some, Option.some.injEq, Bool.or_eq_true,
    decide_eq_true_eq, not_or] at h
  obtain ⟨hparent, ⟨⟨hnonempty, hdot⟩, hdots⟩, rfl⟩ := h
  refine ⟨idle, hidle, ?_, ?_, ?_, hnonempty, hdot, hdots⟩
  · rw [hpath]
    cases before with
    | none => simp [← hparent, hcut.2]
    | some before => simp [← hparent, hcut.2]
  · cases before with
    | none => exact .inl hparent.symm
    | some before => exact .inr ⟨_, hparent.symm⟩
  · cases before <;> simpa using hcut.1

theorem splitName?_of_idle (hparent : parent = [] ∨ ∃ front, parent = front ++ ['/'])
    (hslash : '/' ∉ name) (hnonempty : name ≠ []) (hdot : name ≠ ['.']) (hidle : Idle idle) :
    splitName? (parent ++ name ++ idle) =
      (parent, if name = ['.', '.'] then none else some name) := by
  rw [hidle.splitName?, splitName?_append hparent hslash hnonempty hdot]

/-! ## The temporary path -/

/-- As many characters as the extension has come off the end of the path: those that follow the
file name, and of the extension what they do not make up for. -/
theorem shorten_of_splitName? {stem extension : List Char}
    (hsplit : splitName? path = (parent, some (stem ++ '.' :: extension)))
    (hname : splitExtension (stem ++ '.' :: extension) = (stem, some extension)) :
    ∃ rest idle, shorten path = parent ++ (stem ++ '.' :: rest) ++ idle ∧ Idle idle ∧
      rest <+: extension ∧ (rest = extension ∨ idle = []) := by
  obtain ⟨idle, hidle, hpath, -⟩ := splitName?_eq_some hsplit
  have hshorten : shorten path = path.take (path.length - extension.length) := by
    simp [shorten, hsplit, hname]
  by_cases hle : extension.length ≤ idle.length
  · refine ⟨extension, idle.take (idle.length - extension.length), ?_,
      hidle.of_prefix (List.take_prefix ..), List.prefix_rfl, .inl rfl⟩
    rw [hshorten, hpath, List.length_append, Nat.add_sub_assoc hle, List.take_length_add_append]
  · refine ⟨extension.take idle.length, [], ?_, .nil, List.take_prefix .., .inr rfl⟩
    have hsame : path = parent ++ (stem ++ ['.']) ++ (extension ++ idle) := by simp [hpath]
    have hlength : path.length - extension.length =
        (parent ++ (stem ++ ['.'])).length + idle.length := by
      rw [hsame]
      simp only [List.length_append]
      omega
    rw [hshorten, hlength, hsame, List.take_length_add_append,
      List.take_append_of_le_length (Nat.le_of_not_le hle)]
    simp

/-- The temporary path of a path with a file name leads where the path leads up to this name. -/
theorem withTmp_shorten (hsplit : splitName? path = (parent, some name)) :
    ∃ other, withTmp (shorten path) = parent ++ other ∧ '/' ∉ other ∧ other ≠ [] := by
  obtain ⟨-, -, -, hparent, hslash, -, -, hdots⟩ := splitName?_eq_some hsplit
  rcases splitExtension_cases name with hname | ⟨stem, extension, rfl, hstem, hdot, hname⟩
  · refine ⟨name ++ ".tmp".toList, ?_, by simp [hslash], by simp⟩
    rw [shorten_of_none hsplit hname, withTmp_of_split hsplit, hname]
  · obtain ⟨rest, idle, hshorten, hidle, hrest, hwhole⟩ := shorten_of_splitName? hsplit hname
    have hstem' : '/' ∉ stem := fun hmem => hslash (List.mem_append_left _ hmem)
    have hslash' : '/' ∉ stem ++ '.' :: rest := fun hmem => by
      rcases List.mem_append.1 hmem with hmem | hmem
      · exact hstem' hmem
      · exact hslash (List.mem_append_right _
          ((List.prefix_cons_inj '.').2 hrest |>.subset hmem))
    have hlone : stem ++ '.' :: rest ≠ ['.'] := by simp [List.append_eq_singleton_iff, hstem]
    have hsplit' := splitName?_of_idle hparent hslash' (by simp) hlone hidle
    rw [← hshorten] at hsplit'
    -- A path that ends in `..`, all that may be left of the name, gets no extension.
    by_cases hdots' : stem ++ '.' :: rest = ['.', '.']
    · obtain rfl : idle = [] := hwhole.resolve_left fun e => hdots (e ▸ hdots')
      refine ⟨['.', '.'], ?_, by simp, by simp⟩
      rw [if_pos hdots'] at hsplit'
      have hkept : withTmp (shorten path) = shorten path := by simp [withTmp, hsplit']
      rw [hkept, hshorten, hdots', List.append_nil]
    · rw [if_neg hdots'] at hsplit'
      have hname' := splitExtension_append hstem fun hmem => hdot (hrest.subset hmem)
      refine ⟨stem ++ ".tmp".toList, ?_, by simp [hstem'], by simp⟩
      rw [withTmp_of_split hsplit', hname']

/-- The names of the temporary path begin those of the path, or the two paths part at the file
name. -/
theorem temporary_names (p : Path) : p.temporary.names <+: p.names ∨
    ∃ front name dots other, p.names = front ++ name :: dots ∧ (∀ dot ∈ dots, dot = ".") ∧
      p.temporary.names = front ++ [other] ∧ other ≠ name ∧ name ≠ "." ∧ name ≠ ".." := by
  have htemporary : p.temporary.names = namesIn (withTmp (shorten p.text.toList)) := by
    rw [names_eq, temporary, String.toList_ofList]
  rw [htemporary, names_eq]
  cases hsplit : splitName? p.text.toList with
  | mk parent split =>
  cases split with
  | none =>
    have hsame : shorten p.text.toList = p.text.toList := by simp [shorten, hsplit]
    have hkept : withTmp p.text.toList = p.text.toList := by simp [withTmp, hsplit]
    rw [hsame, hkept]
    exact .inl List.prefix_rfl
  | some name =>
    obtain ⟨idle, hidle, hpath, hparent, hslash, hnonempty, hdot, hdots⟩ :=
      splitName?_eq_some hsplit
    obtain ⟨other, hother, hslash', hnonempty'⟩ := withTmp_shorten hsplit
    obtain ⟨dots, hnames, hall⟩ := hidle.namesIn (parent ++ name)
    rw [hother, hpath, hnames, namesIn_append hparent hslash hnonempty,
      namesIn_append hparent hslash' hnonempty', List.append_assoc]
    by_cases hsame : other = name
    · exact .inl (by simp [hsame])
    · refine .inr ⟨_, _, dots, _, rfl, hall, rfl, ?_, ?_, ?_⟩
      all_goals
        rw [Ne, ← String.toList_inj, String.toList_ofList]
        rwa [String.toList_ofList]

end Path

namespace FileTree

variable {t t' : FileTree} {p : Path} {here source : Location} {dots front : List String}
  {bytes : ByteArray}

/-- Names `.` lead nowhere else, and look only at where they begin. -/
theorem walk_dots (hdots : ∀ dot ∈ dots, dot = ".") (hsame : t'.lookup here = t.lookup here) :
    t'.walk here dots = t.walk here dots ∧
      ∀ location, t.walk here dots = .ok location → location = here := by
  induction dots with
  | nil => exact ⟨rfl, fun location h => (Except.ok.inj h).symm⟩
  | cons dot dots ih =>
    obtain ⟨rfl, hrest⟩ := List.forall_mem_cons.1 hdots
    rw [walk, walk, hsame]
    split
    · exact ih hrest
    · exact ⟨rfl, fun _ h => by cases h⟩
    · exact ⟨rfl, fun _ h => by cases h⟩

/-- Where two names lead from a directory, the second of them no entry that changes. -/
theorem walk_beside {name : String} {changed : Location} (hdots : ∀ dot ∈ dots, dot = ".")
    (hname : name ≠ "." ∧ name ≠ "..") (hhere : t.lookup here = some .directory)
    (hhere' : t'.lookup here = some .directory) (hne : here ++ [name] ≠ changed)
    (hsame : ∀ location ≠ changed, t'.lookup location = t.lookup location) :
    t'.walk here (name :: dots) = t.walk here (name :: dots) ∧
      ∀ location, t.walk here (name :: dots) = .ok location → location ≠ changed := by
  obtain ⟨hwalk, hthere⟩ := walk_dots hdots (hsame _ hne)
  simp only [walk, hhere, hhere', if_neg hname.1, if_neg hname.2]
  split
  · exact ⟨rfl, fun _ h => by cases h⟩
  · exact ⟨hwalk, fun location h => hthere location h ▸ hne⟩

/-- A path whose way the temporary path does not share to the end is read without a look at what is
there, as long as that is no directory. -/
theorem read_of_beside (hbeside : ¬p.temporary.names <+: p.names)
    (hsource : t.locate p.temporary = .ok source) (hfree : t.lookup source ≠ some .directory)
    (hsame : ∀ location ≠ source, t'.lookup location = t.lookup location) :
    t'.read p = t.read p := by
  obtain ⟨front, name, dots, other, hnames, hdots, htemporary, hother, hname⟩ :=
    (Path.temporary_names p).resolve_left hbeside
  have hkeeps : t.Keeps t' := fun location hlocation => by
    rw [hsame location fun e => hfree (e ▸ hlocation), hlocation]
  -- The temporary path ends in a name, so both paths lead through the same directory.
  have hends : other ≠ "." ∧ other ≠ ".." := by
    have hentry : p.temporary.endsInName := by
      by_contra hentry
      exact hfree (lookup_of_endsInName hsource (by simpa using hentry))
    simpa [Path.endsInName, htemporary] using hentry
  obtain ⟨here, hhere, hdirectory, rfl⟩ : ∃ here, t.walk [] front = .ok here ∧
      t.lookup here = some .directory ∧ source = here ++ [other] := by
    have hwalk := walk_of_locate hsource
    rw [htemporary, walk_append] at hwalk
    cases hhere : t.walk [] front with
    | error e => simp [hhere, Except.bind] at hwalk
    | ok here =>
      simp only [hhere, Except.bind, walk, if_neg hends.1, if_neg hends.2] at hwalk
      split at hwalk
      · next hdirectory =>
        split at hwalk
        · cases hwalk
        · exact ⟨here, rfl, hdirectory, (Except.ok.inj hwalk).symm⟩
      · cases hwalk
      · cases hwalk
  have hne : here ++ [name] ≠ here ++ [other] := by simpa using Ne.symm hother
  obtain ⟨hwalk, hthere⟩ :=
    walk_beside hdots hname hdirectory (hkeeps _ hdirectory) hne hsame
  have hlocate : t'.locate p = t.locate p ∧
      ∀ location, t.locate p = .ok location → location ≠ here ++ [other] := by
    have hwalk' : t.walk [] p.names = t.walk here (name :: dots) := by
      rw [hnames, walk_append, hhere]
      rfl
    have hwalk'' : t'.walk [] p.names = t'.walk here (name :: dots) := by
      rw [hnames, walk_append, hkeeps.walk hhere]
      rfl
    refine ⟨?_, fun location h => hthere location (hwalk' ▸ walk_of_locate h)⟩
    rw [locate, locate, hwalk', hwalk'', hwalk]
  rw [read, read, fileAt, fileAt, hlocate.1]
  cases hp : t.locate p with
  | error e => rfl
  | ok location =>
    have hlookup := hsame location (hlocate.2 location hp)
    simp only [bind, Except.bind, hlookup]

/-- A path that leads to a text or to nothing has names that can be followed. -/
theorem locate_eq_walk (hp : p.text.isEmpty = false)
    (hread : (∃ text, t.read p = .ok text) ∨ t.read p = .error .notFound) (t' : FileTree) :
    t'.locate p = t'.walk [] p.names := by
  have hrefused : ∀ e, e ≠ .notFound → t.locate p ≠ .error e := by
    intro e he hlocate
    rw [read, fileAt, hlocate] at hread
    simp only [bind, Except.bind] at hread
    rcases hread with ⟨text, hread⟩ | hread
    · cases hread
    · exact he (Except.error.inj hread)
  unfold locate at hrefused ⊢
  split_ifs at hrefused ⊢ with hnul hempty hlong
  · exact absurd rfl (hrefused _ (by simp))
  · simp [hempty] at hp
  · exact absurd rfl (hrefused _ (by simp))
  · rfl

/-- If the temporary path shares the whole way of a path, a file that is put there is read at the
path, or bars the way. -/
theorem read_of_in_the_way (hway : p.temporary.names <+: p.names)
    (hsource : t.locate p.temporary = .ok source) (hfree : t.lookup source ≠ some .directory)
    (hread : (∃ text, t.read p = .ok text) ∨ t.read p = .error .notFound) (text : String) :
    (t.insert source (.file text.toUTF8)).read p = .ok text ∨
      (t.insert source (.file text.toUTF8)).read p = .error .notDirectory := by
  obtain ⟨rest, hrest⟩ := hway
  have hroot := ne_nil_of_free hfree
  have hp : p.text.isEmpty = false := by
    by_contra hp
    have hnil : p.names = [] := by
      have hempty : p.text = "" := by simpa using hp
      rw [Path.names_eq, hempty]
      rfl
    rw [hnil, List.append_eq_nil_iff] at hrest
    have hwalk := walk_of_locate hsource
    rw [hrest.1] at hwalk
    exact hroot (Except.ok.inj hwalk).symm
  have hthere : (t.insert source (.file text.toUTF8)).lookup source =
      some (.file text.toUTF8) := by rw [lookup_insert hroot, if_pos rfl]
  have hlocate := locate_eq_walk hp hread (t.insert source (.file text.toUTF8))
  rw [← hrest, walk_append, walk_of_locate ((keeps_insert hfree).locate hsource)] at hlocate
  cases rest with
  | nil =>
    simp only [Except.bind, walk] at hlocate
    cases hslash : p.endsInSlash with
    | false => exact .inl (read_of_lookup hlocate hslash hthere)
    | true =>
      right
      simp only [read, fileAt, hlocate, bind, Except.bind, hthere, hslash, if_true]
      rfl
  | cons name rest =>
    simp only [Except.bind, walk, hthere] at hlocate
    right
    simp only [read, fileAt, hlocate, bind, Except.bind]

end FileTree

end Covering
