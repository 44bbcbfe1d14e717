import Covering.Proofs.Checkpoint.Format
import Covering.Proofs.Json.Spelling

/-!
# What reads as a checkpoint

`Checkpoint.Describes` says which JSON values describe a checkpoint, and which one: an object with
the fields among its members, or an array of the fields in order. However such a value is spelt,
with its members in whatever order, it is read as that checkpoint, and no other value is read as
one: `Checkpoint.read_iff_describes`.
-/

namespace Covering
set_option autoImplicit false

open Json (Text Value)

/-! ## Fields -/

namespace Json

variable {name : String} {members members' : List (Text × Value)} {value v v' : Value}
  {field : Option Value} {s : String} {b : Bool} {w : UInt64}

/-- What an object holds under a name: one value, or nothing. -/
inductive Field (name : String) : List (Text × Value) → Option Value → Prop
  | one {before after : List (Text × Value)} (value : Value)
      (others : ∀ m ∈ before ++ after, m.1 ≠ some name) :
    Field name (before ++ (some name, value) :: after) (some value)
  | missing {members : List (Text × Value)} (others : ∀ m ∈ members, m.1 ≠ some name) :
    Field name members none

theorem Field.mem (h : Field name members (some value)) : (some name, value) ∈ members := by
  cases h with
  | one => simp

/-- The members of other names are passed over. -/
theorem filter_key_eq_nil_iff :
    members.filter (·.1 == some name) = [] ↔ ∀ m ∈ members, m.1 ≠ some name := by
  rw [List.filter_eq_nil_iff]
  exact forall₂_congr fun m _ => by simp

theorem field?_eq_some_iff : field? name members = some field ↔ Field name members field := by
  constructor
  · intro h
    rw [field?] at h
    split at h
    · next heq =>
      obtain rfl := Option.some.inj h
      exact .missing (filter_key_eq_nil_iff.1 heq)
    · next key value heq =>
      obtain rfl := Option.some.inj h
      obtain ⟨before, after, rfl, hbefore, hkey, hafter⟩ := List.filter_eq_cons_iff.1 heq
      obtain rfl : key = some name := by simpa using hkey
      refine .one value fun m hm => ?_
      rcases List.mem_append.1 hm with hm | hm
      · simpa using hbefore m hm
      · exact filter_key_eq_nil_iff.1 hafter m hm
    · cases h
  · rintro (⟨value, others⟩ | others)
    · have hbefore := filter_key_eq_nil_iff.2 fun m hm => others m (List.mem_append_left _ hm)
      have hafter := filter_key_eq_nil_iff.2 fun m hm => others m (List.mem_append_right _ hm)
      simp [field?, List.filter_append, hbefore, hafter]
    · rw [field?, filter_key_eq_nil_iff.2 others]

/-! ## Parts of a value -/

/-- A word in decimal digits. -/
def decimal (w : UInt64) : Value := .number (Nat.toDigits 10 w.toNat)

/-- Rows as the lists of their names. -/
def rowLists (rows : List Labels) : Value :=
  .array (rows.map fun row => .array (row.map fun name => .string (some name)))

theorem string?_eq_some_iff : string? v = some s ↔ v = .string (some s) := by
  cases v <;> simp [string?]

theorem bool?_eq_some_iff : bool? v = some b ↔ v = .bool b := by
  cases v <;> simp [bool?]

theorem word?_eq_some_iff (h : v.Writable) : word? v = some w ↔ v = decimal w := by
  cases v with
  | number literal =>
    rw [word?, wordOfLiteral_eq_some_iff h.isLiteral, decimal, Value.number.injEq]
  | _ => simp [word?, decimal]

theorem array?_eq_some_iff {α : Type} {read? : Value → Option α} {toJson : α → Value}
    (h : ∀ v item, read? v = some item ↔ v = toJson item) {items : List α} :
    array? read? v = some items ↔ v = .array (items.map toJson) := by
  constructor
  · intro hread
    cases v with
    | array values =>
      rw [array?] at hread
      induction values generalizing items with
      | nil =>
        obtain rfl : [] = items := by simpa using hread
        rfl
      | cons value values ih =>
        simp only [List.mapM_cons, Option.bind_eq_bind, Option.bind_eq_some_iff] at hread
        obtain ⟨item, hitem, rest, hrest, hitems⟩ := hread
        obtain rfl : item :: rest = items := Option.some.inj hitems
        rw [(h _ _).1 hitem, Value.array.inj (ih hrest), List.map_cons]
    | _ => cases hread
  · rintro rfl
    exact array?_map (fun item => (h _ item).2 rfl) items

theorem rows_eq_some_iff {rows : List Labels} :
    array? (array? string?) v = some rows ↔ v = rowLists rows :=
  array?_eq_some_iff fun _ _ => array?_eq_some_iff fun _ _ => string?_eq_some_iff

theorem Value.Writable.keysDenote (h : (Value.object members).Writable) : keysDenote members :=
  List.all_eq_true.2 fun m hm => (h.members m hm).1

/-! ## The order of members -/

theorem string?_shuffled (h : Shuffled v v') : string? v = string? v' := by cases h <;> rfl

theorem bool?_shuffled (h : Shuffled v v') : bool? v = bool? v' := by cases h <;> rfl

theorem word?_shuffled (h : Shuffled v v') : word? v = word? v' := by cases h <;> rfl

theorem array?_shuffled {α : Type} {read? : Value → Option α}
    (hread : ∀ v v', Shuffled v v' → read? v = read? v') (h : Shuffled v v') :
    array? read? v = array? read? v' := by
  cases h with
  | refl => rfl
  | array h =>
    simp only [array?]
    induction h with
    | nil => rfl
    | cons first _ ih => rw [List.mapM_cons, List.mapM_cons, hread _ _ first, ih]
  | object => rfl

/-- Members are the same one by one, but for the order inside their values, and then in any
order. -/
theorem Shuffled.exists_members (h : Shuffled (.object members) (.object members')) :
    ∃ middle, List.Forall₂ (fun m m' => m.1 = m'.1 ∧ Shuffled m.2 m'.2) members middle ∧
      middle.Perm members' := by
  cases h with
  | refl => exact ⟨members, List.forall₂_same.2 fun m _ => ⟨rfl, .refl _⟩, .refl _⟩
  | object keys values order =>
    refine ⟨_, ?_, order⟩
    clear order
    rw [List.forall₂_map_left_iff, List.forall₂_map_right_iff] at values
    induction values with
    | nil => exact .nil
    | cons first _ ih =>
      obtain ⟨hkey, hkeys⟩ := List.cons.inj keys
      exact .cons ⟨hkey, first⟩ (ih hkeys)

theorem keysDenote_shuffled (h : Shuffled (.object members) (.object members')) :
    keysDenote members = keysDenote members' := by
  obtain ⟨middle, hsame, order⟩ := h.exists_members
  have hmiddle : members.all (·.1.isSome) = middle.all (·.1.isSome) := by
    clear h order
    induction hsame with
    | nil => rfl
    | cons first _ ih => rw [List.all_cons, List.all_cons, first.1, ih]
  rw [keysDenote, keysDenote, hmiddle, order.all_eq]

/-- A name has as many members in either order, and if it is one, then of the same value. -/
theorem field?_shuffled (h : Shuffled (.object members) (.object members')) :
    Option.Rel (Option.Rel Shuffled) (field? name members) (field? name members') := by
  obtain ⟨middle, hsame, order⟩ := h.exists_members
  have hfilter : List.Forall₂ (fun m m' => m.1 = m'.1 ∧ Shuffled m.2 m'.2)
      (members.filter (·.1 == some name)) (middle.filter (·.1 == some name)) :=
    List.rel_filter (fun m m' h => by simp only [h.1]) hsame
  have hperm := order.filter (·.1 == some name)
  -- What the members are besides those of the name does not matter from here on.
  rw [field?, field?]
  generalize members.filter (·.1 == some name) = found at hfilter
  generalize middle.filter (·.1 == some name) = found' at hfilter hperm
  generalize members'.filter (·.1 == some name) = found'' at hperm
  cases hfilter with
  | nil =>
    obtain rfl := hperm.nil_eq
    exact .some .none
  | cons first others =>
    cases others with
    | nil =>
      obtain rfl := List.singleton_perm.1 hperm
      exact .some (.some first.2)
    | cons second others =>
      cases found'' with
      | nil => exact absurd hperm.length_eq (by simp)
      | cons _ rest =>
        cases rest with
        | nil => exact absurd hperm.length_eq (by simp)
        | cons => exact .none

theorem bind_congr_of_rel {α β γ : Type} {R : α → β → Prop} {x : Option α} {y : Option β}
    {f : α → Option γ} {g : β → Option γ} (h : Option.Rel R x y)
    (hfg : ∀ a b, R a b → f a = g b) : x.bind f = y.bind g := by
  cases h with
  | some h => exact hfg _ _ h
  | none => rfl

/-! ## Words among members -/

/-- The word that the member `name` is. -/
def wordAt? (name : String) (members : List (Text × Value)) : Option UInt64 :=
  (field? name members).bind (·.bind word?)

theorem wordAt?_shuffled (h : Shuffled (.object members) (.object members')) :
    wordAt? name members = wordAt? name members' :=
  bind_congr_of_rel (field?_shuffled h) fun _ _ h =>
    bind_congr_of_rel h fun _ _ => word?_shuffled

theorem wordAt?_eq_some_iff (h : (Value.object members).Writable) :
    wordAt? name members = some w ↔ Field name members (some (decimal w)) := by
  simp only [wordAt?, Option.bind_eq_some_iff]
  constructor
  · rintro ⟨_, hfield, value, rfl, hword⟩
    have hone := field?_eq_some_iff.1 hfield
    obtain rfl := (word?_eq_some_iff (h.members _ hone.mem).2).1 hword
    exact hone
  · intro hone
    exact ⟨_, field?_eq_some_iff.2 hone, _, rfl,
      (word?_eq_some_iff (h.members _ hone.mem).2).2 rfl⟩

end Json

/-! ## Tallies -/

namespace Tally

open Json

variable {v v' : Value} {members : List (Text × Value)} {t : Tally}

/-- The values that describe a tally: both counters among the members of an object, or in an
array. -/
inductive Describes : Value → Tally → Prop
  | object {members : List (Text × Value)} {t : Tally}
      (solutions : Field "num_solutions" members (some (decimal t.solutions)))
      (searches : Field "num_searches" members (some (decimal t.searches))) :
    Describes (.object members) t
  | array (t : Tally) : Describes (.array [decimal t.solutions, decimal t.searches]) t

theorem ofJson?_object : ofJson? (.object members) =
    (guard (keysDenote members) : Option Unit).bind fun _ =>
      (wordAt? "num_solutions" members).bind fun solutions =>
        (wordAt? "num_searches" members).bind fun searches => some ⟨solutions, searches⟩ := by
  rw [ofJson?]
  refine congrArg _ (funext fun _ => ?_)
  simp only [wordAt?, Option.bind_eq_bind, Option.bind_assoc, Option.pure_def]

theorem ofJson?_shuffled (h : Shuffled v v') : ofJson? v = ofJson? v' := by
  cases h with
  | refl => rfl
  | array h =>
    cases h with
    | nil => rfl
    | cons first h =>
      cases h with
      | nil => rfl
      | cons second h =>
        cases h with
        | nil => simp only [ofJson?, word?_shuffled first, word?_shuffled second]
        | cons => rfl
  | object keys values order =>
    have h := Shuffled.object keys values order
    rw [ofJson?_object, ofJson?_object, keysDenote_shuffled h, wordAt?_shuffled h,
      wordAt?_shuffled h]

theorem ofJson?_eq_some_iff (h : v.Writable) : ofJson? v = some t ↔ Describes v t := by
  constructor
  · intro hread
    match v, hread with
    | .object members, hread =>
      rw [ofJson?_object, guard_keysDenote h.keysDenote] at hread
      simp only [Option.bind_some, Option.bind_eq_some_iff, wordAt?_eq_some_iff h] at hread
      obtain ⟨solutions, hsolutions, searches, hsearches, hpair⟩ := hread
      obtain rfl := Option.some.inj hpair
      exact .object hsolutions hsearches
    | .array [first, second], hread =>
      simp only [ofJson?, Option.bind_eq_bind, Option.bind_eq_some_iff,
        word?_eq_some_iff (h.items first (by simp)), word?_eq_some_iff (h.items second (by simp))]
        at hread
      obtain ⟨solutions, rfl, searches, rfl, hpair⟩ := hread
      obtain rfl := Option.some.inj hpair
      exact .array ⟨solutions, searches⟩
  · rintro (⟨hsolutions, hsearches⟩ | _)
    · rw [ofJson?_object, guard_keysDenote h.keysDenote, Option.bind_some,
        (wordAt?_eq_some_iff h).2 hsolutions, Option.bind_some,
        (wordAt?_eq_some_iff h).2 hsearches, Option.bind_some]
    · simp [ofJson?, (word?_eq_some_iff (h.items _ _)).2 rfl]

end Tally

/-! ## Checkpoints -/

namespace Checkpoint

open Json

variable {v v' solution solution' : Value} {stats stats' reported reported' : Option Value}
  {members members' : List (Text × Value)} {c : Checkpoint} {t : Tally} {mark : Bool}

/-- What the field of the tally may be: missing, then nothing is counted, or a tally. -/
inductive DescribesTally : Option Value → Tally → Prop
  | missing : DescribesTally none .zero
  | given {value : Value} {t : Tally} (h : Tally.Describes value t) : DescribesTally (some value) t

/-- What the field of the mark may be: missing, then it is false, or a truth value. -/
inductive DescribesMark : Option Value → Bool → Prop
  | missing : DescribesMark none false
  | given (mark : Bool) : DescribesMark (some (.bool mark)) mark

/-- The values that describe a checkpoint: the fields among the members of an object, or in an
array, where the last ones may be missing. -/
inductive Describes : Value → Checkpoint → Prop
  | object {members : List (Text × Value)} {stats reported : Option Value} {c : Checkpoint}
      (solution : Field "solution" members (some (rowLists c.solution)))
      (statsField : Field "stats" members stats) (tally : DescribesTally stats c.tally)
      (reportedField : Field "reported" members reported)
      (mark : DescribesMark reported c.reported) : Describes (.object members) c
  | rows (rows : List Labels) : Describes (.array [rowLists rows]) ⟨rows, .zero, false⟩
  | counted (rows : List Labels) {value : Value} {t : Tally} (h : Tally.Describes value t) :
    Describes (.array [rowLists rows, value]) ⟨rows, t, false⟩
  | marked (rows : List Labels) {value : Value} {t : Tally} (h : Tally.Describes value t)
      (mark : Bool) : Describes (.array [rowLists rows, value, .bool mark]) ⟨rows, t, mark⟩

theorem ofFields?_eq_bind : ofFields? solution stats reported =
    (array? (array? string?) solution).bind fun rows =>
      (stats.elim (some .zero) Tally.ofJson?).bind fun t =>
        (reported.elim (some false) bool?).bind fun mark => some ⟨rows, t, mark⟩ := by
  cases stats <;> cases reported <;> rfl

theorem ofFields?_shuffled (hsolution : Shuffled solution solution')
    (hstats : Option.Rel Shuffled stats stats')
    (hreported : Option.Rel Shuffled reported reported') :
    ofFields? solution stats reported = ofFields? solution' stats' reported' := by
  have hrows : array? (array? string?) solution = array? (array? string?) solution' :=
    array?_shuffled (fun _ _ => array?_shuffled fun _ _ => string?_shuffled) hsolution
  have htally : stats.elim (some .zero) Tally.ofJson? = stats'.elim (some .zero) Tally.ofJson? := by
    cases hstats with
    | none => rfl
    | some h => exact Tally.ofJson?_shuffled h
  have hmark : reported.elim (some false) bool? = reported'.elim (some false) bool? := by
    cases hreported with
    | none => rfl
    | some h => exact bool?_shuffled h
  rw [ofFields?_eq_bind, ofFields?_eq_bind, hrows, htally, hmark]

theorem ofJson?_shuffled (h : Shuffled v v') : ofJson? v = ofJson? v' := by
  cases h with
  | refl => rfl
  | array h =>
    cases h with
    | nil => rfl
    | cons first h =>
      cases h with
      | nil => exact ofFields?_shuffled first .none .none
      | cons second h =>
        cases h with
        | nil => exact ofFields?_shuffled first (.some second) .none
        | cons third h =>
          cases h with
          | nil => exact ofFields?_shuffled first (.some second) (.some third)
          | cons => rfl
  | object keys values order =>
    have h := Shuffled.object keys values order
    rw [ofJson?, ofJson?, keysDenote_shuffled h]
    refine congrArg _ (funext fun _ => ?_)
    refine bind_congr_of_rel (field?_shuffled h) fun _ _ hsolution => ?_
    refine bind_congr_of_rel hsolution fun _ _ hsolution => ?_
    refine bind_congr_of_rel (field?_shuffled h) fun _ _ hstats => ?_
    refine bind_congr_of_rel (field?_shuffled h) fun _ _ hreported => ?_
    exact ofFields?_shuffled hsolution hstats hreported

theorem tally_eq_some_iff (h : ∀ value ∈ stats, value.Writable) :
    stats.elim (some .zero) Tally.ofJson? = some t ↔ DescribesTally stats t := by
  cases stats with
  | none =>
    constructor
    · rintro ⟨⟩
      exact .missing
    · rintro ⟨⟩
      rfl
  | some value =>
    rw [Option.elim_some, Tally.ofJson?_eq_some_iff (h value rfl)]
    exact ⟨.given, fun | .given h => h⟩

theorem mark_eq_some_iff :
    reported.elim (some false) bool? = some mark ↔ DescribesMark reported mark := by
  cases reported with
  | none =>
    constructor
    · rintro ⟨⟩
      exact .missing
    · rintro ⟨⟩
      rfl
  | some value =>
    rw [Option.elim_some, bool?_eq_some_iff]
    constructor
    · rintro rfl
      exact .given mark
    · rintro ⟨⟩
      rfl

theorem ofFields?_eq_some_iff (h : ∀ value ∈ stats, value.Writable) :
    ofFields? solution stats reported = some c ↔ solution = rowLists c.solution ∧
      DescribesTally stats c.tally ∧ DescribesMark reported c.reported := by
  simp only [ofFields?_eq_bind, Option.bind_eq_some_iff, rows_eq_some_iff, tally_eq_some_iff h,
    mark_eq_some_iff, Option.some.injEq]
  constructor
  · rintro ⟨rows, hrows, t, htally, mark, hmark, rfl⟩
    exact ⟨hrows, htally, hmark⟩
  · rintro ⟨hrows, htally, hmark⟩
    exact ⟨_, hrows, _, htally, _, hmark, rfl⟩

theorem ofJson?_object_eq_some_iff (h : (Value.object members).Writable) :
    ofJson? (.object members) = some c ↔ Describes (.object members) c := by
  have hstats : ∀ stats, Field "stats" members stats → ∀ value ∈ stats, value.Writable := by
    rintro _ hfield value rfl
    exact (h.members _ hfield.mem).2
  rw [ofJson?, guard_keysDenote h.keysDenote]
  simp only [Option.bind_eq_bind, Option.bind_some, Option.bind_eq_some_iff, field?_eq_some_iff]
  constructor
  · rintro ⟨_, hsolution, solution, rfl, stats, hfield, reported, hreported, hread⟩
    obtain ⟨rfl, htally, hmark⟩ := (ofFields?_eq_some_iff (hstats _ hfield)).1 hread
    exact .object hsolution hfield htally hreported hmark
  · rintro ⟨hsolution, hfield, htally, hreported, hmark⟩
    exact ⟨_, hsolution, _, rfl, _, hfield, _, hreported,
      (ofFields?_eq_some_iff (hstats _ hfield)).2 ⟨rfl, htally, hmark⟩⟩

theorem ofJson?_array_eq_some_iff {items : List Value} (h : (Value.array items).Writable) :
    ofJson? (.array items) = some c ↔ Describes (.array items) c := by
  have hstats : ∀ stats ∈ items, ∀ value ∈ some stats, value.Writable := by
    rintro stats hmem _ ⟨⟩
    exact h.items stats hmem
  constructor
  · intro hread
    obtain ⟨rows, t, mark⟩ := c
    match items, hread with
    | [solution], hread =>
      have hfields : ofFields? solution none none = some ⟨rows, t, mark⟩ := hread
      obtain ⟨rfl, htally, hmark⟩ := (ofFields?_eq_some_iff (by simp)).1 hfields
      cases htally
      cases hmark
      exact .rows rows
    | [solution, stats], hread =>
      have hfields : ofFields? solution (some stats) none = some ⟨rows, t, mark⟩ := hread
      obtain ⟨rfl, htally, hmark⟩ := (ofFields?_eq_some_iff (hstats stats (by simp))).1 hfields
      cases htally with
      | given htally =>
        cases hmark
        exact .counted rows htally
    | [solution, stats, reported], hread =>
      have hfields : ofFields? solution (some stats) (some reported) = some ⟨rows, t, mark⟩ := hread
      obtain ⟨rfl, htally, hmark⟩ := (ofFields?_eq_some_iff (hstats stats (by simp))).1 hfields
      cases htally with
      | given htally =>
        cases hmark
        exact .marked rows htally mark
  · rintro (_ | rows | ⟨rows, htally⟩ | ⟨rows, htally, mark⟩)
    · show ofFields? _ none none = _
      exact (ofFields?_eq_some_iff (by simp)).2 ⟨rfl, .missing, .missing⟩
    · show ofFields? _ (some _) none = _
      exact (ofFields?_eq_some_iff (hstats _ (by simp))).2 ⟨rfl, .given htally, .missing⟩
    · show ofFields? _ (some _) (some _) = _
      exact (ofFields?_eq_some_iff (hstats _ (by simp))).2 ⟨rfl, .given htally, .given mark⟩

theorem ofJson?_eq_some_iff (h : v.Writable) : ofJson? v = some c ↔ Describes v c := by
  cases v with
  | array items => exact ofJson?_array_eq_some_iff h
  | object members => exact ofJson?_object_eq_some_iff h
  | _ =>
    constructor
    · rintro ⟨⟩
    · rintro ⟨⟩

/-- However a value is spelt, its text is read as the checkpoint that the value describes, and
refused if it describes none. -/
theorem read_iff_describes {text : String} (h : Writes text.toList v) (c : Checkpoint) :
    parse? text = some c ↔ Describes v c := by
  obtain ⟨read, hread, hsame⟩ := h.exists_parse?
  rw [parse?, hread, Option.bind_some, ofJson?_shuffled hsame, ofJson?_eq_some_iff ⟨_, h⟩]

/-- A text with its members in another order, among others, and with escapes and blanks. -/
theorem read_iff_describes_reordered :
    let text := "\x7b\"x\":[],\"reported\":true,\"x\":null,\"\\u0073olution\": [[\"a\"]]\x7d"
    let v := Value.object [(some "solution", rowLists [["a"]]), (some "x", .null),
      (some "reported", .bool true), (some "x", .array [])]
    Writes text.toList v ∧ parse? text = some ⟨[["a"]], .zero, true⟩ := by
  intro text v
  have hspace : Blank [' '] := by simp [Blank, isBlank]
  have hplain : ∀ s : String, (∀ c ∈ s.toList, ' ' ≤ c ∧ c ≠ '"' ∧ c ≠ '\\') →
      SpellsText ('"' :: s.toList ++ ['"']) s := fun s h => .quoted (spellsChars_self h)
  have hcode : SpellsChar ['\\', 'u', '0', '0', '7', '3'] 's' :=
    .code (@SpellsCode.digits '0' '0' '7' '3' 0 0 7 3 (.inl (by decide)) (.inl (by decide))
      (.inl (by decide)) (.inl (by decide)))
  have hsolution : SpellsText _ "solution" :=
    .quoted (.cons hcode (@spellsChars_self "olution".toList (by simp)))
  have hrow := Spells.items (.last (Spells.string (hplain "a" (by simp))).writes)
  have hx := (hplain "x" (by simp)).writesKey
  have hreported := (hplain "reported" (by simp)).writesKey
  have hmembers := WritesMembers.more hx (Spells.noItems blank_nil).writes
    (.more hreported Spells.true.writes (.more hx Spells.null.writes
      (.last hsolution.writesKey (.padded hspace (.items (.last hrow.writes)) blank_nil))))
  have hspelt : Writes _ v := (Spells.members hmembers (List.reverse_perm _).symm).writes
  have hwrites : Writes text.toList v := by
    convert hspelt using 1
    decide
  refine ⟨hwrites, (read_iff_describes hwrites _).2 ?_⟩
  exact .object (field?_eq_some_iff.1 rfl) (field?_eq_some_iff.1 rfl) .missing
    (field?_eq_some_iff.1 rfl) (.given true)

end Checkpoint

end Covering
