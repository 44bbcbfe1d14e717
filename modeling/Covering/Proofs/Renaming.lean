import Covering.Proofs.Mesh.Equality
import Covering.Proofs.Run.Replies
import Mathlib.Data.List.Perm.Basic

/-!
# Names are only labels

When the columns get other names that still differ, a row keeps its names but may list them in
another order, so renaming a row sorts it again: `Labels.rename`. Rows that are sorted do not match
after it unless they did before (`Labels.rename_inj`), and a search looks at names in no other way.
Hence the moves of a search are those of the search before, renamed (`Table.moves_rename`), and so
is all that its calls reply: `GivenRows.rename_replies`.
-/

namespace Covering
set_option autoImplicit false

/-- In order of code points. -/
def Labels.Sorted (row : Labels) : Prop := row.Pairwise (· ≤ ·)

/-- A row under other names. -/
def Labels.rename (f : String → String) (row : Labels) : Labels :=
  sorted (fun a b => a ≤ b) (row.map f)

/-- Rows under other names, each sorted again. -/
def Solution.rename (f : String → String) (rows : Solution) : Solution := rows.map (Labels.rename f)

def Table.rename (f : String → String) (t : Table) : Table := { t with names := t.names.map f }

def Bookmark.rename (f : String → String) (b : Bookmark) : Bookmark :=
  { b with path := Solution.rename f b.path }

def Event.rename (f : String → String) : Event → Event
  | .notice told => .notice told
  | .report shown => .report { shown with chosen := Solution.rename f shown.chosen }

/-- A reply under other names: the notices, the level and the tally have none. -/
def Run.Reply.rename (f : String → String) (reply : Run.Reply) : Run.Reply where
  events := reply.events.map (Event.rename f)
  outcome := reply.outcome.map fun (solution, level, tally) =>
    (solution.map (Solution.rename f), level, tally)

def Move.rename (f : String → String) : Move → Move
  | .notice told => .notice told
  | .search => .search
  | .report path => .report (Solution.rename f path)
  | .found solution => .found (Solution.rename f solution)

/-! ## Sorted rows -/

namespace Labels

variable {f : String → String} {row row' : Labels}

theorem sorted_sorted (names : List String) : Labels.Sorted (sorted (fun a b => a ≤ b) names) := by
  have hle := @pairwise_sorted String (fun a b => decide (a ≤ b))
    (fun a b => by simpa using String.le_total a b) (fun a b c => by simpa using String.le_trans)
    names
  exact hle.imp (by simp)

/-- There is one way to sort. -/
theorem Sorted.eq_of_perm (h : row.Sorted) (h' : row'.Sorted) (hperm : row.Perm row') :
    row = row' :=
  hperm.eq_of_pairwise (fun _ _ _ _ => String.le_antisymm) h h'

theorem sorted_eq_of_perm {names names' : List String} (h : names.Perm names') :
    sorted (fun a b => a ≤ b) names = sorted (fun a b => a ≤ b) names' :=
  (sorted_sorted names).eq_of_perm (sorted_sorted names')
    ((perm_sorted _ names).trans (h.trans (perm_sorted _ names').symm))

/-- Sorting again makes no rows equal. -/
theorem rename_inj (hf : Function.Injective f) (h : row.Sorted) (h' : row'.Sorted) :
    Labels.rename f row = Labels.rename f row' ↔ row = row' := by
  refine ⟨fun e => h.eq_of_perm h' ((List.map_perm_map_iff hf).1 ?_), fun e => e ▸ rfl⟩
  have hperm := perm_sorted (fun a b => decide (a ≤ b)) (row.map f)
  have hperm' := perm_sorted (fun a b => decide (a ≤ b)) (row'.map f)
  rw [Labels.rename, Labels.rename] at e
  rw [e] at hperm
  exact hperm.symm.trans hperm'

end Labels

@[simp] theorem Solution.length_rename (f : String → String) (rows : Solution) :
    (Solution.rename f rows).length = rows.length := List.length_map _

/-! ## The search tree has no names -/

namespace Table

variable {t : Table} {f : String → String} {base path : List Nat} {covered : Finset Nat}
  {row depth : Nat} {skip reported : Bool} {pending saved : List Labels}

@[simp] theorem columnCount_rename : (t.rename f).columnCount = t.columnCount := List.length_map _

@[simp] theorem primaryCount_rename : (t.rename f).primaryCount = t.primaryCount := by
  rw [primaryCount, columnCount_rename]
  rfl

@[simp] theorem openColumns_rename : (t.rename f).openColumns covered = t.openColumns covered := by
  rw [openColumns, primaryCount_rename]
  rfl

@[simp] theorem branchColumn_rename :
    (t.rename f).branchColumn covered = t.branchColumn covered := by
  rw [branchColumn, openColumns_rename]
  rfl

@[simp] theorem children_rename : (t.rename f).children base path = t.children base path := by
  rw [children, choices, branchColumn_rename]
  rfl

@[simp] theorem isSolution_rename : (t.rename f).isSolution base path = t.isSolution base path := by
  rw [isSolution, openColumns_rename]
  rfl

@[simp] theorem preorder_rename : (t.rename f).preorder base path = t.preorder base path := by
  induction path using node_induction (t := t) base with
  | h path ih =>
    rw [preorder_eq, preorder_eq, descendants, descendants, children_rename, subtrees, subtrees]
    exact congrArg _ (List.flatMap_congr ih)

@[simp] theorem descendants_rename :
    (t.rename f).descendants base path = t.descendants base path := by
  simp [descendants, subtrees]

@[simp] theorem ones_rename : (t.rename f).ones row = t.ones row := rfl

/-- Rows are read without the names. -/
theorem ofRows_rename {α : Type} {read : Nat → Nat → α → Except Defect (List Nat)}
    {names : List String} {secondary : Nat} {rows : List α}
    (h : ofRows read names secondary rows = .ok t) (hf : Function.Injective f) :
    ofRows read (names.map f) secondary rows = .ok (t.rename f) := by
  obtain ⟨hroom, hnodup, rfl, rfl, hlength, hrows⟩ := ofRows_eq_ok_iff.1 h
  refine ofRows_eq_ok_iff.2 ⟨by simpa using hroom, hnodup.map hf, rfl, rfl, hlength, ?_⟩
  simpa using hrows

theorem WellFormed.rename (wf : t.WellFormed) (hf : Function.Injective f) :
    (t.rename f).WellFormed where
  names_nodup := wf.names_nodup.map hf
  secondary_le := columnCount_rename (t := t) (f := f) ▸ wf.secondary_le
  ascending := wf.ascending
  inRange row c hc := columnCount_rename (t := t) (f := f) ▸ wf.inRange row c hc

theorem sorted_labels : (t.labels row).Sorted := Labels.sorted_sorted _

/-- The labels of a row are those of the row before, renamed. -/
theorem WellFormed.labels_rename (wf : t.WellFormed) :
    (t.rename f).labels row = Labels.rename f (t.labels row) := by
  have hnames : (t.ones row).map (fun c => (t.names.map f).getD c "") =
      ((t.ones row).map fun c => t.names.getD c "").map f := by
    rw [List.map_map]
    apply List.map_congr_left
    intro c hc
    have hlt : c < t.names.length := wf.inRange row c hc
    simp [List.getD_eq_getElem?_getD, hlt]
  have hlabels : (t.rename f).labels row =
      sorted (fun a b => a ≤ b) ((t.ones row).map fun c => (t.names.map f).getD c "") := rfl
  rw [hlabels, hnames]
  exact Labels.sorted_eq_of_perm ((perm_sorted _ _).symm.map f)

theorem WellFormed.labelsOfPath_rename (wf : t.WellFormed) :
    (t.rename f).labelsOfPath path = Solution.rename f (t.labelsOfPath path) := by
  rw [labelsOfPath, labelsOfPath, Solution.rename, List.map_map]
  exact List.map_congr_left fun row _ => wf.labels_rename

/-- A sorted row matches exactly the rows that it matched before. -/
theorem WellFormed.labels_rename_beq (wf : t.WellFormed) (hf : Function.Injective f)
    {wanted : Labels} (hwanted : wanted.Sorted) :
    ((t.rename f).labels row == Labels.rename f wanted) = (t.labels row == wanted) := by
  rw [wf.labels_rename, Bool.eq_iff_iff, beq_iff_eq, beq_iff_eq,
    Labels.rename_inj hf sorted_labels hwanted]

/-! ## The moves are renamed -/

theorem WellFormed.arrival_rename (wf : t.WellFormed) (pending : List Labels) :
    (t.rename f).arrival base skip (Solution.rename f pending) path =
      (t.arrival base skip pending path).map (Move.rename f) := by
  cases pending with
  | nil =>
    simp only [Solution.rename, List.map_nil, arrival, isSolution_rename, wf.labelsOfPath_rename]
    split
    · split <;> rfl
    · rfl
  | cons wanted later =>
    simp only [Solution.rename, List.map_cons, arrival, isSolution_rename, wf.labelsOfPath_rename,
      List.length_cons, List.length_map]
    split <;> rfl

theorem WellFormed.visit_rename (wf : t.WellFormed) :
    (t.rename f).visit base depth path = (t.visit base depth path).map (Move.rename f) := by
  have harrival : (t.rename f).arrival base false [] path =
      (t.arrival base false [] path).map (Move.rename f) := wf.arrival_rename []
  rw [visit, visit, wf.labelsOfPath_rename, List.map_append, List.map_cons, ← harrival]
  split <;> rfl

theorem WellFormed.visits_rename (wf : t.WellFormed) (nodes : List (List Nat)) :
    nodes.flatMap ((t.rename f).visit base depth) =
      (nodes.flatMap (t.visit base depth)).map (Move.rename f) := by
  rw [List.map_flatMap]
  exact List.flatMap_congr fun node _ => wf.visit_rename

/-- Along a path of sorted rows. -/
theorem WellFormed.follows_rename (wf : t.WellFormed) (hf : Function.Injective f)
    (hpending : ∀ row ∈ pending, Labels.Sorted row) :
    (t.rename f).follows base depth reported (Solution.rename f pending) path =
      (t.follows base depth reported pending path).map (Move.rename f) := by
  induction pending generalizing path with
  | nil =>
    simp only [Solution.rename, List.map_nil, follows, descendants_rename, wf.visits_rename]
  | cons wanted later ih =>
    obtain ⟨hwanted, hlater⟩ := List.forall_mem_cons.1 hpending
    have hrest : ∀ row, (t.rename f).follows base depth reported (later.map (Labels.rename f))
        (path ++ [row]) = _ := fun row => ih hlater
    have harrival : ∀ row, (t.rename f).arrival base reported (later.map (Labels.rename f))
        (path ++ [row]) = _ := fun row => wf.arrival_rename later
    simp only [Solution.rename, List.map_cons, follows, children_rename, isSolution_rename,
      wf.labels_rename_beq hf hwanted, subtrees, preorder_rename, hrest, harrival]
    split
    · split <;> rfl
    · rw [List.map_append, List.map_append, ← wf.visits_rename]

theorem WellFormed.moves_rename (wf : t.WellFormed) (hf : Function.Injective f)
    (hsaved : ∀ row ∈ saved, Labels.Sorted row) :
    (t.rename f).moves base reported (Solution.rename f saved) =
      (t.moves base reported saved).map (Move.rename f) := by
  rw [moves, moves, wf.arrival_rename saved, wf.follows_rename hf hsaved, Solution.length_rename,
    List.map_append]

end Table

/-! ## Calls -/

namespace Moves

variable {f : String → String}

theorem told_rename {watched : Bool} (ms : List Move) :
    told watched (ms.map (Move.rename f)) = (told watched ms).map (Move.rename f) := by
  cases watched with
  | true => rfl
  | false =>
    simp only [told, if_neg Bool.false_ne_true, List.filter_map]
    congr 2
    funext m
    cases m <;> rfl

theorem next_rename (tally : Tally) (ms : List Move) : next tally (ms.map (Move.rename f)) =
    ((next tally ms).1.map (Event.rename f), (next tally ms).2.map fun (solution, tally, left) =>
      (solution.map (Solution.rename f), tally, left.map (Move.rename f))) := by
  induction ms generalizing tally with
  | nil => rfl
  | cons m ms ih =>
    cases m with
    | notice notice =>
      simp only [List.map_cons, Move.rename, next, ih]
      rfl
    | search =>
      simp only [List.map_cons, Move.rename, next]
      cases tally.countSearch with
      | error fault => rfl
      | ok counted => exact ih counted
    | report path =>
      simp only [List.map_cons, Move.rename, next, ih, emit, List.map_append, List.map_nil,
        Event.rename, Solution.rename, List.map_reverse]
    | found solution => rfl

theorem replies_rename (calls : Nat) (tally : Tally) (ms : List Move) :
    replies calls tally (ms.map (Move.rename f)) =
      (replies calls tally ms).map (Run.Reply.rename f) := by
  induction calls generalizing tally ms with
  | zero => rfl
  | succ calls ih =>
    rw [replies, replies, next_rename]
    obtain ⟨events, _ | ⟨solution, counted, left⟩⟩ := next tally ms
    · rfl
    · simp only [Except.map, List.map_cons, ih]
      cases solution <;> simp [Run.Reply.rename, Solution.levelAfter, Except.map]

end Moves

namespace GivenRows

variable {rows : GivenRows} {names : List String} {secondary : Nat} {t : Table}
  {f : String → String}

theorem table_rename (h : rows.table names secondary = .ok t) (hf : Function.Injective f) :
    rows.table (names.map f) secondary = .ok (t.rename f) := by
  cases rows with
  | cells rows => exact Table.ofRows_rename h hf
  | indices rows => exact Table.ofRows_rename h hf

/-- The same problem under other names, searched from the start or from a bookmark whose rows are
sorted, gives the same replies under the other names, whatever the number of calls. -/
theorem rename_replies (h : rows.table names secondary = .ok t) (hf : Function.Injective f)
    {base : List Nat} (nodup : base.Nodup) (inRange : ∀ c ∈ base, c < t.columnCount) :
    rows.table (names.map f) secondary = .ok (t.rename f) ∧
      ∃ m m', base.foldlM Mesh.cover (.ofTable t) = .ok m ∧
        base.foldlM Mesh.cover (.ofTable (t.rename f)) = .ok m' ∧ ∀ (tally : Tally) (calls : Nat),
          (Problem.solve ⟨m', tally⟩).replies calls =
            ((Problem.solve ⟨m, tally⟩).replies calls).map (Run.Reply.rename f) ∧
          ∀ b : Bookmark, (∀ row ∈ b.path, Labels.Sorted row) →
            (Problem.resume ⟨m', tally⟩ (b.rename f)).replies calls =
              ((Problem.resume ⟨m, tally⟩ b).replies calls).map (Run.Reply.rename f) := by
  have wf := (table_eq_ok h).1
  have wf' := wf.rename hf
  have hb : t.Coverable base := ⟨nodup, inRange⟩
  have hb' : (t.rename f).Coverable base := ⟨nodup, by simpa using inRange⟩
  refine ⟨table_rename h hf, .covering t base, .covering (t.rename f) base,
    Mesh.foldlM_cover_ofTable wf hb, Mesh.foldlM_cover_ofTable wf' hb', fun tally calls => ?_⟩
  have hstart : ∀ (tally : Tally) (path : List Labels) (reported watched : Bool),
      (∀ row ∈ path, Labels.Sorted row) →
      (Run.start ⟨.covering (t.rename f) base, tally⟩ (Solution.rename f path) reported
          watched).replies calls =
        ((Run.start ⟨.covering t base, tally⟩ path reported watched).replies calls).map
          (Run.Reply.rename f) := by
    intro tally path reported watched hpath
    have hnotice : (Run.start ⟨.covering (t.rename f) base, tally⟩ (Solution.rename f path) reported
        watched).startNotice =
          (Run.start ⟨.covering t base, tally⟩ path reported watched).startNotice := by
      rw [Run.startNotice, Run.startNotice]
      simp only [Run.start, (Mesh.reads_covering wf hb).table,
        (Mesh.reads_covering wf' hb').table, Table.columnCount_rename, Solution.length_rename]
      rfl
    have hat : Run.At t base (.start ⟨.covering t base, tally⟩ path reported watched) _ :=
      .fresh rfl rfl rfl rfl rfl
    have hat' : Run.At (t.rename f) base (.start ⟨.covering (t.rename f) base, tally⟩
        (Solution.rename f path) reported watched) _ := .fresh rfl rfl rfl rfl rfl
    rw [Run.replies_eq wf hb calls hat, Run.replies_eq wf' hb' calls hat', ← Moves.replies_rename,
      List.map_cons, ← Moves.told_rename, hnotice]
    simp only [Run.start, wf.moves_rename hf hpath]
    rfl
  refine ⟨hstart tally [] false false (by simp), fun ⟨path, saved, reported⟩ hpath => ?_⟩
  cases saved with
  | none => exact hstart tally path reported true hpath
  | some saved => exact hstart (tally.raiseTo saved) path reported true hpath

/-- The case of `abc` with `z` in place of `a`, so that a row of the path lists its names the other
way round. -/
theorem rename_replies_abc :
    let f : String → String := Equiv.swap "a" "z"
    ∃ m m', [].foldlM Mesh.cover (.ofTable Table.abc) = .ok m ∧
      [].foldlM Mesh.cover (.ofTable ⟨["z", "b", "c"], 1, [[0, 1], [0], [1, 2], [1]]⟩) = .ok m' ∧
      ((Problem.ofMesh m').resume ⟨[["b", "z"]], none, true⟩).replies 3 =
        (((Problem.ofMesh m).resume ⟨[["a", "b"]], none, true⟩).replies 3).map
          (Run.Reply.rename f) := by
  intro f
  have htable : (indices [[1, 0], [0], [1, 2], [1]]).table ["a", "b", "c"] 1 = .ok Table.abc := by
    decide
  have hrenamed : Table.abc.rename f = ⟨["z", "b", "c"], 1, [[0, 1], [0], [1, 2], [1]]⟩ := by decide
  have hbookmark : (Bookmark.mk [["a", "b"]] none true).rename f = ⟨[["b", "z"]], none, true⟩ := by
    decide
  obtain ⟨-, m, m', hm, hm', hreplies⟩ :=
    rename_replies htable (Equiv.injective (Equiv.swap "a" "z")) List.nodup_nil (by decide)
  have hresume := (hreplies .zero 3).2 ⟨[["a", "b"]], none, true⟩
    (by simp only [List.forall_mem_singleton, Labels.Sorted]; decide)
  exact ⟨m, m', hm, hrenamed ▸ hm', hbookmark ▸ hresume⟩

end GivenRows

end Covering
