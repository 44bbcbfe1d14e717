import Covering.Proofs.Run.Moves

/-!
# A run goes through the moves of its search

Between two steps a run stands at a node of the search tree, and its branches say what is left to
visit: `Run.Stack`. `Run.At` ties the run to the moves that are still before it. One step does the
next of them, or more: `Run.step_does`. Hence a call of `next` does what `Moves.next` says, within
its bound on steps, and `drain` collects all the solutions.
-/

namespace Covering
set_option autoImplicit false

namespace Run

variable {t : Table} {base path cs : List Nat} {ahead : List (List Nat)} {r r' : Run}
  {branches : List Branch} {ms ms' : List Move} {tally : Tally} {bound bound' c row level : Nat}

/-! ## Where a run stands -/

/-- The branches of a run at the node `path`: `cs` are the columns covered there, in order, and
`ahead` the nodes that the rows below those chosen lead to. -/
inductive Stack (t : Table) (base : List Nat) :
    List Branch → List Nat → List Nat → List (List Nat) → Prop
  | root : Stack t base [] [] base []
  | choice {branches : List Branch} {path cs : List Nat} {ahead : List (List Nat)}
      {c row : Nat} {before after : List Nat} (replayed : Bool)
      (outer : Stack t base branches path cs ahead)
      (column : t.branchColumn (t.coveredBy base path) = some c)
      (rows : t.children base path = before ++ row :: after) :
      Stack t base (⟨c, t.slotOf c row, replayed⟩ :: branches) (path ++ [row])
        (cs ++ c :: t.mateColumns row c) (t.subtrees base path after ++ ahead)

/-- What is left of the saved path continues the node `path`, all of whose rows come from it. -/
def OnPath (r : Run) (path : List Nat) (branches : List Branch) : Prop :=
  r.pending = [] ∨
    path.length + r.pending.length = r.replayDepth ∧ branches.all (·.replayed) = true

/-- The run `r` over `t`, begun with `base` covered, has the moves `ms` before it. -/
inductive At (t : Table) (base : List Nat) : Run → List Move → Prop
  /-- Before the first step. -/
  | fresh {r : Run} (mesh : r.mesh = .covering t base) (branches : r.branches = [])
      (chosen : r.chosen = []) (depth : r.replayDepth = r.pending.length)
      (started : r.started = false) :
      At t base r
        (.notice r.startNotice :: Moves.told r.watched (t.moves base r.reported r.pending))
  /-- The column of the node `path` is covered and none of its rows has been tried. -/
  | opened {r : Run} {branches : List Branch} {path cs : List Nat} {ahead : List (List Nat)}
      {c : Nat} {replayed : Bool} (stack : Stack t base branches path cs ahead)
      (column : t.branchColumn (t.coveredBy base path) = some c)
      (top : r.branches = ⟨c, 0, replayed⟩ :: branches) (mesh : r.mesh = .covering t (cs ++ [c]))
      (chosen : r.chosen = (t.labelsOfPath path).reverse) (started : r.started = true)
      (onPath : r.OnPath path branches) :
      At t base r (Moves.told r.watched (t.follows base r.replayDepth r.reported r.pending path ++
        ahead.flatMap (t.visit base r.replayDepth)))
  /-- All that is left is what the branches have ahead. -/
  | settled {r : Run} {path cs : List Nat} {ahead : List (List Nat)}
      (stack : Stack t base r.branches path cs ahead) (mesh : r.mesh = .covering t cs)
      (chosen : r.chosen = (t.labelsOfPath path).reverse) (started : r.started = true)
      (pending : r.pending = []) :
      At t base r (Moves.told r.watched (ahead.flatMap (t.visit base r.replayDepth)))

/-- The tally does not matter to where a run stands. -/
theorem At.retally (h : At t base r ms) (tally : Tally) : At t base { r with tally } ms := by
  cases h with
  | fresh mesh branches chosen depth started => exact .fresh mesh branches chosen depth started
  | opened stack column top mesh chosen started onPath =>
    exact .opened stack column top mesh chosen started onPath
  | settled stack mesh chosen started pending => exact .settled stack mesh chosen started pending

theorem Stack.level_eq (h : Stack t base branches path cs ahead) :
    branches.length = path.length := by
  induction h with
  | root => rfl
  | choice replayed outer column rows ih => simp [ih]

/-- The columns covered at a node, whatever the order. -/
theorem Stack.covers (wf : t.WellFormed) (hb : t.Coverable base)
    (h : Stack t base branches path cs ahead) :
    t.Coverable cs ∧ cs.toFinset = t.coveredBy base path := by
  induction h with
  | root => exact ⟨hb, Table.coveredBy_nil.symm⟩
  | @choice branches path cs ahead c row before after replayed outer column rows ih =>
    obtain ⟨hcs, hset⟩ := ih
    have hrow : row ∈ t.compatible cs.toFinset c := by
      rw [hset, ← Table.children_eq column, rows]
      exact List.mem_append_right _ List.mem_cons_self
    have hc : c ∉ cs := by
      have := (Table.mem_openColumns.1 (Table.mem_openColumns_of_branchColumn column)).2
      rwa [← hset, List.mem_toFinset] at this
    refine ⟨hcs.concat_row wf hc hrow, ?_⟩
    rw [Table.toFinset_row (Table.mem_compatible.1 hrow).1, hset, Table.coveredBy_concat]

/-- The column that a node branches on can be covered there. -/
theorem Stack.coverable_concat (wf : t.WellFormed) (hb : t.Coverable base)
    (h : Stack t base branches path cs ahead)
    (column : t.branchColumn (t.coveredBy base path) = some c) : t.Coverable (cs ++ [c]) := by
  obtain ⟨hcs, hset⟩ := h.covers wf hb
  obtain ⟨hp, hn⟩ := Table.mem_openColumns.1 (Table.mem_openColumns_of_branchColumn column)
  rw [← hset, List.mem_toFinset] at hn
  refine ⟨List.nodup_append'.2 ⟨hcs.1, List.nodup_singleton c, by simpa using hn⟩, fun d hd => ?_⟩
  rcases List.mem_append.1 hd with hd | hd
  · exact hcs.2 d hd
  · rw [List.mem_singleton.1 hd]
    exact hp.trans_le Table.primaryCount_le

/-- The columns of a row that is tried at a node can be covered there. -/
theorem Stack.coverable_row (wf : t.WellFormed) (hb : t.Coverable base)
    (h : Stack t base branches path cs ahead)
    (column : t.branchColumn (t.coveredBy base path) = some c) (hrow : row ∈ t.children base path) :
    t.Coverable (cs ++ [c] ++ t.mateColumns row c) := by
  obtain ⟨before, after, rows⟩ := List.append_of_mem hrow
  rw [← List.append_cons]
  exact ((Stack.choice false h column rows).covers wf hb).1

theorem Stack.coverMates_row (wf : t.WellFormed) (hb : t.Coverable base)
    (h : Stack t base branches path cs ahead)
    (column : t.branchColumn (t.coveredBy base path) = some c) (hrow : row ∈ t.children base path) :
    (Mesh.covering t (cs ++ [c])).coverMates c (t.slotOf c row) =
      .ok (.covering t (cs ++ c :: t.mateColumns row c)) := by
  rw [List.append_cons cs c (t.mateColumns row c)]
  exact Mesh.coverMates_covering wf (Table.mem_ones_of_mem_children column hrow)
    (h.coverable_row wf hb column hrow)

theorem Stack.showMates_row (wf : t.WellFormed) (hb : t.Coverable base)
    (h : Stack t base branches path cs ahead)
    (column : t.branchColumn (t.coveredBy base path) = some c) (hrow : row ∈ t.children base path) :
    (Mesh.covering t (cs ++ c :: t.mateColumns row c)).showMates c (t.slotOf c row) =
      .covering t (cs ++ [c]) := by
  rw [List.append_cons cs c (t.mateColumns row c)]
  exact Mesh.showMates_covering wf (Table.mem_ones_of_mem_children column hrow)
    (h.coverable_row wf hb column hrow)

/-! ## What a step does -/

/-- An upper bound on the steps that branches can still take: each moves down its lane and is then
given up. -/
def spare (t : Table) : List Branch → Nat
  | [] => 0
  | b :: branches => t.rowCount + 1 - b.slot + spare t branches

theorem spare_le (branches : List Branch) :
    spare t branches ≤ branches.length * (t.rowCount + 2) := by
  induction branches with
  | nil => exact Nat.zero_le _
  | cons b branches ih =>
    rw [spare, List.length_cons, Nat.add_mul, Nat.one_mul]
    omega

/-- An upper bound on the steps that a run over `t` can still take if it enters at most `levels`
levels without counting them; further ones fill the counter. -/
def allowance (t : Table) (levels : Nat) (r : Run) : Nat :=
  (UInt64.size - 1 - r.tally.searches.toNat + levels) * (t.rowCount + 2) + spare t r.branches

/-- An upper bound on the steps still to be taken. The innermost level of a saved path has been
entered already. -/
def budget (t : Table) (r : Run) : Nat :=
  if r.started then r.allowance t (r.pending.length - 1) else r.allowance t r.pending.length + 1

theorem allowance_mono {levels levels' : Nat} (h : levels ≤ levels') :
    r.allowance t levels ≤ r.allowance t levels' :=
  Nat.add_le_add_right (Nat.mul_le_mul_right _ (Nat.add_le_add_left h _)) _

/-- A level more for a branch that has not tried a row. -/
theorem allowance_push {a n sum : Nat} : a * (n + 2) + (n + 1 + sum) < (a + 1) * (n + 2) + sum + 1 := by
  rw [Nat.succ_mul]
  omega

/-- The step, taken with `tally`, does the first of `ms`, and unless it ends the run it leaves a
budget below `bound`. -/
inductive Does (t : Table) (base : List Nat) (tally : Tally) (bound : Nat) (ms : List Move) :
    Step → Prop
  | failed {events : List Event} {fault : Fault}
      (next : Moves.next tally ms = (events, .error fault)) :
      Does t base tally bound ms ⟨events, .error fault⟩
  | found {events : List Event} {solution : Solution} {r : Run} {ms' : List Move}
      (stands : At t base r ms') (lower : r.budget t < bound)
      (next : Moves.next tally ms = (events, .ok (some solution, r.tally, ms'))) :
      Does t base tally bound ms ⟨events, .ok (.found solution r)⟩
  | moved {events : List Event} {r : Run} {ms' : List Move}
      (stands : At t base r ms') (lower : r.budget t < bound)
      (next : Moves.next tally ms = Moves.emit events (Moves.next r.tally ms')) :
      Does t base tally bound ms ⟨events, .ok (.moved r)⟩
  | ended {events : List Event} {r : Run} (stands : At t base r [])
      (next : Moves.next tally ms = (events, .ok (none, r.tally, []))) :
      Does t base tally bound ms ⟨events, .ok (.ended r)⟩

theorem Does.mono {s : Step} (h : Does t base tally bound ms s) (hle : bound ≤ bound') :
    Does t base tally bound' ms s := by
  cases h with
  | failed next => exact .failed next
  | found stands lower next => exact .found stands (lower.trans_le hle) next
  | moved stands lower next => exact .moved stands (lower.trans_le hle) next
  | ended stands next => exact .ended stands next

/-- A step that first emits something of its own. -/
theorem Does.emit {s : Step} (m : Move) (event : Event) (h : Does t base tally bound ms s)
    (hm : Moves.next tally (m :: ms) = Moves.emit [event] (Moves.next tally ms)) :
    Does t base tally bound (m :: ms) ⟨event :: s.events, s.turn⟩ := by
  cases h with
  | failed next => exact .failed (hm.trans (by rw [next]; rfl))
  | found stands lower next => exact .found stands lower (hm.trans (by rw [next]; rfl))
  | moved stands lower next =>
    exact .moved stands lower (hm.trans (by rw [next, Moves.emit_emit]; rfl))
  | ended stands next => exact .ended stands (hm.trans (by rw [next]; rfl))

/-- A step that first reports the rows chosen, if there is somebody to report to. -/
theorem Does.report {s : Step} (h : Does t base r.tally bound ms s) :
    Does t base r.tally bound ((if r.watched then [.report r.solution] else []) ++ ms)
      ⟨r.report ++ s.events, s.turn⟩ := by
  rw [Run.report]
  cases r.watched with
  | false => exact h
  | true =>
    have hevent : Moves.next r.tally (.report r.solution :: ms) =
        Moves.emit [.report ⟨r.chosen, r.tally⟩] (Moves.next r.tally ms) := by
      rw [Moves.next, solution, List.reverse_reverse]
    exact h.emit _ _ hevent

/-- The labels that the mesh has at the slot of a row. -/
theorem labels_slotOf (wf : t.WellFormed) (hcs : t.Coverable cs) (hone : c ∈ t.ones row) :
    (Mesh.covering t cs).labelsOfRow ((Mesh.covering t cs).rowAt c (t.slotOf c row)) =
      t.labels row := by
  have hreads := Mesh.reads_covering wf hcs
  rw [hreads.rowAt_slotOf (wf.inRange row c hone) hone, hreads.labelsOfRow_eq]

/-- Among the slots of `rows` the one that the saved path asks for belongs to the first row with
the labels wanted. -/
theorem find_slot (wanted : Labels) {rows : List Nat} (wf : t.WellFormed) (hcs : t.Coverable cs)
    (hrows : ∀ row ∈ rows, c ∈ t.ones row) :
    (rows.map (t.slotOf c)).find? (fun slot => (Mesh.covering t cs).labelsOfRow
        ((Mesh.covering t cs).rowAt c slot) == wanted) =
      (rows.dropWhile fun row => !(t.labels row == wanted)).head?.map (t.slotOf c) := by
  induction rows with
  | nil => rfl
  | cons row rows ih =>
    have hrow := hrows row List.mem_cons_self
    rw [List.map_cons, List.find?_cons, labels_slotOf wf hcs hrow, List.dropWhile_cons]
    cases t.labels row == wanted with
    | true => rfl
    | false => exact ih fun row' h => hrows row' (List.mem_cons_of_mem _ h)

/-- Moves the innermost branch on to the first of the slots, or gives it up. -/
def tryNext (r : Run) (level column : Nat) : List Nat → Step
  | [] => ⟨[], .ok (.moved (r.retreat column))⟩
  | slot :: _ =>
    let left := if level < r.replayDepth then [Event.notice (.pathLeft level)] else []
    let r := { r with chosen := r.mesh.labelsOfRow (r.mesh.rowAt column slot) :: r.chosen }
    let rest := r.choose column slot false
    ⟨left ++ r.report ++ rest.events, rest.turn⟩

/-- Without a saved path to follow, a branch moves on to the next slot of its lane. -/
theorem advance_eq_tryNext {b : Branch} (h : (r.undo b).pending = []) :
    r.advance b = (r.undo b).tryNext (r.level - 1) b.column
      (((r.undo b).mesh.lane b.column).ring.after b.slot) := by
  rw [advance]
  split
  · next e =>
    rw [h] at e
    contradiction
  · split
    · next e => rw [e, tryNext]
    · next e => rw [e, tryNext]

variable (wf : t.WellFormed) (hb : t.Coverable base)
include wf hb

/-- Arriving at a node. -/
theorem enter_does (skip : Bool) (stack : Stack t base r.branches path cs ahead)
    (mesh : r.mesh = .covering t cs) (chosen : r.chosen = (t.labelsOfPath path).reverse)
    (started : r.started = true) (onPath : r.OnPath path r.branches)
    (hskip : r.pending = [] → r.isReplayed = skip) :
    Does t base r.tally (r.allowance t r.pending.length + 1)
      (t.arrival base skip r.pending path ++
        Moves.told r.watched (t.follows base r.replayDepth r.reported r.pending path ++
          ahead.flatMap (t.visit base r.replayDepth))) r.enter := by
  obtain ⟨m, tally, branches, _, pending, depth, reported, watched, _⟩ := r
  simp only at mesh chosen started
  subst mesh chosen started
  obtain ⟨hcs, hset⟩ := stack.covers wf hb
  have hcol : (Mesh.covering t cs).chooseColumn = t.branchColumn (t.coveredBy base path) := by
    rw [Mesh.chooseColumn_covering wf hcs, hset]
  have hlevel : branches.length = path.length := stack.level_eq
  have hlength : (t.labelsOfPath path).reverse.length = path.length := by simp [Table.labelsOfPath]
  cases hc : t.branchColumn (t.coveredBy base path) with
  | none =>
    have hsol : t.isSolution base path := Table.isSolution_iff.2 hc
    rw [hc] at hcol
    rw [Table.follows_of_isSolution hsol, List.nil_append]
    cases pending with
    | cons wanted later =>
      rw [Table.arrival, if_pos hsol]
      simp only [enter, hcol, level, hlevel, hlength, solution, List.reverse_reverse]
      refine .found (.settled stack rfl rfl rfl rfl) (Nat.lt_succ_of_le ?_) rfl
      exact allowance_mono (Nat.zero_le _)
    | nil =>
      rw [Table.arrival, if_pos hsol]
      simp only [enter, hcol, hskip, level, hlevel, solution, List.reverse_reverse]
      cases skip with
      | true => exact .moved (.settled stack rfl rfl rfl rfl) (Nat.lt_succ_self _) rfl
      | false => exact .found (.settled stack rfl rfl rfl rfl) (Nat.lt_succ_self _) rfl
  | some c =>
    -- A level that the saved path leads to is not counted, any other is.
    have hsol : ¬t.isSolution base path := by simp [Table.isSolution_iff, hc]
    have hcover := Mesh.cover_covering wf (stack.coverable_concat wf hb hc)
    rw [hc] at hcol
    cases pending with
    | cons wanted later =>
      rw [Table.arrival, if_neg hsol, List.nil_append]
      simp only [enter, hcol, hcover, List.isEmpty_cons, Bool.false_eq_true, if_false]
      refine .moved (.opened stack hc rfl rfl rfl rfl onPath) ?_ rfl
      exact allowance_push
    | nil =>
      rw [Table.arrival, if_neg hsol]
      simp only [enter, hcol, hcover, List.isEmpty_nil, if_true]
      by_cases hfull : tally.searches.toNat + 1 < UInt64.size
      · obtain ⟨counted, hok, -, hn⟩ := Tally.countSearch_eq_ok hfull
        rw [hok]
        refine .moved (.opened stack hc rfl rfl rfl rfl onPath) ?_ ?_
        · have hone : UInt64.size - 1 - tally.searches.toNat =
              UInt64.size - 1 - counted.searches.toNat + 1 := by omega
          simp only [allowance, hone, List.length_nil]
          exact allowance_push
        · simp only [List.singleton_append, Moves.next, hok]
          rfl
      · rw [Tally.countSearch_eq_error (Nat.le_of_not_lt hfull)]
        refine .failed ?_
        simp only [List.singleton_append, Moves.next]
        rw [Tally.countSearch_eq_error (Nat.le_of_not_lt hfull)]

/-- Choosing a row of the column that is covered at `path`. -/
theorem choose_does {before after : List Nat} (replayed skip : Bool)
    (stack : Stack t base r.branches.tail path cs ahead)
    (column : t.branchColumn (t.coveredBy base path) = some c)
    (rows : t.children base path = before ++ row :: after)
    (mesh : r.mesh = .covering t (cs ++ [c]))
    (chosen : r.chosen = (t.labelsOfPath (path ++ [row])).reverse) (started : r.started = true)
    (onPath : r.OnPath (path ++ [row]) (⟨c, t.slotOf c row, replayed⟩ :: r.branches.tail))
    (hskip : r.pending = [] → (r.reported && path.length + 1 == r.replayDepth &&
      (replayed && r.branches.tail.all (·.replayed))) = skip) :
    Does t base r.tally
      ({ r with branches := ⟨c, t.slotOf c row, replayed⟩ :: r.branches.tail }.allowance t
        r.pending.length + 1)
      (t.arrival base skip r.pending (path ++ [row]) ++
        Moves.told r.watched (t.follows base r.replayDepth r.reported r.pending (path ++ [row]) ++
          (t.subtrees base path after ++ ahead).flatMap (t.visit base r.replayDepth)))
      (r.choose c (t.slotOf c row) replayed) := by
  have stack' := Stack.choice replayed stack column rows
  rw [choose, mesh, stack.coverMates_row wf hb column (by simp [rows])]
  refine enter_does (r := { r with
    mesh := .covering t (cs ++ c :: t.mateColumns row c)
    branches := ⟨c, t.slotOf c row, replayed⟩ :: r.branches.tail })
    wf hb skip stack' rfl chosen started onPath fun hp => ?_
  rw [← hskip hp, isReplayed, level, List.length_cons, stack.level_eq, List.all_cons]

theorem tryNext_does {b : Branch} {before after : List Nat} (top : r.branches = b :: branches)
    (stack : Stack t base branches path cs ahead)
    (column : t.branchColumn (t.coveredBy base path) = some c)
    (rows : t.children base path = before ++ after)
    (slot_le : b.slot ≤ t.rowCount) (slot_lt : ∀ row ∈ after, b.slot < t.slotOf c row)
    (mesh : r.mesh = .covering t (cs ++ [c])) (chosen : r.chosen = (t.labelsOfPath path).reverse)
    (started : r.started = true) (pending : r.pending = []) :
    Does t base r.tally (r.budget t) (Moves.told r.watched
      ((t.subtrees base path after ++ ahead).flatMap (t.visit base r.replayDepth)))
      (r.tryNext path.length c (after.map (t.slotOf c))) := by
  obtain ⟨m, tally, _, _, _, depth, reported, watched, _⟩ := r
  simp only at top mesh chosen started pending
  subst top mesh chosen started pending
  have hcover := stack.coverable_concat wf hb column
  cases after with
  | nil =>
    refine .moved (.settled stack (Mesh.showColumn_covering wf hcover) rfl rfl rfl) ?_ rfl
    simp only [retreat, budget, allowance, List.tail_cons, spare, if_true]
    omega
  | cons row after =>
    have hrow : row ∈ t.compatible (t.coveredBy base path) c := by
      rw [← Table.children_eq column, rows]
      simp
    have hone := (Table.mem_compatible.1 hrow).1
    have hle : t.slotOf c row ≤ t.rowCount := Table.slotOf_le (Table.lt_rowCount_of_mem_ones hone)
    have hlt := slot_lt row List.mem_cons_self
    have hchoose := choose_does wf hb false false
      (r := ⟨.covering t (cs ++ [c]), tally, b :: branches, (t.labelsOfPath (path ++ [row])).reverse,
        [], depth, reported, watched, true⟩) stack column rows rfl rfl rfl (.inl rfl) (by simp)
    have hmoves : (t.subtrees base path (row :: after) ++ ahead).flatMap (t.visit base depth) =
        (if path.length < depth then [.notice (.pathLeft path.length)] else []) ++
          .report (t.labelsOfPath (path ++ [row])) :: (t.arrival base false [] (path ++ [row]) ++
            (t.follows base depth reported [] (path ++ [row]) ++
              (t.subtrees base path after ++ ahead).flatMap (t.visit base depth))) := by
      simp [Table.preorder_eq, Table.visit, Table.follows]
    have hbudget : allowance t 0 ⟨.covering t (cs ++ [c]), tally,
        ⟨c, t.slotOf c row, false⟩ :: branches, (t.labelsOfPath (path ++ [row])).reverse, [], depth,
        reported, watched, true⟩ + 1 ≤ budget t ⟨.covering t (cs ++ [c]), tally, b :: branches,
          (t.labelsOfPath path).reverse, [], depth, reported, watched, true⟩ := by
      simp only [budget, allowance, spare, if_true, List.length_nil,
        Nat.zero_sub]
      omega
    have hreported := (hchoose.mono hbudget).report
    simp only [solution, List.reverse_reverse] at hreported
    rw [hmoves, Moves.told_append, Moves.told_report, Moves.told_append, Moves.told_arrival]
    simp only [List.map_cons, tryNext, labels_slotOf wf hcover hone, ← Table.labelsOfPath_concat]
    split
    · rw [Moves.told_notice, Moves.told_nil]
      exact hreported.emit (.notice (.pathLeft path.length)) (.notice (.pathLeft path.length)) rfl
    · rw [Moves.told_nil]
      exact hreported

/-- The first step. -/
theorem step_does_fresh (mesh : r.mesh = .covering t base) (branches : r.branches = [])
    (chosen : r.chosen = []) (depth : r.replayDepth = r.pending.length)
    (started : r.started = false) :
    Does t base r.tally (r.budget t)
      (.notice r.startNotice :: Moves.told r.watched (t.moves base r.reported r.pending)) r.step := by
  have hnot : ¬r.started = true := by simp [started]
  have henter := enter_does (r := { r with started := true }) wf hb r.reported
    (branches ▸ Stack.root) mesh (by simp [chosen, Table.labelsOfPath]) rfl
    (.inr ⟨by simp [depth], by simp [branches]⟩)
    (fun hp => by
      have hp' : r.pending = [] := hp
      simp [isReplayed, level, branches, depth, hp'])
  rw [step, if_neg hnot, Table.moves, Moves.told_append, Moves.told_arrival, ← depth, budget,
    if_neg hnot]
  simp only [List.flatMap_nil, List.append_nil] at henter
  exact henter.emit (.notice r.startNotice) (.notice r.startNotice) rfl

/-- The slots to be tried in a column just covered. -/
theorem after_opened (stack : Stack t base branches path cs ahead)
    (column : t.branchColumn (t.coveredBy base path) = some c) :
    ((Mesh.covering t (cs ++ [c])).lane c).ring.after 0 =
      (t.children base path).map (t.slotOf c) := by
  obtain ⟨-, hset⟩ := stack.covers wf hb
  rw [Mesh.after_zero_covering wf (stack.coverable_concat wf hb column), hset,
    Table.children_eq column]

/-- The slots to be tried after the one of a row. -/
theorem after_chosen {before after : List Nat} (stack : Stack t base branches path cs ahead)
    (column : t.branchColumn (t.coveredBy base path) = some c)
    (rows : t.children base path = before ++ row :: after) :
    ((Mesh.covering t (cs ++ [c])).lane c).ring.after (t.slotOf c row) =
      after.map (t.slotOf c) := by
  obtain ⟨-, hset⟩ := stack.covers wf hb
  rw [Table.children_eq column, ← hset] at rows
  exact Mesh.after_slotOf_covering wf (stack.coverable_concat wf hb column) rows

/-- A step from a column just covered, following the saved path. -/
theorem step_does_replay {wanted : Labels} {later : List Labels} {replayed : Bool}
    (stack : Stack t base branches path cs ahead)
    (column : t.branchColumn (t.coveredBy base path) = some c)
    (top : r.branches = ⟨c, 0, replayed⟩ :: branches) (mesh : r.mesh = .covering t (cs ++ [c]))
    (chosen : r.chosen = (t.labelsOfPath path).reverse) (started : r.started = true)
    (pending : r.pending = wanted :: later)
    (depth : path.length + r.pending.length = r.replayDepth)
    (all : branches.all (·.replayed) = true) :
    Does t base r.tally (r.budget t)
      (Moves.told r.watched (t.follows base r.replayDepth r.reported r.pending path ++
        ahead.flatMap (t.visit base r.replayDepth))) (r.advance ⟨c, 0, replayed⟩) := by
  obtain ⟨m, tally, _, _, _, replayDepth, reported, watched, _⟩ := r
  simp only at top mesh chosen started pending depth
  subst top mesh chosen started pending
  have hcover := stack.coverable_concat wf hb column
  have hsol : ¬t.isSolution base path := by simp [Table.isSolution_iff, column]
  have hone : ∀ row ∈ t.children base path, c ∈ t.ones row := fun row =>
    Table.mem_ones_of_mem_children column
  have hfind := find_slot wanted wf hcover hone
  rw [advance, undo, if_pos rfl]
  simp only [after_opened wf hb stack column, hfind, Table.follows, level, List.length_cons,
    Nat.add_sub_cancel, stack.level_eq]
  cases hdrop : (t.children base path).dropWhile fun row => !(t.labels row == wanted) with
  | nil =>
    simp only [if_neg hsol, List.head?_nil, Option.map_none, List.singleton_append,
      Moves.told_notice]
    refine .moved (.settled stack (Mesh.showColumn_covering wf hcover) rfl rfl rfl) ?_ rfl
    have hle := Nat.mul_le_mul_right (t.rowCount + 2)
      (Nat.le_add_right (UInt64.size - 1 - tally.searches.toNat) later.length)
    simp only [retreat, budget, allowance, List.tail_cons, spare, if_true,
      List.length_cons, Nat.add_sub_cancel, List.length_nil, Nat.zero_sub, Nat.add_zero]
    omega
  | cons row after =>
    have hwanted : t.labels row = wanted := by
      have hhead := List.head?_dropWhile_not (fun row => !(t.labels row == wanted))
        (t.children base path)
      rw [hdrop] at hhead
      simpa using hhead
    have hrows : t.children base path =
        (t.children base path).takeWhile (fun row => !(t.labels row == wanted)) ++ row :: after := by
      rw [← hdrop, List.takeWhile_append_dropWhile]
    have hrow : row ∈ t.children base path := by
      rw [hrows]
      simp
    have hle : t.slotOf c row ≤ t.rowCount :=
      Table.slotOf_le (Table.lt_rowCount_of_mem_ones (hone row hrow))
    have hpos : 0 < t.slotOf c row := Nat.succ_pos _
    have hchoose := choose_does wf hb true reported
      (r := ⟨.covering t (cs ++ [c]), tally, ⟨c, 0, replayed⟩ :: branches,
        (t.labelsOfPath (path ++ [row])).reverse, later, replayDepth, reported, watched, true⟩)
      stack column hrows rfl rfl rfl (.inr ⟨by simp [← depth]; omega, by simpa using all⟩)
      (fun hp => by
        simp only at hp
        simp [← depth, hp, all])
    have hmoves : t.arrival base reported later (path ++ [row]) ++
        t.follows base replayDepth reported later (path ++ [row]) ++
          (t.subtrees base path after).flatMap (t.visit base replayDepth) ++
            ahead.flatMap (t.visit base replayDepth) =
        t.arrival base reported later (path ++ [row]) ++
          (t.follows base replayDepth reported later (path ++ [row]) ++
            (t.subtrees base path after ++ ahead).flatMap (t.visit base replayDepth)) := by
      simp
    simp only [List.head?_cons, Option.map_some]
    rw [hmoves, Moves.told_append, Moves.told_arrival, ← hwanted, ← Table.labelsOfPath_concat]
    refine hchoose.mono ?_
    simp only [budget, allowance, List.tail_cons, spare, if_true,
      List.length_cons, Nat.add_sub_cancel]
    omega

/-- A step of a branch whose column has been tried down to the row at its slot, if any. -/
theorem step_does_next {b : Branch} (before : List Nat) {after : List Nat}
    (top : r.branches = b :: branches)
    (stack : Stack t base branches path cs ahead)
    (column : t.branchColumn (t.coveredBy base path) = some b.column)
    (rows : t.children base path = before ++ after)
    (slot_le : b.slot ≤ t.rowCount) (slot_lt : ∀ row ∈ after, b.slot < t.slotOf b.column row)
    (slots : ((Mesh.covering t (cs ++ [b.column])).lane b.column).ring.after b.slot =
      after.map (t.slotOf b.column))
    (mesh : (r.undo b).mesh = .covering t (cs ++ [b.column]))
    (chosen : (r.undo b).chosen = (t.labelsOfPath path).reverse)
    (started : r.started = true) (pending : r.pending = []) :
    Does t base r.tally (r.budget t) (Moves.told r.watched
      ((t.subtrees base path after ++ ahead).flatMap (t.visit base r.replayDepth)))
      (r.advance b) := by
  have hundo : r.undo b = { r with mesh := (r.undo b).mesh, chosen := (r.undo b).chosen } := by
    unfold undo
    split
    · rfl
    · rw [pending]
  have hlevel : r.level - 1 = path.length := by
    rw [level, top, List.length_cons, Nat.add_sub_cancel, stack.level_eq]
  rw [advance_eq_tryNext (by rw [hundo]; exact pending), hlevel, mesh, slots]
  rw [hundo, mesh, chosen]
  exact tryNext_does wf hb (r := { r with
    mesh := .covering t (cs ++ [b.column])
    chosen := (t.labelsOfPath path).reverse }) top stack column rows slot_le slot_lt rfl rfl
    started pending

/-- One step does the next moves. -/
theorem step_does (h : At t base r ms) : Does t base r.tally (r.budget t) ms r.step := by
  cases h with
  | fresh mesh branches chosen depth started =>
    exact step_does_fresh wf hb mesh branches chosen depth started
  | @opened branches path cs ahead c replayed stack column top mesh chosen started onPath =>
    have hstep : r.step = r.advance ⟨c, 0, replayed⟩ := by rw [step, if_pos started, top]
    rw [hstep]
    cases hp : r.pending with
    | nil =>
      have hfollows : t.follows base r.replayDepth r.reported [] path ++
          ahead.flatMap (t.visit base r.replayDepth) =
          (t.subtrees base path (t.children base path) ++ ahead).flatMap
            (t.visit base r.replayDepth) := by
        simp [Table.follows, Table.descendants]
      rw [hfollows]
      exact step_does_next wf hb [] top stack column rfl (Nat.zero_le _)
        (fun row _ => Nat.succ_pos _) (after_opened wf hb stack column) mesh chosen started hp
    | cons wanted later =>
      rcases onPath with hnil | ⟨depth, all⟩
      · rw [hp] at hnil
        contradiction
      · rw [← hp]
        exact step_does_replay wf hb stack column top mesh chosen started hp depth all
  | @settled path cs ahead stack mesh chosen started pending =>
    -- The innermost branch is undone first, which gives back the mesh with its column covered.
    generalize hbs : r.branches = branches at stack
    cases stack with
    | root =>
      have hstep : r.step = ⟨[], .ok (.ended r)⟩ := by rw [step, if_pos started, hbs]
      have hroot : Stack t base r.branches [] base [] := hbs ▸ .root
      have hstands := At.settled hroot mesh chosen started pending
      rw [List.flatMap_nil, Moves.told_nil] at hstands ⊢
      rw [hstep]
      exact .ended hstands rfl
    | @choice branches path cs ahead c row before after replayed outer column rows =>
      have hstep : r.step = r.advance ⟨c, t.slotOf c row, replayed⟩ := by
        rw [step, if_pos started, hbs]
      have hrow : row ∈ t.children base path := by simp [rows]
      have hasc : (t.compatible (t.coveredBy base path) c).Pairwise (· < ·) :=
        Table.compatible_ascending
      rw [← Table.children_eq column, rows] at hasc
      have hone := Table.mem_ones_of_mem_children column hrow
      have hundo : r.undo ⟨c, t.slotOf c row, replayed⟩ =
          { r with
            mesh := r.mesh.showMates c (t.slotOf c row)
            chosen := r.chosen.tail
            pending := [] } :=
        if_neg (Nat.succ_ne_zero _)
      rw [hstep]
      refine step_does_next wf hb (before ++ [row]) hbs outer column (by simp [rows])
        (Table.slotOf_le (Table.lt_rowCount_of_mem_ones hone)) (fun row' hrow' => ?_)
        (after_chosen wf hb outer column rows) ?_ ?_ started pending
      · have hlt := (List.pairwise_cons.1 (List.pairwise_append.1 hasc).2.1).1 row' hrow'
        exact Table.slotOf_lt (Table.mem_holders.2 hone) hlt
      · rw [hundo, mesh]
        exact outer.showMates_row wf hb column hrow
      · rw [hundo, chosen, Table.labelsOfPath_concat, List.tail_cons]

end Run

end Covering
