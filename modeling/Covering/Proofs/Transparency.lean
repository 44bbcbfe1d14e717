import Covering.Checkpoint
import Covering.Proofs.Resumption

/-!
# Resuming from a report goes on as before

What a run shows its caller are its reports and its solutions, each with the tally at that moment:
`Run.record`. If the rows of a table can be told apart, a run resumed from a report shows just what
the original run showed after it. The saved path leads back to the node reported, and what is left
there is what the original run had left: `Table.moves_labelsOfPath`.
-/

namespace Covering
set_option autoImplicit false

/-- Something that a run shows its caller, with the tally at that moment. -/
inductive Shown where
  | report (report : Report)
  | solution (rows : Solution) (tally : Tally)
  deriving DecidableEq

namespace Shown

/-- What an event shows. -/
def ofEvent : Event → Option Shown
  | .report position => some (.report position)
  | .notice _ => none

end Shown

namespace Run

/-- What a run shows in `limit` calls of `next`, or until there is no solution any more, and the
tally in the end. The caller formats each solution as it arrives, or none. -/
def record (formats : Bool) : Nat → Run → List Shown × Except Fault Tally
  | 0, _ => ([], .error .unfinished)
  | limit + 1, r =>
    let shown := r.next.1.toList.filterMap Shown.ofEvent
    match r.next.2 with
    | .error fault => (shown, .error fault)
    | .ok (none, r) => (shown, .ok r.tally)
    | .ok (some solution, r) =>
      let formatted := if formats then (r.format solution).map (·.2) else .ok r
      Moves.emit (shown ++ [.solution solution r.tally]) <|
        match formatted with
        | .error fault => ([], .error fault)
        | .ok r => record formats limit r

end Run

namespace Moves

variable {formats : Bool} {tally : Tally} {ms ms' : List Move}

/-- What there is to show of the moves, and the tally in the end. -/
def record (formats : Bool) : Tally → List Move → List Shown × Except Fault Tally
  | tally, [] => ([], .ok tally)
  | tally, .notice _ :: ms => record formats tally ms
  | tally, .search :: ms =>
    match tally.countSearch with
    | .error fault => ([], .error fault)
    | .ok tally => record formats tally ms
  | tally, .report path :: ms => emit [.report ⟨path.reverse, tally⟩] (record formats tally ms)
  | tally, .found solution :: ms =>
    emit [.solution solution tally] <|
      match if formats then tally.countSolution else .ok tally with
      | .error fault => ([], .error fault)
      | .ok tally => record formats tally ms

/-- A record goes on after a call of `next`. -/
theorem record_eq (tally : Tally) (ms : List Move) : record formats tally ms =
    emit ((next tally ms).1.filterMap Shown.ofEvent)
      (match (next tally ms).2 with
      | .error fault => ([], .error fault)
      | .ok (none, tally, _) => ([], .ok tally)
      | .ok (some solution, tally, ms) => record formats tally (.found solution :: ms)) := by
  induction ms generalizing tally with
  | nil => rfl
  | cons m ms ih =>
    cases m with
    | notice notice => exact ih tally
    | found solution => rfl
    | report path =>
      rw [record, ih tally, emit_emit]
      rfl
    | search =>
      rw [record, next]
      cases tally.countSearch with
      | error fault => rfl
      | ok tally => exact ih tally

/-- What follows a report is a record of the moves after it, from the tally reported. -/
theorem record_split {before after : List Shown} {shown : Report} {result : Except Fault Tally}
    (h : record formats tally ms = (before ++ .report shown :: after, result)) :
    ∃ earlier later, ms = earlier ++ .report shown.path :: later ∧
      record formats shown.tally later = (after, result) := by
  induction ms generalizing tally before with
  | nil => simp [record] at h
  | cons m ms ih =>
    cases m with
    | notice notice =>
      obtain ⟨earlier, later, hms, hrecord⟩ := ih h
      exact ⟨.notice notice :: earlier, later, by rw [hms, List.cons_append], hrecord⟩
    | search =>
      rw [record] at h
      cases hcount : tally.countSearch with
      | error fault => simp [hcount] at h
      | ok counted =>
        rw [hcount] at h
        obtain ⟨earlier, later, hms, hrecord⟩ := ih h
        exact ⟨.search :: earlier, later, by rw [hms, List.cons_append], hrecord⟩
    | report path =>
      rw [record, emit, Prod.mk.injEq] at h
      obtain ⟨hshown, hresult⟩ := h
      cases before with
      | nil =>
        simp only [List.singleton_append, List.nil_append, List.cons.injEq, Shown.report.injEq]
          at hshown
        obtain ⟨rfl, rfl⟩ := hshown
        exact ⟨[], ms, by simp [Report.path], Prod.ext rfl hresult⟩
      | cons first before =>
        obtain ⟨-, hshown⟩ := List.cons.inj hshown
        obtain ⟨earlier, later, hms, hrecord⟩ := ih (Prod.ext hshown hresult)
        exact ⟨.report path :: earlier, later, by rw [hms, List.cons_append], hrecord⟩
    | found solution =>
      rw [record, emit, Prod.mk.injEq] at h
      obtain ⟨hshown, hresult⟩ := h
      cases before with
      | nil => simp at hshown
      | cons first before =>
        obtain ⟨-, hshown⟩ := List.cons.inj hshown
        cases hformatted : if formats then tally.countSolution else .ok tally with
        | error fault => simp [hformatted] at hshown
        | ok formatted =>
          rw [hformatted] at hshown hresult
          obtain ⟨earlier, later, hms, hrecord⟩ := ih (Prod.ext hshown hresult)
          exact ⟨.found solution :: earlier, later, by rw [hms, List.cons_append], hrecord⟩

/-- The moves that show something or count a search. -/
def quiet (ms : List Move) : List Move :=
  ms.filter fun
    | .notice _ => false
    | _ => true

theorem quiet_append : quiet (ms ++ ms') = quiet ms ++ quiet ms' := List.filter_append ..

/-- Notices do not matter to a record. -/
theorem record_quiet (tally : Tally) (ms : List Move) :
    record formats tally (quiet ms) = record formats tally ms := by
  induction ms generalizing tally with
  | nil => rfl
  | cons m ms ih =>
    cases m with
    | notice notice => exact ih tally
    | report path => exact congrArg (emit _) (ih tally)
    | search =>
      rw [record, ← funext fun tally => ih tally]
      rfl
    | found solution =>
      rw [record, ← funext fun tally => ih tally]
      rfl

/-- The record of moves fails only when a counter is full. -/
theorem record_error {fault : Fault} (h : (record formats tally ms).2 = .error fault) :
    fault = .tallyOverflow := by
  induction ms generalizing tally with
  | nil => simp [record] at h
  | cons m ms ih =>
    cases m with
    | notice notice => exact ih h
    | report path => exact ih h
    | search =>
      rw [record] at h
      cases hcount : tally.countSearch with
      | error fault' =>
        rw [hcount] at h
        cases h
        exact Tally.fault_countSearch hcount
      | ok counted =>
        rw [hcount] at h
        exact ih h
    | found solution =>
      rw [record] at h
      cases hformatted : if formats then tally.countSolution else .ok tally with
      | error fault' =>
        rw [hformatted] at h
        cases h
        cases formats with
        | true => exact Tally.fault_countSolution hformatted
        | false => cases hformatted
      | ok formatted =>
        rw [hformatted] at h
        exact ih h

end Moves

namespace Table

variable {t : Table} {base node : List Nat} {nodes : List (List Nat)}
  {ms ms' later : List Move} {path : List Labels} {depth : Nat}

theorem quiet_visits (nodes : List (List Nat)) :
    Moves.quiet (nodes.flatMap (t.visit base depth)) =
      Moves.quiet (nodes.flatMap (t.visit base 0)) := by
  induction nodes with
  | nil => rfl
  | cons node nodes ih =>
    have hvisit : Moves.quiet (t.visit base depth node) = Moves.quiet (t.visit base 0 node) := by
      rw [visit, visit]
      split <;> rfl
    rw [List.flatMap_cons, Moves.quiet_append, ih, hvisit, ← Moves.quiet_append, List.flatMap_cons]

theorem report_notMem_arrival : .report path ∉ t.arrival base false [] node := by
  rw [arrival]
  split <;> simp

theorem arrival_split (h : t.arrival base false [] node ++ ms' = ms ++ .report path :: later) :
    ∃ ms, ms' = ms ++ .report path :: later := by
  rcases List.append_eq_append_iff.1 h with ⟨as, -, h⟩ | ⟨as, harrival, h⟩
  · exact ⟨as, h⟩
  · cases as with
    | nil => exact ⟨[], h.symm⟩
    | cons m as =>
      obtain ⟨rfl, -⟩ := List.cons.inj h
      have hmem : .report path ∈ t.arrival base false [] node := by simp [harrival]
      exact absurd hmem report_notMem_arrival

/-- A report is made on a visit, and what follows are the rest of the visit and those after it. -/
theorem visits_split (h : nodes.flatMap (t.visit base 0) = ms ++ .report path :: later) :
    ∃ earlier node after, nodes = earlier ++ node :: after ∧ path = t.labelsOfPath node ∧
      later = t.arrival base false [] node ++ after.flatMap (t.visit base 0) := by
  induction nodes generalizing ms with
  | nil => simp at h
  | cons node nodes ih =>
    have hvisit : t.visit base 0 node =
        .report (t.labelsOfPath node) :: t.arrival base false [] node := rfl
    rw [List.flatMap_cons, hvisit, List.cons_append] at h
    cases ms with
    | nil =>
      obtain ⟨hreport, hrest⟩ := List.cons.inj h
      exact ⟨[], node, nodes, rfl, (Move.report.inj hreport).symm, hrest.symm⟩
    | cons m ms =>
      obtain ⟨ms, hms⟩ := arrival_split (List.cons.inj h).2
      obtain ⟨earlier, found, after, hnodes, hspec⟩ := ih hms
      exact ⟨node :: earlier, found, after, by rw [hnodes, List.cons_append], hspec⟩

end Table

namespace Run

variable {t : Table} {base : List Nat} {r : Run} {ms : List Move} {formats : Bool} {limit : Nat}

/-- A run shows what its moves do. -/
theorem record_eq (wf : t.WellFormed) (hb : t.Coverable base) (h : At t base r ms)
    (hlimit : r.budget t < limit) : r.record formats limit = Moves.record formats r.tally ms := by
  induction limit generalizing r ms with
  | zero => omega
  | succ limit ih =>
    have hans := next_answers wf hb h
    rw [record, Moves.record_eq]
    generalize Moves.next r.tally ms = a at hans ⊢
    generalize r.next.1.toList = emitted at hans ⊢
    generalize r.next.2 = result at hans ⊢
    cases hans with
    | failed => simp [Moves.emit]
    | ended stands => simp [Moves.emit]
    | @found _ solution r' ms' stands lower =>
      simp only [Moves.record, Moves.emit_emit]
      congr 1
      cases formats with
      | false => exact ih stands (by omega)
      | true =>
        cases hcount : r'.tally.countSolution with
        | error fault => simp [format, hcount, bind, Except.bind, Except.map]
        | ok counted =>
          have hbudget : { r' with tally := counted }.budget t = r'.budget t := by
            simp only [budget, allowance, Tally.searches_countSolution hcount]
          simp only [format, hcount, bind, Except.bind, Except.map, pure, Except.pure, if_true]
          exact ih (stands.retally counted) (by omega)

/-- A drained run shows what its moves do. -/
theorem record_stepBound (wf : t.WellFormed) (hb : t.Coverable base) (h : At t base r ms) :
    r.record formats r.stepBound = Moves.record formats r.tally ms :=
  record_eq wf hb h (budget_lt_stepBound wf hb h)

end Run

namespace Table

variable {t : Table} {base : List Nat}

/-- If the rows that are not empty differ in their columns, a run resumed from a report of a fresh
run, over the same problem with nothing counted, shows what the fresh run showed after that report,
whether or not the caller formats the solutions. Neither stops early: only a full counter makes them
fail. -/
theorem record_resume_ofReport (built : t.Built) (nodup : base.Nodup)
    (inRange : ∀ c ∈ base, c < t.columnCount)
    (distinct : ∀ row < t.rowCount, ∀ row' < t.rowCount, t.ones row ≠ [] →
      (t.ones row).toFinset = (t.ones row').toFinset → row = row') :
    ∃ m, base.foldlM Mesh.cover (.ofTable t) = .ok m ∧
      ∀ (tally : Tally) (saved : Option Tally) (formats : Bool),
        let original := Problem.resume ⟨m, tally⟩ ⟨[], saved, false⟩
        let record := original.record formats original.stepBound
        (∀ fault, record.2 = .error fault → fault = .tallyOverflow) ∧
          ∀ before report after, record.1 = before ++ .report report :: after →
            let resumed := (Problem.ofMesh m).resume (Checkpoint.ofReport report).bookmark
            resumed.record formats resumed.stepBound = (after, record.2) := by
  have wf := built.wellFormed
  have hb : t.Coverable base := ⟨nodup, inRange⟩
  refine ⟨.covering t base, Mesh.foldlM_cover_ofTable wf hb, fun tally saved formats => ?_⟩
  have hat := Run.at_resume (p := ⟨.covering t base, tally⟩) ⟨[], saved, false⟩ rfl
  simp only [Run.record_stepBound wf hb hat]
  refine ⟨fun fault => Moves.record_error, fun before report after hrecord => ?_⟩
  obtain ⟨earlier, later, hms, hlater⟩ := Moves.record_split (Prod.ext hrecord rfl)
  obtain ⟨node, rest, hnode, hpath, hrest⟩ : ∃ node rest,
      (∃ earlier, t.descendants base [] = earlier ++ node :: rest) ∧
      report.path = t.labelsOfPath node ∧
      later = t.arrival base false [] node ++ rest.flatMap (t.visit base 0) := by
    cases earlier with
    | nil => simp at hms
    | cons m earlier =>
      obtain ⟨ms, hvisits⟩ := arrival_split (List.cons.inj hms).2
      obtain ⟨earlier, node, rest, hnodes, hpath, hrest⟩ := visits_split hvisits
      exact ⟨node, rest, ⟨earlier, hnodes⟩, hpath, hrest⟩
  obtain ⟨earlier, hnodes⟩ := hnode
  have htree : t.preorder base [] = ([] :: earlier) ++ node :: rest := by
    rw [preorder_eq, hnodes, List.cons_append]
  have hat' := Run.at_resume (p := .ofMesh (.covering t base))
    (Checkpoint.ofReport report).bookmark rfl
  have htally : ((Problem.ofMesh (.covering t base)).resume
      (Checkpoint.ofReport report).bookmark).tally = report.tally := Tally.raiseTo_zero
  rw [Run.record_stepBound wf hb hat', htally, ← hlater, hrest]
  have hmoves : t.moves base (Checkpoint.ofReport report).bookmark.reported
      (Checkpoint.ofReport report).bookmark.path =
      t.arrival base false [] node ++
        rest.flatMap (t.visit base (t.labelsOfPath node).length) := by
    rw [← moves_labelsOfPath wf distinct htree, ← hpath]
    rfl
  rw [hmoves, Moves.record, ← Moves.record_quiet, Moves.quiet_append, quiet_visits,
    ← Moves.quiet_append, Moves.record_quiet]

/-- The case of `abc`, whose rows differ, with every solution formatted. -/
theorem record_resume_ofReport_abc :
    let m := Mesh.ofTable abc
    let original := (Problem.ofMesh m).resume ⟨[], none, false⟩
    let record := original.record true original.stepBound
    record.2 = .ok ⟨3, 2⟩ ∧ record.1.length = 7 ∧
      ∀ before report after, record.1 = before ++ .report report :: after →
        let resumed := (Problem.ofMesh m).resume (Checkpoint.ofReport report).bookmark
        resumed.record true resumed.stepBound = (after, record.2) := by
  intro m original record
  obtain ⟨_, hm, h⟩ := record_resume_ofReport built_abc List.nodup_nil (by decide) (by decide)
  obtain rfl : m = _ := Except.ok.inj hm
  obtain ⟨-, hresumed⟩ := h .zero none true
  exact ⟨by decide +kernel, by decide +kernel, hresumed⟩

end Table

end Covering
