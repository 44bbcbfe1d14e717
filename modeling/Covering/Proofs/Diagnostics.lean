import Covering.Proofs.Resumption
import Covering.Proofs.Run.Replies

/-!
# What a resumed search tells

Every solution that a search yields is told just before it, and nothing else is told at that
severity (`Moves.Announced`). Where a resumed search stops following its path, it warns if the path
goes on there, and informs if the path was a solution that the caller has; from then on it does
neither. Main statement: `Table.resume_tells`.
-/

namespace Covering
set_option autoImplicit false

/-- The notice of an event. -/
def Event.notice? : Event → Option Run.Notice
  | .notice told => some told
  | .report _ => none

/-- The notices of a severity among events. -/
def noticesOf (severity : Severity) (events : List Event) : List Run.Notice :=
  (events.filterMap Event.notice?).filter fun notice => notice.line.severity = severity

/-- The notices of a severity in a reply. -/
def Run.Reply.notices (severity : Severity) (reply : Run.Reply) : List Run.Notice :=
  noticesOf severity reply.events

section

variable {severity : Severity} {events events' : List Event}

@[simp] theorem noticesOf_append : noticesOf severity (events ++ events') =
    noticesOf severity events ++ noticesOf severity events' := by
  rw [noticesOf, List.filterMap_append, List.filter_append]
  rfl

@[simp] theorem noticesOf_notices {notices : List Run.Notice} :
    noticesOf severity (notices.map .notice) =
      notices.filter fun notice => notice.line.severity = severity := by
  have hsome : Event.notice? ∘ Event.notice = some := rfl
  rw [noticesOf, List.filterMap_map, hsome, List.filterMap_some]

end

namespace Moves

variable {tally : Tally} {ms ms' : List Move} {severity : Severity} {notices : List Run.Notice}
  {calls : Nat}

/-! ## Solutions are announced -/

/-- Every solution comes right after the notice of it, and no other notice is that severe. -/
inductive Announced : List Move → Prop
  | nil : Announced []
  | notice {notice : Run.Notice} {ms : List Move} (other : notice.line.severity ≠ .trace)
      (rest : Announced ms) : Announced (.notice notice :: ms)
  | search {ms : List Move} (rest : Announced ms) : Announced (.search :: ms)
  | report {path : List Labels} {ms : List Move} (rest : Announced ms) :
      Announced (.report path :: ms)
  | found {solution : Solution} {ms : List Move} (rest : Announced ms) :
      Announced (.notice (.solutionFound solution.length) :: .found solution :: ms)

theorem Announced.append (h : Announced ms) (h' : Announced ms') : Announced (ms ++ ms') := by
  induction h with
  | nil => exact h'
  | notice other _ ih => exact .notice other ih
  | search _ ih => exact .search ih
  | report _ ih => exact .report ih
  | found _ ih => exact .found ih

theorem Announced.flatMap {α : Type} {f : α → List Move} (h : ∀ x, Announced (f x))
    (xs : List α) : Announced (xs.flatMap f) := by
  induction xs with
  | nil => exact .nil
  | cons x xs ih => exact (h x).append ih

/-- What a call gives announces its solution and tells nothing else so severe. -/
inductive Announces : List Event × Except Fault (Option Solution × Tally × List Move) → Prop
  | failed {events : List Event} {fault : Fault} (none : noticesOf .trace events = []) :
      Announces (events, .error fault)
  | gave {events : List Event} {solution : Option Solution} {tally : Tally} {ms : List Move}
      (one : noticesOf .trace events = solution.toList.map (.solutionFound ·.length))
      (rest : Announced ms) : Announces (events, .ok (solution, tally, ms))

theorem Announces.emit {emitted : List Event}
    {given : List Event × Except Fault (Option Solution × Tally × List Move)}
    (h : Announces given) (hnone : noticesOf .trace emitted = []) :
    Announces (Moves.emit emitted given) := by
  cases h with
  | failed none => exact .failed (by simp [hnone, none])
  | gave one rest => exact .gave (by simp [hnone, one]) rest

theorem Announced.next (h : Announced ms) (tally : Tally) : Announces (Moves.next tally ms) := by
  induction h generalizing tally with
  | nil => exact .gave rfl .nil
  | @notice notice ms other rest ih =>
    exact (ih tally).emit (by simpa [noticesOf, Event.notice?] using other)
  | report rest ih => exact (ih tally).emit rfl
  | found rest => exact .gave rfl rest
  | search rest ih =>
    rw [Moves.next]
    cases tally.countSearch with
    | error fault => exact .failed rfl
    | ok counted => exact ih counted

theorem Announced.replies (h : Announced ms) (calls : Nat) (tally : Tally) :
    ∀ reply ∈ Moves.replies calls tally ms,
      reply.notices .trace = reply.solution?.toList.map (.solutionFound ·.length) := by
  induction calls generalizing tally ms with
  | zero => simp [Moves.replies]
  | succ calls ih =>
    have hnext := h.next tally
    rw [Moves.replies]
    generalize Moves.next tally ms = given at hnext ⊢
    intro reply hreply
    cases hnext with
    | failed none =>
      rw [List.mem_singleton.1 hreply]
      exact none
    | gave one rest =>
      rcases List.mem_cons.1 hreply with rfl | hlater
      · exact one
      · exact ih rest _ reply hlater

/-! ## Notices in front -/

/-- No notice among the moves is of the severity. -/
def Mute (severity : Severity) (ms : List Move) : Prop :=
  ∀ notice, .notice notice ∈ ms → notice.line.severity ≠ severity

@[simp] theorem mute_nil : Mute severity [] := by simp [Mute]

@[simp] theorem mute_notice {notice : Run.Notice} : Mute severity (.notice notice :: ms) ↔
    notice.line.severity ≠ severity ∧ Mute severity ms := by
  simp [Mute]

@[simp] theorem mute_search : Mute severity (.search :: ms) ↔ Mute severity ms := by simp [Mute]

@[simp] theorem mute_report {path : List Labels} :
    Mute severity (.report path :: ms) ↔ Mute severity ms := by simp [Mute]

@[simp] theorem mute_found {solution : Solution} :
    Mute severity (.found solution :: ms) ↔ Mute severity ms := by simp [Mute]

theorem Mute.append (h : Mute severity ms) (h' : Mute severity ms') :
    Mute severity (ms ++ ms') := fun notice hmem =>
  (List.mem_append.1 hmem).elim (h notice) (h' notice)

/-- What a call tells and leaves was among the moves. -/
theorem Mute.next (h : Mute severity ms) (tally : Tally) :
    noticesOf severity (Moves.next tally ms).1 = [] ∧
      ∀ solution counted left, (Moves.next tally ms).2 = .ok (solution, counted, left) →
        Mute severity left := by
  induction ms generalizing tally with
  | nil =>
    refine ⟨rfl, fun solution counted left hgave => ?_⟩
    cases hgave
    exact h
  | cons m ms ih =>
    have hrest : Mute severity ms := fun notice hmem => h notice (List.mem_cons_of_mem _ hmem)
    cases m with
    | notice notice =>
      refine ⟨?_, (ih hrest tally).2⟩
      have hother := h notice List.mem_cons_self
      rw [Moves.next, emit, noticesOf_append, (ih hrest tally).1]
      simpa [noticesOf, Event.notice?] using hother
    | report path => exact ih hrest tally
    | found solution =>
      refine ⟨rfl, fun solution counted left hgave => ?_⟩
      cases hgave
      exact hrest
    | search =>
      rw [Moves.next]
      cases tally.countSearch with
      | error fault => exact ⟨rfl, fun _ _ _ hgave => by cases hgave⟩
      | ok counted => exact ih hrest counted

theorem Mute.replies (h : Mute severity ms) (calls : Nat) (tally : Tally) :
    (Moves.replies calls tally ms).flatMap (·.notices severity) = [] := by
  induction calls generalizing tally ms with
  | zero => rfl
  | succ calls ih =>
    have hnext := h.next tally
    rw [Moves.replies]
    generalize Moves.next tally ms = given at hnext ⊢
    obtain ⟨events, _ | ⟨solution, counted, left⟩⟩ := given
    · simpa [Run.Reply.notices] using hnext.1
    · rw [List.flatMap_cons, ih (hnext.2 _ _ _ rfl) counted, List.append_nil]
      exact hnext.1

theorem next_notices : next tally (notices.map .notice ++ ms) =
    emit (notices.map .notice) (next tally ms) := by
  induction notices with
  | nil => rfl
  | cons notice notices ih =>
    rw [List.map_cons, List.cons_append, next, ih, emit_emit]
    rfl

/-- Notices before the moves come with the first reply and change nothing else. -/
theorem replies_notices (calls : Nat) (tally : Tally) (ms : List Move)
    (notices : List Run.Notice) : ∃ first later,
    replies (calls + 1) tally ms = first :: later ∧
      replies (calls + 1) tally (notices.map .notice ++ ms) =
        ⟨notices.map .notice ++ first.events, first.outcome⟩ :: later := by
  simp only [replies, next_notices, emit]
  obtain ⟨events, _ | ⟨solution, counted, left⟩⟩ := next tally ms
  · exact ⟨_, _, rfl, rfl⟩
  · exact ⟨_, _, rfl, rfl⟩

theorem outcomes_notices (calls : Nat) (tally : Tally) (ms : List Move)
    (notices : List Run.Notice) :
    (replies calls tally (notices.map .notice ++ ms)).map (·.outcome) =
      (replies calls tally ms).map (·.outcome) := by
  cases calls with
  | zero => rfl
  | succ calls =>
    obtain ⟨first, later, hreplies, hnotices⟩ := replies_notices calls tally ms notices
    rw [hreplies, hnotices]
    rfl

theorem notices_notices (calls : Nat) :
    (replies (calls + 1) tally (notices.map .notice ++ ms)).flatMap (·.notices severity) =
      (notices.filter fun notice => notice.line.severity = severity) ++
        (replies (calls + 1) tally ms).flatMap (·.notices severity) := by
  obtain ⟨first, later, hreplies, hnotices⟩ := replies_notices calls tally ms notices
  rw [hreplies, hnotices, List.flatMap_cons, List.flatMap_cons, Run.Reply.notices, noticesOf_append,
    noticesOf_notices, List.append_assoc]
  rfl

end Moves

namespace Table

variable {t : Table} {base path : List Nat} {depth : Nat} {reported skip : Bool}
  {saved pending : List Labels} {severity : Severity}

/-! ## What the moves of a search tell -/

/-- The warning about a saved path that cannot be followed to its end: a solution comes before it,
or no child of the node reached has the labels that come next. -/
def pathWarnings (t : Table) (base : List Nat) (saved : List Labels) : List Run.Notice :=
  match t.follow base saved [] with
  | (_, []) => []
  | (node, _ :: _) =>
    [if t.isSolution base node then .pathTooLong saved.length node.length
      else .pathUnmatched node.length]

/-- The information that the saved path was followed to its end, a solution that the caller has. -/
def pathInfos (t : Table) (base : List Nat) (saved : List Labels) (reported : Bool) :
    List Run.Notice :=
  match t.follow base saved [] with
  | (node, []) => if reported && t.isSolution base node then [.pathReplayed] else []
  | (_, _ :: _) => []

theorem announced_arrival : Moves.Announced (t.arrival base skip pending path) := by
  have hfound : Moves.Announced
      [.notice (.solutionFound path.length), .found (t.labelsOfPath path)] := by
    have hlength : path.length = (t.labelsOfPath path).length := by simp [labelsOfPath]
    rw [hlength]
    exact .found .nil
  unfold arrival
  split
  · split
    · exact .notice (by simp [Run.Notice.line]) hfound
    · exact .nil
  · split
    · split
      · exact .notice (by simp [Run.Notice.line]) .nil
      · exact hfound
    · exact .search .nil

theorem announced_visit : Moves.Announced (t.visit base depth path) := by
  unfold visit
  split
  · exact .notice (by simp [Run.Notice.line]) (.report announced_arrival)
  · exact .report announced_arrival

theorem announced_moves : Moves.Announced (t.moves base reported saved) := by
  rw [moves, arrival_append_follows]
  refine .append ?_ (.flatMap (fun _ => announced_visit) _)
  obtain ⟨node, _ | ⟨wanted, later⟩⟩ := t.follow base saved []
  · exact announced_arrival.append (.flatMap (fun _ => announced_visit) _)
  · refine announced_arrival.append ?_
    split
    · exact .nil
    · exact .notice (by simp [Run.Notice.line]) .nil

/-- At the end of the path a solution may be skipped; all else is as without a path. -/
theorem arrival_nil (skip : Bool) : t.arrival base skip [] path =
    if skip && t.isSolution base path then [.notice .pathReplayed]
    else t.arrival base false [] path := by
  simp only [arrival]
  cases skip <;> cases t.isSolution base path <;> rfl

/-- Off the saved path there is neither a warning nor an information. -/
theorem mute_arrival (h : severity = .warning ∨ severity = .info) :
    Moves.Mute severity (t.arrival base false [] path) := by
  rw [arrival]
  split
  · rcases h with rfl | rfl <;> simp [Run.Notice.line]
  · simp

theorem mute_visit (h : severity = .warning ∨ severity = .info) :
    Moves.Mute severity (t.visit base depth path) := by
  refine Moves.Mute.append ?_ (Moves.mute_report.2 (mute_arrival h))
  split
  · rcases h with rfl | rfl <;> simp [Run.Notice.line]
  · exact Moves.mute_nil

theorem mute_visits (h : severity = .warning ∨ severity = .info) (nodes : List (List Nat)) :
    Moves.Mute severity (nodes.flatMap (t.visit base depth)) := fun notice hmem => by
  obtain ⟨node, -, hnode⟩ := List.mem_flatMap.1 hmem
  exact mute_visit h notice hnode

theorem length_follow (t : Table) (base : List Nat) (saved : List Labels) (path : List Nat) :
    (t.follow base saved path).1.length + (t.follow base saved path).2.length =
      path.length + saved.length := by
  induction saved generalizing path with
  | nil => rfl
  | cons wanted later ih =>
    rw [follow]
    split
    · rw [ih, List.length_append, List.length_singleton, List.length_cons, Nat.add_right_comm,
        Nat.add_assoc]
    · rfl

/-- What a resumed search tells of its path comes before all else that it does, and there is
nothing more of it. -/
theorem moves_eq_pathNotices (t : Table) (base : List Nat) (saved : List Labels)
    (reported : Bool) : ∃ rest, t.moves base reported saved =
    (t.pathWarnings base saved ++ t.pathInfos base saved reported).map .notice ++ rest ∧
      ∀ severity, severity = .warning ∨ severity = .info → Moves.Mute severity rest := by
  have hlength := length_follow t base saved []
  rw [moves, arrival_append_follows, pathWarnings, pathInfos]
  generalize t.follow base saved [] = reached at hlength ⊢
  obtain ⟨node, _ | ⟨wanted, left⟩⟩ := reached
  · simp only [landing, arrival_nil reported]
    split
    · refine ⟨_, List.append_assoc .., fun severity h => ?_⟩
      exact (mute_visits h _).append (mute_visits h _)
    · refine ⟨_, rfl, fun severity h => ?_⟩
      exact ((mute_arrival h).append (mute_visits h _)).append (mute_visits h _)
  · have hdepth : node.length + (left.length + 1) = saved.length := by simpa using hlength
    simp only [landing, arrival, List.length_cons, hdepth]
    split
    · refine ⟨_, by rw [List.append_nil]; rfl, fun severity h => ?_⟩
      rcases h with rfl | rfl <;> simp [Run.Notice.line, mute_visits]
    · exact ⟨_, rfl, fun severity h => mute_visits h _⟩

/-- The solution at the end of a saved path is all that a caller who has it is spared. -/
theorem moves_of_pathInfos (h : t.pathInfos base saved reported ≠ []) : ∃ rest,
    t.moves base reported saved = .notice .pathReplayed :: rest ∧
      t.moves base false saved =
        .notice (.solutionFound (t.follow base saved []).1.length) ::
          .found (t.labelsOfPath (t.follow base saved []).1) :: rest := by
  rw [pathInfos] at h
  rw [moves, moves, arrival_append_follows, arrival_append_follows]
  generalize t.follow base saved [] = reached at h ⊢
  obtain ⟨node, _ | ⟨wanted, left⟩⟩ := reached
  · simp only [landing, arrival_nil reported] at h ⊢
    split at h
    · next hreplayed =>
      have hsol := (Bool.and_eq_true_iff.1 hreplayed).2
      rw [if_pos hreplayed]
      exact ⟨_, rfl, by rw [arrival, if_pos hsol]; rfl⟩
    · exact absurd rfl h
  · exact absurd rfl h

theorem moves_of_not_pathInfos (h : t.pathInfos base saved reported = []) :
    t.moves base reported saved = t.moves base false saved := by
  rw [pathInfos] at h
  rw [moves, moves, arrival_append_follows, arrival_append_follows]
  generalize t.follow base saved [] = reached at h ⊢
  obtain ⟨node, _ | ⟨wanted, left⟩⟩ := reached
  · simp only [landing, arrival_nil reported] at h ⊢
    split at h
    · simp at h
    · next hreplayed => rw [if_neg hreplayed]
  · rfl

/-- One notice at most is a warning or an information about the path. -/
theorem pathNotices_length_le :
    (t.pathWarnings base saved ++ t.pathInfos base saved reported).length ≤ 1 := by
  rw [pathWarnings, pathInfos]
  obtain ⟨node, _ | ⟨wanted, left⟩⟩ := t.follow base saved []
  · simp only [List.nil_append]
    split <;> simp
  · simp

theorem severity_pathWarnings {notice : Run.Notice} (h : notice ∈ t.pathWarnings base saved) :
    notice.line.severity = .warning := by
  rw [pathWarnings] at h
  split at h
  · simp at h
  · rw [List.mem_singleton.1 h]
    split <;> rfl

theorem severity_pathInfos {notice : Run.Notice} (h : notice ∈ t.pathInfos base saved reported) :
    notice.line.severity = .info := by
  rw [pathInfos] at h
  split at h
  · split at h
    · rw [List.mem_singleton.1 h]
      rfl
    · simp at h
  · simp at h

/-- Behind a notice of another severity the warnings can be told from the information. -/
theorem filter_pathNotices {first : Run.Notice} (h : first.line.severity = .debug) :
    let notices := first :: (t.pathWarnings base saved ++ t.pathInfos base saved reported)
    (notices.filter fun notice => notice.line.severity = .warning) = t.pathWarnings base saved ∧
      (notices.filter fun notice => notice.line.severity = .info) =
        t.pathInfos base saved reported := by
  have hwarnings : ∀ notice ∈ t.pathWarnings base saved, notice.line.severity = .warning :=
    fun _ => severity_pathWarnings
  have hinfos : ∀ notice ∈ t.pathInfos base saved reported, notice.line.severity = .info :=
    fun _ => severity_pathInfos
  constructor
  · have hnone : (t.pathInfos base saved reported).filter (·.line.severity = .warning) = [] := by
      refine List.filter_eq_nil_iff.2 fun notice hnotice => ?_
      simp [hinfos notice hnotice]
    rw [List.filter_cons_of_neg (by simp [h]), List.filter_append, hnone, List.append_nil,
      List.filter_eq_self.2 (by simpa using hwarnings)]
  · have hnone : (t.pathWarnings base saved).filter (·.line.severity = .info) = [] := by
      refine List.filter_eq_nil_iff.2 fun notice hnotice => ?_
      simp [hwarnings notice hnotice]
    rw [List.filter_cons_of_neg (by simp [h]), List.filter_append, hnone, List.nil_append,
      List.filter_eq_self.2 (by simpa using hinfos)]

/-- What a search resumed with any bookmark tells in any number of calls. Each call announces the
solution that it yields and nothing else at that severity. The path is warned about, once, if it
cannot be followed to its end, and it is told, once, that it led to a solution that the caller has;
never both, and right where following it ends, which is before all else that the search does. In
the second case that solution is withheld, and nothing else ever is. -/
theorem resume_tells (built : t.Built) (nodup : base.Nodup)
    (inRange : ∀ c ∈ base, c < t.columnCount) :
    ∃ m, base.foldlM Mesh.cover (.ofTable t) = .ok m ∧ ∀ (tally : Tally) (b : Bookmark),
      let r := Problem.resume ⟨m, tally⟩ b
      let whole := Problem.resume ⟨m, tally⟩ { b with reported := false }
      let reached := (t.follow base b.path []).1
      let warnings := t.pathWarnings base b.path
      let infos := t.pathInfos base b.path b.reported
      (∀ calls, ∀ reply ∈ r.replies calls,
        reply.notices .trace = reply.solution?.toList.map (.solutionFound ·.length)) ∧
      (∀ calls, (r.replies (calls + 1)).flatMap (·.notices .warning) = warnings ∧
        (r.replies (calls + 1)).flatMap (·.notices .info) = infos) ∧
      (warnings ++ infos).length ≤ 1 ∧
      (∃ later, r.next.1.toList =
        (r.startNotice :: (warnings ++ infos)).map .notice ++ later) ∧
      (infos ≠ [] → ∀ calls, (whole.replies (calls + 1)).map (·.outcome) =
        .ok (some (reached.map m.labelsOfRow), reached.length, r.tally) ::
          (r.replies calls).map (·.outcome)) ∧
      (infos = [] → ∀ calls, r.replies calls = whole.replies calls) := by
  have wf := built.wellFormed
  have hb : t.Coverable base := ⟨nodup, inRange⟩
  refine ⟨.covering t base, Mesh.foldlM_cover_ofTable wf hb, fun tally b => ?_⟩
  intro r whole reached warnings infos
  have hat : Run.At t base r (.notice r.startNotice :: t.moves base b.reported b.path) :=
    Run.at_resume b rfl
  have hatWhole : Run.At t base whole (.notice r.startNotice :: t.moves base false b.path) :=
    Run.at_resume { b with reported := false } rfl
  have hreplies := fun calls => Run.replies_eq wf hb calls hat
  have hrepliesWhole : ∀ calls, whole.replies calls = Moves.replies calls r.tally _ :=
    fun calls => Run.replies_eq wf hb calls hatWhole
  have hlabels : reached.map (Mesh.covering t base).labelsOfRow = t.labelsOfPath reached :=
    List.map_congr_left fun row _ => (Mesh.reads_covering wf hb).labelsOfRow_eq
  obtain ⟨rest, hmoves, hmute⟩ := moves_eq_pathNotices t base b.path b.reported
  have hsplit : .notice r.startNotice :: t.moves base b.reported b.path =
      (r.startNotice :: (warnings ++ infos)).map .notice ++ rest := by
    rw [hmoves]
    rfl
  refine ⟨fun calls => ?_, fun calls => ?_, pathNotices_length_le, ?_, fun hinfos calls => ?_,
    fun hinfos calls => ?_⟩
  · rw [hreplies calls]
    have hannounced : Moves.Announced (.notice r.startNotice :: t.moves base b.reported b.path) :=
      .notice (by simp [Run.startNotice, Run.Notice.line]) announced_moves
    exact hannounced.replies calls r.tally
  · rw [hreplies, hsplit, Moves.notices_notices, Moves.notices_notices,
      (hmute _ (.inl rfl)).replies, (hmute _ (.inr rfl)).replies, List.append_nil, List.append_nil]
    exact filter_pathNotices rfl
  · rw [Run.next_events wf hb hat, hsplit, Moves.next_notices]
    exact ⟨_, rfl⟩
  · obtain ⟨rest, hskipped, hgiven⟩ := moves_of_pathInfos hinfos
    have hlength : (t.labelsOfPath reached).length = reached.length := List.length_map _
    have hsame := Moves.outcomes_notices calls r.tally rest [r.startNotice, .pathReplayed]
    rw [hreplies, hrepliesWhole, hskipped, hgiven, hlabels, ← hlength]
    exact congrArg (List.cons _) hsame.symm
  · rw [hreplies, hrepliesWhole, moves_of_not_pathInfos hinfos]

/-- The cases of `abc` resumed with a path to a solution that is reported, one that a solution cuts
short, and one that no row fits. -/
theorem resume_tells_abc :
    ∃ m, [].foldlM Mesh.cover (.ofTable abc) = .ok m ∧
      (((Problem.ofMesh m).resume ⟨[["a", "b"]], none, true⟩).replies 3).flatMap
        (·.notices .info) = [.pathReplayed] ∧
      (((Problem.ofMesh m).resume ⟨[["a", "b"], ["c"]], none, true⟩).replies 3).flatMap
        (·.notices .warning) = [.pathTooLong 2 1] ∧
      (((Problem.ofMesh m).resume ⟨[["c"]], none, true⟩).replies 3).flatMap
        (·.notices .warning) = [.pathUnmatched 0] := by
  obtain ⟨m, hm, h⟩ := resume_tells built_abc List.nodup_nil (by decide)
  obtain ⟨-, hreplayed, -⟩ := h .zero ⟨[["a", "b"]], none, true⟩
  obtain ⟨-, hcut, -⟩ := h .zero ⟨[["a", "b"], ["c"]], none, true⟩
  obtain ⟨-, hunfit, -⟩ := h .zero ⟨[["c"]], none, true⟩
  have hinfos : abc.pathInfos [] [["a", "b"]] true = [.pathReplayed] := by decide
  have htooLong : abc.pathWarnings [] [["a", "b"], ["c"]] = [.pathTooLong 2 1] := by decide
  have hunmatched : abc.pathWarnings [] [["c"]] = [.pathUnmatched 0] := by decide
  exact ⟨m, hm, hinfos ▸ (hreplayed 2).2, htooLong ▸ (hcut 2).1, hunmatched ▸ (hunfit 2).1⟩

end Table

end Covering
