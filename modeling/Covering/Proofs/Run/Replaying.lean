import Covering.Proofs.Run.Completion
import Covering.Proofs.Run.Replies

/-!
# Rows that the saved path chose

A resumed run follows the saved path from its start and leaves it once. So the path chose the rows
of the outer branches, with which it begins, and no row within them: `Run.Traced` says this of
branches and their rows, `Run.Tracks` of a run, whose innermost branch may not have chosen a row yet.
Main statement, `Run.Tracks.step`: no step changes this.

A step begins a level, at the run that `Run.entrance` gives, or gives the innermost branch up.
`Run.goes_step` and `Run.enters_enter` list what it can come to.
-/

namespace Covering
set_option autoImplicit false

namespace Run

variable {saved : List Labels} {r r' e : Run} {b : Branch} {branches : List Branch}
  {chosen : List Labels} {solution : Solution}

/-! ## What a step comes to -/

/-- What it comes to when `e` begins a level. -/
inductive Enters (e : Run) : Except Fault Turn → Prop
  | found : Enters e (.ok (.found e.solution { e with pending := [] }))
  | replayed : Enters e (.ok (.moved e))
  | opened (column : Nat) (tally : Tally) (mesh : Mesh) :
      Enters e (.ok (.moved { e with mesh, tally, branches := ⟨column, 0, false⟩ :: e.branches }))
  | failed (fault : Fault) : Enters e (.error fault)

/-- What a step of `r` comes to. -/
inductive Goes (r : Run) : Except Fault Turn → Prop
  | entered {e : Run} (entrance : r.entrance = some e) : Goes r e.enter.turn
  | retreated {b : Branch} {branches : List Branch} (top : r.branches = b :: branches) :
      Goes r (.ok (.moved ((r.undo b).retreat b.column)))
  | ended (hover : r.Over) : Goes r (.ok (.ended r))
  | failed {fault : Fault} (room : fault ≠ .tallyOverflow) : Goes r (.error fault)

theorem enters_enter (e : Run) : e.Enters e.enter.turn := by
  rw [enter]
  split
  · split
    · exact .found
    · next hpending =>
      have hsame : ({ e with pending := [] } : Run) = e := by rw [← hpending]
      split
      · exact .replayed
      · have hfound := Enters.found (e := e)
        rwa [hsame] at hfound
  · next column _ =>
    have hcover : ∀ tally : Tally, e.Enters (do
        let mesh ← e.mesh.cover column
        return .moved { e with mesh, tally, branches := ⟨column, 0, false⟩ :: e.branches }) := by
      intro tally
      cases e.mesh.cover column with
      | error fault => exact .failed fault
      | ok mesh => exact .opened column tally mesh
    cases e.pending.isEmpty with
    | false => exact hcover e.tally
    | true =>
      simp only [if_true]
      cases e.tally.countSearch with
      | error fault => exact .failed fault
      | ok counted => exact hcover counted

/-- Where a level begins: at the first step, or at the row that the innermost branch moves on to. -/
theorem entrance_cases (h : r.entrance = some e) :
    r.started = false ∧ e = { r with started := true } ∨
    ∃ b branches slot mesh, r.started = true ∧ r.branches = b :: branches ∧
      (((r.undo b).mesh.lane b.column).ring.after b.slot).find? (fun slot =>
        (r.undo b).asksFor ((r.undo b).mesh.labelsOfRow ((r.undo b).mesh.rowAt b.column slot))) =
          some slot ∧
      (r.undo b).mesh.coverMates b.column slot = .ok mesh ∧
      e = { r.undo b with
        mesh
        chosen := (r.undo b).mesh.labelsOfRow ((r.undo b).mesh.rowAt b.column slot) ::
          (r.undo b).chosen
        pending := (r.undo b).pending.tail
        branches := ⟨b.column, slot, !(r.undo b).pending.isEmpty⟩ :: (r.undo b).branches.tail } := by
  rw [entrance] at h
  split at h
  · next started =>
    split at h
    · cases h
    · next b branches top =>
      obtain ⟨slot, hfind, h⟩ := Option.bind_eq_some_iff.1 h
      split at h
      · cases h
      · next mesh hcover =>
        exact .inr ⟨b, branches, slot, mesh, started, top, hfind, hcover, (Option.some.inj h).symm⟩
  · next started => exact .inl ⟨by simpa using started, (Option.some.inj h).symm⟩

theorem goes_step (r : Run) : r.Goes r.step.turn := by
  by_cases started : r.started = true
  · rw [step, if_pos started]
    cases top : r.branches with
    | nil => exact .ended ⟨started, top⟩
    | cons b branches =>
      simp only
      rw [advance_turn]
      split
      · exact .retreated top
      · next slot hfind =>
        rw [choose]
        simp only
        cases hcover : (r.undo b).mesh.coverMates b.column slot with
        | error fault =>
          have hne := coverMates_ne_overflow (r.undo b).mesh b.column slot
          rw [hcover] at hne
          exact .failed fun e => hne (e ▸ rfl)
        | ok mesh =>
          refine .entered ?_
          rw [entrance, if_pos started, top]
          simp only [hfind, hcover, Option.bind_some]
  · rw [step, if_neg started]
    exact .entered (by rw [entrance, if_neg started])

/-- A step that fails as it begins a level leaves the run there. -/
theorem interrupted_of_entrance (h : r.entrance = some e) : r.interrupted = e := by
  rcases entrance_cases h with
    ⟨started, rfl⟩ | ⟨b, branches, slot, mesh, started, top, hfind, hcover, rfl⟩
  · rw [interrupted, if_neg (by simp [started])]
  · rw [interrupted, if_pos started, top]
    simp only [asksFor] at hfind
    cases hpending : (r.undo b).pending with
    | nil =>
      simp only [hpending] at hfind
      cases hcandidates : ((r.undo b).mesh.lane b.column).ring.after b.slot with
      | nil => simp [hcandidates] at hfind
      | cons below further =>
        obtain rfl : below = slot := by simpa [hcandidates] using hfind
        simp [hpending, hcandidates, entering, hcover, bind, Except.bind, pure, Except.pure]
    | cons wanted later =>
      simp only [hpending] at hfind
      have hwanted := List.find?_some hfind
      rw [beq_iff_eq] at hwanted
      simp [hpending, hfind, hwanted, entering, hcover, bind, Except.bind, pure, Except.pure]

/-! ## Branches that follow the path -/

/-- Of `branches` and the rows `chosen` by them, innermost first, the outer ones were chosen by the
path `saved`, which begins with their rows, and none within them was. -/
inductive Traced (saved : List Labels) : List Branch → List Labels → Prop
  | root : Traced saved [] []
  | replayed {b : Branch} {branches : List Branch} {labels : Labels} {chosen : List Labels}
      (outer : Traced saved branches chosen) (flag : b.replayed = true)
      (flags : branches.all (·.replayed) = true) (path : (labels :: chosen).reverse <+: saved) :
      Traced saved (b :: branches) (labels :: chosen)
  | left {b : Branch} {branches : List Branch} {labels : Labels} {chosen : List Labels}
      (outer : Traced saved branches chosen) (flag : b.replayed = false) :
      Traced saved (b :: branches) (labels :: chosen)

theorem Traced.length_eq (h : Traced saved branches chosen) : chosen.length = branches.length := by
  induction h with
  | root => rfl
  | replayed outer flag flags path ih => simp [ih]
  | left outer flag ih => simp [ih]

/-- The level at which the path was left. -/
theorem Traced.exists_level (h : Traced saved branches chosen) : ∃ k ≤ branches.length,
    branches.reverse.map (·.replayed) =
      List.replicate k true ++ List.replicate (branches.length - k) false ∧
    chosen.reverse.take k = saved.take k := by
  induction h with
  | root => exact ⟨0, Nat.le_refl _, rfl, by simp⟩
  | @replayed b branches labels chosen outer flag flags path ih =>
    have hflags : (b :: branches).all (·.replayed) = true := by simp [flag, flags]
    refine ⟨(b :: branches).length, Nat.le_refl _, ?_, ?_⟩
    · rw [Nat.sub_self, List.replicate_zero, List.append_nil]
      refine List.eq_replicate_iff.2 ⟨by simp, fun flag hflag => ?_⟩
      obtain ⟨b', hb', rfl⟩ := List.mem_map.1 hflag
      exact List.all_eq_true.1 hflags b' (List.mem_reverse.1 hb')
    · have hlength : (b :: branches).length = (labels :: chosen).reverse.length := by
        simp [outer.length_eq]
      rw [hlength, List.take_length]
      exact List.prefix_iff_eq_take.1 path
  | @left b branches labels chosen outer flag ih =>
    obtain ⟨k, hk, hflags, hrows⟩ := ih
    refine ⟨k, Nat.le_succ_of_le hk, ?_, ?_⟩
    · rw [List.reverse_cons, List.map_append, hflags, List.length_cons, Nat.succ_sub hk,
        List.replicate_succ']
      simp [flag]
    · rw [List.reverse_cons, List.take_append_of_le_length (by simpa [outer.length_eq] using hk)]
      exact hrows

/-! ## Runs that follow the path -/

/-- The branches that have chosen a row. -/
def choosers (r : Run) : List Branch := r.branches.filter (·.slot != 0)

/-- The rows of `r` follow the path `saved` and leave it once; if they have not left it yet,
`pending` is the rest. -/
structure Tracks (saved : List Labels) (r : Run) : Prop where
  traced : Traced saved r.choosers r.chosen
  pending : r.pending ≠ [] →
    r.solution ++ r.pending = saved ∧ r.choosers.all (·.replayed) = true

theorem tracks_start (p : Problem) (path : List Labels) (reported watched : Bool) :
    (start p path reported watched).Tracks path :=
  ⟨.root, fun _ => ⟨rfl, rfl⟩⟩

/-- Without its innermost branch and the row that this has chosen. -/
theorem Tracks.undo (h : r.Tracks saved) (top : r.branches = b :: branches) :
    ({ r.undo b with branches } : Run).Tracks saved := by
  obtain ⟨htraced, hpending⟩ := h
  rw [choosers, top] at htraced hpending
  unfold Run.undo
  by_cases hslot : b.slot = 0
  · rw [if_pos hslot]
    rw [List.filter_cons_of_neg (by simp [hslot])] at htraced hpending
    exact ⟨htraced, hpending⟩
  · rw [if_neg hslot]
    rw [List.filter_cons_of_pos (by simpa using hslot)] at htraced
    refine ⟨?_, fun hnil => absurd rfl hnil⟩
    -- The innermost branch has chosen the innermost row.
    generalize r.chosen = chosen at htraced
    cases htraced with
    | replayed outer => exact outer
    | left outer => exact outer

/-- As the next level begins. -/
theorem Tracks.entrance (h : r.Tracks saved) (hentrance : r.entrance = some e) :
    e.Tracks saved := by
  rcases entrance_cases hentrance with
    ⟨-, rfl⟩ | ⟨b, branches, slot, mesh, -, top, hfind, -, rfl⟩
  · exact ⟨h.traced, h.pending⟩
  · obtain ⟨htraced, hpending⟩ := h.undo top
    have htail := tail_undo top
    have hslot : slot ≠ 0 := Ring.ne_zero_of_mem_walk (List.mem_of_find?_eq_some hfind)
    have hasks := List.find?_some hfind
    rw [htail]
    generalize r.undo b = s at *
    have hchoosers : ∀ flag : Bool, (⟨b.column, slot, flag⟩ :: branches).filter (·.slot != 0) =
        ⟨b.column, slot, flag⟩ :: branches.filter (·.slot != 0) := fun flag =>
      List.filter_cons_of_pos (by simpa using hslot)
    generalize s.mesh.labelsOfRow (s.mesh.rowAt b.column slot) = labels at hasks ⊢
    -- The path chooses the row as long as something is left of it, and is then one row shorter.
    cases hleft : s.pending with
    | nil =>
      refine ⟨?_, fun hnil => absurd rfl hnil⟩
      simp only [choosers, hchoosers]
      exact .left htraced rfl
    | cons wanted later =>
      obtain rfl : labels = wanted := by simpa [asksFor, hleft] using hasks
      obtain ⟨hpath, hflags⟩ := hpending (by simp [hleft])
      simp only [hleft, Run.solution] at hpath
      have hsplit : (labels :: s.chosen).reverse ++ later = saved := by simp [← hpath]
      refine ⟨?_, fun _ => ⟨hsplit, ?_⟩⟩
      · simp only [choosers, hchoosers]
        exact .replayed htraced rfl hflags ⟨later, hsplit⟩
      · simp only [choosers, hchoosers]
        simpa [choosers] using hflags

/-- A column covered, without a row chosen for it, changes nothing. -/
theorem Tracks.enter (h : e.Tracks saved) (hturn : e.enter.turn = .ok (.moved r')) :
    r'.Tracks saved := by
  have henters := e.enters_enter
  rw [hturn] at henters
  cases henters with
  | replayed => exact h
  | opened column tally mesh => exact ⟨h.traced, h.pending⟩

/-- A step keeps to the path or leaves it for good. -/
theorem Tracks.step (h : r.Tracks saved) (hturn : r.step.turn = .ok (.moved r')) :
    r'.Tracks saved := by
  have hgoes := r.goes_step
  generalize hstep : r.step.turn = turn at hgoes hturn
  cases hgoes with
  | entered hentrance => exact (h.entrance hentrance).enter hturn
  | @retreated b branches top =>
    obtain rfl := Turn.moved.inj (Except.ok.inj hturn)
    obtain ⟨htraced, -⟩ := h.undo top
    have htail := tail_undo top
    refine ⟨?_, fun hnil => absurd rfl hnil⟩
    simpa only [choosers, retreat, htail] using htraced
  | ended => cases hturn
  | failed => cases hturn

end Run

end Covering
