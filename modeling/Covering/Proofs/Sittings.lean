import Covering.Proofs.Checkpoint.Keeping
import Covering.Proofs.Coverings
import Covering.Proofs.Remainder

/-!
# A search in several sittings

A search that keeps a checkpoint file can be broken off and taken up as often as one likes. Between
two sittings the file holds the position of a node: its labels, and the searches counted before it.
A sitting gives the solutions from that node on, and leaves the position of the last solution that
it gave, with which the next sitting begins. So nothing is lost, and only that solution is given
twice: `Table.sittings_give_all`.
-/

namespace Covering
set_option autoImplicit false

namespace CheckpointFile

/-- A sitting: opens the file at `path` to be written at every report, resumes the search of `p` at
its checkpoint, and takes solutions, `limit` at most if there is a limit, or else all. -/
def sitting (path : Path) (p : Problem) (limit : Option Nat) :
    Script (Except Failure (Except Fault (List Solution))) := do
  match ← load path with
  | (.error failure, _) => return .error failure
  | (.ok f, _) =>
    let r := p.resume f.checkpoint.bookmark
    let (result, _) ← take (limit.getD r.stepBound) r { f with interval := 0 }
    return .ok (result.map (·.1))

/-- Sittings that take so many solutions each, and a last one that takes all. -/
def sittings (path : Path) (p : Problem) :
    List Nat → Script (List (Except Failure (Except Fault (List Solution))))
  | [] => do
    let given ← sitting path p none
    return [given]
  | count :: counts => do
    let given ← sitting path p (some count)
    let later ← sittings path p counts
    return given :: later

/-- The number of the solution with which a sitting begins after one that began with `start` and
gave `count` solutions: the last of these is given again. -/
def nextStart (start count : Nat) : Nat := if 1 ≤ count then start + count - 1 else start

/-- A sitting does what a run from the checkpoint on disk does, and leaves there what the run
reports last. -/
theorem run_sitting {path : Path} {source target : Location} {c : Checkpoint} {w : World}
    (p : Problem) (limit : Option Nat) (hreplaceable : w.files.Replaceable path source target)
    (hholds : Holds w.files path c) :
    let r := p.resume c.bookmark
    let count := limit.getD r.stepBound
    ((sitting path p limit).run w).1 = .ok ((r.take count).map (·.1)) ∧
      ((sitting path p limit).run w).2.files.Replaceable path source target ∧
      Holds ((sitting path p limit).run w).2.files path (c.follow (r.emitted count)) := by
  intro r count
  obtain ⟨notices, hload⟩ := run_load hholds
  let f : CheckpointFile := ⟨path, 0, w.clock w.readings, c⟩
  let w' : World := { w with readings := w.readings + 1 }
  have hkept : Kept path source target f w' := ⟨rfl, rfl, hreplaceable, hholds⟩
  obtain ⟨htake, hcheckpoint⟩ := run_take count r f w'
  have hleft := run_take_keeps (fun f report w => run_store_kept) count r hkept
  have hrun : (sitting path p limit).run w =
      (.ok (((take count r f).run w').1.1.map (·.1)), ((take count r f).run w').2) := by
    rw [sitting, Script.run_bind_do, hload]
    simp only [Script.run_bind_do]
    rfl
  rw [hrun, htake, ← hcheckpoint]
  exact ⟨rfl, hleft.replaceable, hleft.holds⟩

end CheckpointFile

open CheckpointFile (Holds sittings nextStart)

namespace Table

variable {t : Table} {base node : List Nat} {earlier later : List (List Nat)} {path : Path}
  {source target : Location} {w : World} {start count : Nat}

/-- The position of a node after `earlier` ones: the searches counted before it. -/
def position (t : Table) (base : List Nat) (earlier : List (List Nat)) (node : List Nat) :
    Checkpoint :=
  ⟨t.labelsOfPath node, Tally.zero.count (earlier.countP (!t.isSolution base ·)), false⟩

/-- Whether `c` is the position of a node with `start` solutions before it. -/
def IsPosition (t : Table) (base : List Nat) (start : Nat) (c : Checkpoint) : Prop :=
  ∃ earlier node later, t.preorder base [] = earlier ++ node :: later ∧
    (earlier.filter (t.isSolution base)).length = start ∧ c = t.position base earlier node

theorem isPosition_fresh : t.IsPosition base 0 .fresh :=
  ⟨[], [], t.descendants base [], preorder_eq, rfl, rfl⟩

/-- The searches counted at a position. -/
theorem searches_position (htree : t.preorder base [] = earlier ++ node :: later)
    (hcount : (t.preorder base []).countP (!t.isSolution base ·) < UInt64.size) :
    (t.position base earlier node).tally.searches.toNat =
      earlier.countP (!t.isSolution base ·) := by
  have hzero : Tally.zero.searches.toNat = 0 := rfl
  rw [htree, List.countP_append] at hcount
  rw [position, Tally.searches_count (by omega), hzero, Nat.zero_add]

/-- The solutions that come from a node on. -/
theorem drop_leaves (htree : t.preorder base [] = earlier ++ node :: later) :
    ((t.leaves base).map t.labelsOfPath).drop (earlier.filter (t.isSolution base)).length =
      ((node :: later).filter (t.isSolution base)).map t.labelsOfPath := by
  rw [leaves, htree, List.filter_append, List.map_append]
  exact List.drop_left' (List.length_map ..)

section

variable (wf : t.WellFormed) (hb : t.Coverable base)
  (distinct : ∀ row < t.rowCount, ∀ row' < t.rowCount, t.ones row ≠ [] →
    (t.ones row).toFinset = (t.ones row').toFinset → row = row')
  (hcount : (t.preorder base []).countP (!t.isSolution base ·) < UInt64.size)
include wf hb distinct hcount

/-- From a position on, a run that is drained gives all the solutions that come. -/
theorem drain_from_position {c : Checkpoint} (h : t.IsPosition base start c) :
    ∃ r, ((Problem.ofMesh (.covering t base)).resume c.bookmark).drain =
      .ok (((t.leaves base).map t.labelsOfPath).drop start, r) := by
  obtain ⟨earlier, node, later, htree, rfl, rfl⟩ := h
  have htally : (Tally.zero.raiseTo (t.position base earlier node).tally).searches.toNat =
      earlier.countP (!t.isSolution base ·) := by
    rw [Tally.raiseTo_zero]
    exact searches_position htree hcount
  have hsum : (t.preorder base []).countP (!t.isSolution base ·) =
      earlier.countP (!t.isSolution base ·) + (node :: later).countP (!t.isSolution base ·) := by
    rw [htree, List.countP_append]
  have hdrain := drain_resumed wf hb distinct htree false .zero
    (some (t.position base earlier node).tally)
  simp only [Option.elim_some, htally, ← hsum, if_pos hcount] at hdrain
  obtain ⟨r, hgiven, -⟩ := hdrain
  rw [drop_leaves htree]
  exact ⟨r, hgiven⟩

/-- From a position on, a run gives as many of the solutions that come as one takes, and leaves the
position of the last one taken. -/
theorem take_from_position {c : Checkpoint} (h : t.IsPosition base start c)
    (hle : start + count ≤ ((t.leaves base).map t.labelsOfPath).length) :
    let r := (Problem.ofMesh (.covering t base)).resume c.bookmark
    (∃ r', r.take count =
        .ok ((((t.leaves base).map t.labelsOfPath).drop start).take count, r')) ∧
      t.IsPosition base (nextStart start count) (c.follow (r.emitted count)) := by
  obtain ⟨earlier, node, later, htree, rfl, rfl⟩ := h
  intro r
  cases count with
  | zero => exact ⟨⟨r, rfl⟩, earlier, node, later, htree, rfl, rfl⟩
  | succ n =>
    have hat : Run.At t base r
        (.notice r.startNotice :: t.moves base false (t.labelsOfPath node)) := Run.at_resume _ rfl
    have htally : r.tally = (t.position base earlier node).tally := Tally.raiseTo_zero
    have hcounted : (t.position base earlier node).tally.searches.toNat = _ :=
      searches_position htree hcount
    have hrest := drop_leaves htree
    have hlt : n < ((node :: later).filter (t.isSolution base)).length := by
      have hlength := congrArg List.length hrest
      rw [List.length_drop, List.length_map, List.length_map] at hlength
      rw [List.length_map] at hle
      omega
    obtain ⟨mid, leaf, after, hsplit, hsol, hmid, hleaf, -⟩ := exists_split_solution hlt
    obtain ⟨ms, hms, hsolutions, hsearches, hfollow⟩ := arrival_append_visits hsplit hsol
    have hsum : (t.preorder base []).countP (!t.isSolution base ·) =
        earlier.countP (!t.isSolution base ·) + (mid.countP (!t.isSolution base ·) +
          after.countP (!t.isSolution base ·)) := by
      simp [htree, hsplit, hsol]
    rw [moves_labelsOfPath wf distinct htree, hms, ← List.cons_append] at hat
    obtain ⟨r', htake, hemitted, -, -⟩ := Run.take_found wf hb hat (n := n)
      (by rw [Moves.solutions_notice, hsolutions, hmid, List.length_map, List.length_take]; omega)
      (by rw [Moves.searches_notice, hsearches, htally, hcounted]; omega)
    refine ⟨⟨r', ?_⟩, earlier ++ mid, leaf, after, ?_, ?_, ?_⟩
    · rw [htake, Moves.solutions_notice, hsolutions, hmid, hrest, ← hleaf, ← List.map_take,
        List.take_succ_eq_append_getElem hlt, List.map_append, List.map_singleton]
    · rw [htree, hsplit, List.append_assoc]
    · rw [List.filter_append, List.length_append, hmid, List.length_take, nextStart,
        if_pos (by omega)]
      omega
    · have hnotice : (t.position base earlier node).follow (Moves.events r.tally
          (.notice r.startNotice :: ms)) =
          (t.position base earlier node).follow (Moves.events r.tally ms) := rfl
      rw [hemitted, hnotice, htally, position, hfollow, hsearches, position, Tally.count_count,
        List.countP_append]

/-- Sittings that begin at a position. -/
theorem run_sittings {c : Checkpoint} (counts : List Nat) (hc : t.IsPosition base start c)
    (hreplaceable : w.files.Replaceable path source target) (hholds : Holds w.files path c)
    (hfits : ∀ x ∈ (counts.scanl nextStart start).zip counts,
      x.1 + x.2 ≤ ((t.leaves base).map t.labelsOfPath).length) :
    let all := (t.leaves base).map t.labelsOfPath
    ((sittings path (.ofMesh (.covering t base)) counts).run w).1 =
      ((counts.scanl nextStart start).zip counts).map
          (fun x => .ok (.ok ((all.drop x.1).take x.2))) ++
        [.ok (.ok (all.drop (counts.foldl nextStart start)))] := by
  intro all
  induction counts generalizing c w start with
  | nil =>
    obtain ⟨r', hdrain⟩ := drain_from_position wf hb distinct hcount hc
    obtain ⟨hgiven, -⟩ := CheckpointFile.run_sitting (.ofMesh (.covering t base)) none hreplaceable
      hholds
    rw [Option.getD_none, ← Run.drain, hdrain] at hgiven
    rw [sittings, Script.run_bind_do, hgiven]
    rfl
  | cons count counts ih =>
    rw [List.scanl_cons, List.zip_cons_cons] at hfits ⊢
    obtain ⟨hfirst, hfits⟩ := List.forall_mem_cons.1 hfits
    obtain ⟨⟨r', hgives⟩, hposition⟩ := take_from_position wf hb distinct hcount hc hfirst
    obtain ⟨hgiven, hreplaceable', hholds'⟩ :=
      CheckpointFile.run_sitting (.ofMesh (.covering t base)) (some count) hreplaceable hholds
    rw [Option.getD_some, hgives] at hgiven
    have hlater := ih hposition hreplaceable' hholds' hfits
    rw [sittings, Script.run_bind_do, hgiven, Script.run_bind_do, hlater]
    rfl

end

/-- Let a search from the start give `all` in the end, and let it be made in sittings that keep a
checkpoint file at a path where nothing stands yet and that can be replaced. A sitting that takes
`count` solutions from the number `start` on gives just these, and the next one begins with the last
of them, or where this one began if it took none. A last sitting gives all that are left. -/
theorem sittings_give_all (built : t.Built) (nodup : base.Nodup)
    (inRange : ∀ c ∈ base, c < t.columnCount)
    (distinct : ∀ row < t.rowCount, ∀ row' < t.rowCount, t.ones row ≠ [] →
      (t.ones row).toFinset = (t.ones row').toFinset → row = row')
    (hname : path.endsInName) (hslash : path.endsInSlash = false)
    (htarget : w.files.locate path = .ok target) (absent : w.files.lookup target = none)
    (hsource : w.files.locate path.temporary = .ok source)
    (free : w.files.lookup source ≠ some .directory) :
    ∃ m, base.foldlM Mesh.cover (.ofTable t) = .ok m ∧
      let p := Problem.ofMesh m
      if (t.preorder base []).countP (!t.isSolution base ·) < UInt64.size then
        ∃ all final, p.solve.drain = .ok (all, final) ∧
          ∀ counts : List Nat,
            let starts := counts.scanl nextStart 0
            (∀ x ∈ starts.zip counts, x.1 + x.2 ≤ all.length) →
              ((sittings path p counts).run w).1 =
                (starts.zip counts).map (fun x => .ok (.ok ((all.drop x.1).take x.2))) ++
                  [.ok (.ok (all.drop (counts.foldl nextStart 0)))]
      else p.solve.drain = .error .tallyOverflow := by
  have wf := built.wellFormed
  have hb : t.Coverable base := ⟨nodup, inRange⟩
  refine ⟨.covering t base, Mesh.foldlM_cover_ofTable wf hb, ?_⟩
  intro p
  have hzero : Tally.zero.searches.toNat = 0 := rfl
  have hdrain := drain_solve wf hb .zero
  simp only [hzero, Nat.zero_add] at hdrain
  split
  · next hcount =>
    rw [if_pos hcount] at hdrain
    obtain ⟨final, hall, -⟩ := hdrain
    have hreplaceable := FileTree.replaceable hname hslash htarget (by simp [absent]) hsource free
    have hholds : Holds w.files path .fresh := .inr ⟨FileTree.read_of_absent htarget absent, rfl⟩
    exact ⟨_, final, hall, fun counts hfits =>
      run_sittings wf hb distinct hcount counts isPosition_fresh hreplaceable hholds hfits⟩
  · next hcount =>
    rw [if_neg hcount] at hdrain
    exact hdrain

/-- The case of `abc` in sittings of two solutions, none, and one, with an empty directory to begin
with. -/
theorem sittings_give_all_abc :
    let path : Path := ⟨"search.json"⟩
    let w : World := .still .empty
    let p := Problem.ofMesh (.ofTable abc)
    let all : List Solution := [[["a", "b"]], [["a"], ["b", "c"]], [["a"], ["b"]]]
    path.endsInName ∧ path.endsInSlash = false ∧ w.files.locate path = .ok ["search.json"] ∧
      w.files.lookup ["search.json"] = none ∧
      w.files.locate path.temporary = .ok ["search.tmp"] ∧
      w.files.lookup ["search.tmp"] ≠ some .directory ∧
      (∃ final, p.solve.drain = .ok (all, final)) ∧
        ((sittings path p [2, 0, 1]).run w).1 =
          [.ok (.ok (all.take 2)), .ok (.ok []), .ok (.ok [all[1]]), .ok (.ok (all.drop 1))] := by
  intro path w p all
  have hname : path.endsInName := by decide
  have hslash : path.endsInSlash = false := by decide
  have htarget : w.files.locate path = .ok ["search.json"] := by decide
  have absent : w.files.lookup ["search.json"] = none := rfl
  have hsource : w.files.locate path.temporary = .ok ["search.tmp"] := by decide
  have free : w.files.lookup ["search.tmp"] ≠ some .directory := nofun
  obtain ⟨m, hm, hgive⟩ := sittings_give_all built_abc List.nodup_nil (by decide) (by decide)
    hname hslash htarget absent hsource free
  obtain rfl : m = .ofTable abc := (Except.ok.inj hm).symm
  have hcount : (abc.preorder [] []).countP (!abc.isSolution [] ·) < UInt64.size := by
    decide +kernel
  have hdrained : p.solve.drain.map Prod.fst = .ok all := by decide +kernel
  rw [if_pos hcount] at hgive
  obtain ⟨found, final, hfound, hgive⟩ := hgive
  obtain rfl : found = all := by simpa [p, hfound, Except.map] using hdrained
  refine ⟨hname, hslash, htarget, absent, hsource, free, ⟨final, hfound⟩, ?_⟩
  rw [hgive [2, 0, 1] (by decide)]
  rfl

end Table

end Covering
