import Covering.Ring
import Mathlib.Data.List.Sort
import Mathlib.Data.List.Range

/-!
# Rings as ascending lists of slots

`Ring.Spells r xs` says that `r` links the ascending slots `xs` and no others, the same both ways.
Walks then read `xs` off the ring, a new slot goes to its end, and a slot that is taken out leaves
the others. `Ring.unlinkAll` takes out several slots one by one; main statement: putting them back
last to first leaves the ring as it was.
-/

namespace Covering
set_option autoImplicit false

namespace Ring

variable {r r' : Ring} {a b p q x : Nat} {xs ys as bs : List Nat}

/-- `a` and `b` are neighbours: each is linked to the other. -/
def Joined (r : Ring) (a b : Nat) : Prop := r.next[a]? = some b ∧ r.prev[b]? = some a

/-- From `a` the ring leads through `xs` to `b`, and back the same way. -/
inductive Path (r : Ring) : Nat → List Nat → Nat → Prop where
  | last {a b : Nat} : r.Joined a b → Path r a [] b
  | step {a x b : Nat} {xs : List Nat} : r.Joined a x → Path r x xs b → Path r a (x :: xs) b

theorem path_append_iff : r.Path a (xs ++ x :: ys) b ↔ r.Path a xs x ∧ r.Path x ys b := by
  constructor
  · intro h
    induction xs generalizing a with
    | nil =>
      cases h with
      | step hj h => exact ⟨.last hj, h⟩
    | cons y xs ih =>
      cases h with
      | step hj h =>
        obtain ⟨h1, h2⟩ := ih h
        exact ⟨.step hj h1, h2⟩
  · rintro ⟨h1, h2⟩
    induction h1 with
    | last hj => exact .step hj h2
    | step hj _ ih => exact .step hj (ih h2)

/-- A path depends on the forward links of its start and slots and on the backward links of its
slots and end. -/
theorem Path.congr (h : r.Path a xs b) (hn : ∀ i ∈ a :: xs, r'.next[i]? = r.next[i]?)
    (hp : ∀ i ∈ xs ++ [b], r'.prev[i]? = r.prev[i]?) : r'.Path a xs b := by
  induction h with
  | last hj =>
    exact .last ⟨(hn _ (by simp)).trans hj.1, (hp _ (by simp)).trans hj.2⟩
  | step hj _ ih =>
    refine .step ⟨(hn _ (by simp)).trans hj.1, (hp _ (by simp)).trans hj.2⟩ (ih ?_ ?_)
    · intro i hi
      exact hn i (List.mem_cons_of_mem _ hi)
    · intro i hi
      exact hp i (List.mem_cons_of_mem _ hi)

/-- Where a path goes first. -/
theorem Path.next_eq (h : r.Path a xs b) : ∃ y ∈ xs ++ [b], r.Joined a y := by
  cases h with
  | last hj => exact ⟨b, by simp, hj⟩
  | step hj _ => exact ⟨_, by simp, hj⟩

/-- Where a path comes from last. -/
theorem Path.prev_eq (h : r.Path a xs b) : ∃ y ∈ a :: xs, r.Joined y b := by
  induction h with
  | last hj => exact ⟨_, by simp, hj⟩
  | step _ _ ih =>
    obtain ⟨y, hy, hj⟩ := ih
    exact ⟨y, List.mem_cons_of_mem _ hy, hj⟩

/-- The ring with its directions exchanged. -/
def flip (r : Ring) : Ring := ⟨r.prev, r.next⟩

theorem Path.flip (h : r.Path a xs b) : r.flip.Path b xs.reverse a := by
  induction h with
  | last hj => exact .last ⟨hj.2, hj.1⟩
  | step hj _ ih =>
    rw [List.reverse_cons]
    exact path_append_iff.2 ⟨ih, .last ⟨hj.2, hj.1⟩⟩

/-- A slot on the way has a place among the links. -/
theorem Path.lt_size (h : r.Path a xs b) (hx : x ∈ xs) : x < r.next.size ∧ x < r.prev.size := by
  obtain ⟨as, bs, rfl⟩ := List.append_of_mem hx
  obtain ⟨h1, h2⟩ := path_append_iff.1 h
  obtain ⟨_, _, hj⟩ := h1.prev_eq
  obtain ⟨_, _, hk⟩ := h2.next_eq
  exact ⟨(Array.getElem?_eq_some_iff.1 hk.1).1, (Array.getElem?_eq_some_iff.1 hj.2).1⟩

/-! ## Walks -/

theorem walk_of_path (h : r.Path a xs 0) (hx : 0 ∉ xs) {bound : Nat} (hb : xs.length ≤ bound) :
    walk r.next bound a = xs := by
  induction xs generalizing a bound with
  | nil =>
    cases h with
    | last hj =>
      cases bound with
      | zero => rfl
      | succ bound => simp [walk, Array.getD_eq_getD_getElem?, hj.1]
  | cons x xs ih =>
    cases h with
    | step hj h =>
      cases bound with
      | zero => simp at hb
      | succ bound =>
        have hx0 : x ≠ 0 := by
          intro e
          exact hx (by simp [e])
        obtain ⟨k, rfl⟩ := Nat.exists_eq_succ_of_ne_zero hx0
        simp only [walk, Array.getD_eq_getD_getElem?, hj.1, Option.getD_some]
        rw [ih h (fun e => hx (List.mem_cons_of_mem _ e)) (by simpa using hb)]

/-! ## Taking out one slot -/

theorem unlink_eq (h : r.Joined p x) (h' : r.Joined x q) :
    r.unlink x = ⟨r.next.setIfInBounds p q, r.prev.setIfInBounds q p⟩ := by
  simp [unlink, Array.getD_eq_getD_getElem?, h.2, h'.1]

/-- A neighbourhood away from the slot taken out stays. -/
theorem Joined.unlink (h : r.Joined p x) (h' : r.Joined x q) (hj : r.Joined a b) (ha : a ≠ p)
    (hb : b ≠ q) : (r.unlink x).Joined a b := by
  rw [unlink_eq h h']
  refine ⟨?_, ?_⟩
  · rw [Array.getElem?_setIfInBounds, if_neg (Ne.symm ha)]
    exact hj.1
  · rw [Array.getElem?_setIfInBounds, if_neg (Ne.symm hb)]
    exact hj.2

/-- The neighbours of the slot taken out become neighbours. -/
theorem joined_unlink (h : r.Joined p x) (h' : r.Joined x q) : (r.unlink x).Joined p q := by
  have hp := (Array.getElem?_eq_some_iff.1 h.1).1
  have hq := (Array.getElem?_eq_some_iff.1 h'.2).1
  rw [unlink_eq h h']
  exact ⟨by simp [hp], by simp [hq]⟩

theorem Path.unlink (h : r.Path a as x) (h' : r.Path x bs b) (hn : (a :: (as ++ x :: bs)).Nodup)
    (hp : (as ++ x :: (bs ++ [b])).Nodup) : (r.unlink x).Path a (as ++ bs) b := by
  induction h with
  | last hj =>
    cases h' with
    | last hk => exact .last (joined_unlink hj hk)
    | @step _ y _ ys hk h' =>
      refine .step (joined_unlink hj hk) (h'.congr ?_ ?_)
      · intro i hi
        rw [unlink_eq hj hk, Array.getElem?_setIfInBounds, if_neg]
        rintro rfl
        exact (List.nodup_cons.1 hn).1 (List.mem_cons_of_mem _ hi)
      · intro i hi
        rw [unlink_eq hj hk, Array.getElem?_setIfInBounds, if_neg]
        rintro rfl
        simp only [List.nil_append, List.nodup_cons, List.cons_append] at hp
        exact hp.2.1 hi
  | @step a a' _ as hj h ih =>
    obtain ⟨p, hpm, hpx⟩ := h.prev_eq
    obtain ⟨q, hqm, hxq⟩ := h'.next_eq
    have hn' := List.nodup_cons.1 hn
    have hp' := List.nodup_cons.1 hp
    refine .step (hpx.unlink hxq hj ?_ ?_) (ih h' (by simpa using hn'.2) hp'.2)
    · rintro rfl
      refine hn'.1 ?_
      rcases List.mem_cons.1 hpm with rfl | hm <;> simp_all
    · rintro rfl
      exact hp'.1 (by simp_all)

/-! ## Rings that spell a list -/

/-- The ring links the ascending slots `xs` and no others. -/
structure Spells (r : Ring) (xs : List Nat) : Prop where
  path : r.Path 0 xs 0
  ascending : xs.Pairwise (· < ·)
  positive : ∀ x ∈ xs, 0 < x

namespace Spells

variable (h : r.Spells xs)
include h

theorem zero_notMem : 0 ∉ xs := fun h0 => absurd (h.positive 0 h0) (by omega)

theorem nodup : xs.Nodup := h.ascending.imp Nat.ne_of_lt

theorem length_lt : xs.length < r.next.size := by
  have hsub : xs ⊆ List.range r.next.size := by
    intro x hx
    exact List.mem_range.2 (h.path.lt_size hx).1
  have h0 : 0 < r.next.size := by
    obtain ⟨_, _, hj⟩ := h.path.next_eq
    exact (Array.getElem?_eq_some_iff.1 hj.1).1
  have hsub' : (0 :: xs) ⊆ List.range r.next.size :=
    List.cons_subset.2 ⟨List.mem_range.2 h0, hsub⟩
  have hle := (List.subperm_of_subset (List.nodup_cons.2 ⟨h.zero_notMem, h.nodup⟩) hsub').length_le
  rwa [List.length_cons, List.length_range] at hle

theorem slots_eq : r.slots = xs :=
  walk_of_path h.path h.zero_notMem h.length_lt.le

theorem flip_path : r.flip.Path 0 xs.reverse 0 := h.path.flip

theorem slotsBack_eq : r.slotsBack = xs.reverse := by
  have hb : xs.reverse.length ≤ r.prev.size := by
    have hsub : xs ⊆ List.range r.prev.size := by
      intro x hx
      exact List.mem_range.2 (h.path.lt_size hx).2
    have hle := (List.subperm_of_subset h.nodup hsub).length_le
    rwa [List.length_range, ← List.length_reverse] at hle
  exact walk_of_path (r := r.flip) h.flip_path (by simpa using h.zero_notMem) hb

end Spells

/-- After a linked slot the walk goes on through the slots behind it. -/
theorem Spells.after_eq (h : r.Spells (as ++ x :: bs)) : r.after x = bs := by
  have h0 := h.zero_notMem
  have hl := h.length_lt
  refine walk_of_path (path_append_iff.1 h.path).2 (fun hb => h0 (by simp [hb])) ?_
  simp only [List.length_append, List.length_cons] at hl
  omega

/-- The list without one of its members. -/
theorem filter_ne_of_nodup (h : (as ++ x :: bs).Nodup) :
    (as ++ x :: bs).filter (fun y => decide (y ≠ x)) = as ++ bs := by
  rw [List.nodup_middle, List.nodup_cons, List.mem_append, not_or] at h
  rw [List.filter_append, List.filter_cons_of_neg (by simp)]
  congr 1
  · exact List.filter_eq_self.2 fun y hy => decide_eq_true fun e => h.1.1 (e ▸ hy)
  · exact List.filter_eq_self.2 fun y hy => decide_eq_true fun e => h.1.2 (e ▸ hy)

theorem Spells.unlink (h : r.Spells xs) (hx : x ∈ xs) :
    (r.unlink x).Spells (xs.filter fun y => decide (y ≠ x)) := by
  obtain ⟨as, bs, rfl⟩ := List.append_of_mem hx
  have h0 := h.zero_notMem
  obtain ⟨h1, h2⟩ := path_append_iff.1 h.path
  refine ⟨?_, h.ascending.filter _, fun y hy => h.positive y (List.mem_filter.1 hy).1⟩
  rw [filter_ne_of_nodup h.nodup]
  refine h1.unlink h2 (List.nodup_cons.2 ⟨h0, h.nodup⟩) ?_
  rw [← List.cons_append, ← List.append_assoc]
  exact List.nodup_append'.2 ⟨h.nodup, List.nodup_singleton 0, by simpa using h0⟩

/-- A linked slot put back right after it was taken out. -/
theorem Spells.relink_unlink (h : r.Spells xs) (hx : x ∈ xs) : (r.unlink x).relink x = r := by
  obtain ⟨as, bs, rfl⟩ := List.append_of_mem hx
  obtain ⟨h1, h2⟩ := path_append_iff.1 h.path
  obtain ⟨p, _, hp⟩ := h1.prev_eq
  obtain ⟨q, _, hq⟩ := h2.next_eq
  apply Ring.relink_unlink
  · simpa [Array.getD_eq_getD_getElem?, hp.2] using hp.1
  · simpa [Array.getD_eq_getD_getElem?, hq.1] using hq.2

/-- A slot linked to itself only can be taken out and put back without any effect. -/
theorem unlink_of_joined_self (h : r.Joined x x) : r.unlink x = r := by
  obtain ⟨next, prev⟩ := r
  rw [unlink_eq h h, setIfInBounds_self h.1, setIfInBounds_self h.2]

theorem relink_of_joined_self (h : r.Joined x x) : r.relink x = r := by
  obtain ⟨next, prev⟩ := r
  have hn : next.getD x 0 = x := by simpa [Array.getD_eq_getD_getElem?] using congrArg (·.getD 0) h.1
  have hp : prev.getD x 0 = x := by simpa [Array.getD_eq_getD_getElem?] using congrArg (·.getD 0) h.2
  simp only [relink, hn, hp]
  rw [setIfInBounds_self h.1, setIfInBounds_self h.2]

/-! ## Taking out several slots -/

/-- The ring without the slots `gone`, taken out one by one. -/
def unlinkAll (r : Ring) (gone : List Nat) : Ring := gone.foldl unlink r

theorem Spells.unlinkAll {gone : List Nat} (h : r.Spells xs) (hd : gone.Nodup) (hg : gone ⊆ xs) :
    (r.unlinkAll gone).Spells (xs.filter fun y => decide (y ∉ gone)) := by
  induction gone generalizing r xs with
  | nil => simpa [Ring.unlinkAll] using h
  | cons x gone ih =>
    obtain ⟨hx, hd⟩ := List.nodup_cons.1 hd
    obtain ⟨hxs, hg⟩ := List.cons_subset.1 hg
    have hg' : gone ⊆ xs.filter fun y => decide (y ≠ x) := by
      intro y hy
      exact List.mem_filter.2 ⟨hg hy, decide_eq_true fun e => hx (e ▸ hy)⟩
    have hrest := ih (h.unlink hxs) hd hg'
    rw [List.filter_filter] at hrest
    simpa [Ring.unlinkAll, Bool.and_comm] using hrest

/-- Putting slots back last to first undoes taking them out. -/
theorem Spells.relink_unlinkAll {gone : List Nat} (h : r.Spells xs) (hd : gone.Nodup)
    (hg : gone ⊆ xs) : gone.reverse.foldl relink (r.unlinkAll gone) = r := by
  induction gone generalizing r xs with
  | nil => rfl
  | cons x gone ih =>
    obtain ⟨hx, hd⟩ := List.nodup_cons.1 hd
    obtain ⟨hxs, hg⟩ := List.cons_subset.1 hg
    have hg' : gone ⊆ xs.filter fun y => decide (y ≠ x) := by
      intro y hy
      exact List.mem_filter.2 ⟨hg hy, decide_eq_true fun e => hx (e ▸ hy)⟩
    have hback := ih (h.unlink hxs) hd hg'
    rw [List.reverse_cons, List.foldl_append]
    change (List.foldl relink ((r.unlink x).unlinkAll gone) gone.reverse).relink x = r
    rw [hback]
    exact h.relink_unlink hxs

/-! ## New slots -/

theorem spells_empty : Ring.empty.Spells [] :=
  ⟨.last ⟨rfl, rfl⟩, .nil, by simp⟩

/-- Both ways have a place for each slot. -/
def Square (r : Ring) : Prop := r.prev.size = r.next.size

theorem Square.push (h : r.Square) : r.push.Square := by simpa [Square, Ring.push] using h

theorem Square.pushAlone (h : r.Square) : r.pushAlone.Square := by
  simpa [Square, Ring.pushAlone] using h

theorem size_push : r.push.next.size = r.next.size + 1 := by simp [Ring.push]

theorem size_pushAlone : r.pushAlone.next.size = r.next.size + 1 := by simp [Ring.pushAlone]

/-- A link of an old slot after a new slot was made, where `last` was the slot before the head. -/
theorem push_eq (hs : r.Square) (hj : r.Joined p 0) :
    (∀ i, i < r.next.size → r.push.next[i]? = if p = i then some r.next.size else r.next[i]?) ∧
    (∀ i, i < r.next.size → r.push.prev[i]? = if 0 = i then some r.next.size else r.prev[i]?) ∧
    r.push.next[r.next.size]? = some 0 ∧ r.push.prev[r.next.size]? = some p := by
  have hp := (Array.getElem?_eq_some_iff.1 hj.1).1
  have h0 := (Array.getElem?_eq_some_iff.1 hj.2).1
  have hlast : r.prev.getD 0 0 = p := by simp [Array.getD_eq_getD_getElem?, hj.2]
  simp only [Square] at hs
  refine ⟨fun i hi => ?_, fun i hi => ?_, ?_, ?_⟩
  · simp [Ring.push, hlast, Array.getElem?_push, Array.getElem?_setIfInBounds, hp, hi.ne]
  · simp [Ring.push, hs, Array.getElem?_push, Array.getElem?_setIfInBounds, hi.ne, hs ▸ h0]
  · simp only [Ring.push]
    rw [Array.getElem?_push, if_pos (by simp)]
  · simp only [Ring.push, hlast]
    rw [Array.getElem?_push, if_pos (by simp [hs])]

/-- A new slot comes last. -/
theorem Spells.push (h : r.Spells xs) (hs : r.Square) : r.push.Spells (xs ++ [r.next.size]) := by
  have hlt : ∀ x ∈ xs, x < r.next.size := by
    intro x hx
    exact (h.path.lt_size hx).1
  have hpos : 0 < r.next.size := by have := h.length_lt; omega
  refine ⟨path_append_iff.2 ?_, ?_, ?_⟩
  · rcases xs.eq_nil_or_concat' with rfl | ⟨ys, p, rfl⟩
    · cases h.path with
      | last hj =>
        obtain ⟨hn, hp, hn', hp'⟩ := push_eq hs hj
        exact ⟨.last ⟨by simp [hn 0 hpos], hp'⟩, .last ⟨hn', by simp [hp 0 hpos]⟩⟩
    · obtain ⟨h1, h2⟩ := path_append_iff.1 h.path
      cases h2 with
      | last hj =>
        obtain ⟨hn, hp, hn', hp'⟩ := push_eq hs hj
        have h0 := h.zero_notMem
        have hd := h.nodup
        simp only [List.mem_append, List.mem_singleton, not_or] at h0
        rw [List.nodup_append'] at hd
        have hps := hlt p (by simp)
        refine ⟨path_append_iff.2 ⟨h1.congr ?_ ?_, .last ⟨by simp [hn p hps], hp'⟩⟩,
          .last ⟨hn', by simp [hp 0 hpos]⟩⟩
        · intro i hi
          have hip : p ≠ i := by
            rintro rfl
            rcases List.mem_cons.1 hi with rfl | hi
            · exact h0.2 rfl
            · exact hd.2.2 hi (by simp)
          have his : i < r.next.size := by
            rcases List.mem_cons.1 hi with rfl | hi
            · exact hpos
            · exact hlt i (by simp [hi])
          rw [hn i his, if_neg hip]
        · intro i hi
          have hi0 : 0 ≠ i := by
            rintro rfl
            simp_all
          rw [hp i (hlt i hi), if_neg hi0]
  · refine List.pairwise_append.2 ⟨h.ascending, List.pairwise_singleton _ _, ?_⟩
    intro x hx y hy
    rw [List.mem_singleton.1 hy]
    exact hlt x hx
  · intro x hx
    rcases List.mem_append.1 hx with hx | hx
    · exact h.positive x hx
    · rw [List.mem_singleton.1 hx]
      exact hpos

/-- A slot linked to itself only is no part of the ring. -/
theorem Spells.pushAlone (h : r.Spells xs) (hs : r.Square) : r.pushAlone.Spells xs := by
  have hlt : ∀ x ∈ xs, x < r.next.size := by
    intro x hx
    exact (h.path.lt_size hx).1
  have hpos : 0 < r.next.size := by have := h.length_lt; omega
  simp only [Square] at hs
  refine ⟨h.path.congr ?_ ?_, h.ascending, h.positive⟩
  · intro i hi
    have his : i ≠ r.next.size := by
      rcases List.mem_cons.1 hi with rfl | hi
      · omega
      · have := hlt i hi; omega
    simp [Ring.pushAlone, Array.getElem?_push, his]
  · intro i hi
    have his : i ≠ r.prev.size := by
      rcases List.mem_append.1 hi with hi | hi
      · have := hlt i hi; omega
      · rw [List.mem_singleton.1 hi]; omega
    simp [Ring.pushAlone, Array.getElem?_push, his]

theorem Joined.pushAlone (h : r.Joined a b) : r.pushAlone.Joined a b := by
  have hn := Array.getElem?_eq_some_iff.1 h.1
  have hp := Array.getElem?_eq_some_iff.1 h.2
  refine ⟨?_, ?_⟩
  · simp only [Ring.pushAlone]
    rw [Array.getElem?_push, if_neg (by have := hn.1; omega), h.1]
  · simp only [Ring.pushAlone]
    rw [Array.getElem?_push, if_neg (by have := hp.1; omega), h.2]

theorem joined_pushAlone (hs : r.Square) : r.pushAlone.Joined r.next.size r.next.size := by
  simp only [Square] at hs
  exact ⟨by simp [Ring.pushAlone], by simp [Ring.pushAlone, ← hs]⟩

end Ring

end Covering
