import Covering.Proofs.Ring

/-!
# Walks that come home

`Ring.Leads links slot xs` says that the links from `slot` on lead through `xs` and then to the head,
without any bound on their number. A bounded walk that is long enough reads the same slots:
`Leads.walk_eq`.

A ring from which slots are taken out twice, or into which they are put back in the wrong order,
spells no list any more, and its two directions disagree. One thing no such misuse destroys: forward
links go up and backward links go down, or else to the head. `Ring.Rising` says so, every `unlink`
and every `relink` keeps it, and with it every walk comes home.
-/

namespace Covering
set_option autoImplicit false

namespace Ring

variable {r : Ring} {links : Array Nat} {a b c slot last bound : Nat} {xs ys : List Nat}

/-- From `slot` the links lead through `xs` and then to the head. -/
inductive Leads (links : Array Nat) : Nat → List Nat → Prop where
  | home {slot : Nat} : links[slot]? = some 0 → Leads links slot []
  | onward {slot following : Nat} {xs : List Nat} : links[slot]? = some following → following ≠ 0 →
      Leads links following xs → Leads links slot (following :: xs)

/-- Where the links lead is read off by a walk that is long enough. -/
theorem Leads.walk_eq (h : Leads links slot xs) (hb : xs.length ≤ bound) :
    walk links bound slot = xs := by
  induction h generalizing bound with
  | home hlink =>
    cases bound with
    | zero => rfl
    | succ bound => simp [walk, Array.getD_eq_getD_getElem?, hlink]
  | onward hlink hne _ ih =>
    cases bound with
    | zero => simp at hb
    | succ bound =>
      obtain ⟨k, rfl⟩ := Nat.exists_eq_succ_of_ne_zero hne
      simp only [walk, Array.getD_eq_getD_getElem?, hlink, Option.getD_some]
      rw [ih (by simpa using hb)]

/-- A path to the head leads there. -/
theorem Path.leads (h : r.Path a xs b) (hb : b = 0) (h0 : 0 ∉ xs) : Leads r.next a xs := by
  induction h with
  | last hj => exact .home (hb ▸ hj.1)
  | step hj _ ih =>
    obtain ⟨hx, hxs⟩ := List.ne_and_not_mem_of_not_mem_cons h0
    exact .onward hj.1 (Ne.symm hx) (ih hb hxs)

theorem Spells.leads (h : r.Spells xs) : Leads r.next 0 xs := h.path.leads rfl h.zero_notMem

theorem Spells.leadsBack (h : r.Spells xs) : Leads r.prev 0 xs.reverse :=
  h.flip_path.leads rfl (by simpa using h.zero_notMem)

/-! ## Links that rise -/

/-- Among the slots up to `last` forward links go up and backward links go down, except that they
may go to the head. The head's own backward link may go anywhere among these slots. -/
structure Rising (r : Ring) (last : Nat) : Prop where
  next : ∀ slot ≤ last, ∃ following, r.next[slot]? = some following ∧
    (following = 0 ∨ slot < following ∧ following ≤ last)
  prev : ∀ slot ≤ last, ∃ previous, r.prev[slot]? = some previous ∧ previous ≤ last ∧
    (slot = 0 ∨ previous < slot)

/-- New links between slots up to `last` that go the right way. -/
theorem Rising.write (h : r.Rising last) (ha : a = 0 ∨ b < a ∧ a ≤ last)
    (hc : c ≤ last ∧ (slot = 0 ∨ c < slot)) :
    (Ring.mk (r.next.setIfInBounds b a) (r.prev.setIfInBounds slot c)).Rising last := by
  constructor
  · intro i hi
    obtain ⟨following, hlink, hup⟩ := h.next i hi
    have hsize := (Array.getElem?_eq_some_iff.1 hlink).1
    rw [Array.getElem?_setIfInBounds]
    split
    · next e =>
      subst e
      exact ⟨a, if_pos hsize, ha⟩
    · exact ⟨following, hlink, hup⟩
  · intro i hi
    obtain ⟨previous, hlink, hdown⟩ := h.prev i hi
    have hsize := (Array.getElem?_eq_some_iff.1 hlink).1
    rw [Array.getElem?_setIfInBounds]
    split
    · next e =>
      subst e
      exact ⟨c, if_pos hsize, hc⟩
    · exact ⟨previous, hlink, hdown⟩

/-- The neighbours that a slot's own links name. -/
theorem Rising.neighbours (h : r.Rising last) (h0 : slot ≠ 0) (hs : slot ≤ last) :
    r.prev.getD slot 0 < slot ∧ r.next.getD slot 0 ≤ last ∧
      (r.next.getD slot 0 = 0 ∨ slot < r.next.getD slot 0) := by
  obtain ⟨following, hn, hup⟩ := h.next slot hs
  obtain ⟨previous, hp, -, hdown⟩ := h.prev slot hs
  rw [Array.getD_eq_getD_getElem?, Array.getD_eq_getD_getElem?, hn, hp]
  simp only [Option.getD_some]
  omega

theorem Rising.unlink (h : r.Rising last) (h0 : slot ≠ 0) (hs : slot ≤ last) :
    (r.unlink slot).Rising last := by
  obtain ⟨hp, hn, hup⟩ := h.neighbours h0 hs
  apply h.write <;> omega

theorem Rising.relink (h : r.Rising last) (h0 : slot ≠ 0) (hs : slot ≤ last) :
    (r.relink slot).Rising last := by
  obtain ⟨hp, hn, hup⟩ := h.neighbours h0 hs
  apply h.write <;> omega

/-- A neighbourhood beyond `last` is out of reach. -/
theorem Joined.of_beyond (h : r.Rising last) (h0 : slot ≠ 0) (hs : slot ≤ last) (ha : last < a)
    (hj : r.Joined a a) : (r.unlink slot).Joined a a ∧ (r.relink slot).Joined a a := by
  obtain ⟨hp, hn, -⟩ := h.neighbours h0 hs
  have hprev : r.prev.getD slot 0 ≠ a := by omega
  have hnext : r.next.getD slot 0 ≠ a := by omega
  simp only [Joined, Ring.unlink, Ring.relink, Array.getElem?_setIfInBounds, if_neg hprev,
    if_neg hnext]
  exact ⟨hj, hj⟩

/-- Slots on a list whose links rise. -/
theorem Path.rising (h : r.Path a xs b) (hb : b = 0) (hup : (a :: xs).Pairwise (· < ·))
    (hlast : ∀ x ∈ xs, x ≤ last) :
    (∀ slot ∈ a :: xs, ∃ following, r.next[slot]? = some following ∧
      (following = 0 ∨ slot < following ∧ following ≤ last)) ∧
    ∀ slot ∈ xs, ∃ previous, r.prev[slot]? = some previous ∧ previous < slot := by
  induction h with
  | last hj =>
    subst hb
    simp only [List.mem_singleton, forall_eq, List.not_mem_nil, false_implies, implies_true,
      and_true]
    exact ⟨0, hj.1, .inl rfl⟩
  | @step a x _ xs hj _ ih =>
    obtain ⟨ha, hup⟩ := List.pairwise_cons.1 hup
    obtain ⟨hx, hlast⟩ := List.forall_mem_cons.1 hlast
    obtain ⟨hn, hp⟩ := ih hb hup hlast
    have hax := ha x List.mem_cons_self
    exact ⟨List.forall_mem_cons.2 ⟨⟨x, hj.1, .inr ⟨hax, hx⟩⟩, hn⟩,
      List.forall_mem_cons.2 ⟨⟨a, hj.2, hax⟩, hp⟩⟩

/-- If all slots are linked, links rise. -/
theorem Spells.rising (h : r.Spells (List.range' 1 last)) : r.Rising last := by
  have hup : (0 :: List.range' 1 last).Pairwise (· < ·) :=
    List.pairwise_cons.2 ⟨h.positive, h.ascending⟩
  have hmem : ∀ slot, slot ∈ List.range' 1 last ↔ 0 < slot ∧ slot ≤ last := by
    intro slot
    rw [List.mem_range'_1]
    omega
  obtain ⟨hn, hp⟩ := h.path.rising rfl hup fun x hx => ((hmem x).1 hx).2
  constructor
  · intro slot hs
    rcases Nat.eq_zero_or_pos slot with rfl | h0
    · exact hn 0 List.mem_cons_self
    · exact hn slot (List.mem_cons_of_mem _ ((hmem slot).2 ⟨h0, hs⟩))
  · intro slot hs
    rcases Nat.eq_zero_or_pos slot with rfl | h0
    · obtain ⟨previous, hprevious, hj⟩ := h.path.prev_eq
      refine ⟨previous, hj.2, ?_, .inl rfl⟩
      rcases List.mem_cons.1 hprevious with rfl | hprevious
      · exact Nat.zero_le last
      · exact ((hmem previous).1 hprevious).2
    · obtain ⟨previous, hlink, hlt⟩ := hp slot ((hmem slot).2 ⟨h0, hs⟩)
      exact ⟨previous, hlink, hlt.le.trans hs, .inr hlt⟩

/-- Going up comes home. -/
theorem Rising.exists_leads (h : r.Rising last) (hs : slot ≤ last) :
    ∃ xs, Leads r.next slot xs ∧ (slot :: xs).Pairwise (· < ·) ∧ ∀ x ∈ xs, x ≤ last := by
  induction hn : last - slot using Nat.strongRecOn generalizing slot with
  | ind n ih =>
    obtain ⟨following, hlink, hup⟩ := h.next slot hs
    by_cases h0 : following = 0
    · exact ⟨[], .home (h0 ▸ hlink), List.pairwise_singleton _ _, by simp⟩
    · have hlt := hup.resolve_left h0
      obtain ⟨xs, hleads, hxs, hlast⟩ := ih (last - following) (by omega) hlt.2 rfl
      refine ⟨following :: xs, .onward hlink h0 hleads, List.pairwise_cons.2 ⟨?_, hxs⟩,
        List.forall_mem_cons.2 ⟨hlt.2, hlast⟩⟩
      exact List.forall_mem_cons.2
        ⟨hlt.1, fun x hx => hlt.1.trans ((List.pairwise_cons.1 hxs).1 x hx)⟩

/-- Going down from a slot comes home. -/
theorem Rising.exists_leadsBack (h : r.Rising last) (h0 : slot ≠ 0) (hs : slot ≤ last) :
    ∃ xs, Leads r.prev slot xs ∧ (slot :: xs).Pairwise (· > ·) ∧ ∀ x ∈ xs, 0 < x := by
  induction slot using Nat.strongRecOn with
  | ind slot ih =>
    obtain ⟨previous, hlink, -, hdown⟩ := h.prev slot hs
    have hlt := hdown.resolve_left h0
    by_cases hp : previous = 0
    · exact ⟨[], .home (hp ▸ hlink), List.pairwise_singleton _ _, by simp⟩
    · obtain ⟨xs, hleads, hxs, hpos⟩ := ih previous hlt hp (by omega)
      refine ⟨previous :: xs, .onward hlink hp hleads, List.pairwise_cons.2 ⟨?_, hxs⟩,
        List.forall_mem_cons.2 ⟨Nat.pos_of_ne_zero hp, hpos⟩⟩
      exact List.forall_mem_cons.2
        ⟨hlt, fun x hx => Nat.lt_trans ((List.pairwise_cons.1 hxs).1 x hx) hlt⟩

/-- There are no more different slots than places for them. -/
theorem length_le_of_nodup (hd : xs.Nodup) (hxs : ∀ x ∈ xs, 0 < x ∧ x ≤ last) : xs.length ≤ last := by
  have hsub : xs ⊆ List.range' 1 last := by
    intro x hx
    have := hxs x hx
    rw [List.mem_range'_1]
    omega
  have hle := (List.subperm_of_subset hd hsub).length_le
  rwa [List.length_range'] at hle

/-- Forward from any slot the links ascend until the head is reached. -/
theorem Rising.after (h : r.Rising last) (hs : slot ≤ last) : Leads r.next slot (r.after slot) ∧
    (slot :: r.after slot).Pairwise (· < ·) ∧ ∀ x ∈ r.after slot, x ≤ last := by
  obtain ⟨xs, hleads, hup, hlast⟩ := h.exists_leads hs
  obtain ⟨hpos, hxs⟩ := List.pairwise_cons.1 hup
  have hlength := length_le_of_nodup (hxs.imp Nat.ne_of_lt) fun x hx =>
    ⟨Nat.zero_lt_of_lt (hpos x hx), hlast x hx⟩
  obtain ⟨_, hlink, -⟩ := h.next last (Nat.le_refl last)
  have hsize := (Array.getElem?_eq_some_iff.1 hlink).1
  have hafter : r.after slot = xs := hleads.walk_eq (by omega)
  rw [hafter]
  exact ⟨hleads, hup, hlast⟩

/-- The linked slots of a ring whose links rise: forward from the head they ascend, and the head is
reached again. -/
theorem Rising.slots (h : r.Rising last) : Leads r.next 0 r.slots ∧
    r.slots.Pairwise (· < ·) ∧ ∀ x ∈ r.slots, 0 < x ∧ x ≤ last := by
  obtain ⟨hleads, hup, hlast⟩ := h.after (Nat.zero_le last)
  obtain ⟨hpos, hxs⟩ := List.pairwise_cons.1 hup
  exact ⟨hleads, hxs, fun x hx => ⟨hpos x hx, hlast x hx⟩⟩

/-- Backward from the head it is reached again, too. -/
theorem Rising.slotsBack (h : r.Rising last) : Leads r.prev 0 r.slotsBack ∧
    ∀ x ∈ r.slotsBack, 0 < x ∧ x ≤ last := by
  obtain ⟨first, hlink, hfirst, -⟩ := h.prev 0 (Nat.zero_le last)
  obtain ⟨_, htop, -⟩ := h.prev last (Nat.le_refl last)
  have hsize := (Array.getElem?_eq_some_iff.1 htop).1
  obtain ⟨xs, hleads, hnodup, hall⟩ : ∃ xs, Leads r.prev 0 xs ∧ xs.Nodup ∧
      ∀ x ∈ xs, 0 < x ∧ x ≤ last := by
    by_cases h0 : first = 0
    · exact ⟨[], .home (h0 ▸ hlink), List.nodup_nil, by simp⟩
    · obtain ⟨xs, hleads, hdown, hpos⟩ := h.exists_leadsBack h0 hfirst
      have hlt := (List.pairwise_cons.1 hdown).1
      refine ⟨first :: xs, .onward hlink h0 hleads, hdown.imp Nat.ne_of_gt,
        List.forall_mem_cons.2 ⟨⟨Nat.pos_of_ne_zero h0, hfirst⟩, fun x hx => ⟨hpos x hx, ?_⟩⟩⟩
      exact (Nat.le_of_lt (hlt x hx)).trans hfirst
  have hlength := length_le_of_nodup hnodup hall
  have hslots : r.slotsBack = xs := hleads.walk_eq (by omega)
  rw [hslots]
  exact ⟨hleads, hall⟩

end Ring

end Covering
