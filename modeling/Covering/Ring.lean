/-!
# Rings of links

A ring runs from a head through some slots and back. Slot 0 is the head; every slot keeps its own
two links when it is taken out, and these are all that is needed to put it back. Links are read
one way by `after` and the other way by `before`, and the two need not agree once slots have been
put back in another order than they were taken out. Main statement: a slot that is put back right after
it was taken out leaves the ring as it was.
-/

namespace Covering
set_option autoImplicit false

/-- Forward and backward links by slot. -/
structure Ring where
  next : Array Nat
  prev : Array Nat
  deriving DecidableEq

namespace Ring

/-- A head alone. -/
def empty : Ring := ⟨#[0], #[0]⟩

/-- A new slot between the last one and the head. -/
def push (r : Ring) : Ring :=
  let slot := r.next.size
  let last := r.prev.getD 0 0
  ⟨(r.next.setIfInBounds last slot).push 0, (r.prev.setIfInBounds 0 slot).push last⟩

/-- A new slot that is linked to itself only. -/
def pushAlone (r : Ring) : Ring :=
  let slot := r.next.size
  ⟨r.next.push slot, r.prev.push slot⟩

/-- Joins the two neighbours of `slot`, which keeps its own links. -/
def unlink (r : Ring) (slot : Nat) : Ring :=
  let before := r.prev.getD slot 0
  let after := r.next.getD slot 0
  ⟨r.next.setIfInBounds before after, r.prev.setIfInBounds after before⟩

/-- Joins `slot` to the two neighbours that its own links name. -/
def relink (r : Ring) (slot : Nat) : Ring :=
  let before := r.prev.getD slot 0
  let after := r.next.getD slot 0
  ⟨r.next.setIfInBounds before slot, r.prev.setIfInBounds after slot⟩

/-- The slots that `links` leads through from `slot` up to the head, `bound` of them at most. -/
def walk (links : Array Nat) : Nat → Nat → List Nat
  | 0, _ => []
  | bound + 1, slot =>
    match links.getD slot 0 with
    | 0 => []
    | following => following :: walk links bound following

/-- The slots after `slot`, forward to the head. -/
def after (r : Ring) (slot : Nat) : List Nat := walk r.next r.next.size slot

/-- The slots before `slot`, backward to the head. -/
def before (r : Ring) (slot : Nat) : List Nat := walk r.prev r.prev.size slot

/-- The linked slots, forward from the head. -/
def slots (r : Ring) : List Nat := r.after 0

/-- The linked slots, backward from the head. -/
def slotsBack (r : Ring) : List Nat := r.before 0

/-! ## Taking out and putting back -/

/-- To write what stands there changes nothing. -/
theorem setIfInBounds_self {links : Array Nat} {i x : Nat} (h : links[i]? = some x) :
    links.setIfInBounds i x = links := by
  apply Array.ext_getElem?
  intro j
  rw [Array.getElem?_setIfInBounds]
  split
  · next e =>
    subst e
    obtain ⟨hi, _⟩ := Array.getElem?_eq_some_iff.1 h
    rw [if_pos hi, h]
  · rfl

/-- To copy a slot's link to any place leaves the slot's own link. -/
theorem getD_copy (links : Array Nat) (i slot : Nat) :
    (links.setIfInBounds i (links.getD slot 0)).getD slot 0 = links.getD slot 0 := by
  by_cases hs : slot < links.size
  · by_cases h : i = slot
    · subst h
      simp [Array.getD_eq_getD_getElem?, hs]
    · simp [Array.getD_eq_getD_getElem?, h]
  · simp [Array.getD_eq_getD_getElem?, hs]

/-- Putting a slot back undoes taking it out, if its neighbours were linked to it. -/
theorem relink_unlink {r : Ring} {slot : Nat}
    (hn : r.next[r.prev.getD slot 0]? = some slot)
    (hp : r.prev[r.next.getD slot 0]? = some slot) : (r.unlink slot).relink slot = r := by
  obtain ⟨next, prev⟩ := r
  simp only [unlink, relink, getD_copy] at *
  rw [Array.setIfInBounds_setIfInBounds, Array.setIfInBounds_setIfInBounds,
    setIfInBounds_self hn, setIfInBounds_self hp]

end Ring

end Covering
