import Covering.Fault

/-!
# Computations without bounds

A loop that is cut off after so many rounds ends whatever it does, and a read that answers something
for every place is never out of range. A `Course` has neither convenience: its loops go on until they
are done, which may be never, and it reads places that exist. It is told by the results that it can
come to. Where it equals `Course.of result`, it ends, it reads nothing that is not there, and its
result is `result`.
-/

namespace Covering
set_option autoImplicit false

/-- The results that a computation can come to: one at most, and none if it goes on for ever. -/
def Course (α : Type) : Type := Except Fault α → Prop

namespace Course

variable {α β σ : Type} {a : α} {fault : Fault} {body : σ → Course (σ ⊕ α)} {s s' : σ}

/-- The course that ends with `result`. -/
def of (result : Except Fault α) : Course α := fun r => r = result

instance : Monad Course where
  pure a := of (.ok a)
  bind course further := fun r => ∃ first, course first ∧
    match first with
    | .ok a => further a r
    | .error fault => r = .error fault

instance : MonadLift (Except Fault) Course := ⟨of⟩

/-- What a loop comes to: `body` is run from `s`, and again from each state that it answers, until
it answers a result. -/
inductive Loops (body : σ → Course (σ ⊕ α)) : σ → Except Fault α → Prop
  | fault {s : σ} {fault : Fault} : body s (.error fault) → Loops body s (.error fault)
  | done {s : σ} {a : α} : body s (.ok (.inr a)) → Loops body s (.ok a)
  | again {s s' : σ} {r : Except Fault α} : body s (.ok (.inl s')) → Loops body s' r → Loops body s r

/-- A loop without a bound. -/
def loop (body : σ → Course (σ ⊕ α)) (s : σ) : Course α := Loops body s

/-- Reads place `i`, which must exist; if it does not, row `i` is told to be missing. -/
def read (xs : Array α) (i : Nat) : Course α :=
  of (match xs[i]? with
    | some x => .ok x
    | none => .error (.missingRow i))

theorem pure_eq : (pure a : Course α) = of (.ok a) := rfl

@[simp] theorem ok_bind {further : α → Course β} : (of (.ok a) >>= further) = further a := by
  funext r
  refine propext ⟨?_, fun h => ⟨.ok a, rfl, h⟩⟩
  rintro ⟨_, rfl, h⟩
  exact h

@[simp] theorem error_bind {further : α → Course β} :
    (of (.error fault) >>= further) = of (.error fault) := by
  funext r
  refine propext ⟨?_, fun h => ⟨.error fault, rfl, h⟩⟩
  rintro ⟨_, rfl, h⟩
  exact h

/-- What ends with `first` goes on as `first` does. -/
theorem of_bind {first : Except Fault α} {further : α → Course β} {next : α → Except Fault β}
    (h : ∀ a, first = .ok a → further a = of (next a)) :
    (of first >>= further) = of (first >>= next) := by
  cases first with
  | error fault => exact error_bind
  | ok a => exact ok_bind.trans (h a rfl)

theorem read_eq {xs : Array α} {i : Nat} (h : xs[i]? = some a) : read xs i = of (.ok a) := by
  rw [read, h]

/-- A loop is its first round and the rest. -/
theorem loop_eq : loop body s = body s >>= fun
    | .inl s' => loop body s'
    | .inr a => of (.ok a) := by
  funext r
  refine propext ⟨?_, ?_⟩
  · intro h
    cases h with
    | fault h => exact ⟨_, h, rfl⟩
    | done h => exact ⟨_, h, rfl⟩
    | again h hrest => exact ⟨_, h, hrest⟩
  · rintro ⟨first, h, hrest⟩
    match first, hrest with
    | .error fault, hrest => exact hrest ▸ .fault h
    | .ok (.inr a), hrest => exact hrest ▸ .done h
    | .ok (.inl s'), hrest => exact .again h hrest

/-- Changes made one after the other, each of which ends wherever `Good` holds and keeps it. -/
theorem foldlM_eq {change : σ → α → Course σ} {change' : σ → α → Except Fault σ} {xs : List α}
    (Good : σ → Prop)
    (h : ∀ x ∈ xs, ∀ s, Good s → change s x = of (change' s x) ∧
      ∀ s', change' s x = .ok s' → Good s') (hs : Good s) :
    xs.foldlM change s = of (xs.foldlM change' s) ∧
      ∀ s', xs.foldlM change' s = .ok s' → Good s' := by
  induction xs generalizing s with
  | nil => exact ⟨rfl, fun s' hs' => Except.ok.inj hs' ▸ hs⟩
  | cons x xs ih =>
    obtain ⟨hx, hxs⟩ := List.forall_mem_cons.1 h
    obtain ⟨hfirst, hgood⟩ := hx s hs
    rw [List.foldlM_cons, List.foldlM_cons, hfirst]
    cases hchange : change' s x with
    | error fault => exact ⟨error_bind, fun s' hs' => by cases hs'⟩
    | ok s₁ => exact ⟨ok_bind.trans (ih hxs (hgood s₁ hchange)).1, (ih hxs (hgood s₁ hchange)).2⟩

end Course

end Covering
