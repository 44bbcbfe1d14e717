import Covering.Proofs.SearchTree

/-!
# Following a path into the tree

A saved path leads from the root to the node at which it ends or no child fits: `Table.follow`. What
a resumed search has left after the subtree of that node is `Table.passed`, collected on the way
down. On the tree as a whole it is what comes after that subtree in preorder: `Table.passed_eq`.
-/

namespace Covering
set_option autoImplicit false

namespace Table

variable {t : Table} {base path node node' : List Nat} {saved : List Labels}

/-- Where `saved` leads from a node, each time into the first child with the labels that come next,
and what is left of it there. -/
def follow (t : Table) (base : List Nat) : List Labels → List Nat → List Nat × List Labels
  | [], path => (path, [])
  | wanted :: later, path =>
    match (t.children base path).find? fun row => t.labels row == wanted with
    | some row => follow t base later (path ++ [row])
    | none => (path, wanted :: later)

/-- The nodes after the subtree of `node`, in preorder. -/
def afterSubtree (t : Table) (base node : List Nat) : List (List Nat) :=
  ((t.preorder base []).dropWhile (· != node)).dropWhile (node.isPrefixOf ·)

/-- The nodes that following `saved` from a node leaves for later: the subtrees of the siblings
after each row chosen, those of the innermost first. -/
def passed (t : Table) (base : List Nat) : List Labels → List Nat → List (List Nat)
  | [], _ => []
  | wanted :: later, path =>
    match (t.children base path).dropWhile fun row => !(t.labels row == wanted) with
    | [] => []
    | row :: after => passed t base later (path ++ [row]) ++ t.subtrees base path after

/-- A subtree is what comes before the node reached in it, that node's subtree and the nodes left
for later. -/
theorem preorder_eq_append_passed (base : List Nat) (saved : List Labels) (path : List Nat) :
    ∃ earlier, t.preorder base path =
      earlier ++ t.preorder base (t.follow base saved path).1 ++ t.passed base saved path := by
  induction saved generalizing path with
  | nil => exact ⟨[], by simp [follow, passed]⟩
  | cons wanted later ih =>
    rw [follow, passed, List.find?_eq_head?_dropWhile_not]
    cases hdrop : (t.children base path).dropWhile fun row => !(t.labels row == wanted) with
    | nil => exact ⟨[], by simp⟩
    | cons row after =>
      obtain ⟨earlier, h⟩ := ih (path ++ [row])
      obtain ⟨before, hrows⟩ : ∃ before, t.children base path = before ++ row :: after :=
        ⟨_, by rw [← hdrop, List.takeWhile_append_dropWhile]⟩
      refine ⟨path :: t.subtrees base path before ++ earlier, ?_⟩
      rw [preorder_eq, descendants, hrows]
      simp [subtrees, h]

/-- Below a node with prefix `node` is the subtree of `node`. -/
theorem mem_preorder_of_prefix (h : node ∈ t.preorder base path) (h' : node' ∈ t.preorder base path)
    (hpre : node <+: node') : node' ∈ t.preorder base node := by
  induction path using node_induction (t := t) base with
  | h path ih =>
    rcases mem_preorder.1 h with rfl | ⟨row, hrow, hnode⟩
    · exact h'
    · have hpath := (prefix_of_mem_preorder hnode).trans hpre
      rcases mem_preorder.1 h' with rfl | ⟨row', hrow', hnode'⟩
      · have hle := hpath.length_le
        rw [List.length_append, List.length_singleton] at hle
        omega
      · have hsame := List.prefix_of_prefix_length_le hpath (prefix_of_mem_preorder hnode') (by simp)
        obtain rfl : row = row' := by simpa using hsame.eq_of_length (by simp)
        exact ih row hrow hnode hnode'

/-- What comes after a node in the tree. -/
theorem later_unique {earlier earlier' later later' : List (List Nat)}
    (h : t.preorder base path = earlier ++ node :: later)
    (h' : t.preorder base path = earlier' ++ node :: later') : later = later' := by
  have hnodup := preorder_nodup (t := t) base path
  rw [h] at hnodup
  obtain ⟨-, hlater, hearlier⟩ := List.nodup_append'.1 hnodup
  exact ((List.append_cons_inj_of_notMem (fun hmem => hearlier hmem List.mem_cons_self)
    (List.nodup_cons.1 hlater).1).1 (h.symm.trans h')).2.2

/-- What comes after a subtree, if the tree is split there. -/
theorem afterSubtree_eq {earlier later : List (List Nat)}
    (h : t.preorder base [] = earlier ++ t.preorder base node ++ later) :
    t.afterSubtree base node = later := by
  have hmem : node ∈ t.preorder base node := mem_preorder.2 (.inl rfl)
  have hnodup := preorder_nodup (t := t) base []
  rw [h, List.append_assoc] at hnodup
  have hearlier : ∀ x ∈ earlier, (x != node) = true := by
    intro x hx
    apply bne_iff_ne.2
    intro e
    exact (List.nodup_append'.1 hnodup).2.2 (e ▸ hx) (List.mem_append_left _ hmem)
  have hlater : ∀ x ∈ later, ¬node <+: x := by
    intro x hx hpre
    have hroot : ∀ y ∈ t.preorder base node ++ later, y ∈ t.preorder base [] := fun y hy => by
      rw [h, List.append_assoc]
      exact List.mem_append_right _ hy
    have hin := mem_preorder_of_prefix (hroot node (List.mem_append_left _ hmem))
      (hroot x (List.mem_append_right _ hx)) hpre
    exact (List.nodup_append'.1 (List.nodup_append'.1 hnodup).2.1).2.2 hin hx
  rw [afterSubtree, h, List.append_assoc, List.dropWhile_append_of_pos hearlier]
  have hstop : (t.preorder base node ++ later).dropWhile (· != node) =
      t.preorder base node ++ later := by
    rw [preorder_eq, List.cons_append, List.dropWhile_cons_of_neg (by simp)]
  rw [hstop, List.dropWhile_append_of_pos
    fun x hx => List.isPrefixOf_iff_prefix.2 (prefix_of_mem_preorder hx)]
  cases later with
  | nil => rfl
  | cons x later =>
    apply List.dropWhile_cons_of_neg
    intro e
    exact hlater x List.mem_cons_self (List.isPrefixOf_iff_prefix.1 e)

/-- What following a path from the root leaves for later is what comes after the subtree reached. -/
theorem passed_eq (saved : List Labels) :
    t.passed base saved [] = t.afterSubtree base (t.follow base saved []).1 := by
  obtain ⟨earlier, h⟩ := preorder_eq_append_passed (t := t) base saved []
  exact (afterSubtree_eq h).symm

/-- The way to a node below another goes through one of the other's children. -/
theorem mem_preorder_append_cons {row : Nat} {suffix : List Nat}
    (h : path ++ row :: suffix ∈ t.preorder base path) :
    row ∈ t.children base path ∧ path ++ [row] ++ suffix ∈ t.preorder base (path ++ [row]) := by
  rw [List.append_cons] at h
  obtain ⟨row', hrow', hbelow⟩ := (mem_preorder.1 h).resolve_left (by simp)
  obtain rfl : row' = row := by
    have hpre := List.prefix_of_prefix_length_le (prefix_of_mem_preorder hbelow)
      (List.prefix_append (path ++ [row]) suffix) (by simp)
    simpa using hpre.eq_of_length (by simp)
  exact ⟨hrow', hbelow⟩

/-- The labels of a child lead to the first child with these labels, which is the child itself or one
before it. -/
theorem exists_first_child {row : Nat} (h : row ∈ t.children base path) :
    ∃ first after, first ∈ t.children base path ∧ t.labels first = t.labels row ∧
      (first = row ∨ row ∈ after) ∧ ∀ later,
        t.follow base (t.labels row :: later) path = t.follow base later (path ++ [first]) ∧
        t.passed base (t.labels row :: later) path =
          t.passed base later (path ++ [first]) ++ t.subtrees base path after := by
  cases hdrop : (t.children base path).dropWhile fun other => !(t.labels other == t.labels row) with
  | nil => simpa using List.dropWhile_eq_nil_iff.1 hdrop row h
  | cons first after =>
    have hfind := List.find?_eq_head?_dropWhile_not (fun other => t.labels other == t.labels row)
      (t.children base path)
    rw [hdrop, List.head?_cons] at hfind
    refine ⟨first, after, List.mem_of_find?_eq_some hfind, by simpa using List.find?_some hfind, ?_,
      fun later => ⟨?_, ?_⟩⟩
    · rw [← List.takeWhile_append_dropWhile (p := fun other => !(t.labels other == t.labels row))
        (l := t.children base path), hdrop] at h
      rcases List.mem_append.1 h with hbefore | hmem
      · simpa using List.mem_takeWhile_imp hbefore
      · exact (List.mem_cons.1 hmem).imp_left Eq.symm
    · rw [follow, hfind]
    · rw [passed, hdrop]

/-- If rows with the same labels are the same, the labels of a node lead to it. -/
theorem follow_labelsOfPath (wf : t.WellFormed)
    (distinct : ∀ row < t.rowCount, ∀ row' < t.rowCount, t.ones row ≠ [] →
      (t.ones row).toFinset = (t.ones row').toFinset → row = row')
    {suffix : List Nat} (h : path ++ suffix ∈ t.preorder base path) :
    t.follow base (t.labelsOfPath suffix) path = (path ++ suffix, []) := by
  induction suffix generalizing path with
  | nil => simp [labelsOfPath, follow]
  | cons row suffix ih =>
    obtain ⟨hrow, hbelow⟩ := mem_preorder_append_cons h
    obtain ⟨first, after, hfirst, hlabels, -, hfollow⟩ := exists_first_child hrow
    obtain rfl : first = row := by
      obtain ⟨c, -, hcompatible⟩ := mem_choices.1 hfirst
      obtain ⟨c', -, hcompatible'⟩ := mem_choices.1 hrow
      have hone := (mem_compatible.1 hcompatible).1
      exact distinct first (lt_rowCount_of_mem_ones hone) row
        (lt_rowCount_of_mem_ones (mem_compatible.1 hcompatible').1) (List.ne_nil_of_mem hone)
        (wf.ones_toFinset_of_labels hlabels)
    rw [labelsOfPath, List.map_cons, (hfollow _).1, List.append_cons path first suffix]
    exact ih hbelow

end Table

end Covering
