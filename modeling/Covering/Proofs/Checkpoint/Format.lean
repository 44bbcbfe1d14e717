import Covering.Checkpoint.Format
import Covering.Proofs.Json.RoundTrip

/-!
# Reading checkpoints back

A checkpoint written as JSON, in any layout, is read as that checkpoint: `Checkpoint.parse?_write`.
Hence nothing of a checkpoint is lost in its texts, whatever characters its names have and however
far its tally has come: `Checkpoint.texts_read_back`.
-/

namespace Covering
set_option autoImplicit false

open Json (Layout write)

namespace Json

variable {α : Type} {read? : Value → Option α} {toJson : α → Value}

/-- Items are read back if each of them is. -/
theorem array?_map (h : ∀ item, read? (toJson item) = some item) (items : List α) :
    array? read? (.array (items.map toJson)) = some items := by
  rw [array?]
  induction items with
  | nil => rfl
  | cons item items ih => simp [h, ih]

theorem guard_keysDenote {members : List (Text × Value)} (h : keysDenote members) :
    (guard (keysDenote members) : Option Unit) = some () := if_pos h

theorem eachHasNumbers_map (h : ∀ item, (toJson item).hasNumbers) (items : List α) :
    Value.eachHasNumbers (items.map toJson) := by
  induction items with
  | nil => rfl
  | cons item items ih => simp [Value.eachHasNumbers, h, ih]

end Json

namespace Tally

theorem ofJson?_toJson (t : Tally) : ofJson? t.toJson = some t := by
  rw [toJson, ofJson?, Json.guard_keysDenote rfl]
  simp [Json.field?, Json.word?, Json.wordOfLiteral_literalOfWord]

theorem hasNumbers_toJson (t : Tally) : t.toJson.hasNumbers := by
  simp [toJson, Json.Value.hasNumbers, Json.Value.membersHaveNumbers, Json.isNumber_literalOfWord]

/-- What is written of a tally is read as that tally. -/
theorem parse?_write (layout : Layout) (t : Tally) :
    parse? (String.ofList (write layout t.toJson)) = some t := by
  rw [parse?, Json.parse?_write layout t.hasNumbers_toJson, Option.bind_some, ofJson?_toJson]

end Tally

namespace Checkpoint

theorem ofJson?_toJson (c : Checkpoint) : ofJson? c.toJson = some c := by
  have hrow : ∀ row : Labels, Json.array? Json.string?
      (.array (row.map fun name => .string (some name))) = some row :=
    Json.array?_map fun _ => rfl
  have hsolution := Json.array?_map hrow c.solution
  rw [toJson, ofJson?, Json.guard_keysDenote rfl]
  simp [ofFields?, Json.field?, hsolution, c.tally.ofJson?_toJson, Json.bool?]

theorem hasNumbers_toJson (c : Checkpoint) : c.toJson.hasNumbers := by
  have hrow : ∀ row : Labels,
      (Json.Value.array (row.map fun name => .string (some name))).hasNumbers :=
    Json.eachHasNumbers_map fun _ => rfl
  have hsolution := Json.eachHasNumbers_map hrow c.solution
  simp [toJson, Json.Value.hasNumbers, Json.Value.membersHaveNumbers, hsolution,
    c.tally.hasNumbers_toJson]

/-- What is written of a checkpoint is read as that checkpoint. -/
theorem parse?_write (layout : Layout) (c : Checkpoint) :
    parse? (String.ofList (write layout c.toJson)) = some c := by
  rw [parse?, Json.parse?_write layout c.hasNumbers_toJson, Option.bind_some, ofJson?_toJson]

/-- A checkpoint is read back from its text on one line and from its text spread over lines, and a
tally from its text on one line. -/
theorem texts_read_back (c : Checkpoint) (t : Tally) :
    parse? c.toJson.compact = some c ∧ parse? c.toJson.pretty = some c ∧
      Tally.parse? t.toJson.compact = some t :=
  ⟨parse?_write .line c, parse?_write (.spread 0) c, t.parse?_write .line⟩

end Checkpoint

end Covering
