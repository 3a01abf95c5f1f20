import OpenshiftConsole.Library.Lines

/-!
# Objects of the API server

Objects of any kind, as a backend decodes them into maps and a browser into objects. Both read a field at the end of a
path; where the path leads nowhere they find nothing. A null is nothing for Go, and falsy for JavaScript.
-/

namespace OpenshiftConsole.Backend

open OpenshiftConsole.Library.Lines (Text)

inductive Json where
  | null
  | bool (b : Bool)
  | number (text : Text)
  | string (s : Text)
  | array (items : List Json)
  /-- The members; the names are different ones. -/
  | object (members : List (Text × Json))

/-- `m[p]` of a map, and `v?.p` in JavaScript: nothing if there is no map, or no such member. -/
def field (v : Option Json) (p : Text) : Option Json :=
  match v with
  | some (.object members) => members.lookup p
  | _ => none

/-- `getPath`, and a chain of `?.` -/
def getPath (v : Option Json) (path : List Text) : Option Json := path.foldl field v

/-- The assertion that a value is a string: `v.(string)`. -/
def asString : Option Json → Option Text
  | some (.string s) => some s
  | _ => none

/-- The assertion that a value is a map. -/
def asMap : Option Json → Option Json
  | some (.object members) => some (.object members)
  | _ => none

/-- `s, _ := v.(string)` -/
def stringOr (v : Option Json) : Text := (asString v).getD []

/-- A value that counts as true in JavaScript; numbers are left out, none is looked at. -/
def truthy : Option Json → Bool
  | none | some .null | some (.bool false) | some (.string []) => false
  | _ => true

/-- A string, or nothing: what the schema of an object lets such a field be. -/
def IsText (v : Option Json) : Prop := v = none ∨ v = some .null ∨ ∃ s, v = some (.string s)

variable {v : Option Json} {s : Text}

theorem asString_eq_some : asString v = some s ↔ v = some (.string s) := by
  constructor
  · intro h
    unfold asString at h
    split at h
    · rw [Option.some.inj h]
    · cases h
  · rintro rfl
    rfl

theorem truthy_iff (h : IsText v) : truthy v = true ↔ stringOr v ≠ [] := by
  rcases h with rfl | rfl | ⟨s, rfl⟩
  · simp [truthy, stringOr, asString]
  · simp [truthy, stringOr, asString]
  · cases s with
    | nil => simp [truthy, stringOr, asString]
    | cons c s => simp [truthy, stringOr, asString]

/-- A value that is found is not null. -/
theorem stringOr_of_ne (h : IsText v) (hne : stringOr v ≠ []) : v = some (.string (stringOr v)) := by
  rcases h with rfl | rfl | ⟨s, rfl⟩
  · exact absurd rfl hne
  · exact absurd rfl hne
  · rfl

end OpenshiftConsole.Backend
