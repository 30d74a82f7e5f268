import WorkspaceTrust.Json.Describe

/-!
# Reading typed values from JSON

A `Reader` takes a JSON value for a value of some type or tells what is
wrong with its shape. Records are read field by field: a field may be
absent (`optional`), and what is absent and needed is a fault only when
every present field is as it should be (`require`). Fields are read in
the order of their keys, which is the order in which a value lists them.

The fields of a record that nothing here interprets are its `Extra`. They
are kept as they are, and none of them has the key of a known field.
-/

namespace WorkspaceTrust

/-- What a field must hold. -/
inductive Expectation where
  | text
  | flag
  | sequence
  | map
  | path
  | record (name : String)
deriving DecidableEq, Repr

def Expectation.describe : Expectation → String
  | .text => "a string"
  | .flag => "a boolean"
  | .sequence => "a sequence"
  | .map => "a map"
  | .path => "path string"
  | .record name => "struct " ++ name

/-- Why a value does not have the shape that is asked for. -/
inductive ShapeError where
  | wrongType (found : Json) (expected : Expectation)
  | missingField (name : String)
  | tooManyItems (count : Nat)
deriving DecidableEq, Repr

def ShapeError.message : ShapeError → String
  | .wrongType found expected =>
      "invalid type: " ++ found.describe ++ ", expected " ++ expected.describe
  | .missingField name => "missing field `" ++ name ++ "`"
  | .tooManyItems count =>
      "invalid length " ++ toString count ++ ", expected fewer elements in array"

namespace Shape

abbrev Reader (α : Type) := Json → Except ShapeError α

variable {α : Type}

/-! ## Values -/

def text : Reader String
  | .str s => .ok s
  | v => .error (.wrongType v .text)

def flag : Reader Bool
  | .bool b => .ok b
  | v => .error (.wrongType v .flag)

def path : Reader String
  | .str s => .ok s
  | v => .error (.wrongType v .path)

/-- Null stands for an absent value. -/
def nullable (read : Reader α) : Reader (Option α)
  | .null => .ok none
  | v => (read v).map some

def list (read : Reader α) : Reader (List α)
  | .arr items => items.mapM read
  | v => .error (.wrongType v .sequence)

def map (read : Reader α) : Reader (SortedMap String α)
  | .obj members => do
      let read ← members.mapM fun (k, v) => (read v).map (k, ·)
      .ok (SortedMap.ofList read)
  | v => .error (.wrongType v .map)

/-! ## Records -/

/-- The fields of a record. -/
def record (name : String) : Reader (SortedMap String Json)
  | .obj members => .ok (SortedMap.ofList members)
  | v => .error (.wrongType v (.record name))

/-- A field, if it is there. -/
def optional (fields : SortedMap String Json) (key : String) (read : Reader α) :
    Except ShapeError (Option α) :=
  match fields.get? key with
  | none => .ok none
  | some v => (read v).map some

/-- The value of a field that must be there. -/
def require (key : String) : Option α → Except ShapeError α
  | some a => .ok a
  | none => .error (.missingField key)

end Shape

/-! ## Fields that are only kept -/

/-- Fields without an interpretation; none has a known key. -/
structure Extra (known : List String) where
  fields : SortedMap String Json
  unknown : ∀ k ∈ known, fields.get? k = none

namespace Extra

variable {known : List String}

instance : DecidableEq (Extra known) := fun a b =>
  decidable_of_iff (a.fields = b.fields)
    ⟨fun h => by cases a; cases b; cases h; rfl, fun h => h ▸ rfl⟩

def none : Extra known := ⟨SortedMap.empty, fun _ _ => rfl⟩

instance : Inhabited (Extra known) := ⟨none⟩

/-- The fields of a record without those that are known. -/
def ofFields (fields : SortedMap String Json) : Extra known where
  fields := fields.filter fun k _ => !known.contains k
  unknown k hk := by simp [SortedMap.get?_filter, hk]

end Extra

/-! ## Writing records -/

namespace Shape

/-- A field that is written only if it has a value. -/
def present (key : String) : Option Json → List (String × Json)
  | some v => [(key, v)]
  | none => []

/-- A list that is written only if it has items. -/
def nonempty (key : String) : List Json → List (String × Json)
  | [] => []
  | items => [(key, .arr items)]

/-- A map of texts. -/
def texts (m : SortedMap String String) : Json := .object (m.mapValues .str)

/-- A map of texts that is written only if it has entries. -/
def nonemptyTexts (key : String) (m : SortedMap String String) : List (String × Json) :=
  if m.isEmpty then [] else [(key, texts m)]

end Shape

end WorkspaceTrust
