import WorkspaceTrust.Json.Basic

/-!
# The leaves of a value

What a value is made of apart from lists, objects, nulls and booleans:
its texts, its keys and its numbers.
-/

namespace WorkspaceTrust.Json

/-- A text, a key or a number somewhere in a value. -/
inductive Leaf where
  | text (s : String)
  | key (s : String)
  | number (n : Number)
deriving DecidableEq

mutual

def leaves : Json → List Leaf
  | .null | .bool _ => []
  | .num n => [.number n]
  | .str s => [.text s]
  | .arr items => itemLeaves items
  | .obj members => memberLeaves members

def itemLeaves : List Json → List Leaf
  | [] => []
  | v :: vs => v.leaves ++ itemLeaves vs

def memberLeaves : List (String × Json) → List Leaf
  | [] => []
  | (k, v) :: ms => .key k :: v.leaves ++ memberLeaves ms

end

theorem key_mem_memberLeaves {m : String × Json} {ms : List (String × Json)} (h : m ∈ ms) :
    Leaf.key m.1 ∈ memberLeaves ms := by
  induction ms with
  | nil => exact absurd h List.not_mem_nil
  | cons p ms ih =>
    obtain ⟨k, v⟩ := p
    rcases List.mem_cons.1 h with rfl | h
    · simp [memberLeaves]
    · simp [memberLeaves, ih h]

end WorkspaceTrust.Json
