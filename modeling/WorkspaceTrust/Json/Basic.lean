import WorkspaceTrust.SortedMap
import WorkspaceTrust.Decimal.Binary64

/-!
# JSON values

Manifests carry fields that nothing here interprets; they travel as
`Json` values. The members of an object are kept as a list, because a
manifest is written in the order of its fields and not by key. The value
that a list of members stands for is its `sortKeys`: members in key
order, and of two members with one key the later.

`Json.Ordered` says that a value is its own `sortKeys` at every depth.
Everything that is read is ordered.
-/

namespace WorkspaceTrust

/-- Whole numbers are kept apart from those written with a point or an exponent. -/
inductive Json.Number where
  | int (i : Int)
  | float (x : Binary64)
deriving DecidableEq, Repr

inductive Json where
  | null
  | bool (b : Bool)
  | num (n : Json.Number)
  | str (s : String)
  | arr (items : List Json)
  | obj (members : List (String × Json))
deriving Repr

namespace Json

instance : Inhabited Json := ⟨.null⟩

mutual

def decEq : (a b : Json) → Decidable (a = b)
  | .null, .null => .isTrue rfl
  | .bool a, .bool b => decidable_of_iff (a = b) (by simp)
  | .num a, .num b => decidable_of_iff (a = b) (by simp)
  | .str a, .str b => decidable_of_iff (a = b) (by simp)
  | .arr a, .arr b => match decEqList a b with
    | .isTrue h => .isTrue (h ▸ rfl)
    | .isFalse h => .isFalse fun e => h (Json.arr.inj e)
  | .obj a, .obj b => match decEqMembers a b with
    | .isTrue h => .isTrue (h ▸ rfl)
    | .isFalse h => .isFalse fun e => h (Json.obj.inj e)
  | .null, .bool _ | .null, .num _ | .null, .str _ | .null, .arr _ | .null, .obj _
  | .bool _, .null | .bool _, .num _ | .bool _, .str _ | .bool _, .arr _ | .bool _, .obj _
  | .num _, .null | .num _, .bool _ | .num _, .str _ | .num _, .arr _ | .num _, .obj _
  | .str _, .null | .str _, .bool _ | .str _, .num _ | .str _, .arr _ | .str _, .obj _
  | .arr _, .null | .arr _, .bool _ | .arr _, .num _ | .arr _, .str _ | .arr _, .obj _
  | .obj _, .null | .obj _, .bool _ | .obj _, .num _ | .obj _, .str _ | .obj _, .arr _ =>
      .isFalse nofun

def decEqList : (a b : List Json) → Decidable (a = b)
  | [], [] => .isTrue rfl
  | [], _ :: _ | _ :: _, [] => .isFalse nofun
  | a :: as, b :: bs => match decEq a b, decEqList as bs with
    | .isTrue h, .isTrue hs => .isTrue (h ▸ hs ▸ rfl)
    | .isFalse h, _ => .isFalse fun e => h (List.cons.inj e).1
    | _, .isFalse hs => .isFalse fun e => hs (List.cons.inj e).2

def decEqMembers : (a b : List (String × Json)) → Decidable (a = b)
  | [], [] => .isTrue rfl
  | [], _ :: _ | _ :: _, [] => .isFalse nofun
  | (k, a) :: as, (l, b) :: bs =>
      match decEq a b, decEqMembers as bs with
      | .isTrue h, .isTrue hs =>
          if hk : k = l then .isTrue (h ▸ hs ▸ hk ▸ rfl)
          else .isFalse fun e => hk (Prod.mk.inj (List.cons.inj e).1).1
      | .isFalse h, _ => .isFalse fun e => h (Prod.mk.inj (List.cons.inj e).1).2
      | _, .isFalse hs => .isFalse fun e => hs (List.cons.inj e).2

end

instance : DecidableEq Json := decEq

/-- The object with the entries of a map. -/
def object (m : SortedMap String Json) : Json := .obj m.entries

/-- The value of a member of an object, if there is one with that key. -/
def get? (key : String) : Json → Option Json
  | .obj members => SortedMap.lookup key members
  | _ => none

def asString? : Json → Option String
  | .str s => some s
  | _ => none

mutual

/-- The value with the members of every object in key order, each key once. -/
def sortKeys : Json → Json
  | .arr items => .arr (sortKeysItems items)
  | .obj members => object (SortedMap.ofList (sortKeysMembers members))
  | .null => .null
  | .bool b => .bool b
  | .num n => .num n
  | .str s => .str s

def sortKeysItems : List Json → List Json
  | [] => []
  | v :: vs => v.sortKeys :: sortKeysItems vs

def sortKeysMembers : List (String × Json) → List (String × Json)
  | [] => []
  | (k, v) :: ms => (k, v.sortKeys) :: sortKeysMembers ms

end

/-- The keys of a list of members strictly increase. -/
def KeysIncrease (members : List (String × Json)) : Prop :=
  members.Pairwise fun p q => KeyOrder.before p.1 q.1 = true

mutual

/-- The keys of every object in the value strictly increase. -/
def Ordered : Json → Prop
  | .arr items => OrderedItems items
  | .obj members => KeysIncrease members ∧ OrderedMembers members
  | .null | .bool _ | .num _ | .str _ => True

def OrderedItems : List Json → Prop
  | [] => True
  | v :: vs => v.Ordered ∧ OrderedItems vs

def OrderedMembers : List (String × Json) → Prop
  | [] => True
  | (_, v) :: ms => v.Ordered ∧ OrderedMembers ms

end

end Json

end WorkspaceTrust
