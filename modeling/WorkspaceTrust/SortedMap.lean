/-!
# Maps kept in key order

Labels, annotations, config-map data, the pods of a descriptor and the
entries of a file tree are all finite maps whose order is seen from
outside: they are written, visited and compared in key order. A
`SortedMap` is therefore the list of its entries in strictly increasing
key order. The order is part of the type, so two maps with the same
entries are equal (`SortedMap.ext`), and a look-up after an insertion
is the one equation `get?_insert`.

Keys are ordered by `KeyOrder`. Byte strings are ordered byte by byte,
and text by the bytes of its UTF-8 form.
-/

namespace WorkspaceTrust

/-- A strict total order on keys, as a decision procedure. -/
class KeyOrder (κ : Type) where
  before : κ → κ → Bool
  irrefl (a : κ) : before a a = false
  trans {a b c : κ} : before a b = true → before b c = true → before a c = true
  connected {a b : κ} : before a b = false → before b a = false → a = b

namespace KeyOrder

variable {κ : Type} [KeyOrder κ]

theorem asymm {a b : κ} (h : before a b = true) : before b a = false := by
  cases hb : before b a with
  | false => rfl
  | true => exact absurd (trans h hb) (by simp [irrefl])

theorem ne_of_before {a b : κ} (h : before a b = true) : a ≠ b := by
  rintro rfl
  simp [irrefl] at h

instance : KeyOrder UInt8 where
  before a b := decide (a.toNat < b.toNat)
  irrefl a := by simp
  trans h₁ h₂ := by simp only [decide_eq_true_eq] at *; omega
  connected h₁ h₂ := by
    simp only [decide_eq_false_iff_not] at h₁ h₂
    exact UInt8.toNat_inj.mp (by omega)

/-- The first difference decides; a proper beginning comes first. -/
def lexBefore : List κ → List κ → Bool
  | _, [] => false
  | [], _ :: _ => true
  | a :: as, b :: bs =>
      if before a b then true else if before b a then false else lexBefore as bs

theorem lexBefore_irrefl : ∀ l : List κ, lexBefore l l = false
  | [] => rfl
  | a :: l => by simp [lexBefore, irrefl, lexBefore_irrefl l]

theorem lexBefore_connected : ∀ {l m : List κ},
    lexBefore l m = false → lexBefore m l = false → l = m
  | [], [], _, _ => rfl
  | [], _ :: _, h, _ => by simp [lexBefore] at h
  | _ :: _, [], _, h => by simp [lexBefore] at h
  | a :: l, b :: m, h₁, h₂ => by
      cases hab : before a b with
      | true => simp [lexBefore, hab] at h₁
      | false =>
        cases hba : before b a with
        | true => simp [lexBefore, hba] at h₂
        | false =>
          simp only [lexBefore, hab, hba] at h₁ h₂
          rw [connected hab hba, lexBefore_connected h₁ h₂]

theorem lexBefore_trans : ∀ {l m n : List κ},
    lexBefore l m = true → lexBefore m n = true → lexBefore l n = true
  | _, [], _, h, _ => by simp [lexBefore] at h
  | _, _ :: _, [], _, h => by simp [lexBefore] at h
  | [], _ :: _, _ :: _, _, _ => rfl
  | a :: l, b :: m, c :: n, h₁, h₂ => by
      cases hab : before a b with
      | true =>
        cases hbc : before b c with
        | true => simp [lexBefore, trans hab hbc]
        | false =>
          cases hcb : before c b with
          | true => simp [lexBefore, hbc, hcb] at h₂
          | false => simp [lexBefore, ← connected hbc hcb, hab]
      | false =>
        cases hba : before b a with
        | true => simp [lexBefore, hab, hba] at h₁
        | false =>
          obtain rfl := connected hab hba
          simp only [lexBefore, irrefl] at h₁
          cases hac : before a c with
          | true => simp [lexBefore, hac]
          | false =>
            cases hca : before c a with
            | true => simp [lexBefore, hac, hca] at h₂
            | false =>
              simp only [lexBefore, hac, hca] at h₂ ⊢
              exact lexBefore_trans h₁ h₂

instance : KeyOrder (List κ) where
  before := lexBefore
  irrefl := lexBefore_irrefl
  trans := lexBefore_trans
  connected := lexBefore_connected

end KeyOrder

/-- The bytes of a text in UTF-8. -/
def utf8 (s : String) : List UInt8 := s.toByteArray.data.toList

theorem utf8_injective {s t : String} (h : utf8 s = utf8 t) : s = t := by
  obtain ⟨⟨⟨a⟩⟩, _⟩ := s
  obtain ⟨⟨⟨b⟩⟩, _⟩ := t
  simp only [utf8] at h
  subst h
  rfl

instance : KeyOrder String where
  before s t := KeyOrder.before (utf8 s) (utf8 t)
  irrefl s := KeyOrder.irrefl (utf8 s)
  trans := KeyOrder.trans
  connected h₁ h₂ := utf8_injective (KeyOrder.connected h₁ h₂)

/-- A finite map: its entries, in strictly increasing order of their keys. -/
structure SortedMap (κ : Type) [KeyOrder κ] (α : Type) where
  entries : List (κ × α)
  increasing : entries.Pairwise fun p q => KeyOrder.before p.1 q.1 = true

namespace SortedMap

variable {κ α β : Type} [KeyOrder κ]

instance [DecidableEq κ] [DecidableEq α] : DecidableEq (SortedMap κ α) := fun m n =>
  decidable_of_iff (m.entries = n.entries)
    ⟨fun h => by cases m; cases n; cases h; rfl, fun h => h ▸ rfl⟩

/-- The map without entries. -/
def empty : SortedMap κ α := ⟨[], .nil⟩

instance : EmptyCollection (SortedMap κ α) := ⟨empty⟩
instance : Inhabited (SortedMap κ α) := ⟨empty⟩

def isEmpty (m : SortedMap κ α) : Bool := m.entries.isEmpty

def size (m : SortedMap κ α) : Nat := m.entries.length

def keys (m : SortedMap κ α) : List κ := m.entries.map Prod.fst

def values (m : SortedMap κ α) : List α := m.entries.map Prod.snd

/-! ## Look-up and insertion in an ordered list of entries -/

/-- The value stored under `k`. -/
def lookup [DecidableEq κ] (k : κ) : List (κ × α) → Option α
  | [] => none
  | (j, a) :: l => if j = k then some a else lookup k l

/-- The entries with `a` stored under `k`, in place of any earlier value. -/
def insertEntry (k : κ) (a : α) : List (κ × α) → List (κ × α)
  | [] => [(k, a)]
  | (j, b) :: l =>
      if KeyOrder.before k j then (k, a) :: (j, b) :: l
      else if KeyOrder.before j k then (j, b) :: insertEntry k a l
      else (k, a) :: l

theorem mem_insertEntry {k : κ} {a : α} {p : κ × α} : ∀ {l : List (κ × α)},
    p ∈ insertEntry k a l → p = (k, a) ∨ p ∈ l
  | [], h => by simpa [insertEntry] using h
  | (j, b) :: l, h => by
      simp only [insertEntry] at h
      split at h
      · simpa using h
      · split at h
        · rcases List.mem_cons.1 h with h | h
          · exact .inr (by simp [h])
          · exact (mem_insertEntry h).imp_right (List.mem_cons_of_mem _)
        · rcases List.mem_cons.1 h with h | h
          · exact .inl h
          · exact .inr (List.mem_cons_of_mem _ h)

theorem insertEntry_increasing (k : κ) (a : α) : ∀ {l : List (κ × α)},
    (l.Pairwise fun p q => KeyOrder.before p.1 q.1 = true) →
      (insertEntry k a l).Pairwise fun p q => KeyOrder.before p.1 q.1 = true
  | [], _ => by simp [insertEntry]
  | (j, b) :: l, h => by
      obtain ⟨hj, hl⟩ := List.pairwise_cons.1 h
      simp only [insertEntry]
      split
      · next hk =>
        refine List.pairwise_cons.2 ⟨fun q hq => ?_, h⟩
        rcases List.mem_cons.1 hq with rfl | hq
        · exact hk
        · exact KeyOrder.trans hk (hj q hq)
      · split
        · next hk =>
          refine List.pairwise_cons.2 ⟨fun q hq => ?_, insertEntry_increasing k a hl⟩
          rcases mem_insertEntry hq with rfl | hq
          · exact hk
          · exact hj q hq
        · next h₁ h₂ =>
          obtain rfl := KeyOrder.connected (by simpa using h₁) (by simpa using h₂)
          exact List.pairwise_cons.2 ⟨hj, hl⟩

theorem lookup_insertEntry [DecidableEq κ] (k : κ) (a : α) (i : κ) :
    ∀ l : List (κ × α), lookup i (insertEntry k a l) = if k = i then some a else lookup i l
  | [] => by simp [insertEntry, lookup]
  | (j, b) :: l => by
      simp only [insertEntry]
      split
      · simp [lookup]
      · split
        · next hk =>
          have hne : j ≠ k := KeyOrder.ne_of_before hk
          simp only [lookup, lookup_insertEntry k a i l]
          by_cases hi : j = i
          · subst hi
            simp [Ne.symm hne]
          · simp [hi]
        · next h₁ h₂ =>
          obtain rfl := KeyOrder.connected (by simpa using h₁) (by simpa using h₂)
          by_cases hi : k = i <;> simp [lookup, hi]

/-! ## The map operations -/

def get? [DecidableEq κ] (m : SortedMap κ α) (k : κ) : Option α := lookup k m.entries

def contains [DecidableEq κ] (m : SortedMap κ α) (k : κ) : Bool := (m.get? k).isSome

/-- Stores `a` under `k`, replacing what was there. -/
def insert (m : SortedMap κ α) (k : κ) (a : α) : SortedMap κ α :=
  ⟨insertEntry k a m.entries, insertEntry_increasing k a m.increasing⟩

/-- The entries whose key and value pass the test. -/
def filter (p : κ → α → Bool) (m : SortedMap κ α) : SortedMap κ α :=
  ⟨m.entries.filter fun e => p e.1 e.2, m.increasing.sublist List.filter_sublist⟩

def erase [DecidableEq κ] (m : SortedMap κ α) (k : κ) : SortedMap κ α :=
  m.filter fun j _ => j ≠ k

/-- Changes every value, keeping its key. -/
def mapValues (f : α → β) (m : SortedMap κ α) : SortedMap κ β :=
  ⟨m.entries.map fun e => (e.1, f e.2), by
    rw [List.pairwise_map]
    exact m.increasing⟩

/-- Stores the pairs one after the other: of two pairs with one key the later stays. -/
def ofList (l : List (κ × α)) : SortedMap κ α :=
  l.foldl (fun m e => m.insert e.1 e.2) empty

/-- The first map, overridden by the second. -/
def override (m n : SortedMap κ α) : SortedMap κ α :=
  n.entries.foldl (fun m e => m.insert e.1 e.2) m

@[simp] theorem get?_empty [DecidableEq κ] (k : κ) : (empty : SortedMap κ α).get? k = none := rfl

theorem get?_insert [DecidableEq κ] (m : SortedMap κ α) (k i : κ) (a : α) :
    (m.insert k a).get? i = if k = i then some a else m.get? i :=
  lookup_insertEntry k a i m.entries

omit [KeyOrder κ] in
theorem mem_entries_of_lookup [DecidableEq κ] {k : κ} {a : α} :
    ∀ {l : List (κ × α)}, lookup k l = some a → (k, a) ∈ l
  | [], h => by simp [lookup] at h
  | (j, b) :: l, h => by
      by_cases hj : j = k
      · simp_all [lookup]
      · simp only [lookup, hj, if_false] at h
        exact List.mem_cons_of_mem _ (mem_entries_of_lookup h)

theorem lookup_of_mem [DecidableEq κ] {k : κ} {a : α} : ∀ {l : List (κ × α)},
    (l.Pairwise fun p q => KeyOrder.before p.1 q.1 = true) → (k, a) ∈ l → lookup k l = some a
  | (j, b) :: l, h, hm => by
      obtain ⟨hj, hl⟩ := List.pairwise_cons.1 h
      rcases List.mem_cons.1 hm with hm | hm
      · cases hm
        simp [lookup]
      · have hne : j ≠ k := KeyOrder.ne_of_before (hj _ hm)
        simp [lookup, hne, lookup_of_mem hl hm]

theorem get?_eq_some_iff [DecidableEq κ] {m : SortedMap κ α} {k : κ} {a : α} :
    m.get? k = some a ↔ (k, a) ∈ m.entries :=
  ⟨mem_entries_of_lookup, lookup_of_mem m.increasing⟩

theorem get?_filter [DecidableEq κ] (p : κ → α → Bool) (m : SortedMap κ α) (k : κ) :
    (m.filter p).get? k = (m.get? k).filter (p k) := by
  apply Option.ext
  intro a
  rw [get?_eq_some_iff, Option.filter_eq_some_iff, get?_eq_some_iff]
  simp [filter]

theorem get?_erase [DecidableEq κ] (m : SortedMap κ α) (k i : κ) :
    (m.erase k).get? i = if k = i then none else m.get? i := by
  rw [erase, get?_filter]
  by_cases h : k = i
  · subst h
    cases m.get? k <;> simp [Option.filter]
  · cases m.get? i <;> simp [Option.filter, h, Ne.symm h]

omit [KeyOrder κ] in
theorem lookup_map [DecidableEq κ] (f : α → β) (k : κ) : ∀ l : List (κ × α),
    lookup k (l.map fun e => (e.1, f e.2)) = (lookup k l).map f
  | [] => rfl
  | (j, a) :: l => by
      by_cases h : j = k
      · simp [lookup, h]
      · simp [lookup, h, lookup_map f k l]

theorem get?_mapValues [DecidableEq κ] (f : α → β) (m : SortedMap κ α) (k : κ) :
    (m.mapValues f).get? k = (m.get? k).map f :=
  lookup_map f k m.entries

theorem keys_mapValues (f : α → β) (m : SortedMap κ α) : (m.mapValues f).keys = m.keys := by
  simp [keys, mapValues, Function.comp_def]

/-- Two ordered lists with the same members are equal. -/
theorem entries_eq_of_mem_iff : ∀ {l m : List (κ × α)},
    (l.Pairwise fun p q => KeyOrder.before p.1 q.1 = true) →
    (m.Pairwise fun p q => KeyOrder.before p.1 q.1 = true) → (∀ p, p ∈ l ↔ p ∈ m) → l = m
  | [], [], _, _, _ => rfl
  | [], q :: _, _, _, h => by simpa using (h q).2 (by simp)
  | p :: _, [], _, _, h => by simpa using (h p).1 (by simp)
  | p :: l, q :: m, hl, hm, h => by
      obtain ⟨hp, hl'⟩ := List.pairwise_cons.1 hl
      obtain ⟨hq, hm'⟩ := List.pairwise_cons.1 hm
      have hpq : p = q := by
        rcases List.mem_cons.1 ((h p).1 (by simp)) with e | e
        · exact e
        · rcases List.mem_cons.1 ((h q).2 (by simp)) with e' | e'
          · exact e'.symm
          · have := KeyOrder.asymm (hq p e)
            simp [hp q e'] at this
      subst hpq
      rw [entries_eq_of_mem_iff hl' hm' fun r => ?_]
      constructor
      · intro hr
        rcases List.mem_cons.1 ((h r).1 (List.mem_cons_of_mem _ hr)) with e | e
        · subst e
          simpa [KeyOrder.irrefl] using hp r hr
        · exact e
      · intro hr
        rcases List.mem_cons.1 ((h r).2 (List.mem_cons_of_mem _ hr)) with e | e
        · subst e
          simpa [KeyOrder.irrefl] using hq r hr
        · exact e

/-- A map is determined by its look-ups. -/
theorem ext [DecidableEq κ] {m n : SortedMap κ α} (h : ∀ k, m.get? k = n.get? k) : m = n := by
  have : m.entries = n.entries :=
    entries_eq_of_mem_iff m.increasing n.increasing fun ⟨k, a⟩ => by
      rw [← get?_eq_some_iff, ← get?_eq_some_iff, h k]
  cases m
  cases n
  cases this
  rfl

/-! ## Maps from lists -/

omit [KeyOrder κ] in
theorem lookup_append [DecidableEq κ] (k : κ) (m : List (κ × α)) : ∀ l : List (κ × α),
    lookup k (l ++ m) = (lookup k l).or (lookup k m)
  | [] => by simp [lookup]
  | (j, a) :: l => by
      by_cases h : j = k
      · simp [lookup, h]
      · simp [lookup, h, lookup_append k m l]

omit [KeyOrder κ] in
theorem not_mem_of_lookup_eq_none [DecidableEq κ] {k : κ} {a : α} :
    ∀ {l : List (κ × α)}, lookup k l = none → (k, a) ∉ l
  | [], _ => by simp
  | (j, b) :: l, h => by
      by_cases hj : j = k
      · simp [lookup, hj] at h
      · simp only [lookup, hj, if_false] at h
        rintro (_ | ⟨_, hm⟩)
        · exact hj rfl
        · exact not_mem_of_lookup_eq_none h hm

/-- Of the pairs that are inserted one after the other, the last of each key counts. -/
theorem get?_foldl_insert [DecidableEq κ] (k : κ) : ∀ (l : List (κ × α)) (m : SortedMap κ α),
    (l.foldl (fun m e => m.insert e.1 e.2) m).get? k = (lookup k l.reverse).or (m.get? k)
  | [], _ => by simp [lookup]
  | (j, a) :: l, m => by
      rw [List.foldl_cons, get?_foldl_insert k l, get?_insert, List.reverse_cons, lookup_append]
      by_cases hj : j = k <;> cases lookup k l.reverse <;> simp [lookup, hj]

theorem get?_ofList [DecidableEq κ] (l : List (κ × α)) (k : κ) :
    (ofList l).get? k = lookup k l.reverse := by
  rw [ofList, get?_foldl_insert, get?_empty, Option.or_none]

/-- Whatever is stored comes from the list. -/
theorem mem_of_mem_ofList [DecidableEq κ] {l : List (κ × α)} {e : κ × α}
    (h : e ∈ (ofList l).entries) : e ∈ l := by
  have hget : (ofList l).get? e.1 = some e.2 := get?_eq_some_iff.2 h
  rw [get?_ofList] at hget
  exact List.mem_reverse.1 (mem_entries_of_lookup hget)

/-- Look-up in an ordered list does not depend on the direction. -/
theorem lookup_reverse_entries [DecidableEq κ] (m : SortedMap κ α) (k : κ) :
    lookup k m.entries.reverse = m.get? k := by
  cases h : lookup k m.entries.reverse with
  | none =>
    cases hm : m.get? k with
    | none => rfl
    | some a =>
      have ha : (k, a) ∈ m.entries := get?_eq_some_iff.1 hm
      exact absurd (List.mem_reverse.2 ha) (not_mem_of_lookup_eq_none h)
  | some a =>
    have ha : (k, a) ∈ m.entries := List.mem_reverse.1 (mem_entries_of_lookup h)
    exact (get?_eq_some_iff.2 ha).symm

/-- The entries of a map, inserted one after the other, give the map again. -/
theorem ofList_entries [DecidableEq κ] (m : SortedMap κ α) : ofList m.entries = m :=
  ext fun k => by rw [get?_ofList, lookup_reverse_entries]

theorem get?_override [DecidableEq κ] (m n : SortedMap κ α) (k : κ) :
    (m.override n).get? k = (n.get? k).or (m.get? k) := by
  rw [override, get?_foldl_insert, lookup_reverse_entries]

end SortedMap

end WorkspaceTrust
