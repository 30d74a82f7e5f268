import Mathlib.Tactic.SplitIfs
import WorkspaceTrust.Proofs.Result
import WorkspaceTrust.Yaml.Node

/-!
# What all documents have in common

A document is built from scalars, from nodes that could not be resolved
and from collections, and an alias brings in a node that was built
before. So what scalars and unresolved nodes have, and what a collection
has if its parts do, every document has that is read: such a property is
`Inherited`, and `Inherited.of_documents` is the induction.

Of a mapping the induction also says that its keys are different nodes.
This is checked when an entry is added, against the entries before it.
-/

namespace WorkspaceTrust.Yaml.Node

/-! ## Equality -/

mutual

theorem beq_iff : (a b : Node) → (beq a b = true ↔ a = b)
  | .unresolved, b | .null, b => by cases b <;> simp [beq]
  | .bool _, b | .int _, b | .real _, b | .str _, b => by cases b <;> simp [beq]
  | .seq as, b => by cases b <;> simp [beq, beqItems_iff as]
  | .map as, b => by cases b <;> simp [beq, beqEntries_iff as]

theorem beqItems_iff : (as bs : List Node) → (beqItems as bs = true ↔ as = bs)
  | [], bs => by cases bs <;> simp [beqItems]
  | a :: as, bs => by cases bs <;> simp [beqItems, beq_iff a, beqItems_iff as]

theorem beqEntries_iff : (as bs : List (Node × Node)) → (beqEntries as bs = true ↔ as = bs)
  | [], bs => by cases bs <;> simp [beqEntries]
  | (k, a) :: as, bs => by
    cases bs <;> simp [beqEntries, beq_iff k, beq_iff a, beqEntries_iff as, Prod.ext_iff, and_assoc]

end

instance : LawfulBEq Node where
  eq_of_beq h := (beq_iff _ _).1 h
  rfl := (beq_iff _ _).2 rfl

instance : DecidableEq Node := fun a b => decidable_of_iff (beq a b = true) (beq_iff a b)

/-! ## Properties that are handed on -/

/-- The keys of the entries are different nodes. -/
def KeysDiffer (es : List (Node × Node)) : Prop := (es.map Prod.fst).Nodup

/-- Scalars and unresolved nodes have the property, and collections if their parts have it. -/
structure Inherited (P : Node → Prop) : Prop where
  scalar : ∀ style tag text, P (ofScalar style tag text)
  unresolved : P .unresolved
  seq : ∀ {ns}, (∀ n ∈ ns, P n) → P (.seq ns)
  map : ∀ {es : List (Node × Node)}, KeysDiffer es → (∀ e ∈ es, P e.1 ∧ P e.2) → P (.map es)

variable {P : Node → Prop} {a a' : Anchors} {n : Node}

/-- The nodes that aliases stand for have the property. -/
def Anchors.All (P : Node → Prop) (a : Anchors) : Prop := ∀ p ∈ a.nodes, P p.2

theorem Anchors.All.announce (h : a.All P) (name? : Option String) : (a.announce name?).2.All P := by
  cases name? <;> exact h

theorem Anchors.All.complete (h : a.All P) (number? : Option Nat) (hn : P n) :
    (a.complete number? n).All P := by
  cases number? with
  | none => exact h
  | some i => exact List.forall_mem_cons.2 ⟨hn, h⟩

theorem Anchors.All.find (h : a.All P) (hunresolved : P .unresolved) {name : String}
    (hfind : a.find name = .ok n) : P n := by
  rw [Anchors.find] at hfind
  split at hfind
  · cases hfind
  next i _ =>
  cases hfind
  cases hlookup : a.nodes.lookup i with
  | none => exact hunresolved
  | some m =>
    obtain ⟨before, after, heq, -⟩ := List.lookup_eq_some_iff.1 hlookup
    exact h (i, m) (by simp [heq])

/-- The nodes of a mapping under construction have the property, and its keys differ. -/
structure Pairing.All (P : Node → Prop) (p : Pairing) : Prop where
  entries : ∀ e ∈ p.entries, P e.1 ∧ P e.2
  key : P p.key
  differ : KeysDiffer p.entries

/-- A key is compared with all keys before it. -/
theorem Pairing.All.add {p p' : Pairing} (hp : p.All P) (hunresolved : P .unresolved) (hn : P n)
    (h : p.add n = .ok p') : p'.All P := by
  rw [Pairing.add] at h
  split_ifs at h with hopen hnew
  · cases h
    exact ⟨hp.entries, hn, hp.differ⟩
  · cases h
    refine ⟨List.forall_mem_cons.2 ⟨⟨hp.key, hn⟩, hp.entries⟩, hunresolved, ?_⟩
    refine List.nodup_cons.2 ⟨fun hmem => hnew ?_, hp.differ⟩
    obtain ⟨e, he, hkey⟩ := List.mem_map.1 hmem
    exact List.any_eq_true.2 ⟨e, he, beq_iff_eq.2 hkey⟩

theorem Pairing.All.map {p : Pairing} (hp : p.All P) (h : Inherited P) :
    P (.map p.entries.reverse) := by
  refine h.map ?_ fun e he => hp.entries e (List.mem_reverse.1 he)
  rw [KeysDiffer, List.map_reverse]
  exact (List.reverse_perm _).nodup_iff.2 hp.differ

namespace Inherited

mutual

theorem of_ofTree (h : Inherited P) : (t : Tree) → {n : Node} → {a a' : Anchors} → a.All P →
    ofTree t a = .ok (n, a') → P n ∧ a'.All P
  | .alias name, n, a, a', ha, ht => by
    rw [ofTree, bind_eq_ok] at ht
    obtain ⟨m, hfind, ht⟩ := ht
    cases ht
    exact ⟨ha.find h.unresolved hfind, ha⟩
  | .scalar p style text, n, a, a', ha, ht => by
    cases ht
    have hn := h.scalar style p.tag text
    exact ⟨hn, (ha.announce p.anchor).complete _ hn⟩
  | .sequence p items, n, a, a', ha, ht => by
    simp only [ofTree, bind_eq_ok] at ht
    obtain ⟨⟨nodes, b⟩, hitems, ht⟩ := ht
    obtain ⟨hnodes, hb⟩ := h.of_ofItems items (ha.announce p.anchor) hitems
    cases ht
    exact ⟨h.seq hnodes, hb.complete _ (h.seq hnodes)⟩
  | .mapping p pairs, n, a, a', ha, ht => by
    simp only [ofTree, bind_eq_ok] at ht
    obtain ⟨⟨pairing, b⟩, hpairs, ht⟩ := ht
    have hnone : Pairing.none.All P := ⟨nofun, h.unresolved, List.nodup_nil⟩
    obtain ⟨hpairing, hb⟩ := h.of_ofPairs pairs (ha.announce p.anchor) hnone hpairs
    cases ht
    exact ⟨hpairing.map h, hb.complete _ (hpairing.map h)⟩

theorem of_ofItems (h : Inherited P) : (ts : List Tree) → {ns : List Node} → {a a' : Anchors} →
    a.All P → ofItems ts a = .ok (ns, a') → (∀ n ∈ ns, P n) ∧ a'.All P
  | [], ns, a, a', ha, hts => by
    cases hts
    exact ⟨nofun, ha⟩
  | t :: ts, ns, a, a', ha, hts => by
    simp only [ofItems, bind_eq_ok] at hts
    obtain ⟨⟨n, b⟩, hn, ⟨ms, b'⟩, hms, hts⟩ := hts
    obtain ⟨hn, hb⟩ := h.of_ofTree t ha hn
    obtain ⟨hms, hb'⟩ := h.of_ofItems ts hb hms
    cases hts
    exact ⟨List.forall_mem_cons.2 ⟨hn, hms⟩, hb'⟩

theorem of_ofPairs (h : Inherited P) : (ts : List (Tree × Tree)) → {p p' : Pairing} →
    {a a' : Anchors} → a.All P → p.All P → ofPairs ts p a = .ok (p', a') → p'.All P ∧ a'.All P
  | [], p, p', a, a', ha, hp, hts => by
    cases hts
    exact ⟨hp, ha⟩
  | (k, v) :: ts, p, p', a, a', ha, hp, hts => by
    simp only [ofPairs, bind_eq_ok] at hts
    obtain ⟨⟨key, b⟩, hkey, q, hq, ⟨value, b'⟩, hvalue, q', hq', hts⟩ := hts
    obtain ⟨hkey, hb⟩ := h.of_ofTree k ha hkey
    obtain ⟨hvalue, hb'⟩ := h.of_ofTree v hb hvalue
    exact h.of_ofPairs ts hb' ((hp.add h.unresolved hkey hq).add h.unresolved hvalue hq') hts

end

/-- Every document that is read has the property. -/
theorem of_documents (h : Inherited P) {text : List Char} {ns : List Node}
    (hread : documents text = .ok ns) : ∀ n ∈ ns, P n := by
  simp only [documents, bind_eq_ok] at hread
  obtain ⟨us, -, ts, -, hread⟩ := hread
  intro n hn
  obtain ⟨t, -, ht⟩ := exists_of_mapM_eq_ok hread n hn
  obtain ⟨⟨m, a⟩, hm, heq⟩ := bind_eq_ok.1 ht
  cases heq
  exact (h.of_ofTree t (fun _ hp => absurd hp List.not_mem_nil) hm).1

end Inherited

end WorkspaceTrust.Yaml.Node
