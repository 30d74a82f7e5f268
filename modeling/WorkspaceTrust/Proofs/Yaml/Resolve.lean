import WorkspaceTrust.Proofs.Json.Sound
import WorkspaceTrust.Proofs.Yaml.Grammar
import WorkspaceTrust.Yaml.Json

/-!
# The meaning of written values

A text is written in the style that `ScalarStyle.ofText` picks, and
whether it comes back depends on the style (`returns`): a plain text
must not be taken for something else, between single quotes there must
be nothing that the writer takes for the end of a line, and in a literal
block the writer and the reader must agree about the ends of lines.
Between double quotes everything comes back.

A value all of whose leaves come back is read as itself, with its
members in key order (`read_write`).
-/

namespace WorkspaceTrust

open Yaml ScalarStyle Node

namespace Yaml

/-! ## Texts -/

/-- Whether a text is read as it was written, given what a plain text may be taken for. -/
def returns (plain : Node → Bool) (s : String) : Bool :=
  match ofText s.toList with
  | .plain => plain (ofPlain s)
  | .singleQuoted => !s.toList.any isLineBreak
  | .literal => endsLines false s.toList
  | .doubleQuoted | .folded => true

/-- The node is text. -/
def isText : Node → Bool
  | .str _ => true
  | _ => false

/-- The node is a key with this text. -/
def isKey (s : String) (n : Node) : Bool :=
  match n.keyText with
  | .ok t => t = s
  | .error _ => false

/-- Whether a text comes back as a value. -/
def textReturns (s : String) : Bool := returns isText s

/-- Whether a text comes back as a key. -/
def keyReturns (s : String) : Bool := returns (isKey s) s

/-- What a text is read as where lines are indented by `n`. -/
def textNode (n : Nat) (s : String) : Node :=
  ofScalar (ofText s.toList) none (String.ofList (laidText n s.toList))

variable {s : String} {plain : Node → Bool}

theorem lays_of_returns (h : returns plain s = true) : Lays s.toList := by
  intro hstyle
  rw [returns, hstyle] at h
  exact h

theorem textNode_of_plain (n : Nat) (h : ofText s.toList = .plain) : textNode n s = ofPlain s := by
  rw [textNode, laidText_of_ne n (by simp [h]), h, String.ofList_toList]
  rfl

theorem textNode_of_returns (n : Nat) (h : returns plain s = true)
    (hstyle : ofText s.toList ≠ .plain) : textNode n s = .str s := by
  have hlaid : laidText n s.toList = s.toList := by
    by_cases hsingle : ofText s.toList = .singleQuoted
    · rw [returns, hsingle] at h
      rw [laidText, if_pos hsingle, padded_of_line]
      simpa using h
    · exact laidText_of_ne n hsingle
  rw [textNode, hlaid, String.ofList_toList]
  cases hs : ofText s.toList with
  | plain => exact absurd hs hstyle
  | _ => rfl

theorem ofPlain_str {t : String} (h : ofPlain s = .str t) : t = s := by
  unfold ofPlain at h
  repeat' split at h
  all_goals first | exact (Node.str.inj h).symm | exact Node.noConfusion h

theorem textNode_of_textReturns (n : Nat) (h : textReturns s = true) : textNode n s = .str s := by
  by_cases hstyle : ofText s.toList = .plain
  · rw [textReturns, returns, hstyle] at h
    rw [textNode_of_plain n hstyle]
    cases hp : ofPlain s with
    | str t => rw [ofPlain_str hp]
    | _ => simp [hp, isText] at h
  · exact textNode_of_returns n h hstyle

/-- What a key that comes back is read as. -/
def keyNode (s : String) : Node :=
  if ofText s.toList = .plain then ofPlain s else .str s

theorem textNode_of_keyReturns (n : Nat) (h : keyReturns s = true) : textNode n s = keyNode s := by
  rw [keyNode]
  split
  · next hstyle => exact textNode_of_plain n hstyle
  · next hstyle => exact textNode_of_returns n h hstyle

theorem keyText_keyNode (h : keyReturns s = true) : (keyNode s).keyText = .ok s := by
  rw [keyNode]
  split
  · next hstyle =>
    rw [keyReturns, returns, hstyle] at h
    simp only [isKey] at h
    split at h
    · next t ht => rw [ht, of_decide_eq_true h]
    · cases h
  · rfl

/-! ## Values -/

/-- The number comes back. -/
def NumberReturns (x : Json.Number) : Prop :=
  (ofPlain (String.ofList (writeNumber x))).toJson = .ok (.num x)

end Yaml

/-- The leaf comes back when it is written and read. -/
def Json.Leaf.Returns : Json.Leaf → Prop
  | .text s => Yaml.textReturns s = true
  | .key s => Yaml.keyReturns s = true
  | .number x => Yaml.NumberReturns x

theorem Json.Leaf.Returns.lays {l : Json.Leaf} (h : l.Returns) : l.Lays := by
  cases l with
  | text s => exact Yaml.lays_of_returns h
  | key k => exact Yaml.lays_of_returns h
  | number x => exact Yaml.lays_number x

namespace Json

mutual

/-- The node that a value is read as if its leaves come back. -/
def toNode : Json → Node
  | .null => .null
  | .bool b => .bool b
  | .num x => ofPlain (String.ofList (writeNumber x))
  | .str s => .str s
  | .arr items => .seq (itemNodes items)
  | .obj members => .map (memberNodes members)

def itemNodes : List Json → List Node
  | [] => []
  | v :: vs => v.toNode :: itemNodes vs

def memberNodes : List (String × Json) → List (Node × Node)
  | [] => []
  | (k, v) :: ms => (keyNode k, v.toNode) :: memberNodes ms

end

end Json

namespace Yaml

theorem ofTree_textTree (n : Nat) (s : String) (a : Anchors) :
    ofTree (textTree n s) a = .ok (textNode n s, a) := rfl

theorem isUnresolved_ofPlain (s : String) : (ofPlain s).isUnresolved = false := by
  unfold ofPlain
  repeat' split
  all_goals rfl

theorem isUnresolved_keyNode (s : String) : (keyNode s).isUnresolved = false := by
  rw [keyNode]
  split
  · exact isUnresolved_ofPlain s
  · rfl

/-- Different keys are different nodes. -/
theorem keyText_eq_of_beq {a b : Node} (h : (a == b) = true) (ha : a.keyText = .ok s) :
    a.keyText = b.keyText := by
  change Node.beq a b = true at h
  cases a <;> cases b <;> simp_all [Node.beq, keyText]

theorem beq_keyNode {j k : String} (hj : keyReturns j = true) (hk : keyReturns k = true)
    (h : j ≠ k) : (keyNode j == keyNode k) = false := by
  rw [Bool.eq_false_iff]
  intro heq
  have htext := keyText_eq_of_beq heq (keyText_keyNode hj)
  rw [keyText_keyNode hj, keyText_keyNode hk] at htext
  exact h (Except.ok.inj htext)

/-- A pair whose key is new. -/
theorem ofPairs_pair {k v : Tree} {ts : List (Tree × Tree)} {es : List (Node × Node)} {a : Anchors}
    {key value : Node} (hk : ofTree k a = .ok (key, a)) (hv : ofTree v a = .ok (value, a))
    (hkey : key.isUnresolved = false) (hnew : ∀ e ∈ es, (e.1 == key) = false) :
    ofPairs ((k, v) :: ts) ⟨es, .unresolved⟩ a = ofPairs ts ⟨(key, value) :: es, .unresolved⟩ a := by
  have hany : (es.any fun e => e.1 == key) = false := by
    rw [List.any_eq_false]
    intro e he
    simp [hnew e he]
  have hopen : Node.unresolved.isUnresolved = true := rfl
  simp [ofPairs, hk, hv, Pairing.add, hopen, hkey, hany]

/-- The entries that are there have none of these keys. -/
def Fresh (ms : List (String × Json)) (es : List (Node × Node)) : Prop :=
  ∀ e ∈ es, ∀ m ∈ ms, (e.1 == keyNode m.1) = false

theorem fresh_cons {k : String} {v : Json} {ms : List (String × Json)} {es : List (Node × Node)}
    (hreturns : ∀ m ∈ (k, v) :: ms, keyReturns m.1 = true)
    (hkeys : (((k, v) :: ms).map Prod.fst).Nodup) (h : Fresh ((k, v) :: ms) es) (n : Node) :
    Fresh ms ((keyNode k, n) :: es) := by
  intro e he m hm
  rcases List.mem_cons.1 he with rfl | he
  · refine beq_keyNode (hreturns (k, v) (by simp)) (hreturns m (by simp [hm])) fun heq => ?_
    exact (List.nodup_cons.1 hkeys).1 (List.mem_map.2 ⟨m, hm, heq.symm⟩)
  · exact h e he m (by simp [hm])

/-- A member in front of others. -/
theorem ofPairs_member {k : String} {v : Json} {ms : List (String × Json)} {ts : List (Tree × Tree)}
    {es : List (Node × Node)} {n : Nat} {a : Anchors} (hk : keyReturns k = true)
    (hv : ∀ m, ofTree (nodeTree m v) a = .ok (v.toNode, a)) (hfresh : Fresh ((k, v) :: ms) es) :
    ofPairs (memberTrees n ((k, v) :: ms) ++ ts) ⟨es, .unresolved⟩ a
      = ofPairs (memberTrees n ms ++ ts) ⟨(keyNode k, v.toNode) :: es, .unresolved⟩ a := by
  have htree : ofTree (textTree (n + 2) k) a = .ok (keyNode k, a) := by
    rw [ofTree_textTree, textNode_of_keyReturns (n + 2) hk]
  rw [memberTrees, List.cons_append, ofPairs_pair htree (hv _) (isUnresolved_keyNode k) fun e he =>
    hfresh e he (k, v) (by simp)]

mutual

theorem ofTree_nodeTree : (v : Json) → (∀ l ∈ v.leaves, l.Returns) → v.KeysDiffer → ∀ n a,
    ofTree (nodeTree n v) a = .ok (v.toNode, a)
  | .null, _, _, _, _ | .bool true, _, _, _, _ | .bool false, _, _, _, _ | .num _, _, _, _, _ => rfl
  | .str s, h, _, n, a => by
    rw [nodeTree, ofTree_textTree, textNode_of_textReturns n (h (.text s) (by simp [Json.leaves]))]
    rfl
  | .arr vs, h, hd, n, a => by
    have hvs := ofItems_itemTrees vs h hd n a
    simp [nodeTree, ofTree, Properties.none, Anchors.announce, Anchors.complete, hvs, Json.toNode]
  | .obj ms, h, hd, n, a => by
    have hms := ofPairs_memberTrees ms h hd.1 hd.2 n a [] [] nofun
    simp only [List.append_nil] at hms
    simp [nodeTree, ofTree, Properties.none, Anchors.announce, Anchors.complete, Pairing.none, hms,
      Json.toNode, ofPairs]

theorem ofItems_itemTrees : (vs : List Json) → (∀ l ∈ Json.itemLeaves vs, l.Returns) →
    Json.ItemKeysDiffer vs → ∀ n a, ofItems (itemTrees n vs) a = .ok (Json.itemNodes vs, a)
  | [], _, _, _, _ => rfl
  | v :: vs, h, hd, n, a => by
    have hv := ofTree_nodeTree v (fun l hl => h l (by simp [Json.itemLeaves, hl])) hd.1 (n + 2) a
    have hvs := ofItems_itemTrees vs (fun l hl => h l (by simp [Json.itemLeaves, hl])) hd.2 n a
    simp [itemTrees, ofItems, hv, hvs, Json.itemNodes]

theorem ofPairs_memberTrees : (ms : List (String × Json)) →
    (∀ l ∈ Json.memberLeaves ms, l.Returns) → (ms.map Prod.fst).Nodup → Json.MemberKeysDiffer ms →
    ∀ n a es ts, Fresh ms es →
    ofPairs (memberTrees n ms ++ ts) ⟨es, .unresolved⟩ a
      = ofPairs ts ⟨(Json.memberNodes ms).reverse ++ es, .unresolved⟩ a
  | [], _, _, _, _, _, _, _, _ => rfl
  | (k, v) :: ms, h, hkeys, hd, n, a, es, ts, hfresh => by
    have hreturns : ∀ m ∈ (k, v) :: ms, keyReturns m.1 = true := fun m hm =>
      h (.key m.1) (Json.key_mem_memberLeaves hm)
    have hv := fun m => ofTree_nodeTree v (fun l hl => h l (by simp [Json.memberLeaves, hl])) hd.1 m a
    rw [ofPairs_member (hreturns (k, v) (by simp)) hv hfresh,
      ofPairs_memberTrees ms (fun l hl => h l (by simp [Json.memberLeaves, hl]))
        (List.nodup_cons.1 hkeys).2 hd.2 n a _ ts (fresh_cons hreturns hkeys hfresh v.toNode)]
    simp [Json.memberNodes]

end

/-! ## Back to JSON -/

theorem entriesToJson_cons {k : String} {v : Json} {ms : List (String × Json)}
    {es : List (String × Json)} (hk : keyReturns k = true) (hv : v.toNode.toJson = .ok v.sortKeys)
    (hms : entriesToJson (Json.memberNodes ms) = .ok es) :
    entriesToJson (Json.memberNodes ((k, v) :: ms)) = .ok ((k, v.sortKeys) :: es) := by
  rw [Json.memberNodes, entriesToJson, keyText_keyNode hk, ok_bind, hv, ok_bind, hms, ok_bind]

mutual

theorem toJson_toNode : (v : Json) → (∀ l ∈ v.leaves, l.Returns) → v.toNode.toJson = .ok v.sortKeys
  | .null, _ | .bool _, _ | .str _, _ => rfl
  | .num x, h => h (.number x) (by simp [Json.leaves])
  | .arr vs, h => by
    rw [Json.toNode, toJson, itemsToJson_itemNodes vs h]
    rfl
  | .obj ms, h => by
    rw [Json.toNode, toJson, entriesToJson_memberNodes ms h]
    rfl

theorem itemsToJson_itemNodes : (vs : List Json) → (∀ l ∈ Json.itemLeaves vs, l.Returns) →
    itemsToJson (Json.itemNodes vs) = .ok (Json.sortKeysItems vs)
  | [], _ => rfl
  | v :: vs, h => by
    rw [Json.itemNodes, itemsToJson, toJson_toNode v fun l hl => h l (by simp [Json.itemLeaves, hl]),
      ok_bind, itemsToJson_itemNodes vs fun l hl => h l (by simp [Json.itemLeaves, hl])]
    rfl

theorem entriesToJson_memberNodes : (ms : List (String × Json)) →
    (∀ l ∈ Json.memberLeaves ms, l.Returns) →
    entriesToJson (Json.memberNodes ms) = .ok (Json.sortKeysMembers ms)
  | [], _ => rfl
  | (k, v) :: ms, h =>
    entriesToJson_cons (h (.key k) (by simp [Json.memberLeaves]))
      (toJson_toNode v fun l hl => h l (by simp [Json.memberLeaves, hl]))
      (entriesToJson_memberNodes ms fun l hl => h l (by simp [Json.memberLeaves, hl]))

end

/-! ## Streams -/

variable {vs : List Json}

theorem documents_write (hrecord : ∀ v ∈ vs, IsRecord v) (hkeys : ∀ v ∈ vs, v.KeysDiffer)
    (hlays : ∀ v ∈ vs, ∀ l ∈ v.leaves, l.Lays) (hreturns : ∀ v ∈ vs, ∀ l ∈ v.leaves, l.Returns) :
    Node.documents (write vs).toList = .ok (vs.map Json.toNode) := by
  have hnodes : (vs.map (nodeTree 0)).mapM (fun t => do Except.ok (← ofTree t .none).1)
      = .ok (vs.map Json.toNode) := by
    clear hlays hrecord
    induction vs with
    | nil => rfl
    | cons v vs ih =>
      have hv := ofTree_nodeTree v (hreturns v (by simp)) (hkeys v (by simp)) 0 .none
      rw [List.map_cons, List.mapM_cons, hv, ih (fun w hw => hkeys w (by simp [hw]))
        fun w hw => hreturns w (by simp [hw])]
      rfl
  rw [Node.documents, tokens_write hrecord hlays, ok_bind, trees_streamTokens hrecord, ok_bind, hnodes]

/-- A stream of objects is read as it was written, with all members in key order. -/
theorem read_write (hrecord : ∀ v ∈ vs, IsRecord v) (hkeys : ∀ v ∈ vs, v.KeysDiffer)
    (hlays : ∀ v ∈ vs, ∀ l ∈ v.leaves, l.Lays) (hreturns : ∀ v ∈ vs, ∀ l ∈ v.leaves, l.Returns) :
    Yaml.read (write vs) = .ok (vs.map Json.sortKeys) := by
  have hfilter : (vs.map Json.toNode).filter (fun n => !n.isEmpty) = vs.map Json.toNode := by
    refine List.filter_eq_self.2 fun n hn => ?_
    obtain ⟨v, hv, rfl⟩ := List.mem_map.1 hn
    obtain ⟨m, ms, rfl⟩ := hrecord v hv
    rfl
  have hjson : (vs.map Json.toNode).mapM Node.toJson = .ok (vs.map Json.sortKeys) := by
    clear hlays hrecord hkeys hfilter
    induction vs with
    | nil => rfl
    | cons v vs ih =>
      rw [List.map_cons, List.mapM_cons, toJson_toNode v (hreturns v (by simp)),
        ih fun w hw => hreturns w (by simp [hw])]
      rfl
  rw [Yaml.read, documents_write hrecord hkeys hlays hreturns]
  show ((_ : List Node).mapM Node.toJson).mapError _ = _
  rw [hfilter, hjson]
  rfl

end Yaml

end WorkspaceTrust
