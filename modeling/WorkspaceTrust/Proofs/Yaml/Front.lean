import WorkspaceTrust.Proofs.Yaml.Exact
import WorkspaceTrust.Proofs.Yaml.Spelling

/-!
# The front of a document

What a document begins with is known from the tokens that it begins with,
whatever else is read behind them (`documents_of_front`). If one text of a
stream is in question, these are the tokens in front of it
(`exists_scalar_of_tokens`).
-/

namespace WorkspaceTrust.Yaml

open ScalarStyle

/-! ## One text in a stream -/

def Token.isLiteral : Token → Bool
  | .scalar .literal _ => true
  | _ => false

section Streams

variable {vs : List Json} {front back us : List Token} {n : Nat} {s : String}

/-- If one text of a stream is in question and no other is a literal scalar, what is read in
its place is the text only if the text comes back, and has its text as a key only if it comes
back as a key. -/
theorem exists_scalar_of_tokens (hrecord : ∀ v ∈ vs, IsRecord v) (hn : 0 < n)
    (hsplit : streamTokens vs = front ++ textToken n s :: back)
    (hfront : front.any Token.isLiteral = false) (hback : back.any Token.isLiteral = false)
    (hlays : (∀ v ∈ vs, ∀ l ∈ v.leaves, l.Lays) ↔ Lays s.toList)
    (h : tokens (write vs).toList = .ok us) :
    ∃ style t more, us = front ++ .scalar style t :: more ∧
      (Node.ofScalar style none t = .str s → textReturns s = true) ∧
      ((Node.ofScalar style none t).keyText = .ok s → keyReturns s = true) := by
  by_cases hs : Lays s.toList
  · rw [tokens_write hrecord (hlays.2 hs), hsplit] at h
    cases h
    exact ⟨_, _, back ++ [.streamEnd], by simp [textToken], textReturns_of_textNode hn hs,
      keyReturns_of_textNode hn hs⟩
  · obtain ⟨before, text, rest, other, more, hsplit', hne, rfl⟩ :=
      departs_write hrecord (mt hlays.1 hs) us h
    have hliteral : ∀ ts : List Token, ts.any Token.isLiteral = false →
        .scalar .literal text ∉ ts := fun ts hts hmem => absurd rfl (List.any_eq_false.1 hts _ hmem)
    rw [hsplit] at hsplit'
    obtain ⟨rfl, htext, -⟩ := (List.append_cons_inj_of_notMem (hliteral _ hfront)
      (hliteral _ hback)).1 hsplit'
    obtain ⟨hstyle, hlaid⟩ := Token.scalar.inj htext
    rw [laidText_of_ne n (by simp [hstyle]), String.ofList_toList] at hlaid
    subst hlaid
    refine ⟨.literal, other, more, rfl, fun h => ?_, fun h => ?_⟩
    · exact absurd (Node.str.inj h) hne
    · exact absurd (Except.ok.inj h) hne

end Streams

/-! ## Members in front of a mapping -/

/-- The tokens of a document with these members, up to the first key of the mapping that stands
behind a further key. -/
def frontTokens (head : List (String × Json)) (field : String) : List Token :=
  .documentStart :: .blockMappingStart ::
    (memberTokens 0 head ++ [.key, textToken 2 field, .value, .blockMappingStart])

/-! ## Trees -/

/-- A key is not an item. -/
theorem noItem_key (us : List Token) : NoItem (.key :: us) := fun _ h => nomatch h

namespace Tree

variable {handles : Handles} {fuel : Nat} {ts rest : List Token} {style : ScalarStyle} {text : String}
  {value : Tree} {pairs : List (Tree × Tree)}

theorem node_eq_ok_scalar {block indentless : Bool} {t : Tree}
    (h : node handles fuel block indentless (.scalar style text :: ts) = .ok (t, rest)) :
    t = .scalar .none style text ∧ rest = ts := by
  cases fuel with
  | zero => cases h
  | succ fuel =>
    rw [node_scalar] at h
    cases h
    exact ⟨rfl, rfl⟩

theorem node_eq_ok_mapping {t : Tree} {indentless : Bool}
    (h : node handles fuel true indentless (.blockMappingStart :: ts) = .ok (t, rest)) :
    ∃ fuel' pairs, blockPairs handles fuel' ts = .ok (pairs, rest) ∧ t = .mapping .none pairs ∧
      fuel = fuel' + 1 := by
  cases fuel with
  | zero => cases h
  | succ fuel =>
    simp only [node, properties, ok_bind, bind_eq_ok] at h
    obtain ⟨⟨pairs, us⟩, hpairs, h⟩ := h
    cases h
    exact ⟨fuel, pairs, hpairs, rfl, rfl⟩

/-- The first pair of a mapping, if its key is a scalar. -/
theorem blockPairs_eq_ok_scalar
    (h : blockPairs handles fuel (.key :: .scalar style text :: ts) = .ok (pairs, rest)) :
    ∃ fuel' value us others, blockValue handles fuel' ts = .ok (value, us) ∧
      pairs = (.scalar .none style text, value) :: others := by
  cases fuel with
  | zero => cases h
  | succ fuel =>
    simp only [blockPairs, endsBlockNode, Bool.false_eq_true, if_false, bind_eq_ok] at h
    obtain ⟨⟨key, us⟩, hkey, ⟨value, us'⟩, hvalue, ⟨others, us''⟩, -, h⟩ := h
    obtain ⟨rfl, rfl⟩ := node_eq_ok_scalar hkey
    cases h
    exact ⟨fuel, value, us', others, hvalue, rfl⟩

theorem blockValue_eq_ok_scalar
    (h : blockValue handles fuel (.value :: .scalar style text :: ts) = .ok (value, rest)) :
    value = .scalar .none style text := by
  cases fuel with
  | zero => cases h
  | succ fuel => exact (node_eq_ok_scalar (by simpa [blockValue, endsBlockNode] using h)).1

theorem blockValue_eq_ok_mapping
    (h : blockValue handles fuel (.value :: .blockMappingStart :: ts) = .ok (value, rest)) :
    ∃ fuel' pairs, blockPairs handles fuel' ts = .ok (pairs, rest) ∧
      value = .mapping .none pairs := by
  cases fuel with
  | zero => cases h
  | succ fuel =>
    obtain ⟨fuel', pairs, hpairs, hvalue, -⟩ :=
      node_eq_ok_mapping (by simpa [blockValue, endsBlockNode] using h)
    exact ⟨fuel', pairs, hpairs, hvalue⟩

/-- The first document, if it is a mapping behind a start marker. -/
theorem trees_eq_ok_mapping {docs : List Tree}
    (h : trees (.documentStart :: .blockMappingStart :: ts) = .ok docs) :
    ∃ fuel pairs rest others, blockPairs [] fuel ts = .ok (pairs, rest) ∧
      docs = .mapping .none pairs :: others ∧ 3 * ts.length ≤ fuel := by
  obtain ⟨limit, hlimit⟩ : ∃ limit, 3 * (Token.documentStart :: .blockMappingStart :: ts).length + 3
      = limit + 1 := ⟨_, rfl⟩
  simp only [List.length_cons] at hlimit
  rw [trees] at h
  simp only [List.length_cons, hlimit] at h
  rw [Tree.documents] at h
  simp only [List.dropWhile_cons, reduceCtorEq, decide_false, Bool.false_eq_true, if_false, directives,
    ok_bind, content] at h
  obtain ⟨⟨tree, us⟩, hnode, h⟩ := bind_eq_ok.1 h
  obtain ⟨fuel, pairs, hpairs, rfl, hfuel⟩ := node_eq_ok_mapping hnode
  have hdocs : ∃ others, docs = .mapping .none pairs :: others := by
    simp only at h
    split at h
    · obtain ⟨others, -, h⟩ := bind_eq_ok.1 h
      cases h
      exact ⟨others, rfl⟩
    · cases h
    · obtain ⟨others, -, h⟩ := bind_eq_ok.1 h
      cases h
      exact ⟨others, rfl⟩
  obtain ⟨others, rfl⟩ := hdocs
  exact ⟨fuel, pairs, us, others, hpairs, rfl, by omega⟩

/-- The trees of the members in front, and of the first entry of the mapping. -/
theorem trees_of_front {head : List (String × Json)} {field key : String} {us : List Token}
    {docs : List Tree}
    (h : trees (frontTokens head field ++ .key :: .scalar style key :: us) = .ok docs) :
    ∃ value inner outer others, docs = .mapping .none (memberTrees 0 head ++
        (textTree 2 field, .mapping .none ((.scalar .none style key, value) :: inner)) :: outer)
          :: others ∧
      ∀ style' t us', us = .value :: .scalar style' t :: us' →
        value = .scalar .none style' t := by
  have hshape : frontTokens head field ++ .key :: .scalar style key :: us = .documentStart ::
      .blockMappingStart :: (memberTokens 0 head ++ .key :: textToken 2 field :: .value ::
        .blockMappingStart :: .key :: .scalar style key :: us) := by simp [frontTokens]
  rw [hshape] at h
  obtain ⟨fuel, pairs, rest, others, hpairs, rfl, hfuel⟩ := trees_eq_ok_mapping h
  have hlength := length_le_memberTokens 0 head
  simp only [List.length_append, List.length_cons] at hfuel
  obtain ⟨f, rfl⟩ : ∃ f, fuel = f + head.length := ⟨fuel - head.length, by omega⟩
  rw [blockPairs_memberTokens [] head 0 f _ (noItem_key _) (by omega)] at hpairs
  obtain ⟨⟨pairs', rest'⟩, hpairs', heq⟩ := bind_eq_ok.1 hpairs
  cases heq
  obtain ⟨_, fieldTree, _, outer, hfield, rfl⟩ := blockPairs_eq_ok_scalar hpairs'
  obtain ⟨_, pairs, hinner, rfl⟩ := blockValue_eq_ok_mapping hfield
  obtain ⟨_, value, _, inner, hvalue, rfl⟩ := blockPairs_eq_ok_scalar hinner
  refine ⟨value, inner, outer, others, rfl, fun style' t us' hus => ?_⟩
  rw [hus] at hvalue
  exact blockValue_eq_ok_scalar hvalue

end Tree

/-! ## Nodes -/

namespace Node

variable {a a' : Anchors} {p p' : Pairing} {ts : List (Tree × Tree)}

theorem entries_suffix_of_add {n : Node} (h : p.add n = .ok p') : p.entries <:+ p'.entries := by
  rw [Pairing.add] at h
  split_ifs at h <;> cases h
  · exact List.suffix_rfl
  · exact List.suffix_cons _ _

/-- What has been paired stays paired. -/
theorem entries_suffix_of_ofPairs (h : ofPairs ts p a = .ok (p', a')) : p.entries <:+ p'.entries := by
  induction ts generalizing p a with
  | nil =>
    cases h
    exact List.suffix_rfl
  | cons t ts ih =>
    simp only [ofPairs, bind_eq_ok] at h
    obtain ⟨⟨k, b⟩, _, q, hq, ⟨v, b'⟩, _, q', hq', h⟩ := h
    exact ((entries_suffix_of_add hq).trans (entries_suffix_of_add hq')).trans (ih h)

/-- A pair where a key may come becomes an entry. -/
theorem exists_entry_of_ofPairs {k v : Tree} {key : Node} {es : List (Node × Node)}
    (hk : ofTree k a = .ok (key, a)) (hkey : key.isUnresolved = false)
    (h : ofPairs ((k, v) :: ts) ⟨es, .unresolved⟩ a = .ok (p', a')) :
    ∃ value b, ofTree v a = .ok (value, b) ∧ (key, value) ∈ p'.entries := by
  have hopen : Node.unresolved.isUnresolved = true := rfl
  simp only [ofPairs, hk, ok_bind, Pairing.add, hopen, if_true, hkey, Bool.false_eq_true, if_false,
    bind_eq_ok] at h
  obtain ⟨⟨value, b⟩, hvalue, q, hq, h⟩ := h
  split_ifs at hq
  cases hq
  exact ⟨value, b, hvalue, (entries_suffix_of_ofPairs h).subset (by simp)⟩

theorem ofTree_mapping_eq_ok {pairs : List (Tree × Tree)} {n : Node}
    (h : ofTree (.mapping .none pairs) a = .ok (n, a')) :
    ∃ p b, ofPairs pairs .none a = .ok (p, b) ∧ n = .map p.entries.reverse := by
  simp only [ofTree, Properties.none, Anchors.announce, bind_eq_ok] at h
  obtain ⟨⟨p, b⟩, hp, h⟩ := h
  cases h
  exact ⟨p, b, hp, rfl⟩

/-- An untagged scalar is resolved. -/
theorem isUnresolved_ofScalar (style : ScalarStyle) (text : String) :
    (ofScalar style none text).isUnresolved = false := by
  cases style with
  | plain => exact isUnresolved_ofPlain text
  | _ => rfl

end Node

/-- The first document of the text is a mapping whose entry for the field is a mapping with
this entry, where the value is that of the next token if this is a scalar. -/
theorem documents_of_front {text : List Char} {head : List (String × Json)} {field key : String}
    {style : ScalarStyle} {us : List Token} {nodes : List Node}
    (hreturns : ∀ l ∈ Json.memberLeaves head, l.Returns) (hkeys : (head.map Prod.fst).Nodup)
    (hdiffer : Json.MemberKeysDiffer head) (hfield : keyReturns field = true)
    (htokens : tokens text = .ok (frontTokens head field ++ .key :: .scalar style key :: us))
    (h : Node.documents text = .ok nodes) :
    ∃ es es' value others, nodes = .map es :: others ∧ (keyNode field, .map es') ∈ es ∧
      (Node.ofScalar style none key, value) ∈ es' ∧
      ∀ style' t us', us = .value :: .scalar style' t :: us' →
        value = Node.ofScalar style' none t := by
  simp only [Node.documents, htokens, ok_bind, bind_eq_ok] at h
  obtain ⟨docs, hdocs, h⟩ := h
  obtain ⟨valueTree, inner, outer, others, rfl, hvalueTree⟩ := Tree.trees_of_front hdocs
  simp only [List.mapM_cons, bind_eq_ok] at h
  obtain ⟨n, ⟨⟨m, a⟩, hm, heq⟩, ns, -, h⟩ := h
  cases heq
  cases h
  obtain ⟨p, b, hp, rfl⟩ := Node.ofTree_mapping_eq_ok hm
  have hfresh : Fresh head [] := fun _ he => absurd he List.not_mem_nil
  rw [Node.Pairing.none, ofPairs_memberTrees head hreturns hkeys hdiffer 0 _ [] _ hfresh] at hp
  have hfieldTree : Node.ofTree (textTree 2 field) .none = .ok (keyNode field, .none) := by
    rw [ofTree_textTree, textNode_of_keyReturns 2 hfield]
  obtain ⟨fieldNode, b', hfieldNode, hmem⟩ :=
    Node.exists_entry_of_ofPairs hfieldTree (isUnresolved_keyNode field) hp
  obtain ⟨q, _, hq, rfl⟩ := Node.ofTree_mapping_eq_ok hfieldNode
  obtain ⟨value, _, hvalue, hmem'⟩ :=
    Node.exists_entry_of_ofPairs rfl (Node.isUnresolved_ofScalar style key) hq
  refine ⟨_, _, value, ns, rfl, List.mem_reverse.2 hmem, List.mem_reverse.2 hmem', ?_⟩
  intro style' t us' hus
  rw [hvalueTree style' t us' hus] at hvalue
  cases hvalue
  rfl

end WorkspaceTrust.Yaml
