import WorkspaceTrust.Proofs.Yaml.Stream
import WorkspaceTrust.Yaml.Tree

/-!
# The trees of written values

The tokens of a value are read as its tree (`node_nodeTokens`). Every
call of the grammar takes fuel, and twice the number of tokens is enough
of it. A list without indentation of its own ends where no item follows,
so there the next token must be known not to be an item.
-/

namespace WorkspaceTrust.Yaml

open ScalarStyle WorkspaceTrust.Yaml.Tree

def textTree (n : Nat) (s : String) : Tree :=
  .scalar .none (ofText s.toList) (String.ofList (laidText n s.toList))

mutual

/-- The tree of a value whose lines are indented by `n`. -/
def nodeTree (n : Nat) : Json → Tree
  | .null => .scalar .none .plain "null"
  | .bool b => .scalar .none .plain (if b then "true" else "false")
  | .num x => .scalar .none .plain (String.ofList (writeNumber x))
  | .str s => textTree n s
  | .arr vs => .sequence .none (itemTrees n vs)
  | .obj ms => .mapping .none (memberTrees n ms)

def itemTrees (n : Nat) : List Json → List Tree
  | [] => []
  | v :: vs => nodeTree (n + 2) v :: itemTrees n vs

def memberTrees (n : Nat) : List (String × Json) → List (Tree × Tree)
  | [] => []
  | (k, v) :: ms =>
      (textTree (n + 2) k, nodeTree (placeValue n (isSimpleKey k.toList) v).1 v) ::
        memberTrees n ms

end

/-! ## Single calls -/

section Calls

variable {handles : Handles} {fuel : Nat} {ts rest : List Token}

theorem node_scalar {block indentless : Bool} (style : ScalarStyle) (text : String) :
    node handles (fuel + 1) block indentless (.scalar style text :: ts)
      = .ok (.scalar .none style text, ts) := rfl

theorem node_blockSequence {indentless : Bool} {items : List Tree}
    (h : blockItems handles fuel ts = .ok (items, rest)) :
    node handles (fuel + 1) true indentless (.blockSequenceStart :: ts)
      = .ok (.sequence .none items, rest) := by
  simp [node, properties, h]

theorem node_blockMapping {indentless : Bool} {pairs : List (Tree × Tree)}
    (h : blockPairs handles fuel ts = .ok (pairs, rest)) :
    node handles (fuel + 1) true indentless (.blockMappingStart :: ts)
      = .ok (.mapping .none pairs, rest) := by
  simp [node, properties, h]

theorem node_indentless {block : Bool} {items : List Tree}
    (h : indentlessItems handles fuel (.blockEntry :: ts) = .ok (items, rest)) :
    node handles (fuel + 1) block true (.blockEntry :: ts) = .ok (.sequence .none items, rest) := by
  simp [node, properties, h]

/-- The next token belongs to a node and not to what is around it. -/
def NodeFollows (ts : List Token) : Prop :=
  ∃ t us, ts = t :: us ∧ t ≠ .key ∧ t ≠ .value ∧ t ≠ .blockEnd

theorem NodeFollows.not_end (h : NodeFollows ts) : endsBlockNode ts = false := by
  obtain ⟨t, us, rfl, hkey, hvalue, hend⟩ := h
  unfold endsBlockNode
  split <;> simp_all

/-- No item follows. -/
def NoItem (ts : List Token) : Prop := ∀ us, ts ≠ .blockEntry :: us

variable {item : Tree} {items : List Tree} {ts₁ : List Token}

theorem blockItems_entry (hts : NodeFollows ts) (hno : NoItem ts)
    (hitem : node handles fuel true false ts = .ok (item, ts₁))
    (hitems : blockItems handles fuel ts₁ = .ok (items, rest)) :
    blockItems handles (fuel + 1) (.blockEntry :: ts) = .ok (item :: items, rest) := by
  obtain ⟨t, us, rfl, -, -, hend⟩ := hts
  have hentry : t ≠ .blockEntry := fun h => hno us (by rw [h])
  cases t <;> simp_all [blockItems]

theorem indentlessItems_entry (hts : NodeFollows ts) (hno : NoItem ts)
    (hitem : node handles fuel true false ts = .ok (item, ts₁))
    (hitems : indentlessItems handles fuel ts₁ = .ok (items, rest)) :
    indentlessItems handles (fuel + 1) (.blockEntry :: ts) = .ok (item :: items, rest) := by
  have hnot := hts.not_end
  obtain ⟨t, us, rfl, -, -, hend⟩ := hts
  have hentry : t ≠ .blockEntry := fun h => hno us (by rw [h])
  cases t <;> simp_all [indentlessItems]

theorem indentlessItems_end (hno : NoItem ts) :
    indentlessItems handles (fuel + 1) ts = .ok ([], ts) := by
  unfold indentlessItems
  split
  · exact absurd rfl (hno _)
  · rfl

/-- A pair in front of others. -/
theorem blockPairs_pair {key value : Tree} {ts₂ : List Token}
    (hts : NodeFollows ts) (hkey : node handles (fuel + 1) true true ts = .ok (key, .value :: ts₁))
    (hts₁ : NodeFollows ts₁) (hvalue : node handles fuel true true ts₁ = .ok (value, ts₂)) :
    blockPairs handles (fuel + 2) (.key :: ts) = (do
      let (pairs, rest) ← blockPairs handles (fuel + 1) ts₂
      .ok ((key, value) :: pairs, rest)) := by
  rw [blockPairs]
  simp [blockValue, hts.not_end, hkey, hts₁.not_end, hvalue]

end Calls

/-! ## Values -/

theorem nodeFollows_nodeTokens (n : Nat) (indentless : Bool) (v : Json) (rest : List Token) :
    NodeFollows (nodeTokens n indentless v ++ rest) := by
  cases v with
  | arr vs =>
    cases vs with
    | nil => exact ⟨_, _, rfl, by simp⟩
    | cons v vs => cases indentless <;> exact ⟨_, _, rfl, by simp⟩
  | obj ms => cases ms <;> exact ⟨_, _, rfl, by simp⟩
  | _ => exact ⟨_, _, rfl, by simp [textToken]⟩

theorem noItem_nodeTokens (n : Nat) (v : Json) (rest : List Token) :
    NoItem (nodeTokens n false v ++ rest) := by
  cases v with
  | arr vs => cases vs <;> exact fun _ h => nomatch h
  | obj ms => cases ms <;> exact fun _ h => nomatch h
  | _ => exact fun _ h => nomatch h

theorem length_le_memberTokens (n : Nat) (ms : List (String × Json)) :
    ms.length ≤ (memberTokens n ms).length := by
  induction ms with
  | nil => exact Nat.le_refl 0
  | cons m ms ih =>
    simp only [memberTokens, List.length_cons, List.length_append, List.cons_append]
    omega

theorem noItem_memberTokens (n : Nat) (ms : List (String × Json)) {rest : List Token}
    (h : NoItem rest) : NoItem (memberTokens n ms ++ rest) := by
  cases ms with
  | nil => exact h
  | cons m ms => exact fun _ h => nomatch h

mutual

theorem node_nodeTokens (handles : Handles) (v : Json) : ∀ (n fuel : Nat) (b indentless : Bool)
    (rest : List Token), 2 * (nodeTokens n b v).length + 2 ≤ fuel →
    (b = true → indentless = true ∧ NoItem rest) →
    node handles fuel true indentless (nodeTokens n b v ++ rest) = .ok (nodeTree n v, rest) := by
  intro n fuel b indentless rest hfuel hb
  obtain ⟨fuel, rfl⟩ : ∃ k, fuel = k + 2 := ⟨fuel - 2, by omega⟩
  match v with
  | .null | .bool _ | .num _ | .str _ => exact node_scalar _ _
  | .arr [] | .obj [] => rfl
  | .arr (v :: vs) =>
    have hitems := blockItems_itemTokens handles (v :: vs) n (fuel + 1) rest
    have hless := indentlessItems_itemTokens handles (v :: vs) n (fuel + 1) rest
    cases b with
    | true =>
      simp only [nodeTokens, if_true] at hfuel ⊢
      rw [(hb rfl).1]
      exact node_indentless (hless (by omega) (hb rfl).2)
    | false =>
      simp only [nodeTokens, Bool.false_eq_true, if_false, List.length_cons, List.length_append,
        List.length_nil] at hfuel
      have hshape : nodeTokens n false (.arr (v :: vs)) ++ rest
          = .blockSequenceStart :: (itemTokens n (v :: vs) ++ .blockEnd :: rest) := by
        simp [nodeTokens]
      rw [hshape]
      exact node_blockSequence (hitems (by omega))
  | .obj (m :: ms) =>
    have hlen := length_le_memberTokens n (m :: ms)
    simp only [nodeTokens, List.length_cons, List.length_append, List.length_nil] at hfuel hlen
    obtain ⟨f, hf⟩ : ∃ f, fuel + 1 = (f + 1) + (m :: ms).length := ⟨fuel - (m :: ms).length, by
      rw [List.length_cons]
      omega⟩
    have hpairs := blockPairs_memberTokens handles (m :: ms) n (f + 1) (.blockEnd :: rest)
      (fun _ h => nomatch h)
    rw [← hf] at hpairs
    have hshape : nodeTokens n b (.obj (m :: ms)) ++ rest
        = .blockMappingStart :: (memberTokens n (m :: ms) ++ .blockEnd :: rest) := by
      simp [nodeTokens]
    rw [hshape]
    refine node_blockMapping ((hpairs (by omega)).trans ?_)
    simp [blockPairs]

theorem blockItems_itemTokens (handles : Handles) (vs : List Json) : ∀ (n fuel : Nat)
    (rest : List Token), 2 * (itemTokens n vs).length + 1 ≤ fuel →
    blockItems handles fuel (itemTokens n vs ++ .blockEnd :: rest) = .ok (itemTrees n vs, rest) := by
  intro n fuel rest hfuel
  obtain ⟨fuel, rfl⟩ : ∃ k, fuel = k + 1 := ⟨fuel - 1, by omega⟩
  match vs with
  | [] => rfl
  | v :: vs =>
    simp only [itemTokens, List.cons_append, List.length_cons, List.length_append] at hfuel
    have hv := node_nodeTokens handles v (n + 2) fuel false false (itemTokens n vs ++ .blockEnd :: rest)
      (by omega) nofun
    have hvs := blockItems_itemTokens handles vs n fuel rest (by omega)
    simp only [itemTokens, itemTrees, List.cons_append, List.append_assoc]
    exact blockItems_entry (nodeFollows_nodeTokens _ _ _ _) (noItem_nodeTokens _ _ _) hv hvs

theorem indentlessItems_itemTokens (handles : Handles) (vs : List Json) : ∀ (n fuel : Nat)
    (rest : List Token), 2 * (itemTokens n vs).length + 1 ≤ fuel → NoItem rest →
    indentlessItems handles fuel (itemTokens n vs ++ rest) = .ok (itemTrees n vs, rest) := by
  intro n fuel rest hfuel hrest
  obtain ⟨fuel, rfl⟩ : ∃ k, fuel = k + 1 := ⟨fuel - 1, by omega⟩
  match vs with
  | [] => exact indentlessItems_end hrest
  | v :: vs =>
    simp only [itemTokens, List.cons_append, List.length_cons, List.length_append] at hfuel
    have hv := node_nodeTokens handles v (n + 2) fuel false false (itemTokens n vs ++ rest)
      (by omega) nofun
    have hvs := indentlessItems_itemTokens handles vs n fuel rest (by omega) hrest
    simp only [itemTokens, itemTrees, List.cons_append, List.append_assoc]
    exact indentlessItems_entry (nodeFollows_nodeTokens _ _ _ _) (noItem_nodeTokens _ _ _) hv hvs

theorem blockPairs_memberTokens (handles : Handles) (ms : List (String × Json)) : ∀ (n fuel : Nat)
    (ts : List Token), NoItem ts → 2 * (memberTokens n ms).length + 1 ≤ fuel + ms.length →
    blockPairs handles (fuel + ms.length) (memberTokens n ms ++ ts) = (do
      let (pairs, rest) ← blockPairs handles fuel ts
      .ok (memberTrees n ms ++ pairs, rest)) := by
  intro n fuel ts hts hfuel
  match ms with
  | [] =>
    show blockPairs handles fuel ts = _
    cases blockPairs handles fuel ts <;> rfl
  | (k, v) :: ms =>
    simp only [memberTokens, List.cons_append, List.length_cons, List.length_append] at hfuel
    obtain ⟨f, hf⟩ : ∃ f, fuel + ms.length = f + 1 := ⟨fuel + ms.length - 1, by omega⟩
    have hv := node_nodeTokens handles v (placeValue n (isSimpleKey k.toList) v).1 f
      (isSimpleKey k.toList) true (memberTokens n ms ++ ts) (by omega)
      fun _ => ⟨rfl, noItem_memberTokens n ms hts⟩
    have hms := blockPairs_memberTokens handles ms n fuel ts hts (by omega)
    rw [List.length_cons, ← Nat.add_assoc, hf]
    simp only [memberTokens, memberTrees, List.cons_append, List.append_assoc]
    refine (blockPairs_pair ⟨_, _, rfl, by simp⟩ (node_scalar _ _)
      (nodeFollows_nodeTokens _ _ _ _) hv).trans ?_
    rw [← hf, hms]
    cases blockPairs handles fuel ts <;> rfl

end

/-! ## Streams -/

theorem documents_document {limit fuel : Nat} {bare : Bool} {v : Json} {rest : List Token}
    {ts : List Tree} (hrecord : IsRecord v) (hlimit : 2 * (nodeTokens 0 false v).length + 2 ≤ limit)
    (hrest : ∃ t us, rest = t :: us ∧ (t = .documentStart ∨ t = .streamEnd))
    (h : Tree.documents limit fuel false rest = .ok ts) :
    Tree.documents limit (fuel + 1) bare (.documentStart :: (nodeTokens 0 false v ++ rest))
      = .ok (nodeTree 0 v :: ts) := by
  have hnode := node_nodeTokens [] v 0 limit false false rest hlimit nofun
  have hcontent : content [] limit (nodeTokens 0 false v ++ rest) = .ok (nodeTree 0 v, rest) := by
    obtain ⟨m, ms, rfl⟩ := hrecord
    exact hnode
  obtain ⟨t, us, rfl, rfl | rfl⟩ := hrest <;>
    simp [Tree.documents, directives, startsWithDirective, hcontent, h]

theorem documents_streamTokens {limit : Nat} : ∀ {vs : List Json} {fuel : Nat} {bare : Bool},
    (∀ v ∈ vs, IsRecord v) → 2 * (streamTokens vs).length + 2 ≤ limit → vs.length < fuel →
    Tree.documents limit fuel bare (streamTokens vs ++ [.streamEnd]) = .ok (vs.map (nodeTree 0)) := by
  intro vs
  induction vs with
  | nil =>
    intro fuel bare _ _ hfuel
    obtain ⟨fuel, rfl⟩ : ∃ k, fuel = k + 1 := ⟨fuel - 1, by omega⟩
    rfl
  | cons v vs ih =>
    intro fuel bare hrecord hlimit hfuel
    obtain ⟨fuel, rfl⟩ : ∃ k, fuel = k + 1 := ⟨fuel - 1, by omega⟩
    have hshape : streamTokens (v :: vs) = .documentStart :: (nodeTokens 0 false v ++ streamTokens vs) :=
      rfl
    rw [hshape, List.length_cons, List.length_append] at hlimit
    have ih := @ih fuel false (fun w hw => hrecord w (by simp [hw])) (by omega)
      (by rw [List.length_cons] at hfuel; omega)
    have hrest : ∃ t us, streamTokens vs ++ [.streamEnd] = t :: us ∧
        (t = .documentStart ∨ t = .streamEnd) := by
      cases vs with
      | nil => exact ⟨_, _, rfl, .inr rfl⟩
      | cons w ws => exact ⟨_, _, rfl, .inl rfl⟩
    rw [hshape, List.cons_append, List.append_assoc]
    exact documents_document (hrecord v (by simp)) (by omega) hrest ih

theorem length_le_streamTokens (vs : List Json) : vs.length ≤ (streamTokens vs).length := by
  induction vs with
  | nil => exact Nat.le_refl 0
  | cons v vs ih =>
    simp only [streamTokens, List.flatMap_cons, List.length_cons, List.length_append] at ih ⊢
    omega

/-- The trees of a stream of objects are those of its documents. -/
theorem trees_streamTokens {vs : List Json} (hrecord : ∀ v ∈ vs, IsRecord v) :
    trees (streamTokens vs ++ [.streamEnd]) = .ok (vs.map (nodeTree 0)) := by
  have := length_le_streamTokens vs
  rw [trees]
  refine documents_streamTokens hrecord ?_ ?_ <;>
    simp only [List.length_append, List.length_cons, List.length_nil] <;> omega

end WorkspaceTrust.Yaml
