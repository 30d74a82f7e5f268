import WorkspaceTrust.Proofs.Yaml.Misread
import WorkspaceTrust.Proofs.Yaml.Stream

/-!
# When the tokens come back

The tokens that are read of a written stream are those of its values only
if every text lays its lines (`tokens_write_iff`). The first literal
scalar that does not is read as another text, and so, whatever is made of
the rest, the tokens depart there from those of the values
(`departs_write`).

As with the values that come back, there are three families: a value, the
items of a list and the members of an object (`missesNode`). In front of
the scalar everything is read well, so that what stands there is passed
with the steps that are known (`YieldsNode.of_line`).
-/

namespace WorkspaceTrust.Yaml

open ScalarStyle

theorem Departs.mono {ts ts' : List Token} (h : ts <+: ts') {result : Except Fault (List Token)}
    (hts : Departs ts result) : Departs ts' result := by
  obtain ⟨tail, rfl⟩ := h
  intro us hus
  obtain ⟨before, text, back, other, more, rfl, hne, heq⟩ := hts us hus
  exact ⟨before, text, back ++ tail, other, more, by simp, hne, heq⟩

/-- Tokens that depart from a list do not begin with it. -/
theorem Departs.not_prefix {ts us : List Token} (h : Departs ts (.ok us)) : ¬ ts <+: us := by
  obtain ⟨before, text, back, other, more, rfl, hne, rfl⟩ := h us rfl
  rw [List.prefix_append_right_inj, List.cons_prefix_cons]
  rintro ⟨heq, -⟩
  exact hne (by simpa using heq.symm)

/-- What departs from the beginning departs from the whole. -/
theorem Spot.Yields.departs {x : Spot} {ts ts' : List Token} (hy : x.Yields (Departs ts))
    (h : ts <+: ts') : x.Yields (Departs ts') :=
  fun s hs fuel hfuel => (hy s hs fuel hfuel).mono h

/-! ## Values -/

/-- A value is not read as its tokens. -/
def MissesNode (v : Json) : Prop :=
  ∀ {P : Level} {x : Spot} {n : Nat} {indentless : Bool} {rest : List Char},
    Places n indentless P x v → rest.head? ≠ some '\n' → x.body = writeNode n v rest →
    x.Yields (Departs (x.tokens.reverse ++ nodeTokens n indentless v))

/-- Items on lines of their own are not read as their tokens. -/
def MissesItems (vs : List Json) : Prop :=
  ∀ {Q : Level} {n : Nat} {ts : List Token} {rest : List Char},
    Q.Closes → Q.indent = n → rest.head? ≠ some '\n' →
    LineYields n Q ts (writeItems n vs rest) (Departs (ts.reverse ++ itemTokens n vs))

def MissesMembers (ms : List (String × Json)) : Prop :=
  ∀ {Q : Level} {n : Nat} {ts : List Token} {rest : List Char},
    Q.Closes → Q.indent = n → rest.head? ≠ some '\n' →
    LineYields n Q ts (writeMembers n ms rest) (Departs (ts.reverse ++ memberTokens n ms))

theorem missesNode_text {s : String} (h : ¬ Lays s.toList) : MissesNode (.str s) := by
  intro P x n indentless rest ⟨outer, houter, hn, hcolumn, hP⟩ hrest htext
  obtain ⟨text, column, ts, keyAllowed, L⟩ := x
  subst hn
  rw [writeNode] at htext
  obtain rfl : text = _ := htext
  exact yields_misread hP houter hcolumn h hrest

/-! ## What stands behind a value -/

theorem head?_of_starts {n : Nat} {body : List Char} (h : Starts body) :
    (spaces n ++ body).head? ≠ some '\n' := by
  cases n with
  | zero =>
    intro hhead
    obtain ⟨tail, heq⟩ := List.head?_eq_some_iff.1 hhead
    exact (h _ _ heq).2.1 rfl
  | succ n => simp [spaces_succ]

variable {v : Json} {rest : List Char}

theorem head?_writeItems (n : Nat) (vs : List Json) (h : rest.head? ≠ some '\n') :
    (writeItems n vs rest).head? ≠ some '\n' := by
  cases vs with
  | nil => exact h
  | cons v vs => exact head?_of_starts (starts_writeNode n (.arr (v :: vs)) rest)

theorem head?_writeMembers (n : Nat) (ms : List (String × Json)) (h : rest.head? ≠ some '\n') :
    (writeMembers n ms rest).head? ≠ some '\n' := by
  cases ms with
  | nil => exact h
  | cons m ms =>
    rw [writeMembers_cons, ← writeNode_object]
    exact head?_of_starts (starts_writeNode n (.obj (m :: ms)) rest)

/-! ## Lists -/

section Lists

variable {vs : List Json}

/-- The first item departs, or it is passed and a later one departs. -/
theorem departs_items (h : MissesNode v ∨ YieldsNode v ∧ MissesItems vs) {P : Level} {x : Spot}
    {n : Nat} (hcolumn : x.column = n) (hallowed : x.keyAllowed = true) (henter : P.Enters n x.level)
    (hrest : rest.head? ≠ some '\n') (htext : x.body = writeNode n (.arr (v :: vs)) rest) :
    x.Yields (Departs ((P.enter n .blockSequenceStart x.tokens).2.reverse ++ itemTokens n (v :: vs))) := by
  have hholds := Lexer.holds_enter henter .blockSequenceStart x.tokens
  have hindent := Lexer.indent_enter henter .blockSequenceStart x.tokens
  refine yields_item_value hcolumn hallowed henter htext fun y hplace htext' htokens => ?_
  have htokens' : (P.enter n .blockSequenceStart x.tokens).2.reverse ++ itemTokens n (v :: vs)
      = y.tokens.reverse ++ nodeTokens (n + 2) false v ++ itemTokens n vs := by
    simp [itemTokens, htokens]
  rw [htokens']
  rcases h with hv | ⟨hv, hvs⟩
  · exact (hv hplace (head?_writeItems n vs hrest) htext').departs (List.prefix_append _ _)
  · refine hv.of_line hplace hindent htext' ?_
    simpa using @hvs _ _ ((nodeTokens (n + 2) false v).reverse ++ y.tokens) _ hholds.1 hindent hrest

theorem missesItems_cons (h : MissesNode v ∨ YieldsNode v ∧ MissesItems vs) :
    MissesItems (v :: vs) := by
  intro Q n ts rest hclose hindent hrest
  refine lineYields_items hclose hindent fun x hcolumn hallowed henter htext hQ => ?_
  have hdeparts := departs_items h hcolumn hallowed henter hrest htext
  rwa [hQ] at hdeparts

theorem missesNode_list (h : MissesNode v ∨ YieldsNode v ∧ MissesItems vs) :
    MissesNode (.arr (v :: vs)) := by
  intro P x n indentless rest ⟨hcolumn, hallowed, henter, hindentless⟩ hrest htext
  refine (departs_items h hcolumn hallowed henter hrest htext).departs ?_
  cases indentless with
  | true =>
    have hnot : ¬ P.indent < n := by
      simp only [if_true] at hindentless
      omega
    rw [Level.enter, if_neg hnot]
    exact List.prefix_rfl
  | false =>
    have hlt : P.indent < n := by simpa using hindentless
    simp [Level.enter, if_pos hlt, nodeTokens]

end Lists

/-! ## Objects -/

section Objects

variable {k : String} {ms : List (String × Json)}

/-- A key that departs has a question mark in front of it. -/
theorem departs_key (hlays : ¬ Lays k.toList) {P : Level} {x : Spot} {n : Nat}
    (hcolumn : x.column = n) (hallowed : x.keyAllowed = true) (henter : P.Enters n x.level)
    (htext : x.body = writeNode n (.obj ((k, v) :: ms)) rest) :
    x.Yields (Departs ((P.enter n .blockMappingStart x.tokens).2.reverse
      ++ .key :: [textToken (n + 2) k])) := by
  subst hcolumn
  have hholds := Lexer.holds_enter henter .blockMappingStart x.tokens
  have hindent := Lexer.indent_enter henter .blockMappingStart x.tokens
  have hsimple : isSimpleKey k.toList = false := by
    rw [Bool.eq_false_iff]
    exact fun hsimple => hlays fun hstyle => absurd hstyle (ofText_ne_literal hsimple)
  rw [writeNode_explicit _ hsimple] at htext
  refine yields_explicit_key hallowed henter htext ?_
  refine (yields_misread hholds hindent (by omega) hlays
    (head?_of_starts (starts_cons (by decide)))).departs ?_
  simp [textToken]

/-- The first member departs, or it is passed and a later one departs. -/
theorem departs_members
    (h : ¬ Lays k.toList ∨ Lays k.toList ∧ (MissesNode v ∨ YieldsNode v ∧ MissesMembers ms))
    {P : Level} {x : Spot} {n : Nat} (hcolumn : x.column = n) (hallowed : x.keyAllowed = true)
    (henter : P.Enters n x.level) (hrest : rest.head? ≠ some '\n')
    (htext : x.body = writeNode n (.obj ((k, v) :: ms)) rest) :
    x.Yields (Departs ((P.enter n .blockMappingStart x.tokens).2.reverse
      ++ memberTokens n ((k, v) :: ms))) := by
  have hholds := Lexer.holds_enter henter .blockMappingStart x.tokens
  have hindent := Lexer.indent_enter henter .blockMappingStart x.tokens
  rcases h with hlays | ⟨hlays, h⟩
  · refine (departs_key hlays hcolumn hallowed henter htext).departs ?_
    simp [memberTokens]
  refine yields_member_value hlays hcolumn hallowed henter htext fun y hplace htext' htokens => ?_
  have htokens' : (P.enter n .blockMappingStart x.tokens).2.reverse ++ memberTokens n ((k, v) :: ms)
      = y.tokens.reverse ++ nodeTokens (placeValue n (isSimpleKey k.toList) v).1
        (isSimpleKey k.toList) v ++ memberTokens n ms := by
    simp [memberTokens, htokens]
  rw [htokens']
  rcases h with hv | ⟨hv, hms⟩
  · exact (hv hplace (head?_writeMembers n ms hrest) htext').departs (List.prefix_append _ _)
  · refine hv.of_line hplace hindent htext' ?_
    simpa using @hms _ _ ((nodeTokens (placeValue n (isSimpleKey k.toList) v).1
      (isSimpleKey k.toList) v).reverse ++ y.tokens) _ hholds.1 hindent hrest

theorem missesMembers_cons
    (h : ¬ Lays k.toList ∨ Lays k.toList ∧ (MissesNode v ∨ YieldsNode v ∧ MissesMembers ms)) :
    MissesMembers ((k, v) :: ms) := by
  intro Q n ts rest hclose hindent hrest
  refine lineYields_members hclose hindent fun x hcolumn hallowed henter htext hQ => ?_
  have hdeparts := departs_members h hcolumn hallowed henter hrest htext
  rwa [hQ] at hdeparts

theorem missesNode_object
    (h : ¬ Lays k.toList ∨ Lays k.toList ∧ (MissesNode v ∨ YieldsNode v ∧ MissesMembers ms)) :
    MissesNode (.obj ((k, v) :: ms)) := by
  intro P x n indentless rest ⟨hcolumn, hallowed, henter, hlt⟩ hrest htext
  refine (departs_members h hcolumn hallowed henter hrest htext).departs ?_
  simp [Level.enter, if_pos hlt, nodeTokens]

end Objects

/-! ## All values -/

/-- Of a list that has a text that does not lay its lines the first item has one, or
another item. -/
theorem misses_item {vs : List Json} (hv : (¬ ∀ l ∈ v.leaves, l.Lays) → MissesNode v)
    (hvs : (¬ ∀ l ∈ Json.itemLeaves vs, l.Lays) → MissesItems vs)
    (h : ¬ ∀ l ∈ Json.itemLeaves (v :: vs), l.Lays) :
    MissesNode v ∨ YieldsNode v ∧ MissesItems vs := by
  by_cases hlays : ∀ l ∈ v.leaves, l.Lays
  · refine .inr ⟨yieldsNode v hlays, hvs fun hrest => h fun l hl => ?_⟩
    exact (List.mem_append.1 hl).elim (hlays l) (hrest l)
  · exact .inl (hv hlays)

theorem misses_member {k : String} {ms : List (String × Json)}
    (hv : (¬ ∀ l ∈ v.leaves, l.Lays) → MissesNode v)
    (hms : (¬ ∀ l ∈ Json.memberLeaves ms, l.Lays) → MissesMembers ms)
    (h : ¬ ∀ l ∈ Json.memberLeaves ((k, v) :: ms), l.Lays) :
    ¬ Lays k.toList ∨ Lays k.toList ∧ (MissesNode v ∨ YieldsNode v ∧ MissesMembers ms) := by
  by_cases hkey : Lays k.toList
  · refine .inr ⟨hkey, ?_⟩
    by_cases hlays : ∀ l ∈ v.leaves, l.Lays
    · refine .inr ⟨yieldsNode v hlays, hms fun hrest => h fun l hl => ?_⟩
      rcases List.mem_cons.1 hl with rfl | hl
      · exact hkey
      · exact (List.mem_append.1 hl).elim (hlays l) (hrest l)
    · exact .inl (hv hlays)
  · exact .inl hkey

mutual

/-- A value with a text that does not lay its lines is not read as its tokens. -/
theorem missesNode : (v : Json) → (¬ ∀ l ∈ v.leaves, l.Lays) → MissesNode v
  | .null, h | .bool _, h | .arr [], h | .obj [], h => absurd (fun _ hl => absurd hl List.not_mem_nil) h
  | .num x, h => absurd (fun _ hl => List.mem_singleton.1 hl ▸ lays_number x) h
  | .str _, h => missesNode_text fun hs => h fun _ hl => List.mem_singleton.1 hl ▸ hs
  | .arr (v :: vs), h => missesNode_list (misses_item (missesNode v) (missesItems vs) h)
  | .obj ((_, v) :: ms), h => missesNode_object (misses_member (missesNode v) (missesMembers ms) h)

theorem missesItems : (vs : List Json) → (¬ ∀ l ∈ Json.itemLeaves vs, l.Lays) → MissesItems vs
  | [], h => absurd (fun _ hl => absurd hl List.not_mem_nil) h
  | v :: vs, h => missesItems_cons (misses_item (missesNode v) (missesItems vs) h)

theorem missesMembers : (ms : List (String × Json)) → (¬ ∀ l ∈ Json.memberLeaves ms, l.Lays) →
    MissesMembers ms
  | [], h => absurd (fun _ hl => absurd hl List.not_mem_nil) h
  | (_, v) :: ms, h => missesMembers_cons (misses_member (missesNode v) (missesMembers ms) h)

end

/-! ## Streams -/

theorem misses_document (hrecord : IsRecord v) (h : ¬ ∀ l ∈ v.leaves, l.Lays)
    (hrest : rest.head? ≠ some '\n') {L : Level} {ts ts' : List Token}
    (hL : L.unroll (-1) ts = (.root, ts')) :
    (Spot.mk (documentStart ++ writeNode 0 v rest) 0 ts true L).Yields
      (Departs (ts'.reverse ++ .documentStart :: nodeTokens 0 false v)) := by
  obtain ⟨⟨k, w⟩, ms, rfl⟩ := hrecord
  have hplace : Places 0 false .root
      ⟨writeNode 0 (.obj ((k, w) :: ms)) rest, 0, .documentStart :: ts', true, .root⟩
      (.obj ((k, w) :: ms)) := ⟨rfl, rfl, enters_root, by decide⟩
  refine yields_documentStart hL ?_
  simpa using missesNode _ h hplace hrest rfl

theorem misses_stream {vs : List Json} (hrecord : ∀ v ∈ vs, IsRecord v) :
    (¬ ∀ v ∈ vs, ∀ l ∈ v.leaves, l.Lays) → ∀ {L : Level} {ts ts' : List Token},
    L.unroll (-1) ts = (.root, ts') →
    (Spot.mk (vs.flatMap fun v => documentStart ++ writeNode 0 v []) 0 ts true L).Yields
      (Departs (ts'.reverse ++ streamTokens vs)) := by
  induction vs with
  | nil => exact fun h => absurd (fun _ hv => absurd hv List.not_mem_nil) h
  | cons v vs ih =>
    intro h L ts ts' hL
    rw [List.flatMap_cons, List.append_assoc, ← writeNode_append]
    have hhead := head?_of_starts (n := 0) (starts_stream vs 0)
    by_cases hv : ∀ l ∈ v.leaves, l.Lays
    · have hvs : ¬ ∀ w ∈ vs, ∀ l ∈ w.leaves, l.Lays := fun hvs => h (List.forall_mem_cons.2 ⟨hv, hvs⟩)
      refine yields_document (hrecord v (by simp)) hv (starts_stream vs 0) hL fun L' us hL' => ?_
      simpa [streamTokens] using ih (fun w hw => hrecord w (by simp [hw])) hvs hL'
    · refine (misses_document (hrecord v (by simp)) hv hhead hL).departs ?_
      simp [streamTokens]

/-- If a text does not lay its lines, the tokens depart from those of the documents there. -/
theorem departs_write {vs : List Json} (hrecord : ∀ v ∈ vs, IsRecord v)
    (h : ¬ ∀ v ∈ vs, ∀ l ∈ v.leaves, l.Lays) :
    Departs (streamTokens vs) (tokens (write vs).toList) := by
  have hdeparts := misses_stream hrecord h (L := .root) (Level.unroll_of_le (by decide) [])
  rw [tokens, lineText_of_printable (printable_write vs), write, String.toList_ofList]
  exact hdeparts _ (reaches_start (starts_stream vs 0)) _ (Nat.lt_add_of_pos_right (by decide))

/-- The tokens of a stream of objects are those of its documents if every text lays its
lines, and only then. -/
theorem tokens_write_iff {vs : List Json} (hrecord : ∀ v ∈ vs, IsRecord v) :
    tokens (write vs).toList = .ok (streamTokens vs ++ [.streamEnd]) ↔
      ∀ v ∈ vs, ∀ l ∈ v.leaves, l.Lays := by
  refine ⟨fun h => ?_, tokens_write hrecord⟩
  by_contra hlays
  have hdeparts := departs_write hrecord hlays
  rw [h] at hdeparts
  exact hdeparts.not_prefix (List.prefix_append _ _)

end WorkspaceTrust.Yaml
