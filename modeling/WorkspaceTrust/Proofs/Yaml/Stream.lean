import WorkspaceTrust.Proofs.Yaml.Printable

/-!
# The tokens of a written stream

A stream of objects is read as the tokens of its documents, one behind
the other (`tokens_write`). The text that is written has neither carriage
returns nor NUL characters, so nothing happens to it before it is read.
-/

namespace WorkspaceTrust.Yaml

open ScalarStyle

/-! ## What is in front of a value and behind it -/

mutual

theorem writeNode_append (n : Nat) : (v : Json) → (rest : List Char) →
    writeNode n v rest = writeNode n v [] ++ rest
  | .null, rest | .bool true, rest | .bool false, rest | .arr [], rest | .obj [], rest => rfl
  | .num x, rest => by simp [writeNode]
  | .str s, rest => by simp [writeNode]
  | .arr (v :: vs), rest => by
    rw [writeNode, writeNode, writeNode_append (n + 2) v, writeItems_append n vs rest,
      writeNode_append (n + 2) v (writeItems n vs [])]
    simp
  | .obj ((k, v) :: ms), rest => by
    rw [writeNode_object, writeNode_object, memberRest, memberRest, writeNode_append _ v,
      writeMembers_append n ms rest, writeNode_append _ v (writeMembers n ms [])]
    simp

theorem writeItems_append (n : Nat) : (vs : List Json) → (rest : List Char) →
    writeItems n vs rest = writeItems n vs [] ++ rest
  | [], rest => rfl
  | v :: vs, rest => by
    rw [writeItems, writeItems, writeNode_append (n + 2) v, writeItems_append n vs rest,
      writeNode_append (n + 2) v (writeItems n vs [])]
    simp

theorem writeMembers_append (n : Nat) : (ms : List (String × Json)) → (rest : List Char) →
    writeMembers n ms rest = writeMembers n ms [] ++ rest
  | [], rest => rfl
  | (k, v) :: ms, rest => by
    rw [writeMembers_cons, writeMembers_cons, memberRest, memberRest, writeNode_append _ v,
      writeMembers_append n ms rest, writeNode_append _ v (writeMembers n ms [])]
    simp

end

/-! ## The ends of a document -/

namespace Lexer

variable {s s' : Lexer} {x : Spot} {content : List Char}

@[simp] theorem cursor_unroll (column : Int) : (s.unroll column).cursor = s.cursor := by
  unfold Lexer.unroll
  split <;> rfl

@[simp] theorem keys_unroll (column : Int) : (s.unroll column).keys = s.keys := by
  unfold Lexer.unroll
  split <;> rfl

@[simp] theorem limit_unroll (column : Int) : (s.unroll column).limit = s.limit := by
  unfold Lexer.unroll
  split <;> rfl

/-- The line that starts a document closes the one before it. -/
theorem dispatch_documentStart (h : s.At x) (hx : x.body = documentStart ++ content)
    (hcolumn : x.column = 0) (hcontent : Starts content) :
    ∃ s', s.dispatch = .ok (s', false) ∧
      s'.Reaches (.ofLine 0 (x.level.unroll (-1) x.tokens).1
        (.documentStart :: (x.level.unroll (-1) x.tokens).2) content) := by
  obtain ⟨k, hk, hnot⟩ := h.key
  have hrest : s.cursor.rest = ['-', '-', '-'] ++ '\n' :: content := h.rest.trans hx
  have hpassed := Cursor.passed_past hrest (by decide)
  have hb := h.block.unroll (-1)
  have hremove := removeKey_of_not ((keys_unroll (-1)).trans hk) hnot
  have hb' := (((hb.setKeys [k.giveUp]).allowKey false).move (s.cursor.past ['-', '-', '-'])).push
    .documentStart
  have hdispatch : s.dispatch = .ok (((allowKey false { s.unroll (-1) with keys := [k.giveUp] }).move
      (s.cursor.past ['-', '-', '-'])).push .documentStart, false) := by
    have hzero : s.cursor.column = 0 := h.column.trans hcolumn
    have hmarker : s.cursor.atMarker '-' = true := by rw [Cursor.atMarker, hrest]; rfl
    rw [dispatch, hrest]
    simp only [List.cons_append, hzero, decide_true, Bool.true_and, hmarker, documentMarker, hremove,
      ok_bind, cursor_unroll, if_true]
    rfl
  have hlimit : s.cursor.rest.length < s.limit := by
    rw [h.rest]
    exact h.limit
  refine ⟨_, hdispatch, reaches_of_break (k := k.giveUp) hcontent hb' rfl (by simp [PossibleKey.giveUp])
    hpassed.rest ?_⟩
  show (s.cursor.past ['-', '-', '-']).rest.length < (s.unroll (-1)).limit
  rw [hpassed.rest, limit_unroll]
  rw [hrest] at hlimit
  exact Nat.lt_of_le_of_lt (by simp) hlimit

/-- Where the text ends, all levels are closed and the tokens are complete. -/
theorem run_of_end {fuel : Nat} (hs : s.prepare = .ok s') (h : s'.At x) (hx : x.body = []) :
    s.run (fuel + 1) = .ok (.streamEnd :: (x.level.unroll (-1) x.tokens).2).reverse := by
  obtain ⟨k, hk, hnot⟩ := h.key
  have hb := (((h.block.setKeys (s'.keys.map PossibleKey.giveUp)).unroll (-1)).allowKey false).push
    .streamEnd
  have hkeys : ¬ (s'.keys.any fun k => k.possible && k.required) = true := by simp [hk, hnot]
  have hdispatch : s'.dispatch = .ok (push .streamEnd (allowKey false
      (Lexer.unroll (-1) { s' with keys := s'.keys.map PossibleKey.giveUp })), true) := by
    rw [dispatch, h.rest, hx]
    simp only [streamEnd, if_neg hkeys, ok_bind]
  rw [run, step_eq, hs, ok_bind, hdispatch]
  simp only [ok_bind, if_true]
  rw [hb.tokens]

end Lexer

/-! ## Streams -/

/-- The tokens of a stream of documents up to its end. -/
def streamTokens (vs : List Json) : List Token :=
  vs.flatMap fun v => .documentStart :: nodeTokens 0 false v

/-- The value is an object with members, as manifests are. -/
def IsRecord (v : Json) : Prop := ∃ m ms, v = .obj (m :: ms)

/-- The line in front of a document. -/
theorem yields_documentStart {v : Json} {rest : List Char} {L : Level} {ts ts' : List Token}
    {result : Verdict} (hL : L.unroll (-1) ts = (.root, ts'))
    (hy : (Spot.mk (writeNode 0 v rest) 0 (.documentStart :: ts') true .root).Yields result) :
    (Spot.mk (documentStart ++ writeNode 0 v rest) 0 ts true L).Yields result := by
  refine Spot.yields_of_step ?_
    (fun s hs => s.dispatch_documentStart hs rfl rfl (starts_writeNode 0 v rest)) ?_
  · simp [Spot.ofLine, documentStart]
    omega
  have hroot : Level.root.indent ≤ ((0 : Nat) : Int) := by decide
  rw [hL, ofLine_of_le hroot]
  exact hy

/-- A mapping may begin at the margin of a document. -/
theorem enters_root : Level.root.Enters 0 .root := ⟨.inr ⟨rfl, rfl⟩, .inl (by decide)⟩

theorem yields_document {v : Json} {rest : List Char} {L : Level} {ts ts' : List Token} {result : Verdict}
    (hrecord : IsRecord v) (h : ∀ l ∈ v.leaves, l.Lays) (hrest : Starts rest)
    (hL : L.unroll (-1) ts = (.root, ts'))
    (hy : ∀ L' us, L'.unroll (-1) us
        = (.root, (.documentStart :: nodeTokens 0 false v).reverse ++ ts') →
      (Spot.mk rest 0 us true L').Yields result) :
    (Spot.mk (documentStart ++ writeNode 0 v rest) 0 ts true L).Yields result := by
  obtain ⟨⟨k, v⟩, ms, rfl⟩ := hrecord
  refine yields_documentStart hL ?_
  refine yields_members (yieldsNode v fun l hl => h l (by simp [Json.leaves, Json.memberLeaves, hl]))
    (h (.key k) (by simp [Json.leaves, Json.memberLeaves]))
    (yieldsMembers ms fun l hl => h l (by simp [Json.leaves, Json.memberLeaves, hl])) rfl rfl
    enters_root (Nat.le_refl 0) hrest rfl ?_
  have hnested : (Level.root.enter 0 .blockMappingStart (.documentStart :: ts')) =
      (Level.root.nested 0, .blockMappingStart :: .documentStart :: ts') := if_pos (by decide)
  have hzero : (Level.root.nested 0).indent ≤ ((0 : Nat) : Int) := Int.le_refl 0
  rw [hnested, ofLine_of_le hzero]
  refine hy _ _ ?_
  rw [Level.unroll_nested (by decide), Level.unroll_of_le (by decide)]
  simp [nodeTokens]

theorem starts_stream (vs : List Json) (n : Nat) :
    Starts (vs.flatMap fun v => documentStart ++ writeNode n v []) := by
  cases vs with
  | nil => exact fun _ _ heq => nomatch heq
  | cons v vs => exact starts_cons (by decide)

theorem yields_stream {vs : List Json} : (∀ v ∈ vs, IsRecord v) →
    (∀ v ∈ vs, ∀ l ∈ v.leaves, l.Lays) → ∀ {L : Level} {ts ts' : List Token},
    L.unroll (-1) ts = (.root, ts') →
    (Spot.mk (vs.flatMap fun v => documentStart ++ writeNode 0 v []) 0 ts true L).Yields
      (· = .ok (ts'.reverse ++ streamTokens vs ++ [.streamEnd])) := by
  induction vs with
  | nil =>
    intro _ _ L ts ts' hL s ⟨s', hs, hat⟩ fuel hfuel
    obtain ⟨fuel, rfl⟩ : ∃ k, fuel = k + 1 := ⟨fuel - 1, by omega⟩
    rw [Lexer.run_of_end hs hat rfl, hL]
    simp [streamTokens]
  | cons v vs ih =>
    intro hrecord h L ts ts' hL
    rw [List.flatMap_cons, List.append_assoc, ← writeNode_append]
    refine yields_document (hrecord v (by simp)) (h v (by simp)) (starts_stream vs 0) hL
      fun L' us hL' => ?_
    have ih := ih (fun w hw => hrecord w (by simp [hw])) (fun w hw => h w (by simp [hw])) hL'
    simpa [streamTokens] using ih

theorem reaches_start {text : List Char} (h : Starts text) :
    (Lexer.start text).Reaches ⟨text, 0, [], true, .root⟩ := by
  have hblock : (Lexer.start text).InBlock .root [] := ⟨rfl, rfl, rfl, rfl, rfl, rfl, rfl⟩
  exact Lexer.reaches_of_line h hblock rfl nofun rfl rfl (Nat.lt_succ_self _)

/-- The tokens of a stream of objects are those of its documents. -/
theorem tokens_write {vs : List Json} (hrecord : ∀ v ∈ vs, IsRecord v)
    (h : ∀ v ∈ vs, ∀ l ∈ v.leaves, l.Lays) :
    tokens (write vs).toList = .ok (streamTokens vs ++ [.streamEnd]) := by
  have hline := lineText_of_printable (printable_write vs)
  have hyields := yields_stream hrecord h (L := .root) (Level.unroll_of_le (by decide) [])
  rw [tokens, hline, write, String.toList_ofList]
  exact hyields _ (reaches_start (starts_stream vs 0)) _ (Nat.lt_add_of_pos_right (by decide))

end WorkspaceTrust.Yaml
