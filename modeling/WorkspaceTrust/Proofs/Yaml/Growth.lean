import WorkspaceTrust.Proofs.Result
import WorkspaceTrust.Proofs.Yaml.Step

/-!
# Tokens stay

A lexer adds tokens at the end, except for those that make a simple key of
what has been read: they go where the key has started. Hence the tokens
in front of all possible keys stay whatever follows (`Keeps`), and if the
text has tokens at all, they begin with these (`run_keeps`).

A key of a block is possible on its own line only, so behind a scalar of
several lines all earlier tokens stay (`run_keeps_of_line`).
-/

namespace WorkspaceTrust.Yaml.Lexer

/-- The earliest tokens are those of `ts`, latest first, and no possible key starts
among them. -/
structure Keeps (ts : List Token) (s : Lexer) : Prop where
  tokens : ∃ later, s.tokens = later ++ ts
  count : s.count = s.tokens.length
  keys : ∀ k ∈ s.keys, k.possible = true → ts.length ≤ k.number

/-- What a colon does, after the blanks behind it have been checked. -/
def placeColon (key : PossibleKey) (line : Nat) (column : Int) (singlePair : Bool) (s : Lexer) :
    Except Fault Lexer :=
  if key.possible then
    if singlePair && key.line < line then .error .valueNotAllowed
    else
      let s := s.insertAt key.number .key
      let s := if singlePair then s.insertAt key.number .flowMappingStart else s
      let s := (s.roll key.column (some key.number) .blockMappingStart).rollOne
      let s := { s with keys := key.giveUp :: s.keys.tail, keyAllowed := false }
      .ok (s.push .value)
  else
    let s := if singlePair then s.push .flowMappingStart else s
    if !s.inFlow && !s.keyAllowed then .error .valueNotAllowed
    else
      let s := (s.roll column none .blockMappingStart).rollOne
      .ok ((s.allowKey (!s.inFlow)).push .value)

/-! ## Lines -/

theorem line_le_advanceBy (n : Nat) : ∀ c : Cursor, c.line ≤ (c.advanceBy n).line := by
  induction n with
  | zero => exact fun c => Nat.le_refl _
  | succ n ih =>
    intro c
    refine Nat.le_trans ?_ (ih c.advance)
    unfold Cursor.advance
    split <;> simp

theorem line_le_skipToContent {c c' : Cursor} {blanks : List Char}
    (h : c.skipToContent = .ok (blanks, c')) : c.line ≤ c'.line := by
  rw [Cursor.skipToContent] at h
  have hblanks := line_le_advanceBy (c.rest.takeWhile isBlank).length c
  split at h
  · split at h
    · cases h
    · cases h
      exact Nat.le_trans hblanks (line_le_advanceBy _ _)
  · cases h
    exact hblanks

/-- White space moves the cursor to a later place. -/
theorem eq_of_skipSpace {fuel : Nat} : ∀ {s s' : Lexer}, s.skipSpace fuel = .ok s' →
    ∃ c b, s' = (s.move c).allowKey b ∧ s.cursor.line ≤ c.line := by
  have hadvance : ∀ c : Cursor, c.line ≤ c.advance.line := line_le_advanceBy 1
  induction fuel with
  | zero =>
    intro s s' h
    cases h
    exact ⟨s.cursor, s.keyAllowed, rfl, Nat.le_refl _⟩
  | succ fuel ih =>
    intro s s' h
    have hmoved : ∀ c b, s.cursor.line ≤ c.line → ((s.move c).allowKey b).skipSpace fuel = .ok s' →
        ∃ c b, s' = (s.move c).allowKey b ∧ s.cursor.line ≤ c.line := by
      intro c b hc hrest
      obtain ⟨c', b', rfl, hle⟩ := ih hrest
      exact ⟨c', b', rfl, Nat.le_trans hc hle⟩
    unfold skipSpace at h
    split at h
    · simp only at h
      split at h
      · exact hmoved _ s.keyAllowed (hadvance _) h
      · exact hmoved _ true (hadvance _) h
    · exact hmoved _ s.keyAllowed (line_le_advanceBy _ _) h
    · exact hmoved _ s.keyAllowed (hadvance _) h
    · split at h
      · obtain ⟨⟨blanks, c⟩, hskip, h⟩ := bind_eq_ok.1 h
        simp only at h
        split at h
        · exact hmoved c s.keyAllowed (line_le_skipToContent hskip) h
        · cases h
      · exact hmoved _ s.keyAllowed (hadvance _) h
    · cases h
      exact ⟨s.cursor, s.keyAllowed, rfl, Nat.le_refl _⟩

namespace Keeps

variable {ts : List Token} {s s' : Lexer}

theorem length_le (h : s.Keeps ts) : ts.length ≤ s.count := by
  obtain ⟨later, hlater⟩ := h.tokens
  rw [h.count, hlater, List.length_append]
  omega

theorem setKeys (h : s.Keeps ts) {ks : List PossibleKey}
    (hks : ∀ k ∈ ks, k.possible = true → ts.length ≤ k.number) :
    Keeps ts { s with keys := ks } := ⟨h.tokens, h.count, hks⟩

theorem move (h : s.Keeps ts) (c : Cursor) : (s.move c).Keeps ts := { h with }

theorem allowKey (h : s.Keeps ts) (b : Bool) : (s.allowKey b).Keeps ts := { h with }

theorem push (h : s.Keeps ts) (t : Token) : (s.push t).Keeps ts := by
  obtain ⟨later, hlater⟩ := h.tokens
  exact ⟨⟨t :: later, by simp [Lexer.push, hlater]⟩, by simp [Lexer.push, h.count], h.keys⟩

theorem insertAt (h : s.Keeps ts) {n : Nat} (hn : ts.length ≤ n) (t : Token) :
    (s.insertAt n t).Keeps ts := by
  obtain ⟨later, hlater⟩ := h.tokens
  have hle : s.count - n ≤ later.length := by
    rw [h.count, hlater, List.length_append]
    omega
  refine ⟨⟨later.take (s.count - n) ++ t :: later.drop (s.count - n), ?_⟩, ?_, h.keys⟩
  · simp only [Lexer.insertAt, hlater, List.take_append_of_le_length hle,
      List.drop_append_of_le_length hle]
    simp
  · simp only [Lexer.insertAt, List.length_append, List.length_cons, List.length_take,
      List.length_drop, h.count]
    omega

theorem unrollTo_tokens (column : Int) (is : List Indent) : ∀ (indent : Int) (us : List Token) (n : Nat),
    ∃ later, (unrollTo column indent is us n).2.2.1 = later ++ us ∧
      (unrollTo column indent is us n).2.2.2 = n + later.length := by
  induction is with
  | nil => exact fun _ us n => ⟨[], rfl, rfl⟩
  | cons i is ih =>
    intro indent us n
    rw [unrollTo]
    split
    · split
      · obtain ⟨later, htokens, hcount⟩ := ih i.outer (.blockEnd :: us) (n + 1)
        refine ⟨later ++ [.blockEnd], by simp [htokens], ?_⟩
        rw [hcount, List.length_append, List.length_singleton]
        omega
      · exact ih i.outer us n
    · exact ⟨[], rfl, rfl⟩

theorem unroll (h : s.Keeps ts) (column : Int) : (s.unroll column).Keeps ts := by
  rw [Lexer.unroll]
  split
  · exact h
  · obtain ⟨later, htokens, hcount⟩ := unrollTo_tokens column s.indents s.indent s.tokens s.count
    obtain ⟨before, hbefore⟩ := h.tokens
    refine ⟨⟨later ++ before, htokens.trans (by rw [hbefore, List.append_assoc])⟩, ?_, h.keys⟩
    show (unrollTo column s.indent s.indents s.tokens s.count).2.2.2
      = (unrollTo column s.indent s.indents s.tokens s.count).2.2.1.length
    rw [hcount, htokens, List.length_append, h.count, Nat.add_comm]

theorem dropOpenEnded (h : s.Keeps ts) : s.dropOpenEnded.Keeps ts := by
  simp only [Lexer.dropOpenEnded]
  split
  · exact h
  · exact { h with }

theorem rollOne (h : s.Keeps ts) : s.rollOne.Keeps ts := by
  rw [Lexer.rollOne]
  split
  · exact { h with }
  · exact h

theorem openBlock (h : s.Keeps ts) (column : Int) (at? : Option Nat) (t : Token) :
    (∀ n, at? = some n → ts.length ≤ n) → Keeps ts (if s.indent < column then
      match at? with
      | some n => Lexer.insertAt n t { s with indents := ⟨s.indent, true⟩ :: s.indents, indent := column }
      | none => Lexer.push t { s with indents := ⟨s.indent, true⟩ :: s.indents, indent := column }
    else s) := by
  intro hat
  have hopen : Keeps ts { s with indents := ⟨s.indent, true⟩ :: s.indents, indent := column } :=
    { h with }
  split
  · cases at? with
    | some n => exact hopen.insertAt (hat n rfl) t
    | none => exact hopen.push t
  · exact h

theorem roll (h : s.Keeps ts) (column : Int) {at? : Option Nat}
    (hat : ∀ n, at? = some n → ts.length ≤ n) (t : Token) : (s.roll column at? t).Keeps ts := by
  rw [Lexer.roll]
  split
  · exact h
  · refine Keeps.openBlock ?_ column at? t hat
    split
    · split
      · exact { h with }
      · exact h
    · exact h

theorem rollHere (h : s.Keeps ts) (column : Int) (t : Token) : (s.roll column none t).Keeps ts :=
  h.roll column (by simp) t

/-! ## Keys -/

theorem replaceKey (h : s.Keeps ts) (b : Bool) {k : PossibleKey}
    (hk : k.possible = true → ts.length ≤ k.number) :
    Keeps ts { s with keys := k :: s.keys.tail, keyAllowed := b } := by
  refine ⟨h.tokens, h.count, fun j hj => ?_⟩
  rcases List.mem_cons.1 hj with rfl | hj
  · exact hk
  · exact h.keys j (List.mem_of_mem_tail hj)

theorem saveKey (h : s.Keeps ts) : s.saveKey.Keeps ts := by
  rw [Lexer.saveKey]
  split
  · exact h.replaceKey s.keyAllowed fun _ => h.length_le
  · exact h

theorem removeKey (h : s.Keeps ts) (hs : s.removeKey = .ok s') : s'.Keeps ts := by
  unfold Lexer.removeKey at hs
  split at hs
  · next k ks hkeys =>
    split at hs
    · cases hs
    · cases hs
      have hgiven := h.replaceKey s.keyAllowed (k := k.giveUp) (by simp [PossibleKey.giveUp])
      rwa [hkeys] at hgiven
  · cases hs
    exact h

theorem eq_of_staleKey {j k : PossibleKey} (h : s.staleKey j = .ok k) : k = j ∨ k = j.giveUp := by
  rw [staleKey] at h
  split at h
  · split at h
    · cases h
    · exact .inr (Except.ok.inj h).symm
  · exact .inl (Except.ok.inj h).symm

theorem staleKeys (h : s.Keeps ts) (hs : s.staleKeys = .ok s') : s'.Keeps ts := by
  obtain ⟨ks, hks, heq⟩ := bind_eq_ok.1 hs
  cases heq
  refine h.setKeys fun k hk hpossible => ?_
  obtain ⟨j, hj, hstale⟩ := exists_of_mapM_eq_ok hks k hk
  obtain rfl | rfl := eq_of_staleKey hstale
  · exact h.keys k hj hpossible
  · exact absurd hpossible (by simp [PossibleKey.giveUp])

/-! ## White space -/

theorem skipSpace {fuel : Nat} (h : s.Keeps ts) (hs : s.skipSpace fuel = .ok s') : s'.Keeps ts := by
  obtain ⟨c, b, rfl, -⟩ := eq_of_skipSpace hs
  exact (h.move c).allowKey b

theorem skipToContent (h : s.Keeps ts) (hs : s.skipToContent = .ok s') : s'.Keeps ts := by
  obtain ⟨⟨_, c⟩, -, heq⟩ := bind_eq_ok.1 hs
  cases heq
  exact h.move c

theorem skipBlankLines {fuel : Nat} : ∀ {s : Lexer} (any : Bool), s.Keeps ts →
    (s.skipBlankLines fuel any).2.Keeps ts := by
  induction fuel with
  | zero => exact fun _ h => h
  | succ fuel ih =>
    intro s any h
    unfold Lexer.skipBlankLines
    split
    · refine ih true ?_
      split
      · exact h.move _
      · exact (h.move _).allowKey true
    · exact ih true (h.move _)
    · exact ih any (h.move _)
    · exact h

/-! ## Tokens -/

theorem endSinglePair (h : s.Keeps ts) : s.endSinglePair.Keeps ts := by
  rw [Lexer.endSinglePair]
  split
  · have hclosed : Keeps ts { s with inSinglePair := false, inFlowMapping := false } := { h with }
    exact hclosed.push .flowMappingEnd
  · exact h

theorem streamEnd (h : s.Keeps ts) (hs : s.streamEnd = .ok s') : s'.Keeps ts := by
  rw [Lexer.streamEnd] at hs
  split at hs
  · cases hs
  · cases hs
    have hkeys : Keeps ts { s with keys := s.keys.map PossibleKey.giveUp } := by
      refine h.setKeys fun k hk hpossible => ?_
      obtain ⟨j, -, rfl⟩ := List.mem_map.1 hk
      exact absurd hpossible (by simp [PossibleKey.giveUp])
    exact ((hkeys.unroll (-1)).allowKey false).push .streamEnd

theorem documentMarker (h : s.Keeps ts) {t : Token} (hs : s.documentMarker t = .ok s') :
    s'.Keeps ts := by
  obtain ⟨s₁, hs₁, heq⟩ := bind_eq_ok.1 hs
  cases heq
  exact ((((h.unroll (-1)).removeKey hs₁).allowKey false).move _).push t

theorem documentEnd (h : s.Keeps ts) (hs : s.documentEnd = .ok s') : s'.Keeps ts := by
  simp only [Lexer.documentEnd, bind_eq_ok] at hs
  obtain ⟨s₁, hs₁, s₂, hs₂, hs⟩ := hs
  split at hs
  · cases hs
    exact (h.documentMarker hs₁).skipToContent hs₂
  · cases hs

theorem directive (h : s.Keeps ts) (hs : s.directive = .ok s') : s'.Keeps ts := by
  simp only [Lexer.directive, bind_eq_ok] at hs
  obtain ⟨s₁, hs₁, ⟨d, c⟩, -, heq⟩ := hs
  cases heq
  exact ((((h.unroll (-1)).removeKey hs₁).allowKey false).move c).push _

theorem flowStart (h : s.Keeps ts) {t : Token} (hs : s.flowStart t = .ok s') : s'.Keeps ts := by
  rw [Lexer.flowStart] at hs
  split at hs
  · cases hs
  · obtain ⟨s₁, hs₁, heq⟩ := bind_eq_ok.1 hs
    cases heq
    refine (Keeps.skipToContent (Keeps.move ?_ _) hs₁).push t
    have hkeys := h.saveKey.rollOne.keys
    have hopen : ∀ k ∈ PossibleKey.none :: s.saveKey.rollOne.keys, k.possible = true →
        ts.length ≤ k.number := by
      refine List.forall_mem_cons.2 ⟨nofun, hkeys⟩
    split
    · exact { h.saveKey.rollOne with keys := hopen }
    · exact { h.saveKey.rollOne with keys := hopen }

theorem flowEnd (h : s.Keeps ts) {t : Token} (hs : s.flowEnd t = .ok s') : s'.Keeps ts := by
  simp only [Lexer.flowEnd, bind_eq_ok] at hs
  obtain ⟨s₁, hs₁, s₂, hs₂, heq⟩ := hs
  have h₁ := h.removeKey hs₁
  have hleft : Keeps ts (if s₁.inFlow then
      { s₁ with flowLevel := s₁.flowLevel - 1, keys := s₁.keys.tail } else s₁) := by
    split
    · exact { h₁ with keys := fun k hk => h₁.keys k (List.mem_of_mem_tail hk) }
    · exact h₁
  have h₂ := ((hleft.allowKey false).endSinglePair.move _).skipToContent hs₂
  cases heq
  refine Keeps.push ?_ t
  split
  · exact { h₂ with }
  · exact h₂

theorem flowEntry (h : s.Keeps ts) (hs : s.flowEntry = .ok s') : s'.Keeps ts := by
  simp only [Lexer.flowEntry, bind_eq_ok] at hs
  obtain ⟨s₁, hs₁, s₂, hs₂, heq⟩ := hs
  cases heq
  exact (((((h.removeKey hs₁).allowKey true).endSinglePair).move _).skipToContent hs₂).push _

theorem blockEntry (h : s.Keeps ts) (hs : s.blockEntry = .ok s') : s'.Keeps ts := by
  rw [Lexer.blockEntry] at hs
  split at hs
  · cases hs
  split at hs
  · cases hs
  simp only [bind_eq_ok] at hs
  obtain ⟨⟨blanks, c⟩, -, hs⟩ := hs
  simp only at hs
  split at hs
  · cases hs
  obtain ⟨s₁, hs₁, heq⟩ := bind_eq_ok.1 hs
  cases heq
  refine ((Keeps.removeKey ?_ hs₁).allowKey true).push _
  have hroll := ((h.move s.cursor.advance).rollHere s.column .blockSequenceStart).move c
  split
  · exact hroll.rollOne
  · exact hroll

theorem explicitKey (h : s.Keeps ts) (hs : s.explicitKey = .ok s') : s'.Keeps ts := by
  rw [Lexer.explicitKey] at hs
  split at hs
  · cases hs
  obtain ⟨s₁, hs₁, hs⟩ := bind_eq_ok.1 hs
  have h₁ : s₁.Keeps ts := by
    refine Keeps.removeKey ?_ hs₁
    split
    · exact { h with }
    · exact h.rollHere s.column .blockMappingStart
  have h₂ := ((h₁.allowKey (!s₁.inFlow)).move s₁.cursor.advance)
  simp only at hs
  split at hs
  · cases hs
  split at hs
  · cases hs
  cases hs
  exact (Keeps.skipBlankLines false h₂).push .key

theorem placeColon (h : s.Keeps ts) {key : PossibleKey} {line : Nat} {column : Int} {singlePair : Bool}
    (hkey : key.possible = true → ts.length ≤ key.number)
    (hs : s.placeColon key line column singlePair = .ok s') : s'.Keeps ts := by
  rw [Lexer.placeColon] at hs
  split at hs
  · next hpossible =>
    have hnumber := hkey hpossible
    split at hs
    · cases hs
    cases hs
    have hinsert : Keeps ts (if singlePair then
        (s.insertAt key.number .key).insertAt key.number .flowMappingStart
        else s.insertAt key.number .key) := by
      split
      · exact (h.insertAt hnumber .key).insertAt hnumber _
      · exact h.insertAt hnumber .key
    have hroll := (hinsert.roll key.column (fun n hn => Option.some.inj hn ▸ hnumber)
      .blockMappingStart).rollOne
    exact (hroll.replaceKey false (by simp [PossibleKey.giveUp])).push .value
  · have hsingle : Keeps ts (if singlePair then s.push .flowMappingStart else s) := by
      split
      · exact h.push _
      · exact h
    generalize (if singlePair then s.push .flowMappingStart else s) = s₁ at hs hsingle
    simp only at hs
    split at hs
    · cases hs
    cases hs
    exact (((hsingle.rollHere column .blockMappingStart).rollOne).allowKey _).push _

theorem value (h : s.Keeps ts) (hs : s.value = .ok s') : s'.Keeps ts := by
  have hkey : (s.keys.head?.getD .none).possible = true →
      ts.length ≤ (s.keys.head?.getD .none).number := by
    cases hkeys : s.keys with
    | nil => exact nofun
    | cons k ks => exact h.keys k (by simp [hkeys])
  have hstart : Keeps ts { s with
      inSinglePair := s.inFlow && !s.inFlowMapping, cursor := s.cursor.advance } := { h with }
  simp only [Lexer.value] at hs
  split at hs
  · obtain ⟨⟨blanks, c⟩, -, hs⟩ := bind_eq_ok.1 hs
    simp only at hs
    split at hs
    · cases hs
    · exact (hstart.move c).placeColon hkey hs
  · exact hstart.placeColon hkey hs

theorem property (h : s.Keeps ts) (t : Token) (c : Cursor) : (s.property t c).Keeps ts := by
  have hpush := ((h.saveKey.allowKey false).move c).push t
  unfold Lexer.property
  simp only
  split
  · exact hpush
  · exact { hpush with }

theorem anchor (h : s.Keeps ts) (hs : s.anchor = .ok s') : s'.Keeps ts := by
  obtain ⟨⟨name, c⟩, -, heq⟩ := bind_eq_ok.1 hs
  cases heq
  exact h.property _ c

theorem tag (h : s.Keeps ts) (hs : s.tag = .ok s') : s'.Keeps ts := by
  obtain ⟨⟨handle, name, c⟩, -, heq⟩ := bind_eq_ok.1 hs
  cases heq
  exact h.property _ c

theorem blockScalar (h : s.Keeps ts) {style : ScalarStyle} (hs : s.blockScalar style = .ok s') :
    s'.Keeps ts := by
  obtain ⟨⟨text, c⟩, -, heq⟩ := bind_eq_ok.1 hs
  cases heq
  exact (((h.saveKey.allowKey true).dropOpenEnded).move c).push _

theorem quotedScalar (h : s.Keeps ts) {style : ScalarStyle} (hs : s.quotedScalar style = .ok s') :
    s'.Keeps ts := by
  simp only [Lexer.quotedScalar, bind_eq_ok] at hs
  obtain ⟨⟨text, c⟩, -, s₁, hs₁, heq⟩ := hs
  cases heq
  have h₁ := ((h.saveKey.allowKey false).move c).skipSpace hs₁
  have hplaced : Keeps ts { s₁ with adjacentAt := some s₁.cursor.index } := { h₁ with }
  exact hplaced.push _

theorem plainScalar (h : s.Keeps ts) (hs : s.plainScalar = .ok s') : s'.Keeps ts := by
  obtain ⟨⟨text, c⟩, -, heq⟩ := bind_eq_ok.1 hs
  cases heq
  have hdrop := (h.saveKey.allowKey false).dropOpenEnded
  refine (Keeps.move ?_ c).push _
  split
  · exact hdrop.allowKey true
  · exact hdrop

theorem token (h : s.Keeps ts) {ch : Char} (hs : s.token ch = .ok s') : s'.Keeps ts := by
  unfold Lexer.token at hs
  simp only at hs
  split at hs
  · exact h.flowStart hs
  · exact h.flowStart hs
  · exact h.flowEnd hs
  · exact h.flowEnd hs
  · exact h.flowEntry hs
  · split at hs
    · exact h.blockEntry hs
    · exact h.plainScalar hs
  · split at hs
    · exact h.explicitKey hs
    · exact h.plainScalar hs
  · split at hs
    · exact h.value hs
    · exact h.plainScalar hs
  · exact h.anchor hs
  · exact h.anchor hs
  · exact h.tag hs
  · split at hs
    · exact h.plainScalar hs
    · exact h.blockScalar hs
  · split at hs
    · exact h.plainScalar hs
    · exact h.blockScalar hs
  · exact h.quotedScalar hs
  · exact h.quotedScalar hs
  · cases hs
  · cases hs
  · cases hs
  · exact h.plainScalar hs

theorem prepare (h : s.Keeps ts) (hs : s.prepare = .ok s') : s'.Keeps ts := by
  simp only [Lexer.prepare, bind_eq_ok] at hs
  obtain ⟨s₁, hs₁, s₂, hs₂, heq⟩ := hs
  cases heq
  exact ((h.skipSpace hs₁).staleKeys hs₂).unroll _

theorem dispatch (h : s.Keeps ts) {done : Bool} (hs : s.dispatch = .ok (s', done)) : s'.Keeps ts := by
  have hdone : ∀ {r : Except Fault Lexer} {b : Bool}, (∀ s₁, r = .ok s₁ → s₁.Keeps ts) →
      (do .ok (← r, b)) = Except.ok (s', done) → s'.Keeps ts := by
    intro r b hr heq
    obtain ⟨s₁, hs₁, heq⟩ := bind_eq_ok.1 heq
    cases heq
    exact hr _ hs₁
  unfold Lexer.dispatch at hs
  split at hs
  · exact hdone (fun _ => h.streamEnd) hs
  · split at hs
    · exact hdone (fun _ => h.directive) hs
    split at hs
    · exact hdone (fun _ => h.documentMarker) hs
    split at hs
    · exact hdone (fun _ => h.documentEnd) hs
    split at hs
    · cases hs
    · exact hdone (fun _ => h.token) hs

end Keeps

variable {s s' : Lexer} {ts us : List Token} {k : PossibleKey}

theorem prefix_of_keeps (h : s.Keeps ts) : ts.reverse <+: s.tokens.reverse := by
  obtain ⟨later, hlater⟩ := h.tokens
  rw [hlater, List.reverse_append]
  exact List.prefix_append _ _

/-- A run goes on behind its first step or ends there. -/
theorem exists_step_of_run {fuel : Nat} (hs : s.run (fuel + 1) = .ok us) :
    ∃ s₀ s₁ done, s.prepare = .ok s₀ ∧ s₀.dispatch = .ok (s₁, done) ∧
      (us = s₁.tokens.reverse ∨ s₁.run fuel = .ok us) := by
  rw [run, step_eq] at hs
  obtain ⟨⟨s₁, done⟩, hstep, hs⟩ := bind_eq_ok.1 hs
  obtain ⟨s₀, hprepare, hdispatch⟩ := bind_eq_ok.1 hstep
  refine ⟨s₀, s₁, done, hprepare, hdispatch, ?_⟩
  simp only at hs
  split at hs
  · exact .inl (Except.ok.inj hs).symm
  · exact .inr hs

/-- The tokens begin with those in front of all possible keys. -/
theorem run_keeps {fuel : Nat} : ∀ {s : Lexer}, s.Keeps ts → s.run fuel = .ok us →
    ts.reverse <+: us := by
  induction fuel with
  | zero =>
    intro s h hs
    cases hs
    exact prefix_of_keeps h
  | succ fuel ih =>
    intro s h hs
    obtain ⟨s₀, s₁, done, hprepare, hdispatch, hrest⟩ := exists_step_of_run hs
    have h₁ := (h.prepare hprepare).dispatch hdispatch
    rcases hrest with rfl | hrest
    · exact prefix_of_keeps h₁
    · exact ih h₁ hrest

/-- A key of a block is given up behind its line. -/
theorem giveUp_of_staleKeys (hflow : s.inFlow = false)
    (hkeys : s.keys = [k]) (hk : k.possible = true → k.line < s.cursor.line)
    (hs : s.staleKeys = .ok s') : ∀ j ∈ s'.keys, j.possible = false := by
  obtain ⟨ks, hks, heq⟩ := bind_eq_ok.1 hs
  cases heq
  intro j hj
  obtain ⟨i, hi, hstale⟩ := exists_of_mapM_eq_ok hks j hj
  obtain rfl : i = k := by simpa [hkeys] using hi
  cases hpossible : i.possible with
  | false =>
    rcases Keeps.eq_of_staleKey hstale with rfl | rfl
    · exact hpossible
    · rfl
  | true =>
    rw [staleKey, if_pos (by simp [hpossible, hflow, hk hpossible])] at hstale
    split at hstale
    · cases hstale
    · cases hstale
      rfl

/-- All tokens stay where the only possible key stands on an earlier line. -/
theorem run_keeps_of_line {L : Level} {fuel : Nat} (h : s.InBlock L ts) (hkeys : s.keys = [k])
    (hk : k.possible = true → k.line < s.cursor.line) (hs : s.run fuel = .ok us) :
    ts.reverse <+: us := by
  cases fuel with
  | zero =>
    cases hs
    exact h.tokens ▸ List.prefix_rfl
  | succ fuel =>
    obtain ⟨s₀, s₁, done, hprepare, hdispatch, hrest⟩ := exists_step_of_run hs
    simp only [prepare, bind_eq_ok] at hprepare
    obtain ⟨s₂, hskip, s₃, hstale, heq⟩ := hprepare
    obtain ⟨c, b, rfl, hline⟩ := eq_of_skipSpace hskip
    have hblock := (h.move c).allowKey b
    have hnot := giveUp_of_staleKeys hblock.inFlow hkeys
      (fun hpossible => Nat.lt_of_lt_of_le (hk hpossible) hline) hstale
    have hkeeps : s₃.Keeps ts := by
      obtain ⟨ks, -, heq⟩ := bind_eq_ok.1 hstale
      cases heq
      exact ⟨⟨[], hblock.tokens⟩, by rw [hblock.count, hblock.tokens],
        fun j hj hpossible => by simp [hnot j hj] at hpossible⟩
    cases heq
    have h₁ := (hkeeps.unroll _).dispatch hdispatch
    rcases hrest with rfl | hrest
    · exact prefix_of_keeps h₁
    · exact run_keeps h₁ hrest

end WorkspaceTrust.Yaml.Lexer
