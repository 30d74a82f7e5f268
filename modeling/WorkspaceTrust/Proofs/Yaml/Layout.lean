import WorkspaceTrust.Proofs.Yaml.Scalar

/-!
# The tokens between scalars

For everything else that is written there is a step as well: hyphens of
items, keys with their colons in both forms, empty collections, the start
of a document and the end of the stream. Where a mapping or a sequence
begins, the step opens a level (`Level.enter`); where it ends, the line
behind it closes the level (`Spot.ofLine`).

A simple key is known for a key only at its colon, so its scalar and its
colon are taken together (`yields_simpleKey`).
-/

namespace WorkspaceTrust.Yaml

open ScalarStyle

/-- The level and the tokens behind the beginning of an item or a key at a column: a
collection starts there unless it is that of the level. -/
def Level.enter (column : Nat) (start : Token) (P : Level) (ts : List Token) :
    Level × List Token :=
  if P.indent < column then (P.nested column, start :: ts) else (P, ts)

/-- An item or a key may begin at the column: deeper than the collection around it, or in
it if it is one of the right kind. -/
def Level.Enters (column : Nat) (P L : Level) : Prop :=
  P.Opens L ∧ (P.indent < column ∨ P.indent = column ∧ L = P ∧ P.Closes)

theorem Level.Enters.indent_le {column : Nat} {P L : Level} (h : P.Enters column L) :
    L.indent ≤ column := by
  obtain ⟨hopens, hlt | ⟨heq, rfl, -⟩⟩ := h
  · rcases hopens with hP | ⟨rfl, -⟩
    · exact hP.indent_le hlt
    · exact Int.le_of_lt hlt
  · exact Int.le_of_eq heq

namespace Lexer

variable {s : Lexer} {P L : Level} {ts : List Token} {column : Nat}

theorem holds_enter (h : P.Enters column L) (start : Token) (ts : List Token) :
    (P.enter column start ts).1.Holds (P.enter column start ts).1 := by
  rw [Level.enter]
  split
  · exact ⟨Level.closes_nested _ _, .inl rfl⟩
  · next hlt =>
    rcases h.2 with h | ⟨-, -, h⟩
    · exact absurd h hlt
    · exact ⟨h, .inl rfl⟩

theorem indent_enter (h : P.Enters column L) (start : Token) (ts : List Token) :
    (P.enter column start ts).1.indent = column := by
  rw [Level.enter]
  split
  · rfl
  · next hlt =>
    rcases h.2 with h | ⟨h, -⟩
    · exact absurd h hlt
    · exact h

/-- The beginning of an item or a key: the token of its collection comes last. -/
theorem InBlock.enter (hs : s.InBlock L ts) (h : P.Enters column L) (start : Token) :
    (s.roll column none start).InBlock (P.enter column start ts).1 (P.enter column start ts).2 ∧
      (s.roll column none start).keys = s.keys ∧ (s.roll column none start).cursor = s.cursor ∧
      (s.roll column none start).limit = s.limit ∧
      (s.roll column none start).keyAllowed = s.keyAllowed := by
  rw [Level.enter]
  rcases h.2 with hlt | ⟨heq, rfl, hclose⟩
  · rw [hs.roll_of_lt h.1 hlt, if_pos hlt]
    exact ⟨(hs.setLevel _).push start, rfl, rfl, rfl, rfl⟩
  · rw [hs.roll_of_eq hclose heq, if_neg (by omega)]
    exact ⟨hs, rfl, rfl, rfl, rfl⟩

/-- The same behind the tokens of a key. -/
theorem InBlock.enter_at {later : List Token} (hs : s.InBlock L (later ++ ts))
    (h : P.Enters column L) (start : Token) :
    (s.roll column (some ts.length) start).InBlock (P.enter column start ts).1
        (later ++ (P.enter column start ts).2) ∧
      (s.roll column (some ts.length) start).keys = s.keys ∧
      (s.roll column (some ts.length) start).cursor = s.cursor ∧
      (s.roll column (some ts.length) start).limit = s.limit := by
  rw [Level.enter]
  rcases h.2 with hlt | ⟨heq, rfl, hclose⟩
  · rw [hs.roll_of_lt h.1 hlt, if_pos hlt]
    exact ⟨(hs.setLevel _).insertAt start, rfl, rfl, rfl⟩
  · rw [hs.roll_of_eq hclose heq, if_neg (by omega)]
    exact ⟨hs, rfl, rfl, rfl⟩

/-! ## Items -/

theorem removeKey_of_not {k : PossibleKey} (hkeys : s.keys = [k]) (hk : k.possible = false) :
    s.removeKey = .ok { s with keys := [k.giveUp] } := by
  rw [removeKey, hkeys]
  simp [hk]

/-- The hyphen of an item. Brackets behind it stand deeper. -/
theorem dispatch_item {x : Spot} {content : List Char} (h : s.At x)
    (hx : x.body = '-' :: ' ' :: content) (hcontent : Starts content)
    (hallowed : x.keyAllowed = true) (henter : P.Enters x.column x.level) :
    ∃ s' M, s.dispatch = .ok (s', false) ∧
      (P.enter x.column .blockSequenceStart x.tokens).1.Holds M ∧
      s'.Reaches ⟨content, x.column + 2,
        .blockEntry :: (P.enter x.column .blockSequenceStart x.tokens).2, true, M⟩ := by
  obtain ⟨k, hk, hnot⟩ := h.key
  have hrest := h.rest.trans hx
  have hadv := Cursor.advance_of_char hrest (by decide)
  have hcolumn : s.column = x.column := by rw [column, h.column]
  have hQ := holds_enter henter .blockSequenceStart x.tokens
  have hindent := indent_enter henter .blockSequenceStart x.tokens
  obtain ⟨hb, hkeys, hcursor, hlimit, -⟩ :=
    (h.block.move s.cursor.advance).enter henter .blockSequenceStart
  generalize hs₁ : (s.move s.cursor.advance).roll x.column none .blockSequenceStart = s₁ at *
  generalize P.enter x.column .blockSequenceStart x.tokens = Q at *
  have hrest₁ : s₁.cursor.rest = spaces 1 ++ content := by rw [hcursor, move, hadv]; rfl
  have hskip := Cursor.skipToContent_spaces hrest₁ fun ch tail heq =>
    ⟨(hcontent ch tail heq).1, (hcontent ch tail heq).2.2⟩
  obtain ⟨c, hc⟩ : ∃ c : Cursor, c = ⟨content, s₁.cursor.index + 1, s₁.cursor.line,
    s₁.cursor.column + 1, s₁.cursor.fresh⟩ := ⟨_, rfl⟩
  rw [← hc] at hskip
  have hcrest : c.rest = content := by rw [hc]
  have hccolumn : c.column = x.column + 2 := by
    rw [hc, hcursor, move, hadv]
    simp [h.column]
  obtain ⟨s₂, hs₂⟩ : ∃ s₂, s₂ = if c.peek.any fun ch => ch = '\n' || isFlowIndicator ch then
      (s₁.move c).rollOne else s₁.move c := ⟨_, rfl⟩
  have hM : ∃ M, Q.1.Holds M ∧ s₂ = (s₁.move c).setLevel M := by
    rw [hs₂, (hb.move c).rollOne hQ]
    split
    · exact ⟨Q.1.loose, ⟨hQ.1, .inr rfl⟩, rfl⟩
    · exact ⟨Q.1, hQ, ((hb.move c).setLevel_self).symm⟩
  obtain ⟨M, hM, rfl⟩ := hM
  have hb₂ := (hb.move c).setLevel M
  have hkeys₂ : ((s₁.move c).setLevel M).keys = [k] := hkeys.trans hk
  have htoken : s.token '-' = .ok ((Lexer.allowKey true
      { (s₁.move c).setLevel M with keys := [k.giveUp] }).push .blockEntry) := by
    have hspaced : isSpaceOrEnd s.cursor.peekNext = true := by simp [Cursor.peekNext, hrest, isSpaceOrEnd]
    show (if isSpaceOrEnd s.cursor.peekNext then s.blockEntry else s.plainScalar) = _
    rw [hspaced, if_pos rfl, blockEntry]
    rw [if_neg (by simp [h.block.inFlow, h.keyAllowed, hallowed]),
      if_neg (by simp [h.block.propertyAtMargin])]
    simp only [hcolumn, hs₁, hskip, ok_bind]
    rw [if_neg (by simp [spaces]), ← hs₂, removeKey_of_not hkeys₂ hnot]
    rfl
  refine ⟨_, M, dispatch_token h hx (fun _ => ⟨by decide, ?_⟩) henter.indent_le htoken, hM, ?_⟩
  · exact Cursor.atDocumentMarker_of_second hrest (by decide)
  · have hMindent : M.indent ≤ (c.column : Nat) := by
      have := hM.indent_le (by omega : Q.1.indent < (x.column + 1 : Nat))
      omega
    have hlen : c.rest.length < s₁.limit := by
      have := h.limit
      rw [hx] at this
      rw [hcrest, hlimit]
      exact Nat.lt_of_succ_lt (Nat.lt_of_succ_lt this)
    have hreach := reaches_of_inline (n := 0) hcontent
      (((hb₂.setKeys [k.giveUp]).allowKey true).push .blockEntry) rfl rfl hcrest hlen hMindent
    rw [← hccolumn]
    exact hreach

/-! ## Keys on one line -/

/-- The lexer is in front of the colon of a simple key whose scalar it has just read. -/
structure AtColon (s : Lexer) (column : Nat) (L : Level) (ts : List Token) (t : Token)
    (rest : List Char) : Prop where
  block : s.InBlock L (t :: ts)
  text : s.cursor.rest = ':' :: rest
  behind : column < s.cursor.column
  key : ∃ k, s.keys = [k] ∧ k.possible = true ∧ k.number = ts.length ∧ k.column = column ∧
    k.line = s.cursor.line ∧ s.cursor.index ≤ k.index + 1024
  limit : rest.length + 1 < s.limit

/-- The colon of a simple key: the token of the key and that of a mapping that starts there
are put in. -/
theorem dispatch_simpleColon {t : Token} {rest : List Char} (h : s.AtColon column L ts t rest)
    (henter : P.Enters column L) (hrest : isSpaceOrEnd rest.head? = true)
    (htab : rest.head? ≠ some '\t') : ∃ s' k, s.dispatch = .ok (s', false) ∧
      s'.InBlock (P.enter column .blockMappingStart ts).1.loose
        (.value :: t :: .key :: (P.enter column .blockMappingStart ts).2) ∧
      s.cursor.Passed [':'] rest s'.cursor ∧ s'.keys = [k] ∧ k.possible = false ∧
      s'.keyAllowed = false ∧ s'.limit = s.limit := by
  obtain ⟨k, hk, hpossible, hnumber, hcolumn, -, -⟩ := h.key
  have hpassed : s.cursor.Passed [':'] rest s.cursor.advance :=
    Cursor.passed_past h.text (by decide)
  have hQ := holds_enter henter .blockMappingStart ts
  have hmove : { s with inSinglePair := false, cursor := s.cursor.advance }
      = s.move s.cursor.advance := by
    rw [move, ← h.block.inSinglePair]
  have hb₀ : InBlock _ L ([t] ++ ts) := h.block.move s.cursor.advance
  have hb₁ : InBlock _ L ([t, .key] ++ ts) := hb₀.insertAt .key
  obtain ⟨hb₂, hkeys, hcursor, hlimit⟩ := hb₁.enter_at henter .blockMappingStart
  generalize hs₁ : ((s.move s.cursor.advance).insertAt ts.length .key).roll column (some ts.length)
    .blockMappingStart = s₁ at *
  have hroll := hb₂.rollOne hQ
  have hb := (hb₂.setLevel (P.enter column .blockMappingStart ts).1.loose).setKeys
    (k.giveUp :: s₁.keys.tail)
  have hhead : s.keys.head?.getD .none = k := by rw [hk]; rfl
  have htail : s₁.keys.tail = [] := by rw [hkeys]; simp [insertAt, move, hk]
  have htoken : s.token ':' = .ok ((Lexer.allowKey false { s₁.setLevel
      (P.enter column .blockMappingStart ts).1.loose with
        keys := k.giveUp :: s₁.keys.tail }).push .value) := by
    have hspaced : isSpaceOrEnd s.cursor.peekNext = true := by
      simpa [Cursor.peekNext, h.text] using hrest
    have hpeek : s.cursor.advance.peek ≠ some '\t' := by
      rwa [Cursor.peek, hpassed.rest]
    show (if isSpaceOrEnd s.cursor.peekNext || _ then s.value else s.plainScalar) = _
    rw [hspaced, Bool.true_or, if_pos rfl, value]
    simp only [hhead, h.block.inFlow, Bool.false_and, hmove]
    rw [if_neg (by simpa [move] using hpeek)]
    simp only [ok_bind, hpossible, if_true, Bool.false_eq_true, if_false, hcolumn, hnumber, hs₁, hroll]
    rfl
  have hcolumn' : s.indent ≤ s.cursor.column := by
    have := henter.indent_le
    have := h.behind
    rw [h.block.indent]
    omega
  refine ⟨_, k.giveUp, dispatch_of_token h.text (fun hzero => ?_) hcolumn' htoken,
    (hb.allowKey false).push .value, ?_, ?_, rfl, rfl, hlimit⟩
  · exact absurd h.behind (by omega)
  · show s.cursor.Passed [':'] rest s₁.cursor
    rw [hcursor]
    exact hpassed
  · show k.giveUp :: s₁.keys.tail = [k.giveUp]
    rw [htail]

/-- The possible key that is remembered where a key may start. -/
theorem saveKey_of_allowed {x : Spot} (h : s.At x) (hallowed : x.keyAllowed = true) :
    ∃ k, s.saveKey.keys = [k] ∧ k.possible = true ∧ k.number = x.tokens.length ∧
      k.column = x.column ∧ k.line = s.cursor.line ∧ k.index = s.cursor.index := by
  obtain ⟨k, hk, -⟩ := h.key
  rw [saveKey, if_pos (h.keyAllowed.trans hallowed), hk]
  exact ⟨_, rfl, rfl, h.block.count, h.column, rfl, rfl⟩

theorem atDocumentMarker_of_text {cs tail : List Char} {c : Cursor}
    (hc : c.rest = cs ++ ':' :: tail) (h : startsLikeMarker cs = false) :
    c.atDocumentMarker = false := by
  rw [Cursor.atDocumentMarker, Cursor.atMarker, Cursor.atMarker, hc]
  rcases cs with _ | ⟨a, _ | ⟨b, _ | ⟨d, cs⟩⟩⟩
  · rcases tail with _ | ⟨d, _ | ⟨e, tail⟩⟩ <;> simp
  · cases tail <;> simp
  · simp
  · simp only [startsLikeMarker, Bool.or_eq_false_iff] at h
    simp only [List.cons_append, h.1, h.2, Bool.false_and, Bool.or_self, Bool.and_false]

theorem dispatch_plainKey {x : Spot} {cs rest : List Char} (h : s.At x)
    (hallowed : x.keyAllowed = true) (henter : P.Enters x.column x.level)
    (hlen : cs.length ≤ 1024) (hgap : isSpaceOrEnd rest.head? = true)
    (hstyle : ofText cs = .plain) (hx : x.body = cs ++ ':' :: rest) :
    ∃ s', s.dispatch = .ok (s', false) ∧ P.Enters x.column P ∧
      s'.AtColon x.column P x.tokens (.scalar .plain (String.ofList cs)) rest := by
  obtain ⟨k, hk, hpossible, hnumber, hcolumn, hline, hindex⟩ := saveKey_of_allowed h hallowed
  have hfit := (fitsPlain_of_ofText hstyle).1
  have hmarker : startsLikeMarker cs = false := by
    simp only [fitsPlain, Bool.and_eq_true, Bool.not_eq_true'] at hfit
    exact hfit.1.1.1.1.2
  have hP : P.Enters x.column P := by
    obtain ⟨hopens, hlt⟩ := henter
    refine ⟨?_, hlt.imp id fun h => ⟨h.1, rfl, h.2.2⟩⟩
    rcases hopens with hP | ⟨-, hroot⟩
    · exact .inl ⟨hP.1, .inl rfl⟩
    · exact .inr ⟨rfl, hroot⟩
  have hrest := h.rest.trans hx
  have hmargin := atDocumentMarker_of_text hrest hmarker
  have hlimit := h.limit
  rw [hx, List.length_append, List.length_cons] at hlimit
  have hdrop := (h.block.saveKey.allowKey false).dropOpenEnded henter.1
  have hblock := (h.block.saveKey.allowKey false).setLevel P
  have hindent : P.indent ≤ s.cursor.column := by
    rw [h.column]
    exact hP.indent_le
  obtain ⟨c', hread, hpassed⟩ := readPlain_key (plainText_of_plain hstyle) hrest hgap
    (by omega : cs.length ≤ s.limit) hindent hmargin
  obtain ⟨c, cs, rfl⟩ := List.exists_cons_of_ne_nil (ne_nil_of_plain hstyle)
  have hcursor : ((s.saveKey.allowKey false).setLevel P).cursor = s.cursor := cursor_saveKey
  have hlimit' : ((s.saveKey.allowKey false).setLevel P).limit = s.limit := limit_saveKey
  have hkeys : ((s.saveKey.allowKey false).setLevel P).keys = [k] := hk
  generalize (s.saveKey.allowKey false).setLevel P = s₀ at *
  obtain ⟨b, hb⟩ : ∃ b, (if c'.fresh then s₀.allowKey true else s₀) = s₀.allowKey b := by
    cases c'.fresh
    · exact ⟨s₀.keyAllowed, rfl⟩
    · exact ⟨true, rfl⟩
  have htoken : s.token c = .ok (((s₀.allowKey b).move c').push
      (.scalar .plain (String.ofList (c :: cs)))) := by
    rw [token_plain h.block.inFlow hfit hrest, plainScalar, hdrop]
    simp only [hblock.inFlow, hblock.indent, hcursor, hlimit', hread, ok_bind, hb]
  have hpercent : c ≠ '%' := by
    rintro rfl
    simp [fitsPlain, startsWithIndicator] at hfit
  refine ⟨_, dispatch_token h hx (fun _ => ⟨hpercent, hmargin⟩) henter.indent_le htoken, hP,
    ((hblock.allowKey b).move c').push _, hpassed.rest, ?_, ⟨k, hkeys, hpossible, hnumber, hcolumn,
      hline.trans hpassed.line.symm, ?_⟩, ?_⟩
  · show x.column < c'.column
    rw [hpassed.column, h.column, List.length_cons]
    omega
  · show c'.index ≤ k.index + 1024
    rw [hpassed.index, hindex]
    omega
  · show rest.length + 1 < s₀.limit
    rw [hlimit']
    simp only [List.length_cons] at hlimit
    omega

theorem dispatch_quotedKey {x : Spot} {cs rest : List Char} {double : Bool}
    {code : Char → List Char} (h : s.At x) (hallowed : x.keyAllowed = true)
    (henter : P.Enters x.column x.level) (hcodes : ∀ c ∈ cs, Codes double code c)
    (hlen : (cs.flatMap code).length + 2 ≤ 1024)
    (hx : x.body = quote double :: (cs.flatMap code ++ quote double :: ':' :: rest)) :
    ∃ s', s.dispatch = .ok (s', false) ∧ s'.AtColon x.column x.level x.tokens
      (.scalar (if double then .doubleQuoted else .singleQuoted) (String.ofList cs)) rest := by
  obtain ⟨k, hk, hpossible, hnumber, hcolumn, hline, hindex⟩ := saveKey_of_allowed h hallowed
  have hrest := h.rest.trans hx
  have hmarker : s.cursor.atDocumentMarker = false :=
    Cursor.atDocumentMarker_of_first hrest (by cases double <;> decide)
  have hlimit := h.limit
  rw [hx] at hlimit
  simp only [List.length_cons, List.length_append] at hlimit
  have hcodelen := length_le_flatMap hcodes
  have hblock := h.block.saveKey.allowKey false
  have hindent : x.level.indent ≤ s.cursor.column := by
    rw [h.column]
    exact henter.indent_le
  obtain ⟨c, hread, hpassed⟩ := readQuoted_codes hcodes (.inr rfl) hrest
    (by omega : cs.length < s.limit) hindent
  have hcursor : (s.saveKey.allowKey false).cursor = s.cursor := cursor_saveKey
  have hlimit' : (s.saveKey.allowKey false).limit = s.limit := limit_saveKey
  have hkeys : (s.saveKey.allowKey false).keys = [k] := hk
  generalize hs₀ : s.saveKey.allowKey false = s₀ at *
  have hstarts : Starts (s₀.move c).cursor.rest := by
    show Starts c.rest
    rw [hpassed.rest]
    intro ch tail heq
    obtain ⟨rfl, -⟩ := List.cons.inj heq
    decide
  have htoken : s.token (quote double) = .ok (push (.scalar (if double then .doubleQuoted
      else .singleQuoted) (String.ofList cs))
      { s₀.move c with adjacentAt := some (s₀.move c).cursor.index }) := by
    rw [quote_token, quotedScalar]
    simp only [hs₀, hblock.inFlow, hblock.indent, hcursor, hlimit', hread, ok_bind,
      skipSpace_of_content hstarts]
  have hblock' : InBlock { s₀.move c with adjacentAt := some (s₀.move c).cursor.index } x.level
      x.tokens := { hblock with }
  refine ⟨_, dispatch_token h hx (fun _ => ⟨by cases double <;> decide, hmarker⟩)
    henter.indent_le htoken, hblock'.push _, hpassed.rest, ?_, ⟨k, hkeys, hpossible, hnumber,
      hcolumn, hline.trans hpassed.line.symm, ?_⟩, ?_⟩
  · show x.column < c.column
    rw [hpassed.column, h.column, List.length_cons]
    omega
  · show c.index ≤ k.index + 1024
    rw [hpassed.index, hindex]
    simp only [List.length_cons, List.length_append, List.length_nil]
    omega
  · show rest.length + 1 < s₀.limit
    rw [hlimit']
    omega

/-- The scalar of a simple key. -/
theorem dispatch_simpleKey {x : Spot} {cs rest : List Char} {n : Nat} (h : s.At x)
    (hallowed : x.keyAllowed = true) (henter : P.Enters x.column x.level)
    (hsimple : isSimpleKey cs = true) (hgap : isSpaceOrEnd rest.head? = true)
    (hx : x.body = writeInline n cs ++ ':' :: rest) :
    ∃ s' L, s.dispatch = .ok (s', false) ∧ P.Enters x.column L ∧
      s'.AtColon x.column L x.tokens (.scalar (ofText cs) (String.ofList cs)) rest := by
  have hlen := length_writeInline_le n hsimple
  cases hstyle : ofText cs with
  | plain =>
    rw [writeInline_plain n hstyle] at hx hlen
    obtain ⟨s', hs', henter', hcolon⟩ := s.dispatch_plainKey h hallowed henter hlen hgap hstyle hx
    exact ⟨s', P, hs', henter', hcolon⟩
  | singleQuoted =>
    rw [writeInline_single n hstyle, padded_of_line (line_of_isSimpleKey hsimple)] at hx hlen
    have hcodes := codes_of_singleQuoted n hstyle
    rw [padded_of_line (line_of_isSimpleKey hsimple)] at hcodes
    obtain ⟨s', hs', hcolon⟩ := s.dispatch_quotedKey h hallowed henter hcodes
      (by simp only [List.length_cons, List.length_append, List.length_nil] at hlen; omega)
      (by simpa using hx)
    exact ⟨s', x.level, hs', henter, hcolon⟩
  | doubleQuoted =>
    rw [writeInline_double n hstyle] at hx hlen
    obtain ⟨s', hs', hcolon⟩ := s.dispatch_quotedKey h hallowed henter (fun c _ => codes_double c)
      (by simp only [List.length_cons, List.length_append, List.length_nil] at hlen; omega)
      (by simpa using hx)
    exact ⟨s', x.level, hs', henter, hcolon⟩
  | literal => exact absurd hstyle (ofText_ne_literal hsimple)
  | folded => exact absurd hstyle ofText_ne_folded

/-! ## Keys with a question mark -/

theorem skipBlankLines_space {fuel : Nat} {content : List Char} (hcontent : Starts content)
    (hc : s.cursor.rest = ' ' :: content) :
    s.skipBlankLines (fuel + 1) false = (true, s.move s.cursor.advance) := by
  have hadv := Cursor.advance_of_char hc (by decide)
  rw [skipBlankLines, hc]
  show skipBlankLines fuel (s.move s.cursor.advance) true = _
  cases fuel with
  | zero => rfl
  | succ fuel =>
    have hrest : (s.move s.cursor.advance).cursor.rest = content := by simp [move, hadv]
    unfold skipBlankLines
    split
    · next heq => exact absurd rfl (hcontent _ _ (hrest.symm.trans heq)).2.1
    · next heq => exact absurd (hcontent _ _ (hrest.symm.trans heq)).1 (by decide)
    · next heq => exact absurd rfl (hcontent _ _ (hrest.symm.trans heq)).2.2
    · rfl

/-- The question mark in front of a key. -/
theorem dispatch_explicitKey {x : Spot} {content : List Char} (h : s.At x)
    (hx : x.body = '?' :: ' ' :: content) (hcontent : Starts content)
    (hallowed : x.keyAllowed = true) (henter : P.Enters x.column x.level) :
    ∃ s', s.dispatch = .ok (s', false) ∧
      s'.Reaches ⟨content, x.column + 2,
        .key :: (P.enter x.column .blockMappingStart x.tokens).2, true,
        (P.enter x.column .blockMappingStart x.tokens).1⟩ := by
  obtain ⟨k, hk, hnot⟩ := h.key
  have hrest := h.rest.trans hx
  have hcolumn : s.column = x.column := by rw [column, h.column]
  have hlimit := h.limit
  rw [hx, List.length_cons, List.length_cons] at hlimit
  have hindent := indent_enter henter .blockMappingStart x.tokens
  obtain ⟨hb, hkeys, hcursor, hlim, -⟩ := h.block.enter henter .blockMappingStart
  generalize hs₁ : s.roll x.column none .blockMappingStart = s₁ at *
  generalize P.enter x.column .blockMappingStart x.tokens = Q at *
  have hrest₁ : s₁.cursor.rest = '?' :: (spaces 1 ++ content) := hcursor ▸ hrest
  have hadv := Cursor.advance_of_char hrest₁ (by decide)
  have hremove := removeKey_of_not (hkeys.trans hk) hnot
  have hb₂ := ((hb.setKeys [k.giveUp]).allowKey true).move s₁.cursor.advance
  obtain ⟨s₂, hs₂⟩ : ∃ s₂, s₂ =
    move s₁.cursor.advance (allowKey true { s₁ with keys := [k.giveUp] }) := ⟨_, rfl⟩
  rw [← hs₂] at hb₂
  have hrest₂ : s₂.cursor.rest = ' ' :: content := by rw [hs₂, move, hadv]; rfl
  have hcolumn₂ : s₂.cursor.column = x.column + 1 := by
    rw [hs₂, move, hadv, hcursor, h.column]
  have hlimit₂ : s₂.limit = s.limit := by rw [hs₂]; exact hlim
  have hskip : s₂.skipBlankLines s₁.limit false = (true, s₂.move s₂.cursor.advance) := by
    obtain ⟨fuel, hfuel⟩ : ∃ fuel, s₁.limit = fuel + 1 := ⟨s₁.limit - 1, by omega⟩
    rw [hfuel, skipBlankLines_space hcontent hrest₂]
  have hadv₂ := Cursor.advance_of_char hrest₂ (by decide)
  have hpeek : (s₂.move s₂.cursor.advance).cursor.peek ≠ some '\t' := by
    rw [move, hadv₂]
    intro heq
    obtain ⟨tail, rfl⟩ : ∃ tail, content = '\t' :: tail := List.head?_eq_some_iff.1 heq
    exact absurd (hcontent _ _ rfl).1 (by decide)
  have htoken : s.token '?' = .ok ((s₂.move s₂.cursor.advance).push .key) := by
    have hspaced : isSpaceOrEnd s.cursor.peekNext = true := by
      simp [Cursor.peekNext, hrest, isSpaceOrEnd]
    show (if isSpaceOrEnd s.cursor.peekNext then s.explicitKey else s.plainScalar) = _
    rw [hspaced, if_pos rfl, explicitKey]
    rw [if_neg (by simp [h.block.inFlow, h.keyAllowed, hallowed])]
    have hflow : Lexer.inFlow { s₁ with keys := [k.giveUp] } = false := hb.inFlow
    simp only [h.block.inFlow, Bool.false_eq_true, if_false, hcolumn, hs₁, hremove, ok_bind,
      hflow, Bool.not_false]
    have hs₂' := hs₂
    simp only [allowKey, move] at hs₂' ⊢
    simp only [← hs₂', hskip, Bool.not_true, Bool.false_eq_true, if_false, if_neg hpeek]
    rfl
  refine ⟨_, dispatch_token h hx (fun _ => ⟨by decide, ?_⟩) henter.indent_le htoken, ?_⟩
  · exact Cursor.atDocumentMarker_of_second hrest (by decide)
  · have hc : (s₂.move s₂.cursor.advance).cursor.rest = content := by rw [move, hadv₂]
    have hcol : (s₂.move s₂.cursor.advance).cursor.column = x.column + 2 := by
      rw [move, hadv₂]
      simp [hcolumn₂]
    have hreach := reaches_of_inline (n := 0) hcontent ((hb₂.move s₂.cursor.advance).push .key)
      (by rw [hs₂]; rfl) rfl hc (by
        show (s₂.move s₂.cursor.advance).cursor.rest.length < s₂.limit
        rw [hc]
        omega) (by
        show Q.1.indent ≤ (s₂.move s₂.cursor.advance).cursor.column
        rw [hcol]
        omega)
    rw [← hcol]
    have hkeyAllowed : ((s₂.move s₂.cursor.advance).push .key).keyAllowed = true := by
      rw [hs₂]
      rfl
    rw [hkeyAllowed] at hreach
    exact hreach

/-- The colon on a line of its own in front of the value of such a key. -/
theorem dispatch_explicitColon {x : Spot} {content : List Char} (h : s.At x)
    (hx : x.body = ':' :: ' ' :: content) (hcontent : Starts content)
    (hallowed : x.keyAllowed = true) (hclose : x.level.Closes)
    (hcolumn : x.level.indent = x.column) :
    ∃ s', s.dispatch = .ok (s', false) ∧
      s'.Reaches ⟨content, x.column + 2, .value :: x.tokens, true, x.level.loose⟩ := by
  obtain ⟨k, hk, hnot⟩ := h.key
  have hrest := h.rest.trans hx
  have hadv := Cursor.advance_of_char hrest (by decide)
  have hlimit := h.limit
  rw [hx, List.length_cons, List.length_cons] at hlimit
  have hmove : { s with inSinglePair := false, cursor := s.cursor.advance }
      = s.move s.cursor.advance := by
    rw [move, ← h.block.inSinglePair]
  have hb := h.block.move s.cursor.advance
  have heq : x.level.indent = s.column := by rw [column, h.column, hcolumn]
  have hroll := hb.roll_of_eq hclose heq none .blockMappingStart
  have hone := hb.rollOne ⟨hclose, .inl rfl⟩
  have hb' := ((hb.setLevel x.level.loose).allowKey true).push .value
  have htoken : s.token ':' = .ok ((((s.move s.cursor.advance).setLevel x.level.loose).allowKey
      true).push .value) := by
    have hspaced : isSpaceOrEnd s.cursor.peekNext = true := by
      simp [Cursor.peekNext, hrest, isSpaceOrEnd]
    have hpeek : s.cursor.advance.peek ≠ some '\t' := by
      rw [hadv]
      simp [Cursor.peek]
    have hflow : (s.move s.cursor.advance).inFlow = false := hb.inFlow
    have hkeyAllowed : (s.move s.cursor.advance).keyAllowed = true := h.keyAllowed.trans hallowed
    have hflow' : (setLevel x.level.loose (s.move s.cursor.advance)).inFlow = false := hb.inFlow
    show (if isSpaceOrEnd s.cursor.peekNext || _ then s.value else s.plainScalar) = _
    rw [hspaced, Bool.true_or, if_pos rfl, value]
    have hhead : s.keys.head?.getD .none = k := by rw [hk]; rfl
    simp only [hhead, h.block.inFlow, Bool.false_and, hmove]
    rw [if_neg (by simpa [move] using hpeek)]
    simp only [ok_bind, hnot, Bool.false_eq_true, if_false, hflow, hkeyAllowed, Bool.not_true,
      Bool.and_false, hroll, hone, hflow', Bool.not_false]
  refine ⟨_, dispatch_token h hx (fun _ => ⟨by decide, ?_⟩) (Int.le_of_eq hcolumn) htoken, ?_⟩
  · exact Cursor.atDocumentMarker_of_second hrest (by decide)
  · have hreach := reaches_of_inline (n := 1) hcontent hb' hk hnot
      (by show s.cursor.advance.rest = _; rw [hadv]; rfl)
      (by show s.cursor.advance.rest.length < s.limit; rw [hadv, List.length_cons]; omega)
      (by
        show x.level.indent + 1 ≤ ((s.cursor.advance.column + 1 : Nat) : Int)
        rw [hadv, hcolumn, h.column]
        simp only
        omega)
    have hcol : s.cursor.advance.column + 1 = x.column + 2 := by rw [hadv, h.column]
    rw [← hcol]
    exact hreach

end Lexer

section Yields

variable {x : Spot} {P : Level} {result : Verdict} {content cs rest : List Char} {n : Nat}

/-- An item behind its hyphen. -/
theorem yields_item (hallowed : x.keyAllowed = true) (henter : P.Enters x.column x.level)
    (hcontent : Starts content) (hx : x.body = '-' :: ' ' :: content)
    (hy : ∀ M, (P.enter x.column .blockSequenceStart x.tokens).1.Holds M →
      (Spot.mk content (x.column + 2)
        (.blockEntry :: (P.enter x.column .blockSequenceStart x.tokens).2) true M).Yields result) :
    x.Yields result := by
  refine Spot.yields_of_some_step fun s hs => ?_
  obtain ⟨s', M, hdispatch, hM, hreach⟩ := s.dispatch_item hs hx hcontent hallowed henter
  refine ⟨s', _, hdispatch, hreach, ?_, hy M hM⟩
  rw [hx]
  exact Nat.le_add_right _ 1

/-- The tokens of a key and its colon, latest first. -/
def keyTokens (P : Level) (x : Spot) (cs : List Char) : List Token :=
  .value :: .scalar (ofText cs) (String.ofList cs) :: .key ::
    (P.enter x.column .blockMappingStart x.tokens).2

/-- A simple key and its colon. -/
theorem yields_simpleKey (hallowed : x.keyAllowed = true) (henter : P.Enters x.column x.level)
    (hsimple : isSimpleKey cs = true) (hgap : isSpaceOrEnd rest.head? = true)
    (htab : rest.head? ≠ some '\t') (hx : x.body = writeInline n cs ++ ':' :: rest)
    (hy : ∀ (s : Lexer) (k : PossibleKey),
      s.InBlock (P.enter x.column .blockMappingStart x.tokens).1.loose (keyTokens P x cs) →
      s.cursor.rest = rest → x.column < s.cursor.column → s.keys = [k] → k.possible = false →
      s.keyAllowed = false → rest.length < s.limit →
      ∃ y, s.Reaches y ∧ y.body.length < rest.length ∧ y.Yields result) : x.Yields result := by
  refine Spot.yields_of_two_steps fun s hs => ?_
  obtain ⟨s₁, L, hdispatch, hL, hcolon⟩ :=
    s.dispatch_simpleKey hs hallowed henter hsimple hgap hx
  obtain ⟨k, hk, -, -, -, hline, hindex⟩ := hcolon.key
  have hstarts : Starts s₁.cursor.rest := by
    rw [hcolon.text]
    intro ch tail heq
    obtain ⟨rfl, -⟩ := List.cons.inj heq
    decide
  have hindent : L.indent ≤ s₁.cursor.column := by
    have := hL.indent_le
    have := hcolon.behind
    omega
  have hprepare := Lexer.prepare_of_content hcolon.block hstarts hk hline hindex hindent
  obtain ⟨s', k', hdispatch', hblock, hpassed, hkeys, hnot, hdisallowed, hlimit⟩ :=
    s₁.dispatch_simpleColon hcolon hL hgap htab
  obtain ⟨y, hreach, hlen, hyields⟩ := hy s' k' hblock hpassed.rest
    (by have := hcolon.behind; rw [hpassed.column]; omega) hkeys hnot hdisallowed
    (by have := hcolon.limit; omega)
  refine ⟨s₁, s₁, s', y, hdispatch, hprepare, hdispatch', hreach, ?_, hyields⟩
  rw [hx, List.length_append, List.length_cons]
  omega

/-- A simple key in front of a value on its line. -/
theorem yields_simpleKey_inline (hallowed : x.keyAllowed = true)
    (henter : P.Enters x.column x.level) (hsimple : isSimpleKey cs = true)
    (hcontent : Starts content) (hx : x.body = writeInline n cs ++ ':' :: ' ' :: content)
    (hy : ∀ column, x.column < column → (Spot.mk content column (keyTokens P x cs) false
      (P.enter x.column .blockMappingStart x.tokens).1.loose).Yields result) :
    x.Yields result := by
  have hindent := Lexer.indent_enter henter .blockMappingStart x.tokens
  refine yields_simpleKey hallowed henter hsimple rfl (by simp) hx
    fun s k hblock hrest hcolumn hkeys hk hdisallowed hlimit => ?_
  have hreach := Lexer.reaches_of_inline (n := 1) hcontent hblock hkeys hk hrest
    (by rw [hrest]; exact hlimit) (Int.add_one_le_of_lt (by omega))
  rw [hdisallowed] at hreach
  exact ⟨_, hreach, Nat.lt_succ_self _, hy _ (by omega)⟩

/-- A simple key in front of a value that starts on the next line. -/
theorem yields_simpleKey_line {m : Nat} (hallowed : x.keyAllowed = true)
    (henter : P.Enters x.column x.level) (hsimple : isSimpleKey cs = true)
    (hcontent : Starts content)
    (hx : x.body = writeInline n cs ++ ':' :: '\n' :: (spaces m ++ content))
    (hy : (Spot.ofLine m (P.enter x.column .blockMappingStart x.tokens).1.loose
      (keyTokens P x cs) content).Yields result) : x.Yields result := by
  refine yields_simpleKey hallowed henter hsimple rfl (by simp) hx
    fun s k hblock hrest hcolumn hkeys hk hdisallowed hlimit => ?_
  have hreach := Lexer.reaches_of_break hcontent hblock hkeys (by simp [hk]) hrest
    (by rw [hrest]; exact hlimit)
  refine ⟨_, hreach, ?_, hy⟩
  simp only [Spot.ofLine, List.length_cons, List.length_append]
  omega

end Yields

end WorkspaceTrust.Yaml
