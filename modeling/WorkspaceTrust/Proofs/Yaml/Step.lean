import WorkspaceTrust.Proofs.Yaml.Level

/-!
# Steps between places in a written text

A step of the lexer skips white space, gives up keys, closes levels
(`Lexer.prepare`) and then reads a token (`Lexer.dispatch`). Steps are
compared at the place in between: a `Spot` is a place where a token
starts, with the level and the tokens that a lexer has there.

`Spot.Yields` says what every lexer that gets to a spot makes of the
rest of the text. A step from one spot to another carries this
backwards (`yields_of_step`), so that a text is taken from its end to
its beginning, as it is written.
-/

namespace WorkspaceTrust.Yaml

namespace Lexer

/-- The part of a step in front of the token. -/
def prepare (s : Lexer) : Except Fault Lexer := do
  let s ← s.skipSpace s.limit
  let s ← s.staleKeys
  .ok (s.unroll s.column)

/-- The part of a step that reads the token. -/
def dispatch (s : Lexer) : Except Fault (Lexer × Bool) :=
  match s.cursor.rest with
  | [] => do .ok (← s.streamEnd, true)
  | ch :: _ =>
      if s.cursor.column = 0 && ch = '%' then do .ok (← s.directive, false)
      else if s.cursor.column = 0 && s.cursor.atMarker '-' then do
        .ok (← s.documentMarker .documentStart, false)
      else if s.cursor.column = 0 && s.cursor.atMarker '.' then do .ok (← s.documentEnd, false)
      else if s.column < s.indent then .error .indentation
      else do .ok (← s.token ch, false)

theorem step_eq (s : Lexer) : s.step = s.prepare >>= dispatch := by
  simp only [step, prepare, bind_assoc, ok_bind]
  rfl

/-! ## White space -/

theorem skipSpace_of_content {fuel : Nat} {s : Lexer} (h : Starts s.cursor.rest) :
    s.skipSpace fuel = .ok s := by
  cases fuel with
  | zero => rfl
  | succ fuel =>
    unfold skipSpace
    split
    · next heq => exact absurd rfl (h _ _ heq).2.1
    · next heq => exact absurd rfl (h _ _ heq).2.2
    · next heq => exact absurd (h _ _ heq).1 (by decide)
    · next heq => exact absurd (h _ _ heq).1 (by decide)
    · rfl

theorem skipSpace_spaces {n : Nat} {body : List Char} (hbody : Starts body) :
    ∀ {fuel : Nat} {s : Lexer}, n ≤ fuel → s.cursor.rest = spaces n ++ body →
      s.skipSpace fuel = .ok (s.move (s.cursor.past (spaces n))) := by
  induction n with
  | zero =>
    intro fuel s _ hc
    exact skipSpace_of_content (by rwa [hc])
  | succ n ih =>
    intro fuel s hn hc
    obtain ⟨fuel, rfl⟩ : ∃ k, fuel = k + 1 := ⟨fuel - 1, by omega⟩
    have hc' : s.cursor.rest = ' ' :: (spaces n ++ body) := hc
    have hadv := Cursor.advance_of_char hc' (by decide)
    rw [skipSpace, hc']
    show skipSpace fuel (s.move s.cursor.advance) = _
    rw [ih (s := s.move s.cursor.advance) (by omega) (by simp [move, hadv])]
    rfl

theorem skipSpace_break {fuel : Nat} {s : Lexer} {rest : List Char}
    (hflow : s.inFlow = false) (hc : s.cursor.rest = '\n' :: rest) :
    s.skipSpace (fuel + 1) = ((s.move s.cursor.advance).allowKey true).skipSpace fuel := by
  rw [skipSpace, hc]
  show skipSpace fuel (if (s.move s.cursor.advance).inFlow then _ else _) = _
  rw [if_neg]
  show ¬ s.inFlow = true
  simp [hflow]

/-- A line break and the indentation of the next line, where a key may start. -/
theorem skipSpace_line {s : Lexer} {m fuel : Nat} {body : List Char} (hflow : s.inFlow = false)
    (hbody : Starts body) (hc : s.cursor.rest = '\n' :: (spaces m ++ body)) (hfuel : m < fuel) :
    s.skipSpace fuel = .ok ((s.allowKey true).move
      ⟨body, s.cursor.index + 1 + m, s.cursor.line + 1, m, true⟩) := by
  obtain ⟨fuel, rfl⟩ : ∃ k, fuel = k + 1 := ⟨fuel - 1, by omega⟩
  have hadv := Cursor.advance_of_break hc
  have hrest : ((s.move s.cursor.advance).allowKey true).cursor.rest = spaces m ++ body := by
    simp [allowKey, move, hadv]
  rw [skipSpace_break hflow hc, skipSpace_spaces hbody (by omega) hrest, Cursor.past_spaces hrest]
  simp [move, allowKey, hadv]

/-! ## Possible keys -/

/-- A possible key on an earlier line is given up. -/
theorem staleKeys_giveUp {s : Lexer} {k : PossibleKey} (hflow : s.inFlow = false)
    (hkeys : s.keys = [k])
    (hk : k.possible = true → k.required = false ∧ k.line < s.cursor.line) :
    ∃ k' : PossibleKey, s.staleKeys = .ok { s with keys := [k'] } ∧ k'.possible = false := by
  cases hp : k.possible with
  | false =>
    refine ⟨k, ?_, hp⟩
    simp [staleKeys, hkeys, staleKey, hp]
  | true =>
    obtain ⟨hreq, hline⟩ := hk hp
    refine ⟨k.giveUp, ?_, rfl⟩
    simp [staleKeys, hkeys, staleKey, hp, hflow, hreq, hline]

/-- A possible key that is not far away on its line is kept. -/
theorem staleKeys_keep {s : Lexer} {k : PossibleKey} (hkeys : s.keys = [k])
    (hline : k.line = s.cursor.line) (hindex : s.cursor.index ≤ k.index + 1024) :
    s.staleKeys = .ok s := by
  have hnot : ¬ k.index + 1024 < s.cursor.index := by omega
  have hkept : s.staleKey k = .ok k := by simp [staleKey, hline, hnot]
  have hmap : s.keys.mapM s.staleKey = .ok s.keys := by
    rw [hkeys, List.mapM_cons, hkept]
    rfl
  rw [staleKeys, hmap]
  rfl

/-- Nothing is closed where content stands that is not less indented. -/
theorem unroll_of_le {s : Lexer} {L : Level} {ts : List Token} (h : s.InBlock L ts) {column : Int}
    (hc : L.indent ≤ column) : s.unroll column = s := by
  have hunroll : unrollTo column s.indent s.indents s.tokens s.count
      = (s.indent, s.indents, s.tokens, s.count) := by
    cases hi : s.indents with
    | nil => rfl
    | cons i is => rw [unrollTo, if_neg (by rw [h.indent]; omega)]
  rw [unroll, if_neg (by simp [h.inFlow]), hunroll]
  obtain ⟨limit, cursor, tokens, count, keyAllowed, keys, indent, indents, flowLevel, adjacentAt,
    inFlowMapping, inSinglePair, propertyAtMargin⟩ := s
  obtain rfl : propertyAtMargin = false := h.propertyAtMargin
  rfl

/-- In front of content that follows at once nothing is to be prepared, if the possible
key is kept. -/
theorem prepare_of_content {s : Lexer} {L : Level} {ts : List Token} {k : PossibleKey}
    (h : s.InBlock L ts) (hrest : Starts s.cursor.rest) (hkeys : s.keys = [k])
    (hline : k.line = s.cursor.line) (hindex : s.cursor.index ≤ k.index + 1024)
    (hc : L.indent ≤ s.cursor.column) : s.prepare = .ok s := by
  rw [prepare, skipSpace_of_content hrest, ok_bind, staleKeys_keep hkeys hline hindex, ok_bind,
    column, unroll_of_le h hc]

end Lexer

/-! ## Spots -/

/-- A place where a token starts. -/
structure Spot where
  body : List Char
  column : Nat
  tokens : List Token
  keyAllowed : Bool
  level : Level

/-- Where a line starts at a column: deeper levels are closed there, and a key may start. -/
def Spot.ofLine (column : Nat) (L : Level) (ts : List Token) (body : List Char) : Spot where
  body := body
  column := column
  tokens := (L.unroll column ts).2
  keyAllowed := true
  level := (L.unroll column ts).1

namespace Lexer

/-- The lexer is about to read a token. -/
structure At (s : Lexer) (x : Spot) : Prop where
  block : s.InBlock x.level x.tokens
  rest : s.cursor.rest = x.body
  column : s.cursor.column = x.column
  keyAllowed : s.keyAllowed = x.keyAllowed
  key : ∃ k, s.keys = [k] ∧ k.possible = false
  limit : x.body.length < s.limit

/-- The lexer will be about to read a token. -/
def Reaches (s : Lexer) (x : Spot) : Prop := ∃ s', s.prepare = .ok s' ∧ s'.At x

variable {s : Lexer} {L : Level} {ts : List Token} {k : PossibleKey}

/-- The rest of the preparation, once white space has been skipped. -/
theorem reaches_of_skipped {s' : Lexer} (hskip : s.skipSpace s.limit = .ok s')
    (hblock : s'.InBlock L ts) (hkeys : s'.keys = [k])
    (hk : k.possible = true → k.required = false ∧ k.line < s'.cursor.line)
    (hlimit : s'.cursor.rest.length < s'.limit) :
    s.Reaches ⟨s'.cursor.rest, s'.cursor.column, (L.unroll s'.cursor.column ts).2, s'.keyAllowed,
      (L.unroll s'.cursor.column ts).1⟩ := by
  obtain ⟨k', hstale, hk'⟩ := staleKeys_giveUp hblock.inFlow hkeys hk
  have hblock' : InBlock { s' with keys := [k'] } L ts := { hblock with }
  have hunroll := hblock'.unroll s'.column
  have hflow : Lexer.inFlow { s' with keys := [k'] } = false := hblock'.inFlow
  refine ⟨_, ?_, hunroll, ?_, ?_, ?_, ⟨k', ?_, hk'⟩, ?_⟩
  · rw [prepare, hskip, ok_bind, hstale, ok_bind]
    rfl
  all_goals rw [unroll, if_neg (by simp [hflow])]
  exact hlimit

/-- Spaces in front of content. -/
theorem reaches_of_spaces {n : Nat} {body : List Char} (hbody : Starts body)
    (hblock : s.InBlock L ts) (hkeys : s.keys = [k])
    (hk : k.possible = true → k.required = false ∧ k.line < s.cursor.line)
    (hc : s.cursor.rest = spaces n ++ body) (hlimit : s.cursor.rest.length < s.limit) :
    s.Reaches ⟨body, s.cursor.column + n, (L.unroll (s.cursor.column + n : Nat) ts).2, s.keyAllowed,
      (L.unroll (s.cursor.column + n : Nat) ts).1⟩ := by
  have hlen : n + body.length < s.limit := by simpa [hc] using hlimit
  have hpast := Cursor.past_spaces hc
  have hskip := skipSpace_spaces hbody (by omega : n ≤ s.limit) hc
  rw [hpast] at hskip
  exact reaches_of_skipped hskip (hblock.move _) hkeys hk (by simp [move]; omega)

/-- A line break and the indentation of the next line. -/
theorem reaches_of_break {m : Nat} {body : List Char} (hbody : Starts body)
    (hblock : s.InBlock L ts) (hkeys : s.keys = [k])
    (hk : k.possible = true → k.required = false ∧ k.line ≤ s.cursor.line)
    (hc : s.cursor.rest = '\n' :: (spaces m ++ body)) (hlimit : s.cursor.rest.length < s.limit) :
    s.Reaches (.ofLine m L ts body) := by
  have hlen : m + body.length + 1 < s.limit := by simpa [hc, Nat.add_assoc] using hlimit
  have hskip := skipSpace_line hblock.inFlow hbody hc (by omega : m < s.limit)
  exact reaches_of_skipped hskip ((hblock.allowKey true).move _) hkeys
    (fun hp => ⟨(hk hp).1, Nat.lt_succ_of_le (hk hp).2⟩) (by simp [move, allowKey]; omega)

/-- Content at the beginning of its line, where a key may start. -/
theorem reaches_of_line {body : List Char} (hbody : Starts body) (hblock : s.InBlock L ts)
    (hkeys : s.keys = [k])
    (hk : k.possible = true → k.required = false ∧ k.line < s.cursor.line)
    (hallowed : s.keyAllowed = true) (hc : s.cursor.rest = body) (hlimit : body.length < s.limit) :
    s.Reaches (.ofLine s.cursor.column L ts body) := by
  have hreach := reaches_of_spaces (n := 0) hbody hblock hkeys hk hc (by rwa [hc])
  rwa [hallowed] at hreach

/-- Content on the line of the indicator in front of it. -/
theorem reaches_of_inline {n : Nat} {body : List Char} (hbody : Starts body)
    (hblock : s.InBlock L ts) (hkeys : s.keys = [k]) (hk : k.possible = false)
    (hc : s.cursor.rest = spaces n ++ body) (hlimit : s.cursor.rest.length < s.limit)
    (hcolumn : L.indent ≤ (s.cursor.column + n : Nat)) :
    s.Reaches ⟨body, s.cursor.column + n, ts, s.keyAllowed, L⟩ := by
  have hreach := reaches_of_spaces hbody hblock hkeys (by simp [hk]) hc hlimit
  rwa [Level.unroll_of_le hcolumn] at hreach

/-- Where a token starts that is not a marker, the step is what the token does. -/
theorem dispatch_of_token {ch : Char} {tail : List Char} {s' : Lexer}
    (hrest : s.cursor.rest = ch :: tail)
    (hmargin : s.cursor.column = 0 → ch ≠ '%' ∧ s.cursor.atDocumentMarker = false)
    (hindent : s.indent ≤ s.cursor.column) (ht : s.token ch = .ok s') :
    s.dispatch = .ok (s', false) := by
  have hle : ¬ s.column < s.indent := Int.not_lt.2 hindent
  rw [dispatch, hrest]
  by_cases hzero : s.cursor.column = 0
  · obtain ⟨hpercent, hmarker⟩ := hmargin hzero
    simp only [Cursor.atDocumentMarker, hzero, decide_true, Bool.true_and,
      Bool.or_eq_false_iff] at hmarker
    simp [hzero, hpercent, hmarker, hle, ht]
  · simp [hzero, hle, ht]

theorem dispatch_token {x : Spot} {ch : Char} {tail : List Char} {s' : Lexer} (h : s.At x)
    (hbody : x.body = ch :: tail)
    (hmargin : x.column = 0 → ch ≠ '%' ∧ s.cursor.atDocumentMarker = false)
    (hindent : x.level.indent ≤ x.column) (ht : s.token ch = .ok s') :
    s.dispatch = .ok (s', false) :=
  dispatch_of_token (h.rest.trans hbody) (by rwa [h.column]) (by rwa [h.block.indent, h.column]) ht

end Lexer

/-! ## What a text yields -/

/-- What is said of the tokens of a text, or of the fault in it. -/
abbrev Verdict := Except Fault (List Token) → Prop

namespace Spot

/-- Every lexer that gets to this spot ends as is said. -/
def Yields (x : Spot) (result : Verdict) : Prop :=
  ∀ s : Lexer, s.Reaches x → ∀ fuel, x.body.length < fuel → result (s.run fuel)

variable {x y : Spot} {result : Verdict}

theorem run_of_reaches {s s₁ s' : Lexer} {fuel : Nat} (hs : s.prepare = .ok s₁)
    (hstep : s₁.dispatch = .ok (s', false)) : s.run (fuel + 1) = s'.run fuel := by
  rw [Lexer.run, Lexer.step_eq, hs, ok_bind, hstep]
  rfl

/-- One step to a spot further on. -/
theorem yields_of_some_step (hstep : ∀ s : Lexer, s.At x → ∃ s' y, s.dispatch = .ok (s', false) ∧
    s'.Reaches y ∧ y.body.length < x.body.length ∧ y.Yields result) : x.Yields result := by
  rintro s ⟨s₁, hs, hat⟩ fuel hfuel
  obtain ⟨fuel, rfl⟩ : ∃ k, fuel = k + 1 := ⟨fuel - 1, by omega⟩
  obtain ⟨s', y, hdispatch, hreach, hlen, hy⟩ := hstep s₁ hat
  rw [run_of_reaches hs hdispatch]
  exact hy s' hreach fuel (by omega)

/-- One step to a spot that is known. -/
theorem yields_of_step (hlen : y.body.length < x.body.length)
    (hstep : ∀ s : Lexer, s.At x → ∃ s', s.dispatch = .ok (s', false) ∧ s'.Reaches y)
    (hy : y.Yields result) : x.Yields result := by
  refine yields_of_some_step fun s hs => ?_
  obtain ⟨s', hdispatch, hreach⟩ := hstep s hs
  exact ⟨s', y, hdispatch, hreach, hlen, hy⟩

/-- Two steps, with a place between them that is not a spot. -/
theorem yields_of_two_steps (hstep : ∀ s : Lexer, s.At x → ∃ s₁ s₂ s' y,
    s.dispatch = .ok (s₁, false) ∧ s₁.prepare = .ok s₂ ∧ s₂.dispatch = .ok (s', false) ∧
      s'.Reaches y ∧ y.body.length + 1 < x.body.length ∧ y.Yields result) : x.Yields result := by
  rintro s ⟨s₀, hs, hat⟩ fuel hfuel
  obtain ⟨s₁, s₂, s', y, hdispatch, hprepare, hdispatch', hreach, hlen, hy⟩ := hstep s₀ hat
  obtain ⟨fuel, rfl⟩ : ∃ k, fuel = k + 2 := ⟨fuel - 2, by omega⟩
  rw [run_of_reaches hs hdispatch, run_of_reaches hprepare hdispatch']
  exact hy s' hreach fuel (by omega)

end Spot

end WorkspaceTrust.Yaml
