import WorkspaceTrust.Proofs.Yaml.Layout

/-!
# Empty collections

Collections without content are the only ones that are written in
brackets. Between the brackets the lexer is in a flow collection, so the
place there is not a spot, and the two brackets are taken together
(`yields_empty`).
-/

namespace WorkspaceTrust.Yaml

namespace Lexer

variable {s : Lexer} {x : Spot} {P : Level} {start stop : Token} {opening closing : Char}
  {rest : List Char}

/-- The lexer is in front of the closing bracket of an empty collection. -/
structure AtBracket (s : Lexer) (P : Level) (ts : List Token) (k : PossibleKey)
    (body : List Char) : Prop where
  /-- What is left when the collection is closed. -/
  block : InBlock { s with flowLevel := 0 } P ts
  flowLevel : s.flowLevel = 1
  keys : s.keys = [.none, k]
  text : s.cursor.rest = body
  behind : P.indent ≤ s.cursor.column
  limit : body.length < s.limit

theorem dispatch_opening (h : s.At x) (hP : P.Holds x.level) (hcolumn : P.indent < x.column)
    (hstart : ∀ s : Lexer, s.token opening = s.flowStart start)
    (hx : x.body = opening :: closing :: rest) (ho : opening ∉ ['%', '-', '.', '\n'])
    (hc : isBlank closing = false ∧ closing ≠ '#') :
    ∃ s' k, s.dispatch = .ok (s', false) ∧
      s'.AtBracket P.loose (start :: x.tokens) k (closing :: rest) ∧
      (k.possible = true → k.required = false ∧ k.line = s'.cursor.line) := by
  obtain ⟨k, hk, hstale⟩ := keys_saveKey h hP hcolumn
  simp only [List.mem_cons, List.not_mem_nil, or_false, not_or] at ho
  have hrest := h.rest.trans hx
  have hadv := Cursor.advance_of_char hrest ho.2.2.2
  have hlimit := h.limit
  rw [hx, List.length_cons] at hlimit
  have hroll := h.block.saveKey.rollOne hP
  have hb := h.block.saveKey.setLevel P.loose
  have hcursor : (s.saveKey.setLevel P.loose).cursor = s.cursor := cursor_saveKey
  have hlim : (s.saveKey.setLevel P.loose).limit = s.limit := limit_saveKey
  have hkeys : (s.saveKey.setLevel P.loose).keys = [k] := hk
  generalize s.saveKey.setLevel P.loose = s₀ at *
  have hskip := Cursor.skipToContent_of_content (c := s₀.cursor.advance) (by
    rw [hcursor, hadv]
    intro ch tail heq
    obtain ⟨rfl, -⟩ := List.cons.inj heq
    exact hc)
  have hshallow : ¬ s₀.flowLevel = 255 := by
    rw [hb.flowLevel]
    decide
  -- Whether the brackets are those of a mapping is noted, but nothing here depends on it.
  obtain ⟨noted, htoken⟩ : ∃ noted, s.token opening = .ok ((move s₀.cursor.advance
      { s₀ with
        keys := .none :: s₀.keys, flowLevel := s₀.flowLevel + 1, keyAllowed := true
        inFlowMapping := noted }).push start) := by
    rw [hstart, flowStart, hroll]
    by_cases hmap : start = .flowMappingStart
    · refine ⟨true, ?_⟩
      simp only [if_neg hshallow, if_pos hmap, skipToContent, move, hskip, ok_bind]
    · refine ⟨s₀.inFlowMapping, ?_⟩
      simp only [if_neg hshallow, if_neg hmap, skipToContent, move, hskip, ok_bind]
  have hcur : s₀.cursor.advance = ⟨closing :: rest, s.cursor.index + 1, s.cursor.line,
    s.cursor.column + 1, s.cursor.fresh && isBlank opening⟩ := by rw [hcursor, hadv]
  refine ⟨_, k, dispatch_token h hx (fun _ => ⟨ho.1, ?_⟩) (hP.indent_le hcolumn) htoken,
    ⟨⟨?_, ?_, hb.indent, hb.indents, rfl, hb.inSinglePair, rfl⟩, ?_, ?_, ?_, ?_, ?_⟩, ?_⟩
  · exact Cursor.atDocumentMarker_of_first hrest ⟨ho.2.1, ho.2.2.1⟩
  · exact congrArg (start :: ·) hb.tokens
  · exact congrArg (· + 1) hb.count
  · exact congrArg (· + 1) hb.flowLevel
  · exact congrArg (PossibleKey.none :: ·) hkeys
  · exact congrArg Cursor.rest hcur
  · have hcol : s₀.cursor.advance.column = s.cursor.column + 1 := congrArg Cursor.column hcur
    show P.indent + 1 ≤ (s₀.cursor.advance.column : Int)
    rw [hcol, h.column]
    omega
  · show (closing :: rest).length < s₀.limit
    rw [hlim]
    exact Nat.lt_of_succ_lt hlimit
  · intro hp
    have hline : s₀.cursor.advance.line = s.cursor.line := by rw [hcur]
    exact ⟨(hstale hp).1, (hstale hp).2.trans hline.symm⟩

theorem dispatch_closing {ts : List Token} {k : PossibleKey} (h : s.AtBracket P ts k (closing :: rest))
    (hstop : ∀ s : Lexer, s.token closing = s.flowEnd stop) (hc : closing ∉ ['%', '-', '.', '\n'])
    (hvisible : isBlank closing = false ∧ closing ≠ '#')
    (hrest : ∀ ch tail, rest = ch :: tail → isBlank ch = false ∧ ch ≠ '#') :
    s.prepare = .ok s ∧ ∃ s', s.dispatch = .ok (s', false) ∧ s'.InBlock P (stop :: ts) ∧
      s.cursor.Passed [closing] rest s'.cursor ∧ s'.keys = [k] ∧ s'.limit = s.limit := by
  simp only [List.mem_cons, List.not_mem_nil, or_false, not_or] at hc
  have hflow : s.inFlow = true := by simp [inFlow, h.flowLevel]
  have hstarts : Starts s.cursor.rest := by
    rw [h.text]
    intro ch tail heq
    obtain ⟨rfl, -⟩ := List.cons.inj heq
    exact ⟨hvisible.1, hc.2.2.2, hvisible.2⟩
  have hpassed : s.cursor.Passed [closing] rest s.cursor.advance :=
    Cursor.passed_past h.text (by simpa using Ne.symm hc.2.2.2)
  have hskip := Cursor.skipToContent_of_content (c := s.cursor.advance) (by
    rw [hpassed.rest]
    exact hrest)
  have hprepare : s.prepare = .ok s := by
    have hnone : s.staleKey .none = .ok .none := rfl
    have hkept : s.staleKey k = .ok k := by simp [staleKey, hflow]
    have hmap : s.keys.mapM s.staleKey = .ok s.keys := by
      rw [h.keys, List.mapM_cons, hnone, List.mapM_cons, hkept]
      rfl
    have hstale : s.staleKeys = .ok s := by
      rw [staleKeys, hmap]
      rfl
    rw [prepare, skipSpace_of_content hstarts, ok_bind, hstale, ok_bind, unroll, if_pos hflow]
  have hopen : s.inSinglePair = false := h.block.inSinglePair
  have hremove : s.removeKey = .ok { s with keys := [.none, k] } := by
    rw [removeKey, h.keys]
    rfl
  have htoken : s.token closing = .ok ((move s.cursor.advance
      { s with flowLevel := 0, keys := [k], keyAllowed := false }).push stop) := by
    have hflow' : Lexer.inFlow { s with keys := [.none, k] } = true := hflow
    rw [hstop, flowEnd, hremove]
    simp only [ok_bind, if_pos hflow']
    simp only [h.flowLevel, Nat.sub_self, List.tail_cons, allowKey, endSinglePair, hopen,
      Bool.false_eq_true, if_false, skipToContent, move, hskip, ok_bind, inFlow, ne_eq,
      not_true_eq_false, decide_false]
  have hindent : s.indent ≤ s.cursor.column := by
    rw [show s.indent = P.indent from h.block.indent]
    exact h.behind
  refine ⟨hprepare, _, dispatch_of_token h.text (fun _ => ⟨hc.1, ?_⟩) hindent htoken,
    ⟨congrArg (stop :: ·) h.block.tokens, congrArg (· + 1) h.block.count, h.block.indent,
      h.block.indents, rfl, h.block.inSinglePair, rfl⟩, hpassed, rfl, rfl⟩
  exact Cursor.atDocumentMarker_of_first h.text ⟨hc.2.1, hc.2.2.1⟩

end Lexer

/-- An empty collection that ends its line. -/
theorem yields_empty {x : Spot} {P : Level} {m : Nat} {body : List Char} {result : Verdict}
    {start stop : Token} {opening closing : Char} (hP : P.Holds x.level)
    (hcolumn : P.indent < x.column) (hm : m ≤ P.indent) (hbody : Starts body)
    (hstart : ∀ s : Lexer, s.token opening = s.flowStart start)
    (hstop : ∀ s : Lexer, s.token closing = s.flowEnd stop)
    (ho : opening ∉ ['%', '-', '.', '\n']) (hc : closing ∉ ['%', '-', '.', '\n'])
    (hvisible : isBlank closing = false ∧ closing ≠ '#')
    (hx : x.body = opening :: closing :: '\n' :: (spaces m ++ body))
    (hy : (Spot.ofLine m P (stop :: start :: x.tokens) body).Yields result) : x.Yields result := by
  refine Spot.yields_of_two_steps fun s hs => ?_
  obtain ⟨s₁, k, hdispatch, hbracket, hstale⟩ :=
    s.dispatch_opening hs hP hcolumn hstart hx ho hvisible
  obtain ⟨hprepare, s', hdispatch', hblock, hpassed, hkeys, hlimit⟩ :=
    s₁.dispatch_closing hbracket hstop hc hvisible fun ch tail heq => by
      obtain ⟨rfl, -⟩ := List.cons.inj heq
      decide
  have hreach := Lexer.reaches_of_break hbody hblock hkeys
    (fun hp => ⟨(hstale hp).1, Nat.le_of_eq ((hstale hp).2.trans hpassed.line.symm)⟩) hpassed.rest
    (by rw [hpassed.rest, hlimit]; exact Nat.lt_of_succ_lt hbracket.limit)
  rw [Spot.ofLine, Level.unroll_loose hm] at hreach
  exact ⟨s₁, s₁, s', _, hdispatch, hprepare, hdispatch', hreach, by simp [hx]; omega, hy⟩

end WorkspaceTrust.Yaml
