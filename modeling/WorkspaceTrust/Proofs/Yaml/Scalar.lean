import WorkspaceTrust.Proofs.Yaml.Literal
import WorkspaceTrust.Proofs.Yaml.Quoted
import WorkspaceTrust.Proofs.Yaml.Step

/-!
# The token of a scalar

A scalar that is a value or an item ends its line; the lexer reads it and
goes on at the next line (`yields_scalar`). Between single quotes the
text may come back with indentation in it (`laidText`), in all other
styles it comes back as it was written, given that a literal text
`Lays` its lines.
-/

namespace WorkspaceTrust.Yaml

open ScalarStyle

/-- The lines of the text end where the reader ends them, if that is how it is written. -/
def Lays (cs : List Char) : Prop := ofText cs = .literal → endsLines false cs = true

/-- The text that is read for a scalar whose lines are indented by `n`. -/
def laidText (n : Nat) (cs : List Char) : List Char :=
  if ofText cs = .singleQuoted then padded n false cs else cs

namespace ScalarStyle

variable {cs : List Char}

theorem fitsPlain_of_ofText (h : ofText cs = .plain) : fitsPlain cs = true ∧ isAmbiguous cs = false := by
  unfold ofText at h
  split at h
  · split at h <;> cases h
  · split at h
    · next hc => simpa [and_comm] using hc
    · split at h <;> cases h

theorem fitsSingle_of_ofText (h : ofText cs = .singleQuoted) :
    fitsSingle cs = true ∧ cs.contains '\n' = false := by
  unfold ofText at h
  split at h
  · split at h <;> cases h
  · next hc =>
    split at h
    · cases h
    · split at h
      · next hs => exact ⟨hs, by simpa using hc⟩
      · cases h

theorem fitsLiteral_of_ofText (h : ofText cs = .literal) : fitsLiteral cs = true := by
  unfold ofText at h
  split at h
  · split at h
    · next hc => exact hc
    · cases h
  · split at h
    · cases h
    · split at h <;> cases h

theorem ofText_ne_folded : ofText cs ≠ .folded := by
  unfold ofText
  split
  · split <;> simp
  · split
    · simp
    · split <;> simp

/-- A plain text is not empty: nothing is a null. -/
theorem ne_nil_of_plain (h : ofText cs = .plain) : cs ≠ [] := by
  rintro rfl
  exact absurd (fitsPlain_of_ofText h).2 (by decide)

theorem plainText_of_plain (h : ofText cs = .plain) : PlainText cs :=
  plainText_of_fitsPlain (ne_nil_of_plain h) (fitsPlain_of_ofText h).1

theorem codes_of_singleQuoted (n : Nat) (h : ofText cs = .singleQuoted) :
    ∀ c ∈ padded n false cs, Codes false singleCode c := by
  obtain ⟨hfit, hnl⟩ := fitsSingle_of_ofText h
  intro c hc
  refine codes_single ?_
  rcases mem_padded hc with rfl | hc
  · exact ⟨by decide, by decide⟩
  · simp only [fitsSingle, Bool.and_eq_true, List.all_eq_true] at hfit
    refine ⟨?_, ?_⟩
    · rintro rfl
      simp [hc] at hnl
    · rintro rfl
      exact absurd (hfit.1.1 '\t' hc) (by decide)

end ScalarStyle

namespace Lexer

variable {s : Lexer}

@[simp] theorem cursor_saveKey : s.saveKey.cursor = s.cursor := by
  unfold saveKey
  split <;> rfl

@[simp] theorem limit_saveKey : s.saveKey.limit = s.limit := by
  unfold saveKey
  split <;> rfl

/-- The key that may start at a value is not required. -/
theorem keys_saveKey {x : Spot} {P : Level} (h : s.At x) (hP : P.Holds x.level)
    (hcolumn : P.indent < x.column) : ∃ k, s.saveKey.keys = [k] ∧
      (k.possible = true → k.required = false ∧ k.line = s.cursor.line) := by
  obtain ⟨k, hk, hnot⟩ := h.key
  unfold saveKey
  split
  · refine ⟨_, by simp [hk]; rfl, fun _ => ⟨?_, rfl⟩⟩
    rcases hP.2 with hL | hL
    · have hne : s.indent ≠ s.column := by
        rw [h.block.indent, hL, column, h.column]
        omega
      simp [hne]
    · simp [h.block.indents, hL, Level.loose]
  · exact ⟨k, hk, by simp [hnot]⟩

/-- The end of a scalar, if the lexer has come to the next line. -/
theorem reaches_of_scalar {x : Spot} {P : Level} {m : Nat} {body : List Char} {t : Token}
    {s' : Lexer} (h : s.At x) (hP : P.Holds x.level) (hcolumn : P.indent < x.column)
    (hm : m ≤ P.indent) (hbody : Starts body) (hshort : body.length ≤ x.body.length)
    (hblock : s'.InBlock P (t :: x.tokens) ∨ s'.InBlock x.level (t :: x.tokens))
    (hkeys : s'.keys = s.saveKey.keys) (hallowed : s'.keyAllowed = true)
    (hlimit : s'.limit = s.limit) (hrest : s'.cursor.rest = body) (hcol : s'.cursor.column = m)
    (hline : s.cursor.line < s'.cursor.line) : s'.Reaches (.ofLine m P (t :: x.tokens) body) := by
  obtain ⟨k, hk, hstale⟩ := keys_saveKey h hP hcolumn
  rw [hk] at hkeys
  have hlen : body.length < s'.limit := by
    have := h.limit
    omega
  have hstale' : k.possible = true → k.required = false ∧ k.line < s'.cursor.line :=
    fun hp => ⟨(hstale hp).1, by
      rw [(hstale hp).2]
      exact hline⟩
  rw [← hcol]
  rcases hblock with hblock | hblock
  · exact reaches_of_line hbody hblock hkeys hstale' hallowed hrest hlen
  · have hreach := reaches_of_line hbody hblock hkeys hstale' hallowed hrest hlen
    have hunroll := hP.unroll hm (t :: x.tokens)
    rw [Spot.ofLine, hcol, hunroll] at hreach
    rw [Spot.ofLine, hcol]
    exact hreach

/-- A character at which a plain scalar starts. -/
theorem token_plain {c : Char} {cs tail : List Char} (hflow : s.inFlow = false)
    (hfit : fitsPlain (c :: cs) = true) (hrest : s.cursor.rest = c :: (cs ++ tail)) :
    s.token c = s.plainScalar := by
  simp only [fitsPlain, Bool.and_eq_true, Bool.not_eq_true'] at hfit
  have hstart := hfit.1.1.1.2
  simp only [startsWithIndicator, Bool.or_eq_false_iff] at hstart
  obtain ⟨hstart, hmark⟩ := hstart
  have hnext : ['?', ':', '-'].contains c = true → isSpaceOrEnd s.cursor.peekNext = false := by
    intro hc
    rw [hc, Bool.true_and] at hmark
    cases cs with
    | nil => simp [isGap] at hmark
    | cons d cs =>
      simp only [List.head?_cons, isGap, Bool.or_eq_false_iff] at hmark
      have hd : d ≠ '\n' := by
        rintro rfl
        exact absurd hmark.1.2 (by decide)
      simp [Cursor.peekNext, hrest, isSpaceOrEnd, hmark.1.1, hd]
  simp only [List.contains_eq_mem, List.mem_cons, List.not_mem_nil, or_false, decide_eq_true_eq,
    decide_eq_false_iff_not, not_or] at hstart hnext
  unfold token
  split <;> simp_all

section Value

variable {x : Spot} {P : Level} {outer m : Nat} {body cs : List Char}

theorem dispatch_plain (h : s.At x) (hP : P.Holds x.level) (houter : P.indent = outer)
    (hcolumn : outer < x.column) (hm : m ≤ outer) (hbody : Starts body)
    (hne : cs ≠ []) (hfit : fitsPlain cs = true) (hx : x.body = cs ++ '\n' :: (spaces m ++ body)) :
    ∃ s', s.dispatch = .ok (s', false) ∧
      s'.Reaches (.ofLine m P (.scalar .plain (String.ofList cs) :: x.tokens) body) := by
  have htext := plainText_of_fitsPlain hne hfit
  have hrest := h.rest.trans hx
  have hdrop := (h.block.saveKey.allowKey false).dropOpenEnded (.inl hP)
  have hblock := (h.block.saveKey.allowKey false).setLevel P
  obtain ⟨c', hread, hbody', hcol, hline, hfresh⟩ := 
    readPlain_value htext hrest hbody (by rw [h.rest]; exact h.limit)
      (by rw [houter, h.column]; omega : P.indent < s.cursor.column) (by omega)
      (by simp [Cursor.atDocumentMarker, h.column]; omega)
  obtain ⟨c, cs, rfl⟩ := List.exists_cons_of_ne_nil hne
  have htoken : s.token c = .ok (((((s.saveKey.allowKey false).setLevel P).allowKey true).move c').push
      (.scalar .plain (String.ofList (c :: cs)))) := by
    rw [token_plain h.block.inFlow hfit hrest, plainScalar, hdrop]
    have hcursor : ((s.saveKey.allowKey false).setLevel P).cursor = s.cursor := cursor_saveKey
    have hlimit : ((s.saveKey.allowKey false).setLevel P).limit = s.limit := limit_saveKey
    simp only [hblock.inFlow, hblock.indent, hcursor, hlimit, hread, ok_bind, hfresh, if_true]
  refine ⟨_, dispatch_token h hx (by omega) (hP.indent_le (by omega)) htoken, ?_⟩
  refine reaches_of_scalar h hP (by omega) (by omega) hbody (by rw [hx]; simp; omega)
    (.inl (((hblock.allowKey true).move c').push _)) rfl rfl limit_saveKey hbody' hcol hline

theorem quote_token (double : Bool) (s : Lexer) :
    s.token (quote double) = s.quotedScalar (if double then .doubleQuoted else .singleQuoted) := by
  cases double <;> rfl

/-- A quoted scalar in front of a line break. -/
theorem dispatch_quoted {double : Bool} {code : Char → List Char} (h : s.At x)
    (hP : P.Holds x.level) (houter : P.indent = outer) (hcolumn : outer < x.column) (hm : m ≤ outer)
    (hbody : Starts body) (hcodes : ∀ c ∈ cs, Codes double code c)
    (hx : x.body = quote double :: (cs.flatMap code ++ quote double :: '\n' :: (spaces m ++ body))) :
    ∃ s', s.dispatch = .ok (s', false) ∧ s'.Reaches (.ofLine m P
      (.scalar (if double then .doubleQuoted else .singleQuoted) (String.ofList cs) :: x.tokens)
      body) := by
  have hrest := h.rest.trans hx
  have hblock := h.block.saveKey.allowKey false
  have hlen := h.limit
  rw [← h.rest, hrest, List.length_cons, List.length_append, List.length_cons, List.length_cons,
    List.length_append, length_spaces] at hlen
  have hcodelen := length_le_flatMap hcodes
  have hindent : s.indent ≤ s.cursor.column := by
    rw [h.block.indent, h.column]
    exact hP.indent_le (by omega)
  obtain ⟨c, hread, hpassed⟩ :=
    readQuoted_codes hcodes (.inl rfl) hrest (by omega : cs.length < s.limit) hindent
  have hskip := skipSpace_line (hblock.move c).inFlow hbody hpassed.rest (by omega : m < s.limit)
  have hblock₁ := ((hblock.move c).allowKey true).move
    ⟨body, c.index + 1 + m, c.line + 1, m, true⟩
  change skipSpace s.limit (move c (allowKey false s.saveKey)) = .ok
    (((((s.saveKey).allowKey false).move c).allowKey true).move
      ⟨body, c.index + 1 + m, c.line + 1, m, true⟩) at hskip
  generalize hs₁ : ((((s.saveKey).allowKey false).move c).allowKey true).move
    ⟨body, c.index + 1 + m, c.line + 1, m, true⟩ = s₁ at hskip hblock₁
  have htoken : s.token (quote double) = .ok (push (.scalar (if double then .doubleQuoted
      else .singleQuoted) (String.ofList cs)) { s₁ with adjacentAt := some s₁.cursor.index }) := by
    have hcursor : (s.saveKey.allowKey false).cursor = s.cursor := cursor_saveKey
    have hlimit : (s.saveKey.allowKey false).limit = s.limit := limit_saveKey
    rw [quote_token, quotedScalar]
    simp only [hblock.inFlow, hblock.indent, ← h.block.indent, hcursor, hlimit, hread, ok_bind, hskip]
  have hblock₂ : InBlock { s₁ with adjacentAt := some s₁.cursor.index } x.level x.tokens :=
    { hblock₁ with }
  refine ⟨_, dispatch_token h hx (by omega) (hP.indent_le (by omega)) htoken, ?_⟩
  subst hs₁
  refine reaches_of_scalar h hP (by omega) (by omega) hbody (by rw [hx]; simp; omega)
    (.inr (hblock₂.push _)) rfl rfl limit_saveKey rfl rfl ?_
  exact Nat.lt_succ_of_le (Nat.le_of_eq hpassed.line.symm)

/-- A literal scalar. -/
theorem dispatch_literal (h : s.At x) (hP : P.Holds x.level) (houter : P.indent = outer)
    (hcolumn : outer < x.column) (hm : m ≤ outer) (hbody : Starts body) (hne : cs ≠ [])
    (hlines : endsLines false cs = true)
    (hx : x.body = '|' :: (indentationMark cs ++ (endingMark cs ++ '\n' ::
      (writeLines (outer + 2) true cs ++ (spaces m ++ body))))) :
    ∃ s', s.dispatch = .ok (s', false) ∧
      s'.Reaches (.ofLine m P (.scalar .literal (String.ofList cs) :: x.tokens) body) := by
  have hrest := h.rest.trans hx
  have hdrop := (h.block.saveKey.allowKey true).dropOpenEnded (.inl hP)
  have hblock := (h.block.saveKey.allowKey true).setLevel P
  obtain ⟨c', hread, hbody', hcol, hline⟩ := readBlock_literal hm hbody hne hlines hrest
    (by rw [h.rest]; exact h.limit)
  have htoken : s.token '|' = .ok ((((s.saveKey.allowKey true).setLevel P).move c').push
      (.scalar .literal (String.ofList cs))) := by
    have hcursor : ((s.saveKey.allowKey true).setLevel P).cursor = s.cursor := cursor_saveKey
    have hlimit : ((s.saveKey.allowKey true).setLevel P).limit = s.limit := limit_saveKey
    show (if s.inFlow then s.plainScalar else s.blockScalar .literal) = _
    rw [h.block.inFlow, if_neg (by simp), blockScalar, hdrop]
    simp only [hblock.indent, houter, hcursor, hlimit, hread, ok_bind]
  refine ⟨_, dispatch_token h hx (by omega) (hP.indent_le (by omega)) htoken, ?_⟩
  exact reaches_of_scalar h hP (by omega) (by omega) hbody (by rw [hx]; simp; omega)
    (.inl ((hblock.move c').push _)) rfl rfl limit_saveKey hbody' hcol hline

end Value

end Lexer

/-! ## Scalars as they are written -/

section Written

variable {cs : List Char} (n : Nat)

theorem writeInline_plain (h : ofText cs = .plain) : writeInline n cs = cs := by
  rw [writeInline, h]

theorem writeInline_single (h : ofText cs = .singleQuoted) : writeInline n cs
    = quote false :: ((padded n false cs).flatMap singleCode ++ [quote false]) := by
  rw [writeInline, h, ← writeSingle_eq]
  rfl

theorem writeInline_double (h : ofText cs = .doubleQuoted) :
    writeInline n cs = quote true :: (cs.flatMap doubleCode ++ [quote true]) := by
  rw [writeInline, h]
  rfl

theorem writeScalar_inline (h : ofText cs ≠ .literal) (rest : List Char) :
    writeScalar n cs ++ rest = writeInline n cs ++ '\n' :: rest := by
  rw [writeScalar, if_neg h, List.append_assoc, List.singleton_append]

theorem writeScalar_literal (h : ofText cs = .literal) (rest : List Char) :
    writeScalar n cs ++ rest = '|' :: (indentationMark cs ++ (endingMark cs ++ '\n' ::
      (writeLines n true cs ++ rest))) := by
  rw [writeScalar, if_pos h]
  simp

/-- Every character takes at least one byte. -/
theorem length_le_utf8 (cs : List Char) : cs.length ≤ (utf8 (String.ofList cs)).length := by
  have hchars : cs.length ≤ (cs.flatMap String.utf8EncodeChar).length := by
    induction cs with
    | nil => simp
    | cons c cs ih =>
      have := c.utf8Size_pos
      simp only [List.flatMap_cons, List.length_append, List.length_cons,
        String.length_utf8EncodeChar]
      omega
  have hbytes : (utf8 (String.ofList cs)).length = (cs.flatMap String.utf8EncodeChar).length := by
    rw [utf8, String.toByteArray_ofList, List.utf8Encode, Array.length_toList]
    exact List.size_toByteArray
  omega

theorem line_of_isSimpleKey (h : isSimpleKey cs = true) : ∀ c ∈ cs, isLineBreak c = false := by
  simp only [isSimpleKey, Bool.and_eq_true, Bool.not_eq_true', List.any_eq_false] at h
  intro c hc
  simpa using h.1 c hc

/-- A key on one line is not written in a style with lines. -/
theorem ofText_ne_literal (h : isSimpleKey cs = true) : ofText cs ≠ .literal := by
  have hnl : cs.contains '\n' = false := by
    rw [Bool.eq_false_iff]
    intro hc
    exact absurd (line_of_isSimpleKey h '\n' (by simpa using hc)) (by decide)
  unfold ofText
  rw [hnl]
  simp only [Bool.false_eq_true, if_false]
  split
  · simp
  · split <;> simp

/-- A key on one line keeps its colon within reach. -/
theorem length_writeInline_le (h : isSimpleKey cs = true) : (writeInline n cs).length ≤ 1024 := by
  have hline := line_of_isSimpleKey h
  have hlen : cs.length ≤ 128 := by
    have := length_le_utf8 cs
    simp only [isSimpleKey, Bool.and_eq_true, decide_eq_true_eq] at h
    omega
  cases hstyle : ofText cs with
  | plain =>
    rw [writeInline_plain n hstyle]
    omega
  | singleQuoted =>
    have := length_flatMap_le length_singleCode_le cs
    rw [writeInline_single n hstyle, padded_of_line hline]
    simp only [List.length_cons, List.length_append, List.length_nil]
    omega
  | doubleQuoted =>
    have := length_flatMap_le length_doubleCode_le cs
    rw [writeInline_double n hstyle]
    simp only [List.length_cons, List.length_append, List.length_nil]
    omega
  | literal => exact absurd hstyle (ofText_ne_literal h)
  | folded => exact absurd hstyle ofText_ne_folded

theorem laidText_of_ne (h : ofText cs ≠ .singleQuoted) : laidText n cs = cs := if_neg h

end Written

/-- A plain scalar that ends its line. -/
theorem yields_plain {P : Level} {outer m : Nat} {x : Spot} {cs body : List Char}
    {result : Verdict} (hP : P.Holds x.level) (houter : P.indent = outer)
    (hcolumn : outer < x.column) (hm : m ≤ outer) (hbody : Starts body) (hne : cs ≠ [])
    (hfit : fitsPlain cs = true) (hx : x.body = cs ++ '\n' :: (spaces m ++ body))
    (hy : (Spot.ofLine m P (.scalar .plain (String.ofList cs) :: x.tokens) body).Yields result) :
    x.Yields result := by
  refine Spot.yields_of_step ?_ (fun s hs => ?_) hy
  · rw [hx]
    simp [Spot.ofLine]
    omega
  · exact s.dispatch_plain hs hP houter hcolumn hm hbody hne hfit hx

/-- A scalar that ends its line. -/
theorem yields_scalar {P L : Level} {outer m column : Nat} {cs body : List Char}
    {ts : List Token} {result : Verdict} {keyAllowed : Bool} (hP : P.Holds L) (houter : P.indent = outer)
    (hcolumn : outer < column) (hm : m ≤ outer) (hbody : Starts body) (hlays : Lays cs)
    (hy : (Spot.ofLine m P
      (.scalar (ofText cs) (String.ofList (laidText (outer + 2) cs)) :: ts) body).Yields result) :
    (Spot.mk (writeScalar (outer + 2) cs ++ (spaces m ++ body)) column ts keyAllowed L).Yields
      result := by
  have hshort : body.length < (writeScalar (outer + 2) cs ++ (spaces m ++ body)).length := by
    have : writeScalar (outer + 2) cs ≠ [] := by
      rw [writeScalar]
      split <;> simp
    have := List.length_pos_iff.2 this
    simp
    omega
  refine Spot.yields_of_step hshort (fun s hs => ?_) hy
  cases hstyle : ofText cs with
  | plain =>
    rw [laidText_of_ne _ (by simp [hstyle])]
    refine s.dispatch_plain hs hP houter hcolumn hm hbody (ne_nil_of_plain hstyle)
      (fitsPlain_of_ofText hstyle).1 ?_
    rw [writeScalar_inline _ (by simp [hstyle]), writeInline_plain _ hstyle]
  | singleQuoted =>
    rw [laidText, if_pos hstyle]
    refine s.dispatch_quoted hs hP houter hcolumn hm hbody
      (codes_of_singleQuoted (outer + 2) hstyle) ?_
    rw [writeScalar_inline _ (by simp [hstyle]), writeInline_single _ hstyle]
    simp
  | doubleQuoted =>
    rw [laidText_of_ne _ (by simp [hstyle])]
    refine s.dispatch_quoted hs hP houter hcolumn hm hbody (fun c _ => codes_double c) ?_
    rw [writeScalar_inline _ (by simp [hstyle]), writeInline_double _ hstyle]
    simp
  | literal =>
    rw [laidText_of_ne _ (by simp [hstyle])]
    have hne : cs ≠ [] := by
      rintro rfl
      exact absurd hstyle (by decide)
    exact s.dispatch_literal hs hP houter hcolumn hm hbody hne (hlays hstyle) (writeScalar_literal _ hstyle _)
  | folded => exact absurd hstyle ofText_ne_folded

end WorkspaceTrust.Yaml
