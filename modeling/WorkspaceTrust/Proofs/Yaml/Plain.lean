import WorkspaceTrust.Proofs.Yaml.Cursor

/-!
# Plain scalars are read as they are written

A text that `fitsPlain` has what the reader asks for (`PlainText`): no
line break and no tab, no colon before a blank, no hash after one, and no
blank at either end. The reader takes it word by word; `plainText_eq`
is the induction over the words, with the blanks between them as the gap
that is carried along.

Behind a value stands a line break, and the reader goes on to the next
content to see that it is indented less (`readPlain_value`). Behind a key
stands its colon, and the reader stops there (`readPlain_key`).
-/

namespace WorkspaceTrust.Yaml

/-- What the reader needs of a text to take it for one plain scalar. -/
structure PlainText (cs : List Char) : Prop where
  visible : ∀ c ∈ cs, c ≠ '\n' ∧ c ≠ '\t'
  colon : ∀ u v, cs = u ++ ':' :: v → ∃ d w, v = d :: w ∧ d ≠ ' '
  hash : ∀ u v, cs ≠ u ++ ' ' :: '#' :: v
  first : ∃ c rest, cs = c :: rest ∧ c ≠ ' ' ∧ c ≠ '#'
  last : cs.getLast? ≠ some ' '

namespace ScalarStyle

theorem hasIndicator_colon {before : Char} {u v : List Char}
    (h : hasIndicator before (u ++ ':' :: v) = false) : isGap v.head? = false := by
  induction u generalizing before with
  | nil =>
    simp only [List.nil_append, hasIndicator, Bool.or_eq_false_iff] at h
    simpa using h.1.1
  | cons c u ih =>
    simp only [List.cons_append, hasIndicator, Bool.or_eq_false_iff] at h
    exact ih h.2

theorem hasIndicator_hash {before : Char} {u v : List Char} :
    hasIndicator before (u ++ ' ' :: '#' :: v) = true := by
  induction u generalizing before with
  | nil => simp [hasIndicator, isGap]
  | cons c u ih => simp [hasIndicator, ih]

/-- What is not before a gap is before a character that is not a space. -/
theorem exists_of_isGap_head? {v : List Char} (h : isGap v.head? = false) :
    ∃ d w, v = d :: w ∧ d ≠ ' ' := by
  cases v with
  | nil => simp [isGap] at h
  | cons d w =>
    refine ⟨d, w, rfl, ?_⟩
    rintro rfl
    simp [isGap] at h

theorem visible_of_isPrintable {c : Char} (hc : isPrintable c = true)
    (hb : isLineBreak c = false) : c ≠ '\n' ∧ c ≠ '\t' := by
  constructor
  · rintro rfl
    simp [isLineBreak] at hb
  · rintro rfl
    exact absurd hc (by decide)

theorem plainText_of_fitsPlain {cs : List Char} (hne : cs ≠ []) (h : fitsPlain cs = true) :
    PlainText cs := by
  obtain ⟨c, rest, rfl⟩ := List.exists_cons_of_ne_nil hne
  simp only [fitsPlain, Bool.and_eq_true, Bool.not_eq_true'] at h
  obtain ⟨⟨⟨⟨⟨hall, -⟩, hstart⟩, hind⟩, hhead⟩, hlast⟩ := h
  have hfirst : c ≠ ' ' := by
    rintro rfl
    simp [isSpaceOrBreak] at hhead
  refine ⟨fun d hd => ?_, fun u v huv => ?_, fun u v huv => ?_, ⟨c, rest, rfl, hfirst, ?_⟩, ?_⟩
  · have := List.all_eq_true.1 hall d hd
    simp only [Bool.and_eq_true, Bool.not_eq_true'] at this
    exact visible_of_isPrintable this.1 this.2
  · cases u with
    | nil =>
      obtain ⟨rfl, rfl⟩ := List.cons.inj huv
      simp only [startsWithIndicator, Bool.or_eq_false_iff] at hstart
      exact exists_of_isGap_head? (by simpa using hstart.2)
    | cons b u =>
      obtain ⟨rfl, rfl⟩ := List.cons.inj huv
      exact exists_of_isGap_head? (hasIndicator_colon hind)
  · cases u with
    | nil => exact hfirst (List.cons.inj huv).1
    | cons b u =>
      obtain ⟨rfl, rfl⟩ := List.cons.inj huv
      exact absurd (hind.symm.trans hasIndicator_hash) (by simp)
  · rintro rfl
    simp [startsWithIndicator] at hstart
  · intro hl
    rw [hl] at hlast
    simp [isSpaceOrBreak] at hlast

end ScalarStyle

/-! ## Words -/

/-- A run of characters without blanks, up to something that ends it. -/
theorem plainRun_word {word tail : List Char}
    (hword : ∀ c ∈ word, isBlank c = false ∧ c ≠ '\n')
    (hcolon : ∀ u v, word = u ++ ':' :: v → isSpaceOrEnd (v ++ tail).head? = false)
    (htail : continuesPlain false tail = false) : plainRun false (word ++ tail) = word := by
  induction word with
  | nil =>
    cases tail with
    | nil => rfl
    | cons c rest => simp [plainRun, htail]
  | cons c word ih =>
    have hrest := ih (fun d hd => hword d (by simp [hd]))
      fun u v huv => hcolon (c :: u) v (by rw [huv]; rfl)
    have hc := hword c (by simp)
    have hgoes : continuesPlain false (c :: (word ++ tail)) = true := by
      by_cases hcc : c = ':'
      · subst hcc
        have := hcolon [] word rfl
        rw [List.head?_append] at this
        simp [continuesPlain, hc.1, this]
      · simp [continuesPlain, hc.1, hc.2, hcc]
    rw [List.cons_append, plainRun, if_pos hgoes, hrest]

namespace PlainText

theorem suffix {u cs : List Char} (h : PlainText (u ++ cs)) {c : Char} {rest : List Char}
    (hcs : cs = c :: rest) (hc : c ≠ ' ' ∧ c ≠ '#') : PlainText cs where
  visible d hd := h.visible d (List.mem_append_right _ hd)
  colon a b hab := h.colon (u ++ a) b (by rw [hab, List.append_assoc])
  hash a b hab := h.hash (u ++ a) b (by rw [hab, List.append_assoc])
  first := ⟨c, rest, hcs, hc⟩
  last hl := h.last (by rw [List.getLast?_append, hl]; rfl)

theorem colon_next {cs u v : List Char} (h : PlainText cs) (hcs : cs = u ++ ':' :: v)
    (tail : List Char) : isSpaceOrEnd (v ++ tail).head? = false := by
  obtain ⟨d, w, rfl, hd⟩ := h.colon u v hcs
  have hvis := h.visible d (by simp [hcs])
  simp [isSpaceOrEnd, isBlank, hd, hvis]

/-- A text is one word, or a word, some spaces and again a text. -/
theorem split {cs : List Char} (h : PlainText cs) : ∃ word, word ≠ [] ∧
    (∀ c ∈ word, isBlank c = false ∧ c ≠ '\n') ∧
    (cs = word ∨ ∃ n cs', cs = word ++ (spaces (n + 1) ++ cs') ∧ PlainText cs') := by
  obtain ⟨word, n, rest, rfl, hspace, hrest, hn⟩ := exists_word cs
  refine ⟨word, ?_, fun c hc => ?_, ?_⟩
  · rintro rfl
    obtain ⟨c, tail, hc, hne, -⟩ := h.first
    cases n with
    | zero => simp [hn rfl, spaces] at hc
    | succ n => exact hne (List.cons.inj hc).1.symm
  · have hvis := h.visible c (List.mem_append_left _ hc)
    have hne : c ≠ ' ' := fun he => hspace (he ▸ hc)
    exact ⟨by simp [isBlank, hne, hvis.2], hvis.1⟩
  · cases n with
    | zero => exact .inl (by simp [hn rfl, spaces])
    | succ n =>
      cases rest with
      | nil =>
        refine absurd ?_ h.last
        rw [List.append_nil, spaces, List.replicate_succ', ← List.append_assoc,
          List.getLast?_concat]
      | cons d tail =>
        refine .inr ⟨n, d :: tail, rfl, ?_⟩
        rw [← List.append_assoc] at h
        refine h.suffix rfl ⟨hrest d tail rfl, ?_⟩
        rintro rfl
        refine h.hash (word ++ spaces n) tail ?_
        simp [spaces, List.replicate_succ']

end PlainText

/-! ## The reader -/

/-- A gap with more spaces. -/
def Gap.addSpaces (n : Nat) (g : Gap) : Gap :=
  if g.lineStart then g else { g with blanks := spaces n ++ g.blanks }

namespace Gap

theorem addSpaces_zero (g : Gap) : g.addSpaces 0 = g := by
  obtain ⟨blanks, lineStart, folds, emptyLines⟩ := g
  cases lineStart <;> rfl

theorem addSpaces_addBlank (n : Nat) (g : Gap) :
    (g.addBlank ' ').addSpaces n = g.addSpaces (n + 1) := by
  have hblanks : spaces n ++ ' ' :: g.blanks = spaces (n + 1) ++ g.blanks :=
    replicate_append_cons n ' ' g.blanks
  cases hg : g.lineStart <;> simp [addSpaces, addBlank, hg, hblanks]

theorem reversedText_none_addSpaces (n : Nat) : (none.addSpaces n).reversedText = spaces n := by
  simp [addSpaces, reversedText, none]

end Gap

theorem plainGap_space {indent : Int} {fuel : Nat} {c : Cursor} {g : Gap} {rest : List Char}
    (h : c.rest = ' ' :: rest) :
    plainGap indent (fuel + 1) c g = plainGap indent fuel c.advance (g.addBlank ' ') := by
  rw [plainGap, h]
  simp

theorem plainGap_break {indent : Int} {fuel : Nat} {c : Cursor} {g : Gap} {rest : List Char}
    (h : c.rest = '\n' :: rest) :
    plainGap indent (fuel + 1) c g = plainGap indent fuel c.advance g.addBreak := by
  rw [plainGap, h]
  rfl

theorem plainGap_stop {indent : Int} {fuel : Nat} {c : Cursor} {g : Gap}
    (h : ∀ ch tail, c.rest = ch :: tail → isBlank ch = false ∧ ch ≠ '\n') :
    plainGap indent fuel c g = .ok (g, c) := by
  cases fuel with
  | zero => rfl
  | succ fuel =>
    rw [plainGap]
    split
    · next heq => exact absurd rfl (h _ _ heq).2
    · next heq => simp [(h _ _ heq).1]
    · rfl

/-- Spaces in front of content. -/
theorem plainGap_spaces (indent : Int) {rest : List Char}
    (hrest : ∀ ch tail, rest = ch :: tail → isBlank ch = false ∧ ch ≠ '\n') {n : Nat} :
    ∀ {fuel : Nat} {c : Cursor} {g : Gap}, n ≤ fuel → c.rest = spaces n ++ rest →
      plainGap indent fuel c g = .ok (g.addSpaces n, c.past (spaces n)) := by
  induction n with
  | zero =>
    intro fuel c g _ hc
    rw [plainGap_stop fun ch tail heq => hrest ch tail (hc.symm.trans heq), Gap.addSpaces_zero]
    rfl
  | succ n ih =>
    intro fuel c g hn hc
    obtain ⟨fuel, rfl⟩ : ∃ k, fuel = k + 1 := ⟨fuel - 1, by omega⟩
    have hc' : c.rest = ' ' :: (spaces n ++ rest) := hc
    have hadv := Cursor.advance_of_char hc' (by decide)
    rw [plainGap_space hc', ih (by omega) (by rw [hadv]), Gap.addSpaces_addBlank]
    rfl

/-- A line break and the indentation of the next content. -/
theorem plainGap_line (indent : Int) {body : List Char} (hbody : Starts body) {m fuel : Nat}
    {c : Cursor} (hfuel : m < fuel) (hc : c.rest = '\n' :: (spaces m ++ body)) :
    ∃ g, plainGap indent fuel c .none = .ok (g, ⟨body, c.index + 1 + m, c.line + 1, m, true⟩) := by
  obtain ⟨fuel, rfl⟩ : ∃ k, fuel = k + 1 := ⟨fuel - 1, by omega⟩
  have hadv := Cursor.advance_of_break hc
  have hrest : c.advance.rest = spaces m ++ body := by rw [hadv]
  have hgap := plainGap_spaces indent (g := Gap.none.addBreak)
    (fun ch tail heq => ⟨(hbody ch tail heq).1, (hbody ch tail heq).2.1⟩)
    (Nat.le_of_lt_succ hfuel) hrest
  rw [← plainGap_break hc, Cursor.past_spaces hrest, hadv, Nat.zero_add] at hgap
  exact ⟨_, hgap⟩

/-- How `plainText` goes on behind a piece: it skips white space, and stops if the next
content is not indented deep enough. -/
def plainEnd (limit : Nat) (indent : Int) (fuel : Nat) (c : Cursor) (text : List Char) :
    Except Fault (List Char × Cursor) :=
  if c.peek.any fun b => isBlank b || b = '\n' then do
    let (g, c) ← plainGap indent limit c .none
    if c.column < indent then .ok (text, c) else plainText limit false indent fuel c g text
  else .ok (text, c)

/-- One piece. -/
theorem plainText_piece {limit : Nat} {indent : Int} {fuel : Nat} {c : Cursor} {g : Gap}
    {text word : List Char} (hne : word ≠ [])
    (hmarker : c.atDocumentMarker = false) (hhash : c.peek ≠ some '#')
    (hrun : plainRun false c.rest = word) :
    plainText limit false indent (fuel + 1) c g text
      = plainEnd limit indent fuel (c.past word) (word.reverse ++ g.reversedText ++ text) := by
  rw [plainText, if_neg (by simp [hmarker, hhash]), if_neg (by simp)]
  simp only [hrun, if_neg hne, Bool.not_false, Bool.true_and, decide_eq_true_eq]
  rfl

/-- A text is read up to its end. The induction is on the words of the text; the gap
holds the spaces in front of the next one. -/
theorem PlainText.plainText_eq {limit : Nat} {tail : List Char} (indent : Int)
    (htail : continuesPlain false tail = false) {fuel : Nat} :
    ∀ {cs : List Char} {c : Cursor} (g : Gap) (text : List Char), PlainText cs →
      c.rest = cs ++ tail → cs.length ≤ limit → cs.length ≤ fuel → indent ≤ c.column + 1 →
      c.atDocumentMarker = false →
      ∃ fuel', plainText limit false indent fuel c g text
        = plainEnd limit indent fuel' (c.past cs) (cs.reverse ++ g.reversedText ++ text) := by
  induction fuel with
  | zero =>
    intro cs c g text h _ _ hfuel
    obtain ⟨ch, rest, rfl, -⟩ := h.first
    simp at hfuel
  | succ fuel ih =>
    intro cs c g text h hc hlimit hfuel hindent hmarker
    have hhash : c.peek ≠ some '#' := by
      obtain ⟨ch, rest, rfl, -, hne⟩ := h.first
      simpa [Cursor.peek, hc] using hne
    obtain ⟨word, hne, hword, rfl | ⟨n, cs', rfl, h'⟩⟩ := h.split
    · have hrun : plainRun false c.rest = cs := by
        rw [hc]
        exact plainRun_word hword (fun u v huv => h.colon_next huv tail) htail
      exact ⟨fuel, plainText_piece hne hmarker hhash hrun⟩
    · have hc' : c.rest = word ++ (spaces (n + 1) ++ (cs' ++ tail)) := by
        rw [hc, List.append_assoc, List.append_assoc]
      have hrun : plainRun false c.rest = word := by
        rw [hc']
        refine plainRun_word hword (fun u v huv => ?_) rfl
        have := h.colon_next (u := u) (v := v ++ (spaces (n + 1) ++ cs')) (by rw [huv]; simp) tail
        simpa [List.append_assoc] using this
      have hlen : (word ++ (spaces (n + 1) ++ cs')).length = word.length + (n + 1 + cs'.length) := by
        simp
      have hpast := Cursor.past_of_line hc' fun hm => (hword _ hm).2 rfl
      have hrest : (c.past word).rest = spaces (n + 1) ++ (cs' ++ tail) := by rw [hpast]
      have hpast' := Cursor.past_spaces hrest
      have hcolumn : ((c.past word).past (spaces (n + 1))).column
          = c.column + word.length + (n + 1) := by
        rw [hpast', hpast]
      have hgap := plainGap_spaces indent (g := .none) (fun ch rest heq => by
        obtain ⟨d, w, rfl, hd, -⟩ := h'.first
        obtain ⟨rfl, -⟩ := List.cons.inj heq
        have hvis := h'.visible d (by simp)
        exact ⟨by simp [isBlank, hd, hvis.2], hvis.1⟩) (by omega : n + 1 ≤ limit) hrest
      obtain ⟨fuel', hgoes⟩ := ih (Gap.none.addSpaces (n + 1))
        (word.reverse ++ g.reversedText ++ text) h'
        (c := (c.past word).past (spaces (n + 1))) (by rw [hpast']) (by omega) (by omega)
        (by omega) (by simp [Cursor.atDocumentMarker, hcolumn])
      refine ⟨fuel', ?_⟩
      rw [plainText_piece hne hmarker hhash hrun, plainEnd,
        if_pos (by simp [Cursor.peek, hrest, spaces_succ]), hgap]
      show (if _ then _ else _) = _
      rw [if_neg (by omega), hgoes, Gap.reversedText_none_addSpaces, Cursor.past_append,
        Cursor.past_append]
      simp [spaces]

namespace ScalarStyle

variable {limit : Nat} {indent : Int} {c : Cursor} {cs : List Char}

/-- A plain scalar in front of the colon of its key. -/
theorem readPlain_key {tail : List Char} (h : PlainText cs) (hc : c.rest = cs ++ ':' :: tail)
    (hgap : isSpaceOrEnd tail.head? = true) (hlimit : cs.length ≤ limit)
    (hindent : indent ≤ c.column) (hmarker : c.atDocumentMarker = false) :
    ∃ c', readPlain limit false indent c = .ok (String.ofList cs, c') ∧
      c.Passed cs (':' :: tail) c' := by
  have htail : continuesPlain false (':' :: tail) = false := by simp [continuesPlain, hgap]
  obtain ⟨fuel, hread⟩ := h.plainText_eq (indent + 1) htail .none [] hc
    hlimit hlimit (by omega) hmarker
  have hpast := Cursor.passed_past hc fun hm => (h.visible _ hm).1 rfl
  have hne : cs ≠ [] := by
    obtain ⟨ch, rest, rfl, -⟩ := h.first
    simp
  refine ⟨c.past cs, ?_, hpast⟩
  rw [readPlain, if_neg (by simp), hread, plainEnd,
    if_neg (by simp [hpast.rest, Cursor.peek, isBlank])]
  simp [Gap.reversedText, Gap.none, hne]

/-- A plain scalar at the end of its line, up to the next content. -/
theorem readPlain_value {m : Nat} {body : List Char} (h : PlainText cs)
    (hc : c.rest = cs ++ '\n' :: (spaces m ++ body)) (hbody : Starts body)
    (hlimit : c.rest.length < limit) (hindent : indent < c.column) (hm : m ≤ indent)
    (hmarker : c.atDocumentMarker = false) :
    ∃ c', readPlain limit false indent c = .ok (String.ofList cs, c') ∧
      c'.rest = body ∧ c'.column = m ∧ c.line < c'.line ∧ c'.fresh = true := by
  have hlen : cs.length + (m + body.length) < limit := by
    rw [hc] at hlimit
    simp at hlimit
    omega
  have htail : continuesPlain false ('\n' :: (spaces m ++ body)) = false := rfl
  have hfits : cs.length ≤ limit := by omega
  obtain ⟨fuel, hread⟩ := h.plainText_eq (indent + 1) htail .none [] hc
    hfits hfits (by omega) hmarker
  have hpast := Cursor.past_of_line hc fun hm => (h.visible _ hm).1 rfl
  have hrest : (c.past cs).rest = '\n' :: (spaces m ++ body) := by rw [hpast]
  have hne : cs ≠ [] := by
    obtain ⟨ch, rest, rfl, -⟩ := h.first
    simp
  obtain ⟨g, hgap⟩ := plainGap_line (indent + 1) hbody (by omega : m < limit) hrest
  refine ⟨⟨body, (c.past cs).index + 1 + m, (c.past cs).line + 1, m, true⟩, ?_, rfl, rfl, ?_, rfl⟩
  · have hlt : (m : Int) < indent + 1 := by omega
    rw [readPlain, if_neg (by simp), hread, plainEnd, if_pos (by simp [Cursor.peek, hrest]), hgap,
      ok_bind]
    simp only [if_pos hlt, ok_bind]
    rw [if_neg (by simp [Gap.reversedText, Gap.none, hne])]
    simp [Gap.reversedText, Gap.none]
  · simp [hpast]

end ScalarStyle

end WorkspaceTrust.Yaml
