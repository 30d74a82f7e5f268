import Mathlib.Algebra.Group.Nat.Defs
import WorkspaceTrust.Proofs.Decimal.Digits
import WorkspaceTrust.Proofs.Yaml.Plain

/-!
# Quoted scalars are read as they are written

Between quotes every character has a code: itself, a doubled quote or an
escape. `Codes` says what a reader needs of the code of one character,
`codes_single` and `codes_double` that the codes of both styles have it,
and `readQuoted_codes` that a scalar made of such codes is read as its
text. Spaces are codes too, but the reader takes them as gaps between
the words.

Single quotes need no escapes, and where the writer takes a character for
the end of a line that the reader does not (`padded`), the indentation
that it puts behind becomes part of the text.
-/

namespace WorkspaceTrust.Yaml

/-- A cursor in front of what ends a piece of a quoted scalar. -/
def EndsRun (double : Bool) (tail : List Char) : Prop :=
  ∀ fuel c text, c.rest = tail → quotedRun double fuel c text = .ok (text, c, false)

/-- What the reader needs of the code of a character. Every code but that of a space
starts with something that is seen, and is read as the character. -/
structure Codes (double : Bool) (code : Char → List Char) (c : Char) : Prop where
  line : '\n' ∉ code c
  space : c = ' ' → code c = [' ']
  starts : c ≠ ' ' → ∃ ch tail, code c = ch :: tail ∧ isBlank ch = false
  read : c ≠ ' ' → ∀ fuel cur rest text, cur.rest = code c ++ rest →
    quotedRun double (fuel + 1) cur text = quotedRun double fuel (cur.past (code c)) (c :: text)

/-- The quote of either style. -/
def quote (double : Bool) : Char := if double then '"' else '\''

theorem endsRun_space (double : Bool) (rest : List Char) : EndsRun double (' ' :: rest) := by
  intro fuel c text hc
  cases fuel with
  | zero => rfl
  | succ fuel =>
    rw [quotedRun, hc]
    simp

theorem endsRun_quote {double : Bool} {tail : List Char} (h : tail.head? ≠ some '\'') :
    EndsRun double (quote double :: tail) := by
  intro fuel c text hc
  cases fuel with
  | zero => rfl
  | succ fuel =>
    rw [quotedRun, hc]
    cases double <;> simp [quote, isBlank, h]

section Reader

variable {double : Bool} {code : Char → List Char}

theorem quotedRun_word {tail : List Char} (htail : EndsRun double tail) {word : List Char} :
    ∀ {fuel : Nat} {c : Cursor} {text : List Char}, (∀ ch ∈ word, Codes double code ch) →
      ' ' ∉ word → c.rest = word.flatMap code ++ tail → word.length ≤ fuel →
      quotedRun double fuel c text
        = .ok (word.reverse ++ text, c.past (word.flatMap code), false) := by
  induction word with
  | nil =>
    intro fuel c text _ _ hc _
    exact htail fuel c text hc
  | cons ch word ih =>
    intro fuel c text hcodes hspace hc hfuel
    obtain ⟨fuel, rfl⟩ : ∃ k, fuel = k + 1 := ⟨fuel - 1, by simp at hfuel; omega⟩
    obtain ⟨hne, hspace⟩ : ch ≠ ' ' ∧ ' ' ∉ word := by
      simpa [eq_comm] using hspace
    have hch := hcodes ch (by simp)
    have hc' : c.rest = code ch ++ (word.flatMap code ++ tail) := by simpa using hc
    rw [hch.read hne fuel c _ text hc', ih (fun d hd => hcodes d (by simp [hd])) hspace
      (by rw [Cursor.past_of_line hc' hch.line]) (by simpa using hfuel)]
    simp [Cursor.past_append]

theorem quotedGap_space {indent : Int} {fuel : Nat} {c : Cursor} {g : Gap} {rest : List Char}
    (h : c.rest = ' ' :: rest) :
    quotedGap indent (fuel + 1) c g = quotedGap indent fuel c.advance (g.addBlank ' ') := by
  rw [quotedGap, h]
  simp

theorem quotedGap_stop {indent : Int} {fuel : Nat} {c : Cursor} {g : Gap}
    (h : ∀ ch tail, c.rest = ch :: tail → isBlank ch = false ∧ ch ≠ '\n') :
    quotedGap indent fuel c g = .ok (g, c) := by
  cases fuel with
  | zero => rfl
  | succ fuel =>
    rw [quotedGap]
    split
    · next heq => exact absurd rfl (h _ _ heq).2
    · next heq => simp [(h _ _ heq).1]
    · rfl

theorem quotedGap_spaces (indent : Int) {rest : List Char}
    (hrest : ∀ ch tail, rest = ch :: tail → isBlank ch = false ∧ ch ≠ '\n') {n : Nat} :
    ∀ {fuel : Nat} {c : Cursor} {g : Gap}, n ≤ fuel → c.rest = spaces n ++ rest →
      quotedGap indent fuel c g = .ok (g.addSpaces n, c.past (spaces n)) := by
  induction n with
  | zero =>
    intro fuel c g _ hc
    rw [quotedGap_stop fun ch tail heq => hrest ch tail (hc.symm.trans heq), Gap.addSpaces_zero]
    rfl
  | succ n ih =>
    intro fuel c g hn hc
    obtain ⟨fuel, rfl⟩ : ∃ k, fuel = k + 1 := ⟨fuel - 1, by omega⟩
    have hc' : c.rest = ' ' :: (spaces n ++ rest) := hc
    have hadv := Cursor.advance_of_char hc' (by decide)
    rw [quotedGap_space hc', ih (by omega) (by rw [hadv]), Gap.addSpaces_addBlank]
    rfl

theorem flatMap_spaces (h : Codes double code ' ') (n : Nat) :
    (spaces n).flatMap code = spaces n := by
  induction n with
  | zero => rfl
  | succ n ih => rw [spaces_succ, List.flatMap_cons, ih, h.space rfl, List.singleton_append]

theorem line_flatMap {cs : List Char} (h : ∀ ch ∈ cs, Codes double code ch) :
    '\n' ∉ cs.flatMap code := by
  intro hm
  obtain ⟨ch, hch, hline⟩ := List.mem_flatMap.1 hm
  exact (h ch hch).line hline

theorem length_le_flatMap {cs : List Char} (h : ∀ ch ∈ cs, Codes double code ch) :
    cs.length ≤ (cs.flatMap code).length := by
  induction cs with
  | nil => simp
  | cons c cs ih =>
    have hpos : 0 < (code c).length := by
      by_cases hc : c = ' '
      · simp [(h c (by simp)).space hc]
      · obtain ⟨ch, tail, hcode, -⟩ := (h c (by simp)).starts hc
        simp [hcode]
    have hcs := ih fun d hd => h d (by simp [hd])
    simp only [List.flatMap_cons, List.length_append, List.length_cons]
    omega

/-- What stands behind a piece starts with something that is seen. -/
theorem starts_flatMap {cs tail : List Char} (h : ∀ ch ∈ cs, Codes double code ch)
    (hspace : ∀ ch rest, cs = ch :: rest → ch ≠ ' ') :
    ∀ ch rest, cs.flatMap code ++ quote double :: tail = ch :: rest →
      isBlank ch = false ∧ ch ≠ '\n' := by
  intro ch rest heq
  cases cs with
  | nil =>
    obtain ⟨rfl, -⟩ := List.cons.inj heq
    cases double <;> exact ⟨rfl, by decide⟩
  | cons d cs =>
    have hd := h d (by simp)
    obtain ⟨e, code', hcode, he⟩ := hd.starts (hspace d cs rfl)
    simp only [List.flatMap_cons, hcode, List.cons_append] at heq
    obtain ⟨rfl, -⟩ := List.cons.inj heq
    refine ⟨he, ?_⟩
    rintro rfl
    exact hd.line (by simp [hcode])

/-- The scalar is read up to its closing quote, word by word. -/
theorem quotedText_codes {limit : Nat} {indent : Int} {tail : List Char}
    (htail : tail.head? ≠ some '\'') {fuel : Nat} :
    ∀ {cs : List Char} {c : Cursor} {text : List Char}, (∀ ch ∈ cs, Codes double code ch) →
      c.rest = cs.flatMap code ++ quote double :: tail → cs.length < fuel → cs.length ≤ limit →
      indent ≤ c.column → 0 < c.column →
      quotedText limit double indent fuel c text
        = .ok (cs.reverse ++ text, c.past (cs.flatMap code ++ [quote double])) := by
  induction fuel with
  | zero =>
    intro cs c text _ _ hfuel
    exact absurd hfuel (Nat.not_lt_zero _)
  | succ fuel ih =>
    intro cs c text hcodes hc hfuel hlimit hindent hcolumn
    have hstart : ¬ c.atDocumentMarker = true := by
      simp [Cursor.atDocumentMarker, Nat.ne_of_gt hcolumn]
    rw [quotedText, if_neg hstart, if_neg (by simp [hc]), if_neg (by omega)]
    obtain ⟨word, n, rest, rfl, hspace, hrest, hn⟩ := exists_word cs
    have hword : ∀ ch ∈ word, Codes double code ch := fun ch hch => hcodes ch (by simp [hch])
    have hcodes' : ∀ ch ∈ rest, Codes double code ch := fun ch hch => hcodes ch (by simp [hch])
    simp only [List.length_append, length_spaces] at hfuel hlimit
    have hflat : (word ++ (spaces n ++ rest)).flatMap code
        = word.flatMap code ++ (spaces n ++ rest.flatMap code) := by
      cases n with
      | zero => simp [hn rfl, spaces]
      | succ n =>
        rw [List.flatMap_append, List.flatMap_append,
          flatMap_spaces (hcodes ' ' (by simp [spaces_succ]))]
    rw [hflat, List.append_assoc, List.append_assoc] at hc
    have hpast := Cursor.past_of_line hc (line_flatMap hword)
    cases n with
    | zero =>
      obtain rfl := hn rfl
      have hend : (c.past (word.flatMap code)).peek = some (quote double) := by simp [hpast, spaces,
        Cursor.peek]
      rw [quotedRun_word (endsRun_quote htail) hword hspace hc (by omega), ok_bind, hflat]
      rw [← quote]
      simp only [if_pos hend]
      simp [Cursor.past_append, spaces, Cursor.past_cons]
    | succ n =>
      have hrest' : (c.past (word.flatMap code)).rest
          = spaces (n + 1) ++ (rest.flatMap code ++ quote double :: tail) := by rw [hpast]
      have hend : (c.past (word.flatMap code)).peek ≠ some (quote double) := by
        cases double <;> simp [hrest', spaces_succ, Cursor.peek, quote]
      have hgap := quotedGap_spaces indent (g := .none) (starts_flatMap hcodes' hrest)
        (by omega : n + 1 ≤ limit) hrest'
      have hpast' := Cursor.past_spaces hrest'
      have hcolumn' : ((c.past (word.flatMap code)).past (spaces (n + 1))).column
          = c.column + (word.flatMap code).length + (n + 1) := by
        rw [hpast', hpast]
      rw [quotedRun_word (endsRun_space double _) hword hspace hc (by omega), ok_bind, hflat]
      rw [← quote]
      simp only [if_neg hend, Bool.false_eq_true, if_false, hgap, ok_bind]
      rw [ih hcodes' (by rw [hpast']) (by omega) (by omega) (by omega) (by omega)]
      simp [Gap.reversedText_none_addSpaces, Cursor.past_append, spaces]

/-- A quoted scalar with what may stand behind one in a block: the end of its line, or
the colon of its key. -/
theorem readQuoted_codes {limit : Nat} {indent : Int} {cs tail : List Char} {ch : Char}
    {c : Cursor} (hcodes : ∀ ch ∈ cs, Codes double code ch) (hch : ch = '\n' ∨ ch = ':')
    (hc : c.rest = quote double :: (cs.flatMap code ++ quote double :: ch :: tail))
    (hlimit : cs.length < limit) (hindent : indent ≤ c.column) :
    ∃ c', readQuoted limit false indent c = .ok (String.ofList cs, c') ∧
      c.Passed (quote double :: (cs.flatMap code ++ [quote double])) (ch :: tail) c' := by
  have hq : quote double ≠ '\n' := by cases double <;> decide
  have hadv := Cursor.advance_of_char hc hq
  have hdouble : decide (c.peek = some '"') = double := by
    cases double <;> simp [Cursor.peek, hc, quote]
  have hrest : c.advance.rest = cs.flatMap code ++ quote double :: ch :: tail := by rw [hadv]
  have hpast : c.Passed (quote double :: (cs.flatMap code ++ [quote double])) (ch :: tail)
      (c.past (quote double :: (cs.flatMap code ++ [quote double]))) :=
    Cursor.passed_past (by rw [hc]; simp) (by simp [line_flatMap hcodes, hq.symm])
  have htail : (ch :: tail).head? ≠ some '\'' := by rcases hch with rfl | rfl <;> simp
  refine ⟨_, ?_, hpast⟩
  rw [Cursor.past_cons] at hpast ⊢
  have hskip := Cursor.skipToContent_of_content
    (c := c.advance.past (cs.flatMap code ++ [quote double])) fun d rest heq => by
      rw [hpast.rest] at heq
      obtain ⟨rfl, -⟩ := List.cons.inj heq
      rcases hch with rfl | rfl <;> exact ⟨rfl, by decide⟩
  rw [readQuoted]
  simp only [hdouble]
  rw [quotedText_codes htail hcodes hrest hlimit (Nat.le_of_lt hlimit) (by rw [hadv]; simp; omega)
    (by rw [hadv]; simp), ok_bind]
  simp only [hskip, ok_bind, Cursor.peek, hpast.rest, hpast.line]
  rcases hch with rfl | rfl <;> simp

end Reader

namespace ScalarStyle

/-! ## Single quotes -/

/-- A character between single quotes. -/
def singleCode (c : Char) : List Char := if c = '\'' then ['\'', '\''] else [c]

/-- The text between single quotes as it is laid out: behind what the writer takes for
the end of a line stands indentation. -/
def padded (n : Nat) (broken : Bool) : List Char → List Char
  | [] => if broken then spaces n else []
  | c :: cs =>
      if isLineBreak c then c :: padded n true cs
      else (if broken then spaces n else []) ++ c :: padded n false cs

theorem padded_of_line {n : Nat} {cs : List Char} (h : ∀ c ∈ cs, isLineBreak c = false) :
    padded n false cs = cs := by
  induction cs with
  | nil => rfl
  | cons c cs ih =>
    rw [padded, h c (by simp), ih fun d hd => h d (by simp [hd])]
    rfl

theorem singleCode_of_ne {c : Char} (h : c ≠ '\'') : singleCode c = [c] := if_neg h

theorem flatMap_singleCode_spaces (n : Nat) : (spaces n).flatMap singleCode = spaces n := by
  induction n with
  | zero => rfl
  | succ n ih => rw [spaces_succ, List.flatMap_cons, ih, singleCode_of_ne (by decide)]; rfl

theorem writeSingle_eq (n : Nat) (broken : Bool) (cs : List Char) :
    writeSingle n broken cs = (padded n broken cs).flatMap singleCode := by
  induction cs generalizing broken with
  | nil => cases broken <;> simp [writeSingle, padded, flatMap_singleCode_spaces]
  | cons c cs ih =>
    rw [writeSingle, padded]
    split
    · next h =>
      have hne : c ≠ '\'' := by
        rintro rfl
        exact absurd h (by decide)
      rw [List.flatMap_cons, singleCode_of_ne hne, ih]
      rfl
    · rw [List.flatMap_append, List.flatMap_cons, ih, List.append_assoc]
      cases broken <;> simp [flatMap_singleCode_spaces, singleCode]

theorem mem_padded {n : Nat} {c : Char} {cs : List Char} :
    ∀ {broken : Bool}, c ∈ padded n broken cs → c = ' ' ∨ c ∈ cs := by
  induction cs with
  | nil =>
    intro broken h
    cases broken with
    | false => simp [padded] at h
    | true => exact .inl (mem_spaces (by simpa [padded] using h))
  | cons d cs ih =>
    intro broken h
    rw [padded] at h
    split at h
    · rcases List.mem_cons.1 h with rfl | h
      · simp
      · exact (ih h).imp_right (List.mem_cons_of_mem d)
    · rcases List.mem_append.1 h with h | h
      · cases broken with
        | false => simp at h
        | true => exact .inl (mem_spaces (by simpa using h))
      · rcases List.mem_cons.1 h with rfl | h
        · simp
        · exact (ih h).imp_right (List.mem_cons_of_mem d)

theorem codes_single {c : Char} (hc : c ≠ '\n' ∧ c ≠ '\t') : Codes false singleCode c where
  line := by
    by_cases h : c = '\''
    · simp [singleCode, h]
    · simp [singleCode, h, hc.1.symm]
  space h := by simp [singleCode, h]
  starts h := by
    by_cases hq : c = '\''
    · exact ⟨'\'', ['\''], by simp [singleCode, hq], by decide⟩
    · exact ⟨c, [], by simp [singleCode, hq], by simp [isBlank, h, hc.2]⟩
  read h fuel cur rest text hcur := by
    by_cases hq : c = '\''
    · subst hq
      rw [quotedRun, hcur]
      rfl
    · rw [singleCode_of_ne hq, List.singleton_append] at hcur
      rw [quotedRun, hcur, singleCode_of_ne hq]
      simp [isBlank, h, hc, hq, Cursor.past_cons]

/-! ## Double quotes -/

/-- A character between double quotes. -/
def doubleCode (c : Char) : List Char :=
  if isPrintable c && !isLineBreak c && c ≠ '"' && c ≠ '\\' then [c] else escape c

theorem length_hexField {width n : Nat} (hw : 0 < width) (hn : n < 16 ^ width) :
    (hexField width n).length = width := by
  have := (Nat.length_toDigits_le_iff (by decide) hw).2 hn
  simp only [hexField, List.length_append, List.length_replicate, List.length_map]
  omega

theorem readNat_hexField (width n : Nat) : Literal.readNat 16 (hexField width n) = some n := by
  have hdigits := Literal.isDigit_of_mem_toDigits (by decide) Literal.digitValue_toUpper n
  rw [Literal.readNat, if_pos]
  · rw [hexField, Literal.natOfDigits_zeros,
      Literal.natOfDigits_toDigits (by decide) Literal.digitValue_toUpper]
  · refine ⟨?_, List.all_eq_true.2 fun c hc => ?_⟩
    · simp [hexField, Nat.toDigits_ne_nil]
    · rcases List.mem_append.1 hc with hc | hc
      · rw [List.eq_of_mem_replicate hc]
        rfl
      · exact hdigits c hc

theorem charOfCode_toNat (c : Char) : charOfCode c.toNat = some c := by
  have h : c.toNat.isValidChar := c.valid
  rw [charOfCode, if_pos h, Char.ofNat_toNat]

/-- A numeric escape. -/
theorem readEscape_hexField {letter : Char} {width : Nat} {c : Char}
    (hw : escapeWidth letter = width) (hpos : 0 < width) (hc : c.toNat < 16 ^ width)
    (rest : List Char) :
    readEscape (letter :: hexField width c.toNat ++ rest) = .ok (c, width + 1) := by
  have hlen := length_hexField hpos hc
  have htake : (hexField width c.toNat ++ rest).take width = hexField width c.toNat := by
    rw [List.take_append_of_le_length (Nat.le_of_eq hlen.symm), List.take_of_length_le
      (Nat.le_of_eq hlen)]
  rw [List.cons_append, readEscape]
  simp only [hw, htake, hlen, if_true, if_neg (Nat.ne_of_gt hpos), readNat_hexField,
    charOfCode_toNat]

theorem line_hexField (width n : Nat) : '\n' ∉ hexField width n := by
  intro h
  rcases List.mem_append.1 h with h | h
  · exact absurd (List.eq_of_mem_replicate h) (by decide)
  · have := Literal.isDigit_of_mem_toDigits (by decide) Literal.digitValue_toUpper n _ h
    exact absurd this (by decide)

/-- The characters with an escape of one letter. -/
def lettered : List Char :=
  ['\x00', '\x07', '\x08', '\t', '\n', '\x0b', '\x0c', '\r', '\x1b', '"', '\\', '\x85', '\u2028',
    '\u2029']

theorem escape_lettered : ∀ c ∈ lettered,
    let l := (escape c).getD 1 ' '
    escape c = ['\\', l] ∧ escapeWidth l = 0 ∧ letterEscape l = some c ∧ '\n' ≠ l := by
  have hall : (lettered.all fun c => let l := (escape c).getD 1 ' '
      decide (escape c = ['\\', l] ∧ escapeWidth l = 0 ∧ letterEscape l = some c ∧ '\n' ≠ l)) = true := by
    decide
  exact fun c hc => of_decide_eq_true (List.all_eq_true.1 hall c hc)

theorem escape_of_not_lettered {c : Char} (h : c ∉ lettered) :
    escape c =
      if c.toNat ≤ 0xFF then '\\' :: 'x' :: hexField 2 c.toNat
      else if c.toNat ≤ 0xFFFF then '\\' :: 'u' :: hexField 4 c.toNat
      else '\\' :: 'U' :: hexField 8 c.toNat := by
  simp only [lettered, List.mem_cons, List.not_mem_nil, or_false, not_or] at h
  simp [escape, h]

/-- Every escape is a backslash and what the reader takes for the character. -/
theorem exists_escape (c : Char) : ∃ e, escape c = '\\' :: e ∧ '\n' ∉ e ∧ e ≠ [] ∧
    ∀ rest, readEscape (e ++ rest) = .ok (c, e.length) := by
  have hhex : ∀ {l : Char} {width : Nat}, escapeWidth l = width → 0 < width → '\n' ≠ l →
      c.toNat < 16 ^ width → ∃ e, '\\' :: l :: hexField width c.toNat = '\\' :: e ∧ '\n' ∉ e ∧
        e ≠ [] ∧ ∀ rest, readEscape (e ++ rest) = .ok (c, e.length) := fun hw hpos hne hn =>
    ⟨_, rfl, by simp [line_hexField, hne], by simp, fun rest => by
      rw [readEscape_hexField hw hpos hn, List.length_cons, length_hexField hpos hn]⟩
  by_cases h : c ∈ lettered
  · obtain ⟨hcode, hw, hl, hne⟩ := escape_lettered c h
    generalize (escape c).getD 1 ' ' = l at hcode hw hl hne
    exact ⟨[l], hcode, by simpa using hne, by simp, fun rest => by simp [readEscape, hw, hl]⟩
  · rw [escape_of_not_lettered h]
    split
    · exact hhex rfl (by decide) (by decide) (by omega)
    · split
      · exact hhex rfl (by decide) (by decide) (by omega)
      · exact hhex rfl (by decide) (by decide) c.val.toNat_lt

theorem codes_double (c : Char) : Codes true doubleCode c := by
  by_cases h : (isPrintable c && !isLineBreak c && c ≠ '"' && c ≠ '\\') = true
  · have hcode : doubleCode c = [c] := if_pos h
    simp only [Bool.and_eq_true, Bool.not_eq_true', decide_eq_true_eq] at h
    obtain ⟨⟨⟨hprint, hbreak⟩, hquote⟩, hslash⟩ := h
    have hvis := visible_of_isPrintable hprint hbreak
    refine ⟨by simp [hcode, hvis.1.symm], fun hs => by rw [hcode, hs], fun hs => ?_, fun hs => ?_⟩
    · exact ⟨c, [], hcode, by simp [isBlank, hs, hvis.2]⟩
    · intro fuel cur rest text hcur
      rw [hcode, List.singleton_append] at hcur
      rw [quotedRun, hcur, hcode]
      simp [isBlank, hs, hvis, hquote, hslash, Cursor.past_cons]
  · have hcode : doubleCode c = escape c := if_neg h
    obtain ⟨e, he, hline, hne, hread⟩ := exists_escape c
    refine ⟨by simp [hcode, he, hline], fun hs => ?_, fun _ => ?_, fun _ => ?_⟩
    · subst hs
      exact absurd (by decide) h
    · exact ⟨'\\', e, hcode.trans he, rfl⟩
    · intro fuel cur rest text hcur
      obtain ⟨ch, e', rfl⟩ := List.exists_cons_of_ne_nil hne
      have hch : ch ≠ '\n' := fun hch => hline (by simp [hch])
      have hread' := hread rest
      rw [hcode, he] at hcur
      simp only [List.cons_append] at hcur hread'
      rw [quotedRun, hcur, hcode, he]
      simp [isBlank, hch, hread', Cursor.past]

/-! ## How long codes are -/

theorem length_singleCode_le (c : Char) : (singleCode c).length ≤ 2 := by
  rw [singleCode]
  split <;> simp

/-- Characters with long numbers are printable, so no escape has eight digits. -/
theorem length_doubleCode_le (c : Char) : (doubleCode c).length ≤ 6 := by
  by_cases h : (isPrintable c && !isLineBreak c && c ≠ '"' && c ≠ '\\') = true
  · rw [doubleCode, if_pos h]
    simp
  · rw [doubleCode, if_neg h]
    by_cases hl : c ∈ lettered
    · rw [(escape_lettered c hl).1]
      simp
    · rw [escape_of_not_lettered hl]
      split
      · simp [length_hexField (by decide : 0 < 2) (by omega : c.toNat < 16 ^ 2)]
      · split
        · simp [length_hexField (by decide : 0 < 4) (by omega : c.toNat < 16 ^ 4)]
        · refine absurd ?_ h
          simp only [lettered, List.mem_cons, List.not_mem_nil, or_false, not_or] at hl
          have hprint : isPrintable c = true := by
            simp only [isPrintable, decide_eq_true_eq]
            omega
          have hbreak : isLineBreak c = false := by
            simp [isLineBreak, hl]
          simp [hprint, hbreak, hl]

theorem length_flatMap_le {code : Char → List Char} {k : Nat} (h : ∀ c, (code c).length ≤ k)
    (cs : List Char) : (cs.flatMap code).length ≤ k * cs.length := by
  induction cs with
  | nil => simp
  | cons c cs ih =>
    have := h c
    simp only [List.flatMap_cons, List.length_append, List.length_cons, Nat.mul_succ]
    omega

end ScalarStyle

end WorkspaceTrust.Yaml
