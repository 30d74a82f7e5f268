import WorkspaceTrust.Proofs.Yaml.Cursor
import Mathlib.Data.List.Basic

/-!
# Literal scalars are read as they are written

A literal scalar is written line by line (`layLines`): lines are indented,
empty ones are left empty. The reader goes through the lines in two
loops, one over the empty lines up to the next line with content
(`skipIndentation_layLines`) and one over the lines with content
(`blockLines_layLines`). The line breaks at the end are a matter of the
header, which `readBlock_literal` takes together with the lines.

Only line feeds end lines for the reader. The writer knows two more
characters that do and are printable, and it indents what follows them.
Where these characters stand at the end of a line (`endsLines`), the
indentation is that of the next line and nothing is changed.
-/

namespace WorkspaceTrust.Yaml

namespace ScalarStyle

/-- The line feeds at the ends of lines. -/
def joinLines (ls : List (List Char)) : List Char := ls.flatMap fun w => w ++ ['\n']

/-- Lines with indentation, except in front of nothing. -/
def layLines (n : Nat) (ls : List (List Char)) : List Char :=
  ls.flatMap fun w => (if w = [] then [] else spaces n ++ w) ++ ['\n']

/-- Whether what the writer takes for the end of a line stands at the end of a line.
`seen` says that the line has begun with something else. -/
def endsLines (seen : Bool) : List Char → Bool
  | [] => true
  | c :: cs =>
      if c = '\n' then endsLines false cs
      else if isLineBreak c then seen && cs.head?.any isLineBreak && endsLines true cs
      else endsLines true cs

@[simp] theorem joinLines_nil : joinLines [] = [] := rfl

@[simp] theorem joinLines_cons (w : List Char) (ls : List (List Char)) :
    joinLines (w :: ls) = w ++ '\n' :: joinLines ls := by
  simp [joinLines]

@[simp] theorem layLines_nil (n : Nat) : layLines n [] = [] := rfl

@[simp] theorem layLines_empty (n : Nat) (ls : List (List Char)) :
    layLines n ([] :: ls) = '\n' :: layLines n ls := by
  simp [layLines]

theorem layLines_cons {w : List Char} (h : w ≠ []) (n : Nat) (ls : List (List Char)) :
    layLines n (w :: ls) = spaces n ++ (w ++ '\n' :: layLines n ls) := by
  simp [layLines, h]

theorem layLines_replicate (n k : Nat) (ls : List (List Char)) :
    layLines n (List.replicate k [] ++ ls) = List.replicate k '\n' ++ layLines n ls := by
  induction k with
  | zero => rfl
  | succ k ih => rw [List.replicate_succ, List.cons_append, layLines_empty, ih]; rfl

theorem layLines_empties (n k : Nat) : layLines n (List.replicate k []) = List.replicate k '\n' := by
  simpa using layLines_replicate n k []

/-- Lines are empty up to one with content, or all of them are. -/
theorem exists_content (ls : List (List Char)) :
    ∃ k, ls = List.replicate k [] ∨ ∃ w ls', ls = List.replicate k [] ++ w :: ls' ∧ w ≠ [] := by
  induction ls with
  | nil => exact ⟨0, .inl rfl⟩
  | cons w ls ih =>
    cases w with
    | nil =>
      obtain ⟨k, rfl | ⟨w, ls', rfl, hw⟩⟩ := ih
      · exact ⟨k + 1, .inl rfl⟩
      · exact ⟨k + 1, .inr ⟨w, ls', rfl, hw⟩⟩
    | cons c w => exact ⟨0, .inr ⟨c :: w, ls, rfl, by simp⟩⟩

theorem length_le_layLines (n : Nat) (ls : List (List Char)) :
    ls.length ≤ (layLines n ls).length := by
  induction ls with
  | nil => simp
  | cons w ls ih =>
    rw [layLines, List.flatMap_cons, ← layLines]
    simp
    omega

/-- Lines start with a space or end at once. -/
theorem head?_layLines {n : Nat} {ls : List (List Char)} (hls : ls ≠ []) (rest : List Char) :
    (layLines (n + 1) ls ++ rest).head? ≠ some '\t' := by
  obtain ⟨w, ls, rfl⟩ := List.exists_cons_of_ne_nil hls
  cases w with
  | nil => simp
  | cons c w =>
    rw [layLines_cons (by simp)]
    simp [spaces_succ]

/-- The lines are those of a text; a line feed is added unless the text ends with one. -/
def LinesOf (cs : List Char) (ls : List (List Char)) : Prop :=
  joinLines ls = cs ∨
    joinLines ls = cs ++ ['\n'] ∧ ∃ c, cs.getLast? = some c ∧ isLineBreak c = false

namespace LinesOf

variable {cs w : List Char} {ls : List (List Char)}

theorem cons {c : Char} (h : LinesOf (c :: cs) (w :: ls)) (d : Char) :
    LinesOf (d :: c :: cs) ((d :: w) :: ls) := by
  rcases h with h | ⟨h, hlast⟩
  · exact .inl (by simpa using h)
  · refine .inr ⟨by simpa using h, ?_⟩
    rwa [List.getLast?_cons_cons]

theorem ne_nil (h : LinesOf cs ls) (hne : cs ≠ []) : ls ≠ [] := by
  rintro rfl
  rcases h with h | ⟨h, -⟩
  · exact hne h.symm
  · simp at h

theorem head? (h : LinesOf cs ls) (hne : cs ≠ []) : (joinLines ls).head? = cs.head? := by
  obtain ⟨c, rest, rfl⟩ := List.exists_cons_of_ne_nil hne
  rcases h with h | ⟨h, -⟩
  · rw [h]
  · rw [h, List.cons_append, List.head?_cons, List.head?_cons]

theorem cons_break (h : LinesOf cs ls) : LinesOf ('\n' :: cs) ([] :: ls) := by
  rcases h with h | ⟨h, c, hlast, hc⟩
  · exact .inl (by simp [h])
  · refine .inr ⟨by simp [h], c, ?_, hc⟩
    cases cs with
    | nil => simp at hlast
    | cons d cs => rwa [List.getLast?_cons_cons]

end LinesOf

theorem writeLines_break {n : Nat} {broken : Bool} {c : Char} {cs : List Char}
    (h : isLineBreak c = true) : writeLines n broken (c :: cs) = c :: writeLines n true cs := by
  rw [writeLines, if_pos h]

theorem writeLines_char {n : Nat} {broken : Bool} {c : Char} {cs : List Char}
    (h : isLineBreak c = false) : writeLines n broken (c :: cs)
      = (if broken then spaces n else []) ++ c :: writeLines n false cs := by
  rw [writeLines, if_neg (by simp [h])]

/-- A text whose lines end as they should is written as lines. The induction is on the
characters, both for a text that starts a line and for the rest of a line behind some
character. -/
theorem exists_lines (n : Nat) (cs : List Char) :
    (endsLines false cs = true →
      ∃ ls, writeLines n true cs = layLines n ls ∧ (∀ w ∈ ls, '\n' ∉ w) ∧ LinesOf cs ls) ∧
    ∀ broken before, endsLines true cs = true →
      (if broken then cs.head?.any isLineBreak = true else isLineBreak before = false) →
      ∃ w ls, writeLines n broken cs = w ++ '\n' :: layLines n ls ∧
        (∀ v ∈ w :: ls, '\n' ∉ v) ∧ LinesOf (before :: cs) ((before :: w) :: ls) := by
  induction cs with
  | nil =>
    refine ⟨fun _ => ⟨[], rfl, by simp, .inl rfl⟩, fun broken before _ hb => ?_⟩
    cases broken with
    | true => simp at hb
    | false => exact ⟨[], [], rfl, by simp, .inr ⟨rfl, before, rfl, by simpa using hb⟩⟩
  | cons c cs ih =>
    obtain ⟨ihStart, ihRest⟩ := ih
    by_cases hnl : c = '\n'
    · subst hnl
      simp only [endsLines, if_true]
      rw [writeLines_break rfl]
      refine ⟨fun h => ?_, fun broken before h _ => ?_⟩
      · obtain ⟨ls, hw, hls, hof⟩ := ihStart h
        exact ⟨[] :: ls, by rw [hw, layLines_empty], by simpa using hls, hof.cons_break⟩
      · obtain ⟨ls, hw, hls, hof⟩ := ihStart h
        refine ⟨[], ls, ?_, by simpa using hls, hof.cons_break.cons before⟩
        rw [writeLines_break rfl, hw, List.nil_append]
    · have hcons : ∀ {w : List Char} {ls : List (List Char)}, (∀ v ∈ w :: ls, '\n' ∉ v) →
          ∀ v ∈ (c :: w) :: ls, '\n' ∉ v := by
        intro w ls h v hv
        rcases List.mem_cons.1 hv with rfl | hv
        · simpa [Ne.symm hnl] using h w (by simp)
        · exact h v (by simp [hv])
      simp only [endsLines, if_neg hnl]
      by_cases hc : isLineBreak c = true
      · simp only [if_pos hc, Bool.false_and, Bool.true_and, Bool.and_eq_true]
        refine ⟨fun h => by simp at h, fun broken before h _ => ?_⟩
        obtain ⟨w, ls, hw, hls, hof⟩ := ihRest true c h.2 (by simpa using h.1)
        refine ⟨c :: w, ls, ?_, hcons hls, hof.cons before⟩
        rw [writeLines_break hc, hw, List.cons_append]
      · rw [Bool.not_eq_true] at hc
        simp only [hc, Bool.false_eq_true, if_false]
        refine ⟨fun h => ?_, fun broken before h hb => ?_⟩
        · obtain ⟨w, ls, hw, hls, hof⟩ := ihRest false c h (by simpa using hc)
          refine ⟨(c :: w) :: ls, ?_, hcons hls, hof⟩
          rw [writeLines_char hc, hw, layLines_cons (by simp)]
          simp
        · have hfalse : broken = false := by
            cases broken with
            | true => simp [hc] at hb
            | false => rfl
          subst hfalse
          obtain ⟨w, ls, hw, hls, hof⟩ := ihRest false c h (by simpa using hc)
          refine ⟨c :: w, ls, ?_, hcons hls, hof.cons before⟩
          rw [writeLines_char hc, hw]
          rfl

theorem joinLines_append (ls ms : List (List Char)) :
    joinLines (ls ++ ms) = joinLines ls ++ joinLines ms := List.flatMap_append

theorem getLast?_joinLines {ls : List (List Char)} (h : joinLines ls ≠ []) :
    (joinLines ls).getLast? = some '\n' := by
  induction ls with
  | nil => exact absurd rfl h
  | cons w ls ih =>
    rw [joinLines_cons, List.getLast?_append, List.getLast?_cons]
    by_cases hls : joinLines ls = []
    · simp [hls]
    · simp [ih hls]

@[simp] theorem joinLines_replicate (k : Nat) :
    joinLines (List.replicate k []) = List.replicate k '\n' := by
  induction k with
  | zero => rfl
  | succ k ih => simp [List.replicate_succ, ih]

end ScalarStyle

open ScalarStyle

section Reader

variable {n m limit : Nat} {body : List Char}

theorem skipIndentation_break {indent fuel lines : Nat} {c : Cursor} {rest : List Char}
    (h : c.rest = '\n' :: rest) : skipIndentation indent (fuel + 1) c lines
      = skipIndentation indent fuel c.advance (lines + 1) := by
  have htake : c.rest.takeWhile (· = ' ') = [] := by rw [h]; rfl
  rw [skipIndentation, htake]
  simp [Cursor.advanceBy, Cursor.peek, h]

/-- Empty lines are counted. -/
theorem skipIndentation_breaks {indent fuel k : Nat} {rest : List Char} : ∀ {c : Cursor} (lines : Nat),
    c.rest = List.replicate k '\n' ++ rest → c.column = 0 →
    ∃ c', skipIndentation indent (fuel + k) c lines = skipIndentation indent fuel c' (lines + k) ∧
      c'.rest = rest ∧ c'.column = 0 ∧ c.line ≤ c'.line := by
  induction k with
  | zero => exact fun {c} _ hc hcolumn => ⟨c, rfl, hc, hcolumn, Nat.le_refl _⟩
  | succ k ih =>
    intro c lines hc hcolumn
    have hc' : c.rest = '\n' :: (List.replicate k '\n' ++ rest) := hc
    have hadv := Cursor.advance_of_break hc'
    obtain ⟨c', hskip, hrest, hcol, hline⟩ := ih (c := c.advance) (lines + 1) (by rw [hadv])
      (by rw [hadv])
    refine ⟨c', ?_, hrest, hcol, ?_⟩
    · rw [← Nat.add_assoc, skipIndentation_break hc', hskip, Nat.add_right_comm, Nat.add_assoc]
    · rw [hadv] at hline
      exact Nat.le_of_succ_le hline

/-- Empty lines, up to the next line with content. -/
theorem skipIndentation_content {k fuel : Nat} {ch : Char} {rest : List Char} {c : Cursor}
    (lines : Nat) (hch : ch ≠ '\n') (hc : c.rest = List.replicate k '\n' ++ (spaces n ++ ch :: rest))
    (hcolumn : c.column = 0) (hfuel : k < fuel) :
    ∃ c', skipIndentation n fuel c lines = (lines + k, c') ∧ c.line ≤ c'.line ∧ c'.column = n ∧
      c'.rest = ch :: rest := by
  obtain ⟨fuel, rfl⟩ : ∃ f, fuel = f + 1 + k := ⟨fuel - 1 - k, by omega⟩
  obtain ⟨c₁, hskip, hrest, hcol, hline⟩ := skipIndentation_breaks lines hc hcolumn
  have hpast := Cursor.past_spaces hrest
  rw [Cursor.past, length_spaces] at hpast
  have htake : n ≤ (c₁.rest.takeWhile (· = ' ')).length := by
    rw [hrest, List.takeWhile_append_of_pos fun d hd => by simpa using mem_spaces hd]
    simp
  rw [hskip, skipIndentation, hcol, Nat.sub_zero, Nat.min_eq_left htake, hpast]
  exact ⟨_, if_neg (by simp [Cursor.peek, hch]), hline, by simp [hcol], rfl⟩

/-- Empty lines, up to what follows the scalar. -/
theorem skipIndentation_end {k fuel : Nat} {c : Cursor} (lines : Nat) (hm : m < n)
    (hbody : Starts body) (hc : c.rest = List.replicate k '\n' ++ (spaces m ++ body))
    (hcolumn : c.column = 0) (hfuel : k < fuel) :
    ∃ c', skipIndentation n fuel c lines = (lines + k, c') ∧ c.line ≤ c'.line ∧ c'.rest = body ∧
      c'.column = m := by
  obtain ⟨fuel, rfl⟩ : ∃ f, fuel = f + 1 + k := ⟨fuel - 1 - k, by omega⟩
  obtain ⟨c₁, hskip, hrest, hcol, hline⟩ := skipIndentation_breaks lines hc hcolumn
  have htake : c₁.rest.takeWhile (· = ' ') = spaces m := by
    rw [hrest]
    refine takeWhile_spaces rfl (fun ch rest heq => ?_) m
    have := (hbody ch rest heq).1
    simp only [decide_eq_false_iff_not]
    rintro rfl
    simp at this
  have hpast := Cursor.past_spaces (c := c₁) (n := m) hrest
  rw [Cursor.past, length_spaces] at hpast
  have hpeek : body.head? ≠ some '\n' := fun heq => by
    obtain ⟨tail, htail⟩ := List.head?_eq_some_iff.1 heq
    exact (hbody _ _ htail).2.1 rfl
  rw [hskip, skipIndentation, htake, hcol, length_spaces, Nat.min_eq_right (by omega), hpast]
  exact ⟨_, if_neg hpeek, hline, rfl, by simp [hcol]⟩

/-- Empty lines, up to the next line with content or to what follows the scalar. -/
theorem skipIndentation_layLines (hm : m < n) (hbody : Starts body) {ls : List (List Char)}
    {fuel : Nat} {c : Cursor} (lines : Nat) (hls : ∀ w ∈ ls, '\n' ∉ w)
    (hc : c.rest = layLines n ls ++ (spaces m ++ body)) (hcolumn : c.column = 0)
    (hfuel : ls.length < fuel) :
    ∃ k c', skipIndentation n fuel c lines = (lines + k, c') ∧ c.line ≤ c'.line ∧
      (ls = List.replicate k [] ∧ c'.rest = body ∧ c'.column = m ∨
        ∃ w ls', ls = List.replicate k [] ++ w :: ls' ∧ w ≠ [] ∧ c'.column = n ∧
          c'.rest = w ++ '\n' :: (layLines n ls' ++ (spaces m ++ body))) := by
  obtain ⟨k, rfl | ⟨w, ls', rfl, hw⟩⟩ := exists_content ls
  · rw [layLines_empties] at hc
    obtain ⟨c', hskip, hline, hat⟩ :=
      skipIndentation_end lines hm hbody hc hcolumn (by simpa using hfuel)
    exact ⟨k, c', hskip, hline, .inl ⟨rfl, hat⟩⟩
  · obtain ⟨ch, v, rfl⟩ := List.exists_cons_of_ne_nil hw
    have hch : ch ≠ '\n' := fun h => hls (ch :: v) (by simp) (by simp [h])
    rw [layLines_replicate, layLines_cons hw] at hc
    obtain ⟨c', hskip, hline, hcol, hrest⟩ := @skipIndentation_content n k fuel _ _ _ lines hch
      (by simpa using hc) hcolumn (by simp at hfuel; omega)
    exact ⟨k, c', hskip, hline, .inr ⟨ch :: v, ls', rfl, by simp, hcol, by simpa using hrest⟩⟩

theorem blockGap_text_literal (g : BlockGap) (blank : Bool) :
    g.text true blank = List.replicate (g.emptyLines + if g.broken then 1 else 0) '\n' := rfl

theorem blockLines_stop {literal : Bool} {indent fuel : Nat} {c : Cursor} {g : BlockGap}
    {text : List Char} (h : c.column ≠ indent) :
    blockLines limit literal indent fuel c g text = (text, g, c) := by
  cases fuel with
  | zero => rfl
  | succ fuel => rw [blockLines, if_neg (by simp [h])]

/-- One line with content, and the empty lines behind it. -/
theorem blockLines_line {k : Nat} {c c' : Cursor} {w rest : List Char} (fuel : Nat)
    (g : BlockGap) (text : List Char) (hn : 0 < n) (hw : '\n' ∉ w) (hc : c.rest = w ++ '\n' :: rest) (hcolumn : c.column = n)
    (hskip : skipIndentation n limit (c.past (w ++ ['\n'])) 0 = (k, c')) :
    ∃ blank, blockLines limit true n (fuel + 1) c g text = blockLines limit true n fuel c'
      ⟨true, k, blank⟩ (w.reverse ++ g.text true blank ++ text) := by
  have htake : c.rest.takeWhile (· ≠ '\n') = w := by
    rw [hc, List.takeWhile_append_of_pos fun d hd => by
      simp only [decide_eq_true_eq]
      rintro rfl
      exact hw hd]
    simp
  have hpast := Cursor.past_of_line hc hw
  rw [Cursor.past_append, Cursor.past_cons, Cursor.past_nil, Cursor.past] at hskip
  refine ⟨c.peek.any isBlank, ?_⟩
  rw [blockLines, if_pos (by simp [hcolumn, hc, Nat.ne_of_gt hn])]
  simp only [htake]
  rw [if_neg (by rw [← Cursor.past, hpast]; simp)]
  simp only [hskip]

/-- The lines of a scalar from one with content on. What has been read and the line
breaks that follow it are the lines. -/
theorem blockLines_layLines (hm : m < n) (hbody : Starts body) {fuel : Nat} :
    ∀ {ls : List (List Char)} {w : List Char} {c : Cursor} (g : BlockGap) (text : List Char),
      w ≠ [] → (∀ v ∈ w :: ls, '\n' ∉ v) → c.column = n →
      c.rest = w ++ '\n' :: (layLines n ls ++ (spaces m ++ body)) →
      ls.length < fuel → ls.length < limit →
      ∃ text' g' c', blockLines limit true n fuel c g text = (text', g', c') ∧
        g'.broken = true ∧ c'.rest = body ∧ c'.column = m ∧ c.line < c'.line ∧
        '\n' :: (List.replicate g'.emptyLines '\n' ++ text')
          = (joinLines (w :: ls)).reverse ++ (g.text true false ++ text) := by
  induction fuel with
  | zero =>
    intro ls w c g text _ _ _ _ hfuel
    exact absurd hfuel (Nat.not_lt_zero _)
  | succ fuel ih =>
    intro ls w c g text hne hls hcolumn hc hfuel hlimit
    have hw := hls w (by simp)
    have hpast := Cursor.past_of_line hc hw
    have hbreak : (c.past (w ++ ['\n']))
        = ⟨layLines n ls ++ (spaces m ++ body), c.index + w.length + 1, c.line + 1, 0, true⟩ := by
      rw [Cursor.past_append, hpast, Cursor.past_break rfl]
    obtain ⟨k, c', hskip, hline, hat⟩ := skipIndentation_layLines hm hbody
      (c := c.past (w ++ ['\n'])) 0 (fun v hv => hls v (by simp [hv])) (by rw [hbreak]) (by rw [hbreak]) hlimit
    rw [Nat.zero_add] at hskip
    replace hline : c.line < c'.line := by rwa [hbreak] at hline
    obtain ⟨blank, hgoes⟩ := blockLines_line fuel g text (by omega) hw hc hcolumn hskip
    rw [hgoes, blockGap_text_literal, blockGap_text_literal]
    rcases hat with ⟨rfl, hrest, hcol⟩ | ⟨v, ls', rfl, hv, hcol, hrest⟩
    · refine ⟨_, _, _, blockLines_stop (by omega), rfl, hrest, hcol, hline, ?_⟩
      simp [replicate_append_cons]
    · obtain ⟨text', g', c₂, hread, hbroken, hrest₂, hcol₂, hline₂, htext⟩ :=
        ih ⟨true, k, blank⟩ (w.reverse
          ++ (List.replicate (g.emptyLines + if g.broken then 1 else 0) '\n' ++ text)) hv
          (fun u hu => hls u (by simp at hu ⊢; tauto)) hcol hrest (by simp at hfuel; omega)
          (by simp at hlimit; omega)
      refine ⟨text', g', c₂, ?_, hbroken, hrest₂, hcol₂, by omega, ?_⟩
      · rw [← hread, List.append_assoc]
      · rw [htext, blockGap_text_literal]
        simp [joinLines_append, List.replicate_succ, replicate_append_cons]

/-- The indentation is seen from a first line that has content and no spaces. -/
theorem detectIndentation_content {ch : Char} {rest : List Char} {c : Cursor} (hlimit : 0 < limit)
    (hspace : ch ≠ ' ') (hbreak : ch ≠ '\n') (hc : c.rest = spaces n ++ ch :: rest)
    (hcolumn : c.column = 0) :
    ∃ c', detectIndentation limit c 0 0 = (n, 0, c') ∧ c'.line = c.line ∧ c'.column = n ∧
      c'.rest = ch :: rest := by
  obtain ⟨limit, rfl⟩ : ∃ k, limit = k + 1 := ⟨limit - 1, by omega⟩
  have hskip := Cursor.skipWhile_spaces (p := (· = ' ')) rfl hc fun d tail heq => by
    obtain ⟨rfl, -⟩ := List.cons.inj heq
    simpa using hspace
  refine ⟨c.skipWhile (· = ' '), ?_, by rw [hskip], by simp [hskip, hcolumn], by simp [hskip]⟩
  rw [detectIndentation, hskip]
  simp [Cursor.peek, hbreak, hcolumn]

/-- What the signs mean. -/
def chompingOfMark (sign : List Char) : Chomping :=
  if sign = [] then .clip else if sign = ['-'] then .strip else .keep

theorem readHeader_marks {mark sign : List Char} (hmark : mark = [] ∨ mark = ['2'])
    (hsign : sign = [] ∨ sign = ['-'] ∨ sign = ['+']) (rest : List Char) :
    readHeader (mark ++ (sign ++ '\n' :: rest)) = .ok
      (⟨chompingOfMark sign, if mark = [] then 0 else 2⟩, (mark ++ sign).length) := by
  rcases hmark with rfl | rfl <;> rcases hsign with rfl | rfl | rfl <;> rfl

/-- The signs of a header, with what they say about the end of a text. -/
theorem endingMark_cases {cs : List Char} {ls : List (List Char)} (hne : cs ≠ [])
    (h : LinesOf cs ls) :
    endingMark cs = ['-'] ∧ joinLines ls = cs ++ ['\n'] ∧ cs.reverse.head? ≠ some '\n' ∨
    endingMark cs = ['+'] ∧ joinLines ls = cs ∨
    endingMark cs = [] ∧ joinLines ls = cs ∧
      ∃ c rest, cs.reverse = '\n' :: c :: rest ∧ c ≠ '\n' := by
  obtain ⟨last, before, hrev⟩ := List.exists_cons_of_ne_nil (List.reverse_ne_nil_iff.2 hne)
  have hlast : cs.getLast? = some last := by rw [← List.head?_reverse, hrev]; rfl
  rcases h with h | ⟨h, c, hc, hbreak⟩
  · have hnl : last = '\n' := by
      have := getLast?_joinLines (h ▸ hne)
      rw [h, hlast] at this
      exact Option.some.inj this
    subst hnl
    right
    cases before with
    | nil => exact .inl ⟨by simp [endingMark, hrev, isLineBreak], h⟩
    | cons c rest =>
      by_cases hc : isLineBreak c = true
      · exact .inl ⟨by simp [endingMark, hrev, hc, show isLineBreak '\n' = true from rfl], h⟩
      · refine .inr ⟨by simp [endingMark, hrev, hc, show isLineBreak '\n' = true from rfl], h, c, rest, hrev, ?_⟩
        rintro rfl
        exact hc rfl
  · left
    obtain rfl : last = c := Option.some.inj (hlast.symm.trans hc)
    refine ⟨by simp [endingMark, hrev, hbreak], h, ?_⟩
    rw [hrev]
    rintro ⟨rfl⟩
    exact absurd hbreak (by decide)

theorem endingMark_mem (cs : List Char) :
    endingMark cs = [] ∨ endingMark cs = ['-'] ∨ endingMark cs = ['+'] := by
  unfold endingMark
  split
  · simp
  · split
    · simp
    · split
      · simp
      · split <;> simp

theorem eq_of_replicate_append {k : Nat} {text rest : List Char}
    (h : List.replicate k '\n' ++ text = rest) (hrest : rest.head? ≠ some '\n') :
    k = 0 ∧ text = rest := by
  cases k with
  | zero => exact ⟨rfl, h⟩
  | succ k =>
    rw [← h] at hrest
    exact absurd rfl hrest

/-- The line breaks at the end, after lines with content. -/
theorem chomp_lines {cs text : List Char} {ls : List (List Char)} {g : BlockGap} {c : Cursor}
    (hne : cs ≠ []) (hls : LinesOf cs ls) (hbroken : g.broken = true) (hcolumn : c.column < n)
    (htext : '\n' :: (List.replicate g.emptyLines '\n' ++ text) = (joinLines ls).reverse) :
    chomp (chompingOfMark (endingMark cs)) n g c ++ text = cs.reverse := by
  have himplied : (decide (c.rest = []) && decide (max n 1 ≤ c.column)) = false := by
    rw [decide_eq_false (by omega : ¬ max n 1 ≤ c.column), Bool.and_false]
  have hkept : ∀ chomping, chomping ≠ .strip → chomp chomping n g c =
      List.replicate (1 + if chomping = .keep then g.emptyLines else 0) '\n' := by
    intro chomping hstrip
    cases chomping with
    | strip => exact absurd rfl hstrip
    | _ =>
      simp only [chomp, hbroken, himplied]
      rfl
  rcases endingMark_cases hne hls with ⟨hmark, hjoin, hlast⟩ | ⟨hmark, hjoin⟩ |
    ⟨hmark, hjoin, d, rest, hrev, hd⟩
  · rw [hjoin, List.reverse_append] at htext
    obtain ⟨-, rfl⟩ := eq_of_replicate_append (List.cons.inj htext).2 hlast
    simp [hmark, chompingOfMark, chomp]
  · rw [hjoin] at htext
    rw [hmark, show chompingOfMark ['+'] = .keep from rfl, hkept _ (by decide), ← htext,
      ← List.cons_append, ← List.replicate_succ]
    simp [Nat.add_comm]
  · rw [hjoin, hrev] at htext
    obtain ⟨hempty, rfl⟩ := eq_of_replicate_append (List.cons.inj htext).2 (by simpa using hd)
    rw [hrev, hmark, show chompingOfMark [] = .clip from rfl, hkept _ (by decide)]
    rfl

/-- The header of a text of line breaks alone. -/
theorem endingMark_of_breaks {cs : List Char} {k : Nat} (hne : cs ≠ [])
    (hls : LinesOf cs (List.replicate k [])) :
    endingMark cs = ['+'] ∧ cs = List.replicate k '\n' := by
  have hall : ∀ c ∈ cs, c = '\n' := by
    intro c hc
    have hmem : c ∈ joinLines (List.replicate k []) := by
      rcases hls with h | ⟨h, -⟩ <;> rw [h] <;> simp [hc]
    rw [joinLines_replicate] at hmem
    exact List.eq_of_mem_replicate hmem
  rcases endingMark_cases hne hls with ⟨-, -, hlast⟩ | ⟨hmark, hjoin⟩ | ⟨-, -, d, rest, hrev, hd⟩
  · refine absurd ?_ hlast
    obtain ⟨c, before, hrev⟩ := List.exists_cons_of_ne_nil (List.reverse_ne_nil_iff.2 hne)
    rw [hrev, hall c (List.mem_reverse.1 (by simp [hrev]))]
    rfl
  · exact ⟨hmark, by simpa using hjoin.symm⟩
  · exact absurd (hall d (List.mem_reverse.1 (by simp [hrev]))) hd

theorem indentationMark_mem (cs : List Char) :
    indentationMark cs = [] ∨ indentationMark cs = ['2'] := by
  unfold indentationMark
  split <;> simp

theorem ne_of_not_isLineBreak {c : Char} (h : isLineBreak c = false) : c ≠ '\n' := by
  rintro rfl
  exact absurd h (by decide)

theorem first_of_no_mark {ch : Char} {rest : List Char} (hmark : indentationMark (ch :: rest) = []) :
    ch ≠ ' ' ∧ isLineBreak ch = false := by
  have hch : isSpaceOrBreak ch = false := by
    cases h : isSpaceOrBreak ch with
    | false => rfl
    | true => simp [indentationMark, h] at hmark
  simpa [isSpaceOrBreak] using hch

/-- Without a mark the first line starts with something that is seen. -/
theorem exists_first_line {cs : List Char} {ls : List (List Char)} (hne : cs ≠ [])
    (hhead : (joinLines ls).head? = cs.head?) (hmark : indentationMark cs = []) :
    ∃ ch v ls', ls = (ch :: v) :: ls' ∧ ch ≠ ' ' ∧ ch ≠ '\n' := by
  obtain ⟨ch, rest, rfl⟩ := List.exists_cons_of_ne_nil hne
  obtain ⟨rest', hjoin⟩ := List.head?_eq_some_iff.1 hhead
  obtain ⟨hspace, hbreak⟩ := first_of_no_mark hmark
  have hnl := ne_of_not_isLineBreak hbreak
  cases ls with
  | nil => simp at hjoin
  | cons w ls =>
    cases w with
    | nil => exact absurd (List.cons.inj hjoin).1.symm hnl
    | cons d v =>
      obtain ⟨rfl, -⟩ := List.cons.inj hjoin
      exact ⟨d, v, ls, rfl, hspace, hnl⟩

/-- The column of the lines, the number of empty lines in front of the first one with
content, and that line. -/
def firstLine (limit : Nat) (indent : Int) (increment : Nat) (c : Cursor) : Nat × Nat × Cursor :=
  if increment = 0 then
    let (deepest, lines, c) := detectIndentation limit c 0 0
    (max deepest (indent + 1).toNat, lines, c)
  else
    let column := (max indent 0).toNat + increment
    let (lines, c) := skipIndentation column limit c 0
    (column, lines, c)

/-- What a literal scalar with these lines is read as. -/
def contentFrom (limit : Nat) (indent : Int) (chomping : Chomping) :
    Nat × Nat × Cursor → Except Fault (String × Cursor)
  | (column, lines, c) =>
      if c.rest = [] then
        let breaks := match chomping with
          | .strip => 0
          | .clip => 1
          | .keep => max lines 1
        .ok (String.ofList (List.replicate breaks '\n'), c)
      else if c.column < column && indent < c.column then .error .indentation
      else
        let (text, g, c) := blockLines limit true column limit c ⟨false, lines, false⟩ []
        .ok (String.ofList (chomp chomping column g c ++ text).reverse, c)

theorem readBlock_eq {indent : Int} {c c' : Cursor} {h : BlockHeader} {k : Nat}
    (hliteral : c.peek = some '|') (hheader : readHeader c.advance.rest = .ok (h, k))
    (hskip : (c.advance.advanceBy k).skipToContent = .ok ([], c')) (hbreak : c'.peek = some '\n')
    (htab : c'.advance.peek ≠ some '\t') : readBlock limit indent c
      = contentFrom limit indent h.chomping (firstLine limit indent h.increment c'.advance) := by
  rw [readBlock]
  simp only [hliteral, decide_true, hheader, ok_bind, hskip, hbreak, isLineEnd, Bool.not_true,
    Bool.false_eq_true, if_false, if_neg htab, if_true]
  rfl

/-- The indentation is told by the header or seen from the first line. -/
theorem firstLine_layLines {cs : List Char} {ls : List (List Char)} {c : Cursor} {outer : Nat}
    (hm : m ≤ outer) (hbody : Starts body) (hne : cs ≠ [])
    (hhead : indentationMark cs = [] → (joinLines ls).head? = cs.head?) (hls : ∀ w ∈ ls, '\n' ∉ w)
    (hlimit : ls.length < limit) (hc : c.rest = layLines (outer + 2) ls ++ (spaces m ++ body))
    (hcolumn : c.column = 0) :
    ∃ k c', firstLine limit outer (if indentationMark cs = [] then 0 else 2) c = (outer + 2, k, c') ∧
      c.line ≤ c'.line ∧
      (ls = List.replicate k [] ∧ c'.rest = body ∧ c'.column = m ∨
        ∃ w ls', ls = List.replicate k [] ++ w :: ls' ∧ w ≠ [] ∧ c'.column = outer + 2 ∧
          c'.rest = w ++ '\n' :: (layLines (outer + 2) ls' ++ (spaces m ++ body))) := by
  rcases indentationMark_mem cs with hmark | hmark
  · obtain ⟨ch, v, ls', rfl, hspace, hbreak⟩ := exists_first_line hne (hhead hmark) hmark
    have hpos : 0 < limit := by omega
    rw [layLines_cons (by simp), List.append_assoc, List.append_assoc] at hc
    obtain ⟨c', hdetect, hline, hcol, hrest⟩ :=
      detectIndentation_content hpos hspace hbreak hc hcolumn
    refine ⟨0, c', ?_, Nat.le_of_eq hline.symm, .inr ⟨ch :: v, ls', rfl, by simp, hcol, hrest⟩⟩
    simp [firstLine, hmark, hdetect]
  · obtain ⟨k, c', hskip, hline, hat⟩ :=
      skipIndentation_layLines (by omega) hbody 0 hls hc hcolumn hlimit
    refine ⟨k, c', ?_, hline, hat⟩
    simp [firstLine, hmark, hskip]

/-- The lines are read as the text that they are written for. -/
theorem contentFrom_layLines {cs : List Char} {ls : List (List Char)} {c : Cursor} {outer k : Nat}
    (hm : m ≤ outer) (hbody : Starts body) (hne : cs ≠ []) (hof : LinesOf cs ls)
    (hls : ∀ w ∈ ls, '\n' ∉ w) (hlimit : ls.length < limit)
    (hat : ls = List.replicate k [] ∧ c.rest = body ∧ c.column = m ∨
      ∃ w ls', ls = List.replicate k [] ++ w :: ls' ∧ w ≠ [] ∧ c.column = outer + 2 ∧
        c.rest = w ++ '\n' :: (layLines (outer + 2) ls' ++ (spaces m ++ body))) :
    ∃ c', contentFrom limit outer (chompingOfMark (endingMark cs)) (outer + 2, k, c)
        = .ok (String.ofList cs, c') ∧ c'.rest = body ∧ c'.column = m ∧ c.line ≤ c'.line := by
  rcases hat with ⟨rfl, hrest, hcol⟩ | ⟨w, ls', rfl, hw, hcol, hrest⟩
  · obtain ⟨hmark, rfl⟩ := endingMark_of_breaks hne hof
    have hpos : 0 < k := by
      cases k with
      | zero => exact absurd rfl hne
      | succ k => omega
    have hmax : max k 1 = k := by omega
    refine ⟨c, ?_, hrest, hcol, Nat.le_refl _⟩
    rw [hmark]
    unfold contentFrom
    simp only
    split
    · simp [chompingOfMark, hmax]
    · rw [if_neg (by simp; omega), blockLines_stop (by omega)]
      have himplied : ¬ (c.rest = [] ∧ outer + 2 ≤ c.column) := by omega
      simp [chompingOfMark, chomp, himplied]
  · have hls' : ls'.length < limit := by
      simp at hlimit
      omega
    obtain ⟨text, g, c', hread, hbroken, hrest', hcol', hline, htext⟩ :=
      blockLines_layLines (by omega) hbody ⟨false, k, false⟩ [] hw
        (fun v hv => hls v (List.mem_append_right _ hv)) hcol hrest hls' hls'
    refine ⟨c', ?_, hrest', hcol', Nat.le_of_lt hline⟩
    have hjoin : '\n' :: (List.replicate g.emptyLines '\n' ++ text)
        = (joinLines (List.replicate k [] ++ w :: ls')).reverse := by
      rw [htext, blockGap_text_literal, joinLines_append]
      simp
    unfold contentFrom
    simp only
    rw [if_neg (by simp [hrest]), if_neg (by simp [hcol]), hread]
    simp only
    rw [chomp_lines hne hof hbroken (by omega) hjoin, List.reverse_reverse]

/-- The header of a literal scalar and the end of its line. -/
theorem readBlock_header {cs rest : List Char} {c : Cursor} (indent : Int)
    (hc : c.rest = '|' :: (indentationMark cs ++ (endingMark cs ++ '\n' :: rest)))
    (htab : rest.head? ≠ some '\t') :
    ∃ c', readBlock limit indent c = contentFrom limit indent (chompingOfMark (endingMark cs))
        (firstLine limit indent (if indentationMark cs = [] then 0 else 2) c') ∧
      c'.rest = rest ∧ c'.column = 0 ∧ c.line < c'.line := by
  have hmarks := indentationMark_mem cs
  have hsigns := endingMark_mem cs
  have hline : '\n' ∉ '|' :: (indentationMark cs ++ endingMark cs) := by
    rcases hmarks with h | h <;> rcases hsigns with h' | h' | h' <;> rw [h, h'] <;> decide
  have hadv := Cursor.advance_of_char hc (by decide)
  have hrest₁ : c.advance.rest = (indentationMark cs ++ endingMark cs) ++ '\n' :: rest := by
    rw [hadv, List.append_assoc]
  have hpast := Cursor.past_of_line hrest₁ fun h => hline (List.mem_cons_of_mem _ h)
  have hheader := readHeader_marks hmarks hsigns rest
  rw [← List.append_assoc, ← hrest₁] at hheader
  generalize hc₁ : c.advance.past (indentationMark cs ++ endingMark cs) = c₁ at hpast
  have hrest₁ : c₁.rest = '\n' :: rest := by rw [hpast]
  have hline₁ : c₁.line = c.line := by rw [hpast, hadv]
  have hadv₁ := Cursor.advance_of_break hrest₁
  have hskip₁ := Cursor.skipToContent_of_content (c := c₁) fun ch tail heq => by
    rw [hrest₁] at heq
    obtain ⟨rfl, -⟩ := List.cons.inj heq
    exact ⟨rfl, by decide⟩
  refine ⟨c₁.advance, readBlock_eq (by simp [Cursor.peek, hc]) hheader
    (by rw [← Cursor.past, hc₁, hskip₁]) (by simp [Cursor.peek, hrest₁]) ?_, ?_, ?_, ?_⟩ <;>
    rw [hadv₁]
  · exact htab
  · exact Nat.lt_succ_of_le (Nat.le_of_eq hline₁.symm)

/-- A literal scalar behind its indicator, in a block whose indentation is less by two. -/
theorem readBlock_literal {cs : List Char} {c : Cursor} {outer : Nat} (hm : m ≤ outer)
    (hbody : Starts body) (hne : cs ≠ []) (hlines : endsLines false cs = true)
    (hc : c.rest = '|' :: (indentationMark cs ++ (endingMark cs ++ '\n' ::
      (writeLines (outer + 2) true cs ++ (spaces m ++ body)))))
    (hlimit : c.rest.length < limit) :
    ∃ c', readBlock limit outer c = .ok (String.ofList cs, c') ∧ c'.rest = body ∧
      c'.column = m ∧ c.line < c'.line := by
  obtain ⟨ls, hwrite, hls, hof⟩ := (exists_lines (outer + 2) cs).1 hlines
  rw [hwrite] at hc
  have hlen : ls.length < limit := by
    have := length_le_layLines (outer + 2) ls
    rw [hc] at hlimit
    simp at hlimit
    omega
  obtain ⟨c₁, hheader, hrest₁, hcol₁, hline₁⟩ := @readBlock_header limit _ _ _ outer hc
    (head?_layLines (hof.ne_nil hne) (spaces m ++ body))
  obtain ⟨k, c₂, hfirst, hline₂, hat⟩ :=
    firstLine_layLines hm hbody hne (fun _ => hof.head? hne) hls hlen hrest₁ hcol₁
  obtain ⟨c', hread, hrest, hcol, hline⟩ := contentFrom_layLines hm hbody hne hof hls hlen hat
  refine ⟨c', ?_, hrest, hcol, by omega⟩
  rw [hheader, hfirst, hread]

end Reader

end WorkspaceTrust.Yaml
