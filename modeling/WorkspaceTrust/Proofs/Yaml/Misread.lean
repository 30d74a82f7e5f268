import WorkspaceTrust.Proofs.Yaml.Growth
import WorkspaceTrust.Proofs.Yaml.Scalar

/-!
# Literal scalars that are misread

Where the writer takes a character for the end of a line and the reader
does not, a literal scalar may be read as another text than the one it
is written for. There is a first such place behind some lines that are
read well (`exists_stray`). At the beginning of a line the character ends
the scalar, for it is not indented, and what is read is too short. Inside
a line the reader goes on: it reads the indentation of what the writer
has put on the next line, or what stands behind the scalar
(`readBlock_misread`).

What is read further on may be anything or nothing, but the tokens up to
the scalar stay, and behind them stands one of another text (`Departs`,
`yields_misread`).
-/

namespace WorkspaceTrust.Yaml

open ScalarStyle

namespace ScalarStyle

/-! ## The first place that is read otherwise -/

/-- Behind complete lines and the beginning `w` of another one stands `e`, which ends a
line for the writer alone. If the line has begun, more of it follows. -/
structure Stray (n : Nat) (cs : List Char) (ls : List (List Char)) (w : List Char) (e : Char)
    (tail : List Char) : Prop where
  text : cs = joinLines ls ++ (w ++ e :: tail)
  written : writeLines n true cs
    = layLines n ls ++ ((if w = [] then [] else spaces n ++ w) ++ e :: writeLines n true tail)
  lines : ∀ v ∈ ls, '\n' ∉ v
  line : '\n' ∉ w
  writerBreak : isLineBreak e = true
  noBreak : e ≠ '\n'
  goesOn : w ≠ [] → tail.head?.any isLineBreak = false

/-- The same on the line that a text begins with, or else that line ends and there is such
a place on a later line. -/
theorem stray_or_line (n : Nat) (cs : List Char) : ∀ broken, endsLines true cs = false →
    (broken = true → cs.head?.any isLineBreak = true) →
    (∃ w e tail, cs = w ++ e :: tail ∧ writeLines n broken cs = w ++ e :: writeLines n true tail ∧
      '\n' ∉ w ∧ isLineBreak e = true ∧ e ≠ '\n' ∧ tail.head?.any isLineBreak = false) ∨
    ∃ v cs', cs = v ++ '\n' :: cs' ∧ writeLines n broken cs = v ++ '\n' :: writeLines n true cs' ∧
      '\n' ∉ v ∧ endsLines false cs' = false := by
  induction cs with
  | nil => exact fun _ h => nomatch h
  | cons c cs ih =>
    intro broken h hbroken
    have hlonger : ∀ {b : Bool}, c ≠ '\n' → writeLines n broken (c :: cs) = c :: writeLines n b cs →
        endsLines true cs = false → (b = true → cs.head?.any isLineBreak = true) →
        (∃ w e tail, c :: cs = w ++ e :: tail ∧
          writeLines n broken (c :: cs) = w ++ e :: writeLines n true tail ∧ '\n' ∉ w ∧
          isLineBreak e = true ∧ e ≠ '\n' ∧ tail.head?.any isLineBreak = false) ∨
        ∃ v cs', c :: cs = v ++ '\n' :: cs' ∧
          writeLines n broken (c :: cs) = v ++ '\n' :: writeLines n true cs' ∧ '\n' ∉ v ∧
          endsLines false cs' = false := by
      intro b hc hwrite hcs hb
      rcases ih b hcs hb with ⟨w, e, tail, heq, hw, hline, hrest⟩ | ⟨v, cs', heq, hv, hline, hrest⟩
      · exact .inl ⟨c :: w, e, tail, by rw [heq]; rfl, by rw [hwrite, hw]; rfl,
          by simp [hline, hc.symm], hrest⟩
      · exact .inr ⟨c :: v, cs', by rw [heq]; rfl, by rw [hwrite, hv]; rfl,
          by simp [hline, hc.symm], hrest⟩
    by_cases hnl : c = '\n'
    · subst hnl
      rw [endsLines, if_pos rfl] at h
      exact .inr ⟨[], cs, rfl, writeLines_break rfl, by simp, h⟩
    · rw [endsLines, if_neg hnl] at h
      cases hc : isLineBreak c with
      | true =>
        rw [hc, if_pos rfl, Bool.true_and] at h
        cases hhead : cs.head?.any isLineBreak with
        | false => exact .inl ⟨[], c, cs, rfl, writeLines_break hc, by simp, hc, hnl, hhead⟩
        | true =>
          rw [hhead, Bool.true_and] at h
          exact hlonger hnl (writeLines_break hc) h fun _ => hhead
      | false =>
        rw [hc, if_neg (by simp)] at h
        have hfalse : broken = false := by
          cases broken with
          | false => rfl
          | true => simpa [hc] using hbroken rfl
        subst hfalse
        exact hlonger (b := false) hnl (by rw [writeLines_char hc]; rfl) h (by simp)

theorem exists_stray (n : Nat) (cs : List Char) (h : endsLines false cs = false) :
    ∃ ls w e tail, Stray n cs ls w e tail := by
  match cs with
  | [] => exact nomatch h
  | c :: cs =>
    by_cases hnl : c = '\n'
    · subst hnl
      rw [endsLines, if_pos rfl] at h
      obtain ⟨ls, w, e, tail, hstray⟩ := exists_stray n cs h
      exact ⟨[] :: ls, w, e, tail, { hstray with
        text := by rw [hstray.text]; simp
        written := by rw [writeLines_break rfl, hstray.written, layLines_empty]; rfl
        lines := by simpa using hstray.lines }⟩
    · rw [endsLines, if_neg hnl] at h
      cases hc : isLineBreak c with
      | true => exact ⟨[], [], c, cs, rfl, writeLines_break hc, by simp, by simp, hc, hnl, by simp⟩
      | false =>
        rw [hc, if_neg (by simp)] at h
        rcases stray_or_line n cs false h (by simp) with ⟨w, e, tail, heq, hw, hline, he, hne, hrest⟩ |
          ⟨v, cs', heq, hv, hline, hrest⟩
        · refine ⟨[], c :: w, e, tail, by rw [heq]; rfl, ?_, by simp, by simp [hline, Ne.symm hnl], he,
            hne, fun _ => hrest⟩
          rw [writeLines_char hc, hw]
          simp
        · have hshorter : cs'.length < cs.length := by
            rw [heq, List.length_append, List.length_cons]
            omega
          obtain ⟨ls, w, e, tail, hstray⟩ := exists_stray n cs' hrest
          refine ⟨(c :: v) :: ls, w, e, tail, { hstray with text := ?_, written := ?_, lines := ?_ }⟩
          · rw [heq, hstray.text]
            simp
          · rw [writeLines_char hc, hv, hstray.written, layLines_cons (by simp)]
            simp
          · simpa [hline, Ne.symm hnl] using hstray.lines
termination_by cs.length

end ScalarStyle

section Reader

variable {n limit : Nat}

/-! ## Reading on inside a line -/

theorem blockLines_suffix {literal : Bool} {indent fuel : Nat} : ∀ {c : Cursor} {g : BlockGap}
    {text : List Char}, text <:+ (blockLines limit literal indent fuel c g text).1 := by
  induction fuel with
  | zero => exact List.suffix_rfl
  | succ fuel ih =>
    intro c g text
    rw [blockLines]
    split
    · simp only
      split
      · exact List.suffix_append _ _
      · exact (List.suffix_append _ _).trans ih
    · exact List.suffix_rfl

/-- A line with content is read up to its end. -/
theorem line_suffix_blockLines {fuel : Nat} {c : Cursor} (g : BlockGap) (text : List Char)
    (hn : 0 < n) (hcolumn : c.column = n) (hrest : c.rest ≠ []) :
    (c.rest.takeWhile (· ≠ '\n')).reverse ++ (g.text true false ++ text)
      <:+ (blockLines limit true n (fuel + 1) c g text).1 := by
  rw [blockLines, if_pos (by simp [hcolumn, hrest, Nat.ne_of_gt hn]), ← List.append_assoc]
  simp only
  split
  · exact List.suffix_rfl
  · exact blockLines_suffix

/-- A line that ends with the text is the last one. -/
theorem blockLines_last {fuel : Nat} {c : Cursor} (g : BlockGap) (text : List Char) (hn : 0 < n)
    (hcolumn : c.column = n) (hrest : c.rest ≠ []) (hline : '\n' ∉ c.rest) :
    ∃ blank, blockLines limit true n (fuel + 1) c g text
      = (c.rest.reverse ++ (g.text true false ++ text), ⟨false, 0, blank⟩, c.past c.rest) := by
  have htake : c.rest.takeWhile (· ≠ '\n') = c.rest := by
    have hall : ∀ d ∈ c.rest, decide (d ≠ '\n') = true := fun d hd => by
      simp only [ne_eq, decide_eq_true_eq]
      rintro rfl
      exact hline hd
    rw [← List.append_nil c.rest, List.takeWhile_append_of_pos hall]
    rfl
  have hpast := Cursor.past_of_line (List.append_nil c.rest).symm hline
  refine ⟨c.peek.any isBlank, ?_⟩
  rw [blockLines, if_pos (by simp [hcolumn, hrest, Nat.ne_of_gt hn])]
  simp only [htake]
  rw [if_pos (by rw [← Cursor.past, hpast]), ← List.append_assoc]
  rfl

/-- The reader goes from line to line up to one that need not end. -/
theorem blockLines_through {ch : Char} {rest : List Char} (hn : 0 < n) (hch : ch ≠ '\n')
    {fuel : Nat} : ∀ {ls : List (List Char)} {w : List Char} {c : Cursor} (g : BlockGap)
      (text : List Char), (∀ v ∈ w :: ls, '\n' ∉ v) → c.column = n →
      c.rest = w ++ '\n' :: (layLines n ls ++ (spaces n ++ ch :: rest)) →
      ls.length + 1 < fuel → ls.length < limit →
      ∃ fuel' g' c' text', blockLines limit true n fuel c g text
          = blockLines limit true n (fuel' + 1) c' g' text' ∧
        c'.rest = ch :: rest ∧ c'.column = n ∧
        g'.text true false ++ text' = (joinLines (w :: ls)).reverse ++ (g.text true false ++ text) := by
  induction fuel with
  | zero => exact fun _ _ _ _ _ hfuel => absurd hfuel (Nat.not_lt_zero _)
  | succ fuel ih =>
    intro ls w c g text hls hcolumn hc hfuel hlimit
    have hw := hls w (by simp)
    have hpast := Cursor.past_of_line hc hw
    have hbreak : (c.past (w ++ ['\n'])) = ⟨layLines n ls ++ (spaces n ++ ch :: rest),
        c.index + w.length + 1, c.line + 1, 0, true⟩ := by
      rw [Cursor.past_append, hpast, Cursor.past_break rfl]
    obtain ⟨k, rfl | ⟨v, ls', rfl, hv⟩⟩ := exists_content ls
    · rw [layLines_empties] at hbreak
      obtain ⟨c', hskip, -, hcol, hrest⟩ := @skipIndentation_content n k limit _ _
        (c.past (w ++ ['\n'])) 0 hch (by rw [hbreak]) (by rw [hbreak]) (by simpa using hlimit)
      rw [Nat.zero_add] at hskip
      obtain ⟨blank, hgoes⟩ := blockLines_line fuel g text hn hw hc hcolumn hskip
      obtain ⟨f, rfl⟩ : ∃ f, fuel = f + 1 := ⟨fuel - 1, by omega⟩
      refine ⟨f, _, c', _, hgoes, hrest, hcol, ?_⟩
      simp [blockGap_text_literal, List.replicate_succ, replicate_append_cons]
    · obtain ⟨d, v, rfl⟩ := List.exists_cons_of_ne_nil hv
      have hd : d ≠ '\n' := fun h => hls (d :: v) (by simp) (by simp [h])
      rw [layLines_replicate, layLines_cons hv] at hbreak
      simp only [List.append_assoc, List.cons_append, List.length_append, List.length_replicate,
        List.length_cons] at hbreak hfuel hlimit
      obtain ⟨c', hskip, -, hcol, hrest⟩ := @skipIndentation_content n k limit _ _
        (c.past (w ++ ['\n'])) 0 hd (by rw [hbreak]) (by rw [hbreak]) (by omega)
      rw [Nat.zero_add] at hskip
      obtain ⟨blank, hgoes⟩ := blockLines_line fuel g text hn hw hc hcolumn hskip
      obtain ⟨f, g', c₂, text', hread, hrest₂, hcol₂, htext⟩ := ih (w := d :: v) ⟨true, k, blank⟩
        (w.reverse ++ g.text true blank ++ text) (fun u hu => hls u (by simp at hu ⊢; tauto)) hcol hrest
        (by omega) (by omega)
      refine ⟨f, g', c₂, text', hgoes.trans hread, hrest₂, hcol₂, ?_⟩
      rw [htext, blockGap_text_literal, blockGap_text_literal, blockGap_text_literal]
      simp [joinLines_append, List.replicate_succ, replicate_append_cons]

/-- The lines up to one that need not end, from the first one with content on. -/
theorem firstLine_through {cs : List Char} {ls : List (List Char)} {ch : Char} {rest : List Char}
    {c : Cursor} {outer : Nat} (hch : ch ≠ '\n') (hne : cs ≠ [])
    (hhead : (joinLines ls ++ ch :: rest).head? = cs.head?) (hls : ∀ w ∈ ls, '\n' ∉ w)
    (hlimit : ls.length < limit)
    (hc : c.rest = layLines (outer + 2) ls ++ (spaces (outer + 2) ++ ch :: rest))
    (hcolumn : c.column = 0) :
    ∃ k c', firstLine limit outer (if indentationMark cs = [] then 0 else 2) c = (outer + 2, k, c') ∧
      c'.column = outer + 2 ∧
      (ls = List.replicate k [] ∧ c'.rest = ch :: rest ∨
        ∃ w ls', ls = List.replicate k [] ++ w :: ls' ∧ w ≠ [] ∧
          c'.rest = w ++ '\n' :: (layLines (outer + 2) ls' ++ (spaces (outer + 2) ++ ch :: rest))) := by
  have hpos : 0 < limit := by omega
  rcases indentationMark_mem cs with hmark | hmark
  · obtain ⟨d, cs, rfl⟩ := List.exists_cons_of_ne_nil hne
    obtain ⟨hspace, hseen⟩ := first_of_no_mark hmark
    have hbreak := ne_of_not_isLineBreak hseen
    rcases ls with - | ⟨w, ls⟩
    · obtain rfl : ch = d := by simpa using hhead
      obtain ⟨c', hdetect, -, hcol, hrest⟩ := detectIndentation_content hpos hspace hbreak hc hcolumn
      exact ⟨0, c', by simp [firstLine, hmark, hdetect], hcol, .inl ⟨rfl, hrest⟩⟩
    · rcases w with - | ⟨b, w⟩
      · obtain rfl : '\n' = d := by simpa using hhead
        exact absurd rfl hbreak
      · obtain rfl : b = d := by simpa using hhead
        rw [layLines_cons (by simp)] at hc
        simp only [List.append_assoc, List.cons_append] at hc
        obtain ⟨c', hdetect, -, hcol, hrest⟩ := detectIndentation_content hpos hspace hbreak hc hcolumn
        exact ⟨0, c', by simp [firstLine, hmark, hdetect], hcol,
          .inr ⟨b :: w, ls, rfl, by simp, hrest⟩⟩
  · have hfirst : ∀ {k c'}, skipIndentation (outer + 2) limit c 0 = (0 + k, c') →
        firstLine limit outer (if indentationMark cs = [] then 0 else 2) c = (outer + 2, k, c') := by
      intro k c' hskip
      simp [firstLine, hmark, hskip]
    obtain ⟨k, rfl | ⟨w, ls', rfl, hw⟩⟩ := exists_content ls
    · rw [layLines_empties] at hc
      obtain ⟨c', hskip, -, hcol, hrest⟩ := @skipIndentation_content (outer + 2) k
        limit _ _ _ 0 hch hc hcolumn (by simpa using hlimit)
      exact ⟨k, c', hfirst hskip, hcol, .inl ⟨rfl, hrest⟩⟩
    · obtain ⟨d, v, rfl⟩ := List.exists_cons_of_ne_nil hw
      have hd : d ≠ '\n' := fun h => hls (d :: v) (by simp) (by simp [h])
      rw [layLines_replicate, layLines_cons hw] at hc
      simp only [List.append_assoc, List.cons_append] at hc
      simp only [List.length_append, List.length_replicate, List.length_cons] at hlimit
      obtain ⟨c', hskip, -, hcol, hrest⟩ := @skipIndentation_content (outer + 2) k
        limit _ _ _ 0 hd hc hcolumn (by omega)
      exact ⟨k, c', hfirst hskip, hcol, .inr ⟨d :: v, ls', rfl, by simp, hrest⟩⟩

/-- What a literal scalar is read as, by what its lines are read as. -/
def finish (chomping : Chomping) (column : Nat) (lines : List Char × BlockGap × Cursor) :
    Except Fault (String × Cursor) :=
  .ok (String.ofList (chomp chomping column lines.2.1 lines.2.2 ++ lines.1).reverse, lines.2.2)

/-- The reader gets to a line that need not end with the lines in front of it. -/
theorem contentFrom_through {chomping : Chomping} {ls : List (List Char)} {ch : Char}
    {rest : List Char} {c : Cursor} {outer k : Nat} (hch : ch ≠ '\n') (hls : ∀ w ∈ ls, '\n' ∉ w)
    (hlimit : ls.length + 1 < limit) (hcolumn : c.column = outer + 2)
    (hat : ls = List.replicate k [] ∧ c.rest = ch :: rest ∨
      ∃ w ls', ls = List.replicate k [] ++ w :: ls' ∧ w ≠ [] ∧
        c.rest = w ++ '\n' :: (layLines (outer + 2) ls' ++ (spaces (outer + 2) ++ ch :: rest))) :
    ∃ fuel g c' text, contentFrom limit outer chomping (outer + 2, k, c)
        = finish chomping (outer + 2) (blockLines limit true (outer + 2) (fuel + 1) c' g text) ∧
      c'.rest = ch :: rest ∧ c'.column = outer + 2 ∧
      g.text true false ++ text = (joinLines ls).reverse := by
  have hrest : c.rest ≠ [] := by
    rcases hat with ⟨-, h⟩ | ⟨w, ls', -, -, h⟩ <;> rw [h] <;> simp
  have hcontent : contentFrom limit outer chomping (outer + 2, k, c) = finish chomping (outer + 2)
      (blockLines limit true (outer + 2) limit c ⟨false, k, false⟩ []) := by
    unfold contentFrom
    simp only
    rw [if_neg hrest, if_neg (by simp [hcolumn])]
    rfl
  rcases hat with ⟨rfl, hc⟩ | ⟨w, ls', rfl, hw, hc⟩
  · obtain ⟨fuel, rfl⟩ : ∃ f, limit = f + 1 := ⟨limit - 1, by omega⟩
    exact ⟨fuel, _, c, _, hcontent, hc, hcolumn, by simp [blockGap_text_literal]⟩
  · simp only [List.length_append, List.length_replicate, List.length_cons] at hlimit
    obtain ⟨fuel, g, c', text, hread, hrest', hcol, htext⟩ := @blockLines_through _ limit _ _
      (by omega) hch _ _ _ _ ⟨false, k, false⟩ [] (fun v hv => hls v (List.mem_append_right _ hv)) hcolumn hc
      (by omega : ls'.length + 1 < limit) (by omega)
    refine ⟨fuel, g, c', text, by rw [hcontent, hread], hrest', hcol, ?_⟩
    rw [htext, blockGap_text_literal, joinLines_append]
    simp

/-! ## The cursor moves on -/

theorem line_le_advance (c : Cursor) : c.line ≤ c.advance.line := Lexer.line_le_advanceBy 1 c

theorem line_le_skipIndentation {indent fuel : Nat} : ∀ {c : Cursor} (lines : Nat),
    c.line ≤ (skipIndentation indent fuel c lines).2.line := by
  induction fuel with
  | zero => exact fun _ => Nat.le_refl _
  | succ fuel ih =>
    intro c lines
    have hadvance := Lexer.line_le_advanceBy
      (min (indent - c.column) (c.rest.takeWhile (· = ' ')).length) c
    rw [skipIndentation]
    split
    · exact Nat.le_trans hadvance (Nat.le_trans (line_le_advance _) (ih _))
    · exact hadvance

theorem line_le_detectIndentation {fuel : Nat} : ∀ {c : Cursor} (deepest lines : Nat),
    c.line ≤ (detectIndentation fuel c deepest lines).2.2.line := by
  induction fuel with
  | zero => exact fun _ _ => Nat.le_refl _
  | succ fuel ih =>
    intro c deepest lines
    have hadvance : c.line ≤ (c.skipWhile (· = ' ')).line := Lexer.line_le_advanceBy _ c
    rw [detectIndentation]
    split
    · exact Nat.le_trans hadvance (Nat.le_trans (line_le_advance _) (ih _ _))
    · exact hadvance

theorem line_le_blockLines {literal : Bool} {indent fuel : Nat} : ∀ {c : Cursor} {g : BlockGap}
    {text : List Char}, c.line ≤ (blockLines limit literal indent fuel c g text).2.2.line := by
  induction fuel with
  | zero => exact Nat.le_refl _
  | succ fuel ih =>
    intro c g text
    rw [blockLines]
    split
    · have hadvance := Lexer.line_le_advanceBy (c.rest.takeWhile (· ≠ '\n')).length c
      simp only
      split
      · exact hadvance
      · exact Nat.le_trans hadvance (Nat.le_trans (line_le_advance _)
          (Nat.le_trans (line_le_skipIndentation 0) ih))
    · exact Nat.le_refl _

theorem line_le_contentFrom {indent : Int} {chomping : Chomping} {first : Nat × Nat × Cursor}
    {c' : Cursor} {t : String} (h : contentFrom limit indent chomping first = .ok (t, c')) :
    first.2.2.line ≤ c'.line := by
  unfold contentFrom at h
  simp only at h
  split at h
  · cases h
    exact Nat.le_refl _
  · split at h
    · cases h
    · cases h
      exact line_le_blockLines

theorem line_le_firstLine (indent : Int) (increment : Nat) (c : Cursor) :
    c.line ≤ (firstLine limit indent increment c).2.2.line := by
  rw [firstLine]
  split
  · exact line_le_detectIndentation 0 0
  · exact line_le_skipIndentation 0

/-! ## What is read is another text -/

/-- A character that ends the scalar at the beginning of a line. -/
theorem length_le_of_contentFrom {chomping : Chomping} {ls : List (List Char)} {body : List Char}
    {c c' : Cursor} {outer k : Nat} {t : String} (hbody : Starts body) (hne : body ≠ [])
    (hls : ∀ w ∈ ls, '\n' ∉ w) (hlimit : ls.length < limit)
    (hat : ls = List.replicate k [] ∧ c.rest = body ∧ c.column = 0 ∨
      ∃ w ls', ls = List.replicate k [] ++ w :: ls' ∧ w ≠ [] ∧ c.column = outer + 2 ∧
        c.rest = w ++ '\n' :: (layLines (outer + 2) ls' ++ (spaces 0 ++ body)))
    (hread : contentFrom limit outer chomping (outer + 2, k, c) = .ok (t, c')) :
    t.toList.length ≤ (joinLines ls).length := by
  have hchomp : ∀ (g : BlockGap) (c : Cursor), c.rest ≠ [] →
      (chomp chomping (outer + 2) g c).length ≤ (if g.broken then 1 else 0) + g.emptyLines := by
    intro g c hc
    unfold chomp
    split
    · simp
    · simp only [hc, decide_false, Bool.false_and, Bool.false_eq_true, if_false, List.length_replicate]
      have hkept : (if chomping = .keep then g.emptyLines else 0) ≤ g.emptyLines := by
        split <;> omega
      omega
  rcases hat with ⟨rfl, hrest, hcol⟩ | ⟨w, ls', rfl, hw, hcol, hrest⟩
  · unfold contentFrom at hread
    simp only at hread
    rw [if_neg (by rw [hrest]; exact hne), if_neg (by simp [hcol]), blockLines_stop (by omega)] at hread
    cases hread
    have := hchomp ⟨false, k, false⟩ c (by rw [hrest]; exact hne)
    simpa using this
  · simp only [List.length_append, List.length_replicate, List.length_cons] at hlimit
    obtain ⟨text, g, c₁, hlines, hbroken, hrest', hcol', -, htext⟩ :=
      @blockLines_layLines (outer + 2) 0 limit _ (by omega) hbody limit _ _ _
        ⟨false, k, false⟩ [] hw (fun v hv => hls v (List.mem_append_right _ hv)) hcol hrest (by omega)
        (by omega)
    unfold contentFrom at hread
    simp only at hread
    rw [if_neg (by simp [hrest]), if_neg (by simp [hcol]), hlines] at hread
    cases hread
    have hlen := congrArg List.length htext
    have := hchomp g c₁ (by rw [hrest']; exact hne)
    rw [blockGap_text_literal] at hlen
    simp only [List.length_cons, List.length_append, List.length_replicate, List.length_reverse,
      List.length_nil, hbroken, if_true, String.toList_ofList, joinLines_append, joinLines_replicate,
      if_false, Bool.false_eq_true] at hlen this ⊢
    omega

theorem hasPair_tail {p q : Char → Bool} {c : Char} {cs : List Char} (h : hasPair p q (c :: cs) = false) :
    hasPair p q cs = false := by
  cases cs with
  | nil => rfl
  | cons d cs =>
    simp only [hasPair, Bool.or_eq_false_iff] at h
    exact h.2

theorem hasPair_append {p q : Char → Bool} {us vs : List Char} (h : hasPair p q (us ++ vs) = false) :
    hasPair p q vs = false := by
  induction us with
  | nil => exact h
  | cons u us ih => exact ih (hasPair_tail h)

/-- What the writer puts on a new line are some spaces and a character that is seen. -/
theorem exists_spaces {tail : List Char} (hpair : hasPair (· = ' ') isLineBreak tail = false)
    (hlast : tail.getLast? ≠ some ' ') (hne : tail ≠ []) (hhead : tail.head?.any isLineBreak = false) :
    ∃ m x tail', tail = spaces m ++ x :: tail' ∧ x ≠ ' ' ∧ isLineBreak x = false := by
  induction tail with
  | nil => exact absurd rfl hne
  | cons c tail ih =>
    by_cases hc : c = ' '
    · subst hc
      cases tail with
      | nil => exact absurd rfl hlast
      | cons d tail =>
        simp only [hasPair, decide_true, Bool.true_and, Bool.or_eq_false_iff] at hpair
        obtain ⟨m, x, tail', heq, hx⟩ := ih hpair.2 (by simpa using hlast) (by simp) (by simpa using hpair.1)
        exact ⟨m + 1, x, tail', by rw [heq]; rfl, hx⟩
    · exact ⟨0, c, tail, rfl, hc, by simpa using hhead⟩

theorem writeLines_spaces (m : Nat) {x : Char} {tail : List Char} (hx : isLineBreak x = false) :
    writeLines n true (spaces m ++ x :: tail)
      = spaces n ++ (spaces m ++ x :: writeLines n false tail) := by
  have hinside : ∀ m, writeLines n false (spaces m ++ x :: tail)
      = spaces m ++ x :: writeLines n false tail := by
    intro m
    induction m with
    | zero => rw [spaces, List.replicate_zero, List.nil_append, writeLines_char hx]; rfl
    | succ m ih => rw [spaces_succ, List.cons_append, writeLines_char rfl, ih]; rfl
  cases m with
  | zero => rw [spaces, List.replicate_zero, List.nil_append, writeLines_char hx]; rfl
  | succ m => rw [spaces_succ, List.cons_append, writeLines_char rfl, hinside m]; rfl

/-- The rest of a line that the reader reads on is not what the text goes on with. -/
theorem not_prefix_of_stray {tail rest : List Char}
    (hpair : hasPair (· = ' ') isLineBreak tail = false) (hlast : tail.getLast? ≠ some ' ')
    (hhead : tail.head?.any isLineBreak = false) (hn : 0 < n)
    (hne : tail ≠ [] ∨ ∃ d rest', rest = d :: rest' ∧ d ≠ '\n') :
    ¬ (writeLines n true tail ++ rest).takeWhile (· ≠ '\n') <+: tail := by
  by_cases htail : tail = []
  · subst htail
    obtain ⟨d, rest', rfl, hd⟩ := hne.resolve_left (by simp)
    simp [writeLines, hd]
  · obtain ⟨m, x, tail', rfl, hx, hbreak⟩ := exists_spaces hpair hlast htail hhead
    have hnl := ne_of_not_isLineBreak hbreak
    rw [writeLines_spaces m hbreak]
    intro hprefix
    have htake : ((spaces n ++ (spaces m ++ x :: writeLines n false tail')) ++ rest).takeWhile (· ≠ '\n')
        = spaces m ++ (spaces n ++ x :: (writeLines n false tail' ++ rest).takeWhile (· ≠ '\n')) := by
      have hspaces : ∀ k, ∀ d ∈ spaces k, decide (d ≠ '\n') = true := fun k d hd => by
        rw [mem_spaces hd]
        rfl
      have hswap : spaces n ++ spaces m = spaces m ++ spaces n := by
        simp [spaces, List.replicate_append_replicate, Nat.add_comm]
      simp only [List.append_assoc, List.cons_append]
      rw [List.takeWhile_append_of_pos (hspaces n), List.takeWhile_append_of_pos (hspaces m),
        List.takeWhile_cons_of_pos (by simpa using hnl), ← List.append_assoc, hswap, List.append_assoc]
    rw [htake, List.prefix_append_right_inj] at hprefix
    obtain ⟨n, rfl⟩ : ∃ k, n = k + 1 := ⟨n - 1, by omega⟩
    rw [spaces_succ, List.cons_append, List.cons_prefix_cons] at hprefix
    exact hx hprefix.1.symm

theorem endingMark_of_break {cs : List Char} {e : Char} (h : isLineBreak e = true) :
    endingMark (cs ++ [e]) ≠ ['-'] := by
  have hrev : (cs ++ [e]).reverse = e :: cs.reverse := by simp
  rw [endingMark, hrev]
  simp only [h, Bool.not_true, Bool.false_eq_true, if_false]
  split
  · decide
  · split <;> decide

/-- The end of a text that ends a line for the writer alone gets a line feed. -/
theorem finish_last {chomping : Chomping} {fuel : Nat} {g : BlockGap} {c c' : Cursor} {t : String}
    {text line : List Char} (hchomping : chomping ≠ .strip) (hn : 0 < n) (hcolumn : c.column = n)
    (hrest : c.rest ≠ []) (hline : '\n' ∉ c.rest) (htext : g.text true false ++ text = line.reverse)
    (hread : finish chomping n (blockLines limit true n (fuel + 1) c g text) = .ok (t, c')) :
    t.toList = line ++ c.rest ++ ['\n'] := by
  obtain ⟨blank, hlast⟩ := blockLines_last g text hn hcolumn hrest hline
  have hpast := Cursor.past_of_line (List.append_nil c.rest).symm hline
  have himplied : max n 1 ≤ c.column + c.rest.length := by omega
  rw [hlast, htext] at hread
  cases hread
  rw [hpast]
  cases chomping with
  | strip => exact absurd rfl hchomping
  | clip | keep => simp [chomp, himplied]

/-- What stands in place of the rest of the text is read up to the end of the line. -/
theorem prefix_of_finish {chomping : Chomping} {fuel : Nat} {g : BlockGap} {c c' : Cursor} {t : String}
    {text line : List Char} (hn : 0 < n) (hcolumn : c.column = n) (hrest : c.rest ≠ [])
    (htext : g.text true false ++ text = line.reverse)
    (hread : finish chomping n (blockLines limit true n (fuel + 1) c g text) = .ok (t, c')) :
    line ++ c.rest.takeWhile (· ≠ '\n') <+: t.toList := by
  have hsuffix := @line_suffix_blockLines n limit fuel _ g text hn hcolumn hrest
  rw [htext, ← List.reverse_append] at hsuffix
  cases hread
  rw [String.toList_ofList, ← List.reverse_suffix, List.reverse_reverse]
  exact hsuffix.trans (List.suffix_append _ _)

/-- An end of line for the writer alone is content for the reader. -/
theorem starts_writerBreak {e : Char} (h : isLineBreak e = true) (hne : e ≠ '\n') (tail : List Char) :
    Starts (e :: tail) := by
  rintro _ _ ⟨rfl, rfl⟩
  have hnot : ∀ d : Char, isLineBreak d = false → e ≠ d := by
    rintro d hd rfl
    simp [h] at hd
  refine ⟨?_, hne, hnot '#' (by decide)⟩
  simp [isBlank, hnot ' ' (by decide), hnot '\t' (by decide)]

section Misread

variable {cs w tail : List Char} {ls : List (List Char)} {ch e : Char} {c c' : Cursor} {outer : Nat}
  {t : String}

/-- At the beginning of a line the character ends the scalar. -/
theorem misread_at_margin {rest : List Char} (hstray : Stray (outer + 2) cs ls [] e tail)
    (hne : cs ≠ []) (hlimit : ls.length < limit)
    (hc : c.rest = layLines (outer + 2) ls ++ e :: rest) (hcolumn : c.column = 0)
    (hread : contentFrom limit outer (chompingOfMark (endingMark cs))
      (firstLine limit outer (if indentationMark cs = [] then 0 else 2) c) = .ok (t, c')) :
    t ≠ String.ofList cs := by
  have hbody := starts_writerBreak hstray.writerBreak hstray.noBreak rest
  have hhead : indentationMark cs = [] → (joinLines ls).head? = cs.head? := by
    intro hmark
    rw [hstray.text] at hmark ⊢
    cases hls : joinLines ls with
    | nil =>
      rw [hls] at hmark
      exact absurd (first_of_no_mark hmark).2 (by simp [hstray.writerBreak])
    | cons d rest => rfl
  obtain ⟨k, c₁, hfirst, -, hat⟩ := firstLine_layLines (m := 0) (Nat.zero_le _) hbody hne hhead
    hstray.lines hlimit hc hcolumn
  rw [hfirst] at hread
  have hshort := length_le_of_contentFrom hbody (by simp) hstray.lines hlimit hat hread
  rintro rfl
  have hlong := congrArg List.length hstray.text
  rw [String.toList_ofList] at hshort
  simp only [List.length_append, List.length_cons, List.nil_append] at hlong
  omega

/-- Inside a line the reader goes on with what follows on it. -/
theorem misread_inside {rest : List Char} (hstray : Stray (outer + 2) cs ls (ch :: w) e tail)
    (hfit : fitsLiteral cs = true) (hne : cs ≠ []) (hlimit : ls.length + 1 < limit)
    (hrest : rest.head? ≠ some '\n')
    (hc : c.rest = layLines (outer + 2) ls ++ (spaces (outer + 2) ++
      (ch :: w ++ e :: (writeLines (outer + 2) true tail ++ rest)))) (hcolumn : c.column = 0)
    (hread : contentFrom limit outer (chompingOfMark (endingMark cs))
      (firstLine limit outer (if indentationMark cs = [] then 0 else 2) c) = .ok (t, c')) :
    t ≠ String.ofList cs := by
  simp only [fitsLiteral, Bool.and_eq_true, Bool.not_eq_true', decide_eq_true_eq] at hfit
  have hline := hstray.line
  have hch : ch ≠ '\n' := fun h => hline (by simp [h])
  obtain ⟨k, c₁, hfirst, hcol₁, hat⟩ := @firstLine_through limit cs _ _ _ _ outer hch hne
    (by rw [hstray.text]; cases joinLines ls <;> rfl) hstray.lines (Nat.lt_of_succ_lt hlimit) hc hcolumn
  obtain ⟨fuel, g, c₂, text, hthrough, hrest₂, hcol₂, htext⟩ :=
    @contentFrom_through limit (chompingOfMark (endingMark cs)) _ _ _ _ _ _ hch hstray.lines hlimit hcol₁ hat
  rw [hfirst, hthrough] at hread
  change c₂.rest = ch :: w ++ e :: (writeLines (outer + 2) true tail ++ rest) at hrest₂
  rintro rfl
  have hne₂ : c₂.rest ≠ [] := by simp [hrest₂]
  have htake : c₂.rest.takeWhile (· ≠ '\n') = (ch :: w) ++ e ::
      (writeLines (outer + 2) true tail ++ rest).takeWhile (· ≠ '\n') := by
    have hall : ∀ d ∈ ch :: w, decide (d ≠ '\n') = true := fun d hd => by
      simp only [ne_eq, decide_eq_true_eq]
      rintro rfl
      exact hline hd
    rw [hrest₂, List.takeWhile_append_of_pos hall,
      List.takeWhile_cons_of_pos (by simpa using hstray.noBreak)]
  have hprefix := prefix_of_finish (by omega) hcol₂ hne₂ htext hread
  rw [String.toList_ofList, htake, hstray.text, List.prefix_append_right_inj,
    List.prefix_append_right_inj, List.cons_prefix_cons] at hprefix
  by_cases hend : tail = [] ∧ rest = []
  · -- Nothing follows on the line, but the reader takes the line as ended.
    obtain ⟨rfl, rfl⟩ := hend
    have hchomping : chompingOfMark (endingMark cs) ≠ .strip := by
      have hmark := @endingMark_of_break (joinLines ls ++ ch :: w) _ hstray.writerBreak
      rw [List.append_assoc, ← hstray.text] at hmark
      rw [chompingOfMark, if_neg hmark]
      split <;> decide
    have hlast := finish_last hchomping (by omega) hcol₂ hne₂
      (by rw [hrest₂]; simpa [writeLines, hstray.noBreak.symm] using hline) htext hread
    rw [String.toList_ofList, hrest₂] at hlast
    have hlonger := congrArg List.length (hlast.symm.trans hstray.text)
    simp [writeLines] at hlonger
  · refine not_prefix_of_stray ?_ ?_ (hstray.goesOn (by simp)) (by omega) ?_ hprefix.2
    · have hpair := hfit.1.1.2
      rw [hstray.text] at hpair
      exact hasPair_tail (hasPair_append (hasPair_append hpair))
    · intro hspace
      refine hfit.1.2 ?_
      rw [hstray.text, List.getLast?_append, List.getLast?_append, List.getLast?_cons, hspace]
      rfl
    · cases tail with
      | cons d tail => exact .inl (by simp)
      | nil =>
        obtain ⟨d, rest', rfl⟩ := List.exists_cons_of_ne_nil fun h => hend ⟨rfl, h⟩
        exact .inr ⟨d, rest', rfl, by simpa using hrest⟩

/-- A literal scalar with an end of line that is one for the writer alone, and in the wrong
place, is read as another text, if as any. Behind it is a later line. -/
theorem readBlock_misread {rest : List Char} (hfit : fitsLiteral cs = true)
    (hbad : endsLines false cs = false) (hrest : rest.head? ≠ some '\n')
    (hc : c.rest = '|' :: (indentationMark cs ++ (endingMark cs ++ '\n' ::
      (writeLines (outer + 2) true cs ++ rest))))
    (hlimit : c.rest.length < limit) (hread : readBlock limit outer c = .ok (t, c')) :
    t ≠ String.ofList cs ∧ c.line < c'.line := by
  obtain ⟨ls, w, e, tail, hstray⟩ := exists_stray (outer + 2) cs hbad
  have hne : cs ≠ [] := by
    rintro rfl
    exact nomatch hbad
  have htab : (writeLines (outer + 2) true cs ++ rest).head? ≠ some '\t' := by
    rw [hstray.written, List.append_assoc]
    by_cases hls : ls = []
    · subst hls
      cases w with
      | nil =>
        have htab : e ≠ '\t' := by
          rintro rfl
          exact absurd hstray.writerBreak (by decide)
        simpa using htab
      | cons ch w => simp [spaces_succ]
    · exact head?_layLines hls _
  have hlen : ls.length + 1 < limit := by
    have := length_le_layLines (outer + 2) ls
    rw [hc, hstray.written] at hlimit
    simp at hlimit
    omega
  obtain ⟨c₁, hheader, hrest₁, hcol₁, hline₁⟩ := @readBlock_header limit _ _ _ outer hc htab
  rw [hheader] at hread
  have hfirst := @line_le_firstLine limit outer (if indentationMark cs = [] then 0 else 2) c₁
  refine ⟨?_, Nat.lt_of_lt_of_le hline₁ (Nat.le_trans hfirst (line_le_contentFrom hread))⟩
  rw [hstray.written, List.append_assoc] at hrest₁
  cases w with
  | nil => exact misread_at_margin hstray hne (Nat.lt_of_succ_lt hlen) hrest₁ hcol₁ hread
  | cons ch w =>
    exact misread_inside hstray hfit hne hlen hrest (by simpa using hrest₁) hcol₁ hread

end Misread

end Reader

/-! ## The tokens -/

/-- The tokens, if there are any, begin with these up to a literal scalar, and there have
one of another text. -/
def Departs (ts : List Token) : Verdict := fun result => ∀ us, result = .ok us →
  ∃ before text back other more, ts = before ++ .scalar .literal text :: back ∧ other ≠ text ∧
    us = before ++ .scalar .literal other :: more

/-- What the step at the indicator of a literal scalar leaves. -/
theorem exists_of_dispatch_literal {s s' : Lexer} {x : Spot} {P : Level} {outer : Nat} {done : Bool}
    {tail : List Char} (h : s.At x) (hP : P.Holds x.level) (houter : P.indent = outer)
    (hcolumn : outer < x.column) (hx : x.body = '|' :: tail) (hs : s.dispatch = .ok (s', done)) :
    ∃ t k, readBlock s.limit outer s.cursor = .ok (t, s'.cursor) ∧
      s'.InBlock P (.scalar .literal t :: x.tokens) ∧ s'.keys = [k] ∧
      (k.possible = true → k.line = s.cursor.line) := by
  have hdrop := (h.block.saveKey.allowKey true).dropOpenEnded (.inl hP)
  have hblock := (h.block.saveKey.allowKey true).setLevel P
  have hcursor : ((s.saveKey.allowKey true).setLevel P).cursor = s.cursor := Lexer.cursor_saveKey
  have hlimit : ((s.saveKey.allowKey true).setLevel P).limit = s.limit := Lexer.limit_saveKey
  obtain ⟨k, hk, hline⟩ := Lexer.keys_saveKey h hP (by omega)
  have hzero : s.cursor.column ≠ 0 := by
    rw [h.column]
    omega
  have hle : ¬ s.column < s.indent := by
    have := hP.indent_le (by omega : P.indent < x.column)
    rw [Lexer.column, h.column, h.block.indent]
    omega
  have htoken : s.token '|' = (readBlock s.limit outer s.cursor >>= fun r =>
      .ok ((((s.saveKey.allowKey true).setLevel P).move r.2).push (.scalar .literal r.1))) := by
    show (if s.inFlow then s.plainScalar else s.blockScalar .literal) = _
    rw [h.block.inFlow, if_neg (by simp), Lexer.blockScalar, hdrop]
    simp only [hblock.indent, houter, hcursor, hlimit]
  rw [Lexer.dispatch, h.rest.trans hx] at hs
  simp only [hzero, decide_false, Bool.false_and, Bool.false_eq_true, if_false, if_neg hle, htoken,
    bind_eq_ok] at hs
  obtain ⟨s₁, ⟨⟨t, c⟩, hread, hs₁⟩, hs⟩ := hs
  cases hs
  cases hs₁
  exact ⟨t, k, hread, (hblock.move c).push _, hk, fun hpossible => (hline hpossible).2⟩

/-- A literal scalar that does not come back is read as something else, whatever is read
behind it. -/
theorem yields_misread {P L : Level} {outer column : Nat} {cs rest : List Char} {ts : List Token}
    {keyAllowed : Bool} (hP : P.Holds L) (houter : P.indent = outer) (hcolumn : outer < column)
    (hlays : ¬ Lays cs) (hrest : rest.head? ≠ some '\n') :
    (Spot.mk (writeScalar (outer + 2) cs ++ rest) column ts keyAllowed L).Yields
      (Departs (ts.reverse ++ [.scalar (ofText cs) (String.ofList (laidText (outer + 2) cs))])) := by
  obtain ⟨hstyle, hbad⟩ : ofText cs = .literal ∧ endsLines false cs = false := by
    simpa [Lays] using hlays
  rw [hstyle, laidText_of_ne _ (by simp [hstyle])]
  rintro s ⟨s₀, hs₀, hat⟩ fuel hfuel us hrun
  obtain ⟨fuel, rfl⟩ : ∃ k, fuel = k + 1 := ⟨fuel - 1, by omega⟩
  obtain ⟨s₀', s₁, done, hprepare, hdispatch, hgoes⟩ := Lexer.exists_step_of_run hrun
  obtain rfl : s₀ = s₀' := Except.ok.inj (hs₀.symm.trans hprepare)
  have hbody := writeScalar_literal (outer + 2) hstyle rest
  obtain ⟨t, k, hread, hblock, hkeys, hk⟩ :=
    exists_of_dispatch_literal hat hP houter hcolumn hbody hdispatch
  obtain ⟨hne, hline⟩ := readBlock_misread (fitsLiteral_of_ofText hstyle) hbad hrest
    (hat.rest.trans hbody) (by rw [hat.rest]; exact hat.limit) hread
  have hprefix : (Token.scalar .literal t :: ts).reverse <+: us := by
    rcases hgoes with rfl | hgoes
    · exact hblock.tokens ▸ List.prefix_rfl
    · exact Lexer.run_keeps_of_line hblock hkeys (fun hpossible => hk hpossible ▸ hline) hgoes
  obtain ⟨more, rfl⟩ := hprefix
  exact ⟨ts.reverse, _, [], t, more, rfl, hne, by simp⟩

end WorkspaceTrust.Yaml
