import UniformScript.Proofs.Source.Coherent

/-!
# Carets under the covered characters

The lines of a part of a text are pieces of the lines of the text: the first of them ends a line,
the last one begins a line, and those between are whole lines.  So the columns that an excerpt
computes for a line are where its piece begins and ends, and the carets are as many as the piece
has characters, or one if it has none.

Tab characters are counted in these columns and left out of the lines that are shown.  The carets
stand under the piece as it is shown if no tab is in front of it, and none in it unless only tabs
follow.

* `getElem?_rows_append_left`, `getElem?_rows_append_right`: the lines of two texts in a row.
* `exists_piece`: the covered piece of each line, and its columns.
* `carets_under_covered`: what stands above the carets of an excerpt.
-/

namespace UniformScript.Excerpt

variable {front : List (List Char)} {a : List Char} {start stop : Position} {i : Nat}

/-! ## The lines of two texts in a row -/

/-- The last line of the first text goes on with the first line of the second. -/
theorem rows_append (a b : List Char) : ∃ front last head tail, rows a = front ++ [last] ∧
    rows b = head :: tail ∧ rows (a ++ b) = front ++ (last ++ head) :: tail := by
  obtain ⟨head, tail, hb⟩ := List.exists_cons_of_ne_nil (rows_ne_nil b)
  induction a with
  | nil => exact ⟨[], [], head, tail, rfl, hb, hb⟩
  | cons c a ih =>
    obtain ⟨front, last, head', tail', ha, hb', hab⟩ := ih
    obtain ⟨rfl, rfl⟩ := List.cons.inj (hb.symm.trans hb')
    by_cases hc : c = '\n'
    · refine ⟨[] :: front, last, head, tail, ?_, hb, ?_⟩
      · rw [rows, if_pos hc, ha, List.cons_append]
      · rw [List.cons_append, rows, if_pos hc, hab, List.cons_append]
    · cases front with
      | nil =>
        refine ⟨[], c :: last, head, tail, ?_, hb, ?_⟩
        · rw [rows, if_neg hc, ha]
          rfl
        · rw [List.cons_append, rows, if_neg hc, hab]
          rfl
      | cons line front =>
        refine ⟨(c :: line) :: front, last, head, tail, ?_, hb, ?_⟩
        · rw [rows, if_neg hc, ha]
          rfl
        · rw [List.cons_append, rows, if_neg hc, hab]
          rfl

/-- The lines from the last one of the first text on. -/
theorem getElem?_rows_append_left {last : List Char} (ha : rows a = front ++ [last])
    (b : List Char) (i : Nat) : (rows (a ++ b))[front.length + i]? =
      (rows b)[i]?.map ((if i = 0 then last else []) ++ ·) := by
  obtain ⟨front', last', head, tail, ha', hb, hab⟩ := rows_append a b
  obtain ⟨rfl, hlast⟩ := List.append_inj' (ha.symm.trans ha') rfl
  obtain rfl := List.cons.inj hlast |>.1
  rw [hab, hb, List.getElem?_append_right (Nat.le_add_right ..), Nat.add_sub_cancel_left]
  cases i with
  | zero => rfl
  | succ i => simp

/-- The lines up to the last one of the first text. -/
theorem getElem?_rows_append_right {b head : List Char} {tail : List (List Char)}
    (hb : rows b = head :: tail) (a : List Char) (hi : i < (rows a).length) :
    (rows (a ++ b))[i]? =
      (rows a)[i]?.map (· ++ if i + 1 = (rows a).length then head else []) := by
  obtain ⟨front, last, head', tail', ha, hb', hab⟩ := rows_append a b
  obtain ⟨rfl, rfl⟩ := List.cons.inj (hb.symm.trans hb')
  rw [ha, List.length_append, List.length_singleton] at hi ⊢
  rw [hab]
  rcases Nat.lt_or_eq_of_le (Nat.le_of_lt_succ hi) with hlt | rfl
  · rw [List.getElem?_append_left hlt, List.getElem?_append_left hlt]
    simp [Nat.ne_of_lt hlt]
  · simp

/-- The last line of a text, and those in front of it. -/
theorem exists_rows_eq_append (a : List Char) : ∃ front last, rows a = front ++ [last] ∧
    front.length = a.count '\n' ∧ last.length = (a.reverse.takeWhile (· ≠ '\n')).length := by
  induction a using List.reverseRecOn with
  | nil => exact ⟨[], [], rfl, rfl, rfl⟩
  | append_singleton a c ih =>
    obtain ⟨front, last, ha, hfront, hlast⟩ := ih
    obtain ⟨front', last', head, tail, ha', hc, hac⟩ := rows_append a [c]
    obtain ⟨rfl, hlasts⟩ := List.append_inj' (ha.symm.trans ha') rfl
    obtain rfl := (List.cons.inj hlasts).1
    by_cases hbreak : c = '\n'
    · subst hbreak
      cases hc
      refine ⟨front ++ [last], [], ?_, ?_, ?_⟩
      · rw [hac, List.append_nil, List.append_assoc]
        rfl
      · simp [hfront]
      · simp
    · rw [rows, if_neg hbreak] at hc
      cases hc
      refine ⟨front, last ++ [c], hac, ?_, ?_⟩
      · simp [hfront, hbreak]
      · simp [hlast, hbreak]

/-! ## The covered piece of a line -/

/-- The characters of a source between two positions. -/
def coveredText (start stop : Position) : List Char :=
  (start.source.text.toList.take stop.index).drop start.index

/-- The column where the covered part of a line begins, counted from the line where the span
starts. -/
def firstColumn (start : Position) (i : Nat) : Nat := if i = 0 then start.column else 0

/-- The text in front of a coherent position has its line and its column. -/
theorem exists_rows_of_coherent {p : Position} (h : p.Coherent) : ∃ front last,
    rows (p.source.text.toList.take p.index) = front ++ [last] ∧ front.length = p.line ∧
      last.length = p.column := by
  obtain ⟨front, last, hrows, hfront, hlast⟩ :=
    exists_rows_eq_append (p.source.text.toList.take p.index)
  refine ⟨front, last, hrows, hfront.trans h.line.symm, ?_⟩
  have hlength : (p.source.text.toList.take p.index).length = p.index :=
    List.length_take_of_le h.index_le
  have hle := (List.takeWhile_sublist (· ≠ '\n')
    (l := (p.source.text.toList.take p.index).reverse)).length_le
  have hcolumn := h.column
  rw [List.length_reverse, hlength] at hle
  rw [afterLastBreak, hlength] at hcolumn
  omega

section

variable (hstart : start.Coherent) (hstop : stop.Coherent) (hsource : stop.source = start.source)
  (hle : start.index ≤ stop.index)

include hsource hle in
theorem take_append_coveredText : start.source.text.toList.take start.index ++
    coveredText start stop = stop.source.text.toList.take stop.index := by
  rw [coveredText, hsource]
  conv_rhs => rw [← List.take_append_drop start.index (start.source.text.toList.take stop.index)]
  rw [List.take_take, Nat.min_eq_left hle]

include hstart hstop hsource hle in
/-- The covered text has as many lines as the span touches. -/
theorem length_rows_coveredText :
    start.line + (rows (coveredText start stop)).length = stop.line + 1 := by
  have hcount := congrArg (List.count '\n') (take_append_coveredText hsource hle)
  rw [List.count_append, ← hstart.line, ← hstop.line] at hcount
  rw [length_rows]
  omega

include hstart hstop hsource hle in
/-- The covered piece of a line, with what stands in front of it and behind it on its line.  Its
columns are those that an excerpt computes. -/
theorem exists_piece (hi : i < (rows (coveredText start stop)).length) :
    ∃ before piece behind, (rows (coveredText start stop))[i]? = some piece ∧
      (rows start.source.text.toList)[start.line + i]? = some (before ++ (piece ++ behind)) ∧
      before.length = firstColumn start i ∧
      covered start stop (start.line + i) (before ++ (piece ++ behind)).length =
        (before.length, before.length + piece.length) := by
  obtain ⟨front, last, hrows, hfront, hlast⟩ := exists_rows_of_coherent hstart
  obtain ⟨front', last', hrows', hfront', hlast'⟩ := exists_rows_of_coherent hstop
  obtain ⟨head, tail, hhead⟩ :=
    List.exists_cons_of_ne_nil (rows_ne_nil (start.source.text.toList.drop stop.index))
  have hcount := length_rows_coveredText hstart hstop hsource hle
  have hsplit : start.source.text.toList.take start.index ++ (coveredText start stop ++
      start.source.text.toList.drop stop.index) = start.source.text.toList := by
    rw [← List.append_assoc, take_append_coveredText hsource hle, hsource,
      List.take_append_drop]
  obtain ⟨piece, hpiece⟩ : ∃ piece, (rows (coveredText start stop))[i]? = some piece :=
    ⟨_, List.getElem?_eq_getElem hi⟩
  let before := if i = 0 then last else []
  let behind := if i + 1 = (rows (coveredText start stop)).length then head else []
  have hbefore : before.length = firstColumn start i := by
    unfold firstColumn
    by_cases h0 : i = 0
    · rw [if_pos h0, ← hlast, show before = last from if_pos h0]
    · rw [if_neg h0, show before = [] from if_neg h0, List.length_nil]
  have hrow : (rows start.source.text.toList)[start.line + i]? =
      some (before ++ (piece ++ behind)) := by
    rw [← hsplit, ← hfront, getElem?_rows_append_left hrows,
      getElem?_rows_append_right hhead _ hi, hpiece]
    rfl
  -- on the last line the piece ends where the span does
  have hend : i + 1 = (rows (coveredText start stop)).length →
      before.length + piece.length = stop.column := by
    intro hi
    have hboth := getElem?_rows_append_left hrows (coveredText start stop) i
    rw [take_append_coveredText hsource hle, hrows', hpiece] at hboth
    have hindex : front.length + i = front'.length := by omega
    rw [hindex, List.getElem?_concat_length] at hboth
    rw [← hlast', Option.some.inj hboth, List.length_append]
  refine ⟨before, piece, behind, hpiece, hrow, hbefore, Prod.ext ?_ ?_⟩
  · show (if start.line + i = start.line then start.column else 0) = _
    rw [hbefore, firstColumn]
    simp
  · show (if start.line + i = max stop.line start.line then stop.column else _) = _
    by_cases hlast : i + 1 = (rows (coveredText start stop)).length
    · rw [if_pos (by omega), hend hlast]
    · rw [if_neg (by omega), show behind = [] from if_neg hlast, List.append_nil,
        List.length_append]

end

/-! ## What stands above carets -/

/-- The characters of a row that stand directly above carets. -/
def above (row carets : List Char) : List Char :=
  ((row.zip carets).filter fun p => p.2 = '^').map Prod.fst

/-- Carets behind as many blanks as a row has characters in front stand under what follows. -/
theorem above_carets (before rest : List Char) (n : Nat) :
    above (before ++ rest) (List.replicate before.length ' ' ++ List.replicate n '^') =
      rest.take n := by
  have hblank : (before.zip (List.replicate before.length ' ')).filter (fun p => p.2 = '^') =
      [] := by
    rw [List.filter_eq_nil_iff]
    intro p hp
    simp [List.eq_of_mem_replicate (List.of_mem_zip hp).2]
  have hcarets : (rest.zip (List.replicate n '^')).filter (fun p => p.2 = '^') =
      rest.zip (List.replicate n '^') := by
    rw [List.filter_eq_self]
    intro p hp
    simp [List.eq_of_mem_replicate (List.of_mem_zip hp).2]
  unfold above
  rw [List.zip_append (by simp), List.filter_append, hblank, List.nil_append, hcarets,
    List.zip_eq_zip_take_min, List.map_fst_zip (by simp), List.length_replicate,
    List.take_eq_take_iff]
  omega

/-! ## Excerpts -/

/-- The rows of an excerpt, each with the number of its line. -/
theorem annotateFrom_eq (start stop : Position) (line count : Nat) (rows : List (List Char)) :
    annotateFrom start stop line count rows =
      ((rows.take count).zipIdx line).flatMap fun r => annotate start stop r.2 r.1 := by
  induction rows generalizing line count with
  | nil => cases count <;> rfl
  | cons row rest ih =>
    cases count with
    | zero => rfl
    | succ count =>
      rw [annotateFrom, ih]
      rfl

/-- What an excerpt shows for the line `i` behind the one where the span starts: the line without
its tabs, and under the piece that the span covers as many carets as the piece has characters.  The
columns are those of the line with its tabs.  If no tab stands in front of the piece, the carets
begin under it in the line as it is shown; with a tab in the piece some of them are left over, and
these stand under nothing if only tabs follow.  Where nothing is covered one caret stands where the
piece would begin. -/
structure Underlined (start stop : Position) (i : Nat) (row piece shown carets : List Char) :
    Prop where
  line : (rows start.source.text.toList)[start.line + i]? = some row
  covers : (rows (coveredText start stop))[i]? = some piece
  withoutTabs : shown = row.filter (· ≠ '\t')
  lone : piece = [] → carets = List.replicate (firstColumn start i) ' ' ++ ['^']
  count : piece ≠ [] → carets.count '^' = piece.length
  columns : piece ≠ [] → above row carets = piece
  under : piece ≠ [] → '\t' ∉ row.take (firstColumn start i) →
    ('\t' ∈ piece → ∀ c ∈ row.drop (firstColumn start i + piece.length), c = '\t') →
    above shown carets = piece.filter (· ≠ '\t')

/-- Under a piece of a line there is a caret for each of its characters. -/
theorem caretRow_of_ne_nil {piece : List Char} (h : piece ≠ []) (first : Nat) :
    caretRow first (first + piece.length) =
      List.replicate first ' ' ++ List.replicate piece.length '^' := by
  have hpos := List.length_pos_iff.2 h
  rw [caretRow, Nat.add_sub_cancel_left, Nat.max_eq_right hpos]

theorem underlined {before piece behind : List Char}
    (hpiece : (rows (coveredText start stop))[i]? = some piece)
    (hrow : (rows start.source.text.toList)[start.line + i]? = some (before ++ (piece ++ behind)))
    (hbefore : before.length = firstColumn start i) :
    Underlined start stop i (before ++ (piece ++ behind)) piece
      ((before ++ (piece ++ behind)).filter (· ≠ '\t'))
      (caretRow before.length (before.length + piece.length)) where
  line := hrow
  covers := hpiece
  withoutTabs := rfl
  lone hnil := by
    subst hnil
    rw [hbefore]
    simp [caretRow]
  count hne := by
    rw [caretRow_of_ne_nil hne]
    simp [List.count_replicate]
  columns hne := by rw [caretRow_of_ne_nil hne, above_carets, List.take_left]
  under hne hfront hinside := by
    rw [← hbefore, List.take_left] at hfront
    rw [← hbefore, ← List.append_assoc, ← List.length_append, List.drop_left] at hinside
    rw [List.filter_append, filter_eq_self_of_not_mem hfront, List.filter_append,
      caretRow_of_ne_nil hne, above_carets]
    by_cases htab : '\t' ∈ piece
    · -- nothing that is shown stands behind the piece
      have hbehind : behind.filter (· ≠ '\t') = [] := by
        rw [List.filter_eq_nil_iff]
        intro c hc
        simp [hinside htab c hc]
      rw [hbehind, List.append_nil, List.take_of_length_le (List.length_filter_le _ piece)]
    · rw [filter_eq_self_of_not_mem htab, List.take_left]

/-- Carets stand under what is covered.  An excerpt has one row and one row of carets for each line
that the span touches.  Where the span covers a piece of the line, the characters right above the
carets are those of the piece that are shown, if no tab stands in front of the piece, and none in
it unless only tabs follow; with any tabs they would be those of the piece if the tabs were shown.
Where it covers nothing of the line, there is one caret at the column where the piece would begin.
-/
theorem carets_under_covered (hstart : start.Coherent) (hstop : stop.Coherent)
    (hsource : stop.source = start.source) (hle : start.index ≤ stop.index) :
    ∃ pairs : List (List Char × List Char),
      draw start.source.text start stop =
        String.intercalate "\n" ((pairs.flatMap fun p => [p.1, p.2]).map String.ofList) ∧
      start.line + pairs.length = stop.line + 1 ∧
      ∀ i p, pairs[i]? = some p → ∃ row piece, Underlined start stop i row piece p.1 p.2 := by
  have hcount := length_rows_coveredText hstart hstop hsource hle
  have hpos := List.length_pos_iff.2 (rows_ne_nil (coveredText start stop))
  have hlines : stop.line < (rows start.source.text.toList).length := by
    obtain ⟨before, piece, behind, -, hlast, -, -⟩ :=
      exists_piece hstart hstop hsource hle (i := stop.line - start.line) (by omega)
    have hlt := (List.getElem?_eq_some_iff.1 hlast).1
    omega
  let numbered := (((rows start.source.text.toList).drop start.line).take
    (max stop.line start.line + 1 - start.line)).zipIdx start.line
  let pair (r : List Char × Nat) : List Char × List Char :=
    (r.1.filter (· ≠ '\t'), caretRow (covered start stop r.2 r.1.length).1
      (covered start stop r.2 r.1.length).2)
  have hpair (r : List Char × Nat) :
      (annotate start stop r.2 r.1).map (·.filter (· ≠ '\t')) = [(pair r).1, (pair r).2] :=
    congrArg (fun carets => [r.1.filter (· ≠ '\t'), carets]) (filter_caretRow _ _)
  have hdraw : lines start.source.text.toList start stop =
      (numbered.map pair).flatMap fun p => [p.1, p.2] := by
    unfold lines
    simp only [annotateFrom_eq, List.map_flatMap, List.flatMap_map, hpair]
    rfl
  have hlength : numbered.length = stop.line + 1 - start.line := by
    simp only [numbered, List.length_zipIdx, List.length_take, List.length_drop]
    omega
  refine ⟨numbered.map pair, ?_, ?_, fun i p hp => ?_⟩
  · unfold draw
    rw [hdraw]
  · rw [List.length_map, hlength]
    omega
  · rw [List.getElem?_map] at hp
    obtain ⟨⟨row, line⟩, hr, rfl⟩ := Option.map_eq_some_iff.1 hp
    have hi : i < stop.line + 1 - start.line := hlength ▸ (List.getElem?_eq_some_iff.1 hr).1
    obtain ⟨before, piece, behind, hpiece, hrow, hbefore, hcovered⟩ :=
      exists_piece hstart hstop hsource hle (i := i) (by omega)
    rw [List.getElem?_zipIdx, List.getElem?_take_of_lt (by omega), List.getElem?_drop, hrow] at hr
    cases hr
    have hcarets : pair (before ++ (piece ++ behind), start.line + i) =
        ((before ++ (piece ++ behind)).filter (· ≠ '\t'),
          caretRow before.length (before.length + piece.length)) := by
      simp only [pair, hcovered]
    rw [hcarets]
    exact ⟨_, piece, underlined hpiece hrow hbefore⟩

/-- A span over four lines: on the first one it covers a tab, and the second one is empty. -/
theorem carets_under_covered_lines :
    let source : Source := ⟨"<stdin>", "if x\tdo\n\n  y\nfin"⟩
    let start : Position := ⟨source, 3, 0, 3⟩
    let stop : Position := ⟨source, 16, 3, 3⟩
    start.Coherent ∧ stop.Coherent ∧
      draw source.text start stop = "if xdo\n   ^^^^\n\n^\n  y\n^^^\nfin\n^^^" ∧
      ∃ pairs : List (List Char × List Char), pairs.length = 4 ∧
        ∀ i p, pairs[i]? = some p → ∃ row piece, Underlined start stop i row piece p.1 p.2 := by
  intro source start stop
  have hstart : start.Coherent := ⟨by decide, by decide, by decide⟩
  have hstop : stop.Coherent := ⟨by decide, by decide, by decide⟩
  obtain ⟨pairs, -, hlength, hpairs⟩ := carets_under_covered hstart hstop rfl (by decide)
  refine ⟨hstart, hstop, by decide +kernel, pairs, ?_, hpairs⟩
  have hlength : 0 + pairs.length = 3 + 1 := hlength
  omega

/-- A tab in front of what is covered moves it away from its caret: the span covers the `a`, and
the caret stands under the `b`. -/
theorem carets_beside_covered :
    let source : Source := ⟨"<stdin>", "\tab"⟩
    let start : Position := ⟨source, 1, 0, 1⟩
    let stop : Position := ⟨source, 2, 0, 2⟩
    start.Coherent ∧ stop.Coherent ∧ coveredText start stop = ['a'] ∧
      draw source.text start stop = "ab\n ^" ∧ above ['a', 'b'] [' ', '^'] = ['b'] := by
  intro source start stop
  have hstart : start.Coherent := ⟨by decide, by decide, by decide⟩
  have hstop : stop.Coherent := ⟨by decide, by decide, by decide⟩
  exact ⟨hstart, hstop, by decide, by decide +kernel, by decide⟩

end UniformScript.Excerpt
