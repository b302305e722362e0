import UniformScript.Source.Excerpt
import Mathlib.Data.List.Induction
import Mathlib.Data.List.TakeWhile

/-!
# Positions that agree with their text

A position keeps three counts.  It is `Coherent` if they belong together in its own source: it is
not behind the end, its line is the number of line breaks before it, and its column is its distance
to the place behind the last of them.  A coherent span covers at least one character, or one column
behind the end of the text.

* `Position.At.coherent`: a place that is come to by passing characters from the start is coherent.
* `Span.Coherent.column`: so is the span of one column at the end of a text.
* `Excerpt.ofSpan_eq`: the excerpt of a coherent span begins with the row where it starts, and
  carets.
-/

namespace UniformScript

/-! ## Coherence -/

/-- The place behind the last line break of a text; its start, if there is none. -/
def afterLastBreak (cs : List Char) : Nat := cs.length - (cs.reverse.takeWhile (· ≠ '\n')).length

/-- The counts of a position agree with its text. -/
structure Position.Coherent (p : Position) : Prop where
  index_le : p.index ≤ p.source.text.toList.length
  /-- The lines before it. -/
  line : p.line = (p.source.text.toList.take p.index).count '\n'
  /-- The characters before it on its line. -/
  column : p.column = p.index - afterLastBreak (p.source.text.toList.take p.index)

/-- One step behind the end of the text, on the same line. -/
def Position.PastEnd (p : Position) : Prop :=
  ∃ e : Position, e.Coherent ∧ e.index = e.source.text.toList.length ∧
    p = ⟨e.source, e.index + 1, e.line, e.column + 1⟩

/-- Both ends of a span are coherent, or the second is just behind the end of the text, and the
span is not empty. -/
structure Span.Coherent (s : Span) : Prop where
  source : s.stop.source = s.start.source
  start : s.start.Coherent
  stop : s.stop.Coherent ∨ s.stop.PastEnd
  lt : s.start.index < s.stop.index

/-! ## Passing characters -/

namespace Position

variable {p : Position} {cs ds : List Char}

theorem source_advanceOver (p : Position) (cs : List Char) :
    (p.advanceOver cs).source = p.source := by
  induction cs generalizing p with
  | nil => rfl
  | cons c cs ih => rw [advanceOver_cons, ih, source_advance]

theorem advanceOver_concat (p : Position) (cs : List Char) (c : Char) :
    p.advanceOver (cs ++ [c]) = (p.advanceOver cs).advance (some c) := advanceOver_append p cs [c]

theorem line_advanceOver_start (source : Source) (cs : List Char) :
    ((start source).advanceOver cs).line = cs.count '\n' := by
  induction cs using List.reverseRecOn with
  | nil => rfl
  | append_singleton cs c ih =>
    rw [advanceOver_concat, List.count_append]
    unfold advance
    by_cases hc : c = '\n'
    · simp [hc, ih]
    · simp [hc, ih]

theorem column_advanceOver_start (source : Source) (cs : List Char) :
    ((start source).advanceOver cs).column = (cs.reverse.takeWhile (· ≠ '\n')).length := by
  induction cs using List.reverseRecOn with
  | nil => rfl
  | append_singleton cs c ih =>
    rw [advanceOver_concat, List.reverse_append]
    unfold advance
    by_cases hc : c = '\n'
    · simp [hc]
    · simp [hc, ih]

/-- The position is the place in its source that the text `cs` stands behind, up to the end. -/
def At (p : Position) (cs : List Char) : Prop :=
  ∃ passed, p.source.text.toList = passed ++ cs ∧ p = (start p.source).advanceOver passed

theorem at_start (source : Source) : (start source).At source.text.toList := ⟨[], rfl, rfl⟩

namespace At

theorem advanceOver (h : p.At (cs ++ ds)) : (p.advanceOver cs).At ds := by
  obtain ⟨passed, htext, hp⟩ := h
  refine ⟨passed ++ cs, ?_, ?_⟩
  · rw [source_advanceOver, htext, List.append_assoc]
  · rw [source_advanceOver, advanceOver_append, ← hp]

theorem index_add (h : p.At cs) : p.index + cs.length = p.source.text.toList.length := by
  obtain ⟨passed, htext, hp⟩ := h
  rw [htext, hp, index_advanceOver]
  simp [start]

theorem coherent (h : p.At cs) : p.Coherent := by
  have hindex := h.index_add
  obtain ⟨passed, htext, hp⟩ := h
  have hlength : p.index = passed.length := by
    rw [htext, List.length_append] at hindex
    omega
  have htake : p.source.text.toList.take p.index = passed := by
    rw [hlength, htext, List.take_left]
  refine ⟨by omega, ?_, ?_⟩
  · rw [htake, hp, line_advanceOver_start]
  · have hle := (List.takeWhile_sublist (· ≠ '\n') (l := passed.reverse)).length_le
    rw [List.length_reverse] at hle
    rw [htake, hlength, afterLastBreak]
    have hcolumn := column_advanceOver_start p.source passed
    rw [← hp] at hcolumn
    omega

/-- One step on from the end of the text. -/
theorem pastEnd (h : p.At []) : (p.advance none).PastEnd :=
  ⟨p, h.coherent, h.index_add, rfl⟩

end At

end Position

/-! ## Spans -/

namespace Span.Coherent

variable {p : Position} {cs ds : List Char} {a b : Span}

/-- Some characters of the text. -/
theorem of_passed (h : p.At (cs ++ ds)) (hcs : cs ≠ []) : Span.Coherent ⟨p, p.advanceOver cs⟩ where
  source := Position.source_advanceOver p cs
  start := h.coherent
  stop := .inl h.advanceOver.coherent
  lt := by
    have hpos := List.length_pos_iff.2 hcs
    show p.index < (p.advanceOver cs).index
    rw [Position.index_advanceOver]
    omega

/-- One column behind the end of the text. -/
theorem column (h : p.At []) : (Span.column p).Coherent where
  source := Position.source_advance p none
  start := h.coherent
  stop := .inr h.pastEnd
  lt := by
    show p.index < (p.advance none).index
    rw [Position.index_advance]
    omega

/-- From the start of one span to the end of a later one. -/
theorem through (ha : a.Coherent) (hb : b.Coherent) (hsource : b.start.source = a.start.source)
    (hlt : a.start.index < b.stop.index) : (a.through b).Coherent where
  source := hb.source.trans hsource
  start := ha.start
  stop := hb.stop
  lt := hlt

end Span.Coherent

/-! ## Excerpts -/

namespace Excerpt

/-- There is one line more than there are line breaks. -/
theorem length_rows (cs : List Char) : (rows cs).length = cs.count '\n' + 1 := by
  induction cs with
  | nil => rfl
  | cons c cs ih =>
    rw [rows]
    split
    · rename_i hc
      simp [hc, ih]
    · rename_i hc
      rw [List.count_cons_of_ne hc]
      obtain ⟨row, rest, h⟩ := List.exists_cons_of_ne_nil (rows_ne_nil cs)
      rw [h] at ih ⊢
      simpa using ih

/-- The line of a coherent position is one of the lines of its text. -/
theorem exists_row {p : Position} (h : p.Coherent) :
    ∃ row, (rows p.source.text.toList)[p.line]? = some row := by
  have hle : p.line ≤ p.source.text.toList.count '\n' := by
    rw [h.line]
    exact (List.take_sublist _ _).count_le _
  have hlt : p.line < (rows p.source.text.toList).length := by
    rw [length_rows]
    omega
  exact ⟨_, List.getElem?_eq_getElem hlt⟩

theorem filter_eq_self_of_not_mem {cs : List Char} (h : '\t' ∉ cs) :
    cs.filter (· ≠ '\t') = cs := by
  rw [List.filter_eq_self]
  intro c hc
  simp only [decide_eq_true_eq]
  rintro rfl
  exact h hc

theorem filter_caretRow (first last : Nat) :
    (caretRow first last).filter (· ≠ '\t') = caretRow first last :=
  filter_eq_self_of_not_mem (by simp [caretRow, List.mem_replicate])

/-- An excerpt begins with the row where the span starts, and carets from its first column on. -/
theorem ofSpan_eq {s : Span} (h : s.start.Coherent) :
    ∃ row last more, (rows s.start.source.text.toList)[s.start.line]? = some row ∧
      ofSpan s = String.intercalate "\n"
        ((row.filter (· ≠ '\t') :: caretRow s.start.column last :: more).map String.ofList) := by
  obtain ⟨row, hrow⟩ := exists_row h
  obtain ⟨rest, hrest⟩ :
      ∃ rest, (rows s.start.source.text.toList).drop s.start.line = row :: rest := by
    obtain ⟨hlt, hget⟩ := List.getElem?_eq_some_iff.1 hrow
    exact ⟨_, (List.drop_eq_getElem_cons hlt).trans (by rw [hget])⟩
  obtain ⟨count, hcount⟩ : ∃ count, max s.stop.line s.start.line + 1 - s.start.line = count + 1 :=
    ⟨max s.stop.line s.start.line - s.start.line, by omega⟩
  let last := (covered s.start s.stop s.start.line row.length).2
  have hlines : lines s.start.source.text.toList s.start s.stop =
      row.filter (· ≠ '\t') :: caretRow s.start.column last ::
        (annotateFrom s.start s.stop (s.start.line + 1) count rest).map (·.filter (· ≠ '\t')) := by
    have hfirst : (covered s.start s.stop s.start.line row.length).1 = s.start.column := if_pos rfl
    unfold lines
    rw [← filter_caretRow s.start.column last, ← hfirst]
    simp only [hrest, hcount, annotateFrom, annotate]
    rfl
  have hspan : ofSpan s = _ := congrArg
    (fun rows : List (List Char) => String.intercalate "\n" (rows.map String.ofList)) hlines
  exact ⟨row, last, _, hrow, hspan⟩

end Excerpt

end UniformScript
