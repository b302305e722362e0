import UniformScript.Proofs.Token.MaximalMunch
import UniformScript.Proofs.Token.Placed

/-!
# Tokens tile their source

The pieces that the scanner takes stand one behind the other, from the first character of a source
to the last, and those that become no token are blanks.  So the tokens cover the source up to its
blanks, each of them the characters of its lexeme, and the places between them are counted in the
way their lines and columns are shown.

* `Tiles`: tokens from a place on, with blanks between them.
* `tiles_of_munches`: the tokens of munched pieces.
* `Tiles.slice`, `Tiles.blank_of_uncovered`: what a token covers, and what none does.
* `slices_of_scan`: the tokens of a source that do not stand for its end.
* `scan_tiles_source`: the tokens of a source.
-/

namespace UniformScript.Token

/-! ## Tokens and blanks -/

/-- The tokens are those of the text from a place on: each covers the characters of its lexeme, and
between them there are blanks. -/
inductive Tiles : Position → List Char → List Token → Prop where
  | nil (pos : Position) : Tiles pos [] []
  | blank {pos : Position} {c : Char} {cs : List Char} {ts : List Token}
    (hc : c = ' ' ∨ c = '\t' ∨ c = '\r') (h : Tiles (pos.advanceOver [c]) cs ts) :
    Tiles pos (c :: cs) ts
  | token {pos : Position} {kind : Kind} {lexeme rest : List Char} {ts : List Token}
    (hkind : kind ≠ .finish) (hlexeme : lexeme ≠ [])
    (h : Tiles (pos.advanceOver lexeme) rest ts) :
    Tiles pos (lexeme ++ rest) (⟨kind, String.ofList lexeme, ⟨pos, pos.advanceOver lexeme⟩⟩ :: ts)

theorem IsPiece.blank_of_none {lexeme : List Char} (h : IsPiece lexeme none) :
    ∃ c, lexeme = [c] ∧ (c = ' ' ∨ c = '\t' ∨ c = '\r') := by
  cases h with
  | blank hc => exact ⟨_, rfl, hc⟩

theorem IsPiece.kind_ne_finish {lexeme : List Char} {kind : Kind}
    (h : IsPiece lexeme (some kind)) : kind ≠ .finish := by
  cases h <;> exact nofun

/-- The tokens of pieces that a text is munched into, but for the last one. -/
theorem tiles_of_munches {cs : List Char} {pieces : List (List Char × Option Kind)}
    (h : Munches cs pieces []) (pos : Position) :
    ∃ front, tokensOf pos pieces = front ++ [finishAt (pos.advanceOver cs)] ∧
      Tiles pos cs front := by
  generalize hstop : ([] : List Char) = stop at h
  induction h generalizing pos with
  | stop cs =>
    subst hstop
    exact ⟨[], rfl, .nil pos⟩
  | @take cs lexeme rest stop kind pieces hlongest _ ih =>
    obtain ⟨front, htokens, htiles⟩ := ih (pos.advanceOver lexeme) hstop
    rw [← Position.advanceOver_append, hlongest.split] at htokens
    have hsplit := hlongest.split
    cases kind with
    | none =>
      obtain ⟨c, rfl, hc⟩ := hlongest.piece.blank_of_none
      exact ⟨front, htokens, hsplit ▸ .blank hc htiles⟩
    | some kind =>
      refine ⟨_ :: front, congrArg (_ :: ·) htokens, hsplit ▸ .token ?_ ?_ htiles⟩
      · exact hlongest.piece.kind_ne_finish
      · exact hlongest.piece.ne_nil

/-! ## What tokens cover -/

/-- The token covers the characters of its lexeme, of which there is at least one. -/
structure Slices (source : Source) (t : Token) : Prop where
  kind_ne : t.kind ≠ .finish
  lt : t.span.start.index < t.span.stop.index
  stop_le : t.span.stop.index ≤ source.text.toList.length
  lexeme : t.lexeme.toList =
    (source.text.toList.take t.span.stop.index).drop t.span.start.index

namespace Tiles

variable {pos : Position} {cs : List Char} {ts : List Token}

theorem slice (h : Tiles pos cs ts) (hpos : pos.At cs) : ∀ t ∈ ts, t.Slices pos.source := by
  induction h with
  | nil pos => simp
  | @blank pos c cs ts hc _ ih =>
    have hnext := ih (Position.At.advanceOver (show pos.At ([c] ++ cs) from hpos))
    rwa [Position.source_advanceOver] at hnext
  | @token pos kind lexeme rest ts hkind hlexeme _ ih =>
    have hnext := ih hpos.advanceOver
    rw [Position.source_advanceOver] at hnext
    refine List.forall_mem_cons.2 ⟨?_, hnext⟩
    have hindex := hpos.index_add
    have hstop := Position.index_advanceOver pos lexeme
    have hlength := List.length_pos_iff.2 hlexeme
    rw [List.length_append] at hindex
    refine ⟨hkind, ?_, ?_, ?_⟩
    · simp only [hstop]
      omega
    · simp only [hstop]
      omega
    -- the characters in front of the token are those passed so far
    obtain ⟨passed, htext, hpassed⟩ := hpos
    have hlen : pos.index = passed.length := by
      rw [htext, List.length_append, List.length_append] at hindex
      omega
    have htake : passed.length + lexeme.length = (passed ++ lexeme).length :=
      List.length_append.symm
    simp only [String.toList_ofList]
    rw [hstop, hlen, htext, ← List.append_assoc, htake, List.take_left, List.drop_left]

/-- A character that no token covers is a blank. -/
theorem blank_of_uncovered (h : Tiles pos cs ts) {k : Nat} {c : Char} (hc : cs[k]? = some c)
    (huncovered : ∀ t ∈ ts,
      ¬ (t.span.start.index ≤ pos.index + k ∧ pos.index + k < t.span.stop.index)) :
    c = ' ' ∨ c = '\t' ∨ c = '\r' := by
  induction h generalizing k with
  | nil pos => cases hc
  | @blank pos d cs ts hd _ ih =>
    cases k with
    | zero =>
      cases hc
      exact hd
    | succ k =>
      refine ih hc fun t ht => ?_
      have hindex := Position.index_advanceOver pos [d]
      rw [hindex, List.length_singleton, Nat.add_assoc, Nat.add_comm 1 k]
      exact huncovered t ht
  | @token pos kind lexeme rest ts hkind hlexeme _ ih =>
    obtain ⟨hfirst, hrest⟩ := List.forall_mem_cons.1 huncovered
    have hstop := Position.index_advanceOver pos lexeme
    have hle : lexeme.length ≤ k := by
      by_contra hlt
      exact hfirst ⟨Nat.le_add_right _ _, by simp only [hstop]; omega⟩
    obtain ⟨j, rfl⟩ := Nat.exists_eq_add_of_le hle
    rw [List.getElem?_append_right (Nat.le_add_right _ _), Nat.add_sub_cancel_left] at hc
    refine ih hc fun t ht => ?_
    rw [hstop, Nat.add_assoc]
    exact hrest t ht

end Tiles

/-! ## The tokens of a source -/

/-- The tokens of a source, `front` and the one for the end, cover all of it but its blanks. -/
structure Tiling (source : Source) (front : List Token) (last : Token) : Prop where
  /-- The last token is the one for the end of the text: it has no lexeme, and is one column wide.
  -/
  finish : last.kind = .finish ∧ last.lexeme = "" ∧
    last.span.start.index = source.text.toList.length ∧
    last.span.stop.index = source.text.toList.length + 1
  /-- All others cover the characters of their lexemes. -/
  slices : ∀ t ∈ front, t.Slices source
  /-- They stand in order, and do not overlap. -/
  ordered : (front ++ [last]).Pairwise fun t u => t.span.stop.index ≤ u.span.start.index
  /-- Only blanks are covered by no token. -/
  blank : ∀ (i : Nat) (c : Char), source.text.toList[i]? = some c →
    (∀ t ∈ front, ¬ (t.span.start.index ≤ i ∧ i < t.span.stop.index)) →
    c = ' ' ∨ c = '\t' ∨ c = '\r'
  /-- Where a token begins or ends, the line is the number of line breaks in front of that place,
  and the column is the distance to the place behind the last of them. -/
  boundary : ∀ t ∈ front ++ [last], ∀ p ∈ [t.span.start, t.span.stop], p.source = source ∧
    (p.index ≤ source.text.toList.length →
      p.line = (source.text.toList.take p.index).count '\n' ∧
      p.column = p.index - afterLastBreak (source.text.toList.take p.index))

/-- The ends of a coherent span are counted in the way the text is shown. -/
theorem counted_of_coherent {s : Span} (h : s.Coherent) : ∀ p ∈ [s.start, s.stop],
    p.source = s.start.source ∧ (p.index ≤ p.source.text.toList.length →
      p.line = (p.source.text.toList.take p.index).count '\n' ∧
      p.column = p.index - afterLastBreak (p.source.text.toList.take p.index)) := by
  intro p hp
  simp only [List.mem_cons, List.not_mem_nil, or_false] at hp
  rcases hp with rfl | rfl
  · exact ⟨rfl, fun _ => ⟨h.start.line, h.start.column⟩⟩
  · refine ⟨h.source, fun hle => ?_⟩
    rcases h.stop with hstop | ⟨e, -, hend, hpast⟩
    · exact ⟨hstop.line, hstop.column⟩
    · -- one column behind the end of the text is not in it
      rw [hpast] at hle
      simp only at hle
      omega

/-- The tokens of a source, and the one for its end. -/
theorem exists_tiles_of_scan {source : Source} {tokens : List Token}
    (h : scan source = .ok tokens) :
    ∃ front, tokens =
        front ++ [finishAt ((Position.start source).advanceOver source.text.toList)] ∧
      Tiles (Position.start source) source.text.toList front := by
  rcases scanFrom_munches source.text.toList.length (Position.start source) (Nat.le_refl _) with
    ⟨pieces, hmunches, hscan⟩ | ⟨pieces, c, cs, cause, -, -, hscan⟩
  · obtain ⟨front, htokens, htiles⟩ := tiles_of_munches hmunches (Position.start source)
    cases hscan.symm.trans h
    exact ⟨front, htokens, htiles⟩
  · cases hscan.symm.trans h

/-- What does not stand for the end covers characters of the text. -/
theorem slices_of_scan {source : Source} {tokens : List Token} (h : scan source = .ok tokens) :
    ∀ t ∈ tokens, t.kind ≠ .finish → t.Slices source := by
  obtain ⟨front, rfl, htiles⟩ := exists_tiles_of_scan h
  intro t ht hkind
  rcases List.mem_append.1 ht with ht | ht
  · exact htiles.slice (Position.at_start source) t ht
  · obtain rfl := List.mem_singleton.1 ht
    exact (hkind rfl).elim

/-- The tokens of a source tile it.  The last one, and no other, stands for the end of the text.
The others cover the characters of their lexemes, in order and without overlaps, and whatever is
not covered is a blank.  Where tokens begin and end, lines and columns are those of the text, also
behind texts in quotes that go over several lines. -/
theorem scan_tiles_source {source : Source} {tokens : List Token} (h : scan source = .ok tokens) :
    ∃ front last, tokens = front ++ [last] ∧ Tiling source front last := by
  have hspread := spread_of_scan h
  obtain ⟨front, htokens, htiles⟩ := exists_tiles_of_scan h
  rw [htokens] at hspread
  have hend : ((Position.start source).advanceOver source.text.toList).index =
      source.text.toList.length := by
    rw [Position.index_advanceOver]
    exact Nat.zero_add _
  refine ⟨front, _, htokens, ⟨rfl, rfl, hend, ?_⟩, htiles.slice (Position.at_start source),
    hspread.pairwise, ?_, ?_⟩
  · exact (Position.index_advance _ _).trans (congrArg (· + 1) hend)
  · intro i c hc huncovered
    refine htiles.blank_of_uncovered hc fun t ht => ?_
    rw [show (Position.start source).index + i = i from Nat.zero_add i]
    exact huncovered t ht
  · intro t ht p hp
    obtain ⟨hcoherent, hsource, -, -⟩ := hspread.between t ht
    obtain ⟨hp, hcounted⟩ := counted_of_coherent hcoherent p hp
    have hp := hp.trans hsource
    rw [hp] at hcounted
    exact ⟨hp, hcounted⟩

/-- A text in quotes that goes over two lines, and a tab that is no token: the number behind the
text stands in the second line. -/
theorem scan_tiles_source_broken :
    let source : Source := ⟨"<stdin>", "\t\"a\nb\" 12"⟩
    ∃ tokens, scan source = .ok tokens ∧
      (tokens.map fun t =>
        (t.lexeme, t.span.start.index, t.span.start.line, t.span.start.column)) =
        [("\"a\nb\"", 1, 0, 1), ("12", 7, 1, 3), ("", 9, 1, 5)] ∧
      ∃ front last, tokens = front ++ [last] ∧ Tiling source front last := by
  intro source
  have hmap : ((scan source).map fun tokens => tokens.map fun t =>
      (t.lexeme, t.span.start.index, t.span.start.line, t.span.start.column)).toOption =
      some [("\"a\nb\"", 1, 0, 1), ("12", 7, 1, 3), ("", 9, 1, 5)] := by
    decide +kernel
  cases hscan : scan source with
  | error failure =>
    rw [hscan] at hmap
    cases hmap
  | ok tokens =>
    rw [hscan] at hmap
    exact ⟨tokens, rfl, Option.some.inj hmap, scan_tiles_source hscan⟩

end UniformScript.Token
