import UniformScript.Proofs.Source.Coherent
import UniformScript.Proofs.Token.Scanning

/-!
# Where tokens are

The tokens of a source cover parts of its text, one behind the other; the last one stands for the
end.  If the text is no sequence of tokens, the failure is about a part of it.

* `Spread`: tokens one behind the other, and what follows for each of them and for their order.
* `spread_of_scan`: the tokens of a source.
* `coherent_of_scan_error`: the place of a failure.
-/

namespace UniformScript

/-- A part of a source between two indices. -/
structure Span.Between (source : Source) (lo hi : Nat) (s : Span) : Prop where
  coherent : s.Coherent
  source_eq : s.start.source = source
  le_start : lo ≤ s.start.index
  stop_le : s.stop.index ≤ hi

namespace Span.Between

variable {source : Source} {lo mid mid' hi : Nat} {a b : Span}

theorem mono {lo' hi' : Nat} (h : a.Between source lo hi) (hlo : lo' ≤ lo) (hhi : hi ≤ hi') :
    a.Between source lo' hi' :=
  ⟨h.coherent, h.source_eq, Nat.le_trans hlo h.le_start, Nat.le_trans h.stop_le hhi⟩

/-- From a part to one that does not end before it begins. -/
theorem through_of_lt (ha : a.Between source lo mid) (hb : b.Between source mid' hi)
    (hlt : a.start.index < b.stop.index) : (a.through b).Between source lo hi where
  coherent := ha.coherent.through hb.coherent (hb.source_eq.trans ha.source_eq.symm) hlt
  source_eq := ha.source_eq
  le_start := ha.le_start
  stop_le := hb.stop_le

end Span.Between

namespace Token

/-! ## Tokens one behind the other -/

/-- The tokens cover parts of a source between two indices, one behind the other. -/
inductive Spread (source : Source) : Nat → List Token → Nat → Prop where
  | nil {lo hi : Nat} (h : lo ≤ hi) : Spread source lo [] hi
  | cons {lo hi : Nat} {t : Token} {ts : List Token} (hcoherent : t.span.Coherent)
    (hsource : t.span.start.source = source) (hle : lo ≤ t.span.start.index)
    (h : Spread source t.span.stop.index ts hi) : Spread source lo (t :: ts) hi

namespace Spread

variable {source : Source} {lo lo' hi : Nat} {t : Token} {ts us : List Token}

theorem le (h : Spread source lo ts hi) : lo ≤ hi := by
  induction h with
  | nil h => exact h
  | cons hcoherent _ hle _ ih =>
    have hlt := hcoherent.lt
    omega

theorem mono (h : Spread source lo ts hi) (hle : lo' ≤ lo) : Spread source lo' ts hi := by
  cases h with
  | nil h => exact .nil (Nat.le_trans hle h)
  | cons hcoherent hsource hle' h => exact .cons hcoherent hsource (Nat.le_trans hle hle') h

/-- The first token, and those behind it. -/
theorem cons_inv (h : Spread source lo (t :: ts) hi) :
    t.span.Between source lo t.span.stop.index ∧ Spread source t.span.stop.index ts hi := by
  cases h with
  | cons hcoherent hsource hle h => exact ⟨⟨hcoherent, hsource, hle, Nat.le_refl _⟩, h⟩

/-- The tokens behind the first one. -/
theorem tail (h : Spread source lo (t :: ts) hi) : Spread source lo ts hi := by
  obtain ⟨ht, hts⟩ := h.cons_inv
  have hlt := ht.coherent.lt
  have hle := ht.le_start
  exact hts.mono (by omega)

theorem append_inv (h : Spread source lo (ts ++ us) hi) :
    ∃ mid, Spread source lo ts mid ∧ Spread source mid us hi := by
  induction ts generalizing lo with
  | nil => exact ⟨lo, .nil (Nat.le_refl lo), h⟩
  | cons t ts ih =>
    obtain ⟨ht, hts⟩ := h.cons_inv
    obtain ⟨mid, hleft, hright⟩ := ih hts
    exact ⟨mid, .cons ht.coherent ht.source_eq ht.le_start hleft, hright⟩

/-- Every token covers a part between the two indices. -/
theorem between (h : Spread source lo ts hi) : ∀ t ∈ ts, t.span.Between source lo hi := by
  induction h with
  | nil h => simp
  | cons hcoherent hsource hle h ih =>
    intro u hu
    have hlt := hcoherent.lt
    rcases List.mem_cons.1 hu with rfl | hu
    · exact ⟨hcoherent, hsource, hle, h.le⟩
    · exact (ih u hu).mono (by omega) (Nat.le_refl _)

/-- No two tokens cover the same part. -/
theorem nodup (h : Spread source lo ts hi) : (ts.map Token.span).Nodup := by
  induction h with
  | nil h => exact .nil
  | @cons lo hi t ts hcoherent hsource hle h ih =>
    refine List.nodup_cons.2 ⟨fun hmem => ?_, ih⟩
    obtain ⟨u, hu, hspan⟩ := List.mem_map.1 hmem
    have hle := (h.between u hu).le_start
    have hlt := hcoherent.lt
    rw [hspan] at hle
    omega

/-- The tokens stand in order, and do not overlap. -/
theorem pairwise (h : Spread source lo ts hi) :
    ts.Pairwise fun t u => t.span.stop.index ≤ u.span.start.index := by
  induction h with
  | nil h => exact .nil
  | cons hcoherent hsource hle h ih =>
    exact List.pairwise_cons.2 ⟨fun u hu => (h.between u hu).le_start, ih⟩

end Spread

/-! ## Scanning -/

/-- The tokens from a place to the end of the text. -/
theorem Scanned.spread {pos : Position} {cs : List Char} {tokens : List Token}
    (h : Scanned pos cs tokens) (hpos : pos.At cs) :
    Spread pos.source pos.index tokens (pos.source.text.toList.length + 1) := by
  induction h with
  | finish pos =>
    have hindex := hpos.index_add
    refine .cons (Span.Coherent.column hpos) rfl (Nat.le_refl _) (.nil ?_)
    show (pos.advance none).index ≤ _
    rw [Position.index_advance]
    simp only [List.length_nil] at hindex
    omega
  | @blank pos c cs piece tokens hp _ _ ih =>
    rw [← lexeme_append_rest_of_munch hp] at hpos
    have hrest := ih hpos.advanceOver
    rw [Position.source_advanceOver pos piece.lexeme] at hrest
    have hspan := Span.Coherent.of_passed hpos (lexeme_ne_nil_of_munch hp)
    exact hrest.mono (Nat.le_of_lt hspan.lt)
  | @token pos c cs piece kind tokens hp _ _ ih =>
    rw [← lexeme_append_rest_of_munch hp] at hpos
    have hrest := ih hpos.advanceOver
    rw [Position.source_advanceOver pos piece.lexeme] at hrest
    have hspan := Span.Coherent.of_passed hpos (lexeme_ne_nil_of_munch hp)
    exact .cons hspan rfl (Nat.le_refl _) hrest

/-- The tokens of a source. -/
theorem spread_of_scan {source : Source} {tokens : List Token} (h : scan source = .ok tokens) :
    Spread source 0 tokens (source.text.toList.length + 1) :=
  (scanned_of_scanFrom h (Nat.le_refl _)).spread (Position.at_start source)

/-- What the scanner reports is about the part of the text behind the place. -/
theorem Halted.coherent {pos : Position} {cs : List Char} {failure : Located LexicalCause}
    (h : Halted pos cs failure) (hpos : pos.At cs) :
    failure.span.Coherent ∧ failure.span.start.source = pos.source := by
  induction h with
  | @here pos c cs cause _ =>
    have hfirst : Span.Coherent ⟨pos, pos.advance (some c)⟩ :=
      .of_passed (show pos.At ([c] ++ cs) from hpos) (by simp)
    cases cause with
    | unclosedQuote =>
      have hend : (pos.advanceOver (c :: cs)).At [] :=
        .advanceOver (show pos.At (c :: cs ++ []) by rwa [List.append_nil])
      exact ⟨.column hend, Position.source_advanceOver pos _⟩
    | _ => exact ⟨hfirst, rfl⟩
  | @behind pos c cs piece failure hp _ ih =>
    rw [← lexeme_append_rest_of_munch hp] at hpos
    obtain ⟨hcoherent, hsource⟩ := ih hpos.advanceOver
    exact ⟨hcoherent, hsource.trans (Position.source_advanceOver pos _)⟩

/-- If a source is no sequence of tokens, a part of it is to blame. -/
theorem coherent_of_scan_error {source : Source} {failure : Located LexicalCause}
    (h : scan source = .error failure) :
    failure.span.Coherent ∧ failure.span.start.source = source :=
  (halted_of_scanFrom h (Nat.le_refl _)).coherent (Position.at_start source)

end Token

end UniformScript
