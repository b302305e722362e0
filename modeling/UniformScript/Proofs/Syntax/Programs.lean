import UniformScript.Failure
import UniformScript.Proofs.Syntax.Generation
import UniformScript.Proofs.Token.LineBreak

/-!
# Sources that hold programs

A source holds a program if its text is scanned and the tokens are read.  Then the text is not made
of blanks alone; and which program it is, up to spans, is a question of the tokens without theirs.

* `exists_scans_of_read`: the tokens of a source that holds a program.
* `read_of_scans`: a text that is scanned into tokens, which are read as a program.
* `isBlankText_of_read`: a source that holds a program is run.
-/

namespace UniformScript

open Syntax Token

/-- The tokens of a source that holds a program. -/
theorem exists_scans_of_read {source : Source} {p : Program} (h : Program.read source = .ok p) :
    ∃ ts stop, Scans source.text.toList (ts.map Token.unspanned) [] ∧
      parse (ts ++ [finishAt stop]) = .ok p := by
  unfold Program.read at h
  cases hscan : Token.scan source with
  | error f =>
    rw [hscan] at h
    cases h
  | ok tokens =>
    simp only [hscan] at h
    cases hparse : parse tokens with
    | error f =>
      rw [hparse] at h
      cases h
    | ok root =>
      rw [hparse] at h
      cases h
      obtain ⟨ts, stop, rfl, hscans⟩ := scans_of_scanFrom hscan (Nat.le_refl _)
      exact ⟨ts, stop, hscans, hparse⟩

/-- A text that is scanned into tokens holds a program, if whatever spans the tokens have, they are
read as one. -/
theorem read_of_scans {source : Source} {ts : List Token} {root : Program}
    (hscans : Scans source.text.toList ts [])
    (hparse : ∀ (tokens : List Token) (stop : Position), tokens.map Token.unspanned = ts →
      ∃ p, parse (tokens ++ [finishAt stop]) = .ok p ∧ p.unspanned = root) :
    ∃ p, Program.read source = .ok p ∧ p.unspanned = root := by
  obtain ⟨tokens, stop, hscan, htokens⟩ :=
    scanFrom_of_scans hscans rfl (Nat.le_refl _) (Position.start source)
  obtain ⟨p, hp, hroot⟩ := hparse tokens stop htokens
  refine ⟨p, ?_, hroot⟩
  have hscan' : Token.scan source = .ok (tokens ++ [finishAt stop]) := hscan
  unfold Program.read
  simp only [hscan', hp]

/-- A source that holds a program is not made of blanks alone. -/
theorem isBlankText_of_read {source : Source} {p : Program} (h : Program.read source = .ok p) :
    Text.isBlankText source.text = false := by
  obtain ⟨ts, stop, hscans, hparse⟩ := exists_scans_of_read h
  rw [Bool.eq_false_iff]
  intro hblank
  have hseparators := separators_of_scans_blank hscans hblank
  obtain ⟨us, rest, heq, hne, -, hus⟩ := generates_of_parse hparse
  obtain ⟨t, ht, hkind⟩ := exists_ne_separator_of_generates hus trivial
  -- the token is one of the text, as the one behind them marks the end
  have hmem : t ∈ ts ++ [finishAt stop] := heq ▸ List.mem_append_left _ ht
  rcases List.mem_append.1 hmem with htext | hlast
  · exact hkind (hseparators t.unspanned (List.mem_map_of_mem htext))
  · obtain rfl := List.mem_singleton.1 hlast
    exact hne _ ht rfl

end UniformScript
