import UniformScript.Proofs.Syntax.Taking

/-!
# The parser is sound for the grammar

The tokens of a program, up to the one that marks the end of the text, generate the program.

* `generates_of_read`: whatever a reading function reads, the tokens it passes generate.
* `generates_of_parse`, `parse_sound`: the tokens of a program generate it.
-/

namespace UniformScript.Syntax

open Parse Cursor

/-- Whatever a reading function reads, the tokens it passes generate. -/
theorem generates_of_read {α : Type} (r : Nonterminal α) {n : Nat} {c c' : Cursor} {a : α}
    (hr : r.StartsAt c.kind) (h : r.read n c = .parsed a c') :
    ∃ ts, Passes ts c c' ∧ Generates r ts a := by
  obtain ⟨ts, hts⟩ := takesAt n r hr h
  exact ⟨ts, hts.passes, hts.generates⟩

theorem Cursor.rest_start (tokens : List Token) : (Cursor.start tokens).rest = tokens := by
  cases tokens <;> rfl

/-- A whole program is read as statements that the end of the text follows. -/
theorem statements_of_program {n : Nat} {c c' : Cursor} {p : Program}
    (h : program n c = .parsed p c') : statements n c = .parsed p c' ∧ c'.kind = .finish := by
  unfold program at h
  obtain ⟨root, c₁, hroot, h⟩ := bind_eq_parsed_iff.1 h
  obtain ⟨k, c₂, hk, h⟩ := bind_eq_parsed_iff.1 h
  cases hk
  cases hkind : c₁.kind <;> rw [hkind] at h <;> cases h
  exact ⟨hroot, hkind⟩

theorem statements_of_parse {tokens : List Token} {p : Program} (h : parse tokens = .ok p) :
    ∃ c, statements (depthFor tokens) (Cursor.start tokens) = .parsed p c ∧ c.kind = .finish := by
  unfold parse at h
  cases hprogram : program (depthFor tokens) (Cursor.start tokens) with
  | failed e c =>
    rw [hprogram] at h
    cases h
  | exhausted =>
    rw [hprogram] at h
    cases h
  | parsed root c =>
    rw [hprogram] at h
    cases h
    exact ⟨c, statements_of_program hprogram⟩

/-- The tokens of a tree, up to the one that marks the end of the text, generate it. -/
theorem generates_of_parse {tokens : List Token} {p : Program} (h : parse tokens = .ok p) :
    ∃ ts rest, tokens = ts ++ rest ∧ (∀ t ∈ ts, t.kind ≠ .finish) ∧
      (∀ t ∈ rest.head?, t.kind = .finish) ∧ Generates .statements ts p := by
  obtain ⟨c, hroot, hfinish⟩ := statements_of_parse h
  obtain ⟨ts, hpasses, hts⟩ := generates_of_read .statements (n := depthFor tokens) trivial hroot
  refine ⟨ts, c.rest, ?_, hpasses.kind_ne, fun t ht => ?_, hts⟩
  · rw [← hpasses.rest_eq, Cursor.rest_start]
  · obtain ⟨previous, rest⟩ := c
    cases rest with
    | nil => cases ht
    | cons u us =>
      cases ht
      exact hfinish

/-- The parser is sound for the grammar.  Where it reads the tokens of a text as a program, the
tokens in front of the one that marks the end generate the program. -/
theorem parse_sound {ts : List Token} {last : Token} {p : Program}
    (hts : ∀ t ∈ ts, t.kind ≠ .finish) (hlast : last.kind = .finish)
    (h : parse (ts ++ [last]) = .ok p) : Generates .statements ts p := by
  obtain ⟨c, hroot, hfinish⟩ := statements_of_parse h
  obtain ⟨us, hpasses, hus⟩ :=
    generates_of_read .statements (n := depthFor (ts ++ [last])) trivial hroot
  obtain rfl := hpasses.eq_of_finish hfinish (Cursor.rest_start _) hts hlast
  exact hus

/-- A choice with a block, and a statement on the line behind it. -/
theorem parse_sound_choice :
    let token (k : Kind) (lexeme : String) : Token := ⟨k, lexeme, default⟩
    let ts : List Token := [token (.keyword .ifWord) "if", token .identifier "x",
      token (.keyword .doWord) "do", token .separator "\n", token (.literal (.text "a")) "a",
      token .separator "\n", token (.keyword .fin) "fin", token .separator "\n",
      token .identifier "y"]
    ∃ p, parse (ts ++ [token .finish ""]) = .ok p ∧ Generates .statements ts p ∧
      p.statements.length = 2 := by
  intro token ts
  have hts : ∀ t ∈ ts, t.kind ≠ .finish := by simp [ts, token]
  have hread : parse (ts ++ [token .finish ""]) = .ok _ := rfl
  exact ⟨_, hread, parse_sound hts rfl hread, rfl⟩

end UniformScript.Syntax
