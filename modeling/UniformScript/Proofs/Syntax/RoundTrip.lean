import UniformScript.Proofs.Syntax.Programs
import UniformScript.Proofs.Syntax.Readable
import UniformScript.Proofs.Syntax.Depth

/-!
# The canonical text of a program reads back

The canonical text of a program that was read from a source is scanned into the canonical tokens of
its statements, and these read back.  Scanning gives the tokens spans, which reading does not look
at, and the bound on the depth of reading is never met.

* `wellFormed_of_read`: a program that was read is well formed.
* `unspanned_read_canonical`: a program that was read is, up to spans, the program that its
  canonical text is read as.
-/

namespace UniformScript

namespace Syntax

open Token Filter

/-! ## Reading tokens with their spans -/

/-- Where a step reads `a` from the tokens without their spans, it reads from the tokens what is
left as `a` when its spans are forgotten. -/
theorem parsed_of_blind {α : Type} {r : Nonterminal α} {n : ℕ} {c c₁ : Cursor} {a : α}
    (h : r.unspanned.read n c.unspanned = .parsed a c₁) :
    ∃ b c', r.read n c = .parsed b c' ∧ r.forget b = a ∧ c'.unspanned = c₁ := by
  rw [read_blind r n c] at h
  cases hread : r.read n c with
  | parsed b c' =>
    rw [hread] at h
    obtain ⟨rfl, rfl⟩ := Outcome.parsed.inj h
    exact ⟨b, c', rfl, rfl, rfl⟩
  | failed e c' =>
    rw [hread] at h
    cases h
  | exhausted =>
    rw [hread] at h
    cases h

theorem ne_exhausted_of_blind {α : Type} {r : Nonterminal α} {n : ℕ} {c : Cursor}
    (h : r.read n c ≠ .exhausted) : r.unspanned.read n c.unspanned ≠ .exhausted := by
  rw [read_blind r n c]
  cases hread : r.read n c with
  | parsed a c' => simp [Outcome.unspanned]
  | failed e c' => simp [Outcome.unspanned]
  | exhausted => exact absurd hread h

/-- Reading the statements of a whole program does not meet the bound on its depth. -/
theorem statements_ne_exhausted (tokens : List Token) :
    Nonterminal.statements.read (depthFor tokens) (Cursor.start tokens) ≠ .exhausted := by
  intro hread
  simp only [Nonterminal.read] at hread
  have hanswers : program (depthFor tokens) (Cursor.start tokens) ≠ .exhausted :=
    answers_program tokens
  refine hanswers ?_
  show Parse.bind (Syntax.statements (depthFor tokens)) _ (Cursor.start tokens) = _
  unfold Parse.bind
  rw [hread]

theorem parse_of_statements {tokens : List Token} {p : Program} {c : Cursor}
    (h : Nonterminal.statements.read (depthFor tokens) (Cursor.start tokens) = .parsed p c)
    (hc : c.kind = .finish) : parse tokens = .ok p := by
  simp only [Nonterminal.read] at h
  have hprogram : program (depthFor tokens) (Cursor.start tokens) = .parsed p c := by
    unfold program
    rw [bind_of_parsed h, look_bind, hc]
    rfl
  unfold parse
  rw [hprogram]

/-- Tokens are a program if, without their spans, they are read as one up to the end of the text.
-/
theorem exists_parse_of_reads {tokens : List Token} {root : Program} {c : Cursor}
    (h : Reads .statements (Cursor.start tokens).unspanned root c) (hc : c.kind = .finish) :
    ∃ p, parse tokens = .ok p ∧ p.unspanned = root := by
  have hread := h.eq_parsed (ne_exhausted_of_blind (statements_ne_exhausted _))
  obtain ⟨p, c', hp, hroot, hc'⟩ := parsed_of_blind (r := .statements) hread
  refine ⟨p, parse_of_statements hp ?_, hroot⟩
  rw [← Cursor.kind_unspanned, hc', hc]

/-- Tokens that are, up to their spans, those of a canonical text and the end of the text, are a
program that is, up to its spans, the one the text was made from. -/
theorem exists_parse_of_tokens {statements : List Expr} {tokens : List Token} (stop : Position)
    (hne : statements ≠ []) (h : ∀ e ∈ statements, e.Readable)
    (htokens : tokens.map Token.unspanned = tokensAll lineBreak statements) :
    ∃ q, parse (tokens ++ [finishAt stop]) = .ok q ∧
      q.unspanned = ⟨default, unspannedAll statements⟩ := by
  let finish := (finishAt stop).unspanned
  -- nothing behind the last statement is read as a further one
  have hend : ReadsTo .moreStatements [finish] [] [finish] :=
    fun p hp =>
      ⟨p, hp, reads_noStatement (by simp [Cursor.kind, finish, finishAt, Token.unspanned])⟩
  have hstatements := readsTo_statements (t := finish) trivial hend hne h
  obtain ⟨first, rest, hcons⟩ : ∃ first rest, tokens ++ [finishAt stop] = first :: rest := by
    cases tokens with
    | nil => exact ⟨_, _, rfl⟩
    | cons first rest => exact ⟨first, _, rfl⟩
  have hstart : (Cursor.start (tokens ++ [finishAt stop])).unspanned =
      ⟨first.unspanned, tokensAll lineBreak statements ++ [finish]⟩ := by
    have hrest : (tokens ++ [finishAt stop]).map Token.unspanned =
        tokensAll lineBreak statements ++ [finish] := by
      rw [List.map_append, htokens]
      rfl
    rw [← hrest, hcons]
    rfl
  obtain ⟨last, -, hreads⟩ := hstatements first.unspanned rfl
  rw [← hstart] at hreads
  exact exists_parse_of_reads hreads rfl

end Syntax

/-! ## Whole programs -/

open Syntax Token

/-- A program that was read from a source is well formed. -/
theorem wellFormed_of_read {source : Source} {p : Program} (h : Program.read source = .ok p) :
    p.toBody.Everywhere Expr.Lexical Body.NonEmpty := by
  unfold Program.read at h
  cases hscan : Token.scan source with
  | error f =>
    rw [hscan] at h
    cases h
  | ok tokens =>
    simp only [hscan] at h
    cases hparse : parse tokens with
    | error f =>
      rw [hparse] at h
      cases h
    | ok root =>
      rw [hparse] at h
      cases h
      exact wellFormed_of_parse (lexed_of_scanFrom hscan (Nat.le_refl _)) hparse

/-- A well-formed program in which no call has a call as its callee is, up to its spans, the
program that its canonical text is read as. -/
theorem read_canonical_of_wellFormed {p : Program}
    (h : p.toBody.Everywhere Expr.Lexical Body.NonEmpty) (hcallees : p.PlainCallees)
    (name : String) :
    ∃ q, Program.read ⟨name, p.canonical⟩ = .ok q ∧ q.unspanned = p.unspanned := by
  obtain ⟨hne, hwell⟩ := h
  have hreadable := readable_of_mem p.statements hwell hcallees
  have hscans := scans_canonicalAll separates_break p.statements hwell [] apart_nil
  rw [List.append_nil] at hscans
  have htext : Scans p.canonical.toList (tokensAll lineBreak p.statements) [] := by
    unfold Program.canonical
    rw [String.toList_ofList]
    exact hscans
  exact read_of_scans htext fun tokens stop htokens =>
    exists_parse_of_tokens stop hne hreadable htokens

/-- A program that was read from a source, and in which no call has a call as its callee, is up to
its spans the program that its canonical text is read as. -/
theorem unspanned_read_canonical {source : Source} {p : Program} (h : Program.read source = .ok p)
    (hcallees : p.PlainCallees) (name : String) :
    ∃ q, Program.read ⟨name, p.canonical⟩ = .ok q ∧ q.unspanned = p.unspanned :=
  read_canonical_of_wellFormed (wellFormed_of_read h) hcallees name

/-- A choice with a block and an expression, whose last case is a call: its canonical text ends the
chain in parentheses and reads back. -/
theorem unspanned_read_canonical_choice :
    ∃ p q, Program.read ⟨"<stdin>", "if x do\n y\nelif z do \"a\\n\" else f(x, -y)"⟩ = .ok p ∧
      p.PlainCallees ∧ Program.read ⟨"<text>", p.canonical⟩ = .ok q ∧
        q.unspanned = p.unspanned := by
  have hcheck : (match Program.read
      ⟨"<stdin>", "if x do\n y\nelif z do \"a\\n\" else f(x, -y)"⟩ with
      | .ok p => decide p.PlainCallees
      | .error _ => false) = true := by decide +kernel
  split at hcheck
  · rename_i p h
    have hcallees := of_decide_eq_true hcheck
    obtain ⟨q, hq, he⟩ := unspanned_read_canonical h hcallees "<text>"
    exact ⟨p, q, h, hcallees, hq, he⟩
  · cases hcheck

end UniformScript
