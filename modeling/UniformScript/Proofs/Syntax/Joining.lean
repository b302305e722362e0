import UniformScript.Proofs.Syntax.RoundTrip

/-!
# Programs one behind the other

The texts of two programs are put behind each other, with a line break between them.  The whole
text is read as the statements of the first program and those of the second: an expression at the
end of the first text ends in front of the line break as it ended at the end of the text, and
separators in a row count as one.

* `reads_moreStatements_join`, `reads_statements_join`: statements go on behind the end of a text.
* `read_join`: the program that the whole text holds.
-/

namespace UniformScript

namespace Syntax

open Parse Cursor Token Filter

section

variable {n : ℕ} {c c' : Cursor} {es : List Expr} {p : Program}

/-! ## Statements behind separators -/

/-- Further statements are looked for behind all the separators ahead. -/
theorem moreStatements_succ {d : Cursor} (hd : d.kind = .separator) :
    moreStatements (n + 1) d = (do
      match ← attempt (expression n) with
      | none => return []
      | some first =>
        let rest ← moreStatements n
        return first :: rest) d.skipped := by
  obtain ⟨p, us⟩ := d
  cases us with
  | nil => cases hd
  | cons t us =>
    have ht : t.kind = .separator := hd
    have hskipped : (⟨p, t :: us⟩ : Cursor).skipped = behindSeparators t us := by
      simp only [skipped, behindSeparators, ht]
    rw [hskipped, moreStatements, accept_bind (by simp [ht]) (by simp [ht]), if_pos rfl]
    rfl

/-- Separators in front of further statements are read as one. -/
theorem reads_moreStatements_behind {seps : List Token} {d d₁ d' : Cursor}
    (hd : Passes seps d d₁) (hseps : ∀ t ∈ seps, t.kind = .separator)
    (hd₁ : d₁.kind = .separator) (h : Reads .moreStatements d₁ es d') :
    Reads .moreStatements d es d' := by
  have hkind : d.kind = .separator := by
    cases seps with
    | nil => rwa [← hd.nil_inv]
    | cons t seps => exact hd.kind_of_cons.trans (hseps t (List.mem_cons_self ..))
  have hread (n : ℕ) : moreStatements (n + 1) d = moreStatements (n + 1) d₁ := by
    rw [moreStatements_succ hkind, moreStatements_succ hd₁, hd.skipped_eq hseps]
  refine eventually_of_succ ?_
  filter_upwards [(tendsto_add_atTop_nat 1).eventually h] with n hn
  exact (hread n).trans hn

/-! ## Statements that go on -/

/-- Where a separator stands behind them instead, further statements go on. -/
theorem reads_moreStatements_join (h : moreStatements n c = .parsed es c') :
    ∃ ts, Passes ts c c' ∧ ∀ {d d₁ d' : Cursor} {es' : List Expr}, Passes ts d d₁ →
      d₁.kind = .separator → Reads .moreStatements d₁ es' d' →
      Reads .moreStatements d (es ++ es') d' := by
  induction n generalizing c es with
  | zero => cases h
  | succ n ih =>
    unfold moreStatements at h
    rcases of_bind_accept rfl h with ⟨separator, c₁, hsep, psep, h⟩ | ⟨-, h⟩
    · have hsep := Kind.isSeparator_iff.1 hsep
      obtain ⟨seps, c₂, hseps, pseps, hne, h⟩ := of_bind_skipSeparators h
      obtain ⟨found, c₃, hfound, h⟩ := bind_eq_parsed_iff.1 h
      unfold Parse.attempt at hfound
      cases hread : expression n c₂ with
      | parsed first c₄ =>
        rw [hread] at hfound
        cases hfound
        obtain ⟨ts, hts⟩ := takesAt n .expression trivial hread
        obtain ⟨rest, c₅, hrest, h⟩ := bind_eq_parsed_iff.1 h
        cases h
        obtain ⟨us, pus, hus⟩ := ih hrest
        refine ⟨_, ((psep.cons pseps).trans hts.passes).trans pus, ?_⟩
        rintro ⟨p, vs⟩ d₁ d' es' hd hd₁ hes'
        obtain ⟨d₄, hleft, hd₄⟩ := hd.append_inv
        obtain ⟨d₂, hd₂, hd₃⟩ := hleft.append_inv
        obtain ⟨vs, rfl, hd₀⟩ := hd₂.cons_inv
        have hmiddle := Agrees.before pus hd₄ (.of_separator _ hd₁)
        have hfirst := hts.again_skipped hne hseps hd₀ hd₃ hmiddle
        exact reads_moreStatements hsep hfirst (hus hd₄ hd₁ hes')
      | failed x c₄ =>
        rw [hread] at hfound
        cases hfound
        cases h
        refine ⟨_, psep.cons pseps, fun hd hd₁ hes' => ?_⟩
        exact reads_moreStatements_behind hd (List.forall_mem_cons.2 ⟨hsep, hseps⟩) hd₁ hes'
      | exhausted =>
        rw [hread] at hfound
        cases hfound
    · cases h
      refine ⟨[], .refl _, fun hd _ hes' => ?_⟩
      obtain rfl := hd.nil_inv
      exact hes'

/-! ## Whole programs -/

/-- The statements of a program: a first one behind separators, and further ones. -/
theorem of_statements (h : statements n c = .parsed p c') :
    ∃ m seps ts first rest c₁ c₂, Passes seps c c₁ ∧ (∀ t ∈ seps, t.kind = .separator) ∧
      c₁.kind ≠ .separator ∧ Takes .expression ts c₁ first c₂ ∧
      moreStatements m c₂ = .parsed rest c' ∧ p.statements = first :: rest := by
  cases n with
  | zero => cases h
  | succ n =>
    unfold statements at h
    obtain ⟨seps, c₁, hseps, pseps, hne, h⟩ := of_bind_skipSeparators h
    obtain ⟨first, ts, c₂, hts, h⟩ := TakesAt.bind (takesAt n) .expression trivial h
    obtain ⟨rest, c₃, hrest, h⟩ := bind_eq_parsed_iff.1 h
    cases h
    exact ⟨n, seps, ts, first, rest, c₁, c₂, pseps, hseps, hne, hts, hrest, rfl⟩

/-- Where a separator stands behind them instead, the statements of a program go on. -/
theorem reads_statements_join (h : statements n c = .parsed p c') :
    ∃ ts, Passes ts c c' ∧ ∀ {d d₁ d' : Cursor} {es' : List Expr}, Passes ts d d₁ →
      d₁.kind = .separator → Reads .moreStatements d₁ es' d' →
      ∃ span, Reads .statements d ⟨span, p.statements ++ es'⟩ d' := by
  obtain ⟨m, seps, ts, first, rest, c₁, c₂, pseps, hseps, hne, hts, hrest, hp⟩ := of_statements h
  obtain ⟨us, pus, hus⟩ := reads_moreStatements_join hrest
  refine ⟨_, (pseps.trans hts.passes).trans pus, ?_⟩
  rintro ⟨q, vs⟩ d₁ d' es' hd hd₁ hes'
  obtain ⟨d₃, hleft, hd₄⟩ := hd.append_inv
  obtain ⟨d₂, hd₂, hd₃⟩ := hleft.append_inv
  have hmiddle := Agrees.before pus hd₄ (.of_separator _ hd₁)
  have hfirst := hts.again_skipped hne hseps hd₂ hd₃ hmiddle
  rw [hp]
  exact ⟨_, reads_statements hfirst (hus hd₄ hd₁ hes')⟩

/-- Behind a separator, the statements of a program are read as further statements. -/
theorem reads_moreStatements_of_statements (h : statements n c = .parsed p c') :
    ∃ ts, Passes ts c c' ∧ ∀ {separator : Token} {d d' : Cursor}, separator.kind = .separator →
      Passes (separator :: ts) d d' → d'.kind = .finish →
      Reads .moreStatements d p.statements d' := by
  obtain ⟨m, seps, ts, first, rest, c₁, c₂, pseps, hseps, hne, hts, hrest, hp⟩ := of_statements h
  obtain ⟨us, hus⟩ := takesAt m .moreStatements trivial hrest
  refine ⟨_, (pseps.trans hts.passes).trans hus.passes, ?_⟩
  rintro separator ⟨q, vs⟩ d' hsep hd hd'
  obtain ⟨vs, rfl, hd₁⟩ := hd.cons_inv
  obtain ⟨d₃, hleft, hd₄⟩ := hd₁.append_inv
  obtain ⟨d₂, hd₂, hd₃⟩ := hleft.append_inv
  have hend : Nonterminal.Bears .moreStatements c'.kind d'.kind :=
    Nonterminal.bears_of_closes _ _ (by simp [Closes, hd'])
  have hfirst := hts.again_skipped hne hseps hd₂ hd₃ (Agrees.before hus.passes hd₄ hend.2)
  rw [hp]
  exact reads_moreStatements hsep hfirst (hus.again hd₄ hend)

end

/-! ## Tokens without spans -/

theorem unspannedAll_append (es es' : List Expr) :
    unspannedAll (es ++ es') = unspannedAll es ++ unspannedAll es' := by
  induction es with
  | nil => rfl
  | cons e es ih => exact congrArg (e.unspanned :: ·) ih

/-- The tokens of a program are read as its statements, also without their spans. -/
theorem statements_unspanned_of_parse {ts : List Token} {last : Token} {p : Program}
    (hts : ∀ t ∈ ts, t.kind ≠ .finish) (hlast : last.kind = .finish)
    (h : parse (ts ++ [last]) = .ok p) :
    ∃ n c c', statements n c = .parsed p.unspanned c' ∧ c'.kind = .finish ∧
      ∀ us, Passes us c c' → us = ts.map Token.unspanned := by
  obtain ⟨c', hread, hc'⟩ := statements_of_parse h
  refine ⟨depthFor (ts ++ [last]), (Cursor.start (ts ++ [last])).unspanned, c'.unspanned,
    ?_, ?_, ?_⟩
  · have hblind := read_blind .statements (depthFor (ts ++ [last])) (Cursor.start (ts ++ [last]))
    exact hblind.trans (congrArg _ hread)
  · rw [Cursor.kind_unspanned, hc']
  · intro us hus
    have hend : c'.unspanned.kind = .finish := by rw [Cursor.kind_unspanned, hc']
    have hrest : (Cursor.start (ts ++ [last])).unspanned.rest =
        ts.map Token.unspanned ++ [last.unspanned] := by
      show (Cursor.start (ts ++ [last])).rest.map Token.unspanned = _
      rw [Cursor.rest_start, List.map_append]
      rfl
    refine hus.eq_of_finish hend hrest (fun t ht => ?_) hlast
    obtain ⟨u, hu, rfl⟩ := List.mem_map.1 ht
    exact hts u hu

/-- Two programs with a separator between them are read as one. -/
theorem exists_parse_join {ts us tokens : List Token} {last last' : Token} {p q : Program}
    (hts : ∀ t ∈ ts, t.kind ≠ .finish) (hlast : last.kind = .finish)
    (hp : parse (ts ++ [last]) = .ok p) (hus : ∀ t ∈ us, t.kind ≠ .finish)
    (hlast' : last'.kind = .finish) (hq : parse (us ++ [last']) = .ok q)
    (htokens : tokens.map Token.unspanned =
      ts.map Token.unspanned ++ lineBreak :: us.map Token.unspanned) (stop : Position) :
    ∃ r, parse (tokens ++ [finishAt stop]) = .ok r ∧
      r.unspanned = ⟨default, unspannedAll p.statements ++ unspannedAll q.statements⟩ := by
  obtain ⟨n, c, c', hreadp, hc', hpass⟩ := statements_unspanned_of_parse hts hlast hp
  obtain ⟨m, e, e', hreadq, he', hpass'⟩ := statements_unspanned_of_parse hus hlast' hq
  obtain ⟨ts₁, pts, hjoin⟩ := reads_statements_join hreadp
  obtain ⟨us₁, pus, hmore⟩ := reads_moreStatements_of_statements hreadq
  obtain rfl := hpass ts₁ pts
  obtain rfl := hpass' us₁ pus
  -- all tokens of the joined text, up to its end
  have hrest : (Cursor.start (tokens ++ [finishAt stop])).unspanned.rest =
      (ts.map Token.unspanned ++ lineBreak :: us.map Token.unspanned) ++
        [(finishAt stop).unspanned] := by
    show (Cursor.start _).rest.map Token.unspanned = _
    rw [Cursor.rest_start, List.map_append, htokens]
    rfl
  have hne : ∀ t ∈ ts.map Token.unspanned ++ lineBreak :: us.map Token.unspanned,
      t.kind ≠ .finish := by
    rintro t ht
    rcases List.mem_append.1 ht with ht | ht
    · exact pts.kind_ne t ht
    · rcases List.mem_cons.1 ht with rfl | ht
      · simp [lineBreak]
      · exact pus.kind_ne t ht
  obtain ⟨d', hd, hd'⟩ := Passes.exists_of_rest hrest hne
  have hfinish : d'.kind = .finish := by
    unfold Cursor.kind
    rw [hd']
    rfl
  obtain ⟨d₁, hd₁, hd₂⟩ := hd.append_inv
  obtain ⟨span, hreads⟩ := hjoin hd₁ (hd₂.kind_of_cons) (hmore rfl hd₂ hfinish)
  obtain ⟨r, hr, hroot⟩ := exists_parse_of_reads hreads hfinish
  refine ⟨r, hr, ?_⟩
  obtain rfl : default = span := congrArg Program.span hroot
  exact hroot

end Syntax

open Syntax Token

/-- The text of a program, a line break and the text of another program hold, up to spans, the
statements of the one and of the other. -/
theorem read_join {first second : Source} {p q : Program} (hp : Program.read first = .ok p)
    (hq : Program.read second = .ok q) (name : String) :
    ∃ r, Program.read ⟨name, first.text ++ "\n" ++ second.text⟩ = .ok r ∧
      unspannedAll r.statements = unspannedAll (p.statements ++ q.statements) := by
  obtain ⟨ts, stop, hts, hparse⟩ := exists_scans_of_read hp
  obtain ⟨us, stop', hus, hparse'⟩ := exists_scans_of_read hq
  have hne {cs : List Char} {vs : List Token} (h : Scans cs (vs.map Token.unspanned) []) :
      ∀ t ∈ vs, t.kind ≠ .finish := fun t ht =>
    (lexed_of_scans h t.unspanned (List.mem_map_of_mem ht)).kind_ne_finish
  let joined : Source := ⟨name, first.text ++ "\n" ++ second.text⟩
  have hscans : Scans joined.text.toList
      (ts.map Token.unspanned ++ lineBreak :: us.map Token.unspanned) [] := by
    have hjoin := scans_join hts hus
    simpa [joined] using hjoin
  obtain ⟨r, hr, hroot⟩ := read_of_scans hscans fun tokens stop htokens =>
    exists_parse_join (hne hts) rfl hparse (hne hus) rfl hparse' htokens stop
  refine ⟨r, hr, ?_⟩
  rw [unspannedAll_append]
  exact congrArg Program.statements hroot

end UniformScript
