import UniformScript.Proofs.Syntax.Joining
import UniformScript.Proofs.Syntax.Placed
import UniformScript.Proofs.Syntax.Viable

/-!
# Syntax errors behind a program

The text of a program is put in front of a text that is none, with a line break between them.
Reading looks no further back than to the token passed last, and for its span only; so what stands
behind the line break is read as it is on its own, or fails as it does.  If the second text begins
with a statement, reading ends where it does in the second text alone, and the error is reported
there.  If its first statement fails, that is tried behind the first text and left again.

* `moreStatements_of_rest`, `refuses_of_rest`: reading where the same tokens are ahead.
* `reads_moreStatements_behind_statement`, `reads_moreStatements_behind_failure`: what is read
  behind a separator.
* `exists_parse_error_join`: the tokens of the joined text.
* `rejected_behind_program`: the joined text is no program, and where the error is reported.
-/

namespace UniformScript

namespace Syntax

open Parse Cursor Token Filter

variable {n : ℕ} {x : Expectation} {c c' d : Cursor} {e : Expr} {p : Program}

/-! ## The same tokens ahead -/

theorem Cursor.kind_of_rest (h : d.rest = c.rest) : d.kind = c.kind := by
  unfold Cursor.kind
  rw [h]

theorem rest_behindSeparators (q r : Token) (ts : List Token) :
    (behindSeparators q ts).rest = (behindSeparators r ts).rest := by
  cases ts with
  | nil => rfl
  | cons t ts =>
    unfold behindSeparators
    split <;> rfl

/-- An answer within some bound is the answer within all larger ones. -/
theorem read_mono {α : Type} {r : Nonterminal α} {m : ℕ} {o : Outcome α} (hnm : n ≤ m)
    (h : r.read n c = o) (ho : o ≠ .exhausted) : r.read m c = o := by
  subst h
  exact (read_below hnm r).eq_of_ne_exhausted ho

/-- What is read does not fail within another bound. -/
theorem not_failed_of_parsed {α : Type} {r : Nonterminal α} {m : ℕ} {a : α}
    (h : r.read n c = .parsed a d) : r.read m c ≠ .failed x c' := by
  intro hfail
  have hup := read_mono (Nat.le_max_left n m) h (by simp)
  rw [read_mono (Nat.le_max_right n m) hfail (by simp)] at hup
  cases hup

/-- An expression that fails does so wherever the same tokens are ahead. -/
theorem refuses_of_rest (h : expression n c = .failed x c') (hd : d.rest = c.rest) :
    Refuses .expression d := by
  have hfails : Nonterminal.expression.read n c = .failed x c' := h
  let m := 24 * d.rest.length + Nonterminal.expression.rank
  cases hread : Nonterminal.expression.read m d with
  | exhausted => exact absurd hread (Routine.answers_read (.reading .expression) (Nat.le_refl _))
  | failed y d' => exact ⟨y, d', eventually_atTop.2 ⟨m, fun k hk => read_mono hk hread (by simp)⟩⟩
  | parsed e d' =>
    -- it would be read from the same tokens where it fails
    obtain ⟨ts, hts⟩ := takesAt m .expression trivial hread
    obtain ⟨c₁, hpass, hrest⟩ := Passes.exists_of_rest (hd ▸ hts.passes.rest_eq) hts.passes.kind_ne
    have hreads := hts.again hpass (.inl (Cursor.kind_of_rest hrest))
    have hparsed := hreads.eq_parsed (n := n) (by simp [hfails])
    rw [hfails] at hparsed
    cases hparsed

/-- Further statements are read again where the same tokens are ahead. -/
theorem moreStatements_of_rest {es : List Expr} (h : moreStatements n c = .parsed es c')
    (hd : d.rest = c.rest) : ∃ d', d'.rest = c'.rest ∧ Reads .moreStatements d es d' := by
  cases n with
  | zero => cases h
  | succ n =>
    by_cases hc : c.kind = .separator
    · have hdk : d.kind = .separator := (Cursor.kind_of_rest hd).trans hc
      have hskipped : d.skipped = c.skipped := by
        obtain ⟨q, ts⟩ := c
        obtain ⟨r, us⟩ := d
        cases hd
        cases ts with
        | nil => cases hc
        | cons t ts =>
          have ht : t.kind = .separator := hc
          simp only [skipped, behindSeparators, ht]
      refine ⟨c', rfl, eventually_of_succ (eventually_atTop.2 ⟨n, fun k hk => ?_⟩)⟩
      have hread : moreStatements (k + 1) c = .parsed es c' :=
        read_mono (r := .moreStatements) (Nat.succ_le_succ hk) h (by simp)
      show moreStatements (k + 1) d = _
      rwa [moreStatements_succ hdk, hskipped, ← moreStatements_succ hc]
    · unfold moreStatements at h
      rw [accept_bind_of_not (by simpa using hc), if_neg (by simp)] at h
      cases h
      exact ⟨d, hd, reads_noStatement (by rwa [Cursor.kind_of_rest hd])⟩

/-! ## Behind a separator -/

/-- Statements are read as further ones behind a separator, whatever is behind them. -/
theorem reads_moreStatements_behind_statement {q separator : Token}
    (h : statements n c = .parsed p c') (hsep : separator.kind = .separator) :
    ∃ d', d'.rest = c'.rest ∧ Reads .moreStatements ⟨q, separator :: c.rest⟩ p.statements d' := by
  obtain ⟨m, seps, ts, first, rest, c₁, c₂, pseps, hseps, hne, hts, hrest, hp⟩ := of_statements h
  have hahead : (behindSeparators separator c.rest).rest = ts ++ c₂.rest := by
    rw [rest_behindSeparators separator c.previous, ← hts.passes.rest_eq]
    exact congrArg Cursor.rest (pseps.skipped_eq_right hseps hne)
  obtain ⟨d₂, hpass, hd₂⟩ := Passes.exists_of_rest hahead hts.passes.kind_ne
  have hfirst := hts.again hpass (.inl (Cursor.kind_of_rest hd₂))
  obtain ⟨d', hd', hmore⟩ := moreStatements_of_rest hrest hd₂
  rw [hp]
  exact ⟨d', hd', reads_moreStatements hsep hfirst hmore⟩

/-- A statement that fails is left again behind a separator. -/
theorem reads_moreStatements_behind_failure {q separator : Token}
    (h : expression n c.skipped = .failed x c') (hsep : separator.kind = .separator) :
    ∃ d', d'.rest = c.skipped.rest ∧ Reads .moreStatements ⟨q, separator :: c.rest⟩ [] d' := by
  have hrest := rest_behindSeparators separator c.previous c.rest
  exact ⟨_, hrest, reads_trailing hsep (refuses_of_rest h hrest)⟩

/-! ## Tokens that are no program -/

/-- A statement is read behind the separators that the tokens begin with. -/
def BeginsWithStatement (tokens : List Token) : Prop :=
  ∃ n e c, expression n (Cursor.start tokens).skipped = .parsed e c

theorem skipped_unspanned (c : Cursor) : c.unspanned.skipped = c.skipped.unspanned :=
  behindSeparators_unspanned c.previous c.rest

/-- Nothing is passed behind separators if all that is passed are separators, and no more of them
are ahead. -/
theorem Cursor.Passes.eq_nil_of_separators {seps ts : List Token} {c₁ c₂ : Cursor}
    (h : Passes ts c₁ c₂) (pseps : Passes seps c c₁) (hne : c₁.kind ≠ .separator)
    (hall : ∀ t ∈ c.rest.take (seps ++ ts).length, t.kind = .separator) : ts = [] := by
  rw [(pseps.trans h).rest_eq, List.take_left] at hall
  cases ts with
  | nil => rfl
  | cons t ts =>
    have ht : t.kind = .separator := hall t (List.mem_append_right _ List.mem_cons_self)
    exact absurd (h.kind_of_cons.trans ht) hne

/-- Statements fail where the first of them does. -/
theorem of_statements_failed (h : statements n c = .failed x c') :
    ∃ m, expression m c.skipped = .failed x c' := by
  cases n with
  | zero => cases h
  | succ n =>
    unfold statements at h
    rcases bind_eq_failed_iff.1 h with h | ⟨_, c₁, hskip, h⟩
    · cases h
    · cases hskip
      rcases bind_eq_failed_iff.1 h with h | ⟨first, c₂, -, h⟩
      · exact ⟨n, h⟩
      · rcases bind_eq_failed_iff.1 h with h | ⟨rest, c₃, -, h⟩
        · exact absurd h (moreStatements_ne_failed n)
        · cases h

/-- Reading the tokens stops behind `k` of them, with the failure. -/
def StopsBehind (tokens : List Token) (k : ℕ) (failure : Located Expectation) : Prop :=
  ∃ ts c, Passes ts (Cursor.start tokens) c ∧ ts.length = k ∧ failure.span = c.span

/-- The failure is about the next token; the end of the text is not passed. -/
theorem StopsBehind.span {tokens ts : List Token} {last : Token} {k : ℕ}
    {failure : Located Expectation} (h : StopsBehind tokens k failure)
    (htokens : tokens = ts ++ [last]) (hlast : last.kind = .finish) :
    tokens[k]?.map Token.span = some failure.span := by
  obtain ⟨us, c, hpass, rfl, hspan⟩ := h
  have hrest := hpass.rest_eq
  rw [Cursor.rest_start] at hrest
  cases hc : c.rest with
  | nil =>
    rw [hc, List.append_nil] at hrest
    exact absurd hlast (hpass.kind_ne last (by simp [← hrest, htokens]))
  | cons t rest => simp [hrest, hc, hspan, Cursor.span]

/-- Tokens are no program because the first statement fails, or because something stands behind the
statements. -/
theorem of_parse_error {tokens : List Token} {failure : Located Expectation}
    (h : parse tokens = .error failure) :
    ∃ c, failure.span = c.span ∧
      ((∃ m x, expression m (Cursor.start tokens).skipped = .failed x c) ∨
        ∃ m root, statements m (Cursor.start tokens) = .parsed root c ∧ c.kind ≠ .finish) := by
  unfold parse at h
  cases hprogram : program (depthFor tokens) (Cursor.start tokens) with
  | parsed root c =>
    rw [hprogram] at h
    cases h
  | exhausted => exact absurd hprogram (answers_program tokens)
  | failed x c =>
    rw [hprogram] at h
    cases h
    refine ⟨c, rfl, ?_⟩
    unfold program at hprogram
    rcases bind_eq_failed_iff.1 hprogram with hfail | ⟨root, c₁, hread, hfail⟩
    · obtain ⟨m, hm⟩ := of_statements_failed hfail
      exact .inl ⟨m, x, hm⟩
    · rw [look_bind] at hfail
      cases hkind : c₁.kind <;> rw [hkind] at hfail <;> cases hfail <;>
        exact .inr ⟨_, root, hread, by simp [hkind]⟩

/-- Tokens are no program if, without their spans, statements are read from them that do not go up
to the end of the text. -/
theorem exists_parse_error_of_reads {tokens : List Token} {root : Program}
    (h : Reads .statements (Cursor.start tokens).unspanned root d) (hd : d.kind ≠ .finish) :
    ∃ k failure, parse tokens = .error failure ∧ StopsBehind tokens k failure ∧
      tokens.length = k + d.rest.length := by
  have hread := h.eq_parsed (ne_exhausted_of_blind (statements_ne_exhausted _))
  obtain ⟨p, c, hp, -, rfl⟩ := parsed_of_blind (r := .statements) hread
  have hc : c.kind ≠ .finish := by rwa [← Cursor.kind_unspanned]
  obtain ⟨ts, hts⟩ := takesAt _ .statements trivial hp
  have hprogram : program (depthFor tokens) (Cursor.start tokens) = .failed .operator c := by
    unfold program
    rw [bind_of_parsed (show statements _ _ = _ from hp), look_bind]
    cases hkind : c.kind with
    | finish => exact absurd hkind hc
    | _ => rfl
  refine ⟨ts.length, ⟨.operator, c.span⟩, ?_, ⟨ts, c, hts.passes, rfl, rfl⟩, ?_⟩
  · unfold parse
    rw [hprogram]
  · rw [Cursor.length_rest_unspanned, ← hts.passes.length_rest, Cursor.rest_start]

/-! ## The joined tokens -/

/-- Tokens that are no program are read behind a separator up to some place in front of their end:
the one where reading stops in them alone if they begin with a statement or with nothing but
separators in front of that place. -/
theorem exists_reads_behind_separator {tokens us : List Token} {last q separator : Token}
    {failure : Located Expectation} (htokens : tokens = us ++ [last]) (hlast : last.kind = .finish)
    (hus : ∀ t ∈ us, t.kind ≠ .finish) (hsome : ∃ t ∈ us, t.kind ≠ .separator)
    (hsep : separator.kind = .separator) (h : parse tokens = .error failure) :
    ∃ k k' es d', StopsBehind tokens k failure ∧
      ((BeginsWithStatement tokens ∨ ∀ t ∈ tokens.take k, t.kind = .separator) → k' = k) ∧
      Reads .moreStatements ⟨q, separator :: tokens.map Token.unspanned⟩ es d' ∧
      d'.kind ≠ .finish ∧ tokens.length = k' + d'.rest.length := by
  have hstart : (Cursor.start tokens).rest = tokens := Cursor.rest_start tokens
  have hahead : tokens.map Token.unspanned = (Cursor.start tokens).unspanned.rest := by
    show _ = (Cursor.start tokens).rest.map Token.unspanned
    rw [hstart]
  rw [hahead]
  obtain ⟨c, hspan, ⟨m, x, hfail⟩ | ⟨m, root, hread, hc⟩⟩ := of_parse_error h
  · -- the first statement fails: it is left, and reading stops in front of it
    obtain ⟨seps, hseps, pseps, hne⟩ :=
      passes_behindSeparators (Cursor.start tokens).previous (Cursor.start tokens).rest
    obtain ⟨ts, hts⟩ := Routine.exists_passes_of_failed (r := .reading .expression) hfail
    have hblind :
        expression m (Cursor.start tokens).unspanned.skipped = .failed x c.unspanned := by
      rw [skipped_unspanned]
      exact (read_blind .expression m _).trans (congrArg _ hfail)
    obtain ⟨d', hd', hreads⟩ := reads_moreStatements_behind_failure (q := q) hblind hsep
    rw [skipped_unspanned] at hd'
    refine ⟨(seps ++ ts).length, seps.length, [], d', ⟨_, c, pseps.trans hts, rfl, hspan⟩, ?_,
      hreads, ?_, ?_⟩
    · rintro (⟨k, e, c₁, hread⟩ | hall)
      · exact absurd hfail (not_failed_of_parsed (r := .expression) hread)
      · rw [← hstart] at hall
        rw [hts.eq_nil_of_separators pseps hne hall, List.append_nil]
    · rw [Cursor.kind_of_rest hd', Cursor.kind_unspanned]
      intro hfinish
      obtain ⟨t, ht, hkind⟩ := hsome
      have heq : seps = us := pseps.eq_of_finish hfinish (hstart.trans htokens) hus hlast
      exact hkind (hseps t (heq ▸ ht))
    · rw [hd', Cursor.length_rest_unspanned]
      exact (congrArg List.length hstart).symm.trans pseps.length_rest
  · obtain ⟨ts, hts⟩ := takesAt m .statements trivial hread
    have hblind : statements m (Cursor.start tokens).unspanned =
        .parsed root.unspanned c.unspanned :=
      (read_blind .statements m _).trans (congrArg _ hread)
    obtain ⟨d', hd', hreads⟩ := reads_moreStatements_behind_statement (q := q) hblind hsep
    refine ⟨ts.length, ts.length, _, d', ⟨ts, c, hts.passes, rfl, hspan⟩, fun _ => rfl, hreads,
      ?_, ?_⟩
    · rwa [Cursor.kind_of_rest hd', Cursor.kind_unspanned]
    · rw [hd', Cursor.length_rest_unspanned, ← hts.passes.length_rest, hstart]

/-- The tokens of a program, a separator, and tokens that are no program: they are none, and where
reading stops. -/
theorem exists_parse_error_join {ts us tokens : List Token} {last : Token} {stop : Position}
    {failure : Located Expectation} (stop' : Position) (hts : ∀ t ∈ ts, t.kind ≠ .finish)
    (hlast : last.kind = .finish)
    (hp : parse (ts ++ [last]) = .ok p) (hus : ∀ t ∈ us, t.kind ≠ .finish)
    (hsome : ∃ t ∈ us, t.kind ≠ .separator) (hq : parse (us ++ [finishAt stop]) = .error failure)
    (htokens : tokens.map Token.unspanned =
      ts.map Token.unspanned ++ lineBreak :: us.map Token.unspanned) :
    ∃ k k' failure', StopsBehind (us ++ [finishAt stop]) k failure ∧
      parse (tokens ++ [finishAt stop']) = .error failure' ∧
      StopsBehind (tokens ++ [finishAt stop']) (ts.length + 1 + k') failure' ∧
      ((BeginsWithStatement (us ++ [finishAt stop]) ∨
        ∀ t ∈ (us ++ [finishAt stop]).take k, t.kind = .separator) → k' = k) := by
  obtain ⟨n, c, c', hreadp, hc', hpass⟩ := statements_unspanned_of_parse hts hlast hp
  obtain ⟨ts₁, pts, hjoin⟩ := reads_statements_join hreadp
  obtain rfl := hpass ts₁ pts
  have hrest : (Cursor.start (tokens ++ [finishAt stop'])).unspanned.rest =
      ts.map Token.unspanned ++ lineBreak :: (us ++ [finishAt stop]).map Token.unspanned := by
    show (Cursor.start _).rest.map Token.unspanned = _
    rw [Cursor.rest_start, List.map_append, List.map_append, htokens, List.append_assoc]
    rfl
  obtain ⟨⟨q, vs⟩, hd₁, rfl⟩ := Passes.exists_of_rest hrest pts.kind_ne
  obtain ⟨k, k', es, d', hstops, hk, hmore, hd', hlength⟩ :=
    exists_reads_behind_separator (q := q) rfl rfl hus hsome (rfl : lineBreak.kind = .separator) hq
  obtain ⟨span, hreads⟩ := hjoin hd₁ rfl hmore
  obtain ⟨j, failure', hfailure, hstops', hlength'⟩ := exists_parse_error_of_reads hreads hd'
  refine ⟨k, k', failure', hstops, hfailure, ?_, hk⟩
  have hcount := congrArg List.length htokens
  simp only [List.length_map, List.length_append, List.length_cons,
    List.length_nil] at hcount hlength hlength'
  obtain rfl : j = ts.length + 1 + k' := by omega
  exact hstops'

end Syntax

open Syntax Token

/-- A token is found by its span. -/
theorem index_unique_of_scan {source : Source} {tokens : List Token} {k k' : ℕ} {span : Span}
    (h : Token.scan source = .ok tokens) (hk : tokens[k]?.map Token.span = some span)
    (hk' : tokens[k']?.map Token.span = some span) : k = k' := by
  rw [← List.getElem?_map] at hk hk'
  obtain ⟨hlt, -⟩ := List.getElem?_eq_some_iff.1 hk
  exact (List.getElem?_inj hlt (spread_of_scan h).nodup).1 (hk.trans hk'.symm)

/-- The indices of the tokens that the syntax error of a text is about. -/
def errorIndices (source : Source) : Option (List ℕ) :=
  (Token.scan source).toOption.bind fun tokens =>
    match parse tokens with
    | .ok _ => none
    | .error failure =>
      some ((List.range tokens.length).filter fun k =>
        tokens[k]?.map Token.span = some failure.span)

theorem exists_of_errorIndices {source : Source} {ks : List ℕ}
    (h : errorIndices source = some ks) :
    ∃ tokens failure, Token.scan source = .ok tokens ∧ parse tokens = .error failure ∧
      ∀ k, tokens[k]?.map Token.span = some failure.span ↔ k ∈ ks := by
  obtain ⟨tokens, hscan, h⟩ := Option.bind_eq_some_iff.1 h
  have hscan := ok_of_toOption hscan
  cases hparse : parse tokens with
  | ok q =>
    rw [hparse] at h
    cases h
  | error failure =>
    rw [hparse] at h
    cases h
    refine ⟨tokens, failure, hscan, hparse, fun k => ?_⟩
    simp only [List.mem_filter, List.mem_range, decide_eq_true_eq, iff_and_self]
    intro hk
    obtain ⟨t, ht, -⟩ := Option.map_eq_some_iff.1 hk
    exact (List.getElem?_eq_some_iff.1 ht).1

/-- A text that is no program, though it holds more than separators, is none behind the text of a
program either.  If it begins with a statement, or has nothing but separators in front of the token
that its error is about, the error of the joined text is about the corresponding token. -/
theorem rejected_behind_program {first second : Source} {p : Program} {tokens : List Token}
    {failure : Located Expectation} (hp : Program.read first = .ok p)
    (hscan : Token.scan second = .ok tokens) (hfail : parse tokens = .error failure)
    (hsome : ∃ t ∈ tokens, t.kind ≠ .separator ∧ t.kind ≠ .finish) (name : String) :
    ∃ before joined failure', Token.scan first = .ok before ∧
      Token.scan ⟨name, first.text ++ "\n" ++ second.text⟩ = .ok joined ∧
      (∀ i, joined[before.length + i]?.map Token.unspanned = tokens[i]?.map Token.unspanned) ∧
      parse joined = .error failure' ∧
      ∀ k, tokens[k]?.map Token.span = some failure.span →
        (BeginsWithStatement tokens ∨ ∀ t ∈ tokens.take k, t.kind = .separator) →
        joined[before.length + k]?.map Token.span = some failure'.span := by
  obtain ⟨before, hbefore, hparse⟩ := exists_tokens_of_read hp
  obtain ⟨ts, stop, rfl, hts⟩ := scans_of_scanFrom hbefore (Nat.le_refl _)
  obtain ⟨us, stop', rfl, hus⟩ := scans_of_scanFrom hscan (Nat.le_refl _)
  have hne {cs : List Char} {vs : List Token} (h : Scans cs (vs.map Token.unspanned) []) :
      ∀ t ∈ vs, t.kind ≠ .finish := fun t ht =>
    (lexed_of_scans h t.unspanned (List.mem_map_of_mem ht)).kind_ne_finish
  let source : Source := ⟨name, first.text ++ "\n" ++ second.text⟩
  have hscans : Scans source.text.toList
      (ts.map Token.unspanned ++ lineBreak :: us.map Token.unspanned) [] := by
    have hjoin := scans_join hts hus
    simpa [source] using hjoin
  obtain ⟨vs, stop'', hjoined, hvs⟩ :=
    scanFrom_of_scans hscans rfl (Nat.le_refl _) (Position.start source)
  have hsome' : ∃ t ∈ us, t.kind ≠ .separator := by
    obtain ⟨t, ht, hsep, hfinish⟩ := hsome
    rcases List.mem_append.1 ht with ht | ht
    · exact ⟨t, ht, hsep⟩
    · obtain rfl := List.mem_singleton.1 ht
      exact absurd rfl hfinish
  obtain ⟨k, k', failure', hstops, hfailure', hstops', hk⟩ :=
    exists_parse_error_join stop'' (hne hts) rfl hparse (hne hus) hsome' hfail hvs
  refine ⟨_, _, failure', hbefore, hjoined, fun i => ?_, hfailure', fun j hj hplace => ?_⟩
  · have hall : (vs ++ [finishAt stop'']).map Token.unspanned =
        (ts.map Token.unspanned ++ [lineBreak]) ++
          (us ++ [finishAt stop']).map Token.unspanned := by
      rw [List.map_append, hvs, List.map_append, List.append_assoc, List.append_assoc]
      rfl
    rw [← List.getElem?_map, ← List.getElem?_map, hall, List.getElem?_append_right (by simp)]
    congr 1
    simp
  · obtain rfl := index_unique_of_scan hscan hj (hstops.span rfl rfl)
    have hspan := hstops'.span rfl rfl
    rw [hk hplace] at hspan
    simpa using hspan

/-- An assignment without a name behind a statement, behind a program: the error is about the word
`push`, which is token 2 of the one text and token 4 of both. -/
theorem rejected_behind_program_push :
    let first : Source := ⟨"<test>", "1"⟩
    let second : Source := ⟨"<test>", "x\npush (z)"⟩
    ∃ joined failure, Token.scan ⟨"<test>", first.text ++ "\n" ++ second.text⟩ = .ok joined ∧
      parse joined = .error failure ∧ joined[2 + 2]?.map Token.span = some failure.span := by
  intro first second
  have hread : (Program.read first).toOption.isSome := by decide +kernel
  have hlength : (Token.scan first).toOption.map List.length = some 2 := by decide +kernel
  have herror : errorIndices second = some [2] := by decide +kernel
  have hcheck : (Token.scan second).toOption.map (fun tokens =>
      (tokens.any fun t => t.kind.isIdentifier,
        match expression 60 (Cursor.start tokens).skipped with
        | .parsed _ _ => true
        | _ => false)) = some (true, true) := by decide +kernel
  obtain ⟨p, hp⟩ := Option.isSome_iff_exists.1 hread
  obtain ⟨before', hbefore', hlength⟩ := Option.map_eq_some_iff.1 hlength
  obtain ⟨tokens, failure, hscan, hparse, hk⟩ := exists_of_errorIndices herror
  rw [hscan] at hcheck
  obtain ⟨hsome, hfirst⟩ := Prod.mk.inj (Option.some.inj hcheck)
  obtain ⟨t, ht, hkind⟩ := List.any_eq_true.1 hsome
  have hkind := Kind.isIdentifier_iff.1 hkind
  have hbegins : BeginsWithStatement tokens := by
    cases hstatement : expression 60 (Cursor.start tokens).skipped with
    | parsed e c => exact ⟨60, e, c, hstatement⟩
    | _ =>
      rw [hstatement] at hfirst
      cases hfirst
  obtain ⟨before, joined, failure', hbefore, hjoined, -, hfail, hplace⟩ :=
    rejected_behind_program (ok_of_toOption hp) hscan hparse ⟨t, ht, by simp [hkind]⟩ "<test>"
  cases hbefore.symm.trans (ok_of_toOption hbefore')
  have hspan := hplace 2 ((hk 2).2 (by simp)) (.inl hbegins)
  rw [hlength] at hspan
  exact ⟨joined, failure', hjoined, hfail, hspan⟩

/-- A text without any statement is no program, but behind one it is the end of a program; and a
statement that is not finished is reported at the end of its text, but behind a program where it
begins. -/
theorem rejected_elsewhere_behind_program :
    let first : Source := ⟨"<test>", "1"⟩
    let behind (text : String) : Source := ⟨"<test>", first.text ++ "\n" ++ text⟩
    (Program.read first).toOption.isSome ∧
    (∃ tokens failure, Token.scan ⟨"<test>", ""⟩ = .ok tokens ∧ parse tokens = .error failure ∧
      tokens[0]?.map Token.span = some failure.span ∧ (Program.read (behind "")).toOption.isSome) ∧
    ∃ before tokens failure joined failure',
      Token.scan first = .ok before ∧ Token.scan ⟨"<test>", "(1"⟩ = .ok tokens ∧
      parse tokens = .error failure ∧ tokens[2]?.map Token.span = some failure.span ∧
      Token.scan (behind "(1") = .ok joined ∧ parse joined = .error failure' ∧
      joined[before.length + 2]?.map Token.span ≠ some failure'.span := by
  intro first behind
  have hnone : errorIndices ⟨"<test>", ""⟩ = some [0] := by decide +kernel
  have halone : errorIndices ⟨"<test>", "(1"⟩ = some [2] := by decide +kernel
  have hjoined : errorIndices (behind "(1") = some [2] := by decide +kernel
  have hlength : (Token.scan first).toOption.map List.length = some 2 := by decide +kernel
  refine ⟨by decide +kernel, ?_, ?_⟩
  · obtain ⟨tokens, failure, hscan, hparse, hk⟩ := exists_of_errorIndices hnone
    exact ⟨tokens, failure, hscan, hparse, (hk 0).2 (by simp), by decide +kernel⟩
  · obtain ⟨before, hbefore, hlength⟩ := Option.map_eq_some_iff.1 hlength
    obtain ⟨tokens, failure, hscan, hparse, hk⟩ := exists_of_errorIndices halone
    obtain ⟨joined, failure', hscan', hparse', hk'⟩ := exists_of_errorIndices hjoined
    refine ⟨before, tokens, failure, joined, failure', ok_of_toOption hbefore, hscan, hparse,
      (hk 2).2 (by simp), hscan', hparse', ?_⟩
    rw [hlength, Ne, hk']
    decide

end UniformScript
