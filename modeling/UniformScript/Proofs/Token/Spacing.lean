import UniformScript.Proofs.Token.LineBreak
import UniformScript.Proofs.Token.MaximalMunch

/-!
# Blanks between tokens

Which token a lexeme becomes may depend on what is behind it: a word, a number and some signs go on
as long as they can.  A lexeme alone is taken as the token that it was in its text, since no longer
piece fits into it; and so it is in front of a blank, where nothing but a quoted text goes on.  So
the lexemes of a source can be put into another text with blanks between them and around them, as
many as one likes, and are scanned as they were.

* `munch_lexeme`: a piece is taken again from its lexeme alone.
* `scans_lexeme`: a lexeme in front of a blank, or at the end of a text, is scanned as its token.
* `scan_spaced`: the tokens of a source are those of its lexemes with blanks between them.
-/

namespace UniformScript.Token

variable {c : Char} {cs ds w : List Char} {piece : Munch} {t : Token} {ts us : List Token}
  {ws : List (List Char)}

/-! ## Lexemes with blanks behind them -/

/-- A run of blanks, which may be empty. -/
def IsBlanks (w : List Char) : Prop := ∀ c ∈ w, c = ' ' ∨ c = '\t' ∨ c = '\r'

instance (w : List Char) : Decidable (IsBlanks w) :=
  inferInstanceAs (Decidable (∀ c ∈ w, c = ' ' ∨ c = '\t' ∨ c = '\r'))

/-- Lexemes one behind the other, each with a text of its own behind it. -/
def spaced : List String → List (List Char) → List Char
  | lexeme :: lexemes, w :: ws => lexeme.toList ++ (w ++ spaced lexemes ws)
  | _, _ => []

theorem IsBlanks.isBlank (h : IsBlanks w) (hc : c ∈ w) : isBlank c = true := by
  rcases h c hc with rfl | rfl | rfl <;> rfl

/-! ## A piece and its lexeme -/

theorem exists_lexeme_eq_cons (h : munch c cs = .ok piece) : ∃ ds, piece.lexeme = c :: ds := by
  obtain ⟨d, ds, hlexeme⟩ := List.exists_cons_of_ne_nil (lexeme_ne_nil_of_munch h)
  have hsplit := lexeme_append_rest_of_munch h
  rw [hlexeme, List.cons_append] at hsplit
  exact ⟨ds, by rw [hlexeme, (List.cons.inj hsplit).1]⟩

/-- A piece is taken again from its lexeme alone: nothing longer fits into it. -/
theorem munch_lexeme (h : munch c cs = .ok piece) (hlexeme : piece.lexeme = c :: ds) :
    munch c ds = .ok ⟨piece.kind, piece.lexeme, []⟩ := by
  have hlongest : Longest (c :: ds) piece.lexeme piece.kind [] :=
    { split := by rw [hlexeme, List.append_nil]
      piece := isPiece_of_munch h
      longest := fun _ _ _ hfront => by
        rw [hlexeme]
        exact hfront.length_le }
  exact hlongest.munch_eq

/-! ## Lexemes and blanks are scanned -/

theorem scans_blanks (hw : IsBlanks w) (h : Scans cs ts ds) : Scans (w ++ cs) ts ds := by
  induction w with
  | nil => exact h
  | cons c w ih =>
    have hblank : munch c (w ++ cs) = .ok ⟨none, [c], w ++ cs⟩ :=
      if_pos (hw.isBlank (List.mem_cons_self ..))
    exact .blank hblank rfl (ih fun d hd => hw d (List.mem_cons_of_mem _ hd))

/-- A lexeme in front of a blank, or at the end of a text, is scanned as the token that it was. -/
theorem scans_lexeme (ht : t.Lexed) (hstop : ∀ d ∈ cs.head?, isBlank d = true)
    (h : Scans cs ts ds) : Scans (t.lexeme.toList ++ cs) (t.unspanned :: ts) ds := by
  obtain ⟨c, es, piece, hmunch, hkind, hlexeme⟩ := ht
  obtain ⟨fs, hcons⟩ := exists_lexeme_eq_cons hmunch
  have halone := munch_lexeme hmunch hcons
  have hpiece : munch c (fs ++ cs) = .ok ⟨piece.kind, piece.lexeme, cs⟩ := by
    cases cs with
    | nil =>
      rw [List.append_nil]
      exact halone
    | cons d cs => exact munch_before (breaksOff_of_isBlank (hstop d rfl)) halone cs
  have htoken := Scans.token hpiece hkind h
  rw [← hlexeme] at htoken
  rw [hlexeme, String.toList_ofList, hcons]
  exact htoken

/-- Lexemes are scanned as the tokens that they were, with blanks between them. -/
theorem scans_spaced (hlexed : ∀ t ∈ ts, t.Lexed) (hlength : ws.length = ts.length)
    (hws : ∀ w ∈ ws, IsBlanks w) (hne : ∀ w ∈ ws.dropLast, w ≠ []) :
    Scans (spaced (ts.map Token.lexeme) ws) (ts.map Token.unspanned) [] := by
  induction ts generalizing ws with
  | nil => exact .done
  | cons t ts ih =>
    obtain ⟨w, ws, rfl⟩ := List.exists_cons_of_length_eq_add_one hlength
    have hlength : ws.length = ts.length := Nat.succ.inj hlength
    have hblanks : IsBlanks w := hws w (List.mem_cons_self ..)
    have hrest : Scans (spaced (ts.map Token.lexeme) ws) (ts.map Token.unspanned) [] := by
      refine ih (fun u hu => hlexed u (List.mem_cons_of_mem _ hu)) hlength
        (fun v hv => hws v (List.mem_cons_of_mem _ hv)) fun v hv => ?_
      have hmem : v ∈ (w :: ws).dropLast := by
        cases ws with
        | nil => cases hv
        | cons x ws => exact List.mem_cons_of_mem _ hv
      exact hne v hmem
    refine scans_lexeme (hlexed t (List.mem_cons_self ..)) (fun d hd => ?_)
      (scans_blanks hblanks hrest)
    cases w with
    | cons e w =>
      cases hd
      exact hblanks.isBlank (List.mem_cons_self ..)
    | nil =>
      -- only behind the last lexeme there may be no blank
      cases ws with
      | nil =>
        cases ts with
        | nil => cases hd
        | cons u ts => cases hlength
      | cons x ws => exact absurd rfl (hne [] (List.mem_cons_self ..))

/-! ## Sources -/

/-- Blanks between tokens do not matter.  A source that is scanned has some tokens, and the one for
the end of the text behind them.  Wherever their lexemes stand in the same order, with any blanks
in front of the first and behind the last, and at least one blank between any two, the text is
scanned into tokens of the same kinds, with the same values and the same lexemes. -/
theorem scan_spaced {source : Source} {tokens : List Token} (h : scan source = .ok tokens) :
    ∃ ts stop, tokens = ts ++ [finishAt stop] ∧
      ∀ (name : String) (w : List Char) (ws : List (List Char)), ws.length = ts.length →
        IsBlanks w → (∀ v ∈ ws, IsBlanks v) → (∀ v ∈ ws.dropLast, v ≠ []) →
        ∃ ts' stop', scan ⟨name, String.ofList (w ++ spaced (ts.map Token.lexeme) ws)⟩ =
            .ok (ts' ++ [finishAt stop']) ∧
          ts'.map Token.unspanned = ts.map Token.unspanned := by
  obtain ⟨ts, stop, rfl, hscans⟩ := scans_of_scanFrom h (Nat.le_refl _)
  refine ⟨ts, stop, rfl, fun name w ws hlength hw hws hne => ?_⟩
  have hlexed (t : Token) (ht : t ∈ ts) : t.Lexed :=
    lexed_of_scans hscans t.unspanned (List.mem_map_of_mem ht)
  have hspaced : Scans (w ++ spaced (ts.map Token.lexeme) ws) (ts.map Token.unspanned) [] :=
    scans_blanks hw (scans_spaced hlexed hlength hws hne)
  unfold scan
  rw [String.toList_ofList]
  exact scanFrom_of_scans hspaced rfl (Nat.le_refl _) _

/-- A quoted text with a line break and an escape in it, between signs, and a number that ends in a
point. -/
theorem scan_spaced_quoted :
    let source : Source := ⟨"<stdin>", "x=>\"a\n\\\"\"<=7.;"⟩
    let spread : Source := ⟨"<stdin>", " x => \"a\n\\\"\"\t<= 7.\r;"⟩
    ∃ ts stop ts' stop', scan source = .ok (ts ++ [finishAt stop]) ∧
      ts.map Token.lexeme = ["x", "=>", "\"a\n\\\"\"", "<=", "7.", ";"] ∧
      scan spread = .ok (ts' ++ [finishAt stop']) ∧
      ts'.map Token.unspanned = ts.map Token.unspanned := by
  intro source spread
  let lexemes : List String := ["x", "=>", "\"a\n\\\"\"", "<=", "7.", ";"]
  have hmap : ((scan source).map fun tokens => tokens.map Token.lexeme).toOption =
      some (lexemes ++ [""]) := by decide +kernel
  cases hscan : scan source with
  | error failure =>
    rw [hscan] at hmap
    cases hmap
  | ok tokens =>
    rw [hscan] at hmap
    obtain ⟨ts, stop, rfl, hspaced⟩ := scan_spaced hscan
    have hmap : (ts ++ [finishAt stop]).map Token.lexeme = lexemes ++ [""] := Option.some.inj hmap
    rw [List.map_append] at hmap
    obtain ⟨hts, -⟩ := List.append_inj' hmap rfl
    have hlength := congrArg List.length hts
    rw [List.length_map] at hlength
    let ws : List (List Char) := [[' '], [' '], ['\t'], [' '], ['\r'], []]
    have hblanks : ∀ v ∈ ws, IsBlanks v := by simp [ws, IsBlanks]
    have hne : ∀ v ∈ ws.dropLast, v ≠ [] := by simp [ws]
    obtain ⟨ts', stop', hscan', hsame⟩ :=
      hspaced "<stdin>" [' '] ws hlength.symm (hblanks _ List.mem_cons_self) hblanks hne
    rw [hts] at hscan'
    exact ⟨ts, stop, ts', stop', rfl, hts, hscan', hsame⟩

end UniformScript.Token
