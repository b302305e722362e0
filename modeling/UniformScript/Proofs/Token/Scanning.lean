import UniformScript.Token.Scan
import UniformScript.Syntax.Canonical
import UniformScript.Proofs.Syntax.Unspanned

/-!
# Scanning one piece after the other

`Scans cs ts rest` says that taking the longest pieces from the front of `cs` gives the tokens
`ts`, up to their spans, and leaves `rest`.  A piece is taken with all the text behind it in view,
so the judgment composes without cutting a piece in two.

Words and numerals end where the next character is none of theirs; signs and quoted texts end by
themselves.

* `scanFrom_cases`: the runs of the scanner, to the end of a text or to a place where it halts.
* `scanFrom_of_scans` and `scans_of_scanFrom`: the judgment is what the scanner does.
* `scans_word`, `scans_numeral`, `scans_quote`: the pieces of a canonical text.
* `lexed_of_scanFrom`: every token was taken as a piece somewhere.
-/

namespace UniformScript.Token

/-! ## Words and numerals -/

/-- A word: a letter, and letters and digits behind it. -/
structure IsWord (cs : List Char) : Prop where
  head : ∃ c ∈ cs.head?, c.isAlpha = true
  all : ∀ c ∈ cs, c.isAlphanum = true

theorem isWord_keyword {k : Keyword} (hk : k ∈ Keyword.words) : IsWord k.text.toList := by
  have hletters : ∀ k ∈ Keyword.words, k.text.toList.head?.any Char.isAlpha = true ∧
      k.text.toList.all Char.isAlphanum = true := by decide
  obtain ⟨hhead, hall⟩ := hletters k hk
  exact ⟨(Option.any_eq_true _ _).1 hhead, List.all_eq_true.1 hall⟩

theorem wordKind_keyword {k : Keyword} (hk : k ∈ Keyword.words) :
    wordKind k.text.toList = .keyword k := by
  have hread : ∀ k ∈ Keyword.words, Keyword.ofText? (String.ofList k.text.toList) = some k := by
    decide
  unfold wordKind
  rw [hread k hk]

/-- A numeral and the literal it stands for. -/
inductive IsNumeral : List Char → Literal → Prop where
  /-- Digits alone. -/
  | whole {digits : List Char} :
    digits ≠ [] → (∀ c ∈ digits, c.isDigit = true) → IsNumeral digits (wholeLiteral digits)
  /-- Digits, a point, and the digits behind it, of which there may be none. -/
  | decimal {digits fraction : List Char} :
    digits ≠ [] → (∀ c ∈ digits, c.isDigit = true) → (∀ c ∈ fraction, c.isDigit = true) →
    IsNumeral (digits ++ '.' :: fraction) (.decimal (Decimal.ofDigits digits fraction))

theorem head_of_isNumeral {numeral : List Char} {l : Literal} (h : IsNumeral numeral l) :
    ∃ c ∈ numeral.head?, c.isDigit = true := by
  cases h with
  | whole hne hdigits =>
    cases numeral with
    | nil => exact absurd rfl hne
    | cons c cs => exact ⟨c, rfl, hdigits c (by simp)⟩
  | @decimal digits fraction hne hdigits hfraction =>
    cases digits with
    | nil => exact absurd rfl hne
    | cons c cs => exact ⟨c, rfl, hdigits c (by simp)⟩

/-- The text begins with no character that satisfies the test. -/
def Stops (test : Char → Bool) (cs : List Char) : Prop := ∀ c ∈ cs.head?, test c = false

theorem takeWhile_append_of_stops {test : Char → Bool} {cs rest : List Char}
    (h : ∀ c ∈ cs, test c = true) (hrest : Stops test rest) :
    (cs ++ rest).takeWhile test = cs := by
  rw [List.takeWhile_append_of_pos h]
  cases rest with
  | nil => simp
  | cons c rest => simp [hrest c (by simp)]

theorem dropWhile_append_of_stops {test : Char → Bool} {cs rest : List Char}
    (h : ∀ c ∈ cs, test c = true) (hrest : Stops test rest) :
    (cs ++ rest).dropWhile test = rest := by
  rw [List.dropWhile_append_of_pos h]
  cases rest with
  | nil => simp
  | cons c rest => simp [hrest c (by simp)]

/-! ## Pieces with the text behind them -/

/-- A word is taken whole if the next character is neither a letter nor a digit. -/
theorem munchWord_append {word rest : List Char} (h : ∀ c ∈ word, c.isAlphanum = true)
    (hrest : Stops Char.isAlphanum rest) :
    munchWord (word ++ rest) = ⟨some (wordKind word), word, rest⟩ := by
  unfold munchWord
  rw [takeWhile_append_of_stops h hrest, dropWhile_append_of_stops h hrest]

/-- What neither a digit nor a point can begin. -/
def isNumeric (c : Char) : Bool := c.isDigit || c == '.'

/-- A numeral is taken whole if the next character is neither a digit nor a point. -/
theorem munchNumber_append {numeral rest : List Char} {l : Literal} (h : IsNumeral numeral l)
    (hrest : Stops isNumeric rest) :
    munchNumber (numeral ++ rest) = ⟨some (.literal l), numeral, rest⟩ := by
  have hdigit : Stops Char.isDigit rest := fun c hc => by
    have := hrest c hc
    simp only [isNumeric, Bool.or_eq_false_iff] at this
    exact this.1
  cases h with
  | whole hne hdigits =>
    unfold munchNumber
    rw [takeWhile_append_of_stops hdigits hdigit, dropWhile_append_of_stops hdigits hdigit]
    split
    · rename_i behind
      exact absurd (hrest '.' (by simp)) (by decide)
    · rfl
  | @decimal digits fraction hne hdigits hfraction =>
    have hpoint : Stops Char.isDigit ('.' :: (fraction ++ rest)) := fun c hc => by
      cases hc
      decide
    unfold munchNumber
    rw [List.append_assoc, List.cons_append, takeWhile_append_of_stops hdigits hpoint,
      dropWhile_append_of_stops hdigits hpoint]
    simp only [takeWhile_append_of_stops hfraction hdigit,
      dropWhile_append_of_stops hfraction hdigit]

/-- The characters of a text read back from how they stand in quotes. -/
theorem read_escaped (value rest : List Char) :
    Quoted.read (value.flatMap escape ++ '"' :: rest) =
      some ⟨value, value.flatMap escape ++ ['"'], rest⟩ := by
  induction value with
  | nil => rfl
  | cons c cs ih =>
    rw [List.flatMap_cons, List.append_assoc]
    by_cases hbreak : c = '\n'
    · subst hbreak
      simp [escape, Quoted.read, ih, Quoted.behind, unescape]
    by_cases htab : c = '\t'
    · subst htab
      simp [escape, Quoted.read, ih, Quoted.behind, unescape]
    by_cases hslash : c = '\\'
    · subst hslash
      simp [escape, Quoted.read, ih, Quoted.behind, unescape]
    by_cases hquote : c = '"'
    · subst hquote
      simp [escape, Quoted.read, ih, Quoted.behind, unescape]
    · simp [escape, hbreak, htab, hslash, hquote, Quoted.read, ih, Quoted.behind]

/-! ## The runs of the scanner -/

/-- The scanner comes to the end of a text that begins at the place, and has found the tokens. -/
inductive Scanned : Position → List Char → List Token → Prop where
  | finish (pos : Position) : Scanned pos [] [finishAt pos]
  | blank {pos : Position} {c : Char} {cs : List Char} {piece : Munch} {tokens : List Token}
    (hp : munch c cs = .ok piece) (hk : piece.kind = none)
    (hrest : Scanned (pos.advanceOver piece.lexeme) piece.rest tokens) :
    Scanned pos (c :: cs) tokens
  | token {pos : Position} {c : Char} {cs : List Char} {piece : Munch} {kind : Kind}
    {tokens : List Token} (hp : munch c cs = .ok piece) (hk : piece.kind = some kind)
    (hrest : Scanned (pos.advanceOver piece.lexeme) piece.rest tokens) :
    Scanned pos (c :: cs)
      (⟨kind, String.ofList piece.lexeme, ⟨pos, pos.advanceOver piece.lexeme⟩⟩ :: tokens)

/-- The scanner comes to a place where it takes nothing, and reports it. -/
inductive Halted : Position → List Char → Located LexicalCause → Prop where
  | here {pos : Position} {c : Char} {cs : List Char} {cause : LexicalCause}
    (hnone : munch c cs = .error cause) :
    Halted pos (c :: cs) ⟨cause, causeSpan pos c cs cause⟩
  | behind {pos : Position} {c : Char} {cs : List Char} {piece : Munch}
    {failure : Located LexicalCause} (hp : munch c cs = .ok piece)
    (hrest : Halted (pos.advanceOver piece.lexeme) piece.rest failure) :
    Halted pos (c :: cs) failure

theorem length_rest_lt_of_munch {c : Char} {cs : List Char} {piece : Munch}
    (h : munch c cs = .ok piece) : piece.rest.length < (c :: cs).length := by
  have hlength := congrArg List.length (lexeme_append_rest_of_munch h)
  have hpos := List.length_pos_iff.2 (lexeme_ne_nil_of_munch h)
  rw [List.length_append] at hlength
  omega

/-- Those are the runs of the scanner, if it may take as many pieces as there are characters. -/
theorem scanFrom_cases {fuel : Nat} (pos : Position) {cs : List Char} (hfuel : cs.length ≤ fuel) :
    (∃ tokens, scanFrom fuel pos cs = .ok tokens ∧ Scanned pos cs tokens) ∨
      ∃ failure, scanFrom fuel pos cs = .error failure ∧ Halted pos cs failure := by
  induction fuel generalizing pos cs with
  | zero =>
    obtain rfl : cs = [] := List.length_eq_zero_iff.1 (Nat.le_zero.1 hfuel)
    exact .inl ⟨_, rfl, .finish pos⟩
  | succ fuel ih =>
    cases cs with
    | nil => exact .inl ⟨_, rfl, .finish pos⟩
    | cons c cs =>
      unfold scanFrom
      cases hp : munch c cs with
      | error cause => exact .inr ⟨_, rfl, .here hp⟩
      | ok piece =>
        have hlt := length_rest_lt_of_munch hp
        have hle : piece.rest.length ≤ fuel := by omega
        rcases ih (pos.advanceOver piece.lexeme) hle with
          ⟨tokens, hscan, hscanned⟩ | ⟨failure, hscan, hhalted⟩
        · simp only [hscan]
          cases hk : piece.kind with
          | none => exact .inl ⟨_, rfl, .blank hp hk hscanned⟩
          | some kind => exact .inl ⟨_, rfl, .token hp hk hscanned⟩
        · simp only [hscan]
          exact .inr ⟨_, rfl, .behind hp hhalted⟩

theorem scanned_of_scanFrom {fuel : Nat} {pos : Position} {cs : List Char} {tokens : List Token}
    (h : scanFrom fuel pos cs = .ok tokens) (hfuel : cs.length ≤ fuel) :
    Scanned pos cs tokens := by
  rcases scanFrom_cases pos hfuel with ⟨found, hscan, hscanned⟩ | ⟨failure, hscan, -⟩
  · rw [h] at hscan
    cases hscan
    exact hscanned
  · rw [h] at hscan
    cases hscan

theorem halted_of_scanFrom {fuel : Nat} {pos : Position} {cs : List Char}
    {failure : Located LexicalCause} (h : scanFrom fuel pos cs = .error failure)
    (hfuel : cs.length ≤ fuel) : Halted pos cs failure := by
  rcases scanFrom_cases pos hfuel with ⟨found, hscan, -⟩ | ⟨reported, hscan, hhalted⟩
  · rw [h] at hscan
    cases hscan
  · rw [h] at hscan
    cases hscan
    exact hhalted

/-! ## The judgment -/

/-- Taking pieces from the front of the first text gives the tokens, without their spans, and
leaves the second. -/
inductive Scans : List Char → List Token → List Char → Prop where
  | done {rest : List Char} : Scans rest [] rest
  | blank {c : Char} {cs rest : List Char} {piece : Munch} {ts : List Token} :
    munch c cs = .ok piece → piece.kind = none → Scans piece.rest ts rest →
    Scans (c :: cs) ts rest
  | token {c : Char} {cs rest : List Char} {piece : Munch} {kind : Kind} {ts : List Token} :
    munch c cs = .ok piece → piece.kind = some kind → Scans piece.rest ts rest →
    Scans (c :: cs) (⟨kind, String.ofList piece.lexeme, default⟩ :: ts) rest

namespace Scans

variable {cs ds rest : List Char} {ts us : List Token}

theorem append (h : Scans cs ts ds) (h' : Scans ds us rest) : Scans cs (ts ++ us) rest := by
  induction h with
  | done => exact h'
  | blank hp hk _ ih => exact .blank hp hk (ih h')
  | token hp hk _ ih => exact .token hp hk (ih h')

end Scans

/-- The scanner finds the tokens of the judgment. -/
theorem scanFrom_of_scans {cs rest : List Char} {ts : List Token} (h : Scans cs ts rest)
    (hrest : rest = []) {fuel : Nat} (hfuel : cs.length ≤ fuel) (pos : Position) :
    ∃ tokens stop, scanFrom fuel pos cs = .ok (tokens ++ [finishAt stop]) ∧
      tokens.map Token.unspanned = ts := by
  induction h generalizing fuel pos with
  | done =>
    subst hrest
    refine ⟨[], pos, ?_, rfl⟩
    cases fuel <;> rfl
  | @blank c cs rest piece ts hp hk _ ih =>
    have hlt := length_rest_lt_of_munch hp
    obtain ⟨fuel, rfl⟩ : ∃ k, fuel = k + 1 := ⟨fuel - 1, by rw [List.length_cons] at hfuel; omega⟩
    have hfuel : piece.rest.length ≤ fuel := by omega
    obtain ⟨tokens, stop, hscan, htokens⟩ := ih hrest hfuel (pos.advanceOver piece.lexeme)
    refine ⟨tokens, stop, ?_, htokens⟩
    simp only [scanFrom, hp, hscan, hk]
  | @token c cs rest piece kind ts hp hk _ ih =>
    have hlt := length_rest_lt_of_munch hp
    obtain ⟨fuel, rfl⟩ : ∃ k, fuel = k + 1 := ⟨fuel - 1, by rw [List.length_cons] at hfuel; omega⟩
    have hfuel : piece.rest.length ≤ fuel := by omega
    obtain ⟨tokens, stop, hscan, htokens⟩ := ih hrest hfuel (pos.advanceOver piece.lexeme)
    refine ⟨⟨kind, String.ofList piece.lexeme, ⟨pos, pos.advanceOver piece.lexeme⟩⟩ :: tokens,
      stop, ?_, ?_⟩
    · simp only [scanFrom, hp, hscan, hk, List.cons_append]
    · rw [List.map_cons, htokens]
      rfl

/-- The tokens that the scanner finds are those of the judgment. -/
theorem Scanned.scans {pos : Position} {cs : List Char} {tokens : List Token}
    (h : Scanned pos cs tokens) :
    ∃ ts stop, tokens = ts ++ [finishAt stop] ∧ Scans cs (ts.map Token.unspanned) [] := by
  induction h with
  | finish pos => exact ⟨[], pos, rfl, .done⟩
  | blank hp hk _ ih =>
    obtain ⟨ts, stop, rfl, hts⟩ := ih
    exact ⟨ts, stop, rfl, .blank hp hk hts⟩
  | token hp hk _ ih =>
    obtain ⟨ts, stop, rfl, hts⟩ := ih
    exact ⟨_ :: ts, stop, rfl, .token hp hk hts⟩

theorem scans_of_scanFrom {fuel : Nat} {pos : Position} {cs : List Char} {tokens : List Token}
    (h : scanFrom fuel pos cs = .ok tokens) (hfuel : cs.length ≤ fuel) :
    ∃ ts stop, tokens = ts ++ [finishAt stop] ∧ Scans cs (ts.map Token.unspanned) [] :=
  (scanned_of_scanFrom h hfuel).scans

/-! ## The pieces of a canonical text -/

section

variable {cs rest : List Char} {ts : List Token}

theorem isBlank_of_isAlphanum {c : Char} (h : c.isAlphanum = true) : isBlank c = false := by
  rw [Bool.eq_false_iff]
  intro hblank
  simp only [isBlank, Bool.or_eq_true, beq_iff_eq] at hblank
  rcases hblank with (rfl | rfl) | rfl <;> simp at h

theorem isAlpha_of_isDigit {c : Char} (h : c.isDigit = true) : c.isAlpha = false := by
  have hle : c.val.toNat ≤ 57 :=
    UInt32.le_iff_toNat_le.1 (of_decide_eq_true (Bool.and_eq_true_iff.1 h).2)
  have hupper : c.isUpper = false := by
    refine decide_eq_false fun hc => ?_
    have hge : 65 ≤ c.val.toNat := UInt32.le_iff_toNat_le.1 hc.1
    omega
  have hlower : decide (c.val ≥ 'a'.val) = false := by
    refine decide_eq_false fun hc => ?_
    have hge : 97 ≤ c.val.toNat := UInt32.le_iff_toNat_le.1 hc
    omega
  show (c.isUpper || (decide (c.val ≥ 'a'.val) && _)) = false
  rw [hupper, hlower]
  rfl

theorem scans_blank (h : Scans cs ts rest) : Scans (' ' :: cs) ts rest :=
  .blank (rfl : munch ' ' cs = .ok ⟨none, [' '], cs⟩) rfl h

theorem scans_word {word : List Char} (hword : IsWord word) (hstop : Stops Char.isAlphanum cs)
    (h : Scans cs ts rest) :
    Scans (word ++ cs) (⟨wordKind word, String.ofList word, default⟩ :: ts) rest := by
  obtain ⟨c, hc, halpha⟩ := hword.head
  cases word with
  | nil => cases hc
  | cons d ds =>
    cases hc
    have hblank := isBlank_of_isAlphanum (hword.all c (by simp))
    have hmunch : munch c (ds ++ cs) = .ok ⟨some (wordKind (c :: ds)), c :: ds, cs⟩ := by
      rw [← munchWord_append hword.all hstop]
      simp [munch, hblank, halpha]
    exact .token hmunch rfl h

theorem scans_numeral {numeral : List Char} {l : Literal} (hnumeral : IsNumeral numeral l)
    (hstop : Stops isNumeric cs) (h : Scans cs ts rest) :
    Scans (numeral ++ cs) (⟨.literal l, String.ofList numeral, default⟩ :: ts) rest := by
  obtain ⟨c, hc, hdigit⟩ := head_of_isNumeral hnumeral
  cases numeral with
  | nil => cases hc
  | cons d ds =>
    cases hc
    have hblank := isBlank_of_isAlphanum (c := c) (by simp [Char.isAlphanum, hdigit])
    have hmunch : munch c (ds ++ cs) = .ok ⟨some (.literal l), c :: ds, cs⟩ := by
      rw [← munchNumber_append hnumeral hstop]
      simp [munch, hblank, isAlpha_of_isDigit hdigit, hdigit]
    exact .token hmunch rfl h

theorem scans_quote (value : String) (h : Scans cs ts rest) :
    Scans (quote value ++ cs)
      (⟨.literal (.text value), String.ofList (quote value), default⟩ :: ts) rest := by
  have hmunch : munch '"' (value.toList.flatMap escape ++ '"' :: cs) =
      .ok ⟨some (.literal (.text value)), quote value, cs⟩ := by
    have hread := read_escaped value.toList cs
    simp [munch, munchQuoted, hread, quote, isBlank]
  have := Scans.token hmunch rfl h
  simpa [quote] using this

end

/-! ## Where tokens come from -/

/-- The token was taken as the piece at the front of some text. -/
def Lexed (t : Token) : Prop :=
  ∃ c cs piece, munch c cs = .ok piece ∧ piece.kind = some t.kind ∧
    t.lexeme = String.ofList piece.lexeme

theorem lexed_of_scans {cs rest : List Char} {ts : List Token} (h : Scans cs ts rest) :
    ∀ t ∈ ts, t.Lexed := by
  induction h with
  | done => simp
  | blank hp hk _ ih => exact ih
  | token hp hk _ ih =>
    intro t ht
    rcases List.mem_cons.1 ht with rfl | ht
    · exact ⟨_, _, _, hp, hk, rfl⟩
    · exact ih t ht

/-- Every token but the one for the end of the text was taken as a piece. -/
theorem lexed_of_scanFrom {fuel : Nat} {pos : Position} {cs : List Char} {tokens : List Token}
    (h : scanFrom fuel pos cs = .ok tokens) (hfuel : cs.length ≤ fuel) :
    ∀ t ∈ tokens, t.Lexed ∨ t.kind = .finish := by
  obtain ⟨ts, stop, rfl, hscans⟩ := scans_of_scanFrom h hfuel
  intro t ht
  rcases List.mem_append.1 ht with ht | ht
  · refine .inl ?_
    have hlexed := lexed_of_scans hscans t.unspanned (List.mem_map_of_mem ht)
    exact hlexed
  · rw [List.mem_singleton.1 ht]
    exact .inr rfl

/-- A sign is no identifier and no literal, and does not end the text. -/
theorem sign_of_munchSign {c : Char} {cs : List Char} {piece : Munch} {kind : Kind}
    (h : munchSign c cs = .ok piece) (hk : piece.kind = some kind) :
    kind ≠ .identifier ∧ (∀ l, kind ≠ .literal l) ∧ kind ≠ .finish := by
  unfold munchSign at h
  split at h
  · rename_i lexeme kind' hfind
    cases h
    cases hk
    have hall : ∀ sign ∈ signs,
        sign.2 ≠ .identifier ∧ (∀ l, sign.2 ≠ .literal l) ∧ sign.2 ≠ .finish := by simp [signs]
    exact hall _ (List.mem_of_find?_eq_some hfind)
  · cases h

theorem wordKind_ne_literal (word : List Char) (l : Literal) : wordKind word ≠ .literal l := by
  unfold wordKind
  split <;> simp

theorem isNumeral_munchNumber {c : Char} (cs : List Char) (hc : c.isDigit = true) :
    ∃ l, (munchNumber (c :: cs)).kind = some (.literal l) ∧
      IsNumeral (munchNumber (c :: cs)).lexeme l ∧ ∀ s, l ≠ .text s := by
  have hne : (c :: cs).takeWhile Char.isDigit ≠ [] := by simp [hc]
  have hdigits := List.all_eq_true.1 (List.all_takeWhile (p := Char.isDigit) (l := c :: cs))
  unfold munchNumber
  split
  · rename_i behind _
    have hfraction := List.all_eq_true.1 (List.all_takeWhile (p := Char.isDigit) (l := behind))
    exact ⟨_, rfl, .decimal hne hdigits hfraction, by simp⟩
  · refine ⟨_, rfl, .whole hne hdigits, fun s => ?_⟩
    unfold wholeLiteral
    dsimp only
    split <;> simp

theorem wordKind_ne_finish (word : List Char) : wordKind word ≠ .finish := by
  unfold wordKind
  split <;> simp

/-- No piece of a text marks its end. -/
theorem Lexed.kind_ne_finish {t : Token} (h : t.Lexed) : t.kind ≠ .finish := by
  intro ht
  obtain ⟨c, cs, piece, hmunch, hkind, -⟩ := h
  rw [ht] at hkind
  unfold munch at hmunch
  split at hmunch
  · cases hmunch
    cases hkind
  split at hmunch
  · cases hmunch
    exact wordKind_ne_finish _ (Option.some.inj hkind)
  split at hmunch
  · rename_i hc
    cases hmunch
    obtain ⟨l, hl, -⟩ := isNumeral_munchNumber _ hc
    rw [hl] at hkind
    cases hkind
  split at hmunch
  · unfold munchQuoted at hmunch
    split at hmunch
    · cases hmunch
      cases hkind
    · cases hmunch
  · exact (sign_of_munchSign hmunch hkind).2.2 rfl

/-- An identifier is a word, and none of the keywords. -/
theorem Lexed.identifier {t : Token} (h : t.Lexed) (ht : t.kind = .identifier) :
    IsWord t.lexeme.toList ∧ wordKind t.lexeme.toList = .identifier := by
  obtain ⟨c, cs, piece, hmunch, hkind, hlexeme⟩ := h
  rw [ht] at hkind
  unfold munch at hmunch
  split at hmunch
  · cases hmunch
    cases hkind
  split at hmunch
  · rename_i hc
    cases hmunch
    have hword : t.lexeme.toList = (c :: cs).takeWhile Char.isAlphanum := by
      rw [hlexeme, String.toList_ofList]
      rfl
    rw [hword]
    refine ⟨⟨⟨c, by simp [Char.isAlphanum, hc], hc⟩, ?_⟩, Option.some.inj hkind⟩
    exact List.all_eq_true.1 List.all_takeWhile
  split at hmunch
  · rename_i hc
    cases hmunch
    obtain ⟨l, hl, -⟩ := isNumeral_munchNumber _ hc
    rw [hl] at hkind
    cases hkind
  split at hmunch
  · unfold munchQuoted at hmunch
    split at hmunch
    · cases hmunch
      cases hkind
    · cases hmunch
  · exact absurd rfl (sign_of_munchSign hmunch hkind).1

/-- A number was written as a numeral that stands for it. -/
theorem Lexed.numeral {t : Token} {l : Literal} (h : t.Lexed) (ht : t.kind = .literal l)
    (hl : ∀ s, l ≠ .text s) : IsNumeral t.lexeme.toList l := by
  obtain ⟨c, cs, piece, hmunch, hkind, hlexeme⟩ := h
  rw [ht] at hkind
  rw [hlexeme, String.toList_ofList]
  unfold munch at hmunch
  split at hmunch
  · cases hmunch
    cases hkind
  split at hmunch
  · cases hmunch
    exact absurd (Option.some.inj hkind) (wordKind_ne_literal _ l)
  split at hmunch
  · rename_i hc
    cases hmunch
    obtain ⟨l', hl', hnumeral, -⟩ := isNumeral_munchNumber _ hc
    rw [hl'] at hkind
    cases hkind
    exact hnumeral
  split at hmunch
  · unfold munchQuoted at hmunch
    split at hmunch
    · cases hmunch
      cases hkind
      exact absurd rfl (hl _)
    · cases hmunch
  · exact absurd rfl ((sign_of_munchSign hmunch hkind).2.1 l)

end UniformScript.Token
