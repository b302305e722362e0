import UniformScript.Failure
import UniformScript.Proofs.Token.Scanning

/-!
# The tokens of a text are its longest pieces

The patterns of the pieces are stated once more, without saying how a piece is found: `IsPiece`.  A
text is munched by taking, again and again, the longest prefix that matches a pattern.  The scanner
finds the tokens of a text just if munching comes to the end of the text, and they are the munched
pieces that are no blanks.  Otherwise munching stops at a place where no pattern matches, and that
is what the scanner reports.

* `isPiece_of_munch`: what the scanner takes matches a pattern.
* `munch_covers`: no longer prefix does.
* `scanFrom_munches`, `Munches.unique`: the two ways of reading a text agree.
* `scan_maximal_munch`: a source is scanned into its longest pieces, or the report is about the
  first place where no pattern matches.
-/

namespace UniformScript.Token

/-! ## Patterns -/

/-- What stands between quotes, and the text that it stands for: neither quotes nor backslashes,
but for backslashes with any character behind each. -/
inductive IsQuoted : List Char → List Char → Prop where
  | nil : IsQuoted [] []
  | plain {c : Char} {inner value : List Char} : c ≠ '"' → c ≠ '\\' → IsQuoted inner value →
    IsQuoted (c :: inner) (c :: value)
  | escaped {inner value : List Char} (c : Char) : IsQuoted inner value →
    IsQuoted ('\\' :: c :: inner) (unescape c :: value)

/-- The patterns of pieces, and the kinds of token that pieces become; a blank becomes none. -/
inductive IsPiece : List Char → Option Kind → Prop where
  | blank {c : Char} : c = ' ' ∨ c = '\t' ∨ c = '\r' → IsPiece [c] none
  | separator {c : Char} : c = '\n' ∨ c = ';' → IsPiece [c] (some .separator)
  | symbol (s : Symbol) : IsPiece s.text.toList (some (.symbol s))
  /-- A keyword that is written as a sign. -/
  | sign {k : Keyword} : k ∈ [.negation, .conjunction, .disjunction] →
    IsPiece k.text.toList (some (.keyword k))
  /-- A word that is written like one of the eleven keywords. -/
  | keyword {k : Keyword} : k ∈ Keyword.words → IsPiece k.text.toList (some (.keyword k))
  /-- Any other word. -/
  | identifier {cs : List Char} : IsWord cs → (∀ k ∈ Keyword.words, k.text.toList ≠ cs) →
    IsPiece cs (some .identifier)
  | number {cs : List Char} {l : Literal} : IsNumeral cs l → IsPiece cs (some (.literal l))
  | quoted {inner value : List Char} : IsQuoted inner value →
    IsPiece ('"' :: (inner ++ ['"'])) (some (.literal (.text (String.ofList value))))

/-- No piece is at the front of the text. -/
def NoPiece (cs : List Char) : Prop := ∀ lexeme kind, IsPiece lexeme kind → ¬ lexeme <+: cs

/-- The longest piece at the front of a text, and what is left behind it. -/
structure Longest (cs lexeme : List Char) (kind : Option Kind) (rest : List Char) : Prop where
  split : lexeme ++ rest = cs
  piece : IsPiece lexeme kind
  longest : ∀ lexeme' kind', IsPiece lexeme' kind' → lexeme' <+: cs →
    lexeme'.length ≤ lexeme.length

/-- Taking the longest piece again and again. -/
inductive Munches : List Char → List (List Char × Option Kind) → List Char → Prop where
  | stop (cs : List Char) : Munches cs [] cs
  | take {cs lexeme rest rest' : List Char} {kind : Option Kind}
    {pieces : List (List Char × Option Kind)} : Longest cs lexeme kind rest →
    Munches rest pieces rest' → Munches cs ((lexeme, kind) :: pieces) rest'

/-- The tokens of pieces that stand one behind the other from a place on, and the end of the text.
-/
def tokensOf (pos : Position) : List (List Char × Option Kind) → List Token
  | [] => [finishAt pos]
  | (lexeme, none) :: pieces => tokensOf (pos.advanceOver lexeme) pieces
  | (lexeme, some kind) :: pieces =>
    ⟨kind, String.ofList lexeme, ⟨pos, pos.advanceOver lexeme⟩⟩ ::
      tokensOf (pos.advanceOver lexeme) pieces

/-! ## What is taken matches a pattern -/

/-- A keyword that is written as a sign begins with no letter. -/
theorem mem_words_of_isWord {k : Keyword} (h : IsWord k.text.toList) : k ∈ Keyword.words := by
  obtain ⟨c, hc, halpha⟩ := h.head
  cases k with
  | negation | conjunction | disjunction =>
    cases hc
    exact absurd halpha (by decide)
  | _ => decide

theorem text_of_ofText? {k : Keyword} {word : List Char}
    (h : Keyword.ofText? (String.ofList word) = some k) : k.text.toList = word := by
  unfold Keyword.ofText? at h
  have htext := List.find?_some h
  rw [eq_of_beq htext, String.toList_ofList]

theorem isPiece_wordKind {word : List Char} (h : IsWord word) :
    IsPiece word (some (wordKind word)) := by
  unfold wordKind
  cases hk : Keyword.ofText? (String.ofList word) with
  | none =>
    refine .identifier h fun k _ htext => ?_
    have hne := List.find?_eq_none.1 hk k (Keyword.mem_all k)
    rw [← htext, String.ofList_toList] at hne
    exact hne (beq_self_eq_true _)
  | some k =>
    obtain rfl := text_of_ofText? hk
    exact .keyword (mem_words_of_isWord h)

theorem isQuoted_of_read {cs : List Char} {q : Quoted} (h : Quoted.read cs = some q) :
    ∃ inner, q.lexeme = inner ++ ['"'] ∧ IsQuoted inner q.value := by
  induction cs using Quoted.read.induct generalizing q with
  | case1 => cases h
  | case2 rest =>
    cases h
    exact ⟨[], rfl, .nil⟩
  | case3 => cases h
  | case4 c cs ih =>
    simp only [Quoted.read, Option.map_eq_some_iff] at h
    obtain ⟨r, hr, rfl⟩ := h
    obtain ⟨inner, hinner, hquoted⟩ := ih hr
    exact ⟨'\\' :: c :: inner, congrArg (['\\', c] ++ ·) hinner, .escaped c hquoted⟩
  | case5 c cs h₁ h₂ h₃ ih =>
    rw [Quoted.read] at h
    · simp only [Option.map_eq_some_iff] at h
      obtain ⟨r, hr, rfl⟩ := h
      obtain ⟨inner, hinner, hquoted⟩ := ih hr
      refine ⟨c :: inner, congrArg ([c] ++ ·) hinner, .plain h₁ (fun hc => ?_) hquoted⟩
      cases cs with
      | nil => exact h₂ hc rfl
      | cons d ds => exact h₃ d ds hc rfl
    all_goals assumption

theorem isPiece_of_mem_signs : ∀ sign ∈ signs, IsPiece sign.1 (some sign.2) := by
  simp only [signs, List.forall_mem_cons]
  exact ⟨.symbol .arrow, .symbol .equal, .symbol .unequal, .symbol .lessEqual,
    .symbol .greaterEqual, .separator (.inl rfl), .separator (.inr rfl), .symbol .plus,
    .symbol .minus, .symbol .times, .symbol .divide, .symbol .power, .symbol .less,
    .symbol .greater, .symbol .leftParen, .symbol .rightParen, .symbol .leftBracket,
    .symbol .rightBracket, .symbol .comma, .sign (k := .negation) (by decide),
    .sign (k := .conjunction) (by decide), .sign (k := .disjunction) (by decide),
    List.forall_mem_nil _⟩

/-- What the scanner takes matches a pattern. -/
theorem isPiece_of_munch {c : Char} {cs : List Char} {piece : Munch}
    (h : munch c cs = .ok piece) : IsPiece piece.lexeme piece.kind := by
  unfold munch at h
  split at h
  · rename_i hblank
    cases h
    simp only [isBlank, Bool.or_eq_true, beq_iff_eq] at hblank
    rcases hblank with (hc | hc) | hc
    · exact .blank (.inl hc)
    · exact .blank (.inr (.inr hc))
    · exact .blank (.inr (.inl hc))
  split at h
  · rename_i halpha
    cases h
    refine isPiece_wordKind ⟨⟨c, ?_, halpha⟩, List.all_eq_true.1 List.all_takeWhile⟩
    simp [munchWord, Char.isAlphanum, halpha]
  split at h
  · rename_i hdigit
    cases h
    obtain ⟨l, hl, hnumeral, -⟩ := isNumeral_munchNumber cs hdigit
    rw [hl]
    exact .number hnumeral
  split at h
  · unfold munchQuoted at h
    split at h
    · rename_i q hq
      cases h
      obtain ⟨inner, hinner, hquoted⟩ := isQuoted_of_read hq
      show IsPiece ('"' :: q.lexeme) _
      rw [hinner]
      exact .quoted hquoted
    · cases h
  · unfold munchSign at h
    split at h
    · rename_i lexeme kind hfind
      cases h
      exact isPiece_of_mem_signs _ (List.mem_of_find?_eq_some hfind)
    · cases h

/-! ## No longer prefix matches -/

/-- Where a piece of a kind is at the front of a text, one that is as long or longer is taken, and
if it is as long, it is of that kind. -/
def Covers (c : Char) (cs lexeme : List Char) (kind : Option Kind) : Prop :=
  ∃ piece, munch c cs = .ok piece ∧ lexeme.length ≤ piece.lexeme.length ∧
    (lexeme = piece.lexeme → kind = piece.kind)

theorem wordKind_identifier {word : List Char} (h : IsWord word)
    (hne : ∀ k ∈ Keyword.words, k.text.toList ≠ word) : wordKind word = .identifier := by
  unfold wordKind
  cases hk : Keyword.ofText? (String.ofList word) with
  | none => rfl
  | some k =>
    have hword := text_of_ofText? hk
    exact absurd hword (hne k (mem_words_of_isWord (hword ▸ h)))

/-- A prefix of characters that satisfy a test is not longer than the longest one. -/
theorem length_le_takeWhile {test : Char → Bool} {word : List Char} (rest : List Char)
    (h : ∀ c ∈ word, test c = true) : word.length ≤ ((word ++ rest).takeWhile test).length := by
  rw [List.takeWhile_append_of_pos h, List.length_append]
  exact Nat.le_add_right _ _

theorem eq_of_mem_head? {c d : Char} {cs lexeme rest : List Char} (hd : d ∈ lexeme.head?)
    (hsplit : lexeme ++ rest = c :: cs) : d = c := by
  cases lexeme with
  | nil => cases hd
  | cons e es =>
    cases hd
    exact (List.cons.inj hsplit).1

theorem covers_word {c : Char} {cs word rest : List Char} (h : IsWord word)
    (hsplit : word ++ rest = c :: cs) : Covers c cs word (some (wordKind word)) := by
  obtain ⟨d, hd, halpha⟩ := h.head
  obtain rfl := eq_of_mem_head? hd hsplit
  have hblank := isBlank_of_isAlphanum (h.all d (List.mem_of_mem_head? hd))
  refine ⟨munchWord (d :: cs), ?_, ?_, fun hword => ?_⟩
  · simp [munch, hblank, halpha]
  · rw [← hsplit]
    exact length_le_takeWhile _ h.all
  · exact congrArg (fun w => some (wordKind w)) hword

theorem munchNumber_covers {numeral : List Char} {l : Literal} (h : IsNumeral numeral l)
    (rest : List Char) :
    numeral.length ≤ (munchNumber (numeral ++ rest)).lexeme.length ∧
      (numeral = (munchNumber (numeral ++ rest)).lexeme →
        some (.literal l) = (munchNumber (numeral ++ rest)).kind) := by
  cases h with
  | whole hne hdigits =>
    have hle := length_le_takeWhile rest hdigits
    unfold munchNumber
    split
    · refine ⟨?_, fun heq => ?_⟩
      · simp only [List.length_append]
        omega
      · have hlength := congrArg List.length heq
        simp only [List.length_append, List.length_cons] at hlength
        omega
    · refine ⟨hle, fun heq => ?_⟩
      dsimp only at heq ⊢
      rw [← heq]
  | @decimal digits fraction hne hdigits hfraction =>
    have hpoint : Stops Char.isDigit ('.' :: (fraction ++ rest)) := fun c hc => by
      cases hc
      decide
    have hnumber : munchNumber (digits ++ '.' :: fraction ++ rest) =
        ⟨some (.literal (.decimal (Decimal.ofDigits digits
            ((fraction ++ rest).takeWhile Char.isDigit)))),
          digits ++ '.' :: (fraction ++ rest).takeWhile Char.isDigit,
          (fraction ++ rest).dropWhile Char.isDigit⟩ := by
      unfold munchNumber
      rw [List.append_assoc, List.cons_append, takeWhile_append_of_stops hdigits hpoint,
        dropWhile_append_of_stops hdigits hpoint]
      rfl
    have hle := length_le_takeWhile rest hfraction
    rw [hnumber]
    refine ⟨?_, fun heq => ?_⟩
    · simp only [List.length_append, List.length_cons]
      omega
    · have hsame := (List.cons.inj (List.append_cancel_left heq)).2
      dsimp only
      rw [← hsame]

theorem covers_number {c : Char} {cs numeral rest : List Char} {l : Literal}
    (h : IsNumeral numeral l) (hsplit : numeral ++ rest = c :: cs) :
    Covers c cs numeral (some (.literal l)) := by
  obtain ⟨d, hd, hdigit⟩ := head_of_isNumeral h
  obtain rfl := eq_of_mem_head? hd hsplit
  have hblank := isBlank_of_isAlphanum (c := d) (by simp [Char.isAlphanum, hdigit])
  obtain ⟨hle, hkind⟩ := munchNumber_covers h rest
  rw [hsplit] at hle hkind
  refine ⟨munchNumber (d :: cs), ?_, hle, hkind⟩
  simp [munch, hblank, isAlpha_of_isDigit hdigit, hdigit]

theorem read_of_isQuoted {inner value : List Char} (h : IsQuoted inner value) (rest : List Char) :
    Quoted.read (inner ++ '"' :: rest) = some ⟨value, inner ++ ['"'], rest⟩ := by
  induction h with
  | nil => rfl
  | plain hquote hslash _ ih => simp [Quoted.read, hslash, ih, Quoted.behind]
  | escaped c _ ih => simp [Quoted.read, ih, Quoted.behind]

theorem covers_quoted {c : Char} {cs inner value rest : List Char} (h : IsQuoted inner value)
    (hsplit : '"' :: (inner ++ ['"']) ++ rest = c :: cs) :
    Covers c cs ('"' :: (inner ++ ['"'])) (some (.literal (.text (String.ofList value)))) := by
  obtain ⟨rfl, rfl⟩ := List.cons.inj hsplit
  have hread := read_of_isQuoted h rest
  refine ⟨⟨some (.literal (.text (String.ofList value))), '"' :: (inner ++ ['"']), rest⟩, ?_,
    Nat.le_refl _, fun _ => rfl⟩
  simp [munch, munchQuoted, hread, isBlank]

/-- No sign is at the front of one that stands behind it in the list. -/
theorem pairwise_signs : signs.Pairwise fun sign sign' => ¬ sign.1 <+: sign'.1 := by decide

/-- No sign begins like a piece of another pattern. -/
theorem head_of_mem_signs {sign : List Char × Kind} (h : sign ∈ signs) {c : Char} {cs : List Char}
    (hhead : sign.1 = c :: cs) :
    isBlank c = false ∧ c.isAlpha = false ∧ c.isDigit = false ∧ c ≠ '"' := by
  have hall : (signs.all fun sign => sign.1.head?.all fun c =>
      !(isBlank c || c.isAlpha || c.isDigit || c == '"')) = true := by decide
  have hsign := List.all_eq_true.1 hall sign h
  rw [hhead] at hsign
  simpa [and_assoc] using hsign

theorem munch_of_mem_signs {c : Char} {cs lexeme rest : List Char} {kind : Kind}
    (h : (lexeme, kind) ∈ signs) (hsplit : lexeme ++ rest = c :: cs) :
    munch c cs = munchSign c cs := by
  have hne : lexeme ≠ [] := by
    have hall : ∀ sign ∈ signs, sign.1 ≠ [] := by decide
    exact hall _ h
  obtain ⟨d, ds, rfl⟩ := List.exists_cons_of_ne_nil hne
  obtain ⟨hblank, halpha, hdigit, hquote⟩ := head_of_mem_signs h rfl
  obtain rfl := (List.cons.inj hsplit).1
  simp [munch, hblank, halpha, hdigit, hquote]

theorem covers_sign {c : Char} {cs lexeme rest : List Char} {kind : Kind}
    (h : (lexeme, kind) ∈ signs) (hsplit : lexeme ++ rest = c :: cs) :
    Covers c cs lexeme (some kind) := by
  have hfront : lexeme.isPrefixOf (c :: cs) = true :=
    List.isPrefixOf_iff_prefix.2 ⟨rest, hsplit⟩
  unfold Covers
  rw [munch_of_mem_signs h hsplit]
  unfold munchSign
  cases hfind : signs.find? fun sign => sign.1.isPrefixOf (c :: cs) with
  | none => exact absurd hfront (List.find?_eq_none.1 hfind _ h)
  | some found =>
    obtain ⟨lexeme', kind'⟩ := found
    obtain ⟨hfound, before, behind, hsigns, hbefore⟩ := List.find?_eq_some_iff_append.1 hfind
    have hlonger : (lexeme, kind) = (lexeme', kind') ∨ lexeme.length < lexeme'.length := by
      have hpairwise := pairwise_signs
      rw [hsigns] at h hpairwise
      rcases List.mem_append.1 h with h | h
      · have hnot := hbefore _ h
        rw [hfront] at hnot
        cases hnot
      rcases List.mem_cons.1 h with h | h
      · exact .inl h
      · -- The sign stands behind the one that is found, which would be at its front otherwise.
        refine .inr (Nat.lt_of_not_le fun hle => ?_)
        have hnot := List.rel_of_pairwise_cons (List.pairwise_append.1 hpairwise).2.1 h
        exact hnot (List.prefix_of_prefix_length_le (List.isPrefixOf_iff_prefix.1 hfound)
          ⟨rest, hsplit⟩ hle)
    refine ⟨_, rfl, ?_, fun heq => ?_⟩
    · rcases hlonger with heq | hlt
      · exact Nat.le_of_eq (congrArg (fun sign => sign.1.length) heq)
      · exact Nat.le_of_lt hlt
    · rcases hlonger with heq' | hlt
      · exact congrArg (fun sign => some sign.2) heq'
      · exact absurd (congrArg List.length heq) (Nat.ne_of_lt hlt)

theorem mem_signs_symbol (s : Symbol) : (s.text.toList, Kind.symbol s) ∈ signs := by
  cases s <;> simp [signs, Symbol.text]

theorem mem_signs_keyword {k : Keyword} (hk : k ∈ [.negation, .conjunction, .disjunction]) :
    (k.text.toList, Kind.keyword k) ∈ signs := by
  cases k <;> first | exact absurd hk (by decide) | simp [signs, Keyword.text]

/-- No longer prefix of a text matches a pattern than the piece that is taken. -/
theorem munch_covers {c : Char} {cs lexeme rest : List Char} {kind : Option Kind}
    (h : IsPiece lexeme kind) (hsplit : lexeme ++ rest = c :: cs) : Covers c cs lexeme kind := by
  cases h with
  | @blank d hd =>
    obtain ⟨rfl, rfl⟩ := List.cons.inj hsplit
    refine ⟨⟨none, [d], rest⟩, ?_, Nat.le_refl _, fun _ => rfl⟩
    rcases hd with rfl | rfl | rfl <;> rfl
  | separator hd =>
    refine covers_sign ?_ hsplit
    rcases hd with rfl | rfl <;> simp [signs]
  | symbol s => exact covers_sign (mem_signs_symbol s) hsplit
  | sign hk => exact covers_sign (mem_signs_keyword hk) hsplit
  | keyword hk =>
    have hcovers := covers_word (isWord_keyword hk) hsplit
    rwa [wordKind_keyword hk] at hcovers
  | identifier hword hne =>
    have hcovers := covers_word hword hsplit
    rwa [wordKind_identifier hword hne] at hcovers
  | number hnumeral => exact covers_number hnumeral hsplit
  | quoted hquoted => exact covers_quoted hquoted hsplit

/-! ## The longest piece -/

theorem IsPiece.ne_nil {lexeme : List Char} {kind : Option Kind} (h : IsPiece lexeme kind) :
    lexeme ≠ [] := by
  have hsigns : ∀ sign ∈ signs, sign.1 ≠ [] := by decide
  have hhead {test : Char → Bool} {cs : List Char} (h : ∃ c ∈ cs.head?, test c = true) :
      cs ≠ [] := by
    rintro rfl
    obtain ⟨c, hc, -⟩ := h
    cases hc
  cases h with
  | blank | separator | quoted => exact List.cons_ne_nil _ _
  | symbol s => exact hsigns _ (mem_signs_symbol s)
  | sign hk => exact hsigns _ (mem_signs_keyword hk)
  | keyword hk => exact hhead (isWord_keyword hk).head
  | identifier hword _ => exact hhead hword.head
  | number hnumeral => exact hhead (head_of_isNumeral hnumeral)

theorem noPiece_nil : NoPiece [] := fun _ _ h hfront => h.ne_nil (List.prefix_nil.1 hfront)

/-- Where nothing is taken, no pattern matches. -/
theorem noPiece_of_munch {c : Char} {cs : List Char} {cause : LexicalCause}
    (h : munch c cs = .error cause) : NoPiece (c :: cs) := by
  rintro lexeme kind hpiece ⟨rest, hsplit⟩
  obtain ⟨piece, hmunch, -⟩ := munch_covers hpiece hsplit
  rw [h] at hmunch
  cases hmunch

/-- What is taken is the longest piece. -/
theorem longest_of_munch {c : Char} {cs : List Char} {piece : Munch}
    (h : munch c cs = .ok piece) : Longest (c :: cs) piece.lexeme piece.kind piece.rest where
  split := lexeme_append_rest_of_munch h
  piece := isPiece_of_munch h
  longest := by
    rintro lexeme kind hpiece ⟨rest, hsplit⟩
    obtain ⟨piece', hmunch, hle, -⟩ := munch_covers hpiece hsplit
    rw [h] at hmunch
    cases hmunch
    exact hle

/-- The longest piece is what is taken. -/
theorem Longest.munch_eq {c : Char} {cs lexeme rest : List Char} {kind : Option Kind}
    (h : Longest (c :: cs) lexeme kind rest) : munch c cs = .ok ⟨kind, lexeme, rest⟩ := by
  obtain ⟨piece, hmunch, hle, hkind⟩ := munch_covers h.piece h.split
  have hsplit := lexeme_append_rest_of_munch hmunch
  have hge := h.longest _ _ (isPiece_of_munch hmunch) ⟨_, hsplit⟩
  obtain ⟨rfl, rfl⟩ := List.append_inj (h.split.trans hsplit.symm) (Nat.le_antisymm hle hge)
  rw [hmunch, hkind rfl]

/-- A text has no two longest pieces. -/
theorem Longest.unique {cs lexeme lexeme' rest rest' : List Char} {kind kind' : Option Kind}
    (h : Longest cs lexeme kind rest) (h' : Longest cs lexeme' kind' rest') :
    lexeme = lexeme' ∧ kind = kind' ∧ rest = rest' := by
  cases cs with
  | nil => exact absurd (List.append_eq_nil_iff.1 h.split).1 h.piece.ne_nil
  | cons c cs =>
    have hmunch := h.munch_eq
    rw [h'.munch_eq] at hmunch
    cases hmunch
    exact ⟨rfl, rfl, rfl⟩

/-- There is only one way to munch a text until no piece is left. -/
theorem Munches.unique {cs rest rest' : List Char}
    {pieces pieces' : List (List Char × Option Kind)} (h : Munches cs pieces rest)
    (hrest : NoPiece rest) (h' : Munches cs pieces' rest') (hrest' : NoPiece rest') :
    pieces = pieces' ∧ rest = rest' := by
  induction h generalizing pieces' with
  | stop cs =>
    cases h' with
    | stop => exact ⟨rfl, rfl⟩
    | take hlongest _ => exact absurd ⟨_, hlongest.split⟩ (hrest _ _ hlongest.piece)
  | take hlongest _ ih =>
    cases h' with
    | stop => exact absurd ⟨_, hlongest.split⟩ (hrest' _ _ hlongest.piece)
    | take hlongest' hmunches' =>
      obtain ⟨rfl, rfl, rfl⟩ := hlongest.unique hlongest'
      obtain ⟨rfl, rfl⟩ := ih hrest hmunches'
      exact ⟨rfl, rfl⟩

/-! ## Scanning is munching -/

/-- The characters of pieces. -/
def charsOf (pieces : List (List Char × Option Kind)) : List Char := pieces.flatMap Prod.fst

theorem Munches.charsOf_append {cs rest : List Char} {pieces : List (List Char × Option Kind)}
    (h : Munches cs pieces rest) : charsOf pieces ++ rest = cs := by
  induction h with
  | stop cs => rfl
  | take hlongest _ ih =>
    rw [← hlongest.split, ← ih]
    simp [charsOf, List.append_assoc]

/-- A scanner that comes to the end of a text has munched it. -/
theorem Scanned.munches {pos : Position} {cs : List Char} {tokens : List Token}
    (h : Scanned pos cs tokens) :
    ∃ pieces, Munches cs pieces [] ∧ tokens = tokensOf pos pieces := by
  induction h with
  | finish pos => exact ⟨[], .stop [], rfl⟩
  | blank hp hk _ ih =>
    obtain ⟨pieces, hmunches, rfl⟩ := ih
    refine ⟨_, .take (longest_of_munch hp) hmunches, ?_⟩
    rw [hk]
    rfl
  | token hp hk _ ih =>
    obtain ⟨pieces, hmunches, rfl⟩ := ih
    refine ⟨_, .take (longest_of_munch hp) hmunches, ?_⟩
    rw [hk]
    rfl

/-- A scanner that halts has munched the text in front of the place. -/
theorem Halted.munches {pos : Position} {cs : List Char} {failure : Located LexicalCause}
    (h : Halted pos cs failure) :
    ∃ pieces c cs' cause, Munches cs pieces (c :: cs') ∧ munch c cs' = .error cause ∧
      failure = ⟨cause, causeSpan (pos.advanceOver (charsOf pieces)) c cs' cause⟩ := by
  induction h with
  | @here pos c cs cause hnone => exact ⟨[], c, cs, cause, .stop _, hnone, rfl⟩
  | behind hp _ ih =>
    obtain ⟨pieces, d, ds, cause, hmunches, hnone, rfl⟩ := ih
    refine ⟨_, d, ds, cause, .take (longest_of_munch hp) hmunches, hnone, ?_⟩
    simp only [charsOf, List.flatMap_cons, Position.advanceOver_append]

/-- The scanner munches to the end of a text, or reports the place where it takes nothing. -/
theorem scanFrom_munches (fuel : Nat) (pos : Position) {cs : List Char}
    (hfuel : cs.length ≤ fuel) :
    (∃ pieces, Munches cs pieces [] ∧ scanFrom fuel pos cs = .ok (tokensOf pos pieces)) ∨
    ∃ pieces c cs' cause, Munches cs pieces (c :: cs') ∧ munch c cs' = .error cause ∧
      scanFrom fuel pos cs =
        .error ⟨cause, causeSpan (pos.advanceOver (charsOf pieces)) c cs' cause⟩ := by
  rcases scanFrom_cases pos hfuel with ⟨tokens, hscan, hscanned⟩ | ⟨failure, hscan, hhalted⟩
  · obtain ⟨pieces, hmunches, rfl⟩ := hscanned.munches
    exact .inl ⟨pieces, hmunches, hscan⟩
  · obtain ⟨pieces, c, cs', cause, hmunches, hnone, rfl⟩ := hhalted.munches
    exact .inr ⟨pieces, c, cs', cause, hmunches, hnone, hscan⟩

/-- Why nothing is taken, by the first character. -/
theorem cause_of_munch {c : Char} {cs : List Char} {cause : LexicalCause}
    (h : munch c cs = .error cause) :
    cause = if c = '"' then .unclosedQuote else signCause c := by
  unfold munch at h
  split at h
  · cases h
  split at h
  · cases h
  split at h
  · cases h
  split at h
  · rename_i hc
    unfold munchQuoted at h
    split at h
    · cases h
    · cases h
      rw [if_pos hc]
  · rename_i hc
    unfold munchSign at h
    split at h
    · cases h
    · cases h
      rw [if_neg hc]

/-- What the scanner reports where it takes nothing. -/
theorem report_of_munch {c : Char} {cs : List Char} {cause : LexicalCause} (pos : Position)
    (h : munch c cs = .error cause) :
    cause.kind = (if c = '=' ∨ c = '!' ∨ c = '"' then .expectedCharacter else .illegalCharacter) ∧
      causeSpan pos c cs cause =
        if c = '"' then Span.column (pos.advanceOver (c :: cs))
        else ⟨pos, pos.advance (some c)⟩ := by
  rw [cause_of_munch h]
  by_cases hquote : c = '"'
  · subst hquote
    exact ⟨rfl, rfl⟩
  · rw [if_neg hquote, if_neg hquote]
    unfold signCause
    by_cases hequal : c = '='
    · subst hequal
      exact ⟨rfl, rfl⟩
    by_cases hbang : c = '!'
    · subst hbang
      exact ⟨rfl, rfl⟩
    · simp only [hequal, hbang, hquote, if_false, or_self]
      exact ⟨rfl, rfl⟩

/-- The scanner is the tokenizer that takes the longest pieces.  It has tokens for a source just if
taking the longest piece again and again comes to the end of the text, and they are those pieces
that are no blanks, with the token for the end behind them.  Otherwise the pieces come to a place
where no pattern matches.  A lone `=` or `!` is reported there as a character that is not the one
expected; a quote that is never closed, at the end of the text; and any other character there as
illegal. -/
theorem scan_maximal_munch (source : Source) :
    (∀ tokens, scan source = .ok tokens ↔ ∃ pieces, Munches source.text.toList pieces [] ∧
      tokens = tokensOf (Position.start source) pieces) ∧
    ∀ failure, scan source = .error failure → ∃ pieces c cs,
      Munches source.text.toList pieces (c :: cs) ∧ NoPiece (c :: cs) ∧
        let place := (Position.start source).advanceOver (charsOf pieces)
        place.index = (charsOf pieces).length ∧
        failure.cause.kind = (if c = '=' ∨ c = '!' ∨ c = '"' then .expectedCharacter
          else .illegalCharacter) ∧
        failure.span = if c = '"'
          then Span.column ((Position.start source).advanceOver source.text.toList)
          else ⟨place, place.advance (some c)⟩ := by
  unfold scan
  rcases scanFrom_munches source.text.toList.length (Position.start source) (Nat.le_refl _) with
    ⟨pieces, hmunches, hscan⟩ | ⟨pieces, c, cs, cause, hmunches, hnone, hscan⟩
  · rw [hscan]
    refine ⟨fun tokens => ⟨?_, ?_⟩, nofun⟩
    · rintro ⟨⟩
      exact ⟨pieces, hmunches, rfl⟩
    · rintro ⟨pieces', hmunches', rfl⟩
      obtain ⟨rfl, -⟩ := hmunches.unique noPiece_nil hmunches' noPiece_nil
      rfl
  · rw [hscan]
    refine ⟨fun tokens => ⟨nofun, ?_⟩, ?_⟩
    · rintro ⟨pieces', hmunches', -⟩
      obtain ⟨-, hrest⟩ := hmunches.unique (noPiece_of_munch hnone) hmunches' noPiece_nil
      cases hrest
    · rintro failure ⟨⟩
      obtain ⟨hkind, hspan⟩ :=
        report_of_munch ((Position.start source).advanceOver (charsOf pieces)) hnone
      refine ⟨pieces, c, cs, hmunches, noPiece_of_munch hnone, ?_, hkind, ?_⟩
      · rw [Position.index_advanceOver]
        exact Nat.zero_add _
      · rw [← hmunches.charsOf_append, Position.advanceOver_append]
        exact hspan

/-- A word that begins like a keyword, a sign of two characters, and an equals sign that is
reported because the next character does not go with it. -/
theorem scan_maximal_munch_lone_equal :
    let source : Source := ⟨"<stdin>", "iffy<==!"⟩
    ∃ failure pieces c cs, scan source = .error failure ∧
      Munches source.text.toList pieces (c :: cs) ∧ NoPiece (c :: cs) ∧
      (charsOf pieces).length = 6 ∧ failure.cause.kind = .expectedCharacter ∧
      failure.span.stop.index = 7 := by
  intro source
  let place : Span := ⟨⟨source, 6, 0, 6⟩, ⟨source, 7, 0, 7⟩⟩
  have hreport : (((scan source).map fun _ => none).tryCatch fun failure =>
      .ok (some (failure.cause, failure.span))).toOption = some (some (.loneEqual, place)) := by
    decide +kernel
  have hscan : scan source = .error ⟨.loneEqual, place⟩ := by
    generalize scan source = result at hreport
    rcases result with ⟨cause, span⟩ | tokens
    · obtain ⟨rfl, rfl⟩ := Prod.mk.inj (Option.some.inj (Option.some.inj hreport))
      rfl
    · cases hreport
  obtain ⟨pieces, c, cs, hmunches, hnone, hindex, hkind, hspan⟩ :=
    (scan_maximal_munch source).2 _ hscan
  refine ⟨_, pieces, c, cs, hscan, hmunches, hnone, ?_, rfl, rfl⟩
  by_cases hquote : c = '"'
  · -- The text ends two characters behind the place of the report.
    rw [if_pos hquote] at hspan
    exact absurd (congrArg (fun span => span.start.index) hspan) (by decide)
  · rw [if_neg hquote] at hspan
    rw [← hindex]
    exact congrArg (fun span => span.start.index) hspan.symm

end UniformScript.Token
