import UniformScript.Proofs.Syntax.CanonicalTokens
import UniformScript.Text.Blank
import Mathlib.Data.List.Find

/-!
# Scanning line by line

No piece but a line break itself reaches across a line break that stands behind a whole number of
pieces: a word, a number or a sign ends there, and a quoted text that is closed ends before.  The
same holds of the blanks between tokens.  So the tokens of two texts with a line break between them
are those of the one, a separator, and those of the other.

* `BreaksOff`: what is said of line breaks and blanks.
* `munch_before`: a piece is the same piece with such a character somewhere behind it.
* `scans_join`: the tokens of two texts with a line break between them.
* `separators_of_scans_blank`: a text of blanks has no tokens but separators.
-/

namespace UniformScript.Token

variable {c : Char} {cs ds rest : List Char} {piece : Munch} {ts us : List Token}

/-! ## Pieces -/

/-- The piece with more text behind it. -/
def Munch.before (p : Munch) (ds : List Char) : Munch := { p with rest := p.rest ++ ds }

/-- No word, number or sign goes on with the character. -/
structure BreaksOff (d : Char) : Prop where
  word : d.isAlphanum = false
  number : isNumeric d = false
  sign : ∀ sign ∈ signs, d ∉ sign.1.tail

theorem breaksOff_lineBreak : BreaksOff '\n' := ⟨by decide, by decide, by decide⟩

theorem breaksOff_of_isBlank {d : Char} (h : isBlank d = true) : BreaksOff d := by
  simp only [isBlank, Bool.or_eq_true, beq_iff_eq] at h
  rcases h with (rfl | rfl) | rfl
  · exact ⟨by decide, by decide, by decide⟩
  · exact ⟨by decide, by decide, by decide⟩
  · exact ⟨by decide, by decide, by decide⟩

section

variable {d : Char}

theorem takeWhile_before {test : Char → Bool} (h : test d = false) (cs ds : List Char) :
    (cs ++ d :: ds).takeWhile test = cs.takeWhile test := by
  induction cs with
  | nil => simp [h]
  | cons c cs ih => by_cases hc : test c = true <;> simp [hc, ih]

theorem dropWhile_before {test : Char → Bool} (h : test d = false) (cs ds : List Char) :
    (cs ++ d :: ds).dropWhile test = cs.dropWhile test ++ d :: ds := by
  induction cs with
  | nil => simp [h]
  | cons c cs ih => by_cases hc : test c = true <;> simp [hc, ih]

theorem munchWord_before (hd : BreaksOff d) (cs ds : List Char) :
    munchWord (cs ++ d :: ds) = (munchWord cs).before (d :: ds) := by
  unfold munchWord Munch.before
  rw [takeWhile_before hd.word, dropWhile_before hd.word]

theorem munchNumber_before (hd : BreaksOff d) (cs ds : List Char) :
    munchNumber (cs ++ d :: ds) = (munchNumber cs).before (d :: ds) := by
  obtain ⟨hdigit, hpoint⟩ : d.isDigit = false ∧ d ≠ '.' := by simpa [isNumeric] using hd.number
  unfold munchNumber
  rw [takeWhile_before hdigit, dropWhile_before hdigit]
  cases hrest : cs.dropWhile Char.isDigit with
  | nil =>
    simp only [List.nil_append]
    split
    · rename_i hd
      exact absurd (List.cons.inj hd).1 hpoint
    · rfl
  | cons e rest =>
    by_cases he : e = '.'
    · subst he
      simp only [List.cons_append]
      rw [takeWhile_before hdigit, dropWhile_before hdigit]
      rfl
    · simp only [List.cons_append]
      split
      · rename_i hcons
        exact absurd (List.cons.inj hcons).1 he
      · split
        · rename_i hcons
          exact absurd (List.cons.inj hcons).1 he
        · rfl

theorem read_before {q : Quoted} (h : Quoted.read cs = some q) (ds : List Char) :
    Quoted.read (cs ++ ds) = some { q with rest := q.rest ++ ds } := by
  induction cs using Quoted.read.induct generalizing q with
  | case1 => cases h
  | case2 rest =>
    cases h
    rfl
  | case3 => cases h
  | case4 c cs ih =>
    simp only [Quoted.read, Option.map_eq_some_iff] at h
    obtain ⟨r, hr, rfl⟩ := h
    simp only [List.cons_append, Quoted.read, ih hr, Option.map_some]
    rfl
  | case5 c cs hquote hend hslash ih =>
    rw [Quoted.read] at h
    · simp only [Option.map_eq_some_iff] at h
      obtain ⟨r, hr, rfl⟩ := h
      -- a backslash takes the next character along, and there is one or the text is not closed
      have hplain : c ≠ '\\' := by
        intro hc
        cases cs with
        | nil => exact hend hc rfl
        | cons d cs => exact hslash d cs hc rfl
      rw [List.cons_append, Quoted.read, ih hr]
      · rfl
      · exact hquote
      · exact fun hc _ => hplain hc
      · exact fun _ _ hc _ => hplain hc
    all_goals assumption

/-- No sign goes on across the character. -/
theorem isPrefixOf_before (hd : BreaksOff d) (sign : List Char × Kind) (hsign : sign ∈ signs)
    (c : Char) (cs ds : List Char) :
    sign.1.isPrefixOf (c :: (cs ++ d :: ds)) = sign.1.isPrefixOf (c :: cs) := by
  have hlength : ∀ sign ∈ signs, sign.1.length ≤ 2 := by decide
  have hle := hlength sign hsign
  have htail := hd.sign sign hsign
  obtain ⟨lexeme, kind⟩ := sign
  match lexeme, hle, htail with
  | [], _, _ => rfl
  | [a], _, _ => rfl
  | [a, b], _, htail =>
    have hne : (b == d) = false := beq_false_of_ne fun h => htail (by simp [h])
    cases cs with
    | nil => simp [List.isPrefixOf, hne]
    | cons e cs => rfl

theorem munchSign_before (hd : BreaksOff d) (h : munchSign c cs = .ok piece) (ds : List Char) :
    munchSign c (cs ++ d :: ds) = .ok (piece.before (d :: ds)) := by
  have hfind : (signs.find? fun sign => sign.1.isPrefixOf (c :: (cs ++ d :: ds))) =
      signs.find? fun sign => sign.1.isPrefixOf (c :: cs) :=
    List.find?_congr fun sign hsign => isPrefixOf_before hd sign hsign c cs ds
  unfold munchSign at h ⊢
  rw [hfind]
  cases hfound : signs.find? fun sign => sign.1.isPrefixOf (c :: cs) with
  | none =>
    rw [hfound] at h
    cases h
  | some sign =>
    rw [hfound] at h
    cases h
    have hbegins : sign.1.isPrefixOf (c :: cs) = true :=
      List.find?_some (p := fun s : List Char × Kind => s.1.isPrefixOf (c :: cs)) hfound
    have hprefix := List.isPrefixOf_iff_prefix.1 hbegins
    have hdrop : (c :: cs ++ d :: ds).drop sign.1.length =
        (c :: cs).drop sign.1.length ++ d :: ds :=
      List.drop_append_of_le_length hprefix.length_le
    exact congrArg (fun rest => Except.ok (Munch.mk (some sign.2) sign.1 rest)) hdrop

/-- A piece is the same with a character somewhere behind it that breaks pieces off. -/
theorem munch_before (hd : BreaksOff d) (h : munch c cs = .ok piece) (ds : List Char) :
    munch c (cs ++ d :: ds) = .ok (piece.before (d :: ds)) := by
  unfold munch at h ⊢
  by_cases hblank : isBlank c = true
  · rw [if_pos hblank] at h ⊢
    cases h
    rfl
  rw [if_neg hblank] at h ⊢
  by_cases halpha : c.isAlpha = true
  · rw [if_pos halpha] at h ⊢
    cases h
    exact congrArg Except.ok (munchWord_before hd (c :: cs) ds)
  rw [if_neg halpha] at h ⊢
  by_cases hdigit : c.isDigit = true
  · rw [if_pos hdigit] at h ⊢
    cases h
    exact congrArg Except.ok (munchNumber_before hd (c :: cs) ds)
  rw [if_neg hdigit] at h ⊢
  by_cases hquote : c = '"'
  · rw [if_pos hquote] at h ⊢
    unfold munchQuoted at h ⊢
    cases hread : Quoted.read cs with
    | none =>
      rw [hread] at h
      cases h
    | some q =>
      rw [hread] at h
      cases h
      rw [read_before hread]
      rfl
  · rw [if_neg hquote] at h ⊢
    exact munchSign_before hd h ds

end

/-! ## Texts -/

theorem Scans.before_break (h : Scans cs ts rest) (ds : List Char) :
    Scans (cs ++ '\n' :: ds) ts (rest ++ '\n' :: ds) := by
  induction h with
  | done => exact .done
  | @blank c cs rest piece ts hp hk _ ih =>
    have hmunch := munch_before breaksOff_lineBreak hp ds
    exact .blank hmunch hk ih
  | @token c cs rest piece kind ts hp hk _ ih =>
    have hmunch := munch_before breaksOff_lineBreak hp ds
    have htoken := Scans.token hmunch hk ih
    exact htoken

/-- The tokens of two texts with a line break between them. -/
theorem scans_join (h : Scans cs ts []) (h' : Scans ds us []) :
    Scans (cs ++ '\n' :: ds) (ts ++ lineBreak :: us) [] :=
  (h.before_break ds).append (scans_break h')

theorem toNat_of_isAlpha {c : Char} (h : c.isAlpha = true) : 65 ≤ c.toNat ∧ c.toNat ≤ 122 := by
  rcases Bool.or_eq_true_iff.1 h with hupper | hlower
  · obtain ⟨hlow, hhigh⟩ := of_decide_eq_true hupper
    have hlow : 65 ≤ c.toNat := UInt32.le_iff_toNat_le.1 hlow
    have hhigh : c.toNat ≤ 90 := UInt32.le_iff_toNat_le.1 hhigh
    omega
  · obtain ⟨hlow, hhigh⟩ := Bool.and_eq_true_iff.1 hlower
    have hlow : 97 ≤ c.toNat := UInt32.le_iff_toNat_le.1 (of_decide_eq_true hlow)
    have hhigh : c.toNat ≤ 122 := UInt32.le_iff_toNat_le.1 (of_decide_eq_true hhigh)
    omega

/-- A piece of a text of blanks is a blank or a separator. -/
theorem separator_of_munch_blank (h : munch c cs = .ok piece) (hc : Text.isBlank c = true)
    {kind : Kind} (hkind : piece.kind = some kind) : kind = .separator := by
  have hrange : c.toNat ≤ 32 ∨ 128 ≤ c.toNat := by
    simp only [Text.isBlank, Bool.or_eq_true, Bool.and_eq_true, decide_eq_true_eq,
      beq_iff_eq] at hc
    omega
  unfold munch at h
  split at h
  · cases h
    cases hkind
  split at h
  · rename_i halpha
    obtain ⟨hlow, hhigh⟩ := toNat_of_isAlpha halpha
    omega
  split at h
  · rename_i hdigit
    have hlow : 48 ≤ c.toNat := (Char.isDigit_iff_toNat.1 hdigit).1
    have hhigh : c.toNat ≤ 57 := (Char.isDigit_iff_toNat.1 hdigit).2
    omega
  split at h
  · rename_i hquote
    subst hquote
    exact absurd hrange (by decide)
  -- of all signs only the separators begin with a blank
  have hsigns : ∀ sign ∈ signs, sign.2 = .separator ∨
      ∃ a ∈ sign.1.head?, 32 < a.toNat ∧ a.toNat < 128 := by simp [signs]
  unfold munchSign at h
  split at h
  · rename_i lexeme kind' hfound
    cases h
    cases hkind
    have hbegins : lexeme.isPrefixOf (c :: cs) = true :=
      List.find?_some (p := fun s : List Char × Kind => s.1.isPrefixOf (c :: cs)) hfound
    rcases hsigns _ (List.mem_of_find?_eq_some hfound) with hsep | ⟨a, ha, hlow, hhigh⟩
    · exact hsep
    · cases lexeme with
      | nil => cases ha
      | cons b lexeme =>
        cases ha
        obtain ⟨hb, -⟩ := List.cons_prefix_cons.1 (List.isPrefixOf_iff_prefix.1 hbegins)
        subst hb
        omega
  · cases h

/-- A text of blanks has no tokens but separators. -/
theorem separators_of_scans_blank (h : Scans cs ts rest) (hcs : cs.all Text.isBlank = true) :
    ∀ t ∈ ts, t.kind = .separator := by
  have hrest {c : Char} {cs : List Char} {piece : Munch} (hp : munch c cs = .ok piece)
      (hcs : (c :: cs).all Text.isBlank = true) : piece.rest.all Text.isBlank = true := by
    rw [← lexeme_append_rest_of_munch hp, List.all_append, Bool.and_eq_true] at hcs
    exact hcs.2
  induction h with
  | done => simp
  | blank hp hk _ ih => exact ih (hrest hp hcs)
  | token hp hk _ ih =>
    intro t ht
    rcases List.mem_cons.1 ht with rfl | ht
    · rw [List.all_cons, Bool.and_eq_true] at hcs
      exact separator_of_munch_blank hp hcs.1 hk
    · exact ih (hrest hp hcs) t ht

end UniformScript.Token
