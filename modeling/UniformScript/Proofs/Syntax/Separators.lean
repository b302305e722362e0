import UniformScript.Proofs.Syntax.ErrorPlace

/-!
# Runs of separators

How many separators stand in a run carries no information, and neither do separators in front of a
program or behind it.  Two texts that differ in nothing else are read in step: the reading
functions take the same tokens of both, and pass a run of separators of the one where they pass a
run of the other.  Only in front of the end of a text one of them may pass separators where the
other passes none, and there no statement and no expression is read.

* `Respaced`: tokens that differ in runs of separators.
* `Near`: cursors in front of such tokens, and `Alike`: the answers of a step there.
* `Alike.bind`, `Near.accept`, `Near.acceptSeparator` and the like: steps that are alike.
* `alike_read`: every reading function answers alike.
* `parse_respaced`: either text is a program just if the other one is, and then the same one.
-/

namespace UniformScript

theorem Token.kind_eq {t u : Token} (h : u.unspanned = t.unspanned) : u.kind = t.kind :=
  (Token.mk.inj h).1

namespace Syntax

open Parse Cursor Filter

/-! ## Tokens with other separators -/

theorem dropWhile_separators {seps : List Token} (hseps : ∀ s ∈ seps, s.kind = .separator)
    (ts : List Token) :
    (seps ++ ts).dropWhile (·.kind.isSeparator) = ts.dropWhile (·.kind.isSeparator) :=
  List.dropWhile_append_of_pos fun s hs => Kind.isSeparator_iff.2 (hseps s hs)

/-- Two texts, each with the token that marks its end, that differ only in the spans of their
tokens, in the lengths of runs of separators, and in separators in front of the end. -/
inductive Respaced : List Token → List Token → Prop where
  /-- A token that is no separator. -/
  | token {t u : Token} {ts us : List Token} (hkind : t.kind ≠ .separator)
    (hsame : u.unspanned = t.unspanned) (rest : Respaced ts us) : Respaced (t :: ts) (u :: us)
  /-- A run of separators. -/
  | run {seps seps' ts us : List Token} (hne : seps ≠ []) (hne' : seps' ≠ [])
    (hseps : ∀ s ∈ seps, s.kind = .separator) (hseps' : ∀ s ∈ seps', s.kind = .separator)
    (rest : Respaced ts us) : Respaced (seps ++ ts) (seps' ++ us)
  /-- The end of the text, with any separators in front of it. -/
  | finish {seps seps' : List Token} {last last' : Token}
    (hseps : ∀ s ∈ seps, s.kind = .separator) (hseps' : ∀ s ∈ seps', s.kind = .separator)
    (hlast : last.kind = .finish) (hlast' : last'.kind = .finish) :
    Respaced (seps ++ [last]) (seps' ++ [last'])

namespace Respaced

variable {ts us : List Token}

theorem symm (h : Respaced ts us) : Respaced us ts := by
  induction h with
  | token hkind hsame _ ih => exact .token (by rwa [Token.kind_eq hsame]) hsame.symm ih
  | run hne hne' hseps hseps' _ ih => exact .run hne' hne hseps' hseps ih
  | finish hseps hseps' hlast hlast' => exact .finish hseps' hseps hlast' hlast

theorem unspanned (h : Respaced ts us) :
    Respaced (ts.map Token.unspanned) (us.map Token.unspanned) := by
  have hmap {seps : List Token} (hseps : ∀ s ∈ seps, s.kind = .separator) :
      ∀ s ∈ seps.map Token.unspanned, s.kind = .separator := by
    intro s hs
    obtain ⟨r, hr, rfl⟩ := List.mem_map.1 hs
    exact hseps r hr
  induction h with
  | token hkind hsame _ ih => exact .token hkind (congrArg Token.unspanned hsame) ih
  | run hne hne' hseps hseps' _ ih =>
    rw [List.map_append, List.map_append]
    exact .run (by simpa using hne) (by simpa using hne') (hmap hseps) (hmap hseps') ih
  | finish hseps hseps' hlast hlast' =>
    rw [List.map_append, List.map_append]
    exact .finish (hmap hseps) (hmap hseps') hlast hlast'

/-- Behind the separators that both begin with. -/
theorem dropWhile (h : Respaced ts us) :
    Respaced (ts.dropWhile (·.kind.isSeparator)) (us.dropWhile (·.kind.isSeparator)) := by
  induction h with
  | @token t u ts us hkind hsame rest _ =>
    rw [List.dropWhile_cons_of_neg (by simpa using hkind),
      List.dropWhile_cons_of_neg (by simpa [Token.kind_eq hsame] using hkind)]
    exact .token hkind hsame rest
  | run hne hne' hseps hseps' _ ih =>
    rwa [dropWhile_separators hseps, dropWhile_separators hseps']
  | finish hseps hseps' hlast hlast' =>
    rw [dropWhile_separators hseps, dropWhile_separators hseps',
      List.dropWhile_cons_of_neg (by simp [hlast]), List.dropWhile_cons_of_neg (by simp [hlast'])]
    show Respaced ([] ++ [_]) ([] ++ [_])
    exact .finish nofun nofun hlast hlast'

end Respaced

theorem Cursor.rest_skipped (c : Cursor) :
    c.skipped.rest = c.rest.dropWhile (·.kind.isSeparator) := by
  obtain ⟨previous, rest⟩ := c
  show (behindSeparators previous rest).rest = _
  induction rest generalizing previous with
  | nil => rfl
  | cons t ts ih =>
    unfold behindSeparators
    split
    · rename_i ht
      rw [List.dropWhile_cons_of_pos (by simp [ht])]
      exact ih t
    · rename_i ht
      rw [List.dropWhile_cons_of_neg (by simpa using ht)]

/-- Behind separators that the end of the text follows, it is next. -/
theorem kind_skipped_of_finish {p last : Token} {seps : List Token}
    (hseps : ∀ s ∈ seps, s.kind = .separator) (hlast : last.kind = .finish) :
    (⟨p, seps ++ [last]⟩ : Cursor).skipped.kind = .finish := by
  have hrest : (⟨p, seps ++ [last]⟩ : Cursor).skipped.rest = [last] := by
    rw [Cursor.rest_skipped, dropWhile_separators hseps,
      List.dropWhile_cons_of_neg (by simp [hlast])]
  unfold Cursor.kind
  rw [hrest]
  exact hlast

/-! ## Cursors and answers -/

/-- Two cursors, with no spans, in front of tokens that differ only in separators. -/
structure Near (c d : Cursor) : Prop where
  rest : Respaced c.rest d.rest
  left : c.unspanned = c
  right : d.unspanned = d

/-- The same token, no separator, is next, and behind it the cursors are near again. -/
structure SameNext (c d : Cursor) : Prop where
  kind_eq : d.kind = c.kind
  previous_eq : d.advance.previous = c.advance.previous
  near : Near c.advance d.advance

/-- Whether a token of the kind is a separator or the end of a text. -/
def Idle (k : Kind) : Prop := k = .separator ∨ k = .finish

theorem Idle.not_accepted {k : Kind} {is : Kind → Bool} (h : Idle k)
    (hsep : is .separator = false) (hfin : is .finish = false) : ¬ is k = true := by
  rcases h with rfl | rfl <;> simp [hsep, hfin]

/-- The step reads nothing. -/
def Outcome.Stuck {α : Type} (o : Outcome α) : Prop := ∀ a c, o ≠ .parsed a c

/-- Two answers of a step: the same is read of both texts, or both fail, or the bound on the depth
is met. -/
inductive Alike {α : Type} : Outcome α → Outcome α → Prop where
  | parsed (a : α) {c d : Cursor} (h : Near c d) : Alike (.parsed a c) (.parsed a d)
  | failed (e e' : Expectation) (c d : Cursor) : Alike (.failed e c) (.failed e' d)
  | exhaustedLeft (o : Outcome α) : Alike .exhausted o
  | exhaustedRight (o : Outcome α) : Alike o .exhausted

namespace Near

variable {c d : Cursor}

theorem symm (h : Near c d) : Near d c := ⟨h.rest.symm, h.right, h.left⟩

theorem skipped (h : Near c d) : Near c.skipped d.skipped where
  rest := by
    rw [rest_skipped, rest_skipped]
    exact h.rest.dropWhile
  left := by rw [← skipped_unspanned, h.left]
  right := by rw [← skipped_unspanned, h.right]

/-- The same token is next, or separators, or the end of the text, which separators may stand in
front of. -/
theorem cases (h : Near c d) :
    (∃ t ts us, t.kind ≠ .separator ∧ c.rest = t :: ts ∧ d.rest = t :: us ∧ Respaced ts us) ∨
      (c.kind = .separator ∧ d.kind = .separator) ∨
      (c.skipped.kind = .finish ∧ d.skipped.kind = .finish) := by
  obtain ⟨hrest, hc, hd⟩ := h
  obtain ⟨p, ts⟩ := c
  obtain ⟨q, us⟩ := d
  have hts : ts.map Token.unspanned = ts := congrArg Cursor.rest hc
  have hus : us.map Token.unspanned = us := congrArg Cursor.rest hd
  cases hrest with
  | @token t u ts us hkind hsame rest =>
    obtain rfl : u = t := by
      rw [← (List.cons.inj hts).1, ← (List.cons.inj hus).1, hsame]
    exact .inl ⟨u, ts, us, hkind, rfl, rfl, rest⟩
  | @run seps seps' ts us hne hne' hseps hseps' _ =>
    obtain ⟨s, seps, rfl⟩ := List.exists_cons_of_ne_nil hne
    obtain ⟨s', seps', rfl⟩ := List.exists_cons_of_ne_nil hne'
    exact .inr (.inl ⟨hseps s List.mem_cons_self, hseps' s' List.mem_cons_self⟩)
  | @finish seps seps' last last' hseps hseps' hlast hlast' =>
    exact .inr (.inr ⟨kind_skipped_of_finish hseps hlast, kind_skipped_of_finish hseps' hlast'⟩)

theorem idle_of_skipped (h : c.skipped.kind = .finish) : Idle c.kind := by
  by_cases hc : c.kind = .separator
  · exact .inl hc
  · exact .inr (by rwa [skipped_eq_self hc] at h)

theorem sameNext_or_idle (h : Near c d) : SameNext c d ∨ (Idle c.kind ∧ Idle d.kind) := by
  rcases h.cases with ⟨t, ts, us, hkind, hc, hd, hrest⟩ | ⟨hc, hd⟩ | ⟨hc, hd⟩
  · have hck : c.kind = t.kind := by simp only [Cursor.kind, hc]
    have hdk : d.kind = t.kind := by simp only [Cursor.kind, hd]
    by_cases hfinish : t.kind = .finish
    · exact .inr ⟨.inr (hck.trans hfinish), .inr (hdk.trans hfinish)⟩
    · have hca := advance_eq_of_rest hc hfinish
      have hda := advance_eq_of_rest hd hfinish
      refine .inl ⟨hdk.trans hck.symm, by rw [hca, hda], ?_, ?_, ?_⟩
      · rw [hca, hda]
        exact hrest
      · rw [← advance_unspanned, h.left]
      · rw [← advance_unspanned, h.right]
  · exact .inr ⟨.inl hc, .inl hd⟩
  · exact .inr ⟨idle_of_skipped hc, idle_of_skipped hd⟩

theorem sameNext (h : Near c d) (hc : ¬ Idle c.kind) : SameNext c d :=
  h.sameNext_or_idle.resolve_right fun hidle => hc hidle.1

theorem span_previous (h : Near c d) : d.previous.span = c.previous.span := by
  have hleft : default = c.previous.span := congrArg (fun c => c.previous.span) h.left
  have hright : default = d.previous.span := congrArg (fun c => c.previous.span) h.right
  exact hright.symm.trans hleft

end Near

/-! ## Steps -/

theorem skipSeparators_bind {α : Type} (f : Unit → Parse α) (c : Cursor) :
    (skipSeparators >>= f) c = f () c.skipped :=
  rfl

/-- Behind a step that reads nothing, nothing is read. -/
theorem Outcome.Stuck.bind {α β : Type} {p : Parse α} {c : Cursor} (h : (p c).Stuck)
    (f : α → Parse β) : ((p >>= f) c).Stuck := by
  intro b c' hb
  obtain ⟨a, c₁, ha, -⟩ := bind_eq_parsed_iff.1 hb
  exact h a c₁ ha

namespace Alike

variable {α β : Type} {c d : Cursor} {o o' : Outcome α}

theorem symm (h : Alike o o') : Alike o' o := by
  cases h with
  | parsed a h => exact .parsed a h.symm
  | failed e e' c d => exact .failed e' e d c
  | exhaustedLeft => exact .exhaustedRight _
  | exhaustedRight => exact .exhaustedLeft _

theorem stuck (h : o.Stuck) (h' : o'.Stuck) : Alike o o' := by
  cases o with
  | parsed a c => exact absurd rfl (h a c)
  | exhausted => exact .exhaustedLeft o'
  | failed e c =>
    cases o' with
    | parsed a d => exact absurd rfl (h' a d)
    | exhausted => exact .exhaustedRight _
    | failed e' d => exact .failed e e' c d

/-- One step after the other. -/
theorem bind {p : Parse α} {f : α → Parse β} (h : Alike (p c) (p d))
    (hf : ∀ a c' d', Near c' d' → Alike (f a c') (f a d')) :
    Alike ((p >>= f) c) ((p >>= f) d) := by
  show Alike (Parse.bind p f c) (Parse.bind p f d)
  unfold Parse.bind
  generalize p c = o at h
  generalize p d = o' at h
  cases h with
  | parsed a h => exact hf a _ _ h
  | failed e e' c d => exact .failed e e' c d
  | exhaustedLeft o => exact .exhaustedLeft _
  | exhaustedRight o => exact .exhaustedRight _

/-- A step that is tried. -/
theorem attempt {p : Parse α} (hnear : Near c d) (h : Alike (p c) (p d)) :
    Alike (Parse.attempt p c) (Parse.attempt p d) := by
  unfold Parse.attempt
  generalize p c = o at h
  generalize p d = o' at h
  cases h with
  | parsed a h => exact .parsed _ h
  | failed e e' c d => exact .parsed none hnear
  | exhaustedLeft o => exact .exhaustedLeft _
  | exhaustedRight o => exact .exhaustedRight _

theorem expecting {p : Parse α} (e : Expectation) (h : Alike (p c) (p d)) :
    Alike (Parse.expecting e p c) (Parse.expecting e p d) := by
  unfold Parse.expecting
  generalize p c = o at h
  generalize p d = o' at h
  cases h with
  | parsed a h => exact .parsed a h
  | failed x x' c' d' =>
    simp only []
    split <;> split <;> exact .failed _ _ _ _
  | exhaustedLeft o => exact .exhaustedLeft _
  | exhaustedRight o =>
    split <;> exact .exhaustedRight _

end Alike

namespace Near

variable {α : Type} {c d : Cursor} {is : Kind → Bool}

theorem accept (h : Near c d) (hsep : is .separator = false) (hfin : is .finish = false) :
    Alike (Parse.accept is c) (Parse.accept is d) := by
  rw [accept_apply, accept_apply]
  rcases h.sameNext_or_idle with hn | ⟨hc, hd⟩
  · rw [hn.kind_eq]
    split
    · exact .parsed true hn.near
    · exact .parsed false h
  · rw [if_neg (hc.not_accepted hsep hfin), if_neg (hd.not_accepted hsep hfin)]
    exact .parsed false h

theorem expect (h : Near c d) (hsep : is .separator = false) (hfin : is .finish = false)
    (e : Expectation) : Alike (Parse.expect is e c) (Parse.expect is e d) := by
  rw [expect_apply, expect_apply]
  rcases h.sameNext_or_idle with hn | ⟨hc, hd⟩
  · rw [hn.kind_eq, hn.previous_eq]
    split
    · exact .parsed _ hn.near
    · exact .failed e e c d
  · rw [if_neg (hc.not_accepted hsep hfin), if_neg (hd.not_accepted hsep hfin)]
    exact .failed e e c d

theorem next (h : Near c d) (hc : ¬ Idle c.kind) : Alike (Parse.next c) (Parse.next d) := by
  have hn := h.sameNext hc
  rw [next_apply, next_apply, hn.previous_eq]
  exact .parsed _ hn.near

theorem lastSpan (h : Near c d) : Alike (Parse.lastSpan c) (Parse.lastSpan d) := by
  rw [lastSpan_apply, lastSpan_apply, h.span_previous]
  exact .parsed _ h

/-- A step that the next token decides, and that is the same for separators and the end of the
text. -/
theorem look {f : Kind → Parse α} (h : Near c d) (hidle : f .finish = f .separator)
    (hsep : Alike (f .separator c) (f .separator d))
    (hf : ∀ k, c.kind = k → ¬ Idle c.kind → Alike (f k c) (f k d)) :
    Alike ((Parse.look >>= f) c) ((Parse.look >>= f) d) := by
  rw [look_bind, look_bind]
  by_cases hc : Idle c.kind
  · have hsame {k : Kind} (hk : Idle k) : f k = f .separator := by
      rcases hk with rfl | rfl
      · rfl
      · exact hidle
    have hd : Idle d.kind := by
      rcases h.sameNext_or_idle with hn | ⟨-, hd⟩
      · rwa [hn.kind_eq]
      · exact hd
    rw [hsame hc, hsame hd]
    exact hsep
  · rw [(h.sameNext hc).kind_eq]
    exact hf c.kind rfl hc

theorem lookAny {f : Kind → Parse α} (h : Near c d) (hidle : f .finish = f .separator)
    (hf : ∀ k, Alike (f k c) (f k d)) : Alike ((Parse.look >>= f) c) ((Parse.look >>= f) d) :=
  h.look hidle (hf .separator) fun k _ _ => hf k

end Near

/-! ## Blocks -/

section

variable {α : Type} {n : ℕ} {c d : Cursor}

/-- There is no expression at the end of a text. -/
theorem stuck_expression (n : ℕ) (hc : c.kind = .finish) : (expression n c).Stuck := by
  intro e c' h
  obtain ⟨ts, hts, hgen⟩ := generates_of_read .expression trivial h
  obtain ⟨t, us, rfl⟩ := List.exists_cons_of_length_pos (length_pos_of_generates hgen trivial)
  exact hts.kind_ne t List.mem_cons_self (hts.kind_of_cons.symm.trans hc)

/-- There are no statements where only separators are left. -/
theorem stuck_statements (n : ℕ) (hc : c.skipped.kind = .finish) : (statements n c).Stuck := by
  intro p c' h
  cases n with
  | zero => cases h
  | succ n =>
    unfold statements at h
    rw [skipSeparators_bind] at h
    exact (stuck_expression n hc).bind _ p c' h

namespace Near

/-- Where only one of the cursors is in front of a separator, no more than separators are left. -/
theorem finish_of_separator (h : Near c d) (hc : c.kind = .separator) (hd : d.kind ≠ .separator) :
    c.skipped.kind = .finish ∧ d.kind = .finish := by
  rcases h.cases with ⟨t, ts, us, hkind, hrest, -, -⟩ | ⟨-, hd'⟩ | ⟨hfinish, hfinish'⟩
  · have hck : c.kind = t.kind := by simp only [Cursor.kind, hrest]
    exact absurd (hck.symm.trans hc) hkind
  · exact absurd hd' hd
  · rw [skipped_eq_self hd] at hfinish'
    exact ⟨hfinish, hfinish'⟩

theorem skipped_advance (h : Near c d) (hc : c.kind = .separator) (hd : d.kind = .separator) :
    Near c.advance.skipped d.advance.skipped := by
  rw [Cursor.skipped_advance hc, Cursor.skipped_advance hd]
  exact h.skipped

/-- A step that goes on as `p` behind a separator and as `q` elsewhere, where `p` reads nothing if
only separators are left, and `q` reads nothing at the end of the text. -/
theorem bySeparator {r p q : Parse α} (h : Near c d)
    (hp : ∀ {c : Cursor}, c.kind = .separator → r c = p c.advance)
    (hq : ∀ {c : Cursor}, c.kind ≠ .separator → r c = q c)
    (hblock : ∀ {c d}, Near c.skipped d.skipped → Alike (p c) (p d)) (hinline : Alike (q c) (q d))
    (hstuck : ∀ {c : Cursor}, c.skipped.kind = .finish → (p c).Stuck)
    (hstuck' : ∀ {c : Cursor}, c.kind = .finish → (q c).Stuck) : Alike (r c) (r d) := by
  -- in front of the end of a text, separators may stand in front of one of the cursors only
  have hmixed {c d : Cursor} (h : Near c d) (hc : c.kind = .separator) (hd : d.kind ≠ .separator) :
      Alike (p c.advance) (q d) := by
    obtain ⟨hfinish, hfinish'⟩ := h.finish_of_separator hc hd
    rw [← Cursor.skipped_advance hc] at hfinish
    exact .stuck (hstuck hfinish) (hstuck' hfinish')
  by_cases hc : c.kind = .separator <;> by_cases hd : d.kind = .separator
  · rw [hp hc, hp hd]
    exact hblock (h.skipped_advance hc hd)
  · rw [hp hc, hq hd]
    exact hmixed h hc hd
  · rw [hq hc, hp hd]
    exact (hmixed h.symm hd hc).symm
  · rw [hq hc, hq hd]
    exact hinline

/-- A separator decides between two steps. -/
theorem acceptSeparator {f : Bool → Parse α} (h : Near c d)
    (hblock : ∀ {c d}, Near c.skipped d.skipped → Alike (f true c) (f true d))
    (hinline : Alike (f false c) (f false d))
    (hstuck : ∀ {c : Cursor}, c.skipped.kind = .finish → (f true c).Stuck)
    (hstuck' : ∀ {c : Cursor}, c.kind = .finish → (f false c).Stuck) :
    Alike ((Parse.accept Kind.isSeparator >>= f) c) ((Parse.accept Kind.isSeparator >>= f) d) :=
  h.bySeparator (fun hc => bind_of_parsed (by rw [accept_apply, if_pos (by simp [hc])]))
    (fun hc => accept_bind_of_not (by simpa using hc)) hblock hinline hstuck hstuck'

/-- A separator has to be there in front of a step. -/
theorem expectSeparator {p : Parse α} {e : Expectation} (h : Near c d)
    (hblock : ∀ {c d}, Near c.skipped d.skipped → Alike (p c) (p d))
    (hstuck : ∀ {c : Cursor}, c.skipped.kind = .finish → (p c).Stuck) :
    Alike ((Parse.expect Kind.isSeparator e >>= fun _ => p) c)
      ((Parse.expect Kind.isSeparator e >>= fun _ => p) d) :=
  h.bySeparator (q := Parse.fail e)
    (fun hc => bind_of_parsed (by rw [expect_apply, if_pos (by simp [hc])]))
    (fun hc => bind_of_failed (by rw [expect_apply, if_neg (by simpa using hc)])) hblock
    (.failed e e c d) hstuck fun _ => nofun

end Near

end

/-! ## Reading functions -/

/-- Where a nonterminal is read alike: statements also where the separators in front of them
differ. -/
def Nonterminal.Meets {α : Type} (r : Nonterminal α) (c d : Cursor) : Prop :=
  match r with
  | statements => Near c.skipped d.skipped
  | r => Near c d ∧ r.StartsAt c.kind

theorem alike_moreNames (n : ℕ) {c d : Cursor} (h : Near c d) :
    Alike (moreNames n c) (moreNames n d) := by
  induction n generalizing c d with
  | zero => exact .exhaustedLeft _
  | succ n ih =>
    unfold moreNames
    refine (h.accept rfl rfl).bind fun comma c d h => ?_
    split
    · refine (h.expect rfl rfl _).bind fun name c d h => ?_
      exact (ih h).bind fun names c d h => .parsed _ h
    · exact .parsed _ h

theorem alike_parameters (n : ℕ) {c d : Cursor} (h : Near c d) :
    Alike (parameters n c) (parameters n d) := by
  unfold parameters
  refine h.look rfl ((h.expect rfl rfl _).bind fun close c d h => .parsed _ h) fun _ _ hc => ?_
  split
  · refine (h.next hc).bind fun name c d h => (alike_moreNames n h).bind fun names c d h => ?_
    exact (h.expect rfl rfl _).bind fun close c d h => .parsed _ h
  · exact (h.expect rfl rfl _).bind fun close c d h => .parsed _ h

theorem alike_functionName {c d : Cursor} (h : Near c d) :
    Alike (functionName c) (functionName d) := by
  unfold functionName
  refine h.look rfl ((h.expect rfl rfl _).bind fun paren c d h => .parsed _ h) fun _ _ hc => ?_
  split
  · refine (h.next hc).bind fun name c d h => ?_
    exact (h.expect rfl rfl _).bind fun paren c d h => .parsed _ h
  · exact (h.expect rfl rfl _).bind fun paren c d h => .parsed _ h

/-- All nonterminals are read alike within the bound. -/
def AlikeAt (n : ℕ) : Prop :=
  ∀ {α : Type} (r : Nonterminal α) {c d : Cursor}, r.Meets c d → Alike (r.read n c) (r.read n d)

namespace AlikeAt

variable {n : ℕ} {c d : Cursor} {level : Level}

theorem expression (ih : AlikeAt n) (h : Near c d) :
    Alike (Syntax.expression (n + 1) c) (Syntax.expression (n + 1) d) := by
  unfold Syntax.expression
  refine (h.accept rfl rfl).bind fun push c d h => ?_
  split
  · refine h.lastSpan.bind fun start c d h => (h.expect rfl rfl _).bind fun name c d h => ?_
    refine (h.expect rfl rfl _).bind fun arrow c d h => ?_
    exact (ih .expression ⟨h, trivial⟩).bind fun value c d h => .parsed _ h
  · exact .expecting _ (ih (.chain .junction) ⟨h, trivial⟩)

theorem comparison (ih : AlikeAt n) (h : Near c d) :
    Alike (Syntax.comparison (n + 1) c) (Syntax.comparison (n + 1) d) := by
  unfold Syntax.comparison
  refine (h.accept rfl rfl).bind fun negation c d h => ?_
  split
  · refine h.lastSpan.bind fun start c d h => ?_
    exact (ih .comparison ⟨h, trivial⟩).bind fun operand c d h => .parsed _ h
  · exact .expecting _ (ih (.chain .comparison) ⟨h, trivial⟩)

theorem chain (ih : AlikeAt n) (h : Near c d) :
    Alike (Syntax.chain (n + 1) level c) (Syntax.chain (n + 1) level d) := by
  unfold Syntax.chain
  refine (ih (.operand level) ⟨h, trivial⟩).bind fun left c d h => ?_
  exact ih (.links level left) ⟨h, trivial⟩

theorem links (ih : AlikeAt n) (left : Expr) (h : Near c d) :
    Alike (Syntax.links (n + 1) level left c) (Syntax.links (n + 1) level left d) := by
  unfold Syntax.links
  refine h.look rfl (.parsed left h) fun kind _ hc => ?_
  cases level.operator? kind with
  | none => exact .parsed left h
  | some op =>
    refine (h.next hc).bind fun sign c d h => ?_
    refine (ih (.rightOperand level) ⟨h, trivial⟩).bind fun right c d h => ?_
    exact ih (.links level (.binary (left.span.through right.span) op left right)) ⟨h, trivial⟩

theorem operand (ih : AlikeAt n) (h : Near c d) :
    Alike (Syntax.operand (n + 1) level c) (Syntax.operand (n + 1) level d) := by
  cases level with
  | junction => exact ih .comparison ⟨h, trivial⟩
  | comparison => exact ih (.chain .sum) ⟨h, trivial⟩
  | sum => exact ih (.chain .product) ⟨h, trivial⟩
  | product => exact ih .factor ⟨h, trivial⟩
  | power => exact ih .call ⟨h, trivial⟩

theorem rightOperand (ih : AlikeAt n) (h : Near c d) :
    Alike (Syntax.rightOperand (n + 1) level c) (Syntax.rightOperand (n + 1) level d) := by
  cases level with
  | junction => exact ih (.operand .junction) ⟨h, trivial⟩
  | comparison => exact ih (.operand .comparison) ⟨h, trivial⟩
  | sum => exact ih (.operand .sum) ⟨h, trivial⟩
  | product => exact ih (.operand .product) ⟨h, trivial⟩
  | power => exact ih .factor ⟨h, trivial⟩

theorem factor (ih : AlikeAt n) (h : Near c d) :
    Alike (Syntax.factor (n + 1) c) (Syntax.factor (n + 1) d) := by
  unfold Syntax.factor
  refine h.look rfl (ih (.chain .power) ⟨h, trivial⟩) fun kind _ hc => ?_
  cases UnaryOp.sign? kind with
  | none => exact ih (.chain .power) ⟨h, trivial⟩
  | some op =>
    refine (h.next hc).bind fun sign c d h => ?_
    exact (ih .factor ⟨h, trivial⟩).bind fun operand c d h => .parsed _ h

theorem call (ih : AlikeAt n) (h : Near c d) :
    Alike (Syntax.call (n + 1) c) (Syntax.call (n + 1) d) := by
  unfold Syntax.call
  refine (ih .atom ⟨h, trivial⟩).bind fun callee c d h => ?_
  refine (h.accept rfl rfl).bind fun paren c d h => ?_
  split
  · refine (ih (.items .rightParen .commaOrParen) ⟨h, trivial⟩).bind fun args c d h => ?_
    exact h.lastSpan.bind fun last c d h => .parsed _ h
  · exact .parsed _ h

theorem items {close : Symbol} {e : Expectation} (ih : AlikeAt n) (h : Near c d) :
    Alike (Syntax.items (n + 1) close e c) (Syntax.items (n + 1) close e d) := by
  unfold Syntax.items
  refine (h.accept rfl rfl).bind fun closed c d h => ?_
  split
  · exact .parsed [] h
  · refine (ih .expression ⟨h, trivial⟩).bind fun first c d h => ?_
    refine (ih .moreItems ⟨h, trivial⟩).bind fun rest c d h => ?_
    exact (h.expect rfl rfl _).bind fun closing c d h => .parsed _ h

theorem moreItems (ih : AlikeAt n) (h : Near c d) :
    Alike (Syntax.moreItems (n + 1) c) (Syntax.moreItems (n + 1) d) := by
  unfold Syntax.moreItems
  refine (h.accept rfl rfl).bind fun comma c d h => ?_
  split
  · refine (ih .expression ⟨h, trivial⟩).bind fun first c d h => ?_
    exact (ih .moreItems ⟨h, trivial⟩).bind fun rest c d h => .parsed _ h
  · exact .parsed [] h

theorem atom (ih : AlikeAt n) (h : Near c d) :
    Alike (Syntax.atom (n + 1) c) (Syntax.atom (n + 1) d) := by
  unfold Syntax.atom
  refine h.look rfl (.failed _ _ c d) fun kind hkind hc => ?_
  split
  · exact (h.next hc).bind fun token c d h => .parsed _ h
  · exact (h.next hc).bind fun token c d h => .parsed _ h
  · exact (h.next hc).bind fun token c d h => .parsed _ h
  · refine (h.next hc).bind fun name c d h => (h.accept rfl rfl).bind fun arrow c d h => ?_
    split
    · exact (ih .expression ⟨h, trivial⟩).bind fun value c d h => .parsed _ h
    · exact .parsed _ h
  · refine (h.next hc).bind fun paren c d h => ?_
    refine (ih .expression ⟨h, trivial⟩).bind fun inner c d h => ?_
    exact (h.expect rfl rfl _).bind fun close c d h => .parsed _ h
  · refine (h.next hc).bind fun start c d h => ?_
    refine (ih (.items .rightBracket .commaOrBracket) ⟨h, trivial⟩).bind fun elements c d h => ?_
    exact h.lastSpan.bind fun last c d h => .parsed _ h
  · refine (h.next hc).bind fun start c d h => ?_
    refine (ih .case ⟨h, trivial⟩).bind fun parts c d h => ?_
    exact h.lastSpan.bind fun last c d h => .parsed _ h
  · exact ih .forLoop ⟨h, hkind⟩
  · refine (h.next hc).bind fun start c d h => ?_
    refine (ih .expression ⟨h, trivial⟩).bind fun condition c d h => ?_
    refine (h.expect rfl rfl _).bind fun word c d h => ?_
    refine (ih .closedBody ⟨h, trivial⟩).bind fun body c d h => ?_
    exact h.lastSpan.bind fun last c d h => .parsed _ h
  · exact ih .function ⟨h, hkind⟩
  · exact .failed _ _ c d

theorem case (ih : AlikeAt n) (h : Near c d) :
    Alike (Syntax.case (n + 1) c) (Syntax.case (n + 1) d) := by
  unfold Syntax.case
  refine (ih .expression ⟨h, trivial⟩).bind fun condition c d h => ?_
  refine (h.expect rfl rfl _).bind fun word c d h => ?_
  refine h.acceptSeparator (fun h => ?_) ?_ (fun hc => ?_) fun hc => ?_
  · rw [if_pos rfl]
    refine (ih .statements h).bind fun block c d h => (h.accept rfl rfl).bind fun fin c d h => ?_
    split
    · exact .parsed _ h
    · refine h.lookAny rfl fun kind => h.lookAny rfl fun kind' => ?_
      split
      · exact (ih .branches ⟨h, trivial⟩).bind fun rest c d h => .parsed _ h
      · exact .failed _ _ c d
  · rw [if_neg (by simp)]
    refine (ih .expression ⟨h, trivial⟩).bind fun value c d h => ?_
    exact (ih .branches ⟨h, trivial⟩).bind fun rest c d h => .parsed _ h
  · rw [if_pos rfl]
    exact (stuck_statements n hc).bind _
  · rw [if_neg (by simp)]
    exact (stuck_expression n hc).bind _

theorem branches (ih : AlikeAt n) (h : Near c d) :
    Alike (Syntax.branches (n + 1) c) (Syntax.branches (n + 1) d) := by
  unfold Syntax.branches
  refine (h.accept rfl rfl).bind fun elif c d h => ?_
  split
  · exact (ih .case ⟨h, trivial⟩).bind fun parts c d h => .parsed _ h
  · refine (h.accept rfl rfl).bind fun otherwise c d h => ?_
    split
    · exact (ih .closedBody ⟨h, trivial⟩).bind fun body c d h => .parsed _ h
    · exact .parsed _ h

theorem forLoop (ih : AlikeAt n) (hc : c.kind = .keyword .forWord) (h : Near c d) :
    Alike (Syntax.forLoop (n + 1) c) (Syntax.forLoop (n + 1) d) := by
  unfold Syntax.forLoop
  refine (h.next (by simp [Idle, hc])).bind fun start c d h => ?_
  refine (h.expect rfl rfl _).bind fun name c d h => ?_
  refine (h.expect rfl rfl _).bind fun arrow c d h => ?_
  refine (ih .expression ⟨h, trivial⟩).bind fun first c d h => ?_
  refine (h.expect rfl rfl _).bind fun untilWord c d h => ?_
  refine (ih .expression ⟨h, trivial⟩).bind fun bound c d h => ?_
  refine (ih .step ⟨h, trivial⟩).bind fun step c d h => ?_
  refine (h.expect rfl rfl _).bind fun doWord c d h => ?_
  refine (ih .closedBody ⟨h, trivial⟩).bind fun body c d h => ?_
  exact h.lastSpan.bind fun last c d h => .parsed _ h

theorem step (ih : AlikeAt n) (h : Near c d) :
    Alike (Syntax.step (n + 1) c) (Syntax.step (n + 1) d) := by
  unfold Syntax.step
  refine (h.accept rfl rfl).bind fun word c d h => ?_
  split
  · exact (ih .expression ⟨h, trivial⟩).bind fun value c d h => .parsed _ h
  · exact .parsed _ h

theorem closedBody (ih : AlikeAt n) (h : Near c d) :
    Alike (Syntax.closedBody (n + 1) c) (Syntax.closedBody (n + 1) d) := by
  unfold Syntax.closedBody
  refine h.acceptSeparator (fun h => ?_) ?_ (fun hc => ?_) fun hc => ?_
  · rw [if_pos rfl]
    refine (ih .statements h).bind fun block c d h => ?_
    exact (h.expect rfl rfl _).bind fun fin c d h => .parsed _ h
  · rw [if_neg (by simp)]
    exact (ih .expression ⟨h, trivial⟩).bind fun value c d h => .parsed _ h
  · rw [if_pos rfl]
    exact (stuck_statements n hc).bind _
  · rw [if_neg (by simp)]
    exact (stuck_expression n hc).bind _

theorem function (ih : AlikeAt n) (hc : c.kind = .keyword .define) (h : Near c d) :
    Alike (Syntax.function (n + 1) c) (Syntax.function (n + 1) d) := by
  unfold Syntax.function
  refine (h.next (by simp [Idle, hc])).bind fun start c d h => ?_
  refine (alike_functionName h).bind fun name c d h => ?_
  refine (alike_parameters n h).bind fun params c d h => ?_
  refine (ih .functionBody ⟨h, trivial⟩).bind fun body c d h => ?_
  exact h.lastSpan.bind fun last c d h => .parsed _ h

theorem functionBody (ih : AlikeAt n) (h : Near c d) :
    Alike (Syntax.functionBody (n + 1) c) (Syntax.functionBody (n + 1) d) := by
  unfold Syntax.functionBody
  refine (h.accept rfl rfl).bind fun arrow c d h => ?_
  split
  · exact (ih .expression ⟨h, trivial⟩).bind fun value c d h => .parsed _ h
  · refine h.expectSeparator (fun h => ?_) fun hc => (stuck_statements n hc).bind _
    refine (ih .statements h).bind fun block c d h => ?_
    exact (h.expect rfl rfl _).bind fun fin c d h => .parsed _ h

/-- What is in front of statements is skipped first. -/
theorem statements (ih : AlikeAt n) (h : Near c.skipped d.skipped) :
    Alike (Syntax.statements (n + 1) c) (Syntax.statements (n + 1) d) := by
  unfold Syntax.statements
  rw [skipSeparators_bind, skipSeparators_bind]
  refine (ih .expression ⟨h, trivial⟩).bind fun first c d h => ?_
  refine (ih .moreStatements ⟨h, trivial⟩).bind fun rest c d h => ?_
  exact h.lastSpan.bind fun last c d h => .parsed _ h

/-- At the end of a text, separators in front of it are passed, and nothing else. -/
theorem moreStatements_end (h : Near c d) (hc : c.kind = .separator) (hd : d.kind ≠ .separator) :
    Alike (Syntax.moreStatements (n + 1) c) (Syntax.moreStatements (n + 1) d) := by
  obtain ⟨hfinish, -⟩ := h.finish_of_separator hc hd
  have hnear : Near c.skipped d := by
    have hskipped := h.skipped
    rwa [skipped_eq_self hd] at hskipped
  have hnone : Syntax.moreStatements (n + 1) d = .parsed [] d := by
    unfold Syntax.moreStatements
    rw [accept_bind_of_not (by simpa using hd)]
    rfl
  rw [moreStatements_succ hc, hnone]
  cases hread : Syntax.expression n c.skipped with
  | parsed e c' => exact absurd hread (stuck_expression n hfinish e c')
  | failed x c' =>
    have hattempt : Parse.attempt (Syntax.expression n) c.skipped = .parsed none c.skipped := by
      unfold Parse.attempt
      rw [hread]
    rw [bind_of_parsed hattempt]
    exact .parsed [] hnear
  | exhausted =>
    have hattempt : Parse.attempt (Syntax.expression n) c.skipped = .exhausted := by
      unfold Parse.attempt
      rw [hread]
    show Alike (Parse.bind _ _ _) _
    unfold Parse.bind
    rw [hattempt]
    exact .exhaustedLeft _

theorem moreStatements (ih : AlikeAt n) (h : Near c d) :
    Alike (Syntax.moreStatements (n + 1) c) (Syntax.moreStatements (n + 1) d) := by
  by_cases hc : c.kind = .separator <;> by_cases hd : d.kind = .separator
  · rw [moreStatements_succ hc, moreStatements_succ hd]
    have hfirst := Alike.attempt h.skipped (ih .expression ⟨h.skipped, trivial⟩)
    refine hfirst.bind fun found c d h => ?_
    cases found with
    | none => exact .parsed [] h
    | some first => exact (ih .moreStatements ⟨h, trivial⟩).bind fun rest c d h => .parsed _ h
  · exact moreStatements_end h hc hd
  · exact (moreStatements_end h.symm hd hc).symm
  · unfold Syntax.moreStatements
    rw [accept_bind_of_not (by simpa using hc), accept_bind_of_not (by simpa using hd)]
    exact .parsed [] h

end AlikeAt

/-- If the nonterminals are read alike within the bound, so they are within the next larger one. -/
theorem alike_read_succ {n : ℕ} (ih : AlikeAt n) : AlikeAt (n + 1) := by
  intro α r c d h
  cases r with
  | expression => exact ih.expression h.1
  | comparison => exact ih.comparison h.1
  | chain level => exact ih.chain h.1
  | links level left => exact ih.links left h.1
  | operand level => exact ih.operand h.1
  | rightOperand level => exact ih.rightOperand h.1
  | factor => exact ih.factor h.1
  | call => exact ih.call h.1
  | items close e => exact ih.items h.1
  | moreItems => exact ih.moreItems h.1
  | atom => exact ih.atom h.1
  | case => exact ih.case h.1
  | branches => exact ih.branches h.1
  | forLoop => exact ih.forLoop h.2 h.1
  | step => exact ih.step h.1
  | closedBody => exact ih.closedBody h.1
  | function => exact ih.function h.2 h.1
  | functionBody => exact ih.functionBody h.1
  | statements => exact ih.statements h
  | moreStatements => exact ih.moreStatements h.1

/-- Every nonterminal is read alike in front of tokens that differ only in separators. -/
theorem alike_read (n : ℕ) : AlikeAt n := by
  induction n with
  | zero =>
    intro α r c d h
    rw [r.read_zero]
    exact .exhaustedLeft _
  | succ n ih => exact alike_read_succ ih

/-! ## Programs -/

section

variable {n : ℕ} {c c' d : Cursor} {es : List Expr} {p : Program} {ts us lead lead' : List Token}

theorem kind_skipped_ne_separator (c : Cursor) : c.skipped.kind ≠ .separator := by
  obtain ⟨-, -, -, hne⟩ := passes_behindSeparators c.previous c.rest
  exact hne

/-- Statements pass the separators behind them. -/
theorem kind_ne_separator_of_moreStatements (h : moreStatements n c = .parsed es c') :
    c'.kind ≠ .separator := by
  induction n generalizing c es with
  | zero => cases h
  | succ n ih =>
    by_cases hc : c.kind = .separator
    · rw [moreStatements_succ hc] at h
      obtain ⟨found, c₁, hfound, h⟩ := bind_eq_parsed_iff.1 h
      cases found with
      | none =>
        cases h
        rw [(attempt_eq_none_iff.1 hfound).1]
        exact kind_skipped_ne_separator c
      | some first =>
        obtain ⟨rest, c₂, hrest, h⟩ := bind_eq_parsed_iff.1 h
        cases h
        exact ih hrest
    · unfold moreStatements at h
      rw [accept_bind_of_not (by simpa using hc), if_neg (by simp)] at h
      cases h
      exact hc

theorem unspanned_unspanned (c : Cursor) : c.unspanned.unspanned = c.unspanned := by
  obtain ⟨previous, rest⟩ := c
  show (⟨_, (rest.map Token.unspanned).map Token.unspanned⟩ : Cursor) = _
  rw [List.map_map]
  rfl

/-- Behind all separators at their beginning, tokens that differ only in separators are near. -/
theorem near_start (hlead : ∀ s ∈ lead, s.kind = .separator)
    (hlead' : ∀ s ∈ lead', s.kind = .separator) (h : Respaced ts us) :
    Near (Cursor.start (lead ++ ts)).unspanned.skipped
      (Cursor.start (lead' ++ us)).unspanned.skipped := by
  have hrest {lead ts : List Token} (hlead : ∀ s ∈ lead, s.kind = .separator) :
      (Cursor.start (lead ++ ts)).skipped.rest = ts.dropWhile (·.kind.isSeparator) := by
    rw [rest_skipped, Cursor.rest_start, dropWhile_separators hlead]
  rw [skipped_unspanned, skipped_unspanned]
  refine ⟨?_, unspanned_unspanned _, unspanned_unspanned _⟩
  show Respaced ((Cursor.start (lead ++ ts)).skipped.rest.map Token.unspanned)
    ((Cursor.start (lead' ++ us)).skipped.rest.map Token.unspanned)
  rw [hrest hlead, hrest hlead']
  exact h.dropWhile.unspanned

theorem kind_ne_separator_of_statements (h : statements n c = .parsed p c') :
    c'.kind ≠ .separator := by
  obtain ⟨m, seps, ts, first, rest, c₁, c₂, -, -, -, -, hrest, -⟩ := of_statements h
  exact kind_ne_separator_of_moreStatements hrest

/-- Where the end of the one text is next, the end of the other is, but for separators. -/
theorem Near.kind_eq_finish (h : Near c d) (hc : c.kind = .finish) (hd : d.kind ≠ .separator) :
    d.kind = .finish := by
  rcases h.sameNext_or_idle with hn | ⟨-, hidle⟩
  · rw [hn.kind_eq, hc]
  · exact hidle.resolve_left hd

/-- What is read behind the separators at the beginning of the one text is read of the other. -/
theorem exists_parse_of_near (h : parse ts = .ok p)
    (hnear : Near (Cursor.start ts).unspanned.skipped (Cursor.start us).unspanned.skipped) :
    ∃ q, parse us = .ok q ∧ q.unspanned = p.unspanned := by
  obtain ⟨c, hc, hfinish⟩ := statements_of_parse h
  -- within this bound both texts are read
  let n := max (depthFor ts) (depthFor us)
  have hread : Nonterminal.statements.read n (Cursor.start ts).unspanned =
      .parsed p.unspanned c.unspanned := by
    have hblind := read_blind .statements (depthFor ts) (Cursor.start ts)
    exact read_mono (Nat.le_max_left _ _) (hblind.trans (congrArg _ hc)) nofun
  have hanswers : Nonterminal.statements.read n (Cursor.start us).unspanned ≠ .exhausted := by
    have hbelow := ne_exhausted_of_blind (statements_ne_exhausted us)
    have hup := (read_below (Nat.le_max_right (depthFor ts) (depthFor us))
      .statements).eq_of_ne_exhausted hbelow
    exact hup ▸ hbelow
  have halike := alike_read n .statements hnear
  rw [hread] at halike
  generalize hother : Nonterminal.statements.read n (Cursor.start us).unspanned = o
    at halike hanswers
  cases halike with
  | exhaustedRight => exact absurd rfl hanswers
  | @parsed _ _ d hd =>
    have hreads : Reads .statements (Cursor.start us).unspanned p.unspanned d :=
      eventually_atTop.2 ⟨n, fun m hm => read_mono hm hother nofun⟩
    refine exists_parse_of_reads hreads (hd.kind_eq_finish ?_ ?_)
    · rw [Cursor.kind_unspanned, hfinish]
    · exact kind_ne_separator_of_statements hother

end

/-- Runs of separators carry no information.  Of two texts that differ only in the lengths of their
runs of separators, and in separators at the beginning and in front of the end, either both are
programs or neither is, and the programs are, up to spans, the same. -/
theorem parse_respaced {lead lead' ts us : List Token} (hlead : ∀ s ∈ lead, s.kind = .separator)
    (hlead' : ∀ s ∈ lead', s.kind = .separator) (h : Respaced ts us) :
    (∀ p, parse (lead ++ ts) = .ok p →
      ∃ q, parse (lead' ++ us) = .ok q ∧ q.unspanned = p.unspanned) ∧
    (∀ q, parse (lead' ++ us) = .ok q →
      ∃ p, parse (lead ++ ts) = .ok p ∧ p.unspanned = q.unspanned) :=
  ⟨fun _ hp => exists_parse_of_near hp (near_start hlead hlead' h),
    fun _ hq => exists_parse_of_near hq (near_start hlead' hlead h.symm)⟩

/-- A loop with a block, once with a separator wherever there has to be one, and once with more of
them, and with some around the whole. -/
theorem parse_respaced_block :
    let token (k : Kind) (lexeme : String) : Token := ⟨k, lexeme, default⟩
    let line : Token := token .separator "\n"
    let semicolon : Token := token .separator ";"
    let header : List Token :=
      [token (.keyword .whileWord) "while", token .identifier "x", token (.keyword .doWord) "do"]
    let y : Token := token .identifier "y"
    let close : Token := token (.keyword .fin) "fin"
    let last : Token := token .finish ""
    let ts := header ++ [line, y, line, close, last]
    let us := header ++ [semicolon, line, line, y, line, semicolon, close, line, line, last]
    ∃ p q, parse ts = .ok p ∧ parse ([line, line] ++ us) = .ok q ∧ q.unspanned = p.unspanned := by
  intro token line semicolon header y close last ts us
  obtain ⟨p, hread⟩ : ∃ p, parse ([] ++ ts) = .ok p := ⟨_, rfl⟩
  have hruns : ∀ s ∈ [line, line, semicolon], s.kind = .separator := by
    simp [line, semicolon, token]
  have hrun {seps : List Token} (h : seps ⊆ [line, line, semicolon]) :
      ∀ s ∈ seps, s.kind = .separator := fun s hs => hruns s (h hs)
  have hlead : ∀ s ∈ [line, line], s.kind = .separator := hrun (by simp)
  have hnone : ∀ s ∈ ([] : List Token), s.kind = .separator := nofun
  have hfinish : Respaced ([] ++ [last]) ([line, line] ++ [last]) := .finish hnone hlead rfl rfl
  have hend : Respaced ([line] ++ [close, last])
      ([line, semicolon] ++ [close, line, line, last]) :=
    .run nofun nofun (hrun (by simp)) (hrun (by simp)) (.token nofun rfl hfinish)
  have hblock : Respaced ([line] ++ [y, line, close, last])
      ([semicolon, line, line] ++ [y, line, semicolon, close, line, line, last]) :=
    .run nofun nofun (hrun (by simp)) (hrun (by simp)) (.token nofun rfl hend)
  have hrespaced : Respaced ts us :=
    .token nofun rfl (.token nofun rfl (.token nofun rfl hblock))
  obtain ⟨q, hq, hsame⟩ := (parse_respaced hnone hlead hrespaced).1 p hread
  exact ⟨p, q, hread, hq, hsame⟩

end Syntax

end UniformScript
