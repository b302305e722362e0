import UniformScript.Syntax.Grammar

/-!
# Tokens that a reading step passes

A reading step moves a cursor forward over a run of tokens.  `Cursor.Passes ts c c'` says that `c'`
lies behind `c` with the tokens `ts` between them; the token passed last is then the last of them.

The end of the text is never passed, so a step that asks for a kind of token other than the end
either passes one token of that kind or stays where it is.

* `of_bind_accept`, `of_bind_expect`, `of_bind_next`, `of_bind_skipSeparators`: the tokens that the
  primitive steps pass in front of another step.
-/

namespace UniformScript

/-! ## Tests on kinds -/

namespace Kind

@[simp] theorem isSymbol_iff {s : Symbol} {k : Kind} : k.isSymbol s = true ↔ k = symbol s := by
  cases k with
  | symbol t => exact ⟨fun h => by rw [eq_of_beq h], fun h => by cases h; exact beq_self_eq_true s⟩
  | _ => simp [isSymbol]

@[simp] theorem isKeyword_iff {w : Keyword} {k : Kind} :
    k.isKeyword w = true ↔ k = keyword w := by
  cases k with
  | keyword v =>
    exact ⟨fun h => by rw [eq_of_beq h], fun h => by cases h; exact beq_self_eq_true w⟩
  | _ => simp [isKeyword]

@[simp] theorem isIdentifier_iff {k : Kind} : k.isIdentifier = true ↔ k = identifier := by
  cases k <;> simp [isIdentifier]

@[simp] theorem isSeparator_iff {k : Kind} : k.isSeparator = true ↔ k = separator := by
  cases k <;> simp [isSeparator]

theorem ne_symbol {s : Symbol} {k : Kind} (h : k.isSymbol s = false) : k ≠ symbol s := fun hk => by
  rw [isSymbol_iff.2 hk] at h
  cases h

theorem ne_keyword {w : Keyword} {k : Kind} (h : k.isKeyword w = false) : k ≠ keyword w :=
  fun hk => by
    rw [isKeyword_iff.2 hk] at h
    cases h

theorem ne_separator {k : Kind} (h : k.isSeparator = false) : k ≠ separator := fun hk => by
  rw [isSeparator_iff.2 hk] at h
  cases h

end Kind

namespace Syntax

/-! ## Runs of tokens between cursors -/

namespace Cursor

/-- The second cursor lies behind the first, with the given tokens between them; the end of the
text is none of them. -/
structure Passes (ts : List Token) (c c' : Cursor) : Prop where
  rest_eq : c.rest = ts ++ c'.rest
  previous_eq : c'.previous = ts.getLastD c.previous
  kind_ne : ∀ t ∈ ts, t.kind ≠ .finish

namespace Passes

variable {t p : Token} {ts us : List Token} {c c₁ c₂ c' : Cursor}

theorem refl (c : Cursor) : Passes [] c c := ⟨rfl, rfl, by simp⟩

theorem trans (h : Passes ts c c₁) (h' : Passes us c₁ c₂) : Passes (ts ++ us) c c₂ := by
  refine ⟨by rw [h.rest_eq, h'.rest_eq, List.append_assoc], ?_,
    List.forall_mem_append.2 ⟨h.kind_ne, h'.kind_ne⟩⟩
  rw [h'.previous_eq, h.previous_eq]
  cases us with
  | nil => simp
  | cons u us => simp [List.getLastD_eq_getLast?, List.getLast?_append]

theorem one (h : c.rest = t :: ts) (ht : t.kind ≠ .finish) :
    Passes [t] c ⟨t, ts⟩ :=
  ⟨h, rfl, List.forall_mem_singleton.2 ht⟩

theorem previous_of_one (h : Passes [t] c c₁) : c₁.previous = t := h.previous_eq

theorem cons (h : Passes [t] c c₁) (h' : Passes ts c₁ c') : Passes (t :: ts) c c' := h.trans h'

theorem kind_of_cons (h : Passes (t :: ts) c c') : c.kind = t.kind := by
  unfold Cursor.kind
  rw [h.rest_eq]
  rfl

/-- A run of tokens that is not empty begins with the same token everywhere. -/
theorem kind_eq {d d' : Cursor} (h : Passes ts c c') (h' : Passes ts d d') (hts : ts ≠ []) :
    d.kind = c.kind := by
  cases ts with
  | nil => exact absurd rfl hts
  | cons t ts => exact h'.kind_of_cons.trans h.kind_of_cons.symm

theorem length_rest (h : Passes ts c c₁) : c.rest.length = ts.length + c₁.rest.length := by
  rw [h.rest_eq, List.length_append]

theorem length_of_one (h : Passes [t] c c₁) : c.rest.length = 1 + c₁.rest.length :=
  h.length_rest

/-! A run of tokens is taken apart into its pieces. -/

theorem nil_inv (h : Passes [] c c') : c' = c := by
  obtain ⟨p, us⟩ := c
  obtain ⟨p', us'⟩ := c'
  cases h.rest_eq
  cases h.previous_eq
  rfl

theorem cons_inv (h : Passes (t :: ts) ⟨p, us⟩ c') :
    ∃ vs, us = t :: vs ∧ Passes ts ⟨t, vs⟩ c' := by
  refine ⟨ts ++ c'.rest, h.rest_eq, rfl, ?_, fun u hu => h.kind_ne u (List.mem_cons_of_mem t hu)⟩
  rw [h.previous_eq]
  cases ts <;> rfl

theorem singleton_inv (h : Passes [t] ⟨p, us⟩ c') : ∃ vs, us = t :: vs ∧ c' = ⟨t, vs⟩ := by
  obtain ⟨vs, hus, h⟩ := h.cons_inv
  exact ⟨vs, hus, h.nil_inv⟩

theorem append_inv (h : Passes (ts ++ us) c c') : ∃ c₁, Passes ts c c₁ ∧ Passes us c₁ c' := by
  refine ⟨⟨ts.getLastD c.previous, us ++ c'.rest⟩, ⟨?_, rfl, ?_⟩, ⟨rfl, ?_, ?_⟩⟩
  · rw [h.rest_eq, List.append_assoc]
  · exact fun t ht => h.kind_ne t (List.mem_append_left us ht)
  · rw [h.previous_eq]
    cases us with
    | nil => simp
    | cons u us => simp [List.getLastD_eq_getLast?, List.getLast?_append]
  · exact fun t ht => h.kind_ne t (List.mem_append_right ts ht)

/-- Tokens that are ahead are passed somewhere. -/
theorem exists_of_rest (h : c.rest = ts ++ us) (hts : ∀ t ∈ ts, t.kind ≠ .finish) :
    ∃ c', Passes ts c c' ∧ c'.rest = us := ⟨⟨ts.getLastD c.previous, us⟩, ⟨h, rfl, hts⟩, rfl⟩

/-- A run of tokens that ends where the text does consists of all tokens of the text. -/
theorem eq_of_finish {last : Token} (h : Passes us c c') (hc' : c'.kind = .finish)
    (hc : c.rest = ts ++ [last]) (hts : ∀ t ∈ ts, t.kind ≠ .finish)
    (hlast : last.kind = .finish) : us = ts := by
  rcases List.append_eq_append_iff.1 (hc.symm.trans h.rest_eq) with
    ⟨vs, hvs, hend⟩ | ⟨vs, hvs, hend⟩
  · cases vs with
    | nil => rw [hvs, List.append_nil]
    | cons v vs =>
      obtain rfl : last = v := (List.cons.inj hend).1
      exact absurd hlast (h.kind_ne last (by simp [hvs]))
  · cases vs with
    | nil => rw [hvs, List.append_nil]
    | cons v vs =>
      have hv : v.kind = .finish := by
        unfold Cursor.kind at hc'
        rwa [hend] at hc'
      exact absurd hv (hts v (by simp [hvs]))

end Passes

theorem advance_eq_of_rest {c : Cursor} {t : Token} {ts : List Token} (h : c.rest = t :: ts)
    (ht : t.kind ≠ .finish) : c.advance = ⟨t, ts⟩ := by
  obtain ⟨previous, rest⟩ := c
  subst h
  simp only [advance]

/-- A next token that is not the end of the text is passed by going on. -/
theorem exists_passes_advance {c : Cursor} (h : c.kind ≠ .finish) :
    ∃ t, t.kind = c.kind ∧ Passes [t] c c.advance ∧ c.advance.previous = t := by
  obtain ⟨previous, rest⟩ := c
  cases rest with
  | nil => exact absurd rfl h
  | cons t ts =>
    have hadvance : (⟨previous, t :: ts⟩ : Cursor).advance = ⟨t, ts⟩ := advance_eq_of_rest rfl h
    rw [hadvance]
    exact ⟨t, rfl, .one rfl h, rfl⟩

theorem advance_of_finish {c : Cursor} (h : c.kind = .finish) : c.advance = c := by
  obtain ⟨previous, rest⟩ := c
  cases rest with
  | nil => rfl
  | cons t ts =>
    have ht : t.kind = .finish := h
    simp only [advance, ht]

theorem passes_behindSeparators (previous : Token) (ts : List Token) :
    ∃ seps : List Token, (∀ t ∈ seps, t.kind = .separator) ∧
      Passes seps ⟨previous, ts⟩ (behindSeparators previous ts) ∧
      (behindSeparators previous ts).kind ≠ .separator := by
  induction ts generalizing previous with
  | nil => exact ⟨[], by simp, .refl _, nofun⟩
  | cons t ts ih =>
    unfold behindSeparators
    split
    · rename_i ht
      obtain ⟨seps, hseps, hpass, hne⟩ := ih t
      refine ⟨t :: seps, ?_, (Passes.one rfl (by simp [ht])).trans hpass, hne⟩
      intro u hu
      rcases List.mem_cons.1 hu with rfl | hu
      · exact ht
      · exact hseps u hu
    · rename_i ht
      exact ⟨[], by simp, .refl _, ht⟩

/-- The place behind the separators ahead. -/
def skipped (c : Cursor) : Cursor := behindSeparators c.previous c.rest

theorem skipped_eq_self {c : Cursor} (hc : c.kind ≠ .separator) : c.skipped = c := by
  obtain ⟨p, us⟩ := c
  cases us with
  | nil => rfl
  | cons u us =>
    have hu : u.kind ≠ .separator := hc
    simp only [skipped, behindSeparators]

/-- Whether some of the separators ahead have been passed makes no difference. -/
theorem Passes.skipped_eq {seps : List Token} {c c' : Cursor} (h : Passes seps c c')
    (hseps : ∀ t ∈ seps, t.kind = .separator) : c.skipped = c'.skipped := by
  induction seps generalizing c with
  | nil => rw [h.nil_inv]
  | cons t seps ih =>
    obtain ⟨ht, hseps⟩ := List.forall_mem_cons.1 hseps
    obtain ⟨p, us⟩ := c
    obtain ⟨us, rfl, hrest⟩ := h.cons_inv
    rw [← ih hrest hseps]
    simp only [skipped, behindSeparators, ht]

theorem skipped_advance {c : Cursor} (hc : c.kind = .separator) :
    c.advance.skipped = c.skipped := by
  obtain ⟨t, ht, hpass, -⟩ := exists_passes_advance (c := c) (by rw [hc]; simp)
  refine (hpass.skipped_eq fun s hs => ?_).symm
  rw [List.mem_singleton.1 hs, ht, hc]

theorem Passes.skipped_eq_right {seps : List Token} {c c' : Cursor} (h : Passes seps c c')
    (hseps : ∀ t ∈ seps, t.kind = .separator) (hc' : c'.kind ≠ .separator) : c.skipped = c' :=
  (h.skipped_eq hseps).trans (skipped_eq_self hc')

end Cursor

/-! ## Steps in a row -/

section

variable {α β : Type} {c c' : Cursor}

theorem bind_of_parsed {q : Parse β} {f : β → Parse α} {b : β} (h : q c = .parsed b c') :
    (q >>= f) c = f b c' := by
  show Parse.bind q f c = _
  unfold Parse.bind
  rw [h]

theorem bind_of_failed {q : Parse β} {f : β → Parse α} {e : Expectation}
    (h : q c = .failed e c') : (q >>= f) c = .failed e c' := by
  show Parse.bind q f c = _
  unfold Parse.bind
  rw [h]

end

/-! ## What the primitive steps pass -/

open Parse Cursor

section

variable {α : Type} {is : Kind → Bool} {x y : Expectation} {c c' : Cursor} {a : α} {o : Outcome α}

/-- Where the next token decides between two steps, it is passed in front of the first of them. -/
theorem of_bind_accept {p q : Parse α} (hfin : is .finish = false)
    (h : (accept is >>= fun b => if b = true then p else q) c = o) :
    (∃ t c₁, is t.kind = true ∧ Passes [t] c c₁ ∧ p c₁ = o) ∨ (is c.kind = false ∧ q c = o) := by
  by_cases his : is c.kind = true
  · have hread : accept is c = .parsed true c.advance := by rw [accept_apply, if_pos his]
    have hne : c.kind ≠ .finish := fun hk => by rw [hk, hfin] at his; exact absurd his (by simp)
    obtain ⟨t, ht, hpass, -⟩ := exists_passes_advance hne
    refine .inl ⟨t, _, by rw [ht]; exact his, hpass, ?_⟩
    rw [← h, bind_of_parsed hread, if_pos rfl]
  · have hread : accept is c = .parsed false c := by rw [accept_apply, if_neg his]
    refine .inr ⟨by simpa using his, ?_⟩
    rw [← h, bind_of_parsed hread, if_neg (by simp)]

/-- A step behind a token that has to be there. -/
theorem of_bind_expect {f : Token → Parse α} (hfin : is .finish = false)
    (h : (expect is x >>= f) c = .parsed a c') :
    ∃ t c₁, is t.kind = true ∧ Passes [t] c c₁ ∧ f t c₁ = .parsed a c' := by
  obtain ⟨t, c₁, ht, h⟩ := bind_eq_parsed_iff.1 h
  rw [expect_apply] at ht
  by_cases his : is c.kind = true
  · rw [if_pos his] at ht
    cases ht
    have hne : c.kind ≠ .finish := fun hk => by rw [hk, hfin] at his; exact absurd his (by simp)
    obtain ⟨t, ht, hpass, hprev⟩ := exists_passes_advance hne
    rw [hprev] at h
    exact ⟨t, _, by rw [ht]; exact his, hpass, h⟩
  · rw [if_neg his] at ht
    cases ht

/-- Where a token has to be there, a step fails in front of it or behind it. -/
theorem of_bind_expect_failed {f : Token → Parse α} (hfin : is .finish = false)
    (h : (expect is x >>= f) c = .failed y c') :
    c' = c ∨ ∃ t c₁, is t.kind = true ∧ Passes [t] c c₁ ∧ f t c₁ = .failed y c' := by
  by_cases his : is c.kind = true
  · have hne : c.kind ≠ .finish := fun hk => by rw [hk, hfin] at his; exact absurd his (by simp)
    obtain ⟨t, ht, hpass, hprev⟩ := exists_passes_advance hne
    have hread : expect is x c = .parsed t c.advance := by rw [expect_apply, if_pos his, hprev]
    rw [bind_of_parsed hread] at h
    exact .inr ⟨t, _, by rw [ht]; exact his, hpass, h⟩
  · have hread : expect is x c = .failed x c := by rw [expect_apply, if_neg his]
    rw [bind_of_failed hread] at h
    cases h
    exact .inl rfl

/-- A step behind a token that is not the end of the text. -/
theorem of_bind_next {f : Token → Parse α} (hne : c.kind ≠ .finish) (h : (next >>= f) c = o) :
    ∃ t c₁, t.kind = c.kind ∧ Passes [t] c c₁ ∧ f t c₁ = o := by
  obtain ⟨t, ht, hpass, hprev⟩ := exists_passes_advance hne
  have hread : next c = .parsed t c.advance := by rw [next_apply, hprev]
  exact ⟨t, _, ht, hpass, by rw [← h, bind_of_parsed hread]⟩

/-- A step behind all the separators ahead. -/
theorem of_bind_skipSeparators {f : Unit → Parse α}
    (h : (skipSeparators >>= f) c = .parsed a c') :
    ∃ seps c₁, (∀ t ∈ seps, t.kind = .separator) ∧ Passes seps c c₁ ∧ c₁.kind ≠ .separator ∧
      f () c₁ = .parsed a c' := by
  obtain ⟨u, c₁, hu, h⟩ := bind_eq_parsed_iff.1 h
  cases hu
  obtain ⟨seps, hseps, hpass, hne⟩ := passes_behindSeparators c.previous c.rest
  exact ⟨seps, _, hseps, hpass, hne, h⟩

end

end Syntax

end UniformScript
