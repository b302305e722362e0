import UniformScript.Proofs.Syntax.Accepting
import UniformScript.Proofs.Syntax.RoundTrip

/-!
# Where reading fails

Where a reading step fails, the tokens that it has passed are the beginning of some that it
accepts: the failure comes no later than at the first token with which they cannot go on.  Each
step in a row is completed in turn.  What was read already is read again from its tokens, in front
of the next token as it stands or of the first token of a completion, which closes what is in front
of it; the rest of the step is completed by samples.

A failure at the first token of all says nothing of the kind, as it may be that another step takes
that token; but there the sample of the nonterminal is a completion.

* `FailsViably`: where a step fails, the tokens passed so far can be completed.
* `FailsViably.behind`: a step that passes tokens and goes on as another one fails as that does.
* `failsViably`: every nonterminal fails viably.
* `parse_viable_prefix`: the tokens in front of a syntax error are the beginning of a program.
-/

namespace UniformScript.Syntax

open Parse Cursor Filter Token

/-! ## Failing -/

section

variable {α β : Type} {p q : ℕ → Parse α} {is : Kind → Bool} {x : Expectation} {n : ℕ} {t : Token}
  {us vs ws : List Token} {c c₁ c' : Cursor}

/-- The tokens are the beginning of some that the step accepts. -/
def ViablePrefix (p : ℕ → Parse α) (ts : List Token) : Prop := ∃ vs, Accepts p (ts ++ vs)

theorem Accepts.viable (h : Accepts p us) : ViablePrefix p us :=
  ⟨[], by rwa [List.append_nil]⟩

/-- Where the step fails, within the bound, the tokens it has passed, if there are any, are the
beginning of some that it accepts. -/
def FailsViably (p : ℕ → Parse α) (n : ℕ) (c : Cursor) : Prop :=
  ∀ (x : Expectation) (c' : Cursor), p n c = .failed x c' →
    ∃ ts, Passes ts c c' ∧ (ts ≠ [] → ViablePrefix p ts)

/-- A step that fails viably, and accepts a run of tokens. -/
structure Viable (p : ℕ → Parse α) (n : ℕ) (us : List Token) (c : Cursor) : Prop where
  accepts : Accepts p us
  fails : FailsViably p n c

namespace FailsViably

theorem of_succ (h : FailsViably (fun n => p (n + 1)) n c) : FailsViably p (n + 1) c := by
  intro x c' hfail
  obtain ⟨ts, hts, hv⟩ := h x c' hfail
  exact ⟨ts, hts, fun hne => (hv hne).imp fun _ hvs => hvs.of_succ⟩

/-- A step that fails at most where it begins. -/
theorem here (h : ∀ {x c'}, p n c = .failed x c' → c' = c) : FailsViably p n c := by
  intro x c' hfail
  obtain rfl := h hfail
  exact ⟨[], .refl _, fun hne => absurd rfl hne⟩

/-- A step that is another step in front of such a token fails as that does. -/
theorem of_eq (h : FailsViably q n c) (hpq : ∀ n d, d.kind = c.kind → p n d = q n d) :
    FailsViably p n c := by
  intro x c' hfail
  rw [hpq n c rfl] at hfail
  obtain ⟨ts, hts, hv⟩ := h x c' hfail
  refine ⟨ts, hts, fun hne => (hv hne).imp fun vs hvs => hvs.of_eq fun hd _ n => hpq n _ ?_⟩
  obtain ⟨d₁, hd₁, -⟩ := hd.append_inv
  exact hts.kind_eq hd₁ hne

/-- A step that passes some tokens and goes on as another one fails as that does. -/
theorem behind (hpass : Passes us c c₁) (hp : p n c = q n c₁) (hq : FailsViably q n c₁)
    (hus : ViablePrefix p us)
    (hgo : ∀ {ts vs c'}, ts ≠ [] → Passes ts c₁ c' → Accepts q (ts ++ vs) →
      Accepts p (us ++ (ts ++ vs))) : FailsViably p n c := by
  intro x c' hfail
  rw [hp] at hfail
  obtain ⟨ts, hts, hv⟩ := hq x c' hfail
  refine ⟨us ++ ts, hpass.trans hts, fun _ => ?_⟩
  cases ts with
  | nil => rwa [List.append_nil]
  | cons t ts =>
    obtain ⟨vs, hvs⟩ := hv (by simp)
    refine ⟨vs, ?_⟩
    rw [List.append_assoc]
    exact hgo (by simp) hts hvs

/-- A step that passes a token and goes on as another one. -/
theorem cons (hpass : Passes [t] c c₁)
    (hp : ∀ n previous rest, p n ⟨previous, t :: rest⟩ = q n ⟨t, rest⟩) (hq : Viable q n us c₁) :
    FailsViably p n c := by
  have ht : t.kind ≠ .finish := hpass.kind_ne t (List.mem_singleton_self t)
  obtain ⟨previous, rest⟩ := c
  obtain ⟨rest, rfl, rfl⟩ := hpass.singleton_inv
  exact behind hpass (hp n previous rest) hq.fails ⟨us, .cons ht hp hq.accepts⟩
    fun _ _ hvs => .cons ht hp hvs

theorem expecting (h : FailsViably p n c) :
    FailsViably (fun n => Parse.expecting x (p n)) n c := by
  intro y c' hfail
  rcases eq_or_failed_of_expecting hfail with rfl | hfail
  · exact ⟨[], .refl _, fun hne => absurd rfl hne⟩
  · obtain ⟨ts, hts, hv⟩ := h _ _ hfail
    exact ⟨ts, hts, fun hne => (hv hne).imp fun _ hvs => hvs.expecting⟩

theorem look {f : ℕ → Kind → Parse α} (h : FailsViably (fun n => f n c.kind) n c) :
    FailsViably (fun n => Parse.look >>= f n) n c :=
  of_eq h fun n d hd => by rw [look_bind, hd]

theorem next {f : ℕ → Token → Parse α} (us : List Token) (hne : c.kind ≠ .finish)
    (hf : ∀ (t : Token) c₁, t.kind = c.kind → Viable (fun n => f n t) n us c₁) :
    FailsViably (fun n => Parse.next >>= f n) n c := by
  obtain ⟨t, ht, hpass, -⟩ := exists_passes_advance hne
  exact cons hpass (fun n previous rest => next_bind (by rwa [ht])) (hf t _ ht)

/-- Where the next token decides between two steps, and behind it the first of them goes on as
another step does. -/
theorem accept_as (f : ℕ → Token → Parse α) (us : List Token) (hfin : is .finish = false)
    (hp : ∀ t n rest, p n ⟨t, rest⟩ = f n t ⟨t, rest⟩)
    (hf : ∀ (t : Token) c₁, is t.kind = true → Viable (fun n => f n t) n us c₁)
    (hq : is c.kind = false → FailsViably q n c) :
    FailsViably (fun n => Parse.accept is >>= fun b => if b = true then p n else q n) n c := by
  by_cases his : is c.kind = true
  · have hne : c.kind ≠ .finish := fun hk => by simp [hk, hfin] at his
    obtain ⟨t, ht, hpass, -⟩ := exists_passes_advance hne
    have his : is t.kind = true := by rwa [ht]
    refine cons hpass (fun n previous rest => ?_) (hf t _ his)
    rw [accept_bind his (by rwa [ht]), if_pos rfl, hp]
  · refine of_eq (hq (by simpa using his)) fun n d hd => ?_
    rw [accept_bind_of_not (by rwa [hd]), if_neg (by simp)]

/-- Where the next token decides between two steps. -/
theorem accept (us : List Token) (hfin : is .finish = false)
    (hp : ∀ (t : Token) c₁, is t.kind = true → Viable p n us c₁)
    (hq : is c.kind = false → FailsViably q n c) :
    FailsViably (fun n => Parse.accept is >>= fun b => if b = true then p n else q n) n c :=
  accept_as (fun n _ => p n) us hfin (fun _ _ _ => rfl) hp hq

/-- The same where the first of the steps asks for the span of the token. -/
theorem accept_span {f : ℕ → Span → Parse α} (us : List Token) (hfin : is .finish = false)
    (hf : ∀ (t : Token) c₁, is t.kind = true → Viable (fun n => f n t.span) n us c₁)
    (hq : is c.kind = false → FailsViably q n c) :
    FailsViably (fun n => Parse.accept is >>= fun b => if b = true then lastSpan >>= f n else q n)
      n c :=
  accept_as (fun n t => f n t.span) us hfin (fun _ _ _ => rfl) hf hq

theorem skipSeparators {f : ℕ → Unit → Parse α} (us : List Token)
    (hf : ∀ c₁, Viable (fun n => f n ()) n us c₁) (hus : Leads us (· ≠ .separator)) :
    FailsViably (fun n => Parse.skipSeparators >>= f n) n c := by
  obtain ⟨seps, hseps, hpass, hne⟩ := passes_behindSeparators c.previous c.rest
  have hsample := Accepts.skipSeparators hseps (hf c).accepts hus
  refine behind hpass (bind_of_parsed rfl) (hf _).fails ⟨us, hsample⟩
    fun {ts vs c'} hts hpass' hvs => .skipSeparators hseps hvs ?_
  -- the tokens that are passed behind the separators begin with another token
  cases ts with
  | nil => exact absurd rfl hts
  | cons t ts =>
    rw [hpass'.kind_of_cons] at hne
    exact hne

/-- One step after a nonterminal.  If it does not fail where it begins, the nonterminal has to end
again in front of the same token. -/
theorem bind {r : Nonterminal β} {f : ℕ → β → Parse α} (hr : FailsViably r.read n c)
    (hstart : r.StartsAt c.kind) (hf : ∀ b c₁, Viable (fun n => f n b) n ws c₁)
    (hws : Leads ws Closes)
    (hb : ∀ b c₁, r.Bears c₁.kind c₁.kind ∨ ∀ x c', f n b c₁ = .failed x c' → c' = c₁) :
    FailsViably (fun n => r.read n >>= f n) n c := by
  intro x c' hfail
  rcases bind_eq_failed_iff.1 hfail with hfirst | ⟨b, c₁, hread, hsecond⟩
  · obtain ⟨ts, hts, hv⟩ := hr x c' hfirst
    refine ⟨ts, hts, fun hne => ?_⟩
    obtain ⟨vs, hvs⟩ := hv hne
    refine ⟨vs ++ ws, ?_⟩
    rw [← List.append_assoc]
    exact hvs.bind (fun b => (hf b c).accepts) hws
  · obtain ⟨us, hus⟩ := takesAt n r hstart hread
    have hcompleted : Accepts (fun n => r.read n >>= f n) (us ++ ws) :=
      .behind hus (hf b c₁).accepts fun hd hd' => r.bears_of_closes _ (hws.kind hd hd')
    rcases hb b c₁ with hbears | hstop
    · refine behind hus.passes (bind_of_parsed hread) (hf b c₁).fails ⟨ws, hcompleted⟩
        (fun hts hpass hvs => .behind hus hvs fun hd _ => ?_) x c' hfail
      obtain ⟨d₁, hd₁, -⟩ := hd.append_inv
      rwa [hpass.kind_eq hd₁ hts]
    · obtain rfl := hstop x c' hsecond
      exact ⟨us, hus.passes, fun _ => ⟨ws, hcompleted⟩⟩

end FailsViably

namespace Viable

theorem exists_viable (h : Viable p n us c) (hfail : p n c = .failed x c') :
    ∃ ts, Passes ts c c' ∧ ViablePrefix p ts := by
  obtain ⟨ts, hts, hv⟩ := h.fails x c' hfail
  refine ⟨ts, hts, ?_⟩
  cases ts with
  | nil => exact ⟨us, h.accepts⟩
  | cons t ts => exact hv (by simp)

/-- The end of a construct: nothing is read, and nothing can fail. -/
theorem pure (a : α) : Viable (fun _ => Pure.pure a) n [] c where
  accepts := .nil fun _ => ⟨a, fun _ => rfl⟩
  fails := .here fun hfail => by cases hfail

/-- The end of a construct that asks for the span of the token passed last. -/
theorem pure_span (g : Span → α) :
    Viable (fun _ => lastSpan >>= fun span => Pure.pure (g span)) n [] c where
  accepts := .nil fun d => ⟨g d.previous.span, fun _ => rfl⟩
  fails := .here fun hfail => by cases hfail

/-- A token that has to be there, in front of another step. -/
theorem expect {f : ℕ → Token → Parse α} (hfin : is .finish = false) (ht : is t.kind = true)
    (hf : ∀ (t : Token) c₁, is t.kind = true → Viable (fun n => f n t) n us c₁) :
    Viable (fun n => Parse.expect is x >>= f n) n (t :: us) c where
  accepts := by
    have hne : t.kind ≠ .finish := fun hk => by simp [hk, hfin] at ht
    exact .cons hne (fun n previous rest => expect_bind ht hne) (hf t c ht).accepts
  fails := by
    by_cases his : is c.kind = true
    · have hne : c.kind ≠ .finish := fun hk => by simp [hk, hfin] at his
      obtain ⟨u, hu, hpass, -⟩ := exists_passes_advance hne
      have his : is u.kind = true := by rwa [hu]
      exact .cons hpass (fun n previous rest => expect_bind his (by rwa [hu])) (hf u _ his)
    · refine .here fun hfail => ?_
      rcases of_bind_expect_failed hfin hfail with rfl | ⟨u, c₁, hu, hpass, -⟩
      · rfl
      · rw [hpass.kind_of_cons] at his
        exact absurd hu his

/-- Where the next token decides between two steps, and the second accepts tokens that do not begin
with such a token. -/
theorem accept (us : List Token) (hfin : is .finish = false)
    (hp : ∀ (t : Token) c₁, is t.kind = true → Viable p n us c₁)
    (hq : ∀ c₁, Viable q n vs c₁) (hvs : Leads vs fun k => ¬ is k = true) :
    Viable (fun n => Parse.accept is >>= fun b => if b = true then p n else q n) n vs c where
  accepts := .of_not_accept (hq c).accepts hvs
  fails := .accept us hfin hp fun _ => (hq c).fails

end Viable

/-! ## Names -/

/-- Where further names fail, those so far can be completed. -/
theorem exists_generatesNames_of_failed (h : moreNames n c = .failed x c') :
    ∃ ts vs names, Passes ts c c' ∧ GeneratesNames (ts ++ vs) names := by
  induction n generalizing c with
  | zero => cases h
  | succ n ih =>
    unfold moreNames at h
    rcases of_bind_accept rfl h with ⟨comma, c₁, hcomma, pcomma, h⟩ | ⟨-, h⟩
    · have hcomma := Kind.isSymbol_iff.1 hcomma
      rcases of_bind_expect_failed rfl h with rfl | ⟨name, c₂, hname, pname, h⟩
      · exact ⟨[comma], [ofName "x"], _, pcomma, .more hcomma rfl .none⟩
      · have hname := Kind.isIdentifier_iff.1 hname
        rcases bind_eq_failed_iff.1 h with h | ⟨_, _, _, h⟩
        · obtain ⟨ts, vs, names, hts, hgenerates⟩ := ih h
          exact ⟨_, vs, _, pcomma.cons (pname.cons hts), .more hcomma hname hgenerates⟩
        · cases h
    · cases h

/-- Where parameters fail, those so far can be completed. -/
theorem exists_generatesParameters_of_failed (h : parameters n c = .failed x c') :
    ∃ ts vs names, Passes ts c c' ∧ GeneratesParameters (ts ++ vs) names := by
  unfold parameters at h
  rw [look_bind] at h
  split at h
  · rename_i hid
    have hid : c.kind = .identifier := Kind.isIdentifier_iff.1 hid
    obtain ⟨name, c₁, hname, pname, h⟩ := of_bind_next (by simp [hid]) h
    have hname := hname.trans hid
    rcases bind_eq_failed_iff.1 h with h | ⟨names, c₂, hnames, h⟩
    · obtain ⟨ts, vs, names, hts, hgenerates⟩ := exists_generatesNames_of_failed h
      have hall := GeneratesParameters.some hname hgenerates
        (rfl : (ofSymbol .rightParen).kind = .symbol .rightParen)
      rw [List.cons_append, List.append_assoc] at hall
      exact ⟨name :: ts, vs ++ [ofSymbol .rightParen], _, pname.cons hts, hall⟩
    · obtain ⟨ts, hts, hgenerates⟩ := generates_of_moreNames hnames
      rcases of_bind_expect_failed rfl h with rfl | ⟨_, _, _, _, h⟩
      · exact ⟨_, [ofSymbol .rightParen], _, pname.cons hts, .some hname hgenerates rfl⟩
      · cases h
  · rcases of_bind_expect_failed rfl h with rfl | ⟨_, _, _, _, h⟩
    · exact ⟨[], [ofSymbol .rightParen], _, .refl _, .none rfl⟩
    · cases h

/-- Where the name of a function fails, it can be completed. -/
theorem exists_generatesName_of_failed (h : functionName c = .failed x c') :
    ∃ ts vs name, Passes ts c c' ∧ GeneratesName (ts ++ vs) name := by
  unfold functionName at h
  rw [look_bind] at h
  split at h
  · rename_i hid
    have hid : c.kind = .identifier := Kind.isIdentifier_iff.1 hid
    obtain ⟨name, c₁, hname, pname, h⟩ := of_bind_next (by simp [hid]) h
    rcases of_bind_expect_failed rfl h with rfl | ⟨_, _, _, _, h⟩
    · exact ⟨[name], [ofSymbol .leftParen], _, pname, .named (hname.trans hid) rfl⟩
    · cases h
  · rcases of_bind_expect_failed rfl h with rfl | ⟨_, _, _, _, h⟩
    · exact ⟨[], [ofSymbol .leftParen], _, .refl _, .anonymous rfl⟩
    · cases h

end

/-! ## Further statements -/

/-- Further statements do not fail: what cannot be read is left. -/
theorem moreStatements_ne_failed (n : ℕ) {x : Expectation} {c c' : Cursor} :
    moreStatements n c ≠ .failed x c' := by
  induction n generalizing c with
  | zero => simp [moreStatements, Parse.exhausted]
  | succ n ih =>
    intro hfail
    unfold moreStatements at hfail
    rcases of_bind_accept rfl hfail with ⟨separator, c₁, -, -, hfail⟩ | ⟨-, hfail⟩
    · rcases bind_eq_failed_iff.1 hfail with hfail | ⟨_, c₂, -, hfail⟩
      · cases hfail
      rcases bind_eq_failed_iff.1 hfail with hfail | ⟨found, c₃, -, hfail⟩
      · exact attempt_ne_failed _ _ _ _ hfail
      cases found with
      | none => cases hfail
      | some first =>
        rcases bind_eq_failed_iff.1 hfail with hfail | ⟨rest, c₄, -, hfail⟩
        · exact ih hfail
        · cases hfail
    · cases hfail

/-! ## Every nonterminal -/

/-- Lists end at a token that closes. -/
def Nonterminal.Delimited {α : Type} : Nonterminal α → Prop
  | items close _ => Closes (.symbol close)
  | _ => True

/-- The nonterminals that are read anywhere, and that end in front of a token wherever they ended
in front of one of its kind. -/
def Nonterminal.Inner {α : Type} : Nonterminal α → Prop
  | forLoop | function | statements | moreStatements => False
  | items close _ => Closes (.symbol close)
  | _ => True

theorem Nonterminal.Inner.startsAt {α : Type} {r : Nonterminal α} (h : r.Inner) (k : Kind) :
    r.StartsAt k := by
  cases r with
  | forLoop => exact h.elim
  | function => exact h.elim
  | _ => trivial

theorem Nonterminal.Inner.delimited {α : Type} {r : Nonterminal α} (h : r.Inner) :
    r.Delimited := by
  cases r with
  | items close x => exact h
  | _ => trivial

theorem Nonterminal.Inner.bears {α : Type} {r : Nonterminal α} (h : r.Inner) (k : Kind) :
    r.Bears k k := by
  cases r with
  | statements => exact h.elim
  | moreStatements => exact h.elim
  | _ => exact Agrees.refl k

/-- Within the bound, every nonterminal fails viably. -/
def FailsViablyAt (n : ℕ) : Prop :=
  ∀ {α : Type} (r : Nonterminal α) {c : Cursor}, r.StartsAt c.kind → r.Delimited →
    FailsViably r.read n c

namespace FailsViablyAt

variable {n : ℕ} {c : Cursor}

/-- A nonterminal at the front of a construct. -/
theorem front {α β : Type} {f : ℕ → β → Parse α} (ih : FailsViablyAt n) (r : Nonterminal β)
    (ws : List Token) (hr : r.Inner) (hws : Leads ws Closes)
    (hf : ∀ b c₁, Viable (fun n => f n b) n ws c₁) : FailsViably (fun n => r.read n >>= f n) n c :=
  .bind (ih r (hr.startsAt _) hr.delimited) (hr.startsAt _) hf hws
    fun _ c₁ => .inl (hr.bears c₁.kind)

/-- A nonterminal in front of another step. -/
theorem bind {α β : Type} {ws : List Token} {f : ℕ → β → Parse α} (ih : FailsViablyAt n)
    (r : Nonterminal β) (hr : r.Inner) (hws : Leads ws Closes)
    (hf : ∀ b c₁, Viable (fun n => f n b) n ws c₁) :
    Viable (fun n => r.read n >>= f n) n (r.sample ++ ws) c where
  accepts := (accepts_sample r).bind (fun b => (hf b c).accepts) hws
  fails := ih.front r ws hr hws hf

/-- A nonterminal at the end of a construct. -/
theorem viable {α : Type} (ih : FailsViablyAt n) (r : Nonterminal α) (hr : r.Inner) :
    Viable r.read n r.sample c :=
  ⟨accepts_sample r, ih r (hr.startsAt _) hr.delimited⟩

/-- The statements of a block in front of a step that fails where it begins, or begins at a token
that ends statements. -/
theorem block {α : Type} {ws : List Token} {f : ℕ → Program → Parse α} (ih : FailsViablyAt n)
    (hws : Leads ws Closes) (hf : ∀ b c₁, Viable (fun n => f n b) n ws c₁)
    (hend : ∀ b c₁, EndsStatements c₁.kind ∨ ∀ x c', f n b c₁ = .failed x c' → c' = c₁) :
    Viable (fun n => statements n >>= f n) n (Nonterminal.statements.sample ++ ws) c where
  accepts := (accepts_sample .statements).bind (fun b => (hf b c).accepts) hws
  fails := .bind (ih .statements trivial trivial) trivial hf hws
    fun b c₁ => (hend b c₁).imp_left fun hk => ⟨hk, .refl c₁.kind⟩

/-! ### Operators -/

theorem expression (ih : FailsViablyAt n) : FailsViably Nonterminal.expression.read (n + 1) c := by
  refine .of_succ ?_
  show FailsViably (fun n => Syntax.expression (n + 1)) n c
  unfold Syntax.expression
  refine .accept_span [ofName "x", ofSymbol .arrow, ofName "x"] rfl (fun push c₁ _ => ?_)
    fun _ => .expecting (ih (.chain .junction) trivial trivial)
  refine .expect rfl rfl fun name c₂ _ => .expect rfl rfl fun arrow c₃ _ => ?_
  exact ih.bind .expression trivial .nil fun value c₄ => .pure _

theorem comparison (ih : FailsViablyAt n) : FailsViably Nonterminal.comparison.read (n + 1) c := by
  refine .of_succ ?_
  show FailsViably (fun n => Syntax.comparison (n + 1)) n c
  unfold Syntax.comparison
  refine .accept_span [ofName "x"] rfl (fun sign c₁ _ => ?_)
    fun _ => .expecting (ih (.chain .comparison) trivial trivial)
  exact ih.bind .comparison trivial .nil fun operand c₂ => .pure _

theorem chain (ih : FailsViablyAt n) (level : Level) :
    FailsViably (Nonterminal.chain level).read (n + 1) c := by
  refine .of_succ ?_
  show FailsViably (fun n => Syntax.chain (n + 1) level) n c
  unfold Syntax.chain
  exact ih.front (.operand level) [] trivial .nil fun left c₁ =>
    ih.viable (.links level left) trivial

theorem links (ih : FailsViablyAt n) (level : Level) (left : Expr) :
    FailsViably (Nonterminal.links level left).read (n + 1) c := by
  refine .of_succ ?_
  show FailsViably (fun n => Syntax.links (n + 1) level left) n c
  unfold Syntax.links
  refine .look ?_
  cases hop : level.operator? c.kind with
  | none => exact .here fun hfail => by cases hfail
  | some op =>
    have hne : c.kind ≠ .finish := fun hk => by rw [hk] at hop; cases hop
    refine .next [ofName "x"] hne fun sign c₁ _ => ?_
    exact ih.bind (.rightOperand level) trivial .nil fun right c₂ =>
      ih.viable (.links level (.binary (left.span.through right.span) op left right)) trivial

theorem operand (ih : FailsViablyAt n) (level : Level) :
    FailsViably (Nonterminal.operand level).read (n + 1) c := by
  refine .of_succ ?_
  cases level with
  | junction => exact ih .comparison trivial trivial
  | comparison => exact ih (.chain .sum) trivial trivial
  | sum => exact ih (.chain .product) trivial trivial
  | product => exact ih .factor trivial trivial
  | power => exact ih .call trivial trivial

theorem rightOperand (ih : FailsViablyAt n) (level : Level) :
    FailsViably (Nonterminal.rightOperand level).read (n + 1) c := by
  refine .of_succ ?_
  cases level with
  | power => exact ih .factor trivial trivial
  | junction => exact ih (.operand .junction) trivial trivial
  | comparison => exact ih (.operand .comparison) trivial trivial
  | sum => exact ih (.operand .sum) trivial trivial
  | product => exact ih (.operand .product) trivial trivial

theorem factor (ih : FailsViablyAt n) : FailsViably Nonterminal.factor.read (n + 1) c := by
  refine .of_succ ?_
  show FailsViably (fun n => Syntax.factor (n + 1)) n c
  unfold Syntax.factor
  refine .look ?_
  cases hop : UnaryOp.sign? c.kind with
  | none => exact ih (.chain .power) trivial trivial
  | some op =>
    have hne : c.kind ≠ .finish := fun hk => by rw [hk] at hop; cases hop
    refine .next [ofName "x"] hne fun sign c₁ _ => ?_
    exact ih.bind .factor trivial .nil fun operand c₂ => .pure _

/-! ### Calls and lists -/

theorem call (ih : FailsViablyAt n) : FailsViably Nonterminal.call.read (n + 1) c := by
  refine .of_succ ?_
  show FailsViably (fun n => Syntax.call (n + 1)) n c
  unfold Syntax.call
  refine ih.front .atom [] trivial .nil fun callee c₁ => ?_
  refine .accept [ofSymbol .rightParen] rfl (fun paren c₂ _ => ?_)
    (fun c₂ => .pure _) fun k hk => by simpa using hk.ne_symbol (by simp [Closes])
  exact ih.bind (.items .rightParen .commaOrParen) (by simp [Nonterminal.Inner, Closes]) .nil
    fun args c₃ => .pure_span _

theorem items (ih : FailsViablyAt n) {close : Symbol} (x : Expectation)
    (hclose : Closes (.symbol close)) :
    FailsViably (Nonterminal.items close x).read (n + 1) c := by
  refine .of_succ ?_
  show FailsViably (fun n => Syntax.items (n + 1) close x) n c
  unfold Syntax.items
  refine .accept [] rfl (fun t c₁ _ => .pure _) fun _ => ?_
  refine ih.front .expression [ofSymbol close] trivial hclose fun first c₁ => ?_
  refine ih.bind .moreItems trivial hclose fun rest c₂ => ?_
  exact .expect rfl (by simp [ofSymbol]) fun t c₃ _ => .pure _

theorem moreItems (ih : FailsViablyAt n) : FailsViably Nonterminal.moreItems.read (n + 1) c := by
  refine .of_succ ?_
  show FailsViably (fun n => Syntax.moreItems (n + 1)) n c
  unfold Syntax.moreItems
  refine .accept [ofName "x"] rfl (fun comma c₁ _ => ?_) fun _ => .here fun hfail => by cases hfail
  refine ih.bind .expression trivial .nil fun first c₂ => ?_
  exact ih.bind .moreItems trivial .nil fun rest c₃ => .pure _

theorem atom (ih : FailsViablyAt n) : FailsViably Nonterminal.atom.read (n + 1) c := by
  refine .of_succ ?_
  show FailsViably (fun n => Syntax.atom (n + 1)) n c
  unfold Syntax.atom
  refine .look ?_
  cases hkind : c.kind with
  | literal l =>
    cases l with
    | whole m =>
      exact .next [] (by simp [hkind]) fun t c₁ _ => .pure _
    | decimal y =>
      exact .next [] (by simp [hkind]) fun t c₁ _ => .pure _
    | text s =>
      exact .next [] (by simp [hkind]) fun t c₁ _ => .pure _
  | identifier =>
    refine .next [] (by simp [hkind]) fun name c₁ _ => ?_
    refine .accept [ofName "x"] rfl (fun arrow c₂ _ => ?_)
      (fun c₂ => .pure _) fun k hk => by simpa using hk.ne_symbol (by simp [Closes])
    exact ih.bind .expression trivial .nil fun value c₃ => .pure _
  | symbol s =>
    cases s with
    | leftParen =>
      refine .next [ofName "x", ofSymbol .rightParen] (by simp [hkind]) fun paren c₁ _ => ?_
      refine ih.bind .expression trivial (by simp [Leads, Closes, ofSymbol]) fun inner c₂ => ?_
      exact .expect rfl rfl fun t c₃ _ => .pure _
    | leftBracket =>
      refine .next [ofSymbol .rightBracket] (by simp [hkind]) fun bracket c₁ _ => ?_
      exact ih.bind (.items .rightBracket .commaOrBracket) (by simp [Nonterminal.Inner, Closes])
        .nil fun elements c₂ => .pure_span _
    | _ => exact .here fun hfail => by cases hfail; rfl
  | keyword w =>
    cases w with
    | ifWord =>
      refine .next [ofName "x", ofKeyword .doWord, ofName "x"] (by simp [hkind])
        fun word c₁ _ => ?_
      exact ih.bind .case trivial .nil fun parts c₂ => .pure_span _
    | forWord => exact ih .forLoop hkind trivial
    | whileWord =>
      refine .next [ofName "x", ofKeyword .doWord, ofName "x"] (by simp [hkind])
        fun word c₁ _ => ?_
      refine ih.bind .expression trivial (by simp [Leads, Closes, ofKeyword])
        fun condition c₂ => ?_
      refine .expect rfl rfl fun doWord c₃ _ => ?_
      exact ih.bind .closedBody trivial .nil fun body c₄ => .pure_span _
    | define => exact ih .function hkind trivial
    | _ => exact .here fun hfail => by cases hfail; rfl
  | _ => exact .here fun hfail => by cases hfail; rfl

/-! ### Choices -/

theorem case (ih : FailsViablyAt n) : FailsViably Nonterminal.case.read (n + 1) c := by
  refine .of_succ ?_
  show FailsViably (fun n => Syntax.case (n + 1)) n c
  unfold Syntax.case
  refine ih.front .expression [ofKeyword .doWord, ofName "x"] trivial
    (by simp [Leads, Closes, ofKeyword]) fun condition c₁ => .expect rfl rfl fun doWord c₂ _ => ?_
  refine .accept [ofName "x", ofKeyword .fin] rfl (fun separator c₃ _ => ?_) (fun c₃ => ?_)
    (by simp [Leads, ofName])
  · refine ih.block (by simp [Leads, Closes, ofKeyword]) (fun block c₄ => ?_) fun block c₄ => ?_
    · refine ⟨.of_accept rfl rfl (.nil fun d => ⟨_, fun n => rfl⟩), ?_⟩
      refine .accept [] rfl (fun fin c₅ _ => .pure _) fun _ => ?_
      refine .look (.look ?_)
      split
      · exact ih.front .branches [] trivial .nil fun rest c₅ => .pure _
      · exact .here fun hfail => by cases hfail; rfl
    · by_cases hnext : (c₄.kind.isKeyword .elif || c₄.kind.isKeyword .elseWord) = true
      · exact .inl (.inr (by simpa using hnext))
      · refine .inr fun x c' hfail => ?_
        rcases of_bind_accept rfl hfail with ⟨_, _, _, _, hfail⟩ | ⟨-, hfail⟩
        · cases hfail
        · rw [look_bind, look_bind, if_neg hnext] at hfail
          cases hfail
          rfl
  · refine ih.bind .expression trivial .nil fun value c₄ => ?_
    exact ih.bind .branches trivial .nil fun rest c₅ => .pure _

theorem branches (ih : FailsViablyAt n) : FailsViably Nonterminal.branches.read (n + 1) c := by
  refine .of_succ ?_
  show FailsViably (fun n => Syntax.branches (n + 1)) n c
  unfold Syntax.branches
  refine .accept [ofName "x", ofKeyword .doWord, ofName "x"] rfl (fun word c₁ _ => ?_) fun _ => ?_
  · exact ih.bind .case trivial .nil fun parts c₂ => .pure _
  · refine .accept [ofName "x"] rfl (fun word c₁ _ => ?_) fun _ =>
      .here fun hfail => by cases hfail
    exact ih.bind .closedBody trivial .nil fun body c₂ => .pure _

/-! ### Loops and functions -/

theorem forLoop (ih : FailsViablyAt n) (hkind : c.kind = .keyword .forWord) :
    FailsViably Nonterminal.forLoop.read (n + 1) c := by
  refine .of_succ ?_
  show FailsViably (fun n => Syntax.forLoop (n + 1)) n c
  unfold Syntax.forLoop
  refine .next [ofName "x", ofSymbol .arrow, ofName "x", ofKeyword .untilWord, ofName "x",
    ofKeyword .doWord, ofName "x"] (by simp [hkind]) fun word c₁ _ => ?_
  refine .expect rfl rfl fun name c₂ _ => .expect rfl rfl fun arrow c₃ _ => ?_
  refine ih.bind .expression trivial (by simp [Leads, Closes, ofKeyword]) fun first c₄ => ?_
  refine .expect rfl rfl fun untilWord c₅ _ => ?_
  refine ih.bind .expression trivial (by simp [Leads, Closes, ofKeyword]) fun bound c₆ => ?_
  refine ih.bind .step trivial (by simp [Leads, Closes, ofKeyword]) fun step c₇ => ?_
  refine .expect rfl rfl fun doWord c₈ _ => ?_
  exact ih.bind .closedBody trivial .nil fun body c₉ => .pure_span _

theorem step (ih : FailsViablyAt n) : FailsViably Nonterminal.step.read (n + 1) c := by
  refine .of_succ ?_
  show FailsViably (fun n => Syntax.step (n + 1)) n c
  unfold Syntax.step
  refine .accept [ofName "x"] rfl (fun word c₁ _ => ?_) fun _ => .here fun hfail => by cases hfail
  exact ih.bind .expression trivial .nil fun value c₂ => .pure _

/-- A block and the word behind it. -/
theorem blockBody (ih : FailsViablyAt n) :
    Viable (fun n => do
      let block ← statements n
      let _ ← expect (Kind.isKeyword .fin) .fin
      return block.toBody) n [ofName "x", ofKeyword .fin] c := by
  refine ih.block (by simp [Leads, Closes, ofKeyword])
    (fun block c₁ => .expect rfl rfl fun fin c₂ _ => .pure _)
    fun block c₁ => .inr fun x c' hfail => ?_
  rcases of_bind_expect_failed rfl hfail with rfl | ⟨_, _, _, _, hfail⟩
  · rfl
  · cases hfail

theorem closedBody (ih : FailsViablyAt n) : FailsViably Nonterminal.closedBody.read (n + 1) c := by
  refine .of_succ ?_
  show FailsViably (fun n => Syntax.closedBody (n + 1)) n c
  unfold Syntax.closedBody
  refine .accept [ofName "x", ofKeyword .fin] rfl (fun separator c₁ _ => ih.blockBody) fun _ => ?_
  exact ih.front .expression [] trivial .nil fun value c₁ => .pure _

theorem function (ih : FailsViablyAt n) (hkind : c.kind = .keyword .define) :
    FailsViably Nonterminal.function.read (n + 1) c := by
  intro x c' hfail
  simp only [Nonterminal.read] at hfail
  unfold Syntax.function at hfail
  obtain ⟨word, c₁, hword, pword, hfail⟩ := of_bind_next (by simp [hkind]) hfail
  have hword := hword.trans hkind
  have hsample := accepts_sample .functionBody
  rcases bind_eq_failed_iff.1 hfail with hfail | ⟨name, c₂, hname, hfail⟩
  · obtain ⟨ts, vs, name, hts, hname⟩ := exists_generatesName_of_failed hfail
    have hclose : GeneratesParameters [ofSymbol .rightParen] [] := .none rfl
    have hall := accepts_function hword hname hclose hsample
    rw [List.append_assoc] at hall
    exact ⟨word :: ts, pword.cons hts, fun _ => ⟨_, hall⟩⟩
  obtain ⟨ts, hts, hname⟩ := generates_of_functionName hname
  rcases bind_eq_failed_iff.1 hfail with hfail | ⟨params, c₃, hparams, hfail⟩
  · obtain ⟨us, vs, names, hus, hparams⟩ := exists_generatesParameters_of_failed hfail
    have hall := accepts_function hword hname hparams hsample
    rw [List.append_assoc, ← List.append_assoc] at hall
    exact ⟨word :: (ts ++ us), pword.cons (hts.trans hus), fun _ => ⟨_, hall⟩⟩
  obtain ⟨us, hus, hparams⟩ := generates_of_parameters hparams
  rcases bind_eq_failed_iff.1 hfail with hfail | ⟨body, c₄, hbody, hfail⟩
  · obtain ⟨vs, hvs, ws, hbody⟩ := (ih.viable .functionBody trivial).exists_viable hfail
    have hall := accepts_function hword hname hparams hbody
    rw [← List.append_assoc us, ← List.append_assoc ts] at hall
    exact ⟨word :: (ts ++ (us ++ vs)), pword.cons (hts.trans (hus.trans hvs)), fun _ => ⟨_, hall⟩⟩
  · cases hfail

theorem functionBody (ih : FailsViablyAt n) :
    FailsViably Nonterminal.functionBody.read (n + 1) c := by
  refine .of_succ ?_
  show FailsViably (fun n => Syntax.functionBody (n + 1)) n c
  unfold Syntax.functionBody
  refine .accept [ofName "x"] rfl (fun arrow c₁ _ => ?_) fun _ => ?_
  · exact ih.bind .expression trivial .nil fun value c₂ => .pure _
  · exact (Viable.expect (t := lineBreak) rfl rfl fun separator c₁ _ => ih.blockBody).fails

/-! ### Statements -/

theorem statements (ih : FailsViablyAt n) : FailsViably Nonterminal.statements.read (n + 1) c := by
  refine .of_succ ?_
  show FailsViably (fun n => Syntax.statements (n + 1)) n c
  unfold Syntax.statements
  refine .skipSeparators [ofName "x"] (fun c₁ => ?_) (by simp [Leads, ofName])
  refine ih.bind .expression trivial .nil fun first c₂ => ?_
  refine ⟨(accepts_sample .moreStatements).bind (fun rest => .nil fun d => ⟨_, fun n => rfl⟩) .nil,
    .here fun {x c'} hfail => ?_⟩
  rcases bind_eq_failed_iff.1 hfail with hfail | ⟨rest, c₃, -, hfail⟩
  · exact absurd hfail (moreStatements_ne_failed n)
  · cases hfail

theorem moreStatements (n : ℕ) : FailsViably Nonterminal.moreStatements.read n c :=
  .here fun hfail => absurd hfail (moreStatements_ne_failed n)

end FailsViablyAt

/-- Every nonterminal fails viably, within whatever bound. -/
theorem failsViably (n : ℕ) : FailsViablyAt n := by
  induction n with
  | zero =>
    intro α r c _ _ x c' hfail
    rw [r.read_zero] at hfail
    cases hfail
  | succ n ih =>
    intro α r c hstart hdelimited
    cases r with
    | expression => exact ih.expression
    | comparison => exact ih.comparison
    | chain level => exact ih.chain level
    | links level left => exact ih.links level left
    | operand level => exact ih.operand level
    | rightOperand level => exact ih.rightOperand level
    | factor => exact ih.factor
    | call => exact ih.call
    | items close x => exact ih.items x hdelimited
    | moreItems => exact ih.moreItems
    | atom => exact ih.atom
    | case => exact ih.case
    | branches => exact ih.branches
    | forLoop => exact ih.forLoop hstart
    | step => exact ih.step
    | closedBody => exact ih.closedBody
    | function => exact ih.function hstart
    | functionBody => exact ih.functionBody
    | statements => exact ih.statements
    | moreStatements => exact FailsViablyAt.moreStatements (n + 1)

/-! ## Whole programs -/

/-- Where a program fails, the tokens passed so far can be completed to statements. -/
theorem exists_viable_of_program {n : ℕ} {x : Expectation} {c c' : Cursor}
    (h : program n c = .failed x c') :
    ∃ ts, Passes ts c c' ∧ ViablePrefix Nonterminal.statements.read ts := by
  unfold program at h
  rcases bind_eq_failed_iff.1 h with h | ⟨root, c₁, hread, h⟩
  · have hviable : Viable Nonterminal.statements.read n Nonterminal.statements.sample c :=
      ⟨accepts_sample .statements, failsViably n .statements trivial trivial⟩
    exact hviable.exists_viable h
  · -- the statements themselves are a program, if nothing stands behind them
    obtain rfl : c' = c₁ := by
      rw [look_bind] at h
      cases hkind : c₁.kind <;> rw [hkind] at h <;> cases h <;> rfl
    obtain ⟨ts, hts⟩ := takesAt n .statements trivial hread
    exact ⟨ts, hts.passes, (Accepts.of_takes hts).viable⟩

/-- Tokens that are accepted as statements are a program, with the end of the text behind them. -/
theorem exists_parse_of_accepts {ts : List Token} {last : Token}
    (h : Accepts Nonterminal.statements.read ts) (hlast : last.kind = .finish) :
    ∃ p, parse (ts ++ [last]) = .ok p := by
  obtain ⟨c, hpass, hrest⟩ := Passes.exists_of_rest (Cursor.rest_start (ts ++ [last])) h.kind_ne
  have hfinish : c.kind = .finish := by
    unfold Cursor.kind
    rw [hrest]
    exact hlast
  obtain ⟨p, hread⟩ := h.reads hpass (by simp [Closes, hfinish])
  have hparsed := Reads.eq_parsed (r := .statements) hread (statements_ne_exhausted (ts ++ [last]))
  exact ⟨p, parse_of_statements hparsed hfinish⟩

/-- A syntax error is reported at a token, and no later than at the first one with which the tokens
in front of it could not go on: some tokens complete those in front of it to a program. -/
theorem parse_viable_prefix {source : Source} {tokens : List Token} {failure : Located Expectation}
    (hscan : Token.scan source = .ok tokens) (h : parse tokens = .error failure) :
    ∃ (k : ℕ) (hk : k < tokens.length), tokens[k].span = failure.span ∧
      ∃ us : List Token, (∀ u ∈ us, u.kind ≠ .finish) ∧
        ∀ last : Token, last.kind = .finish →
          ∃ p, parse (tokens.take k ++ us ++ [last]) = .ok p := by
  unfold parse at h
  cases hprogram : program (depthFor tokens) (Cursor.start tokens) with
  | parsed root c =>
    rw [hprogram] at h
    cases h
  | exhausted => exact absurd hprogram (answers_program tokens)
  | failed x c =>
    rw [hprogram] at h
    cases h
    obtain ⟨ts, hpass, us, hus⟩ := exists_viable_of_program hprogram
    have htokens : tokens = ts ++ c.rest := by rw [← hpass.rest_eq, Cursor.rest_start]
    -- the end of the text is among the tokens and is not passed, so there is a next token
    obtain ⟨t, rest, hrest⟩ : ∃ t rest, c.rest = t :: rest := by
      refine List.exists_cons_of_ne_nil fun hnil => ?_
      obtain ⟨vs, stop, hstop, -⟩ := scans_of_scanFrom hscan (Nat.le_refl _)
      rw [hnil, List.append_nil] at htokens
      exact hpass.kind_ne (finishAt stop) (by simp [← htokens, hstop]) rfl
    rw [hrest] at htokens
    subst htokens
    refine ⟨ts.length, by simp, ?_, us, fun u hu => hus.kind_ne u (List.mem_append_right ts hu),
      fun last hlast => ?_⟩
    · simp [Cursor.span, hrest]
    · rw [List.take_left]
      exact exists_parse_of_accepts hus hlast

/-- A binding without a name at the end of a block.  What is reported is not that it fails, but
that the block does not end in front of it. -/
theorem parse_viable_prefix_block :
    let source : Source := ⟨"<stdin>", "if x do\n y\n push (z)"⟩
    ∃ tokens failure us, Token.scan source = .ok tokens ∧ parse tokens = .error failure ∧
      failure.cause = .finOrBranch ∧ tokens[6]?.map Token.span = some failure.span ∧
      ∀ last : Token, last.kind = .finish →
        ∃ p, parse (tokens.take 6 ++ us ++ [last]) = .ok p := by
  intro source
  have hcheck : ((Token.scan source).toOption.bind fun tokens =>
      (((parse tokens).map fun _ => none).tryCatch fun failure => .ok (some (failure.cause,
        (List.range tokens.length).filter fun k =>
          tokens[k]?.map Token.span = some failure.span))).toOption) =
      some (some (.finOrBranch, [6])) := by decide +kernel
  obtain ⟨tokens, hscan, hcheck⟩ := Option.bind_eq_some_iff.1 hcheck
  have hscan := ok_of_toOption hscan
  cases hparse : parse tokens with
  | ok p =>
    rw [hparse] at hcheck
    cases hcheck
  | error failure =>
    rw [hparse] at hcheck
    obtain ⟨hcause, hplaces⟩ := Prod.mk.inj (Option.some.inj (Option.some.inj hcheck))
    obtain ⟨k, hk, hspan, us, -, hparses⟩ := parse_viable_prefix hscan hparse
    -- no other token has the span that is reported
    have hplace : k ∈ (List.range tokens.length).filter fun k =>
        tokens[k]?.map Token.span = some failure.span := by simp [hk, hspan]
    rw [hplaces] at hplace
    obtain rfl := List.mem_singleton.1 hplace
    exact ⟨tokens, failure, us, hscan, hparse, hcause, by simp [hk, hspan], hparses⟩

end UniformScript.Syntax
