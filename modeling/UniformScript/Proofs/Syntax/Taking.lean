import UniformScript.Proofs.Syntax.Reading
import UniformScript.Proofs.Syntax.Rules

/-!
# What a nonterminal takes

The tokens that a nonterminal passes while it reads a tree generate the tree.  And they are read as
the same tree wherever else they stand, if what is behind them there begins with a token of the
same kind; for reading looks at no more than one token ahead.  They are also read as it in front of
a separator, and of any token that closes what stands in front of it: nothing goes on with one of
these.

* `Takes`: the tokens between two cursors, the tree, and that it is read again from them.
* `TakesAt.expression`, `TakesAt.call` and the like: the steps of the reading functions, where what
  is read within a smaller bound is taken.
* `takesAt`: whatever is read is taken.
-/

namespace UniformScript.Syntax

open Parse Cursor Filter

/-! ## Tokens behind what is taken -/

/-- What ends in front of a token of the first kind also ends in front of one of the second: it is
the same kind, or a separator, or closes what stands in front of it. -/
def Agrees (k k' : Kind) : Prop := k' = k ∨ k' = .separator ∨ Closes k'

namespace Agrees

variable {k k' x : Kind} {t : Token} {ts : List Token} {c c' d d' : Cursor} {level : Level}

theorem refl (k : Kind) : Agrees k k := .inl rfl

theorem of_separator (k : Kind) (hk' : k' = .separator) : Agrees k k' := .inr (.inl hk')

theorem of_closes (k : Kind) (hk' : Closes k') : Agrees k k' := .inr (.inr hk')

theorem ne (h : Agrees k k') (hk : k ≠ x) (hx : ¬ (x = .separator ∨ Closes x)) : k' ≠ x := by
  rintro rfl
  rcases h with rfl | h
  · exact hk rfl
  · exact hx h

theorem operator?_eq_none (h : Agrees k k') (hk : level.operator? k = none) :
    level.operator? k' = none := by
  rcases h with rfl | rfl | h
  · exact hk
  · exact Level.operator?_eq_none rfl level
  · exact h.operator?_eq_none level

theorem of_cons (h : Passes (t :: ts) c c') (h' : Passes (t :: ts) d d') :
    Agrees c.kind d.kind := .inl (h'.kind_of_cons.trans h.kind_of_cons.symm)

/-- What agrees behind a run of tokens agrees in front of it. -/
theorem before (h : Passes ts c c') (h' : Passes ts d d') (hk : Agrees c'.kind d'.kind) :
    Agrees c.kind d.kind := by
  cases ts with
  | nil =>
    rw [← h.nil_inv, ← h'.nil_inv]
    exact hk
  | cons t ts => exact of_cons h h'

end Agrees

/-- What ends in front of a token of the first kind ends in front of one of the second.  Statements
end at words of their own, or at what closes them; behind a separator they would go on. -/
def Nonterminal.Bears {α : Type} : Nonterminal α → Kind → Kind → Prop
  | statements, k, k' => EndsStatements k' ∧ Agrees k k'
  | moreStatements, k, k' => EndsStatements k' ∧ Agrees k k'
  | _, k, k' => Agrees k k'

/-- Whatever is read ends in front of a token that closes it. -/
theorem Nonterminal.bears_of_closes {α : Type} (r : Nonterminal α) (k : Kind) {k' : Kind}
    (hk' : Closes k') : r.Bears k k' := by
  have hagrees := Agrees.of_closes k hk'
  cases r with
  | statements => exact ⟨.inl hk', hagrees⟩
  | moreStatements => exact ⟨.inl hk', hagrees⟩
  | _ => exact hagrees

/-- Loops and functions are read where their first word has been seen already; they pass it
without looking at it again. -/
def Nonterminal.StartsAt {α : Type} (r : Nonterminal α) (k : Kind) : Prop :=
  match r with
  | forLoop => k = .keyword .forWord
  | function => k = .keyword .define
  | _ => True

/-- Between two cursors the nonterminal takes the tokens `ts` and reads `a`.  The tokens generate
it, and if they stand between two other cursors, they are read as it again. -/
structure Takes {α : Type} (r : Nonterminal α) (ts : List Token) (c : Cursor) (a : α)
    (c' : Cursor) : Prop where
  passes : Passes ts c c'
  generates : Generates r ts a
  again : ∀ {d d' : Cursor}, Passes ts d d' → r.Bears c'.kind d'.kind → Reads r d a d'

/-- What consumes a token begins with the same token everywhere. -/
theorem Takes.kind_eq {α : Type} {r : Nonterminal α} {ts : List Token} {c c' d d' : Cursor} {a : α}
    (h : Takes r ts c a c') (hr : r.Consumes) (hd : Passes ts d d') : d.kind = c.kind :=
  h.passes.kind_eq hd (List.ne_nil_of_length_pos (length_pos_of_generates h.generates hr))

section

variable {α β : Type} {r : Nonterminal α} {s : Nonterminal β} {t : Token} {ts : List Token}
  {c c₁ c' : Cursor} {a : α} {b : β}

/-- What is read without a token is taken. -/
theorem Takes.nil (hg : Generates r [] a)
    (h : ∀ {d : Cursor}, r.Bears c.kind d.kind → Reads r d a d) : Takes r [] c a c where
  passes := .refl c
  generates := hg
  again hd hb := by
    obtain rfl := hd.nil_inv
    exact h hb

/-- What is read from a single token is taken. -/
theorem Takes.single (pt : Passes [t] c c') (hg : Generates r [t] a)
    (h : ∀ {p : Token} {us : List Token}, r.Bears c'.kind (⟨t, us⟩ : Cursor).kind →
      Reads r ⟨p, t :: us⟩ a ⟨t, us⟩) : Takes r [t] c a c' where
  passes := pt
  generates := hg
  again {d d'} hd hb := by
    obtain ⟨p, us⟩ := d
    obtain ⟨us, rfl, rfl⟩ := hd.singleton_inv
    exact h hb

/-- What is read from a token and another nonterminal behind it is taken. -/
theorem Takes.behind (pt : Passes [t] c c₁) (hs : Takes s ts c₁ b c')
    (hg : Generates r (t :: ts) a) (hb : ∀ {k : Kind}, r.Bears c'.kind k → s.Bears c'.kind k)
    (h : ∀ {p : Token} {us : List Token} {d' : Cursor}, Passes ts ⟨t, us⟩ d' →
      Reads s ⟨t, us⟩ b d' → Reads r ⟨p, t :: us⟩ a d') : Takes r (t :: ts) c a c' where
  passes := pt.cons hs.passes
  generates := hg
  again {d d'} hd hk := by
    obtain ⟨p, us⟩ := d
    obtain ⟨us, rfl, hd₁⟩ := hd.cons_inv
    exact h hd₁ (hs.again hd₁ (hb hk))

/-- An expression between parentheses. -/
theorem Takes.paren {left right : Token} {c₂ : Cursor} {e : Expr} (pleft : Passes [left] c c₁)
    (hleft : left.kind = .symbol .leftParen) (hs : Takes .expression ts c₁ e c₂)
    (pright : Passes [right] c₂ c') (hright : right.kind = .symbol .rightParen) :
    Takes .atom (left :: (ts ++ [right])) c e c' where
  passes := pleft.cons (hs.passes.trans pright)
  generates := .paren hleft hs.generates hright
  again {d d'} hd _ := by
    obtain ⟨p, us⟩ := d
    obtain ⟨us, rfl, hd₁⟩ := hd.cons_inv
    obtain ⟨⟨q, vs⟩, hd₂, hd₃⟩ := hd₁.append_inv
    have hinner := hs.again hd₂ (Agrees.of_cons pright hd₃)
    obtain ⟨vs, rfl, rfl⟩ := hd₃.singleton_inv
    exact reads_paren hleft hinner hright

/-- A loop on a condition. -/
theorem Takes.whileLoop {word doWord : Token} {us : List Token} {c₂ c₃ : Cursor} {condition : Expr}
    {body : Body} (pword : Passes [word] c c₁) (hword : word.kind = .keyword .whileWord)
    (hcondition : Takes .expression ts c₁ condition c₂) (pdo : Passes [doWord] c₂ c₃)
    (hdo : doWord.kind = .keyword .doWord) (hbody : Takes .closedBody us c₃ body c') :
    Takes .atom (word :: (ts ++ doWord :: us)) c
      (.whileLoop (word.span.through c'.previous.span) condition body) c' := by
  have pbody := pdo.cons hbody.passes
  rw [hbody.passes.previous_eq, pdo.previous_of_one]
  refine ⟨pword.cons (hcondition.passes.trans pbody),
    .whileLoop hword hcondition.generates hdo hbody.generates, ?_⟩
  rintro ⟨p, vs⟩ d' hd hb
  obtain ⟨vs, rfl, hd₁⟩ := hd.cons_inv
  obtain ⟨⟨q, ws⟩, hd₂, hd₃⟩ := hd₁.append_inv
  have hfirst := hcondition.again hd₂ (Agrees.of_cons pbody hd₃)
  obtain ⟨ws, rfl, hd₄⟩ := hd₃.cons_inv
  have hloop := reads_whileLoop (q := p) hword hfirst hdo (hbody.again hd₄ hb)
  rwa [hd₄.previous_eq] at hloop

/-- An expression is read again behind separators, where it stands behind some. -/
theorem Takes.again_skipped {seps : List Token} {e : Expr} {d d₁ d₂ : Cursor}
    (h : Takes .expression ts c e c₁) (hc : c.kind ≠ .separator)
    (hseps : ∀ t ∈ seps, t.kind = .separator) (hd : Passes seps d d₁) (hd₁ : Passes ts d₁ d₂)
    (hk : Agrees c₁.kind d₂.kind) : Reads .expression d.skipped e d₂ := by
  rw [hd.skipped_eq_right hseps (by rwa [h.kind_eq trivial hd₁])]
  exact h.again hd₁ hk

/-- The statements of a block are read again in front of the word that ends it. -/
theorem Takes.again_before_fin {fin : Token} {block : Program} {d d₁ d' : Cursor}
    (h : Takes .statements ts c block c₁) (hfin : fin.kind = .keyword .fin) (hd : Passes ts d d₁)
    (hd₁ : Passes [fin] d₁ d') :
    Reads .statements d block d₁ :=
  h.again hd (Nonterminal.bears_of_closes _ _ (by simp [Closes, hd₁.kind_of_cons, hfin]))

end

/-! ## Names -/

section

variable {ts : List Token} {c c' d d' : Cursor} {names : List String} {name : Option String}

theorem generates_of_moreNames {n : Nat}
    (h : moreNames n c = .parsed names c') :
    ∃ ts, Passes ts c c' ∧ GeneratesNames ts names := by
  induction n generalizing c c' names with
  | zero => cases h
  | succ n ih =>
    unfold moreNames at h
    rcases of_bind_accept rfl h with ⟨comma, c₁, hcomma, pcomma, h⟩ | ⟨-, h⟩
    · obtain ⟨name, c₂, hname, pname, h⟩ := of_bind_expect rfl h
      obtain ⟨names, c₃, hnames, h⟩ := bind_eq_parsed_iff.1 h
      obtain ⟨ts, pts, gts⟩ := ih hnames
      cases h
      exact ⟨_, pcomma.trans (pname.trans pts),
        .more (Kind.isSymbol_iff.1 hcomma) (Kind.isIdentifier_iff.1 hname) gts⟩
    · cases h
      exact ⟨[], .refl _, .none⟩

/-- Names are read again in front of anything but a further comma. -/
theorem moreNames_of_generates (h : GeneratesNames ts names) (hd : Passes ts d d')
    (hd' : d'.kind ≠ .symbol .comma) : ∀ᶠ n in atTop, moreNames n d = .parsed names d' := by
  induction h generalizing d with
  | none =>
    obtain rfl := hd.nil_inv
    refine eventually_of_succ (.of_forall fun n => ?_)
    unfold moreNames
    rw [accept_bind_of_not (by simpa using hd'), if_neg (by simp)]
    rfl
  | more hcomma hname _ ih =>
    obtain ⟨p, us⟩ := d
    obtain ⟨us, rfl, hd₁⟩ := hd.cons_inv
    obtain ⟨us, rfl, hd₂⟩ := hd₁.cons_inv
    refine eventually_of_succ ((ih hd₂).mono fun n hn => ?_)
    unfold moreNames
    rw [accept_bind (by simp [hcomma]) (by simp [hcomma]), if_pos rfl,
      expect_bind (by simp [hname]) (by simp [hname]), bind_of_parsed hn]
    rfl

theorem generates_of_parameters {n : Nat}
    (h : parameters n c = .parsed names c') :
    ∃ ts, Passes ts c c' ∧ GeneratesParameters ts names := by
  unfold parameters at h
  obtain ⟨k, c₁, hk, h⟩ := bind_eq_parsed_iff.1 h
  cases hk
  split at h
  · rename_i hid
    have hid : c.kind = .identifier := Kind.isIdentifier_iff.1 hid
    obtain ⟨name, c₂, hname, pname, h⟩ := of_bind_next (by rw [hid]; simp) h
    obtain ⟨names, c₃, hnames, h⟩ := bind_eq_parsed_iff.1 h
    obtain ⟨ts, pts, gts⟩ := generates_of_moreNames hnames
    obtain ⟨close, c₄, hclose, pclose, h⟩ := of_bind_expect rfl h
    cases h
    exact ⟨_, pname.trans (pts.trans pclose),
      .some (hname.trans hid) gts (Kind.isSymbol_iff.1 hclose)⟩
  · obtain ⟨close, c₄, hclose, pclose, h⟩ := of_bind_expect rfl h
    cases h
    exact ⟨_, pclose, .none (Kind.isSymbol_iff.1 hclose)⟩

theorem parameters_of_generates (h : GeneratesParameters ts names) (hd : Passes ts d d') :
    ∀ᶠ n in atTop, parameters n d = .parsed names d' := by
  obtain ⟨p, us⟩ := d
  cases h with
  | none hclose =>
    obtain ⟨us, rfl, rfl⟩ := hd.singleton_inv
    refine .of_forall fun n => ?_
    unfold parameters
    rw [look_bind, if_neg (by simp [Cursor.kind, hclose]),
      expect_bind (by simp [hclose]) (by simp [hclose])]
    rfl
  | some hname hnames hclose =>
    obtain ⟨us, rfl, hd₁⟩ := hd.cons_inv
    obtain ⟨⟨q, vs⟩, hd₂, hend⟩ := hd₁.append_inv
    obtain ⟨vs, rfl, rfl⟩ := hend.singleton_inv
    have hmore := moreNames_of_generates hnames hd₂ (by simp [Cursor.kind, hclose])
    refine hmore.mono fun n hn => ?_
    unfold parameters
    rw [look_bind, if_pos (by simp [Cursor.kind, hname]), next_bind (by simp [hname]),
      bind_of_parsed hn, expect_bind (by simp [hclose]) (by simp [hclose])]
    rfl

theorem generates_of_functionName
    (h : functionName c = .parsed name c') :
    ∃ ts, Passes ts c c' ∧ GeneratesName ts name := by
  unfold functionName at h
  obtain ⟨k, c₁, hk, h⟩ := bind_eq_parsed_iff.1 h
  cases hk
  split at h
  · rename_i hid
    have hid : c.kind = .identifier := Kind.isIdentifier_iff.1 hid
    obtain ⟨name, c₂, hname, pname, h⟩ := of_bind_next (by rw [hid]; simp) h
    obtain ⟨paren, c₃, hparen, pparen, h⟩ := of_bind_expect rfl h
    cases h
    exact ⟨_, pname.trans pparen, .named (hname.trans hid) (Kind.isSymbol_iff.1 hparen)⟩
  · obtain ⟨paren, c₃, hparen, pparen, h⟩ := of_bind_expect rfl h
    cases h
    exact ⟨_, pparen, .anonymous (Kind.isSymbol_iff.1 hparen)⟩

theorem functionName_of_generates (h : GeneratesName ts name) (hd : Passes ts d d') :
    functionName d = .parsed name d' := by
  obtain ⟨p, us⟩ := d
  unfold functionName
  cases h with
  | anonymous hparen =>
    obtain ⟨us, rfl, rfl⟩ := hd.singleton_inv
    rw [look_bind, if_neg (by simp [Cursor.kind, hparen]),
      expect_bind (by simp [hparen]) (by simp [hparen])]
    rfl
  | named hname hparen =>
    obtain ⟨us, rfl, hd₁⟩ := hd.cons_inv
    obtain ⟨us, rfl, rfl⟩ := hd₁.singleton_inv
    rw [look_bind, if_pos (by simp [Cursor.kind, hname]), next_bind (by simp [hname]),
      expect_bind (by simp [hparen]) (by simp [hparen])]
    rfl

end

theorem ne_nothing_of_branches {n : Nat} {c c' : Cursor} {rest : Branches}
    (hc : (c.kind.isKeyword .elif || c.kind.isKeyword .elseWord) = true)
    (h : branches n c = .parsed rest c') : rest ≠ .nothing := by
  cases n with
  | zero => cases h
  | succ n =>
    unfold branches at h
    rcases of_bind_accept rfl h with ⟨word, c₁, hword, pword, h⟩ | ⟨helif, h⟩
    · obtain ⟨⟨condition, body, rest⟩, c₂, hcase, h⟩ := bind_eq_parsed_iff.1 h
      cases h
      simp
    · rcases of_bind_accept rfl h with ⟨word, c₁, hword, pword, h⟩ | ⟨helse, h⟩
      · obtain ⟨body, c₂, hbody, h⟩ := bind_eq_parsed_iff.1 h
        cases h
        simp
      · rw [helif, helse] at hc
        exact absurd hc (by simp)

/-- A branch is made of tokens, as at the end of the text there is none. -/
theorem Takes.ne_nil_of_branches {ts : List Token} {c c' : Cursor} {rest : Branches}
    (h : Takes .branches ts c rest c') (hne : rest ≠ .nothing) : ts ≠ [] := by
  rintro rfl
  have hagain : Reads .branches (Cursor.start []) rest (Cursor.start []) :=
    h.again (.refl _)
      (Nonterminal.bears_of_closes _ _ (by simp [Closes, Cursor.kind, Cursor.start]))
  have hnone : Reads .branches (Cursor.start []) .nothing (Cursor.start []) :=
    reads_noBranch (by simp [Cursor.kind, Cursor.start]) (by simp [Cursor.kind, Cursor.start])
  obtain ⟨n, hn, hn'⟩ := (hagain.and hnone).exists
  cases hn.symm.trans hn'
  exact hne rfl

/-! ## What is read is taken -/

/-- Whatever is read within the bound is taken. -/
def TakesAt (n : ℕ) : Prop :=
  ∀ {α : Type} (r : Nonterminal α) {c c' : Cursor} {a : α}, r.StartsAt c.kind →
    r.read n c = .parsed a c' → ∃ ts, Takes r ts c a c'

namespace TakesAt

variable {n : ℕ} {c c' : Cursor} {level : Level} {left e : Expr} {es : List Expr}

/-- A nonterminal in front of another step. -/
theorem bind {α β : Type} (ih : TakesAt n) (r : Nonterminal α) {f : α → Parse β} {b : β}
    (hr : r.StartsAt c.kind) (h : (r.read n >>= f) c = .parsed b c') :
    ∃ a ts c₁, Takes r ts c a c₁ ∧ f a c₁ = .parsed b c' := by
  obtain ⟨a, c₁, ha, h⟩ := bind_eq_parsed_iff.1 h
  obtain ⟨ts, hts⟩ := ih r hr ha
  exact ⟨a, ts, c₁, hts, h⟩

/-! ### Operators -/

theorem expression (ih : TakesAt n) (h : Syntax.expression (n + 1) c = .parsed e c') :
    ∃ ts, Takes .expression ts c e c' := by
  unfold Syntax.expression at h
  rcases of_bind_accept rfl h with ⟨push, c₁, hpush, ppush, h⟩ | ⟨hpush, h⟩
  · obtain ⟨name, c₂, hname, pname, h⟩ := of_bind_expect rfl h
    obtain ⟨arrow, c₃, harrow, parrow, h⟩ := of_bind_expect rfl h
    obtain ⟨value, ts, c₄, hvalue, h⟩ := ih.bind .expression trivial h
    cases h
    have hpush := Kind.isKeyword_iff.1 hpush
    have hname := Kind.isIdentifier_iff.1 hname
    have harrow := Kind.isSymbol_iff.1 harrow
    rw [ppush.previous_of_one]
    refine ⟨_, ppush.cons (pname.cons (parrow.cons hvalue.passes)),
      .bind hpush hname harrow hvalue.generates, ?_⟩
    rintro ⟨p, us⟩ d' hd hb
    obtain ⟨us, rfl, hd₁⟩ := hd.cons_inv
    obtain ⟨us, rfl, hd₂⟩ := hd₁.cons_inv
    obtain ⟨us, rfl, hd₃⟩ := hd₂.cons_inv
    exact reads_bind hpush hname harrow (hvalue.again hd₃ hb)
  · obtain ⟨ts, hts⟩ := ih (.chain .junction) trivial (expecting_eq_parsed_iff.1 h)
    refine ⟨ts, hts.passes, .expression hts.generates, fun hd hb => ?_⟩
    refine reads_expression ?_ (hts.again hd hb)
    rw [hts.kind_eq trivial hd]
    exact Kind.ne_keyword hpush

theorem comparison (ih : TakesAt n) (h : Syntax.comparison (n + 1) c = .parsed e c') :
    ∃ ts, Takes .comparison ts c e c' := by
  unfold Syntax.comparison at h
  rcases of_bind_accept rfl h with ⟨sign, c₁, hsign, psign, h⟩ | ⟨hsign, h⟩
  · obtain ⟨operand, ts, c₂, hts, h⟩ := ih.bind .comparison trivial h
    cases h
    have hsign := Kind.isKeyword_iff.1 hsign
    rw [psign.previous_of_one]
    have hgenerates := Generates.negation hsign hts.generates
    exact ⟨_, .behind psign hts hgenerates (fun hb => hb) fun _ h => reads_negation hsign h⟩
  · obtain ⟨ts, hts⟩ := ih (.chain .comparison) trivial (expecting_eq_parsed_iff.1 h)
    refine ⟨ts, hts.passes, .comparison hts.generates, fun hd hb => ?_⟩
    refine reads_comparison ?_ (hts.again hd hb)
    rw [hts.kind_eq trivial hd]
    exact Kind.ne_keyword hsign

theorem chain (ih : TakesAt n) (h : Syntax.chain (n + 1) level c = .parsed e c') :
    ∃ ts, Takes (.chain level) ts c e c' := by
  unfold Syntax.chain at h
  obtain ⟨left, ts, c₁, hts, h⟩ := ih.bind (.operand level) trivial h
  obtain ⟨us, hus⟩ := ih (.links level left) trivial h
  refine ⟨_, hts.passes.trans hus.passes, .chain hts.generates hus.generates, fun hd hb => ?_⟩
  obtain ⟨d₁, hd₁, hd₂⟩ := hd.append_inv
  exact reads_chain (hts.again hd₁ (Agrees.before hus.passes hd₂ hb)) (hus.again hd₂ hb)

theorem links (ih : TakesAt n) (h : Syntax.links (n + 1) level left c = .parsed e c') :
    ∃ ts, Takes (.links level left) ts c e c' := by
  unfold Syntax.links at h
  obtain ⟨k, c₁, hk, h⟩ := bind_eq_parsed_iff.1 h
  cases hk
  cases hop : level.operator? c.kind with
  | none =>
    rw [hop] at h
    cases h
    exact ⟨[], .nil .noLink fun hb => reads_noLink (Agrees.operator?_eq_none hb hop)⟩
  | some op =>
    rw [hop] at h
    have hne : c.kind ≠ .finish := fun hk => by rw [hk] at hop; cases hop
    obtain ⟨sign, c₂, hsign, psign, h⟩ := of_bind_next hne h
    obtain ⟨right, ts, c₃, hts, h⟩ := ih.bind (.rightOperand level) trivial h
    obtain ⟨us, hus⟩ :=
      ih (.links level (.binary (left.span.through right.span) op left right)) trivial h
    rw [← hsign] at hop
    refine ⟨_, psign.cons (hts.passes.trans hus.passes), .link hop hts.generates hus.generates, ?_⟩
    rintro ⟨p, vs⟩ d' hd hb
    obtain ⟨vs, rfl, hd₁⟩ := hd.cons_inv
    obtain ⟨d₂, hd₂, hd₃⟩ := hd₁.append_inv
    exact reads_link hop (hts.again hd₂ (Agrees.before hus.passes hd₃ hb)) (hus.again hd₃ hb)

theorem operand (ih : TakesAt n) (h : Syntax.operand (n + 1) level c = .parsed e c') :
    ∃ ts, Takes (.operand level) ts c e c' := by
  have hread : level.below.read n c = .parsed e c' := by cases level <;> exact h
  obtain ⟨ts, hts⟩ := ih level.below (by cases level <;> trivial) hread
  refine ⟨ts, hts.passes, ?_, ?_⟩
  · cases level with
    | junction => exact .junctionOperand hts.generates
    | comparison => exact .comparisonOperand hts.generates
    | sum => exact .sumOperand hts.generates
    | product => exact .productOperand hts.generates
    | power => exact .powerOperand hts.generates
  · intro d d' hd hb
    have hbelow : level.below.Bears c'.kind d'.kind := by cases level <;> exact hb
    exact reads_operand (hts.again hd hbelow)

theorem rightOperand (ih : TakesAt n) (h : Syntax.rightOperand (n + 1) level c = .parsed e c') :
    ∃ ts, Takes (.rightOperand level) ts c e c' := by
  by_cases hlevel : level = .power
  · subst hlevel
    obtain ⟨ts, hts⟩ := ih .factor trivial h
    exact ⟨ts, hts.passes, .exponent hts.generates,
      fun hd hb => reads_exponent (hts.again hd hb)⟩
  · have hread : Syntax.rightOperand (n + 1) level = (Nonterminal.operand level).read n := by
      cases level <;> first | rfl | exact absurd rfl hlevel
    rw [hread] at h
    obtain ⟨ts, hts⟩ := ih (.operand level) trivial h
    exact ⟨ts, hts.passes, .rightOperand hlevel hts.generates,
      fun hd hb => reads_rightOperand hlevel (hts.again hd hb)⟩

theorem factor (ih : TakesAt n) (h : Syntax.factor (n + 1) c = .parsed e c') :
    ∃ ts, Takes .factor ts c e c' := by
  unfold Syntax.factor at h
  obtain ⟨k, c₁, hk, h⟩ := bind_eq_parsed_iff.1 h
  cases hk
  cases hop : UnaryOp.sign? c.kind with
  | none =>
    rw [hop] at h
    obtain ⟨ts, hts⟩ := ih (.chain .power) trivial h
    refine ⟨ts, hts.passes, .factor hts.generates, fun hd hb => ?_⟩
    exact reads_factor (by rwa [hts.kind_eq trivial hd]) (hts.again hd hb)
  | some op =>
    rw [hop] at h
    have hne : c.kind ≠ .finish := fun hk => by rw [hk] at hop; cases hop
    obtain ⟨sign, c₂, hsign, psign, h⟩ := of_bind_next hne h
    obtain ⟨operand, ts, c₃, hts, h⟩ := ih.bind .factor trivial h
    cases h
    rw [← hsign] at hop
    have hgenerates := Generates.sign hop hts.generates
    exact ⟨_, .behind psign hts hgenerates (fun hb => hb) fun _ h => reads_sign hop h⟩

/-! ### Calls and lists -/

theorem call (ih : TakesAt n) (h : Syntax.call (n + 1) c = .parsed e c') :
    ∃ ts, Takes .call ts c e c' := by
  unfold Syntax.call at h
  obtain ⟨callee, ts, c₁, hts, h⟩ := ih.bind .atom trivial h
  rcases of_bind_accept rfl h with ⟨paren, c₂, hparen, pparen, h⟩ | ⟨hparen, h⟩
  · obtain ⟨args, us, c₃, hus, h⟩ := ih.bind (.items .rightParen .commaOrParen) trivial h
    cases h
    have hparen := Kind.isSymbol_iff.1 hparen
    have pus := pparen.cons hus.passes
    rw [hus.passes.previous_eq, pparen.previous_of_one]
    refine ⟨_, hts.passes.trans pus, .call hts.generates hparen hus.generates, fun hd hb => ?_⟩
    obtain ⟨⟨q, vs⟩, hd₁, hd₂⟩ := hd.append_inv
    have hcallee := hts.again hd₁ (Agrees.of_cons pus hd₂)
    obtain ⟨vs, rfl, hd₃⟩ := hd₂.cons_inv
    have hcall := reads_call hcallee hparen (hus.again hd₃ hb)
    rwa [hd₃.previous_eq] at hcall
  · cases h
    refine ⟨ts, hts.passes, .plain hts.generates, fun hd hb => ?_⟩
    exact reads_plain (hts.again hd hb) (Agrees.ne hb (Kind.ne_symbol hparen) (by simp [Closes]))

theorem items (ih : TakesAt n) {close : Symbol} {x : Expectation}
    (h : Syntax.items (n + 1) close x c = .parsed es c') :
    ∃ ts, Takes (.items close x) ts c es c' := by
  unfold Syntax.items at h
  rcases of_bind_accept rfl h with ⟨t, c₁, ht, pt, h⟩ | ⟨hclose, h⟩
  · cases h
    have ht := Kind.isSymbol_iff.1 ht
    exact ⟨_, .single pt (.noItems ht) fun _ => reads_noItems ht⟩
  · obtain ⟨first, ts, c₂, hts, h⟩ := ih.bind .expression trivial h
    obtain ⟨rest, us, c₃, hus, h⟩ := ih.bind .moreItems trivial h
    obtain ⟨t, c₄, ht, pt, h⟩ := of_bind_expect rfl h
    cases h
    have ht := Kind.isSymbol_iff.1 ht
    refine ⟨_, (hts.passes.trans hus.passes).trans pt, .items hts.generates hus.generates ht,
      fun hd hb => ?_⟩
    obtain ⟨⟨q, vs⟩, hd₁, hd₂⟩ := hd.append_inv
    have hend := Agrees.of_cons pt hd₂
    obtain ⟨d₃, hd₃, hd₄⟩ := hd₁.append_inv
    have hfirst := hts.again hd₃ (Agrees.before hus.passes hd₄ hend)
    have hmore := hus.again hd₄ hend
    obtain ⟨vs, rfl, rfl⟩ := hd₂.singleton_inv
    refine reads_items ?_ hfirst hmore ht
    rw [hts.kind_eq trivial hd₃]
    exact Kind.ne_symbol hclose

theorem moreItems (ih : TakesAt n) (h : Syntax.moreItems (n + 1) c = .parsed es c') :
    ∃ ts, Takes .moreItems ts c es c' := by
  unfold Syntax.moreItems at h
  rcases of_bind_accept rfl h with ⟨comma, c₁, hcomma, pcomma, h⟩ | ⟨hcomma, h⟩
  · obtain ⟨first, ts, c₂, hts, h⟩ := ih.bind .expression trivial h
    obtain ⟨rest, us, c₃, hus, h⟩ := ih.bind .moreItems trivial h
    cases h
    have hcomma := Kind.isSymbol_iff.1 hcomma
    refine ⟨_, pcomma.cons (hts.passes.trans hus.passes),
      .moreItems hcomma hts.generates hus.generates, ?_⟩
    rintro ⟨p, vs⟩ d' hd hb
    obtain ⟨vs, rfl, hd₁⟩ := hd.cons_inv
    obtain ⟨d₂, hd₂, hd₃⟩ := hd₁.append_inv
    exact reads_moreItems hcomma (hts.again hd₂ (Agrees.before hus.passes hd₃ hb))
      (hus.again hd₃ hb)
  · cases h
    refine ⟨[], .nil .noMoreItems fun hb => ?_⟩
    exact reads_noMoreItems (Agrees.ne hb (Kind.ne_symbol hcomma) (by simp [Closes]))

theorem atom (ih : TakesAt n) (h : Syntax.atom (n + 1) c = .parsed e c') :
    ∃ ts, Takes .atom ts c e c' := by
  unfold Syntax.atom at h
  obtain ⟨k, c₁, hk, h⟩ := bind_eq_parsed_iff.1 h
  obtain ⟨hkind, rfl⟩ : c.kind = k ∧ c = c₁ := by cases hk; exact ⟨rfl, rfl⟩
  split at h
  · obtain ⟨t, c₂, ht, pt, h⟩ := of_bind_next (by rw [hkind]; simp) h
    cases h
    have ht := ht.trans hkind
    exact ⟨_, .single pt (.whole ht) fun _ => reads_whole ht⟩
  · obtain ⟨t, c₂, ht, pt, h⟩ := of_bind_next (by rw [hkind]; simp) h
    cases h
    have ht := ht.trans hkind
    exact ⟨_, .single pt (.decimal ht) fun _ => reads_decimal ht⟩
  · obtain ⟨t, c₂, ht, pt, h⟩ := of_bind_next (by rw [hkind]; simp) h
    cases h
    have ht := ht.trans hkind
    exact ⟨_, .single pt (.text ht) fun _ => reads_text ht⟩
  · obtain ⟨name, c₂, hname, pname, h⟩ := of_bind_next (by rw [hkind]; simp) h
    have hname := hname.trans hkind
    rcases of_bind_accept rfl h with ⟨arrow, c₃, harrow, parrow, h⟩ | ⟨harrow, h⟩
    · obtain ⟨value, ts, c₄, hts, h⟩ := ih.bind .expression trivial h
      cases h
      have harrow := Kind.isSymbol_iff.1 harrow
      refine ⟨_, pname.cons (parrow.cons hts.passes), .rebind hname harrow hts.generates, ?_⟩
      rintro ⟨p, us⟩ d' hd hb
      obtain ⟨us, rfl, hd₁⟩ := hd.cons_inv
      obtain ⟨us, rfl, hd₂⟩ := hd₁.cons_inv
      exact reads_rebind hname harrow (hts.again hd₂ hb)
    · cases h
      refine ⟨_, .single pname (.access hname) fun hb => ?_⟩
      exact reads_access hname (Agrees.ne hb (Kind.ne_symbol harrow) (by simp [Closes]))
  · obtain ⟨left, c₂, hleft, pleft, h⟩ := of_bind_next (by rw [hkind]; simp) h
    obtain ⟨inner, ts, c₃, hts, h⟩ := ih.bind .expression trivial h
    obtain ⟨right, c₄, hright, pright, h⟩ := of_bind_expect rfl h
    cases h
    exact ⟨_, .paren pleft (hleft.trans hkind) hts pright (Kind.isSymbol_iff.1 hright)⟩
  · obtain ⟨bracket, c₂, hbracket, pbracket, h⟩ := of_bind_next (by rw [hkind]; simp) h
    obtain ⟨elements, ts, c₃, hts, h⟩ := ih.bind (.items .rightBracket .commaOrBracket) trivial h
    cases h
    have hbracket := hbracket.trans hkind
    rw [hts.passes.previous_eq, pbracket.previous_of_one]
    have hgenerates := Generates.list hbracket hts.generates
    refine ⟨_, .behind pbracket hts hgenerates (fun hb => hb) fun {p _ _} hd h => ?_⟩
    have hlist := reads_list (p := p) hbracket h
    rwa [hd.previous_eq] at hlist
  · obtain ⟨word, c₂, hword, pword, h⟩ := of_bind_next (by rw [hkind]; simp) h
    obtain ⟨⟨condition, body, rest⟩, ts, c₃, hts, h⟩ := ih.bind .case trivial h
    cases h
    have hword := hword.trans hkind
    rw [hts.passes.previous_eq, pword.previous_of_one]
    have hgenerates := Generates.choice hword hts.generates
    refine ⟨_, .behind pword hts hgenerates (fun hb => hb) fun {p _ _} hd h => ?_⟩
    have hchoice := reads_choice (p := p) hword h
    rwa [hd.previous_eq] at hchoice
  · obtain ⟨ts, hts⟩ := ih .forLoop hkind h
    refine ⟨ts, hts.passes, .forLoop hts.generates, fun hd hb => ?_⟩
    exact reads_forLoop ((hts.kind_eq trivial hd).trans hkind) (hts.again hd hb)
  · obtain ⟨word, c₂, hword, pword, h⟩ := of_bind_next (by rw [hkind]; simp) h
    obtain ⟨condition, ts, c₃, hts, h⟩ := ih.bind .expression trivial h
    obtain ⟨doWord, c₄, hdo, pdo, h⟩ := of_bind_expect rfl h
    obtain ⟨body, us, c₅, hus, h⟩ := ih.bind .closedBody trivial h
    cases h
    exact ⟨_, .whileLoop pword (hword.trans hkind) hts pdo (Kind.isKeyword_iff.1 hdo) hus⟩
  · obtain ⟨ts, hts⟩ := ih .function hkind h
    refine ⟨ts, hts.passes, .function hts.generates, fun hd hb => ?_⟩
    exact reads_function ((hts.kind_eq trivial hd).trans hkind) (hts.again hd hb)
  · cases h

/-! ### Choices -/

theorem case (ih : TakesAt n) {r : Expr × Body × Branches}
    (h : Syntax.case (n + 1) c = .parsed r c') : ∃ ts, Takes .case ts c r c' := by
  unfold Syntax.case at h
  obtain ⟨condition, ts, c₁, hts, h⟩ := ih.bind .expression trivial h
  obtain ⟨doWord, c₂, hdo, pdo, h⟩ := of_bind_expect rfl h
  have hdo := Kind.isKeyword_iff.1 hdo
  rcases of_bind_accept rfl h with ⟨separator, c₃, hsep, psep, h⟩ | ⟨hsep, h⟩
  · have hsep := Kind.isSeparator_iff.1 hsep
    obtain ⟨block, us, c₄, hus, h⟩ := ih.bind .statements trivial h
    have phead := pdo.cons (psep.cons hus.passes)
    rcases of_bind_accept rfl h with ⟨fin, c₅, hfin, pfin, h⟩ | ⟨-, h⟩
    · cases h
      have hfin := Kind.isKeyword_iff.1 hfin
      refine ⟨_, (hts.passes.trans phead).trans pfin,
        .closedCase hts.generates hdo hsep hus.generates hfin, fun hd _ => ?_⟩
      obtain ⟨⟨q, vs⟩, hd₁, hd₂⟩ := hd.append_inv
      obtain ⟨⟨p, ws⟩, hd₃, hd₄⟩ := hd₁.append_inv
      have hcondition := hts.again hd₃ (Agrees.of_cons phead hd₄)
      obtain ⟨ws, rfl, hd₅⟩ := hd₄.cons_inv
      obtain ⟨ws, rfl, hd₆⟩ := hd₅.cons_inv
      have hblock := hus.again_before_fin hfin hd₆ hd₂
      obtain ⟨vs, rfl, rfl⟩ := hd₂.singleton_inv
      exact reads_closedCase hcondition hdo rfl hsep hblock hfin
    · obtain ⟨k, c₅, hk, h⟩ := bind_eq_parsed_iff.1 h
      cases hk
      obtain ⟨k, c₅, hk, h⟩ := bind_eq_parsed_iff.1 h
      cases hk
      split at h
      · rename_i hnext
        obtain ⟨rest, c₅, hrest, h⟩ := bind_eq_parsed_iff.1 h
        obtain ⟨vs, hvs⟩ := ih .branches trivial hrest
        have hne := ne_nothing_of_branches hnext hrest
        cases h
        have hword : c₄.kind = .keyword .elif ∨ c₄.kind = .keyword .elseWord := by
          simpa using hnext
        refine ⟨_, (hts.passes.trans phead).trans hvs.passes,
          .blockCase hts.generates hdo hsep hus.generates hvs.generates hne, fun hd hb => ?_⟩
        obtain ⟨d₁, hd₁, hd₂⟩ := hd.append_inv
        obtain ⟨⟨p, ws⟩, hd₃, hd₄⟩ := hd₁.append_inv
        have hcondition := hts.again hd₃ (Agrees.of_cons phead hd₄)
        obtain ⟨ws, rfl, hd₅⟩ := hd₄.cons_inv
        obtain ⟨ws, rfl, hd₆⟩ := hd₅.cons_inv
        have hword' : d₁.kind = .keyword .elif ∨ d₁.kind = .keyword .elseWord := by
          rwa [hvs.passes.kind_eq hd₂ (hvs.ne_nil_of_branches hne)]
        have hblock := hus.again hd₆ ⟨.inr hword', Agrees.before hvs.passes hd₂ hb⟩
        exact reads_blockCase hcondition hdo rfl hsep hblock hword' (hvs.again hd₂ hb)
      · cases h
  · obtain ⟨value, us, c₃, hus, h⟩ := ih.bind .expression trivial h
    obtain ⟨rest, vs, c₄, hvs, h⟩ := ih.bind .branches trivial h
    cases h
    have phead := pdo.cons hus.passes
    refine ⟨_, (hts.passes.trans phead).trans hvs.passes,
      .inlineCase hts.generates hdo hus.generates hvs.generates, fun hd hb => ?_⟩
    obtain ⟨d₁, hd₁, hd₂⟩ := hd.append_inv
    obtain ⟨⟨p, ws⟩, hd₃, hd₄⟩ := hd₁.append_inv
    have hcondition := hts.again hd₃ (Agrees.of_cons phead hd₄)
    have hmiddle := Agrees.before hvs.passes hd₂ hb
    obtain ⟨ws, rfl, hd₅⟩ := hd₄.cons_inv
    refine reads_inlineCase hcondition hdo ?_ (hus.again hd₅ hmiddle) (hvs.again hd₂ hb)
    rw [hus.kind_eq trivial hd₅]
    exact Kind.ne_separator hsep

theorem branches (ih : TakesAt n) {rest : Branches}
    (h : Syntax.branches (n + 1) c = .parsed rest c') : ∃ ts, Takes .branches ts c rest c' := by
  unfold Syntax.branches at h
  rcases of_bind_accept rfl h with ⟨word, c₁, hword, pword, h⟩ | ⟨helif, h⟩
  · obtain ⟨⟨condition, body, rest⟩, ts, c₂, hts, h⟩ := ih.bind .case trivial h
    cases h
    have hword := Kind.isKeyword_iff.1 hword
    have hgenerates := Generates.elif hword hts.generates
    exact ⟨_, .behind pword hts hgenerates (fun hb => hb) fun _ h => reads_elif hword h⟩
  · rcases of_bind_accept rfl h with ⟨word, c₁, hword, pword, h⟩ | ⟨helse, h⟩
    · obtain ⟨body, ts, c₂, hts, h⟩ := ih.bind .closedBody trivial h
      cases h
      have hword := Kind.isKeyword_iff.1 hword
      have hgenerates := Generates.otherwise hword hts.generates
      exact ⟨_, .behind pword hts hgenerates (fun hb => hb) fun _ h => reads_otherwise hword h⟩
    · cases h
      refine ⟨[], .nil .noBranch fun hb => ?_⟩
      exact reads_noBranch (Agrees.ne hb (Kind.ne_keyword helif) (by simp [Closes]))
        (Agrees.ne hb (Kind.ne_keyword helse) (by simp [Closes]))

/-! ### Loops and functions -/

theorem forLoop (ih : TakesAt n) (hkind : c.kind = .keyword .forWord)
    (h : Syntax.forLoop (n + 1) c = .parsed e c') : ∃ ts, Takes .forLoop ts c e c' := by
  unfold Syntax.forLoop at h
  obtain ⟨word, c₁, hword, pword, h⟩ := of_bind_next (by rw [hkind]; simp) h
  obtain ⟨name, c₂, hname, pname, h⟩ := of_bind_expect rfl h
  obtain ⟨arrow, c₃, harrow, parrow, h⟩ := of_bind_expect rfl h
  obtain ⟨first, ts, c₄, hts, h⟩ := ih.bind .expression trivial h
  obtain ⟨untilWord, c₅, huntil, puntil, h⟩ := of_bind_expect rfl h
  obtain ⟨bound, us, c₆, hus, h⟩ := ih.bind .expression trivial h
  obtain ⟨step, vs, c₇, hvs, h⟩ := ih.bind .step trivial h
  obtain ⟨doWord, c₈, hdo, pdo, h⟩ := of_bind_expect rfl h
  obtain ⟨body, ws, c₉, hws, h⟩ := ih.bind .closedBody trivial h
  cases h
  have hword := hword.trans hkind
  have hname := Kind.isIdentifier_iff.1 hname
  have harrow := Kind.isSymbol_iff.1 harrow
  have huntil := Kind.isKeyword_iff.1 huntil
  have hdo := Kind.isKeyword_iff.1 hdo
  have phead := pword.cons (pname.cons (parrow.cons hts.passes))
  have pbound := puntil.cons hus.passes
  have pbody := pdo.cons hws.passes
  rw [hws.passes.previous_eq, pdo.previous_of_one]
  refine ⟨_, ((phead.trans pbound).trans hvs.passes).trans pbody,
    .counting hword hname harrow hts.generates huntil hus.generates hvs.generates hdo
      hws.generates, ?_⟩
  intro d d' hd hb
  obtain ⟨⟨p₃, xs⟩, hd, hbody⟩ := hd.append_inv
  obtain ⟨d₂, hd, hstep⟩ := hd.append_inv
  obtain ⟨⟨p₁, ys⟩, hd, hbound⟩ := hd.append_inv
  obtain ⟨p, zs⟩ := d
  obtain ⟨zs, rfl, hd₁⟩ := hd.cons_inv
  obtain ⟨zs, rfl, hd₂⟩ := hd₁.cons_inv
  obtain ⟨zs, rfl, hd₃⟩ := hd₂.cons_inv
  have hreadFirst := hts.again hd₃ (Agrees.of_cons pbound hbound)
  have hend := Agrees.of_cons pbody hbody
  have hreadStep := hvs.again hstep hend
  obtain ⟨ys, rfl, hbound₁⟩ := hbound.cons_inv
  obtain ⟨xs, rfl, hbody₁⟩ := hbody.cons_inv
  have hreadBound := hus.again hbound₁ (Agrees.before hvs.passes hstep hend)
  have hloop := reads_counting (r := p) hword hname harrow hreadFirst huntil hreadBound hreadStep
    hdo (hws.again hbody₁ hb)
  rwa [hbody₁.previous_eq] at hloop

theorem step (ih : TakesAt n) {value : Option Expr}
    (h : Syntax.step (n + 1) c = .parsed value c') : ∃ ts, Takes .step ts c value c' := by
  unfold Syntax.step at h
  rcases of_bind_accept rfl h with ⟨word, c₁, hword, pword, h⟩ | ⟨hword, h⟩
  · obtain ⟨value, ts, c₂, hts, h⟩ := ih.bind .expression trivial h
    cases h
    have hword := Kind.isKeyword_iff.1 hword
    have hgenerates := Generates.step hword hts.generates
    exact ⟨_, .behind pword hts hgenerates (fun hb => hb) fun _ h => reads_step hword h⟩
  · cases h
    refine ⟨[], .nil .noStep fun hb => ?_⟩
    exact reads_noStep (Agrees.ne hb (Kind.ne_keyword hword) (by simp [Closes]))

theorem closedBody (ih : TakesAt n) {body : Body}
    (h : Syntax.closedBody (n + 1) c = .parsed body c') :
    ∃ ts, Takes .closedBody ts c body c' := by
  unfold Syntax.closedBody at h
  rcases of_bind_accept rfl h with ⟨separator, c₁, hsep, psep, h⟩ | ⟨hsep, h⟩
  · obtain ⟨block, ts, c₂, hts, h⟩ := ih.bind .statements trivial h
    obtain ⟨fin, c₃, hfin, pfin, h⟩ := of_bind_expect rfl h
    cases h
    have hsep := Kind.isSeparator_iff.1 hsep
    have hfin := Kind.isKeyword_iff.1 hfin
    refine ⟨_, (psep.cons hts.passes).trans pfin, .blockBody hsep hts.generates hfin, ?_⟩
    rintro ⟨p, us⟩ d' hd _
    obtain ⟨⟨q, vs⟩, hd₁, hd₂⟩ := hd.append_inv
    obtain ⟨us, rfl, hd₃⟩ := hd₁.cons_inv
    have hblock := hts.again_before_fin hfin hd₃ hd₂
    obtain ⟨vs, rfl, rfl⟩ := hd₂.singleton_inv
    exact reads_blockBody hsep hblock hfin
  · obtain ⟨value, ts, c₁, hts, h⟩ := ih.bind .expression trivial h
    cases h
    refine ⟨ts, hts.passes, .inlineBody hts.generates, fun hd hb => ?_⟩
    refine reads_inlineBody ?_ (hts.again hd hb)
    rw [hts.kind_eq trivial hd]
    exact Kind.ne_separator hsep

theorem function (ih : TakesAt n) (hkind : c.kind = .keyword .define)
    (h : Syntax.function (n + 1) c = .parsed e c') : ∃ ts, Takes .function ts c e c' := by
  unfold Syntax.function at h
  obtain ⟨word, c₁, hword, pword, h⟩ := of_bind_next (by rw [hkind]; simp) h
  obtain ⟨name, c₂, hname, h⟩ := bind_eq_parsed_iff.1 h
  obtain ⟨ts, pts, gts⟩ := generates_of_functionName hname
  obtain ⟨params, c₃, hparams, h⟩ := bind_eq_parsed_iff.1 h
  obtain ⟨us, pus, gus⟩ := generates_of_parameters hparams
  obtain ⟨body, vs, c₄, hvs, h⟩ := ih.bind .functionBody trivial h
  cases h
  have hword := hword.trans hkind
  have pall := (pts.trans pus).trans hvs.passes
  rw [pall.previous_eq, pword.previous_of_one]
  refine ⟨_, pword.cons pall, .definition hword gts gus hvs.generates, ?_⟩
  rintro ⟨p, ws⟩ d' hd hb
  obtain ⟨ws, rfl, hd₁⟩ := hd.cons_inv
  obtain ⟨d₃, hd₂, hd₅⟩ := hd₁.append_inv
  obtain ⟨d₂, hd₃, hd₄⟩ := hd₂.append_inv
  have hfunction := reads_definition (p := p) hword (functionName_of_generates gts hd₃)
    (parameters_of_generates gus hd₄) (hvs.again hd₅ hb)
  rwa [hd₁.previous_eq] at hfunction

theorem functionBody (ih : TakesAt n) {body : Body}
    (h : Syntax.functionBody (n + 1) c = .parsed body c') :
    ∃ ts, Takes .functionBody ts c body c' := by
  unfold Syntax.functionBody at h
  rcases of_bind_accept rfl h with ⟨arrow, c₁, harrow, parrow, h⟩ | ⟨-, h⟩
  · obtain ⟨value, ts, c₂, hts, h⟩ := ih.bind .expression trivial h
    cases h
    have harrow := Kind.isSymbol_iff.1 harrow
    have hgenerates := Generates.arrowBody harrow hts.generates
    exact ⟨_, .behind parrow hts hgenerates (fun hb => hb) fun _ h => reads_arrowBody harrow h⟩
  · obtain ⟨separator, c₁, hsep, psep, h⟩ := of_bind_expect rfl h
    obtain ⟨block, ts, c₂, hts, h⟩ := ih.bind .statements trivial h
    obtain ⟨fin, c₃, hfin, pfin, h⟩ := of_bind_expect rfl h
    cases h
    have hsep := Kind.isSeparator_iff.1 hsep
    have hfin := Kind.isKeyword_iff.1 hfin
    refine ⟨_, (psep.cons hts.passes).trans pfin, .functionBlock hsep hts.generates hfin, ?_⟩
    rintro ⟨p, us⟩ d' hd _
    obtain ⟨⟨q, vs⟩, hd₁, hd₂⟩ := hd.append_inv
    obtain ⟨us, rfl, hd₃⟩ := hd₁.cons_inv
    have hblock := hts.again_before_fin hfin hd₃ hd₂
    obtain ⟨vs, rfl, rfl⟩ := hd₂.singleton_inv
    exact reads_functionBlock hsep hblock hfin

/-! ### Statements -/

theorem statements (ih : TakesAt n) {block : Program}
    (h : Syntax.statements (n + 1) c = .parsed block c') :
    ∃ ts, Takes .statements ts c block c' := by
  unfold Syntax.statements at h
  obtain ⟨seps, c₁, hseps, pseps, hne, h⟩ := of_bind_skipSeparators h
  obtain ⟨first, ts, c₂, hts, h⟩ := ih.bind .expression trivial h
  obtain ⟨rest, us, c₃, hus, h⟩ := ih.bind .moreStatements trivial h
  cases h
  have pboth := hts.passes.trans hus.passes
  -- an expression has tokens, so the token passed last is one of the statements
  obtain ⟨last, hlast⟩ : ∃ last, (ts ++ us).getLast? = some last := by
    have hpos := length_pos_of_generates hts.generates trivial
    rw [← Option.isSome_iff_exists, List.getLast?_isSome]
    exact fun hnil => by simp [List.append_eq_nil_iff.1 hnil] at hpos
  have hspan {p : Token} : (ts ++ us).getLastD p = last := by
    rw [List.getLastD_eq_getLast?, hlast]
    rfl
  rw [pboth.previous_eq, hspan]
  refine ⟨_, (pseps.trans hts.passes).trans hus.passes,
    .statements hseps hts.generates hus.generates hlast, ?_⟩
  rintro ⟨p, vs⟩ d' hd hb
  obtain ⟨d₂, hleft, hd₃⟩ := hd.append_inv
  obtain ⟨d₁, hd₁, hd₂⟩ := hleft.append_inv
  have hfirst := hts.again_skipped hne hseps hd₁ hd₂ (Agrees.before hus.passes hd₃ hb.2)
  have hblock := reads_statements hfirst (hus.again hd₃ hb)
  rwa [(hd₂.trans hd₃).previous_eq, hspan] at hblock

theorem moreStatements (ih : TakesAt n) (h : Syntax.moreStatements (n + 1) c = .parsed es c') :
    ∃ ts, Takes .moreStatements ts c es c' := by
  unfold Syntax.moreStatements at h
  rcases of_bind_accept rfl h with ⟨separator, c₁, hsep, psep, h⟩ | ⟨hsep, h⟩
  · have hsep := Kind.isSeparator_iff.1 hsep
    obtain ⟨seps, c₂, hseps, pseps, hne, h⟩ := of_bind_skipSeparators h
    obtain ⟨found, c₃, hfound, h⟩ := bind_eq_parsed_iff.1 h
    unfold Parse.attempt at hfound
    cases hread : Syntax.expression n c₂ with
    | parsed first c₄ =>
      rw [hread] at hfound
      cases hfound
      obtain ⟨ts, hts⟩ := ih .expression trivial hread
      obtain ⟨rest, us, c₅, hus, h⟩ := ih.bind .moreStatements trivial h
      cases h
      refine ⟨_, ((psep.cons pseps).trans hts.passes).trans hus.passes,
        .moreStatements hsep hseps hts.generates hus.generates, ?_⟩
      rintro ⟨p, vs⟩ d' hd hb
      obtain ⟨d₂, hleft, hd₃⟩ := hd.append_inv
      obtain ⟨d₁, hd₁, hd₂⟩ := hleft.append_inv
      obtain ⟨vs, rfl, hd₀⟩ := hd₁.cons_inv
      have hfirst := hts.again_skipped hne hseps hd₀ hd₂ (Agrees.before hus.passes hd₃ hb.2)
      exact reads_moreStatements hsep hfirst (hus.again hd₃ hb)
    | failed x c₄ =>
      rw [hread] at hfound
      cases hfound
      cases h
      refine ⟨_, psep.cons pseps, .trailing hsep hseps, ?_⟩
      rintro ⟨p, vs⟩ d' hd hb
      obtain ⟨vs, rfl, hd₀⟩ := hd.cons_inv
      have hbehind := hd₀.skipped_eq_right hseps hb.1.ne_separator
      have hrefuses : Refuses .expression d' := refuses_expression hb.1
      rw [← hbehind] at hrefuses ⊢
      exact reads_trailing hsep hrefuses
    | exhausted =>
      rw [hread] at hfound
      cases hfound
  · cases h
    exact ⟨[], .nil .noStatement fun hb => reads_noStatement hb.1.ne_separator⟩

end TakesAt

/-- Whatever a reading function reads, within whatever bound, is taken. -/
theorem takesAt (n : ℕ) : TakesAt n := by
  induction n with
  | zero =>
    intro α r c c' a _ h
    rw [r.read_zero] at h
    cases h
  | succ n ih =>
    intro α r c c' a hr h
    cases r with
    | expression => exact ih.expression h
    | comparison => exact ih.comparison h
    | chain level => exact ih.chain h
    | links level left => exact ih.links h
    | operand level => exact ih.operand h
    | rightOperand level => exact ih.rightOperand h
    | factor => exact ih.factor h
    | call => exact ih.call h
    | items close x => exact ih.items h
    | moreItems => exact ih.moreItems h
    | atom => exact ih.atom h
    | case => exact ih.case h
    | branches => exact ih.branches h
    | forLoop => exact ih.forLoop hr h
    | step => exact ih.step h
    | closedBody => exact ih.closedBody h
    | function => exact ih.function hr h
    | functionBody => exact ih.functionBody h
    | statements => exact ih.statements h
    | moreStatements => exact ih.moreStatements h

end UniformScript.Syntax
