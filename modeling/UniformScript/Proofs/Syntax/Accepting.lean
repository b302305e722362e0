import UniformScript.Proofs.Syntax.Taking
import UniformScript.Proofs.Syntax.CanonicalTokens

/-!
# Tokens that a reading step accepts

A step accepts a run of tokens if it reads all of them wherever they stand in front of a token that
closes them.  Steps that follow one another accept runs that follow one another, if the second run
begins with a token that closes the first.

For each nonterminal there is a short run of tokens that it accepts: a name, or nothing at all,
where the grammar does not ask for more.

* `Accepts`: what a step accepts.
* `Accepts.behind`: what was taken in front of some tokens is accepted together with what another
  step accepts from there on.
* `accepts_sample`: every nonterminal accepts its sample.
* `accepts_function`: a function is accepted if its name, its parameters and its body are.
-/

namespace UniformScript.Syntax

open Parse Cursor Filter Token

/-! ## The first token of a run -/

/-- What holds of the kind of the first token of a run, or of every kind that closes, if the run is
empty. -/
def Leads (us : List Token) (P : Kind → Prop) : Prop :=
  match us with
  | [] => ∀ k, Closes k → P k
  | u :: _ => P u.kind

theorem Leads.nil : Leads [] Closes := fun _ hk => hk

theorem Leads.kind {us : List Token} {P : Kind → Prop} (h : Leads us P) {d d' : Cursor}
    (hd : Passes us d d') (hd' : Closes d'.kind) : P d.kind := by
  cases us with
  | nil =>
    rw [← hd.nil_inv]
    exact h _ hd'
  | cons u us =>
    rw [hd.kind_of_cons]
    exact h

/-! ## Accepting -/

/-- Wherever the tokens `us` stand in front of one that closes them, the step reads them, within
all large enough bounds. -/
structure Accepts {α : Type} (p : ℕ → Parse α) (us : List Token) : Prop where
  kind_ne : ∀ u ∈ us, u.kind ≠ .finish
  reads : ∀ {d d' : Cursor}, Passes us d d' → Closes d'.kind →
    ∃ a, ∀ᶠ n in atTop, p n d = .parsed a d'

namespace Accepts

variable {α β : Type} {p q : ℕ → Parse α} {t : Token} {ts us vs ws : List Token}

theorem of_succ (h : Accepts (fun n => p (n + 1)) us) : Accepts p us where
  kind_ne := h.kind_ne
  reads hd hd' := (h.reads hd hd').imp fun _ ha => eventually_of_succ ha

/-- A step that is another step where the tokens stand accepts them too. -/
theorem of_eq (h : Accepts q us)
    (hpq : ∀ {d d' : Cursor}, Passes us d d' → Closes d'.kind → ∀ n, p n d = q n d) :
    Accepts p us where
  kind_ne := h.kind_ne
  reads hd hd' := by
    obtain ⟨a, ha⟩ := h.reads hd hd'
    exact ⟨a, ha.mono fun n hn => (hpq hd hd' n).trans hn⟩

/-- A step that reads nothing accepts no tokens. -/
theorem nil (h : ∀ d, ∃ a, ∀ n, p n d = .parsed a d) : Accepts p [] where
  kind_ne := by simp
  reads {d d'} hd _ := by
    obtain ⟨a, ha⟩ := h d
    rw [hd.nil_inv]
    exact ⟨a, .of_forall ha⟩

/-- A step that passes a token and goes on as another step. -/
theorem cons (ht : t.kind ≠ .finish)
    (hp : ∀ n previous rest, p n ⟨previous, t :: rest⟩ = q n ⟨t, rest⟩) (h : Accepts q us) :
    Accepts p (t :: us) where
  kind_ne := List.forall_mem_cons.2 ⟨ht, h.kind_ne⟩
  reads {d d'} hd hd' := by
    obtain ⟨previous, rest⟩ := d
    obtain ⟨rest, rfl, hd₁⟩ := hd.cons_inv
    obtain ⟨a, ha⟩ := h.reads hd₁ hd'
    exact ⟨a, ha.mono fun n hn => (hp n previous rest).trans hn⟩

/-- What is accepted is read somewhere, for instance at the end of the text. -/
theorem exists_parsed (h : Accepts p us) : ∃ n d a d', p n d = .parsed a d' := by
  obtain ⟨d', hd, hrest⟩ :=
    Passes.exists_of_rest (c := ⟨finishAt default, us⟩) (List.append_nil us).symm h.kind_ne
  obtain ⟨a, ha⟩ := h.reads hd (by simp [Closes, Cursor.kind, hrest])
  obtain ⟨n, hn⟩ := ha.exists
  exact ⟨n, _, a, _, hn⟩

/-- One step after the other. -/
theorem bind {g : ℕ → Parse β} {f : ℕ → β → Parse α} (hg : Accepts g us)
    (hf : ∀ b, Accepts (fun n => f n b) ws) (hws : Leads ws Closes) :
    Accepts (fun n => g n >>= f n) (us ++ ws) where
  kind_ne := by
    obtain ⟨-, -, b, -⟩ := hg.exists_parsed
    exact List.forall_mem_append.2 ⟨hg.kind_ne, (hf b).kind_ne⟩
  reads {d d'} hd hd' := by
    obtain ⟨d₁, hd₁, hd₂⟩ := hd.append_inv
    obtain ⟨b, hb⟩ := hg.reads hd₁ (hws.kind hd₂ hd')
    obtain ⟨a, ha⟩ := (hf b).reads hd₂ hd'
    exact ⟨a, (hb.and ha).mono fun n hn => (bind_of_parsed hn.1).trans hn.2⟩

/-- What a nonterminal has taken, and what another step accepts from there on. -/
theorem behind {r : Nonterminal β} {f : ℕ → β → Parse α} {c c₁ : Cursor} {b : β}
    (hr : Takes r us c b c₁) (hf : Accepts (fun n => f n b) ws)
    (hb : ∀ {d d' : Cursor}, Passes ws d d' → Closes d'.kind → r.Bears c₁.kind d.kind) :
    Accepts (fun n => r.read n >>= f n) (us ++ ws) where
  kind_ne := List.forall_mem_append.2 ⟨hr.passes.kind_ne, hf.kind_ne⟩
  reads {d d'} hd hd' := by
    obtain ⟨d₁, hd₁, hd₂⟩ := hd.append_inv
    obtain ⟨a, ha⟩ := hf.reads hd₂ hd'
    have hagain := hr.again hd₁ (hb hd₂ hd')
    exact ⟨a, (hagain.and ha).mono fun n hn => (bind_of_parsed hn.1).trans hn.2⟩

/-- What a nonterminal has taken it accepts. -/
theorem of_takes {r : Nonterminal α} {c c' : Cursor} {a : α} (h : Takes r us c a c') :
    Accepts r.read us where
  kind_ne := h.passes.kind_ne
  reads hd hd' := ⟨a, h.again hd (r.bears_of_closes _ hd')⟩

/-- Separators in front of a step that does not begin with one. -/
theorem skipSeparators {f : ℕ → Unit → Parse α} (hseps : ∀ t ∈ ts, t.kind = .separator)
    (hf : Accepts (fun n => f n ()) us) (hus : Leads us (· ≠ .separator)) :
    Accepts (fun n => Parse.skipSeparators >>= f n) (ts ++ us) where
  kind_ne := by
    refine List.forall_mem_append.2 ⟨fun t ht => ?_, hf.kind_ne⟩
    simp [hseps t ht]
  reads {d d'} hd hd' := by
    obtain ⟨d₁, hd₁, hd₂⟩ := hd.append_inv
    obtain ⟨a, ha⟩ := hf.reads hd₂ hd'
    have hskip : Parse.skipSeparators d = .parsed () d₁ := by
      rw [← hd₁.skipped_eq_right hseps (hus.kind hd₂ hd')]
      rfl
    exact ⟨a, ha.mono fun n hn => (bind_of_parsed hskip).trans hn⟩

/-- Where the next token decides for the first of two steps, what that accepts behind it is
accepted. -/
theorem of_accept {is : Kind → Bool} (hfin : is .finish = false) (ht : is t.kind = true)
    (h : Accepts p us) :
    Accepts (fun n => accept is >>= fun b => if b = true then p n else q n) (t :: us) := by
  have hne : t.kind ≠ .finish := fun hk => by simp [hk, hfin] at ht
  refine cons hne (fun n previous rest => ?_) h
  rw [accept_bind ht hne, if_pos rfl]

/-- Where the next token does not decide for the first of two steps, the second accepts. -/
theorem of_not_accept {is : Kind → Bool} (h : Accepts q us)
    (hus : Leads us fun k => ¬ is k = true) :
    Accepts (fun n => accept is >>= fun b => if b = true then p n else q n) us := by
  refine h.of_eq fun hd hd' n => ?_
  rw [accept_bind_of_not (hus.kind hd hd'), if_neg (by simp)]

theorem expecting {x : Expectation} (h : Accepts p us) :
    Accepts (fun n => Parse.expecting x (p n)) us where
  kind_ne := h.kind_ne
  reads hd hd' := by
    obtain ⟨a, ha⟩ := h.reads hd hd'
    exact ⟨a, ha.mono fun n hn => expecting_eq_parsed_iff.2 hn⟩

end Accepts

/-! ## Samples -/

/-- A short run of tokens that the nonterminal accepts. -/
def Nonterminal.sample {α : Type} : Nonterminal α → List Token
  | links _ _ | moreItems | branches | step | moreStatements => []
  | items close _ => [ofSymbol close]
  | case => [ofName "x", ofKeyword .doWord, ofName "x"]
  | forLoop =>
    [ofKeyword .forWord, ofName "x", ofSymbol .arrow, ofName "x", ofKeyword .untilWord, ofName "x",
      ofKeyword .doWord, ofName "x"]
  | function =>
    [ofKeyword .define, ofSymbol .leftParen, ofSymbol .rightParen, ofSymbol .arrow, ofName "x"]
  | functionBody => [ofSymbol .arrow, ofName "x"]
  | _ => [ofName "x"]

section

variable {name previous : Token} {rest : List Token} {c : Cursor}

/-! A name in front of a token that closes it is read as an operand of every level, and so as an
expression. -/

theorem reads_name_atom (hname : name.kind = .identifier)
    (hc : Closes (⟨name, rest⟩ : Cursor).kind) :
    Reads .atom ⟨previous, name :: rest⟩ (.access name.span name.lexeme) ⟨name, rest⟩ :=
  reads_access hname (hc.ne_symbol (by simp [Closes]))

theorem reads_name_call (hname : name.kind = .identifier)
    (hc : Closes (⟨name, rest⟩ : Cursor).kind) :
    Reads .call ⟨previous, name :: rest⟩ (.access name.span name.lexeme) ⟨name, rest⟩ :=
  reads_plain (reads_name_atom hname hc)
    (hc.ne_symbol (by simp [Closes]))

theorem reads_name_operand (level : Level) (hname : name.kind = .identifier)
    (hc : Closes (⟨name, rest⟩ : Cursor).kind) :
    Reads (.operand level) ⟨previous, name :: rest⟩ (.access name.span name.lexeme)
      ⟨name, rest⟩ := by
  have hkind : (⟨previous, name :: rest⟩ : Cursor).kind = .identifier := hname
  exact reads_operand_of_call (by rw [hkind]; rfl) (by rw [hkind]; simp)
    (fun other _ => hc.operator?_eq_none other) (reads_name_call hname hc)

theorem reads_name_chain (level : Level) (hname : name.kind = .identifier)
    (hc : Closes (⟨name, rest⟩ : Cursor).kind) :
    Reads (.chain level) ⟨previous, name :: rest⟩ (.access name.span name.lexeme) ⟨name, rest⟩ :=
  reads_chain_of_operand (reads_name_operand level hname hc) (hc.operator?_eq_none level)

theorem reads_name_factor (hname : name.kind = .identifier)
    (hc : Closes (⟨name, rest⟩ : Cursor).kind) :
    Reads .factor ⟨previous, name :: rest⟩ (.access name.span name.lexeme) ⟨name, rest⟩ := by
  have hkind : (⟨previous, name :: rest⟩ : Cursor).kind = .identifier := hname
  exact reads_factor (by rw [hkind]; rfl) (reads_name_chain .power hname hc)

theorem reads_name_expression (hname : name.kind = .identifier)
    (hc : Closes (⟨name, rest⟩ : Cursor).kind) :
    Reads .expression ⟨previous, name :: rest⟩ (.access name.span name.lexeme) ⟨name, rest⟩ := by
  have hkind : (⟨previous, name :: rest⟩ : Cursor).kind = .identifier := hname
  exact reads_expression (by rw [hkind]; simp) (reads_name_chain .junction hname hc)

theorem reads_name_body (hname : name.kind = .identifier)
    (hc : Closes (⟨name, rest⟩ : Cursor).kind) :
    Reads .closedBody ⟨previous, name :: rest⟩ (.inline (.access name.span name.lexeme))
      ⟨name, rest⟩ := by
  have hkind : (⟨previous, name :: rest⟩ : Cursor).kind = .identifier := hname
  exact reads_inlineBody (by rw [hkind]; simp) (reads_name_expression hname hc)

theorem reads_noBranch_of_closes (hc : Closes c.kind) : Reads .branches c .nothing c :=
  reads_noBranch (hc.ne_keyword (by simp [Closes])) (hc.ne_keyword (by simp [Closes]))

end

/-- A nonterminal accepts what it reads in front of all tokens that close it. -/
theorem Accepts.of_reads {α : Type} {r : Nonterminal α} {us : List Token}
    (hus : ∀ u ∈ us, u.kind ≠ .finish)
    (h : ∀ previous rest, Closes (⟨us.getLastD previous, rest⟩ : Cursor).kind →
      ∃ a, Reads r ⟨previous, us ++ rest⟩ a ⟨us.getLastD previous, rest⟩) :
    Accepts r.read us where
  kind_ne := hus
  reads {d d'} hd hd' := by
    obtain ⟨previous, rest⟩ := d
    obtain ⟨previous', rest'⟩ := d'
    obtain rfl : rest = us ++ rest' := hd.rest_eq
    obtain rfl : previous' = us.getLastD previous := hd.previous_eq
    exact h previous rest' hd'

theorem kind_ne_of_mem_sample {α : Type} (r : Nonterminal α) :
    ∀ u ∈ r.sample, u.kind ≠ .finish := by
  cases r <;> simp [Nonterminal.sample, ofName, ofKeyword, ofSymbol]

/-- Every nonterminal accepts its sample. -/
theorem accepts_sample {α : Type} (r : Nonterminal α) : Accepts r.read r.sample := by
  have hname : (ofName "x").kind = .identifier := rfl
  -- some of the words in the samples close the name in front of them
  have behind {word : Keyword} {rest : List Token} (h : Closes (.keyword word)) :
      Closes (⟨ofName "x", ofKeyword word :: rest⟩ : Cursor).kind := h
  have hdo : Closes (.keyword .doWord) := by simp [Closes]
  have huntil : Closes (.keyword .untilWord) := by simp [Closes]
  refine .of_reads (kind_ne_of_mem_sample r) fun previous rest hc => ?_
  cases r with
  | links level left => exact ⟨_, reads_noLink (hc.operator?_eq_none level)⟩
  | moreItems =>
    exact ⟨_, reads_noMoreItems (hc.ne_symbol (by simp [Closes]))⟩
  | branches => exact ⟨_, reads_noBranch_of_closes hc⟩
  | step => exact ⟨_, reads_noStep (hc.ne_keyword (by simp [Closes]))⟩
  | moreStatements => exact ⟨_, reads_noStatement hc.ne_separator⟩
  | items close x => exact ⟨_, reads_noItems rfl⟩
  | case =>
    refine ⟨_, reads_inlineCase (reads_name_expression hname (behind hdo)) rfl ?_
      (reads_name_expression hname hc) (reads_noBranch_of_closes hc)⟩
    simp [Cursor.kind, ofName]
  | forLoop =>
    refine ⟨_, reads_counting rfl rfl rfl (reads_name_expression hname (behind huntil)) rfl
      (reads_name_expression hname (behind hdo)) (reads_noStep ?_) rfl (reads_name_body hname hc)⟩
    simp [Cursor.kind, ofKeyword]
  | function =>
    have hparen : (ofSymbol .leftParen).kind ≠ .finish := by simp [ofSymbol]
    have hclose : (ofSymbol .rightParen).kind ≠ .finish := by simp [ofSymbol]
    exact ⟨_, reads_definition rfl (functionName_of_generates (.anonymous rfl) (.one rfl hparen))
      (parameters_of_generates (.none rfl) (.one rfl hclose))
      (reads_arrowBody rfl (reads_name_expression hname hc))⟩
  | functionBody => exact ⟨_, reads_arrowBody rfl (reads_name_expression hname hc)⟩
  | statements =>
    exact ⟨_,
      reads_statements (reads_name_expression hname hc) (reads_noStatement hc.ne_separator)⟩
  | closedBody => exact ⟨_, reads_name_body hname hc⟩
  | expression => exact ⟨_, reads_name_expression hname hc⟩
  | comparison =>
    refine ⟨_, reads_comparison ?_ (reads_name_chain .comparison hname hc)⟩
    simp [Cursor.kind, Nonterminal.sample, ofName]
  | chain level => exact ⟨_, reads_name_chain level hname hc⟩
  | operand level => exact ⟨_, reads_name_operand level hname hc⟩
  | rightOperand level =>
    by_cases hlevel : level = .power
    · subst hlevel
      exact ⟨_, reads_exponent (reads_name_factor hname hc)⟩
    · exact ⟨_, reads_rightOperand hlevel (reads_name_operand level hname hc)⟩
  | factor => exact ⟨_, reads_name_factor hname hc⟩
  | call => exact ⟨_, reads_name_call hname hc⟩
  | atom => exact ⟨_, reads_name_atom hname hc⟩

/-! ## Functions -/

/-- A function is accepted behind its first word if its name, its parameters and its body are. -/
theorem accepts_function {word : Token} {ts us vs : List Token} {name : Option String}
    {names : List String} (hword : word.kind = .keyword .define)
    (hname : GeneratesName ts name) (hparams : GeneratesParameters us names)
    (hbody : Accepts Nonterminal.functionBody.read vs) :
    Accepts Nonterminal.function.read (word :: (ts ++ (us ++ vs))) where
  kind_ne := by
    refine List.forall_mem_cons.2 ⟨by simp [hword], ?_⟩
    exact List.forall_mem_append.2
      ⟨hname.kind_ne, List.forall_mem_append.2 ⟨hparams.kind_ne, hbody.kind_ne⟩⟩
  reads {d d'} hd hd' := by
    obtain ⟨previous, rest⟩ := d
    obtain ⟨rest, rfl, hd₁⟩ := hd.cons_inv
    obtain ⟨d₂, hd₂, hd₃⟩ := hd₁.append_inv
    obtain ⟨d₃, hd₄, hd₅⟩ := hd₃.append_inv
    obtain ⟨body, hreads⟩ := hbody.reads hd₅ hd'
    exact ⟨_, reads_definition hword (functionName_of_generates hname hd₂)
      (parameters_of_generates hparams hd₄) hreads⟩

end UniformScript.Syntax
