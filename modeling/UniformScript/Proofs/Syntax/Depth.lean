import UniformScript.Proofs.Syntax.Script
import UniformScript.Proofs.Syntax.Rules

/-!
# The bound on the depth is never met

Between two tokens a reading function goes down a bounded number of levels.  The `rank` of a
reading function says how many may be needed at most before the next token is passed; with that
many and twenty-four for every token ahead, reading comes to an answer.

* `Routine.paced`: until a script passes a token it calls functions of a smaller rank only.
* `Routine.Within`: what is left of a script while it is done; each kind of step keeps it.
* `Routine.stops_of_read`: where a reading function stops, and that it has passed a token.
* `answers_read`: within such a bound every reading function parses or fails.
* `answers_program`: the bound that `parse` chooses is one, so `parse` never gives up.
-/

namespace UniformScript.Syntax

open Parse Cursor

/-! ## Ranks -/

/-- The rank of the first operand of a level. -/
def Level.rank : Level → Nat
  | junction => 15
  | comparison => 12
  | sum => 10
  | product => 8
  | power => 4

theorem Level.rank_pos (level : Level) : 0 < level.rank := by cases level <;> decide

theorem Level.rank_le (level : Level) : level.rank ≤ 15 := by cases level <;> decide

/-- How far down a nonterminal may go before it passes a token. -/
@[simp]
def Nonterminal.rank {α : Type} : Nonterminal α → Nat
  | expression => 17
  | comparison => 14
  | chain level => level.rank + 1
  | links _ _ => 1
  | operand level => level.rank
  | rightOperand level => level.rank + 4
  | factor => 7
  | call => 3
  | items _ _ => 18
  | moreItems => 1
  | atom => 2
  | case => 18
  | branches => 1
  | forLoop => 1
  | step => 1
  | closedBody => 18
  | function => 1
  | functionBody => 1
  | statements => 18
  | moreStatements => 1

namespace Routine

variable {α : Type}

/-- How far down a reading function may go before it passes a token. -/
@[simp]
def rank : Routine α → Nat
  | reading r => r.rank
  | separators => 1
  | names => 1
  | program => 19

theorem rank_pos (r : Routine α) : 0 < r.rank := by
  cases r with
  | reading r => cases r <;> simp [Level.rank_pos]
  | _ => decide

theorem rank_le (r : Routine α) : r.rank ≤ 19 := by
  cases r with
  | reading r =>
    cases r with
    | chain level | operand level | rightOperand level =>
      have hlevel := level.rank_le
      simp only [rank, Nonterminal.rank]
      omega
    | _ => simp
  | _ => decide

/-- The reading functions that pass at least one token where they succeed. -/
@[simp]
def Consumes : Routine α → Prop
  | reading r => r.Consumes
  | separators => False
  | names => False
  | program => True

end Routine

/-! ## Scripts that pass no token yet -/

/-- With a next token of the given kind, and until it passes one, the script calls functions of a
rank below `b` only, and it comes to its end only if `may`. -/
@[simp]
def Script.Paced {α : Type} (b : Nat) (may : Prop) : Script α → Kind → Prop
  | done _, _ => may
  | fail _, _ => True
  | look next, k => (next k).Paced b may k
  | lastSpan next, k => ∀ span, (next span).Paced b may k
  | pass next, k => k = .finish → ∀ token, (next token).Paced b may k
  | accept is _ no, k => is .finish ≠ true ∧ (is k ≠ true → no.Paced b may k)
  | expect is _ _, _ => is .finish ≠ true
  | call s next, k => s.rank < b ∧ (¬ s.Consumes → ∀ a, (next a).Paced b may k)
  | attempt s next, k =>
    s.rank < b ∧ (next none).Paced b may k ∧ (¬ s.Consumes → ∀ a, (next (some a)).Paced b may k)
  | expecting _ s next, k => s.rank < b ∧ (¬ s.Consumes → ∀ a, (next a).Paced b may k)

/-- Every script goes down in rank until it passes a token, and does pass one if it reads any. -/
theorem Nonterminal.paced {α : Type} (r : Nonterminal α) (k : Kind) :
    r.script.Paced r.rank (¬ r.Consumes) k := by
  cases r with
  | links level left =>
    dsimp only [Nonterminal.script, Script.Paced]
    -- at the end of the text there is no operator, so a token is passed with it
    cases h : level.operator? k with
    | none => exact id
    | some op =>
      rintro rfl
      cases h
  | factor =>
    dsimp only [Nonterminal.script, Script.Paced]
    cases h : UnaryOp.sign? k with
    | none => simp [Nonterminal.Consumes, Level.rank]
    | some op =>
      rintro rfl
      cases h
  | atom =>
    dsimp only [Nonterminal.script, Script.Paced]
    split <;> simp_all [Nonterminal.Consumes]
  | function =>
    rintro rfl start
    simp [Script.functionName]
  | operand level | rightOperand level =>
    cases level <;> simp [Nonterminal.script, Nonterminal.Consumes, Level.rank]
  | _ => simp [Nonterminal.script, Nonterminal.Consumes, Level.rank]

theorem Routine.paced {α : Type} (r : Routine α) (k : Kind) :
    r.script.Paced r.rank (¬ r.Consumes) k := by
  cases r with
  | reading r => exact r.paced k
  | _ => simp [Routine.script, Nonterminal.Consumes]

/-! ## Scripts under way -/

namespace Routine

variable {α β : Type} {r : Routine α} {s : Routine β} {d c c' : Cursor} {us : List Token}

/-- A reading function that is called at `d` may stop at `c`, having read something. -/
def Ends (r : Routine α) (d c : Cursor) : Prop :=
  ∃ ts, Passes ts d c ∧ (r.Consumes → ts ≠ [])

/-- Under way from `d`, a reading function may call another at `c`. -/
def Calls (r : Routine α) (d : Cursor) (s : Routine β) (c : Cursor) : Prop :=
  ∃ ts, Passes ts d c ∧ (ts = [] → s.rank < r.rank)

/-- Under way from `d`, a reading function may have come to `c` with a script still to be done. -/
def Within (r : Routine α) (d : Cursor) (p : Script α) (c : Cursor) : Prop :=
  ∃ ts, Passes ts d c ∧ (ts = [] → p.Paced r.rank (¬ r.Consumes) c.kind)

theorem Ends.exists_passes (h : r.Ends d c) : ∃ ts, Passes ts d c :=
  let ⟨ts, pts, _⟩ := h
  ⟨ts, pts⟩

namespace Within

theorem enter (r : Routine α) (d : Cursor) : r.Within d r.script d :=
  ⟨[], .refl d, fun _ => r.paced d.kind⟩

theorem exists_passes {p : Script α} (h : r.Within d p c) : ∃ ts, Passes ts d c :=
  let ⟨ts, pts, _⟩ := h
  ⟨ts, pts⟩

theorem fail (e : Expectation) (h : ∃ ts, Passes ts d c) : r.Within d (.fail e) c :=
  let ⟨ts, pts⟩ := h
  ⟨ts, pts, fun _ => trivial⟩

/-- What is left changes where no token is passed, or some are. -/
theorem move {p q : Script α} (h : r.Within d p c) (hp : Passes us c c')
    (hq : us = [] → p.Paced r.rank (¬ r.Consumes) c.kind → q.Paced r.rank (¬ r.Consumes) c.kind) :
    r.Within d q c' := by
  obtain ⟨ts, pts, hts⟩ := h
  refine ⟨ts ++ us, pts.trans hp, fun hnil => ?_⟩
  obtain ⟨hts', hus⟩ := List.append_eq_nil_iff.1 hnil
  subst hus
  rw [hp.nil_inv]
  exact hq rfl (hts hts')

theorem done {a : α} (h : r.Within d (.done a) c) : r.Ends d c := by
  obtain ⟨ts, pts, hts⟩ := h
  exact ⟨ts, pts, fun hr hnil => hts hnil hr⟩

theorem look {next : Kind → Script α} (h : r.Within d (.look next) c) :
    r.Within d (next c.kind) c :=
  h.move (.refl c) fun _ hp => hp

theorem lastSpan {next : Span → Script α} (h : r.Within d (.lastSpan next) c) (span : Span) :
    r.Within d (next span) c :=
  h.move (.refl c) fun _ hp => hp span

theorem pass {next : Token → Script α} (h : r.Within d (.pass next) c) (token : Token) :
    r.Within d (next token) c.advance := by
  by_cases hc : c.kind = .finish
  · rw [advance_of_finish hc]
    exact h.move (.refl c) fun _ hp => hp hc token
  · obtain ⟨t, -, pt, -⟩ := exists_passes_advance hc
    exact h.move pt (by simp)

theorem accepted {is : Kind → Bool} {yes no : Script α} (h : r.Within d (.accept is yes no) c)
    (his : is c.kind = true) : r.Within d yes c.advance := by
  by_cases hc : c.kind = .finish
  · rw [advance_of_finish hc]
    exact h.move (.refl c) fun _ hp => absurd (hc ▸ his) hp.1
  · obtain ⟨t, -, pt, -⟩ := exists_passes_advance hc
    exact h.move pt (by simp)

theorem refused {is : Kind → Bool} {yes no : Script α} (h : r.Within d (.accept is yes no) c)
    (his : is c.kind ≠ true) : r.Within d no c :=
  h.move (.refl c) fun _ hp => hp.2 his

theorem expected {is : Kind → Bool} {e : Expectation} {next : Token → Script α}
    (h : r.Within d (.expect is e next) c) (his : is c.kind = true) (token : Token) :
    r.Within d (next token) c.advance := by
  by_cases hc : c.kind = .finish
  · rw [advance_of_finish hc]
    exact h.move (.refl c) fun _ hp => absurd (hc ▸ his) hp
  · obtain ⟨t, -, pt, -⟩ := exists_passes_advance hc
    exact h.move pt (by simp)

theorem calls {p : Script α} (h : r.Within d p c)
    (hs : p.Paced r.rank (¬ r.Consumes) c.kind → s.rank < r.rank) : r.Calls d s c := by
  obtain ⟨ts, pts, hts⟩ := h
  exact ⟨ts, pts, fun hnil => hs (hts hnil)⟩

/-- Where a function that was called stops, the script goes on. -/
theorem behind {p q : Script α} (h : r.Within d p c) (hc : s.Ends c c')
    (hq : ¬ s.Consumes → p.Paced r.rank (¬ r.Consumes) c.kind →
      q.Paced r.rank (¬ r.Consumes) c.kind) : r.Within d q c' := by
  obtain ⟨us, pus, hus⟩ := hc
  exact h.move pus fun hnil hp => hq (fun hs => hus hs hnil) hp

end Within

end Routine

/-! ## Where reading functions stop -/

/-- Called at `d`, a reading function stops behind it, and has passed a token if it reads at least
one. -/
def Outcome.Stops {α : Type} (r : Routine α) (d : Cursor) : Outcome α → Prop
  | parsed _ c => r.Ends d c
  | failed _ c => ∃ ts, Passes ts d c
  | exhausted => True

section

variable {α β : Type} {n : Nat} {r : Routine α} {d c : Cursor}

theorem stops_bind {q : Parse β} {f : β → Parse α}
    (hparsed : ∀ b c', q c = .parsed b c' → (f b c').Stops r d)
    (hfailed : ∀ e c', q c = .failed e c' → ∃ ts, Passes ts d c') :
    ((q >>= f) c).Stops r d := by
  show (Parse.bind q f c).Stops r d
  unfold Parse.bind
  split
  · rename_i b c' hq
    exact hparsed b c' hq
  · rename_i e c' hq
    exact hfailed e c' hq
  · trivial

/-- If all reading functions stop behind the place where they are called, so does a script that
calls them. -/
theorem Script.run_stops
    (ih : ∀ {β : Type} (s : Routine β) (c : Cursor), (s.read n c).Stops s c) {p : Script α}
    (h : r.Within d p c) : (p.run n c).Stops r d := by
  have ends {β : Type} {s : Routine β} {b : β} {c c' : Cursor} (hs : s.read n c = .parsed b c') :
      s.Ends c c' :=
    (hs ▸ ih s c : (Outcome.parsed b c').Stops s c)
  have fails {β : Type} {s : Routine β} {e : Expectation} {c c' : Cursor}
      (hc : ∃ ts, Passes ts d c) (hs : s.read n c = .failed e c') : ∃ ts, Passes ts d c' := by
    obtain ⟨ts, pts⟩ := hc
    obtain ⟨us, pus⟩ := (hs ▸ ih s c : (Outcome.failed e c').Stops s c)
    exact ⟨ts ++ us, pts.trans pus⟩
  induction p generalizing c with
  | done a => exact h.done
  | fail e => exact h.exists_passes
  | look next hnext => exact hnext _ h.look
  | lastSpan next hnext => exact hnext _ (h.lastSpan _)
  | pass next hnext => exact hnext _ (h.pass _)
  | accept is yes no hyes hno =>
    rw [run_accept]
    split
    · exact hyes (h.accepted ‹_›)
    · exact hno (h.refused ‹_›)
  | expect is e next hnext =>
    rw [run_expect]
    split
    · exact hnext _ (h.expected ‹_› _)
    · exact h.exists_passes
  | call s next hnext =>
    refine stops_bind (fun b c' hs => ?_) fun e c' hs => fails h.exists_passes hs
    exact hnext b (h.behind (ends hs) fun hr hp => hp.2 hr b)
  | attempt s next hnext =>
    refine stops_bind (fun found c' hs => ?_) fun e c' hs => absurd hs (attempt_ne_failed _ _ _ _)
    cases found with
    | none =>
      rw [(attempt_eq_none_iff.1 hs).1]
      exact hnext none (h.move (.refl c) fun _ hp => hp.2.1)
    | some b =>
      have hs := attempt_eq_some_iff.1 hs
      exact hnext (some b) (h.behind (ends hs) fun hr hp => hp.2.2 hr b)
  | expecting e s next hnext =>
    refine stops_bind (fun b c' hs => ?_) fun x c' hs => ?_
    · have hs := expecting_eq_parsed_iff.1 hs
      exact hnext b (h.behind (ends hs) fun hr hp => hp.2 hr b)
    · rcases eq_or_failed_of_expecting hs with rfl | hs
      · exact h.exists_passes
      · exact fails h.exists_passes hs

theorem Routine.read_zero_stops (r : Routine α) (d : Cursor) : (r.read 0 d).Stops r d := by
  cases r with
  | reading r =>
    show (r.read 0 d).Stops _ d
    rw [r.read_zero]
    trivial
  | separators =>
    obtain ⟨ts, -, pts, -⟩ := passes_behindSeparators d.previous d.rest
    exact ⟨ts, pts, False.elim⟩
  | names => trivial
  | program => trivial

theorem Routine.read_stops (r : Routine α) (n : Nat) (d : Cursor) : (r.read n d).Stops r d := by
  induction n generalizing α d with
  | zero => exact r.read_zero_stops d
  | succ n ih =>
    rw [r.read_succ]
    exact Script.run_stops ih (.enter r d)

/-- A reading function stops behind the place where it is called, and behind a token if it reads at
least one. -/
theorem Routine.ends_of_read {a : α} (h : r.read n d = .parsed a c) : r.Ends d c :=
  (h ▸ r.read_stops n d : (Outcome.parsed a c).Stops r d)

theorem Routine.exists_passes_of_failed {e : Expectation} (h : r.read n d = .failed e c) :
    ∃ ts, Passes ts d c :=
  (h ▸ r.read_stops n d : (Outcome.failed e c).Stops r d)

end

/-! ## Answers -/

namespace Parse

variable {α β : Type} {c : Cursor}

/-- The step parses or fails at the cursor. -/
def Answers (p : Parse α) (c : Cursor) : Prop := p c ≠ .exhausted

/-- Two steps in a row answer if the first does, and the second does behind it. -/
theorem answers_bind {p : Parse α} {f : α → Parse β} (hp : p.Answers c)
    (hf : ∀ a c', p c = .parsed a c' → (f a).Answers c') : (p >>= f).Answers c := by
  show Parse.bind p f c ≠ _
  unfold Parse.bind
  cases h : p c with
  | parsed a c' => exact hf a c' h
  | failed x c' => simp
  | exhausted => exact absurd h hp

theorem answers_expecting (x : Expectation) {p : Parse α} (hp : p.Answers c) :
    (expecting x p).Answers c := by
  unfold Answers Parse.expecting
  cases h : p c with
  | parsed a c' => simp
  | failed y c' => simp only []; split <;> simp
  | exhausted => exact absurd h hp

theorem answers_attempt {p : Parse α} (hp : p.Answers c) : (attempt p).Answers c := by
  unfold Answers Parse.attempt
  cases h : p c with
  | parsed a c' => simp
  | failed y c' => simp
  | exhausted => exact absurd h hp

end Parse

section

variable {α : Type} {n : Nat} {r : Routine α} {d c : Cursor}

/-- A function that is called needs less depth than the one that calls it. -/
theorem Routine.Calls.bound {β : Type} {s : Routine β} (h : r.Calls d s c)
    (hn : 24 * d.rest.length + r.rank ≤ n + 1) : 24 * c.rest.length + s.rank ≤ n := by
  obtain ⟨ts, pts, hts⟩ := h
  have hlength := pts.length_rest
  cases ts with
  | nil =>
    have hrank := hts rfl
    simp only [List.length_nil] at hlength
    omega
  | cons t ts =>
    have hrank := s.rank_le
    have hpos := r.rank_pos
    simp only [List.length_cons] at hlength
    omega

/-- If a bound is enough for all reading functions, the next larger one is enough for the scripts
that call them. -/
theorem Script.run_answers
    (ih : ∀ {β : Type} (s : Routine β) {c : Cursor},
      24 * c.rest.length + s.rank ≤ n → (s.read n).Answers c)
    {p : Script α} (h : r.Within d p c) (hn : 24 * d.rest.length + r.rank ≤ n + 1) :
    (p.run n).Answers c := by
  induction p generalizing c with
  | done a => nofun
  | fail e => nofun
  | look next hnext => exact hnext _ h.look
  | lastSpan next hnext => exact hnext _ (h.lastSpan _)
  | pass next hnext => exact hnext _ (h.pass _)
  | accept is yes no hyes hno =>
    unfold Answers
    rw [run_accept]
    split
    · exact hyes (h.accepted ‹_›)
    · exact hno (h.refused ‹_›)
  | expect is e next hnext =>
    unfold Answers
    rw [run_expect]
    split
    · exact hnext _ (h.expected ‹_› _)
    · nofun
  | call s next hnext =>
    have hs : (s.read n).Answers c := ih s ((h.calls fun hp => hp.1).bound hn)
    refine answers_bind hs fun b c' hb => hnext b ?_
    exact h.behind (Routine.ends_of_read hb) fun hr hp => hp.2 hr b
  | attempt s next hnext =>
    have hs : (s.read n).Answers c := ih s ((h.calls fun hp => hp.1).bound hn)
    refine answers_bind (answers_attempt hs) fun found c' hfound => hnext found ?_
    cases found with
    | none =>
      rw [(attempt_eq_none_iff.1 hfound).1]
      exact h.move (.refl c) fun _ hp => hp.2.1
    | some b =>
      have hb := attempt_eq_some_iff.1 hfound
      exact h.behind (Routine.ends_of_read hb) fun hr hp => hp.2.2 hr b
  | expecting e s next hnext =>
    have hs : (s.read n).Answers c := ih s ((h.calls fun hp => hp.1).bound hn)
    refine answers_bind (answers_expecting e hs) fun b c' hb => hnext b ?_
    have hb := expecting_eq_parsed_iff.1 hb
    exact h.behind (Routine.ends_of_read hb) fun hr hp => hp.2 hr b

/-- Within a bound of its rank, and twenty-four for every token ahead, a reading function parses or
fails. -/
theorem Routine.answers_read (r : Routine α) (hn : 24 * c.rest.length + r.rank ≤ n) :
    (r.read n).Answers c := by
  induction n generalizing α c with
  | zero =>
    have hpos := r.rank_pos
    omega
  | succ n ih =>
    rw [r.read_succ]
    exact Script.run_answers (fun s _ => ih s) (.enter r c) hn

end

/-- The bound that `parse` chooses is never met. -/
theorem answers_program (ts : List Token) :
    (program (depthFor ts)).Answers (Cursor.start ts) := by
  have hlength : (Cursor.start ts).rest.length = ts.length := by cases ts <;> rfl
  refine Routine.answers_read .program (n := depthFor ts + 1) ?_
  show 24 * _ + 19 ≤ 24 * (ts.length + 1) + 1
  omega

end UniformScript.Syntax
