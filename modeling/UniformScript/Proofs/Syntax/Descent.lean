import UniformScript.Proofs.Syntax.Depth
import Mathlib.Logic.Function.Iterate

/-!
# Reading ends, and never leaves its tokens

Reading functions call one another, and each call that is under way keeps the place where it began.
`Descent` is the state of such calls between two steps: the innermost one with what is left of its
script and the place it has come to, and the ones that wait for it.  `Descent.step` does one step:
it looks at the next token, or passes it, or calls a function, or returns to one that waits.  Only
where a statement was tried in vain does a step go back to an earlier place.

A state is `Orderly` if every call under way began behind the one that waits for it, or at the same
place with a smaller rank, and if what is left of every script fits the tokens passed so far.
Steps keep states orderly, so the places and the ranks of the calls under way are a measure that
going back does not break.

* `Routine.reaches`: the steps come to the answer that the reading function gives.
* `Descent.Orderly.step`, `Descent.orderly_iterate`: what one step keeps, and any number of them.
* `Callers.Orderly.pairwise`: how the calls under way follow one another.
* `Routine.SettlesInside`: what holds of every call inside the tokens.
* `parse_ends_inside`: reading ends, stays inside the tokens, and passes one before it repeats.
-/

namespace UniformScript.Syntax

open Parse Cursor

/-! ## Calls under way -/

/-- The calls that wait for a value, each with the place where it began and what it does next. -/
inductive Callers (ρ : Type) : Type → Type 1 where
  /-- The value is the answer. -/
  | nobody : Callers ρ ρ
  /-- The call fails if there is no value. -/
  | call {α β : Type} (r : Routine α) (d : Cursor) (next : β → Script α) (rest : Callers ρ α) :
    Callers ρ β
  /-- The call goes on if there is no value. -/
  | attempt {α β : Type} (r : Routine α) (d : Cursor) (next : Option β → Script α)
    (rest : Callers ρ α) : Callers ρ β
  /-- The call fails if there is no value, with an expectation of its own if no token was passed.
  -/
  | expecting {α β : Type} (r : Routine α) (d : Cursor) (e : Expectation) (next : β → Script α)
    (rest : Callers ρ α) : Callers ρ β

/-- What is going on between two steps. -/
inductive Descent (ρ : Type) : Type 1 where
  /-- The function `r`, called at `d`, is at `c` with a script still to be done. -/
  | under {α : Type} (r : Routine α) (d : Cursor) (p : Script α) (c : Cursor)
    (callers : Callers ρ α) : Descent ρ
  /-- Reading has ended with a value. -/
  | parsed (a : ρ) (c : Cursor) : Descent ρ
  /-- Reading has ended with an unmet expectation. -/
  | failed (e : Expectation) (c : Cursor) : Descent ρ

variable {ρ α β : Type}

/-- A value is handed to the call that waits for it. -/
def Callers.parsed : Callers ρ β → β → Cursor → Descent ρ
  | nobody, b, c => .parsed b c
  | call r d next rest, b, c => .under r d (next b) c rest
  | attempt r d next rest, b, c => .under r d (next (some b)) c rest
  | expecting r d _ next rest, b, c => .under r d (next b) c rest

/-- A function that was called at `s` has failed at `c`. -/
def Callers.failed : Callers ρ β → Cursor → Expectation → Cursor → Descent ρ
  | nobody, _, e, c => .failed e c
  | call r d _ rest, _, e, c => .under r d (.fail e) c rest
  | attempt r d next rest, s, _, _ => .under r d (next none) s rest
  | expecting r d x _ rest, s, e, c =>
    if c.rest.length = s.rest.length then .under r d (.fail x) s rest
    else .under r d (.fail e) c rest

theorem Callers.failed_expecting {r : Routine α} {d s c : Cursor} {x e : Expectation}
    {next : β → Script α} {rest : Callers ρ α} :
    (expecting r d x next rest).failed s e c =
      if c.rest.length = s.rest.length then .under r d (.fail x) s rest
      else .under r d (.fail e) c rest := rfl

namespace Descent

/-- One step. -/
def step : Descent ρ → Descent ρ
  | under _ _ (.done a) c callers => callers.parsed a c
  | under _ d (.fail e) c callers => callers.failed d e c
  | under r d (.look next) c callers => under r d (next c.kind) c callers
  | under r d (.lastSpan next) c callers => under r d (next c.previous.span) c callers
  | under r d (.pass next) c callers => under r d (next c.advance.previous) c.advance callers
  | under r d (.accept is yes no) c callers =>
    if is c.kind = true then under r d yes c.advance callers else under r d no c callers
  | under r d (.expect is e next) c callers =>
    if is c.kind = true then under r d (next c.advance.previous) c.advance callers
    else under r d (.fail e) c callers
  | under r d (.call s next) c callers => under s c s.script c (.call r d next callers)
  | under r d (.attempt s next) c callers => under s c s.script c (.attempt r d next callers)
  | under r d (.expecting e s next) c callers =>
    under s c s.script c (.expecting r d e next callers)
  | parsed a c => parsed a c
  | failed e c => failed e c

theorem step_accept {r : Routine α} {d c : Cursor} {is : Kind → Bool} {yes no : Script α}
    {w : Callers ρ α} : (under r d (.accept is yes no) c w).step =
      if is c.kind = true then under r d yes c.advance w else under r d no c w := rfl

theorem step_expect {r : Routine α} {d c : Cursor} {is : Kind → Bool} {e : Expectation}
    {next : Token → Script α} {w : Callers ρ α} : (under r d (.expect is e next) c w).step =
      if is c.kind = true then under r d (next c.advance.previous) c.advance w
      else under r d (.fail e) c w := rfl

/-- A reading function is called. -/
def enter (r : Routine ρ) (c : Cursor) : Descent ρ := under r c r.script c .nobody

/-- The place that reading has come to. -/
def cursor : Descent ρ → Cursor
  | under _ _ _ c _ => c
  | parsed _ c => c
  | failed _ c => c

/-- Some number of steps leads from one state to the other. -/
def Reaches (s t : Descent ρ) : Prop := ∃ n, step^[n] s = t

namespace Reaches

variable {s t u : Descent ρ}

theorem refl (s : Descent ρ) : s.Reaches s := ⟨0, rfl⟩

theorem head (h : s.step.Reaches t) : s.Reaches t :=
  let ⟨n, hn⟩ := h
  ⟨n + 1, hn⟩

theorem trans (h : s.Reaches t) (h' : t.Reaches u) : s.Reaches u := by
  obtain ⟨n, rfl⟩ := h
  obtain ⟨m, rfl⟩ := h'
  exact ⟨m + n, Function.iterate_add_apply step m n s⟩

end Reaches

end Descent

/-! ## The steps come to the answer -/

/-- What is left of a script that has come to an answer. -/
inductive Outcome.Leaves : Outcome α → Script α → Cursor → Prop where
  | parsed (a : α) (c : Cursor) : Leaves (.parsed a c) (.done a) c
  | failed (e : Expectation) (c : Cursor) : Leaves (.failed e c) (.fail e) c

section

open Descent

variable {n : Nat} {r : Routine α} {d c c' : Cursor} {w : Callers ρ α} {q : Script α}

theorem Outcome.Leaves.bind {p : Parse β} {f : β → Parse α} (h : ((p >>= f) c).Leaves q c') :
    (∃ b c₁, p c = .parsed b c₁ ∧ (f b c₁).Leaves q c') ∨
      ∃ e, p c = .failed e c' ∧ q = .fail e := by
  cases hp : p c with
  | parsed b c₁ =>
    rw [bind_of_parsed hp] at h
    exact .inl ⟨b, c₁, rfl, h⟩
  | failed e c₁ =>
    rw [bind_of_failed hp] at h
    cases h
    exact .inr ⟨e, rfl, rfl⟩
  | exhausted =>
    have hbind : (p >>= f) c = .exhausted := by
      show Parse.bind p f c = _
      unfold Parse.bind
      rw [hp]
    rw [hbind] at h
    cases h

/-- If the steps of all functions that are called come to their answers, so do those of a script.
-/
theorem Script.reaches
    (ih : ∀ {β : Type} {s : Routine β} {c c' : Cursor} {q : Script β} (w : Callers ρ β),
      (s.read n c).Leaves q c' → (under s c s.script c w).Reaches (under s c q c' w))
    {p : Script α} (h : (p.run n c).Leaves q c') :
    (under r d p c w).Reaches (under r d q c' w) := by
  have parsed {β : Type} {s : Routine β} {b : β} {c c' : Cursor} (w : Callers ρ β)
      (hs : s.read n c = .parsed b c') : (under s c s.script c w).Reaches (w.parsed b c') :=
    (ih w (hs ▸ Outcome.Leaves.parsed b c')).trans (.head (.refl _))
  have failed {β : Type} {s : Routine β} {e : Expectation} {c c' : Cursor} (w : Callers ρ β)
      (hs : s.read n c = .failed e c') : (under s c s.script c w).Reaches (w.failed c e c') :=
    (ih w (hs ▸ Outcome.Leaves.failed e c')).trans (.head (.refl _))
  induction p generalizing c with
  | done a =>
    cases h
    exact .refl _
  | fail e =>
    cases h
    exact .refl _
  | look next hnext => exact .head (hnext _ h)
  | lastSpan next hnext => exact .head (hnext _ h)
  | pass next hnext => exact .head (hnext _ h)
  | accept is yes no hyes hno =>
    rw [run_accept] at h
    refine .head ?_
    rw [step_accept]
    split at h <;> rename_i his
    · rw [if_pos his]
      exact hyes h
    · rw [if_neg his]
      exact hno h
  | expect is e next hnext =>
    rw [run_expect] at h
    refine .head ?_
    rw [step_expect]
    split at h <;> rename_i his
    · rw [if_pos his]
      exact hnext _ h
    · rw [if_neg his]
      cases h
      exact .refl _
  | call s next hnext =>
    refine .head ?_
    rcases h.bind with ⟨b, c₁, hs, h⟩ | ⟨e, hs, rfl⟩
    · exact (parsed _ hs).trans (hnext b h)
    · exact failed _ hs
  | attempt s next hnext =>
    refine .head ?_
    rcases h.bind with ⟨found, c₁, hs, hrun⟩ | ⟨e, hs, rfl⟩
    · cases found with
      | none =>
        obtain ⟨rfl, e, c₂, hs⟩ := attempt_eq_none_iff.1 hs
        exact (failed _ hs).trans (hnext none hrun)
      | some b => exact (parsed _ (attempt_eq_some_iff.1 hs)).trans (hnext (some b) hrun)
    · exact absurd hs (attempt_ne_failed _ _ _ _)
  | expecting e s next hnext =>
    refine .head ?_
    rcases h.bind with ⟨b, c₁, hs, h⟩ | ⟨x, hs, rfl⟩
    · exact (parsed _ (expecting_eq_parsed_iff.1 hs)).trans (hnext b h)
    · obtain ⟨y, c₁, hs, hx⟩ := exists_failed_of_expecting hs
      have hfailed := failed (.expecting r d e next w) hs
      rw [Callers.failed_expecting] at hfailed
      split at hx <;> obtain ⟨rfl, rfl⟩ := hx
      · rwa [if_pos ‹_›] at hfailed
      · rwa [if_neg ‹_›] at hfailed

/-- The steps of passing separators, one for each of them. -/
theorem Routine.reaches_separators (c : Cursor) (w : Callers ρ Unit) :
    (under separators c separators.script c w).Reaches
      (under separators c (.done ()) c.skipped w) := by
  obtain ⟨n, hn⟩ : ∃ n, c.rest.length = n := ⟨_, rfl⟩
  induction n using Nat.strongRecOn generalizing c w with
  | _ n ih =>
    refine .head ?_
    unfold script
    rw [step_accept]
    split
    · rename_i hsep
      have hsep := Kind.isSeparator_iff.1 hsep
      obtain ⟨t, -, pt, -⟩ := exists_passes_advance (c := c) (by rw [hsep]; simp)
      have hlength := pt.length_of_one
      rw [← skipped_advance hsep]
      exact .head ((ih _ (by omega) c.advance _ rfl).trans (.head (.refl _)))
    · rename_i hsep
      rw [skipped_eq_self fun hk => hsep (Kind.isSeparator_iff.2 hk)]
      exact .refl _

theorem Routine.reaches {s : Routine β} {q : Script β} (w : Callers ρ β)
    (h : (s.read n c).Leaves q c') : (under s c s.script c w).Reaches (under s c q c' w) := by
  induction n generalizing β c c' with
  | zero =>
    cases s with
    | separators =>
      cases h
      exact reaches_separators c w
    | reading s =>
      have h : (s.read 0 c).Leaves q c' := h
      rw [s.read_zero] at h
      cases h
    | names => cases h
    | program => cases h
  | succ n ih =>
    rw [s.read_succ] at h
    exact Script.reaches ih h

end

/-! ## Orderly descents -/

/-- `s` was called at `c`: the calls that wait for it began where it may be called, the first of
them being `r₀` at `c₀`, and whatever it reads, they have a script that fits the tokens passed by
then. -/
def Callers.Orderly (r₀ : Routine ρ) (c₀ : Cursor) {β : Type} :
    Callers ρ β → Routine β → Cursor → Prop
  | nobody, s, c => s = r₀ ∧ c = c₀
  | call r d next rest, s, c =>
    r.Calls d s c ∧ (∀ b c', s.Ends c c' → r.Within d (next b) c') ∧ rest.Orderly r₀ c₀ r d
  | attempt r d next rest, s, c =>
    r.Calls d s c ∧ (∀ b c', s.Ends c c' → r.Within d (next (some b)) c') ∧
      r.Within d (next none) c ∧ rest.Orderly r₀ c₀ r d
  | expecting r d _ next rest, s, c =>
    r.Calls d s c ∧ (∀ b c', s.Ends c c' → r.Within d (next b) c') ∧ rest.Orderly r₀ c₀ r d

namespace Descent

/-- What is left of the innermost script fits the tokens passed by now, and the calls that wait are
orderly; in the end `r₀`, called at `c₀`, has come to its end. -/
def Orderly (r₀ : Routine ρ) (c₀ : Cursor) : Descent ρ → Prop
  | under r d p c w => r.Within d p c ∧ w.Orderly r₀ c₀ r d
  | parsed _ c => r₀.Ends c₀ c
  | failed _ c => ∃ ts, Passes ts c₀ c

end Descent

section

open Descent

variable {r₀ : Routine ρ} {c₀ d c c' : Cursor} {r : Routine α} {s : Routine β}

theorem Routine.Calls.exists_passes (h : r.Calls d s c) : ∃ ts, Passes ts d c :=
  let ⟨ts, pts, _⟩ := h
  ⟨ts, pts⟩

/-- Between the place of a call and the place where a function that it called has failed there are
only tokens that are no end of the text. -/
theorem Routine.Calls.exists_passes_trans (h : r.Calls d s c) (hc : ∃ ts, Passes ts c c') :
    ∃ ts, Passes ts d c' := by
  obtain ⟨ts, pts⟩ := h.exists_passes
  obtain ⟨us, pus⟩ := hc
  exact ⟨ts ++ us, pts.trans pus⟩

theorem Callers.Orderly.parsed {w : Callers ρ β} (h : w.Orderly r₀ c₀ s c) (b : β)
    (hc : s.Ends c c') : (w.parsed b c').Orderly r₀ c₀ := by
  cases w with
  | nobody =>
    obtain ⟨rfl, rfl⟩ := h
    exact hc
  | call r d next rest => exact ⟨h.2.1 b c' hc, h.2.2⟩
  | attempt r d next rest => exact ⟨h.2.1 b c' hc, h.2.2.2⟩
  | expecting r d x next rest => exact ⟨h.2.1 b c' hc, h.2.2⟩

theorem Callers.Orderly.failed {w : Callers ρ β} (h : w.Orderly r₀ c₀ s c) (e : Expectation)
    (hc : ∃ ts, Passes ts c c') : (w.failed c e c').Orderly r₀ c₀ := by
  cases w with
  | nobody =>
    obtain ⟨rfl, rfl⟩ := h
    exact hc
  | call r d next rest => exact ⟨.fail e (h.1.exists_passes_trans hc), h.2.2⟩
  | attempt r d next rest => exact ⟨h.2.2.1, h.2.2.2⟩
  | expecting r d x next rest =>
    rw [Callers.failed_expecting]
    split
    · exact ⟨.fail x h.1.exists_passes, h.2.2⟩
    · exact ⟨.fail e (h.1.exists_passes_trans hc), h.2.2⟩

/-- One step keeps a descent orderly. -/
theorem Descent.Orderly.step {state : Descent ρ} (h : state.Orderly r₀ c₀) :
    state.step.Orderly r₀ c₀ := by
  cases state with
  | parsed a c => exact h
  | failed e c => exact h
  | under r d p c w =>
    obtain ⟨hp, hw⟩ := h
    cases p with
    | done a => exact hw.parsed a hp.done
    | fail e => exact hw.failed e hp.exists_passes
    | look next => exact ⟨hp.look, hw⟩
    | lastSpan next => exact ⟨hp.lastSpan _, hw⟩
    | pass next => exact ⟨hp.pass _, hw⟩
    | accept is yes no =>
      rw [step_accept]
      split
      · exact ⟨hp.accepted ‹_›, hw⟩
      · exact ⟨hp.refused ‹_›, hw⟩
    | expect is e next =>
      rw [step_expect]
      split
      · exact ⟨hp.expected ‹_› _, hw⟩
      · exact ⟨.fail e hp.exists_passes, hw⟩
    | call s next =>
      refine ⟨.enter s c, hp.calls fun h => h.1, fun b c' hc => ?_, hw⟩
      exact hp.behind hc fun hs h => h.2 hs b
    | attempt s next =>
      refine ⟨.enter s c, hp.calls fun h => h.1, fun b c' hc => ?_, ?_, hw⟩
      · exact hp.behind hc fun hs h => h.2.2 hs b
      · exact hp.move (.refl c) fun _ h => h.2.1
    | expecting e s next =>
      refine ⟨.enter s c, hp.calls fun h => h.1, fun b c' hc => ?_, hw⟩
      exact hp.behind hc fun hs h => h.2 hs b

theorem Descent.orderly_enter (r₀ : Routine ρ) (c₀ : Cursor) : (enter r₀ c₀).Orderly r₀ c₀ :=
  ⟨.enter r₀ c₀, rfl, rfl⟩

/-- Any number of steps leads to an orderly descent. -/
theorem Descent.orderly_iterate (r₀ : Routine ρ) (c₀ : Cursor) (n : Nat) :
    (Descent.step^[n] (enter r₀ c₀)).Orderly r₀ c₀ := by
  induction n with
  | zero => exact orderly_enter r₀ c₀
  | succ n ih =>
    rw [Function.iterate_succ_apply']
    exact ih.step

end

/-! ## Which calls are under way -/

/-- A call that is under way: what was called, and where. -/
structure Call : Type 1 where
  /-- The type of what is read. -/
  {type : Type}
  /-- The function that was called. -/
  routine : Routine type
  /-- The place where it was called. -/
  place : Cursor

/-- The calls that wait, the innermost first. -/
def Callers.calls {ρ β : Type} : Callers ρ β → List Call
  | nobody => []
  | call r d _ rest => ⟨r, d⟩ :: rest.calls
  | attempt r d _ rest => ⟨r, d⟩ :: rest.calls
  | expecting r d _ _ rest => ⟨r, d⟩ :: rest.calls

/-- The calls that are under way, the innermost first. -/
def Descent.calls {ρ : Type} : Descent ρ → List Call
  | under r d _ _ w => ⟨r, d⟩ :: w.calls
  | parsed _ _ => []
  | failed _ _ => []

/-- The one call began further on than the other, or at the same place with a smaller rank. -/
def Call.Deeper (inner outer : Call) : Prop :=
  inner.place.rest.length < outer.place.rest.length ∨
    inner.place = outer.place ∧ inner.routine.rank < outer.routine.rank

theorem Routine.Calls.deeper {r : Routine α} {s : Routine β} {d c : Cursor} (h : r.Calls d s c) :
    Call.Deeper ⟨s, c⟩ ⟨r, d⟩ := by
  obtain ⟨ts, pts, hts⟩ := h
  cases ts with
  | nil => exact .inr ⟨pts.nil_inv, hts rfl⟩
  | cons t ts =>
    have hlength := pts.length_rest
    simp only [List.length_cons] at hlength
    exact .inl (show c.rest.length < d.rest.length by omega)

theorem Call.Deeper.trans {x y z : Call} (h : x.Deeper y) (h' : y.Deeper z) : x.Deeper z := by
  rcases h with h | ⟨h, hrank⟩ <;> rcases h' with h' | ⟨h', hrank'⟩
  · exact .inl (Nat.lt_trans h h')
  · exact .inl (h' ▸ h)
  · exact .inl (h ▸ h')
  · exact .inr ⟨h.trans h', Nat.lt_trans hrank hrank'⟩

/-- Every call under way began deeper than each of the calls that wait for it. -/
theorem Callers.Orderly.pairwise {r₀ : Routine ρ} {c₀ : Cursor} {w : Callers ρ β} {s : Routine β}
    {c : Cursor} (h : w.Orderly r₀ c₀ s c) :
    (⟨s, c⟩ :: w.calls : List Call).Pairwise Call.Deeper := by
  -- a call in front of others, the first of which waits for it
  have cons {α β : Type} {r : Routine α} {d c : Cursor} {s : Routine β} {calls : List Call}
      (hcall : r.Calls d s c) (hcalls : (⟨r, d⟩ :: calls : List Call).Pairwise Call.Deeper) :
      (⟨s, c⟩ :: ⟨r, d⟩ :: calls : List Call).Pairwise Call.Deeper := by
    refine List.pairwise_cons.2 ⟨fun outer houter => ?_, hcalls⟩
    rcases List.mem_cons.1 houter with rfl | houter
    · exact hcall.deeper
    · exact hcall.deeper.trans (List.rel_of_pairwise_cons hcalls houter)
  induction w generalizing c with
  | nobody => exact List.pairwise_singleton _ _
  | call r d next rest ih => exact cons h.1 (ih h.2.2)
  | attempt r d next rest ih => exact cons h.1 (ih h.2.2.2)
  | expecting r d x next rest ih => exact cons h.1 (ih h.2.2)

theorem Descent.Orderly.pairwise {r₀ : Routine ρ} {c₀ : Cursor} {state : Descent ρ}
    (h : state.Orderly r₀ c₀) : state.calls.Pairwise Call.Deeper := by
  cases state with
  | under r d p c w => exact h.2.pairwise
  | parsed a c => exact .nil
  | failed e c => exact .nil

/-- Every call under way began where it was first called, or behind it. -/
theorem Callers.Orderly.exists_passes {r₀ : Routine ρ} {c₀ : Cursor} {w : Callers ρ β}
    {s : Routine β} {c : Cursor} (h : w.Orderly r₀ c₀ s c) :
    ∀ call ∈ (⟨s, c⟩ :: w.calls : List Call), ∃ ts, Passes ts c₀ call.place := by
  -- a call in front of others, the first of which waits for it
  have cons {α β : Type} {r : Routine α} {d c : Cursor} {s : Routine β} {calls : List Call}
      (hcall : r.Calls d s c)
      (hcalls : ∀ call ∈ (⟨r, d⟩ :: calls : List Call), ∃ ts, Passes ts c₀ call.place) :
      ∀ call ∈ (⟨s, c⟩ :: ⟨r, d⟩ :: calls : List Call), ∃ ts, Passes ts c₀ call.place := by
    refine List.forall_mem_cons.2 ⟨?_, hcalls⟩
    obtain ⟨ts, pts⟩ := hcalls _ List.mem_cons_self
    obtain ⟨us, pus⟩ := hcall.exists_passes
    exact ⟨ts ++ us, pts.trans pus⟩
  induction w generalizing c with
  | nobody =>
    obtain ⟨rfl, rfl⟩ := h
    exact List.forall_mem_singleton.2 ⟨[], .refl _⟩
  | call r d next rest ih => exact cons h.1 (ih h.2.2)
  | attempt r d next rest ih => exact cons h.1 (ih h.2.2.2)
  | expecting r d x next rest ih => exact cons h.1 (ih h.2.2)

theorem Descent.Orderly.exists_passes_of_mem {r₀ : Routine ρ} {c₀ : Cursor} {state : Descent ρ}
    (h : state.Orderly r₀ c₀) {call : Call} (hcall : call ∈ state.calls) :
    ∃ ts, Passes ts c₀ call.place := by
  cases state with
  | under r d p c w => exact h.2.exists_passes call hcall
  | parsed a c => cases hcall
  | failed e c => cases hcall

theorem Descent.Orderly.exists_passes {r₀ : Routine ρ} {c₀ : Cursor} {state : Descent ρ}
    (h : state.Orderly r₀ c₀) : ∃ ts, Passes ts c₀ state.cursor := by
  cases state with
  | under r d p c w =>
    obtain ⟨ts, pts⟩ := h.exists_passes_of_mem List.mem_cons_self
    obtain ⟨us, pus⟩ := h.1.exists_passes
    exact ⟨ts ++ us, pts.trans pus⟩
  | parsed a c => exact Routine.Ends.exists_passes h
  | failed e c => exact h

/-! ## Inside the tokens -/

/-- The cursor stands in front of the token with the given index.  That token is there, and so is
the one passed last; no token in front of it ends the text. -/
structure Cursor.StandsAt (tokens : List Token) (k : Nat) (c : Cursor) : Prop where
  rest_eq : c.rest = tokens.drop k
  next : ∃ t, tokens[k]? = some t ∧ c.kind = t.kind ∧ c.span = t.span
  previous : tokens[k - 1]? = some c.previous
  kind_ne : ∀ t ∈ tokens.take k, t.kind ≠ .finish

/-- Tokens that are passed lead from one index to the other. -/
theorem Cursor.StandsAt.passes {tokens ts : List Token} {k : Nat} {c c' : Cursor}
    (h : c.StandsAt tokens k) (hp : Passes ts c c') (hfinish : ∃ t ∈ tokens, t.kind = .finish) :
    c'.StandsAt tokens (k + ts.length) := by
  have hdrop : tokens.drop k = ts ++ c'.rest := h.rest_eq ▸ hp.rest_eq
  have hrest : c'.rest = tokens.drop (k + ts.length) := by
    rw [← List.drop_drop, hdrop, List.drop_left]
  have hne : ∀ t ∈ tokens.take (k + ts.length), t.kind ≠ .finish := by
    rw [List.take_add, hdrop, List.take_left]
    exact List.forall_mem_append.2 ⟨h.kind_ne, hp.kind_ne⟩
  refine ⟨hrest, ?_, ?_, hne⟩
  · -- the token that ends the text is still ahead
    obtain ⟨last, hlast, hkind⟩ := hfinish
    rw [← List.take_append_drop (k + ts.length) tokens, ← hrest] at hlast
    obtain ⟨previous, rest⟩ := c'
    cases rest with
    | nil => exact absurd hkind (hne last (by simpa using hlast))
    | cons t us =>
      have ht : tokens[k + ts.length]? = some t := by
        rw [← List.head?_drop, ← hrest]
        rfl
      exact ⟨t, ht, rfl, rfl⟩
  · rw [hp.previous_eq]
    rcases List.eq_nil_or_concat ts with rfl | ⟨us, t, rfl⟩
    · exact h.previous
    · have ht : tokens[k + us.length]? = some t := by
        rw [← List.getElem?_drop, hdrop]
        simp
      simpa [← Nat.add_assoc] using ht

theorem Cursor.standsAt_start {tokens : List Token} (hfinish : ∃ t ∈ tokens, t.kind = .finish) :
    (Cursor.start tokens).StandsAt tokens 0 := by
  cases tokens with
  | nil => simp at hfinish
  | cons t ts => exact ⟨rfl, ⟨t, rfl, rfl, rfl⟩, rfl, by simp⟩

/-- The two are calls of one reading function.  The level is a part of which function it is; what
else it is given is not. -/
inductive Routine.Same : {α β : Type} → Routine α → Routine β → Prop where
  | refl {α : Type} (r : Routine α) : Same r r
  | links (level : Level) (left left' : Expr) :
    Same (.reading (.links level left)) (.reading (.links level left'))
  | items (close close' : Symbol) (e e' : Expectation) :
    Same (.reading (.items close e)) (.reading (.items close' e'))

theorem Routine.Same.rank_eq {r : Routine α} {s : Routine β} (h : r.Same s) : r.rank = s.rank := by
  cases h <;> rfl

/-- What holds of a reading function that is called in front of the token with the index `k`. -/
structure Routine.SettlesInside (tokens : List Token) (r : Routine α) (k : Nat) (c : Cursor) :
    Prop where
  /-- At every step reading is inside the tokens, and not in front of the place where it began. -/
  inside : ∀ n, ∃ i, k ≤ i ∧ (Descent.step^[n] (.enter r c)).cursor.StandsAt tokens i
  /-- So is every place where a call under way began. -/
  began : ∀ n, ∀ call ∈ (Descent.step^[n] (.enter r c)).calls,
    ∃ i, k ≤ i ∧ call.place.StandsAt tokens i
  /-- Every call under way began further on than the calls that wait for it, or at the same place
  with a smaller rank. -/
  deeper : ∀ n, (Descent.step^[n] (.enter r c)).calls.Pairwise Call.Deeper
  /-- A function that is called while a call of it waits is called behind a further token. -/
  again : ∀ n, (Descent.step^[n] (.enter r c)).calls.Pairwise fun inner outer =>
    inner.routine.Same outer.routine →
      ∀ i j, outer.place.StandsAt tokens i → inner.place.StandsAt tokens j → i < j
  /-- What reads anything passes at least one token. -/
  further : ∀ m a c', r.read m c = .parsed a c' →
    ∃ i, k ≤ i ∧ (r.Consumes → k < i) ∧ c'.StandsAt tokens i
  /-- The steps come to an end, with the answer of the reading function. -/
  ends : ∃ n,
    (∃ a c', Descent.step^[n] (.enter r c) = .parsed a c' ∧
      ∀ m ≥ 24 * c.rest.length + r.rank, r.read m c = .parsed a c') ∨
    ∃ e c', Descent.step^[n] (.enter r c) = .failed e c' ∧
      ∀ m ≥ 24 * c.rest.length + r.rank, r.read m c = .failed e c'

section

open Descent

variable {tokens : List Token} {k : Nat} {c : Cursor} {r : Routine α}

/-- The steps of a reading function come to an end, with its answer. -/
theorem Routine.exists_ends (r : Routine α) (c : Cursor) : ∃ n,
    (∃ a c', Descent.step^[n] (.enter r c) = .parsed a c' ∧
      ∀ m ≥ 24 * c.rest.length + r.rank, r.read m c = .parsed a c') ∨
    ∃ e c', Descent.step^[n] (.enter r c) = .failed e c' ∧
      ∀ m ≥ 24 * c.rest.length + r.rank, r.read m c = .failed e c' := by
  have hanswers : (r.read (24 * c.rest.length + r.rank)).Answers c :=
    r.answers_read (Nat.le_refl _)
  have hmore {m : Nat} (hm : m ≥ 24 * c.rest.length + r.rank) :
      r.read m c = r.read (24 * c.rest.length + r.rank) c :=
    (r.read_below hm).eq_of_ne_exhausted hanswers
  cases ho : r.read (24 * c.rest.length + r.rank) c with
  | parsed a c' =>
    obtain ⟨n, hn⟩ : (enter r c).Reaches (.parsed a c') :=
      (Routine.reaches .nobody (ho ▸ Outcome.Leaves.parsed a c')).trans (.head (.refl _))
    exact ⟨n, .inl ⟨a, c', hn, fun m hm => (hmore hm).trans ho⟩⟩
  | failed e c' =>
    obtain ⟨n, hn⟩ : (enter r c).Reaches (.failed e c') :=
      (Routine.reaches .nobody (ho ▸ Outcome.Leaves.failed e c')).trans (.head (.refl _))
    exact ⟨n, .inr ⟨e, c', hn, fun m hm => (hmore hm).trans ho⟩⟩
  | exhausted => exact absurd ho hanswers

/-- A call of the same function that is deeper is further on. -/
theorem Call.Deeper.lt {inner outer : Call} (h : inner.Deeper outer)
    (hsame : inner.routine.Same outer.routine) {i j : Nat} (hi : outer.place.StandsAt tokens i)
    (hj : inner.place.StandsAt tokens j) : i < j := by
  rcases h with h | ⟨-, hrank⟩
  · rw [hi.rest_eq, hj.rest_eq, List.length_drop, List.length_drop] at h
    omega
  · exact absurd hsame.rank_eq (Nat.ne_of_lt hrank)

/-- Every reading function that is called inside the tokens settles there. -/
theorem Routine.settlesInside (hfinish : ∃ t ∈ tokens, t.kind = .finish)
    (hc : c.StandsAt tokens k) : r.SettlesInside tokens k c := by
  have orderly (n : Nat) : (Descent.step^[n] (enter r c)).Orderly r c := orderly_iterate r c n
  refine ⟨fun n => ?_, fun n call hcall => ?_, fun n => (orderly n).pairwise, fun n => ?_,
    fun m a c' ha => ?_, r.exists_ends c⟩
  · obtain ⟨ts, pts⟩ := (orderly n).exists_passes
    exact ⟨_, Nat.le_add_right k _, hc.passes pts hfinish⟩
  · obtain ⟨ts, pts⟩ := (orderly n).exists_passes_of_mem hcall
    exact ⟨_, Nat.le_add_right k _, hc.passes pts hfinish⟩
  · refine (orderly n).pairwise.imp ?_
    intro inner outer hdeeper hsame i j hi hj
    exact hdeeper.lt hsame hi hj
  · obtain ⟨ts, pts, hts⟩ := r.ends_of_read ha
    refine ⟨_, Nat.le_add_right k _, fun hr => ?_, hc.passes pts hfinish⟩
    have hpos := List.length_pos_iff.2 (hts hr)
    omega

/-- Reading never leaves tokens that hold an end of the text: wherever inside them a reading
function is called, it stays inside and ends, and until it does it passes a token before it repeats
itself.  So reading a program ends after some number of steps, with a tree or an error. -/
theorem parse_ends_inside (hfinish : ∃ t ∈ tokens, t.kind = .finish) :
    (∀ {α : Type} (r : Routine α) (k : Nat) (c : Cursor), c.StandsAt tokens k →
      r.SettlesInside tokens k c) ∧
    (Cursor.start tokens).StandsAt tokens 0 ∧
    ∃ n,
      (∃ root c, Descent.step^[n] (enter .program (Cursor.start tokens)) = .parsed root c ∧
        parse tokens = .ok root) ∨
      ∃ e c, Descent.step^[n] (enter .program (Cursor.start tokens)) = .failed e c ∧
        parse tokens = .error ⟨e, c.span⟩ := by
  refine ⟨fun r k c hc => r.settlesInside hfinish hc, standsAt_start hfinish, ?_⟩
  have hbound : depthFor tokens + 1 ≥
      24 * (Cursor.start tokens).rest.length + Routine.program.rank := by
    have hlength : (Cursor.start tokens).rest.length = tokens.length := by cases tokens <;> rfl
    show 24 * (tokens.length + 1) + 1 ≥ 24 * _ + 19
    omega
  obtain ⟨n, ⟨root, c, hn, hread⟩ | ⟨e, c, hn, hread⟩⟩ :=
    Routine.program.exists_ends (Cursor.start tokens)
  · have hprogram : program (depthFor tokens) (Cursor.start tokens) = .parsed root c :=
      hread _ hbound
    refine ⟨n, .inl ⟨root, c, hn, ?_⟩⟩
    unfold parse
    rw [hprogram]
  · have hprogram : program (depthFor tokens) (Cursor.start tokens) = .failed e c :=
      hread _ hbound
    refine ⟨n, .inr ⟨e, c, hn, ?_⟩⟩
    unfold parse
    rw [hprogram]

end

/-- A statement that is tried behind a line break and given back, and a name behind the end of the
text, which is never come to. -/
theorem parse_ends_inside_given_back :
    let token (k : Kind) (lexeme : String) : Token := ⟨k, lexeme, default⟩
    let name : Token := token .identifier "x"
    let tokens : List Token :=
      [name, token .separator "\n", token (.keyword .fin) "fin", token .finish "", name]
    (∃ t ∈ tokens, t.kind = .finish) ∧
      ∃ n c i, Descent.step^[n] (.enter .program (Cursor.start tokens)) = .failed .operator c ∧
        c.StandsAt tokens i ∧ parse tokens = .error ⟨.operator, c.span⟩ := by
  intro token name tokens
  have hfinish : ∃ t ∈ tokens, t.kind = .finish := ⟨token .finish "", by simp [tokens], rfl⟩
  have hread : parse tokens = .error ⟨.operator, default⟩ := rfl
  obtain ⟨hsettles, hstart, n, ⟨root, c, -, hparse⟩ | ⟨e, c, hn, hparse⟩⟩ :=
    parse_ends_inside hfinish
  · rw [hread] at hparse
    cases hparse
  · obtain ⟨i, -, hi⟩ := (hsettles .program 0 _ hstart).inside n
    have hexpected : Expectation.operator = e := by
      injection hread.symm.trans hparse with hlocated
      injection hlocated
    subst hexpected
    rw [hn] at hi
    exact ⟨hfinish, n, c, i, hn, hi, hparse⟩

end UniformScript.Syntax
