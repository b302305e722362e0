import UniformScript.Proofs.Arena.Unreferred
import UniformScript.Proofs.Eval.Failing

/-!
# Evaluation that leaves no frame behind

A value that is made in the frame of a call refers to that frame only if it is a function that was
defined there.  As long as no function is defined in a frame that was pushed after an evaluation
started, nothing refers to these frames, and each is freed as soon as its call ends.  So at all
points of the evaluation the frames are those from before and one for every call since.

* `Calm`: what is shown of a step, and `Calm.bind`: of one step after the other.
* `Calm.calling`: a call, whatever is evaluated in its frame.
* `Point.Steady`: what holds at the points of such an evaluation, and `Visits.steady`: one step
  from a point to the next.
* `calm_run`: the evaluation at such a point leaves the frames that were there.
* `steady_of_reaches`: it comes to such points only.
-/

namespace UniformScript.Eval

open Arena

variable {α β : Type} {N : Nat} {m m₁ : Machine}

/-! ## Calm steps -/

/-- A step leaves the same frames, nothing refers to those numbered from `N` on, and its result
holds `handles` on earlier ones. -/
def Calm (N : Nat) (handles : α → List Handle) (m : Machine) : Outcome α → Prop
  | .value a m' => Balanced N m.arena m'.arena ∧ ∀ h ∈ handles a, h.serial < N
  | .raised _ m' => Balanced N m.arena m'.arena
  | .faulted _ => True
  | .exhausted => True

namespace Calm

variable {handles : α → List Handle} {handles' : β → List Handle}

theorem pure {a : α} (hu : m.arena.Unreferred N) (ha : ∀ h ∈ handles a, h.serial < N) :
    Calm N handles m ((Pure.pure a : Eval α) m) :=
  ⟨.refl hu, ha⟩

theorem raise {ctx : Context} {cause : RuntimeCause} {span : Span} (hu : m.arena.Unreferred N) :
    Calm N handles m ((Eval.raise ctx cause span : Eval α) m) :=
  Balanced.refl hu

/-- What is known of a step that has given a value. -/
theorem of_value {o : Outcome α} {a : α} (h : Calm N handles m o) (ho : o = .value a m₁) :
    Balanced N m.arena m₁.arena ∧ ∀ k ∈ handles a, k.serial < N := by
  subst ho
  exact h

/-- A step that starts where another one has ended. -/
theorem after {o : Outcome α} (hb : Balanced N m.arena m₁.arena) (ho : Calm N handles m₁ o) :
    Calm N handles m o := by
  cases o with
  | value a m' => exact ⟨hb.trans ho.1, ho.2⟩
  | raised failure m' => exact hb.trans ho
  | faulted fault => trivial
  | exhausted => trivial

/-- One step after the other. -/
theorem bind {p : Eval α} {f : α → Eval β} (hp : Calm N handles m (p m))
    (hf : ∀ a m₁, p m = .value a m₁ → m₁.arena.Unreferred N → (∀ h ∈ handles a, h.serial < N) →
      Calm N handles' m₁ (f a m₁)) :
    Calm N handles' m ((p >>= f) m) := by
  show Calm N handles' m (Eval.bind p f m)
  unfold Eval.bind
  cases hpm : p m with
  | value a m₁ =>
    rw [hpm] at hp
    exact after hp.1 (hf a m₁ hpm hp.1.unreferred hp.2)
  | raised failure m₁ =>
    rw [hpm] at hp
    exact hp
  | faulted fault => trivial
  | exhausted => trivial

/-- Asking the arena. -/
theorem ask {f : Arena → Except Fault α} (hu : m.arena.Unreferred N)
    (hf : ∀ a, f m.arena = .ok a → ∀ h ∈ handles a, h.serial < N) :
    Calm N handles m (Eval.ask f m) := by
  unfold Eval.ask
  cases ha : f m.arena with
  | ok a => exact ⟨.refl hu, hf a ha⟩
  | error fault => trivial

/-- Turning to the world. -/
theorem turn {f : Host → α × Host} (hu : m.arena.Unreferred N) :
    Calm N (fun _ => []) m (Eval.turn f m) :=
  ⟨⟨hu, fun _ => .rfl, rfl⟩, nofun⟩

/-- Changing the arena. -/
theorem change {f : Arena → Except Fault (α × Arena)}
    (hf : ∀ a b, f m.arena = .ok (a, b) → Balanced N m.arena b) :
    Calm N (fun _ => []) m (Eval.change f m) := by
  unfold Eval.change
  cases hb : f m.arena with
  | ok r => exact ⟨hf r.1 r.2 hb, nofun⟩
  | error fault => trivial

/-- Binding a name. -/
theorem set {i : Nat} {name : String} {v : Value} (hu : m.arena.Unreferred N)
    (hv : ∀ h ∈ v.handles, h.serial < N) : Calm N (fun _ => []) m (Eval.set i name v m) := by
  apply change
  intro a b h
  cases hset : m.arena.set i name v with
  | ok c =>
    simp only [hset] at h
    cases h
    exact .set hu hv hset
  | error fault =>
    simp only [hset] at h
    cases h

/-- Binding several names. -/
theorem setAll {i : Nat} {args : List (String × Value)} (hu : m.arena.Unreferred N)
    (hargs : ∀ p ∈ args, ∀ h ∈ p.2.handles, h.serial < N) :
    Calm N (fun _ => []) m (Eval.setAll i args m) := by
  induction args generalizing m with
  | nil => exact pure hu nofun
  | cons arg args ih =>
    obtain ⟨harg, hrest⟩ := List.forall_mem_cons.1 hargs
    exact bind (set hu harg) fun _ m₁ _ hu₁ _ => ih hu₁ hrest

/-! ### Calls -/

/-- The end of a call, if its frame can be released without a trace. -/
theorem releasing {i : Nat} {held : List Handle} {p : Eval Value}
    (hp : Calm N Value.handles m₁ (p m₁)) (hheld : ∀ h ∈ held, h.serial < N)
    (hrelease : ∀ {held b c}, (∀ h ∈ held, h.serial < N) → Balanced N m₁.arena b →
      b.release held i = .ok c → Balanced N m.arena c) :
    Calm N Value.handles m (Eval.releasing held i p m₁) := by
  unfold Eval.releasing
  cases hend : p m₁ with
  | value v m₂ =>
    rw [hend] at hp
    obtain ⟨hb, hv⟩ := hp
    have hheld' : ∀ h ∈ v.handles ++ held, h.serial < N := fun h hh =>
      (List.mem_append.1 hh).elim (hv h) (hheld h)
    cases hc : m₂.arena.release (v.handles ++ held) i with
    | ok c =>
      simp only [hc]
      exact ⟨hrelease hheld' hb hc, hv⟩
    | error fault =>
      simp only [hc]
      trivial
  | raised failure m₂ =>
    rw [hend] at hp
    cases hc : m₂.arena.release held i with
    | ok c =>
      simp only [hc]
      exact hrelease hheld hp hc
    | error fault =>
      simp only [hc]
      trivial
  | faulted fault => trivial
  | exhausted => trivial

/-- A frame is pushed, the arguments are bound, something is evaluated in the frame, and it is
released. -/
theorem inFrame {parent : Option Nat} {held : List Handle} {args : List (String × Value)}
    {body : Nat → Eval Value} (hs : m.arena.Sound) (hu : m.arena.Unreferred N)
    (hparent : ∀ p ∈ parent, ∃ f, m.arena.frame p = .ok f ∧ f.serial < N)
    (hargs : ∀ p ∈ args, ∀ h ∈ p.2.handles, h.serial < N) (hheld : ∀ h ∈ held, h.serial < N)
    (hbody : ∀ i a m', m.arena.push parent = .ok (i, a) →
      Eval.setAll i args ⟨a, m.host⟩ = .value () m' → Calm N Value.handles m' (body i m')) :
    Calm N Value.handles m (Eval.inFrame held parent args body m) := by
  obtain ⟨i, a, hpush, hp, -⟩ := hs.exists_push fun p hp =>
    (hparent p hp).imp fun _ hf => hf.1
  have hchange : Eval.change (fun a => a.push parent) m = .value i ⟨a, m.host⟩ := by
    simp only [Eval.change, hpush]
  have hset : Calm N (fun _ => []) ⟨a, m.host⟩ (Eval.setAll i args ⟨a, m.host⟩) :=
    setAll (hu.push hp hparent) hargs
  unfold Eval.inFrame
  rw [bind_of_value hchange]
  show Calm N Value.handles m (Eval.bind _ _ _)
  unfold Eval.bind
  cases hm' : Eval.setAll i args ⟨a, m.host⟩ with
  | value u m' =>
    rw [hm'] at hset
    refine releasing (hbody i a m' hpush hm') hheld fun hheld hb hrelease => ?_
    exact .of_call hs hu hp (hset.1.trans hb) hheld hrelease
  | raised failure m' => exact (setAll_ne_raised hm').elim
  | faulted fault => trivial
  | exhausted => trivial

/-- A call: the arguments are counted, and something is evaluated in the frame where they are
bound. -/
theorem calling {ctx : Context} {name : String} {params : List String} {args : List Value}
    {span : Span} {parent : Option Nat} {body : Nat → Eval Value} (hs : m.arena.Sound)
    (hu : m.arena.Unreferred N)
    (hparent : ∀ p ∈ parent, ∃ f, m.arena.frame p = .ok f ∧ f.serial < N)
    (hargs : ∀ h ∈ Value.handlesAll args, h.serial < N) (hheld : ∀ h ∈ ctx.held, h.serial < N)
    (hbody : params.length = args.length → ∀ i a m', m.arena.push parent = .ok (i, a) →
      Eval.setAll i (params.zip args) ⟨a, m.host⟩ = .value () m' →
      Calm N Value.handles m' (body i m')) :
    Calm N Value.handles m (Eval.calling ctx name params args span parent body m) := by
  have hcheck : Calm N (fun _ => []) m
      (checkArity ctx name params.length args.length span m) := by
    unfold checkArity
    split
    · exact raise hu
    · split
      · exact raise hu
      · exact pure hu nofun
  refine bind hcheck fun _ m' hm' _ _ => ?_
  obtain ⟨hlength, rfl⟩ := eq_of_checkArity hm'
  exact inFrame hs hu hparent (handles_zip hargs) hheld (hbody hlength)

/-- A built-in function gives a value without handles. -/
theorem runBuiltin {ctx : Context} {b : Builtin} {span : Span} (hu : m.arena.Unreferred N) :
    Calm N Value.handles m (Eval.runBuiltin ctx b span m) := by
  have argument {name : String} {m : Machine} (hu : m.arena.Unreferred N) :
      Calm N (fun _ => []) m (Eval.argument ctx name m) := by
    have hask : Calm N (fun _ => []) m (Eval.ask (fun a => a.get ctx.frame name) m) :=
      ask hu nofun
    refine bind hask fun found m₁ _ hu₁ _ => ?_
    cases found with
    | some v => exact pure hu₁ nofun
    | none => trivial
  cases b with
  | print =>
    refine bind (argument hu) fun v m₁ _ hu₁ _ => ?_
    exact bind (turn hu₁) fun _ m₂ _ hu₂ _ => pure hu₂ nofun
  | capture =>
    refine bind (argument hu) fun v m₁ _ hu₁ _ => ?_
    refine bind (turn hu₁) fun line m₂ _ hu₂ _ => ?_
    cases line with
    | some line => exact pure hu₂ nofun
    | none => exact bind (turn hu₂) fun reason m₃ _ hu₃ _ => raise hu₃
  | random => exact bind (turn hu) fun x m₁ _ hu₁ _ => pure hu₁ nofun
  | round =>
    refine bind (argument hu) fun v m₁ _ hu₁ _ => ?_
    cases v with
    | number x => exact pure hu₁ nofun
    | _ => exact raise hu₁

end Calm

/-! ## Points -/

/-- The frames that are pushed when the evaluation has come to the point are numbered from here
on. -/
abbrev Point.mark (p : Point) : Nat := p.machine.arena.nextSerial

/-- A function is defined at the point, in the given frame. -/
def Point.Defines (p : Point) (home : Handle) : Prop :=
  (∃ span name params body, p.task = .expr (.function span name params body)) ∧
    ∃ outer, p.spot.active = home :: outer

/-- From the point on, functions are defined only in frames numbered below `N`. -/
def Point.Quiet (N : Nat) (p : Point) : Prop :=
  ∀ q home, Relation.ReflTransGen Visits p q → q.Defines home → home.serial < N

/-- It is so if no function is defined there, and it is so at all parts of what is evaluated. -/
theorem Point.Quiet.of_parts {p : Point}
    (hp : ∀ span name params body, p.task ≠ .expr (.function span name params body))
    (hparts : ∀ q, Visits p q → q.Quiet N) : p.Quiet N := by
  intro r home hr hdefines
  rcases hr.cases_head with rfl | ⟨q, hq, hr⟩
  · obtain ⟨⟨span, name, params, body, htask⟩, -⟩ := hdefines
    exact absurd htask (hp span name params body)
  · exact hparts q hq r home hr hdefines

/-- The frames in an arena are those that were there at the point `p`, and `since`: those of the
calls that were entered since then and are active at the spot. -/
structure Point.Since (p : Point) (s : Spot) (a : Arena) (since : List Handle) : Prop where
  active : s.active = since ++ p.spot.active
  calls : ∃ calls, s.ctx.calls = calls ++ p.spot.ctx.calls ∧ calls.length = since.length
  nodup : since.Nodup
  /-- They have been pushed since then. -/
  pushed : ∀ h ∈ since, p.mark ≤ h.serial
  names_iff : ∀ h, a.Names h ↔ p.machine.arena.Names h ∨ h ∈ since

/-- When something has been done that leaves the same frames. -/
theorem Point.Since.next {p : Point} {s : Spot} {a b : Arena} {since : List Handle}
    (hs : p.Since s a since) (hb : Balanced N a b) : p.Since s b since :=
  ⟨hs.active, hs.calls, hs.nodup, hs.pushed, fun h => (hb.names_iff h).trans (hs.names_iff h)⟩

/-- What holds at a spot, if no function was defined in a frame pushed since the point `p`. -/
structure Spot.Steady (p : Point) (s : Spot) (m : Machine) : Prop where
  /-- Nothing refers to those frames: neither other frames and bound values -/
  unreferred : m.arena.Unreferred p.mark
  /-- nor the values under way. -/
  held : ∀ h ∈ s.ctx.held, h.serial < p.mark
  since : ∃ since, p.Since s m.arena since

/-- The same at a point from which on no function is defined in a frame pushed since `p`. -/
structure Point.Steady (p q : Point) : Prop where
  invariant : q.Invariant
  spot : q.spot.Steady p q.machine
  /-- The values given to the task are no exception. -/
  values : ∀ h ∈ Value.handlesAll q.task.values, h.serial < p.mark
  quiet : q.Quiet p.mark

/-- The evaluation at the point is calm. -/
def Point.Calm (N : Nat) (q : Point) : Prop :=
  Eval.Calm N q.task.handles q.machine (q.task.run q.fuel q.spot.ctx q.machine)

namespace Spot.Steady

variable {p : Point} {s : Spot} {i : Nat} {a : Arena}

/-- When a part has been evaluated. -/
theorem next (st : s.Steady p m) (hb : Balanced p.mark m.arena m₁.arena) : s.Steady p m₁ where
  unreferred := hb.unreferred
  held := st.held
  since := by
    obtain ⟨since, hs⟩ := st.since
    exact ⟨since, hs.next hb⟩

/-- With one value more under way. -/
theorem holding {v : Value} (st : s.Steady p m) (hv : ∀ h ∈ v.handles, h.serial < p.mark) :
    (s.holding v).Steady p m where
  unreferred := st.unreferred
  held h hh := (List.mem_append.1 hh).elim (hv h) (st.held h)
  since := by
    obtain ⟨since, hs⟩ := st.since
    exact ⟨since, hs.active, hs.calls, hs.nodup, hs.pushed, hs.names_iff⟩

/-- In the frame of a call, as soon as it is pushed. -/
theorem entering {parent : Option Nat} (st : s.Steady p m) (hs : m.arena.Sound)
    (hpush : m.arena.push parent = .ok (i, a))
    (hparent : ∀ j ∈ parent, ∃ f, m.arena.frame j = .ok f ∧ f.serial < p.mark) (name : String)
    (entry : Position) (run : Nat) :
    (s.entering name entry ⟨i, m.arena.nextSerial⟩ run).Steady p ⟨a, m.host⟩ := by
  obtain ⟨j, b, hpush', hp, -⟩ := hs.exists_push fun j hj => (hparent j hj).imp fun _ hf => hf.1
  cases hpush.symm.trans hpush'
  obtain ⟨since, hsince⟩ := st.since
  obtain ⟨calls, hcalls, hlength⟩ := hsince.calls
  refine ⟨st.unreferred.push hp hparent, st.held, ⟨i, m.arena.nextSerial⟩ :: since,
    congrArg _ hsince.active, ⟨_ :: calls, congrArg _ hcalls, congrArg (· + 1) hlength⟩,
    List.nodup_cons.2 ⟨fun hmem => ?_, hsince.nodup⟩,
    List.forall_mem_cons.2 ⟨st.unreferred.le, hsince.pushed⟩, fun h => ?_⟩
  · -- the new frame has a number that no frame has had
    obtain ⟨f, hf, hserial⟩ := (hsince.names_iff _).2 (.inr hmem)
    exact Nat.lt_irrefl _ (hserial ▸ hs.serial_lt hf)
  · rw [hp.names_iff, hsince.names_iff, List.mem_cons]
    tauto

end Spot.Steady

variable {p q r : Point}

/-- What is needed of a part of what is evaluated. -/
theorem Point.Steady.part (hq : p.Steady q) (h : Visits q r) (hspot : r.spot.Steady p r.machine)
    (hvalues : ∀ h ∈ Value.handlesAll r.task.values, h.serial < p.mark) : p.Steady r :=
  ⟨h.invariant hq.invariant, hspot, hvalues, fun o home ho => hq.quiet o home (.head h ho)⟩

/-- The frame around the call of a function is one of those from before. -/
theorem Point.Steady.home {n : Nat} {s : Spot} {f : Function} {args : List Value} {span : Span}
    (hq : p.Steady ⟨n, s, m, .call f args span⟩) :
    ∀ i ∈ some f.home.index, ∃ g, m.arena.frame i = .ok g ∧ g.serial < p.mark := by
  rintro i ⟨⟩
  obtain ⟨g, hg, hserial⟩ := hq.invariant.ready.1
  exact ⟨g, hg, hserial ▸ hq.values f.home List.mem_cons_self⟩

/-- So are those of the functions among its arguments. -/
theorem Point.Steady.arguments {n : Nat} {s : Spot} {f : Function} {args : List Value}
    {span : Span} (hq : p.Steady ⟨n, s, m, .call f args span⟩) :
    ∀ h ∈ Value.handlesAll args, h.serial < p.mark :=
  fun h hh => hq.values h (List.mem_cons_of_mem _ hh)

/-- The values that are bound to names. -/
theorem handles_of_values {args : List (String × Value)}
    (hargs : ∀ h ∈ Value.handlesAll (args.map Prod.snd), h.serial < N) :
    ∀ arg ∈ args, ∀ h ∈ arg.2.handles, h.serial < N :=
  fun _ harg h hh => hargs h (mem_handlesAll_iff.2 ⟨_, List.mem_map_of_mem harg, hh⟩)

/-- The arguments of a call, bound to its parameters. -/
theorem handlesAll_zip_lt {names : List String} {vs : List Value}
    (hvs : ∀ h ∈ Value.handlesAll vs, h.serial < N) :
    ∀ h ∈ Value.handlesAll ((names.zip vs).map Prod.snd), h.serial < N := by
  intro h hh
  obtain ⟨v, hv, hh⟩ := mem_handlesAll_iff.1 hh
  obtain ⟨arg, harg, rfl⟩ := List.mem_map.1 hv
  exact handles_zip hvs arg harg h hh

/-- One round of a loop more: its value is one of those that are collected. -/
theorem handlesAll_cons_lt {v : Value} {vs : List Value} (hv : ∀ h ∈ v.handles, h.serial < N)
    (hvs : ∀ h ∈ Value.handlesAll vs, h.serial < N) :
    ∀ h ∈ Value.handlesAll (v :: vs), h.serial < N :=
  fun h hh => (List.mem_append.1 hh).elim (hv h) (hvs h)

/-- One step from a point to the next, if the evaluation of the parts before is calm. -/
theorem Visits.steady (h : Visits q r) (hq : p.Steady q)
    (ih : ∀ {o : Point}, p.Steady o → o.fuel + 1 = q.fuel → o.Calm p.mark) : p.Steady r := by
  have hspot := hq.spot
  have hsound := hq.invariant.stands.fits.sound
  cases h with
  | right hleft =>
    obtain ⟨hb, hv⟩ := (ih (hq.part .left hspot nofun) rfl).of_value hleft
    exact hq.part (.right hleft) ((hspot.next hb).holding hv) nofun
  | loopBound hfirst =>
    obtain ⟨hb, -⟩ := (ih (hq.part .loopFirst hspot nofun) rfl).of_value hfirst
    exact hq.part (.loopBound hfirst) (hspot.next hb) nofun
  | loopStep hfirst hbound =>
    obtain ⟨hb, -⟩ := (ih (hq.part .loopFirst hspot nofun) rfl).of_value hfirst
    have hspot₁ := hspot.next hb
    obtain ⟨hb₁, -⟩ := (ih (hq.part (.loopBound hfirst) hspot₁ nofun) rfl).of_value hbound
    exact hq.part (.loopStep hfirst hbound) (hspot₁.next hb₁) nofun
  | loopRounds hfirst hbound hstep =>
    obtain ⟨hb, -⟩ := (ih (hq.part .loopFirst hspot nofun) rfl).of_value hfirst
    have hspot₁ := hspot.next hb
    obtain ⟨hb₁, -⟩ := (ih (hq.part (.loopBound hfirst) hspot₁ nofun) rfl).of_value hbound
    have hspot₂ := hspot₁.next hb₁
    obtain ⟨hb₂, -⟩ := (ih (hq.part (.loopStep hfirst hbound) hspot₂ nofun) rfl).of_value hstep
    exact hq.part (.loopRounds hfirst hbound hstep) (hspot₂.next hb₂) nofun
  | arguments hcallee =>
    obtain ⟨hb, hv⟩ := (ih (hq.part .callee hspot nofun) rfl).of_value hcallee
    exact hq.part (.arguments hcallee) ((hspot.next hb).holding hv) nofun
  | call hcallee hargs =>
    obtain ⟨hb, hv⟩ := (ih (hq.part .callee hspot nofun) rfl).of_value hcallee
    have hspot₁ := (hspot.next hb).holding hv
    obtain ⟨hb₁, hvs⟩ := (ih (hq.part (.arguments hcallee) hspot₁ nofun) rfl).of_value hargs
    exact hq.part (.call hcallee hargs) (hspot₁.next hb₁)
      fun h hh => (List.mem_append.1 hh).elim (hv h) (hvs h)
  | builtin hcallee hargs =>
    obtain ⟨hb, hv⟩ := (ih (hq.part .callee hspot nofun) rfl).of_value hcallee
    have hspot₁ := (hspot.next hb).holding hv
    obtain ⟨hb₁, hvs⟩ := (ih (hq.part (.arguments hcallee) hspot₁ nofun) rfl).of_value hargs
    exact hq.part (.builtin hcallee hargs) (hspot₁.next hb₁) hvs
  | tail hhead =>
    obtain ⟨hb, hv⟩ := (ih (hq.part .head hspot nofun) rfl).of_value hhead
    exact hq.part (.tail hhead) ((hspot.next hb).holding hv) nofun
  | taken hcondition hc =>
    obtain ⟨hb, hv⟩ := (ih (hq.part .condition hspot nofun) rfl).of_value hcondition
    exact hq.part (.taken hcondition hc) ((hspot.next hb).holding hv) nofun
  | elif hcondition hc =>
    obtain ⟨hb, -⟩ := (ih (hq.part .condition hspot nofun) rfl).of_value hcondition
    exact hq.part (.elif hcondition hc) (hspot.next hb) nofun
  | otherwise hcondition hc =>
    obtain ⟨hb, -⟩ := (ih (hq.part .condition hspot nofun) rfl).of_value hcondition
    exact hq.part (.otherwise hcondition hc) (hspot.next hb) nofun
  | round hrange hset =>
    obtain ⟨hb, -⟩ := (Calm.set (v := .number _) hspot.unreferred nofun).of_value hset
    exact hq.part (.round hrange hset) (hspot.next hb) nofun
  | nextBlock hrange hset hbody hblock =>
    obtain ⟨hb, -⟩ := (Calm.set (v := .number _) hspot.unreferred nofun).of_value hset
    have hspot₁ := hspot.next hb
    obtain ⟨hb₁, -⟩ := (ih (hq.part (.round hrange hset) hspot₁ nofun) rfl).of_value hbody
    exact hq.part (.nextBlock hrange hset hbody hblock) (hspot₁.next hb₁) hq.values
  | nextInline hrange hset hbody hinline =>
    obtain ⟨hb, -⟩ := (Calm.set (v := .number _) hspot.unreferred nofun).of_value hset
    have hspot₁ := hspot.next hb
    obtain ⟨hb₁, hv⟩ := (ih (hq.part (.round hrange hset) hspot₁ nofun) rfl).of_value hbody
    exact hq.part (.nextInline hrange hset hbody hinline) ((hspot₁.next hb₁).holding hv)
      (handlesAll_cons_lt hv hq.values)
  | loopRound hcondition hc =>
    obtain ⟨hb, hv⟩ := (ih (hq.part .loopCondition hspot nofun) rfl).of_value hcondition
    exact hq.part (.loopRound hcondition hc) ((hspot.next hb).holding hv) nofun
  | loopBlock hcondition hc hbody hblock =>
    obtain ⟨hb, hc'⟩ := (ih (hq.part .loopCondition hspot nofun) rfl).of_value hcondition
    have hround := hq.part (.loopRound hcondition hc) ((hspot.next hb).holding hc') nofun
    obtain ⟨hb₁, -⟩ := (ih hround rfl).of_value hbody
    exact hq.part (.loopBlock hcondition hc hbody hblock) ((hspot.next hb).next hb₁) hq.values
  | loopInline hcondition hc hbody hinline =>
    obtain ⟨hb, hc'⟩ := (ih (hq.part .loopCondition hspot nofun) rfl).of_value hcondition
    have hround := hq.part (.loopRound hcondition hc) ((hspot.next hb).holding hc') nofun
    obtain ⟨hb₁, hv⟩ := (ih hround rfl).of_value hbody
    exact hq.part (.loopInline hcondition hc hbody hinline)
      (((hspot.next hb).next hb₁).holding hv) (handlesAll_cons_lt hv hq.values)
  | entered hlength hpush =>
    exact hq.part (.entered hlength hpush) (hspot.entering hsound hpush hq.home _ _ _)
      (handlesAll_zip_lt hq.arguments)
  | @called n s m m₁ f args span i a hlength hpush hset =>
    have hspot₁ := hspot.entering hsound hpush hq.home f.shownName span.start f.site.run
    obtain ⟨hb, -⟩ := (Calm.setAll hspot₁.unreferred (handles_zip hq.arguments)).of_value hset
    exact hq.part (.called hlength hpush hset) (hspot₁.next hb) nofun
  | enteredBuiltin hlength hpush =>
    exact hq.part (.enteredBuiltin hlength hpush) (hspot.entering hsound hpush nofun _ _ _)
      (handlesAll_zip_lt hq.values)
  | @calledBuiltin n s m m₁ b args span i a hlength hpush hset =>
    have hspot₁ := hspot.entering hsound hpush nofun b.name span.start s.ctx.run
    obtain ⟨hb, -⟩ := (Calm.setAll hspot₁.unreferred (handles_zip hq.values)).of_value hset
    exact hq.part (.calledBuiltin hlength hpush hset) (hspot₁.next hb) nofun
  | nextArgument hset =>
    have hvs := List.forall_mem_cons.1 (handles_of_values hq.values)
    obtain ⟨hb, -⟩ := (Calm.set hspot.unreferred hvs.1).of_value hset
    exact hq.part (.nextArgument hset) (hspot.next hb) fun h hh =>
      hq.values h (List.mem_append_right _ hh)
  | whileRounds => exact hq.part .whileRounds hspot nofun
  | _ => exact hq.part (by constructor) hspot nofun

/-! ## Tasks -/

/-- With the bound `n` on the depth, the evaluation at such points is calm. -/
def CalmAt (p : Point) (n : Nat) : Prop := ∀ {q : Point}, p.Steady q → q.fuel = n → q.Calm p.mark

/-- The call of a built-in function. -/
theorem calm_builtin {n : Nat} {s : Spot} {b : Builtin} {args : List Value} {span : Span}
    (hq : p.Steady ⟨n, s, m, .builtin b args span⟩) :
    Calm p.mark Value.handles m (callBuiltin s.ctx b args span m) := by
  rw [callBuiltin_eq]
  have hu := hq.spot.unreferred
  refine .calling hq.invariant.stands.fits.sound hu nofun hq.values hq.spot.held ?_
  intro _ i a m' hpush hset
  have hspot := hq.spot.entering hq.invariant.stands.fits.sound hpush nofun b.name span.start
    s.ctx.run
  obtain ⟨hb, -⟩ := (Calm.setAll hspot.unreferred (handles_zip hq.values)).of_value hset
  exact .runBuiltin hb.unreferred

namespace CalmAt

variable {n : Nat} {s : Spot} {collected : List Value}

/-- A part of what is evaluated is such a point. -/
theorem steady (ih : CalmAt p n) (hq : p.Steady q) (hn : q.fuel = n + 1) (h : Visits q r) :
    p.Steady r :=
  h.steady hq fun ho hlt => ih ho (Nat.succ.inj (hlt.trans hn))

/-- Its evaluation is calm. -/
theorem part (ih : CalmAt p n) (hq : p.Steady q) (hn : q.fuel = n + 1) (h : Visits q r)
    (hr : r.fuel = n) : r.Calm p.mark :=
  ih (ih.steady hq hn h) hr

theorem expr (ih : CalmAt p n) {e : Expr} (hq : p.Steady ⟨n + 1, s, m, .expr e⟩) :
    Calm p.mark Value.handles m (eval (n + 1) s.ctx e m) := by
  have hu := hq.spot.unreferred
  cases e with
  | number span lexeme x => exact .pure hu nofun
  | text span text => exact .pure hu nofun
  | list span es => exact .bind (ih.part hq rfl .elements rfl) fun vs m₁ _ hu hvs => .pure hu hvs
  | access span name =>
    rw [eval_access]
    have hask : Calm p.mark (fun found => Value.handlesAll found.toList) m
        (ask (fun a => a.get s.ctx.frame name) m) := by
      refine .ask hu fun found hfound h hh => ?_
      obtain ⟨v, hv, hhv⟩ := mem_handlesAll_iff.1 hh
      obtain rfl := Option.mem_toList.1 hv
      exact hu.get hfound h hhv
    refine .bind hask fun found m₁ _ hu hfound => ?_
    cases found with
    | none => exact .raise hu
    | some v => exact .pure hu fun h hh => hfound h (List.mem_append_left _ hh)
  | bind span name value =>
    refine .bind (ih.part hq rfl .bindValue rfl) fun v m₁ _ hu hv => ?_
    exact .bind (.set hu hv) fun _ m₂ _ hu _ => .pure hu hv
  | rebind span name value =>
    refine .bind (ih.part hq rfl .rebindValue rfl) fun v m₁ _ hu hv => ?_
    exact .bind (.change fun _ _ h => .reassign hu hv h) fun _ m₂ _ hu _ => .pure hu hv
  | unary span op operand =>
    refine .bind (ih.part hq rfl .operand rfl) fun v m₁ _ hu _ => ?_
    cases hr : op.apply v with
    | ok r => exact .pure hu (by simp [handles_unary hr])
    | error fault => exact .raise hu
  | binary span op left right =>
    refine .bind (ih.part hq rfl .left rfl) fun v m₁ hleft _ _ => ?_
    refine .bind (ih.part hq rfl (.right hleft) rfl) fun w m₂ _ hu _ => ?_
    cases hr : op.apply v w with
    | ok r => exact .pure hu (by simp [handles_binary hr])
    | error fault => cases fault <;> exact .raise hu
  | choice span condition body rest => exact ih.part hq rfl .choice rfl
  | forLoop span name first bound step body =>
    refine .bind (ih.part hq rfl .loopFirst rfl) fun x m₁ hfirst _ _ => ?_
    refine .bind (ih.part hq rfl (.loopBound hfirst) rfl) fun y m₂ hbound _ _ => ?_
    refine .bind (ih.part hq rfl (.loopStep hfirst hbound) rfl) fun z m₃ hstep _ _ => ?_
    exact ih.part hq rfl (.loopRounds hfirst hbound hstep) rfl
  | whileLoop span condition body => exact ih.part hq rfl .whileRounds rfl
  | function span name params body =>
    rw [eval_function]
    -- the function refers to the running frame, which is one of those from before
    have hhome : Calm p.mark (fun h => [h]) m (ask (fun a => a.handle s.ctx.frame) m) := by
      refine .ask hu fun home hhome h hh => ?_
      obtain rfl := List.mem_singleton.1 hh
      obtain ⟨serial, outer, hactive⟩ := hq.invariant.stands.current
      have hactive' : s.active = ⟨s.ctx.frame, serial⟩ :: outer := hactive
      obtain ⟨f, hf, hserial, -⟩ := hq.invariant.stands.running _ (hactive' ▸ List.mem_cons_self)
      cases (handle_eq hf).symm.trans hhome
      exact hq.quiet _ _ .refl ⟨⟨span, name, params, body, rfl⟩, outer, hserial ▸ hactive'⟩
    refine .bind hhome fun home m₁ _ hu₁ hlt => ?_
    cases name with
    | none => exact .pure hu₁ hlt
    | some name =>
      let v := Value.function ⟨some name, params, body, ⟨s.ctx.run, span.start.index⟩, home⟩
      have hv : ∀ h ∈ v.handles, h.serial < p.mark := hlt
      exact .bind (.set hu₁ hv) fun _ m₂ _ hu₂ _ => .pure hu₂ hv
  | call span callee args =>
    refine .bind (ih.part hq rfl .callee rfl) fun v m₁ hcallee _ _ => ?_
    refine .bind (ih.part hq rfl (.arguments hcallee) rfl) fun vs m₂ hargs hu _ => ?_
    cases v with
    | function f => exact ih.part hq rfl (.call hcallee hargs) rfl
    | builtin b =>
      exact calm_builtin (s := s.holding (.builtin b))
        (ih.steady hq rfl (.builtin hcallee hargs))
    | _ => exact .raise hu

theorem all (ih : CalmAt p n) {es : List Expr} (hq : p.Steady ⟨n + 1, s, m, .all es⟩) :
    Calm p.mark Value.handlesAll m (evalAll (n + 1) s.ctx es m) := by
  cases es with
  | nil => exact .pure hq.spot.unreferred nofun
  | cons e es =>
    refine .bind (ih.part hq rfl .head rfl) fun v m₁ hhead _ hv => ?_
    exact .bind (ih.part hq rfl (.tail hhead) rfl) fun vs m₂ _ hu hvs =>
      .pure hu (handlesAll_cons_lt hv hvs)

theorem number (ih : CalmAt p n) {e : Expr} (hq : p.Steady ⟨n + 1, s, m, .number e⟩) :
    Calm p.mark (fun _ => []) m (evalNumber (n + 1) s.ctx e m) := by
  refine .bind (ih.part hq rfl .number rfl) fun v m₁ _ hu _ => ?_
  cases v with
  | number x => exact .pure hu nofun
  | _ => exact .raise hu

theorem step (ih : CalmAt p n) {e : Option Expr} (hq : p.Steady ⟨n + 1, s, m, .step e⟩) :
    Calm p.mark (fun _ => []) m (evalStep (n + 1) s.ctx e m) := by
  cases e with
  | none => exact .pure hq.spot.unreferred nofun
  | some e => exact ih.part hq rfl .givenStep rfl

theorem body (ih : CalmAt p n) {body : Body} (hq : p.Steady ⟨n + 1, s, m, .body body⟩) :
    Calm p.mark Value.handles m (evalBody (n + 1) s.ctx body m) := by
  cases body with
  | inline e => exact ih.part hq rfl .inline rfl
  | block span es =>
    exact .bind (ih.part hq rfl .block rfl) fun vs m₁ _ hu hvs => .pure hu hvs

theorem branch (ih : CalmAt p n) {body : Body} (hq : p.Steady ⟨n + 1, s, m, .branch body⟩) :
    Calm p.mark Value.handles m (evalBranch (n + 1) s.ctx body m) := by
  refine .bind (ih.part hq rfl .branch rfl) fun v m₁ _ hu hv => .pure hu ?_
  split
  · exact nofun
  · exact hv

theorem choice (ih : CalmAt p n) {condition : Expr} {body : Body} {rest : Branches}
    (hq : p.Steady ⟨n + 1, s, m, .choice condition body rest⟩) :
    Calm p.mark Value.handles m (choose (n + 1) s.ctx condition body rest m) := by
  refine .bind (ih.part hq rfl .condition rfl) fun c m₁ hcondition hu _ => ?_
  by_cases hc : c.isTrue = true
  · rw [if_pos hc]
    exact ih.part hq rfl (.taken hcondition hc) rfl
  · rw [if_neg hc]
    cases rest with
    | nothing => exact .pure hu nofun
    | elif condition body rest => exact ih.part hq rfl (.elif hcondition hc) rfl
    | otherwise body => exact ih.part hq rfl (.otherwise hcondition hc) rfl

theorem counting (ih : CalmAt p n) {name : String} {upwards : Bool} {bound step i : Float}
    {body : Body}
    (hq : p.Steady ⟨n + 1, s, m, .counting name upwards bound step body i collected⟩) :
    Calm p.mark Value.handles m
      (count (n + 1) s.ctx name upwards bound step body i collected m) := by
  have hu := hq.spot.unreferred
  rw [count_succ]
  by_cases hrange : inRange upwards i bound = true
  · rw [if_pos hrange]
    refine .bind (.set (v := .number i) hu nofun) fun _ m₁ hset _ _ => ?_
    refine .bind (ih.part hq rfl (.round hrange hset) rfl) fun v m₂ hbody _ _ => ?_
    by_cases hblock : body.isBlock = true
    · rw [if_pos hblock]
      exact ih.part hq rfl (.nextBlock hrange hset hbody hblock) rfl
    · rw [if_neg hblock]
      exact ih.part hq rfl (.nextInline hrange hset hbody hblock) rfl
  · rw [if_neg hrange]
    exact .pure hu fun h hh => hq.values h (handles_loopValue hh)

theorem looping (ih : CalmAt p n) {condition : Expr} {body : Body}
    (hq : p.Steady ⟨n + 1, s, m, .looping condition body collected⟩) :
    Calm p.mark Value.handles m (rounds (n + 1) s.ctx condition body collected m) := by
  rw [rounds_succ]
  refine .bind (ih.part hq rfl .loopCondition rfl) fun c m₁ hcondition hu _ => ?_
  by_cases hc : c.isTrue = true
  · rw [if_pos hc]
    refine .bind (ih.part hq rfl (.loopRound hcondition hc) rfl) fun v m₂ hbody _ _ => ?_
    by_cases hblock : body.isBlock = true
    · rw [if_pos hblock]
      exact ih.part hq rfl (.loopBlock hcondition hc hbody hblock) rfl
    · rw [if_neg hblock]
      exact ih.part hq rfl (.loopInline hcondition hc hbody hblock) rfl
  · rw [if_neg hc]
    exact .pure hu fun h hh => hq.values h (handles_loopValue hh)

/-- The call of a function. -/
theorem call (ih : CalmAt p n) {f : Function} {args : List Value} {span : Span}
    (hq : p.Steady ⟨n + 1, s, m, .call f args span⟩) :
    Calm p.mark Value.handles m (callFunction (n + 1) s.ctx f args span m) := by
  rw [callFunction_succ]
  exact .calling hq.invariant.stands.fits.sound hq.spot.unreferred hq.home hq.arguments
    hq.spot.held fun hlength _ _ _ hpush hset => ih.part hq rfl (.called hlength hpush hset) rfl

end CalmAt

/-- The evaluation at a point from which on no function is defined in a frame pushed since `p`
leaves the frames that are there. -/
theorem calm_run (p : Point) (n : Nat) : CalmAt p n := by
  induction n with
  | zero =>
    rintro ⟨n, s, m, t⟩ hq rfl
    have hu := hq.spot.unreferred
    cases t with
    | builtin b args span => exact calm_builtin hq
    | running b span => exact Calm.runBuiltin hu
    | binding args => exact Calm.setAll hu (handles_of_values hq.values)
    | _ => trivial
  | succ n ih =>
    rintro ⟨n, s, m, t⟩ hq rfl
    have hu := hq.spot.unreferred
    cases t with
    | expr e => exact ih.expr hq
    | all es => exact ih.all hq
    | number e => exact ih.number hq
    | step e => exact ih.step hq
    | body body => exact ih.body hq
    | branch body => exact ih.branch hq
    | choice condition body rest => exact ih.choice hq
    | counting name upwards bound step body i collected => exact ih.counting hq
    | looping condition body collected => exact ih.looping hq
    | call f args span => exact ih.call hq
    | builtin b args span => exact calm_builtin hq
    | running b span => exact Calm.runBuiltin hu
    | binding args => exact Calm.setAll hu (handles_of_values hq.values)

/-! ## The course of an evaluation -/

/-- An evaluation comes to such points only. -/
theorem steady_of_reaches (hq : p.Steady q) (h : Relation.ReflTransGen Visits q r) :
    p.Steady r := by
  induction h with
  | refl => exact hq
  | tail _ hstep ih => exact hstep.steady ih fun ho _ => calm_run p _ ho rfl

end UniformScript.Eval
