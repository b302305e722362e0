import UniformScript.Proofs.Eval.Names
import UniformScript.Proofs.Session.Secure

/-!
# Sessions bind names in the running frame only

Whatever has been asked of a session before: when an expression has been evaluated, with a value or
a failure, the frames that were there before and have not been freed bind the same names as before,
and only the running frame may bind more.  A call binds nothing in any of them, not even in the
frame of its caller; it can only give other values to names that are bound.

* `Arena.NamesKept`: what is compared, and `KeepsNames.namesKept`: how it follows for sound arenas.
* `names_bound_in_running_frame`: the result for all expressions and calls, wherever the evaluation
  of a program has come to.
-/

namespace UniformScript

open Arena Eval

/-- The frames that are there both before and after bind the same names, except that the one in
slot `own` may bind more. -/
structure Arena.NamesKept (own : Option Nat) (before after : Arena) : Prop where
  /-- No frame has lost a name. -/
  kept : ∀ h, before.Names h → after.Names h →
    ∀ name, before.Binds h.index name → after.Binds h.index name
  /-- No other frame has got one. -/
  others : ∀ h, before.Names h → after.Names h → some h.index ≠ own →
    ∀ name, after.Binds h.index name → before.Binds h.index name

theorem Arena.KeepsNames.namesKept {own : Option Nat} {a b : Arena} (h : KeepsNames own a b)
    (hs : a.Sound) : NamesKept own a b := by
  have hlt {k : Handle} (hk : a.Names k) : k.serial < a.nextSerial := by
    obtain ⟨f, hf, hserial⟩ := hk
    exact hserial ▸ hs.serial_lt hf
  exact ⟨fun k hk hk' name => h.kept (hlt hk) hk',
    fun k hk hk' hne name => h.others (hlt hk) hk' hne⟩

/-- A step of evaluation ends in the machine `m`, with a value or with a failure. -/
def Eval.Outcome.Returns {α : Type} (o : Outcome α) (m : Machine) : Prop :=
  (∃ a, o = .value a m) ∨ ∃ failure, o = .raised failure m

namespace Eval

variable {α : Type} {own : Option Nat} {m m' : Machine} {ctx : Context}

theorem BindsOnlyIn.keepsNames {p : Eval α} (h : BindsOnlyIn own p) (hp : (p m).Returns m') :
    KeepsNames own m.arena m'.arena := by
  rcases hp with ⟨a, hp⟩ | ⟨failure, hp⟩
  · exact h.value hp
  · exact h.raised hp

/-- What is left behind when a step has ended. -/
theorem Safe.leaves {handles : α → List Handle} {o : Outcome α} (hsafe : Safe handles ctx m o)
    (ho : o.Returns m') : ∃ hs, Leaves ctx m hs m' := by
  rcases ho with ⟨a, rfl⟩ | ⟨failure, rfl⟩
  · exact ⟨_, hsafe⟩
  · exact ⟨_, hsafe⟩

/-- The frames that run go on running. -/
theorem Safe.running {handles : α → List Handle} {o : Outcome α} {h : Handle}
    (hsafe : Safe handles ctx m o) (ho : o.Returns m') (hr : m.arena.Running h) :
    m'.arena.Running h := by
  obtain ⟨hs, hl⟩ := hsafe.leaves ho
  exact (hl.running_iff h).2 hr

end Eval

namespace Client

variable {c : Client}

/-- Names are bound in the running frame only.  A session has replied to any requests, and the
evaluation of a program has come to any point; there, in whatever context, an expression is
evaluated.  When that ends, no frame has lost a name, only the running one may have got more, and
it still runs.  A call of a function or of a built-in function leaves the names of all frames
alone.  The same holds on the way: from one point of an evaluation to every point that it comes to,
and until it ends there. -/
theorem names_bound_in_running_frame {host : Host} {requests : List Request} {replies : List Reply}
    (h : Serves (start true host) requests replies c) {p : Program} {n : Nat} {q : Point}
    (hq : Relation.ReflTransGen Visits (c.entry n p) q) :
    (∀ (k : Nat) (ctx : Context) (e : Expr) (m : Machine), (eval k ctx e q.machine).Returns m →
      NamesKept (some ctx.frame) q.machine.arena m.arena ∧
      ∀ serial, q.machine.arena.Running ⟨ctx.frame, serial⟩ →
        (∀ h ∈ ctx.held, q.machine.arena.Names h) → m.arena.Running ⟨ctx.frame, serial⟩) ∧
    (∀ (k : Nat) (ctx : Context) (f : Function) (args : List Value) (span : Span) (m : Machine),
      (callFunction k ctx f args span q.machine).Returns m →
        NamesKept none q.machine.arena m.arena) ∧
    (∀ (ctx : Context) (b : Builtin) (args : List Value) (span : Span) (m : Machine),
      (callBuiltin ctx b args span q.machine).Returns m →
        NamesKept none q.machine.arena m.arena) ∧
    ∀ r, Relation.ReflTransGen Visits q r →
      NamesKept (some q.spot.ctx.frame) q.machine.arena r.machine.arena ∧
      ∀ m, (r.task.run r.fuel r.spot.ctx r.machine).Returns m →
        NamesKept (some q.spot.ctx.frame) q.machine.arena m.arena := by
  have hc := h.sound (sound_start host)
  have hs : q.machine.arena.Sound :=
    (invariant_of_reaches (hc.entry_invariant n p) hq).stands.fits.sound
  refine ⟨fun k ctx e m hm => ⟨?_, fun serial hr hheld => ?_⟩, fun k ctx f args span m hm => ?_,
    fun ctx b args span m hm => ?_, fun r hr => ⟨?_, fun m hm => ?_⟩⟩
  · exact ((bindsOnlyIn_run k (.expr e) ctx).keepsNames hm).namesKept hs
  · exact ((safe_run k).eval ⟨hs, hheld, serial, hr⟩ e).running hm hr
  · exact ((bindsOnlyIn_callFunction k ctx f args span).keepsNames hm).namesKept hs
  · exact ((BindsOnlyIn.callBuiltin ctx b args span).keepsNames hm).namesKept hs
  · exact (keeps_of_reaches hr).names.namesKept hs
  · have hend := (bindsOnlyIn_run r.fuel r.task r.spot.ctx).keepsNames hm
    exact ((keeps_of_reaches hr).trans_names hend).namesKept hs

/-- A new session binds `x` to a text and calls a function that binds `y` to another one, which it
gives to `x` as well.  In the frame of the call `y` is bound; the global frame is there before and
after with another value for `x`, and binds the same names. -/
theorem names_bound_in_running_frame_bind :
    let c := start true (Host.start .script [] (Host.listed []))
    let span : Span := default
    let e : Expr := .bind span "y" (.rebind span "x" (.text span "b"))
    let p : Program := ⟨span, [.bind span "x" (.text span "a"),
      .call span (.function span none [] (.inline e)) []]⟩
    ∃ q m, Relation.ReflTransGen Visits (c.entry 9 p) q ∧ q.task = .expr e ∧
      q.spot.ctx.frame = 1 ∧ (eval q.fuel q.spot.ctx e q.machine).Returns m ∧
      NamesKept (some 1) q.machine.arena m.arena ∧
      ¬ q.machine.arena.Binds 1 "y" ∧ m.arena.Binds 1 "y" ∧
      q.machine.arena.get 0 "x" = .ok (some (.text "a")) ∧
      m.arena.get 0 "x" = .ok (some (.text "b")) ∧
      ∀ name, m.arena.Binds 0 name ↔ q.machine.arena.Binds 0 name := by
  intro c span e p
  -- the second statement, the call in it, and the body of the function in its frame
  have hreach : Relation.ReflTransGen Visits (c.entry 9 p) _ :=
    ((((Relation.ReflTransGen.single (.tail rfl)).tail .head).tail (.call rfl rfl)).tail
      (.called rfl rfl rfl)).tail .inline
  have hkept := ((names_bound_in_running_frame (.nil c) hreach).2.2.2 _ .refl).2 _ (.inl ⟨_, rfl⟩)
  refine ⟨_, _, hreach, rfl, rfl, .inl ⟨_, rfl⟩, hkept, ?_, ⟨_, _, rfl, rfl⟩, rfl, rfl, fun name =>
    ⟨hkept.others ⟨0, 0⟩ ⟨_, rfl, rfl⟩ ⟨_, rfl, rfl⟩ (by decide) name,
      hkept.kept ⟨0, 0⟩ ⟨_, rfl, rfl⟩ ⟨_, rfl, rfl⟩ name⟩⟩
  rintro ⟨f, v, hf, hv⟩
  cases hf
  cases hv

end Client

end UniformScript
