import UniformScript.Proofs.Eval.Calm
import UniformScript.Proofs.Session.Names

/-!
# Calls leave the arena balanced

Evaluation of an expression or a block may push any number of frames.  When it has ended, with a
value or a failure, the frames that run are those that ran before, below the same parents; each
frame that was pushed has been freed, or has returned and waits.  If no function was defined in one
of the pushed frames, none of them waits either: then, all the time, the frames are those from
before and one for every call that was entered since and has not returned.

* `runsUnder_iff`: the frames that run, with their parents.
* `Sound.waits`: a frame that was pushed in between and is there waits.
* `calls_leave_arena_balanced`: the result for all expressions and blocks, in any context and
  whatever has been asked of the session before.
-/

namespace UniformScript

open Arena Eval

namespace Arena

variable {a b : Arena} {own : Option Nat} {h : Handle}

/-- The frame of a handle runs, and the frame of the other one is its parent; or it has none. -/
def RunsUnder (a : Arena) (h : Handle) (parent : Option Handle) : Prop :=
  ∃ f, a.frame h.index = .ok f ∧ f.serial = h.serial ∧ f.returned = false ∧
    f.parent = parent.map Handle.index ∧ ∀ p ∈ parent, a.Names p

theorem RunsUnder.running {parent : Option Handle} (hr : a.RunsUnder h parent) : a.Running h := by
  obtain ⟨f, hf, hserial, hreturned, -⟩ := hr
  exact ⟨f, hf, hserial, hreturned⟩

theorem Running.serial_lt (hr : a.Running h) (hs : a.Sound) : h.serial < a.nextSerial := by
  obtain ⟨f, hf, hserial, -⟩ := hr
  exact hserial ▸ hs.serial_lt hf

/-- If the same frames run and frames keep their parents, they run below the same parents. -/
theorem runsUnder_iff (hs : a.Sound) (hs' : b.Sound) (hkeeps : KeepsNames own a b)
    (hrunning : ∀ h, b.Running h ↔ a.Running h) (h : Handle) (parent : Option Handle) :
    b.RunsUnder h parent ↔ a.RunsUnder h parent := by
  constructor
  · intro hr
    have hra := (hrunning h).1 hr.running
    have hlt := hra.serial_lt hs
    obtain ⟨g, hg, hserial, hreturned, hparent, hnames⟩ := hr
    obtain ⟨f, hf, hserial', hreturned'⟩ := hra
    refine ⟨f, hf, hserial', hreturned', ?_, fun p hp => ?_⟩
    · rw [hkeeps.parent hf hg (hserial ▸ hlt), hparent]
    · -- the parent is older than the frame, so it was there before
      obtain rfl := Option.mem_def.1 hp
      obtain ⟨k, hk, hkserial⟩ := hnames p rfl
      obtain ⟨k', hk', hklt⟩ := hs'.parent_there hg hparent
      obtain rfl := frame_inj hk hk'
      exact hkeeps.old (by omega) (hnames p rfl)
  · intro hr
    have hlt := hr.running.serial_lt hs
    have hrb := (hrunning h).2 hr.running
    obtain ⟨f, hf, hserial, hreturned, hparent, hnames⟩ := hr
    obtain ⟨g, hg, hserial', hreturned'⟩ := hrb
    have hparent' : g.parent = parent.map Handle.index := by
      rw [← hkeeps.parent hf hg (hserial' ▸ hlt), hparent]
    refine ⟨g, hg, hserial', hreturned', hparent', fun p hp => ?_⟩
    -- the frame that is now in the slot of the parent is the one that was there
    obtain rfl := Option.mem_def.1 hp
    obtain ⟨k, hk, hklt⟩ := hs'.parent_there hg hparent'
    have hold := hkeeps.old (h := ⟨p.index, k.serial⟩) (by show k.serial < _; omega) ⟨k, hk, rfl⟩
    have hsame := hold.eq_of_index_eq (hnames p rfl) rfl
    exact ⟨k, hk, congrArg Handle.serial hsame⟩

/-- A frame that was not there before and does not run waits. -/
theorem Sound.waits (hs : a.Sound) (hs' : b.Sound) (hrunning : ∀ h, b.Running h ↔ a.Running h)
    (hle : a.nextSerial ≤ h.serial) (hn : b.Names h) : ¬ b.Running h ∧ h.index ∈ b.pending := by
  have hnot : ¬ b.Running h := fun hr =>
    Nat.not_lt.2 hle (((hrunning h).1 hr).serial_lt hs)
  obtain ⟨f, hf, hserial⟩ := hn
  refine ⟨hnot, hs'.mem_pending_iff.2 ⟨f, hf, ?_⟩⟩
  by_contra hreturned
  exact hnot ⟨f, hf, hserial, by simpa using hreturned⟩

end Arena

namespace Eval

theorem Calm.balanced {α : Type} {N : Nat} {handles : α → List Handle} {m m' : Machine}
    {o : Outcome α} (hcalm : Calm N handles m o) (ho : o.Returns m') :
    Balanced N m.arena m'.arena := by
  rcases ho with ⟨a, rfl⟩ | ⟨failure, rfl⟩
  · exact hcalm.1
  · exact hcalm

/-- The evaluation at the point ends in the machine `m`, with a value or with a failure. -/
def Point.Returns (p : Point) (m : Machine) : Prop :=
  (p.task.run p.fuel p.spot.ctx p.machine).Returns m

/-- What the evaluation at a point does to frames. -/
structure Point.LeavesBalanced (p : Point) : Prop where
  /-- The frames that run are those that ran before, below the same parents. -/
  running : ∀ m, p.Returns m →
    ∀ h parent, m.arena.RunsUnder h parent ↔ p.machine.arena.RunsUnder h parent
  /-- Each frame that was pushed has been freed, or has returned and waits. -/
  waits : ∀ m, p.Returns m →
    ∀ h, p.mark ≤ h.serial → m.arena.Names h → ¬ m.arena.Running h ∧ h.index ∈ m.arena.pending
  /-- At all points on the way, before and after what is evaluated there, the frames are those from
  before and one for every call that was entered since and is active. -/
  since : p.Quiet p.mark → ∀ q, Relation.ReflTransGen Visits p q →
    ∃ since, p.Since q.spot q.machine.arena since ∧
      ∀ m, q.Returns m → p.Since q.spot m.arena since
  /-- In the end the frames are those from before, -/
  names_iff : p.Quiet p.mark → ∀ m, p.Returns m → ∀ h, m.arena.Names h ↔ p.machine.arena.Names h
  /-- and each frame that was pushed has been freed. -/
  freed : p.Quiet p.mark → ∀ m, p.Returns m → ∀ h, p.mark ≤ h.serial → ¬ m.arena.Names h

variable {p : Point}

/-- At the start no frame has been pushed since. -/
theorem Point.Invariant.steady (inv : p.Invariant) (hvalues : p.task.values = [])
    (hquiet : p.Quiet p.mark) : p.Steady p where
  invariant := inv
  spot :=
    { unreferred := inv.stands.fits.sound.unreferred
      held := by
        intro h hh
        obtain ⟨f, hf, hserial⟩ := inv.stands.fits.names h hh
        exact hserial ▸ inv.stands.fits.sound.serial_lt hf
      since := ⟨[], rfl, ⟨[], rfl, rfl⟩, .nil, nofun, fun h => by simp⟩ }
  values := by
    rw [hvalues]
    exact nofun
  quiet := hquiet

/-- Evaluation leaves the arena balanced, unless values are given to it. -/
theorem Point.Invariant.leavesBalanced (inv : p.Invariant) (hvalues : p.task.values = []) :
    p.LeavesBalanced := by
  have hsound := inv.stands.fits.sound
  have ends {m : Machine} (hm : p.Returns m) : ∃ hs, Leaves p.spot.ctx p.machine hs m :=
    (safe_run p.fuel p.task _ _ inv.stands.fits inv.ready).leaves hm
  have calm {q : Point} {m : Machine} (hq : p.Steady q) (hm : q.Returns m) :
      Balanced p.mark q.machine.arena m.arena :=
    Calm.balanced (calm_run p _ hq rfl) hm
  refine ⟨fun m hm => ?_, fun m hm h hle hn => ?_, fun hquiet q hq => ?_, fun hquiet m hm => ?_,
    fun hquiet m hm h hle hn => ?_⟩
  · obtain ⟨hs, hl⟩ := ends hm
    have hkeeps := (bindsOnlyIn_run p.fuel p.task p.spot.ctx).keepsNames hm
    exact runsUnder_iff hsound hl.sound hkeeps hl.running_iff
  · obtain ⟨hs, hl⟩ := ends hm
    exact hsound.waits hl.sound hl.running_iff hle hn
  · have hsteady := steady_of_reaches (inv.steady hvalues hquiet) hq
    obtain ⟨since, hsince⟩ := hsteady.spot.since
    exact ⟨since, hsince, fun m hm => hsince.next (calm hsteady hm)⟩
  · exact (calm (inv.steady hvalues hquiet) hm).names_iff
  · obtain ⟨f, hf, hserial⟩ := ((calm (inv.steady hvalues hquiet) hm).names_iff h).1 hn
    have hlt := hsound.serial_lt hf
    exact Nat.not_le.2 (hserial ▸ hlt) hle

end Eval

namespace Client

variable {c : Client}

/-- Calls leave the arena balanced.  A session has replied to any requests, and the evaluation of a
program has come to any point, where its context fits.  If an expression or a block is evaluated
there, in this or any other context that fits, then the frames that run at the end are those that
ran before, with the same parents, and each frame that was pushed has been freed, or has returned
and waits.  If no function was defined in a frame that was pushed, then all the time the frames are
those from before and one for every call that was entered since and is active; in the end they are
those from before. -/
theorem calls_leave_arena_balanced {host : Host} {requests : List Request} {replies : List Reply}
    (h : Serves (start true host) requests replies c) {p : Program} {n : Nat} {q : Point}
    (hq : Relation.ReflTransGen Visits (c.entry n p) q) :
    q.spot.Stands q.machine ∧ ∀ (s : Spot), s.Stands q.machine → ∀ (k : Nat) (node : Body),
      Point.LeavesBalanced ⟨k, s, q.machine, .body node⟩ := by
  have hc := h.sound (sound_start host)
  refine ⟨(invariant_of_reaches (hc.entry_invariant n p) hq).stands, fun s hs k node => ?_⟩
  have inv : Point.Invariant ⟨k, s, q.machine, .body node⟩ := ⟨hs, trivial⟩
  exact inv.leavesBalanced rfl

/-- No function is defined where a text is printed. -/
theorem quiet_print {N n : Nat} {s : Spot} {m : Machine} {span : Span} {text : String}
    (hcallee : eval n s.ctx (.access span "print") m = .value (.builtin .print) m)
    (hargs : evalAll n (s.holding (.builtin .print)).ctx [.text span text] m =
      .value [.text text] m) :
    Point.Quiet N
      ⟨n + 2, s, m, .body (.inline (.call span (.access span "print") [.text span text]))⟩ := by
  refine .of_parts nofun fun r hr => ?_
  cases hr
  refine .of_parts nofun fun r hr => ?_
  cases hr with
  | callee => exact .of_parts nofun fun r hr => nomatch hr
  | arguments hcallee' =>
    refine .of_parts nofun fun r hr => ?_
    cases hr with
    | head => exact .of_parts nofun fun r hr => nomatch hr
    | tail => exact .of_parts nofun fun r hr => nomatch hr
  | call hcallee' hargs' => cases hcallee.symm.trans hcallee'
  | builtin hcallee' hargs' =>
    cases hcallee.symm.trans hcallee'
    cases hargs.symm.trans hargs'
    refine .of_parts nofun fun r hr => ?_
    cases hr with
    | enteredBuiltin =>
      refine .of_parts nofun fun r hr => ?_
      cases hr
      exact .of_parts nofun fun r hr => nomatch hr
    | calledBuiltin => exact .of_parts nofun fun r hr => nomatch hr

/-- A text is printed: while `print` runs, there is one frame more than before, and afterwards it
has been freed. -/
theorem calls_leave_arena_balanced_print :
    let c := start true (Host.start .script [] (Host.listed []))
    let span : Span := default
    let e : Expr := .call span (.access span "print") [.text span "a"]
    let q := c.entry 9 ⟨span, [e]⟩
    let visit : Point := ⟨8, q.spot, q.machine, .body (.inline e)⟩
    visit.Quiet visit.mark ∧
    (∃ r, Relation.ReflTransGen Visits visit r ∧ r.task = .running .print span ∧
      visit.Since r.spot r.machine.arena [⟨1, 1⟩]) ∧
    ∃ m, visit.Returns m ∧ (∀ h, m.arena.Names h ↔ q.machine.arena.Names h) ∧
      ¬ m.arena.Names ⟨1, 1⟩ := by
  intro c span e q visit
  have hcallee : eval 6 c.root (.access span "print") c.session.machine =
      .value (.builtin .print) c.session.machine := rfl
  have hargs : evalAll 6 (c.root.holding (.builtin .print)) [.text span "a"] c.session.machine =
      .value [.text "a"] c.session.machine := rfl
  obtain ⟨hstands, hall⟩ := calls_leave_arena_balanced (.nil c) (q := q) .refl
  have hbalanced := hall q.spot hstands 8 (.inline e)
  have hquiet : visit.Quiet visit.mark := quiet_print hcallee hargs
  have hreach : Relation.ReflTransGen Visits visit _ :=
    ((Relation.ReflTransGen.single .inline).tail (.builtin hcallee hargs)).tail
      (.calledBuiltin rfl rfl rfl)
  have hend : visit.Returns _ := .inl ⟨_, rfl⟩
  obtain ⟨since, hsince, -⟩ := hbalanced.since hquiet _ hreach
  have heq : [⟨1, 1⟩] = since := List.append_cancel_right hsince.active
  refine ⟨hquiet, ⟨_, hreach, rfl, heq ▸ hsince⟩, _, hend, hbalanced.names_iff hquiet _ hend,
    hbalanced.freed hquiet _ hend _ (by decide)⟩

end Client

end UniformScript
