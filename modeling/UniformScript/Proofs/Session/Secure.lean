import UniformScript.Proofs.Eval.Points
import UniformScript.Proofs.Session.Client

/-!
# Sessions never misuse their arena

Whatever has been asked of a session before, and whatever program it is given next: at every point
that the evaluation comes to, no frame is missing that it could look at.  So no request is ever
answered by a fault of the arena.

* `Sound.entry_invariant`: what holds where the evaluation of a program starts.
* `points_secure`: what holds at every point of every evaluation.
-/

namespace UniformScript

open Arena Eval

namespace Client

variable {c : Client}

/-- The point where the evaluation of a program starts. -/
def entry (c : Client) (fuel : Nat) (p : Program) : Point :=
  ⟨fuel, ⟨c.root, [⟨0, 0⟩], c.kept⟩, c.session.machine, .all p.statements⟩

theorem Sound.entry_invariant (hc : c.Sound) (n : Nat) (p : Program) :
    (c.entry n p).Invariant where
  stands :=
    { fits := hc.fits
      running := by
        intro h hh
        obtain rfl := List.mem_singleton.1 hh
        exact hc.arena.running_global
      current := ⟨0, [], rfl⟩
      length := rfl
      held := List.append_nil _ }
  ready := trivial

/-- A request is never answered by a fault. -/
theorem Sound.serve_ne_faulted (hc : c.Sound) (n : Nat) (request : Request) (fault : Fault) :
    c.serve n request ≠ .error (.faulted fault) := by
  intro hr
  rcases hc.serve n request with he | ⟨reply, d, he, -⟩
  · rw [he] at hr
    cases hr
  · rw [he] at hr
    cases hr

/-- Evaluation never misuses the arena.  A session has replied to any requests; then, whatever
program it evaluates, at every point that the evaluation comes to the frames of all active calls
run, the functions among the values under way, in argument lists and in bindings have their frames,
and the frames around a frame are there.  No request is answered by a fault. -/
theorem points_secure {host : Host} {requests : List Request} {replies : List Reply}
    (h : Serves (start true host) requests replies c) :
    (∀ (p : Program) (n : Nat) (q : Point),
      Relation.ReflTransGen Visits (c.entry n p) q → q.Secure) ∧
    ∀ (n : Nat) (request : Request) (fault : Fault),
      c.serve n request ≠ .error (.faulted fault) := by
  have hc := h.sound (sound_start host)
  refine ⟨?_, hc.serve_ne_faulted⟩
  intro p n q hreach
  exact secure_of_reaches (hc.entry_invariant n p) hreach

/-- A program prints a text.  While `print` runs, the frame of its call is in the second slot, and
the text that is printed is bound there. -/
theorem points_secure_print :
    let c := start true (Host.start .script [] (Host.listed []))
    let span : Span := default
    let p : Program := ⟨span, [.call span (.access span "print") [.text span "a"]]⟩
    ∃ q, Relation.ReflTransGen Visits (c.entry 9 p) q ∧ q.task = .running .print span ∧
      q.spot.active = [⟨1, 1⟩, ⟨0, 0⟩] ∧ q.Secure := by
  intro c span p
  have hcallee : eval 7 c.root (.access span "print") c.session.machine =
      .value (.builtin .print) c.session.machine := rfl
  have hargs : evalAll 7 (c.root.holding (.builtin .print)) [.text span "a"] c.session.machine =
      .value [.text "a"] c.session.machine := rfl
  -- the statement, the call, and the built-in function in its frame
  have hreach : Relation.ReflTransGen Visits (c.entry 9 p) _ :=
    ((Relation.ReflTransGen.single .head).tail (.builtin hcallee hargs)).tail
      (.calledBuiltin rfl rfl rfl)
  exact ⟨_, hreach, rfl, rfl, (points_secure (.nil c)).1 p 9 _ hreach⟩

end Client

end UniformScript
