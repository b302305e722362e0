import UniformScript.Arena

/-!
# Releasing and collecting frames

`Arena.collect` frees the waiting frames that nothing reaches.  A waiting frame is a root if a
handle on it is held anywhere but in a waiting frame, or if it is the parent of a frame whose call
has not returned.  From the roots the waiting frames are reached through parents and through the
handles of bound values.  So a function that is bound in the frame it was defined in does not keep
that frame.

`Arena.release` frees a frame at once if there is neither a handle on it nor a child; otherwise the
frame waits, and when enough frames wait, a collection is made.
-/

namespace UniformScript.Arena

/-- The slots that a frame leads to: its parent's and those of its handles. -/
def successors (a : Arena) (i : Nat) : List Nat :=
  match a.frame i with
  | .ok f => f.parent.toList ++ f.handles.map Handle.index
  | .error _ => []

/-- The slots among `within` that are reached from `frontier` and have not been seen.  Every round
but the last finds a slot, so as many rounds as there are slots are enough. -/
def reach (a : Arena) (within : List Nat) (rounds : Nat) (frontier seen : List Nat) : List Nat :=
  match rounds with
  | 0 => seen
  | rounds + 1 =>
    let fresh := (frontier.filter fun i => within.contains i && !seen.contains i).eraseDups
    if fresh.isEmpty then seen
    else reach a within rounds (fresh.flatMap a.successors) (fresh ++ seen)

/-- The slots of waiting frames that are pointed to by the handles in waiting frames, one for each
handle. -/
def internal (a : Arena) (waiting : List (Nat × Frame)) : List Nat :=
  (waiting.flatMap fun w => w.2.handles.map Handle.index).filter (a.pending.contains ·)

/-- The parents of the frames whose calls have not returned. -/
def activeParents (a : Arena) : List Nat :=
  a.live.filterMap fun f => if f.returned then none else f.parent

/-- The slots of the waiting frames that have handles held elsewhere, and the parents of active
frames. -/
def roots (a : Arena) (held : List Handle) (waiting : List (Nat × Frame)) : List Nat :=
  let inside := a.internal waiting
  (waiting.filter fun w => inside.count w.1 < a.outstanding held ⟨w.1, w.2.serial⟩).map Prod.fst ++
    a.activeParents

/-- The waiting frames with their slots. -/
def waiting (a : Arena) : Except Fault (List (Nat × Frame)) :=
  a.pending.mapM fun i => do
    let f ← a.frame i
    return (i, f)

/-- Frees the waiting frames that nothing reaches, in the order of their release. -/
def collect (a : Arena) (held : List Handle) : Except Fault Arena := do
  if a.pending.isEmpty then return a
  let waiting ← a.waiting
  let reached := a.reach a.pending (a.pending.length + 1) (a.roots held waiting) []
  let (kept, dead) := a.pending.partition (reached.contains ·)
  return dead.foldl freeFrame { a with pending := kept }

/-- Collects if enough frames wait; from then on, twice as many as are left may wait. -/
def collectIfDue (a : Arena) (held : List Handle) : Except Fault Arena := do
  if a.pending.length < a.threshold then return a
  let a ← a.collect held
  return { a with threshold := max (2 * a.pending.length) minThreshold }

/-- Ends the call that pushed a frame. -/
def release (a : Arena) (held : List Handle) (i : Nat) : Except Fault Arena := do
  if i = 0 then return a
  let f ← a.frame i
  let a := a.putFrame i { f with returned := true }
  if !a.reclaiming then return a
  if f.children = 0 && a.outstanding held ⟨i, f.serial⟩ = 0 then return a.freeFrame i
  collectIfDue { a with pending := a.pending ++ [i] } held

end UniformScript.Arena
