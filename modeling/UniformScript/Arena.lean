import UniformScript.Value

/-!
# The arena of frames

Names are bound in frames.  A frame has a parent, where a name is looked up that it does not bind
itself; the frame in slot zero is the global one.  Frames live in the numbered slots of an `Arena`.
A call pushes a frame and releases it when it returns.  A released frame is freed at once if
nothing refers to it; otherwise it waits until a collection finds that nothing reaches it any more.

What refers to a frame is its child frames and the handles taken on it.  Handles are held by
values bound in frames, or outside of the arena; whoever releases a frame or collects says which
handles are held outside.  The slots of freed frames are used again, the one freed last first.

Naming a slot without a frame is a fault, and leaves the arena as it was.

* `lookup_put_self` and `lookup_put_of_ne`: binding a name changes that name and no other.
* `frame_putFrame_self` and `frame_putFrame_of_ne`: what is put into a slot is found there, and all
  other slots stay as they were.
-/

namespace UniformScript

/-! ## Bindings -/

/-- Names and the values bound to them, each name once. -/
abbrev Bindings := List (String × Value)

namespace Bindings

/-- Binds a name, in place of an earlier binding of it. -/
def put (name : String) (value : Value) : Bindings → Bindings
  | [] => [(name, value)]
  | (n, v) :: rest => if n = name then (n, value) :: rest else (n, v) :: put name value rest

/-- The names that are bound. -/
def names (b : Bindings) : List String := b.map Prod.fst

theorem lookup_put_self (name : String) (value : Value) (b : Bindings) :
    (put name value b).lookup name = some value := by
  induction b with
  | nil => simp [put]
  | cons p rest ih =>
    obtain ⟨n, v⟩ := p
    by_cases hn : n = name
    · simp [put, hn]
    · have hne : (name == n) = false := by simpa using Ne.symm hn
      simp [put, hn, List.lookup_cons, hne, ih]

theorem lookup_put_of_ne {name other : String} (h : other ≠ name) (value : Value) (b : Bindings) :
    (put name value b).lookup other = b.lookup other := by
  have hne : (other == name) = false := by simpa using h
  induction b with
  | nil => simp [put, List.lookup_cons, hne]
  | cons p rest ih =>
    obtain ⟨n, v⟩ := p
    by_cases hn : n = name
    · subst hn
      simp [put, List.lookup_cons, hne]
    · simp [put, hn, List.lookup_cons, ih]

end Bindings

/-! ## Frames and slots -/

/-- What is known about a frame. -/
structure Frame where
  /-- The names bound in the frame. -/
  bindings : Bindings
  /-- The slot of the frame where other names are looked up. -/
  parent : Option Nat
  /-- What tells the frame from others that had its slot before. -/
  serial : Nat
  /-- How many frames have this one as their parent. -/
  children : Nat
  /-- Whether the call that pushed the frame has returned. -/
  returned : Bool

/-- The handles held by the values bound in a frame. -/
def Frame.handles (f : Frame) : List Handle := f.bindings.flatMap fun b => b.2.handles

/-- A use of frames that no program can bring about. -/
inductive Fault where
  /-- A slot that holds no frame was named. -/
  | usedAfterRelease (index : Nat)
  /-- A built-in function was run without its argument. -/
  | unboundArgument (name : String)
  deriving DecidableEq, Repr, Inhabited

/-- The message of a fault. -/
def Fault.message : Fault → String
  | usedAfterRelease index => "scope frame " ++ toString index ++ " used after release"
  | unboundArgument name => "built-in argument '" ++ name ++ "' was not bound"

/-- The slots with their frames, and what is kept to free and reuse them. -/
structure Arena where
  /-- The slots; one without a frame is free. -/
  frames : Array (Option Frame)
  /-- The free slots, the one freed last first. -/
  free : List Nat
  /-- The released frames that have not been freed, in the order of their release. -/
  pending : List Nat
  /-- How many released frames may wait until the next collection. -/
  threshold : Nat
  /-- The serial number of the next frame. -/
  nextSerial : Nat
  /-- Whether frames are freed at all.  An arena that keeps every frame has to give every program
  the same results. -/
  reclaiming : Bool

namespace Arena

/-- The number of waiting frames below which no collection is made. -/
def minThreshold : Nat := 64

/-- An arena that holds only the global frame, which is never released. -/
def start (reclaiming : Bool) (globals : Bindings) : Arena :=
  { frames := #[some ⟨globals, none, 0, 0, false⟩]
    free := []
    pending := []
    threshold := minThreshold
    nextSerial := 1
    reclaiming }

/-- The frame in a slot. -/
def frame (a : Arena) (i : Nat) : Except Fault Frame :=
  match a.frames[i]? with
  | some (some f) => .ok f
  | _ => .error (.usedAfterRelease i)

/-- Puts a frame into a slot. -/
def putFrame (a : Arena) (i : Nat) (f : Frame) : Arena :=
  { a with frames := a.frames.setIfInBounds i (some f) }

theorem frame_eq_ok_iff {a : Arena} {i : Nat} {f : Frame} :
    a.frame i = .ok f ↔ a.frames[i]? = some (some f) := by
  unfold frame
  split
  · rename_i g h
    simp [h]
  · rename_i h
    simp only [reduceCtorEq, false_iff]
    exact fun h' => h f h'

theorem frame_putFrame_self {a : Arena} {i : Nat} {f : Frame} (g : Frame) (h : a.frame i = .ok f) :
    (a.putFrame i g).frame i = .ok g := by
  rw [frame_eq_ok_iff] at h ⊢
  obtain ⟨hi, _⟩ := Array.getElem?_eq_some_iff.1 h
  simp [putFrame, hi]

theorem frame_putFrame_of_ne {i j : Nat} (h : j ≠ i) (a : Arena) (g : Frame) :
    (a.putFrame i g).frame j = a.frame j := by
  simp [frame, putFrame, Ne.symm h]

/-- The frames that are there. -/
def live (a : Arena) : List Frame := a.frames.toList.filterMap id

/-- How many frames are there. -/
def liveCount (a : Arena) : Nat := a.live.length

/-- The handles held by the values bound in frames. -/
def handles (a : Arena) : List Handle := a.live.flatMap Frame.handles

/-- How often a handle is held, in frames or outside. -/
def outstanding (a : Arena) (held : List Handle) (h : Handle) : Nat :=
  a.handles.count h + held.count h

/-! ## Pushing and freeing -/

/-- Counts one child more at the parent of a new frame. -/
def addChild (a : Arena) : Option Nat → Except Fault Arena
  | none => .ok a
  | some p => do
    let f ← a.frame p
    return a.putFrame p { f with children := f.children + 1 }

/-- A new frame without names, and the slot it is in: the one freed last, or one more. -/
def push (a : Arena) (parent : Option Nat) : Except Fault (Nat × Arena) := do
  let a ← a.addChild parent
  let f : Frame := ⟨[], parent, a.nextSerial, 0, false⟩
  let a := { a with nextSerial := a.nextSerial + 1 }
  match a.free with
  | i :: free => return (i, { a.putFrame i f with free })
  | [] => return (a.frames.size, { a with frames := a.frames.push (some f) })

/-- A handle on the frame in a slot. -/
def handle (a : Arena) (i : Nat) : Except Fault Handle := do
  let f ← a.frame i
  return ⟨i, f.serial⟩

/-- Counts one child less at the parent of a frame that is freed. -/
def removeChild (a : Arena) : Option Nat → Arena
  | none => a
  | some p =>
    match a.frame p with
    | .ok f => a.putFrame p { f with children := f.children - 1 }
    | .error _ => a

/-- Frees a slot; one that is free already stays so. -/
def freeFrame (a : Arena) (i : Nat) : Arena :=
  match a.frame i with
  | .ok f =>
    let a := { a with frames := a.frames.setIfInBounds i none }
    let a := a.removeChild f.parent
    { a with free := i :: a.free }
  | .error _ => a

/-! ## Names -/

/-- The slot of the parent of a frame. -/
def parent (a : Arena) (i : Nat) : Except Fault (Option Nat) := do
  let f ← a.frame i
  return f.parent

/-- Looks a name up in a frame and the frames around it, through at most `fuel` of them. -/
def lookup (a : Arena) (fuel i : Nat) (name : String) : Except Fault (Option Value) :=
  match fuel with
  | 0 => .ok none
  | fuel + 1 =>
    match a.frame i with
    | .error fault => .error fault
    | .ok f =>
      match f.bindings.lookup name, f.parent with
      | some v, _ => .ok (some v)
      | none, some p => lookup a fuel p name
      | none, none => .ok none

/-- The value of a name in a frame: the binding in the nearest frame that has one. -/
def get (a : Arena) (i : Nat) (name : String) : Except Fault (Option Value) :=
  a.lookup a.frames.size i name

/-- Binds a name in a frame itself. -/
def set (a : Arena) (i : Nat) (name : String) (value : Value) : Except Fault Arena := do
  let f ← a.frame i
  return a.putFrame i { f with bindings := f.bindings.put name value }

/-- The slot of the frame where a name can be given another value: the frame itself or its parent.
-/
def binder (a : Arena) (i : Nat) (name : String) : Except Fault (Option Nat) := do
  let f ← a.frame i
  if (f.bindings.lookup name).isSome then return some i
  match f.parent with
  | none => return none
  | some p =>
    let g ← a.frame p
    return if (g.bindings.lookup name).isSome then some p else none

/-- Gives a name that the frame or its parent binds another value, and says whether there is one.
-/
def reassign (a : Arena) (i : Nat) (name : String) (value : Value) :
    Except Fault (Bool × Arena) := do
  match ← a.binder i name with
  | some j =>
    let a ← a.set j name value
    return (true, a)
  | none => return (false, a)

end Arena

end UniformScript
