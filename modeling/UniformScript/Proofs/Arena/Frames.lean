import UniformScript.Arena.Collect
import Mathlib.Data.Finset.Card
import Mathlib.Data.Finset.Range

/-!
# What the operations of an arena do to its frames

Each operation is described by the frames that are there afterwards.  Counting children changes a
frame in nothing else, so most of what is said about frames is said up to their counts of children.

* `mem_handles_iff`: a handle is held in the arena if a frame that is there holds it.
* `Agrees`: frames that differ at most in their counts of children.
* `frame_putFrame_iff`, `frame_freeFrame_iff`: the frames after an operation, in terms of those
  before.
* `exists_push`: what a push leads to.
* `Freed`: what freeing one slot after the other comes to.
-/

namespace UniformScript

/-- Frames that differ at most in how many children they count. -/
structure Frame.Agrees (f g : Frame) : Prop where
  bindings : f.bindings = g.bindings
  parent : f.parent = g.parent
  serial : f.serial = g.serial
  returned : f.returned = g.returned

namespace Frame.Agrees

variable {f g h : Frame}

theorem refl (f : Frame) : f.Agrees f := ⟨rfl, rfl, rfl, rfl⟩

theorem trans (h₁ : f.Agrees g) (h₂ : g.Agrees h) : f.Agrees h :=
  ⟨h₁.bindings.trans h₂.bindings, h₁.parent.trans h₂.parent, h₁.serial.trans h₂.serial,
    h₁.returned.trans h₂.returned⟩

theorem handles (h : f.Agrees g) : f.handles = g.handles := by
  unfold Frame.handles
  rw [h.bindings]

end Frame.Agrees

/-- The frame with so many children more. -/
def Frame.plus (f : Frame) (n : Nat) : Frame := { f with children := f.children + n }

/-- The frame with so many children less. -/
def Frame.minus (f : Frame) (n : Nat) : Frame := { f with children := f.children - n }

theorem Frame.agrees_minus (f : Frame) (n : Nat) : f.Agrees (f.minus n) := ⟨rfl, rfl, rfl, rfl⟩

@[simp] theorem Frame.plus_zero (f : Frame) : f.plus 0 = f := rfl

@[simp] theorem Frame.minus_zero (f : Frame) : f.minus 0 = f := rfl

namespace Arena

variable {a b : Arena} {i j p : Nat} {f g k : Frame}

/-! ## Frames that are there -/

/-- The frame that the handle was taken on is there. -/
def Names (a : Arena) (h : Handle) : Prop := ∃ f, a.frame h.index = .ok f ∧ f.serial = h.serial

theorem lt_size_of_frame (h : a.frame i = .ok f) : i < a.frames.size :=
  (Array.getElem?_eq_some_iff.1 (frame_eq_ok_iff.1 h)).1

theorem frame_inj (h : a.frame i = .ok f) (h' : a.frame i = .ok g) : f = g := by
  rw [h] at h'
  exact Except.ok.inj h'

/-- A slot holds a frame, or naming it is a fault. -/
theorem frame_cases (a : Arena) (i : Nat) :
    (∃ f, a.frame i = .ok f) ∨ a.frame i = .error (.usedAfterRelease i) := by
  unfold frame
  split
  · exact .inl ⟨_, rfl⟩
  · exact .inr rfl

/-- What a frame binds itself is found in it. -/
theorem get_of_bound {name : String} {v : Value} (hf : a.frame i = .ok f)
    (hv : f.bindings.lookup name = some v) : a.get i name = .ok (some v) := by
  have hsize := lt_size_of_frame hf
  obtain ⟨fuel, hfuel⟩ : ∃ fuel, a.frames.size = fuel + 1 := ⟨a.frames.size - 1, by omega⟩
  unfold get
  rw [hfuel]
  unfold lookup
  simp only [hf, hv]

theorem frame_eq_of_frames_eq (h : b.frames = a.frames) (i : Nat) : b.frame i = a.frame i := by
  unfold frame
  rw [h]

theorem mem_live_iff : f ∈ a.live ↔ ∃ i, a.frame i = .ok f := by
  unfold live
  simp only [frame_eq_ok_iff, List.mem_filterMap, Array.mem_toList_iff, id, exists_eq_right]
  exact Array.mem_iff_getElem?

theorem mem_handles_iff {h : Handle} :
    h ∈ a.handles ↔ ∃ i f, a.frame i = .ok f ∧ h ∈ f.handles := by
  unfold handles
  rw [List.mem_flatMap]
  constructor
  · rintro ⟨f, hf, hh⟩
    obtain ⟨i, hi⟩ := mem_live_iff.1 hf
    exact ⟨i, f, hi, hh⟩
  · rintro ⟨i, f, hi, hh⟩
    exact ⟨f, mem_live_iff.2 ⟨i, hi⟩, hh⟩

/-! ## Children -/

/-- Whether the frame in slot `j` has slot `i` for its parent. -/
def isChild (a : Arena) (i j : Nat) : Bool :=
  match a.frame j with
  | .ok f => f.parent == some i
  | .error _ => false

/-- The slots whose frames have slot `i` for their parent. -/
def childrenOf (a : Arena) (i : Nat) : Finset Nat :=
  (Finset.range a.frames.size).filter fun j => a.isChild i j

theorem mem_childrenOf_iff : j ∈ a.childrenOf i ↔ ∃ f, a.frame j = .ok f ∧ f.parent = some i := by
  unfold childrenOf isChild
  rw [Finset.mem_filter, Finset.mem_range]
  constructor
  · rintro ⟨-, hj⟩
    split at hj
    · rename_i f hf
      exact ⟨f, hf, eq_of_beq hj⟩
    · cases hj
  · rintro ⟨f, hf, hparent⟩
    refine ⟨lt_size_of_frame hf, ?_⟩
    simp [hf, hparent]

theorem childrenOf_congr
    (h : ∀ j, (∃ f, b.frame j = .ok f ∧ f.parent = some i) ↔
      ∃ f, a.frame j = .ok f ∧ f.parent = some i) : b.childrenOf i = a.childrenOf i := by
  ext j
  rw [mem_childrenOf_iff, mem_childrenOf_iff, h]

/-! ## Putting -/

/-- The arenas have as many slots and differ in nothing but frames. -/
structure SameBooks (a b : Arena) : Prop where
  size : b.frames.size = a.frames.size
  free : b.free = a.free
  pending : b.pending = a.pending
  threshold : b.threshold = a.threshold
  nextSerial : b.nextSerial = a.nextSerial
  reclaiming : b.reclaiming = a.reclaiming

theorem SameBooks.refl (a : Arena) : SameBooks a a := ⟨rfl, rfl, rfl, rfl, rfl, rfl⟩

theorem sameBooks_putFrame (a : Arena) (i : Nat) (f : Frame) : SameBooks a (a.putFrame i f) :=
  ⟨by simp [putFrame], rfl, rfl, rfl, rfl, rfl⟩

theorem frame_putFrame_iff (h : a.frame i = .ok f) :
    (a.putFrame i g).frame j = .ok k ↔ (j = i ∧ k = g) ∨ (j ≠ i ∧ a.frame j = .ok k) := by
  by_cases hj : j = i
  · subst hj
    rw [frame_putFrame_self g h]
    simp [eq_comm]
  · rw [frame_putFrame_of_ne hj]
    simp [hj]

/-! ## Pushing -/

/-- How often slot `j` is the given parent: once or not at all. -/
def once (parent : Option Nat) (j : Nat) : Nat := if parent = some j then 1 else 0

theorem frame_addChild_iff {parent : Option Nat} (h : a.addChild parent = .ok b) :
    b.frame j = .ok k ↔ ∃ g, a.frame j = .ok g ∧ k = g.plus (once parent j) := by
  cases parent with
  | none =>
    cases h
    simp [once, eq_comm]
  | some p =>
    obtain ⟨f, hf⟩ | hf := a.frame_cases p
    · simp only [addChild, hf] at h
      cases h
      rw [frame_putFrame_iff hf]
      by_cases hj : j = p
      · subst hj
        simp [once, hf, Frame.plus]
      · simp [once, hj, eq_comm]
    · simp only [addChild, hf] at h
      cases h

theorem sameBooks_of_addChild {parent : Option Nat} (h : a.addChild parent = .ok b) :
    SameBooks a b := by
  cases parent with
  | none =>
    cases h
    exact .refl a
  | some p =>
    obtain ⟨f, hf⟩ | hf := a.frame_cases p
    · simp only [addChild, hf] at h
      cases h
      exact sameBooks_putFrame _ _ _
    · simp only [addChild, hf] at h
      cases h

/-- The arena `b` is what comes of pushing a frame with the given parent into slot `i` of `a`. -/
structure Pushed (a : Arena) (parent : Option Nat) (i : Nat) (b : Arena) : Prop where
  /-- The slot held no frame. -/
  vacant : ∀ f, a.frame i ≠ .ok f
  frame_iff : ∀ {j k}, b.frame j = .ok k ↔
    (j = i ∧ k = ⟨[], parent, a.nextSerial, 0, false⟩) ∨
      (j ≠ i ∧ ∃ g, a.frame j = .ok g ∧ k = g.plus (once parent j))
  /-- The slot was free, or is a new one. -/
  slot : (a.free = i :: b.free ∧ b.frames.size = a.frames.size) ∨
    (a.free = [] ∧ b.free = [] ∧ i = a.frames.size ∧ b.frames.size = a.frames.size + 1)
  pending : b.pending = a.pending
  threshold : b.threshold = a.threshold
  nextSerial : b.nextSerial = a.nextSerial + 1
  reclaiming : b.reclaiming = a.reclaiming

section

variable {parent : Option Nat} {free : List Nat}

theorem exists_addChild (hparent : ∀ p ∈ parent, ∃ f, a.frame p = .ok f) :
    ∃ c, a.addChild parent = .ok c := by
  cases parent with
  | none => exact ⟨a, rfl⟩
  | some p =>
    obtain ⟨f, hf⟩ := hparent p rfl
    exact ⟨_, by simp only [addChild, hf]; rfl⟩

/-- A new frame in the slot freed last. -/
theorem pushed_of_free {c : Arena} (hc : a.addChild parent = .ok c) (hfree : a.free = i :: free)
    (hi : i < a.frames.size) (hempty : ∀ f, a.frame i ≠ .ok f) :
    Pushed a parent i { c with
      frames := c.frames.setIfInBounds i (some ⟨[], parent, c.nextSerial, 0, false⟩)
      free, nextSerial := c.nextSerial + 1 } := by
  have books := sameBooks_of_addChild hc
  have hi' : i < c.frames.size := books.size ▸ hi
  refine ⟨hempty, ?_, .inl ⟨hfree, ?_⟩, books.pending, books.threshold,
    congrArg (· + 1) books.nextSerial, books.reclaiming⟩
  · intro j k
    rw [frame_eq_ok_iff]
    by_cases hj : j = i
    · subst hj
      simp [hi', books.nextSerial, eq_comm]
    · simp only [Array.getElem?_setIfInBounds, Ne.symm hj, if_false, hj, false_and, false_or,
        ne_eq, not_false_eq_true, true_and]
      rw [← frame_eq_ok_iff]
      exact frame_addChild_iff hc
  · simp [books.size]

/-- A new frame in a new slot, where none is free. -/
theorem pushed_of_none_free {c : Arena} (hc : a.addChild parent = .ok c) (hfree : a.free = []) :
    Pushed a parent a.frames.size { c with
      frames := c.frames.push (some ⟨[], parent, c.nextSerial, 0, false⟩)
      free := [], nextSerial := c.nextSerial + 1 } := by
  have books := sameBooks_of_addChild hc
  have hsize := books.size
  refine ⟨?_, ?_, .inr ⟨hfree, rfl, rfl, ?_⟩, books.pending, books.threshold,
    congrArg (· + 1) books.nextSerial, books.reclaiming⟩
  · intro f hf
    exact Nat.lt_irrefl _ (lt_size_of_frame hf)
  · intro j k
    rw [frame_eq_ok_iff]
    by_cases hj : j = a.frames.size
    · subst hj
      simp [← hsize, books.nextSerial, eq_comm]
    · simp only [Array.getElem?_push, hsize, hj, if_false, false_and, false_or, ne_eq,
        not_false_eq_true, true_and]
      rw [← frame_eq_ok_iff]
      exact frame_addChild_iff hc
  · simp [hsize]

/-- Pushing under a parent that is there gives a frame, if the free slots are vacant. -/
theorem exists_push (hparent : ∀ p ∈ parent, ∃ f, a.frame p = .ok f)
    (hfree : ∀ i ∈ a.free, i < a.frames.size ∧ ∀ f, a.frame i ≠ .ok f) :
    ∃ i b, a.push parent = .ok (i, b) ∧ Pushed a parent i b := by
  obtain ⟨c, hc⟩ := exists_addChild hparent
  have books := sameBooks_of_addChild hc
  unfold push
  rw [hc]
  simp only [bind, Except.bind, books.free]
  cases hslot : a.free with
  | cons i free =>
    obtain ⟨hi, hempty⟩ := hfree i (hslot ▸ List.mem_cons_self)
    exact ⟨i, _, rfl, pushed_of_free hc hslot hi hempty⟩
  | nil =>
    refine ⟨_, _, rfl, ?_⟩
    show Pushed a parent c.frames.size _
    rw [books.size]
    exact pushed_of_none_free hc hslot

end

/-! ## Freeing -/

theorem frame_removeChild_iff {parent : Option Nat} :
    (a.removeChild parent).frame j = .ok k ↔
      ∃ g, a.frame j = .ok g ∧ k = g.minus (once parent j) := by
  cases parent with
  | none => simp [removeChild, once, eq_comm]
  | some p =>
    obtain ⟨f, hf⟩ | hf := a.frame_cases p
    · simp only [removeChild, hf]
      rw [frame_putFrame_iff hf]
      by_cases hj : j = p
      · subst hj
        simp [once, hf, Frame.minus]
      · simp [once, hj, eq_comm]
    · simp only [removeChild, hf]
      constructor
      · intro hk
        have hj : p ≠ j := by
          rintro rfl
          rw [hf] at hk
          cases hk
        exact ⟨k, hk, by simp [once, hj]⟩
      · rintro ⟨g, hg, rfl⟩
        have hj : p ≠ j := by
          rintro rfl
          rw [hf] at hg
          cases hg
        simp [once, hj, hg]

theorem sameBooks_removeChild (a : Arena) (parent : Option Nat) :
    SameBooks a (a.removeChild parent) := by
  cases parent with
  | none => exact .refl a
  | some p =>
    obtain ⟨f, hf⟩ | hf := a.frame_cases p
    · simp only [removeChild, hf]
      exact sameBooks_putFrame _ _ _
    · simp only [removeChild, hf]
      exact .refl a

/-- The arena `b` is what comes of freeing the slots of `dead`, one after the other. -/
structure Freed (a : Arena) (dead : List Nat) (b : Arena) : Prop where
  gone : ∀ i ∈ dead, ∀ f, b.frame i ≠ .ok f
  kept : ∀ i f, i ∉ dead → a.frame i = .ok f → ∃ g, b.frame i = .ok g ∧ f.Agrees g
  old : ∀ i g, b.frame i = .ok g → i ∉ dead ∧ ∃ f, a.frame i = .ok f ∧ f.Agrees g
  size : b.frames.size = a.frames.size
  free : b.free = dead.reverse ++ a.free
  pending : b.pending = a.pending
  threshold : b.threshold = a.threshold
  nextSerial : b.nextSerial = a.nextSerial
  reclaiming : b.reclaiming = a.reclaiming

theorem frame_freeFrame_iff (h : a.frame i = .ok f) :
    (a.freeFrame i).frame j = .ok k ↔
      j ≠ i ∧ ∃ g, a.frame j = .ok g ∧ k = g.minus (once f.parent j) := by
  unfold freeFrame
  rw [h]
  let c : Arena := { a with frames := a.frames.setIfInBounds i none }
  show (c.removeChild f.parent).frame j = .ok k ↔ _
  rw [frame_removeChild_iff]
  have hcframe (g : Frame) : c.frame j = .ok g ↔ j ≠ i ∧ a.frame j = .ok g := by
    rw [frame_eq_ok_iff, frame_eq_ok_iff]
    by_cases hj : j = i
    · subst hj
      simp [c, Array.getElem?_setIfInBounds]
    · simp [c, hj, Ne.symm hj]
  constructor
  · rintro ⟨g, hg, rfl⟩
    obtain ⟨hne, hg⟩ := (hcframe g).1 hg
    exact ⟨hne, g, hg, rfl⟩
  · rintro ⟨hne, g, hg, rfl⟩
    exact ⟨g, (hcframe g).2 ⟨hne, hg⟩, rfl⟩

/-- Freeing a slot puts it in front of the free ones, and changes nothing else but frames. -/
theorem books_freeFrame (h : a.frame i = .ok f) :
    SameBooks { a with free := i :: a.free } (a.freeFrame i) := by
  unfold freeFrame
  rw [h]
  have books := sameBooks_removeChild { a with frames := a.frames.setIfInBounds i none } f.parent
  refine ⟨?_, congrArg (i :: ·) books.free, books.pending, books.threshold, books.nextSerial,
    books.reclaiming⟩
  exact books.size.trans (by simp)

/-- Freeing slots that are there, one after the other. -/
theorem freed_foldl {dead : List Nat} (hnodup : dead.Nodup)
    (hdead : ∀ i ∈ dead, ∃ f, a.frame i = .ok f) : Freed a dead (dead.foldl freeFrame a) := by
  induction dead generalizing a with
  | nil =>
    refine ⟨by simp, fun i f _ hf => ⟨f, hf, .refl f⟩, fun i f hf => ⟨by simp, f, hf, .refl f⟩,
      rfl, by simp, rfl, rfl, rfl, rfl⟩
  | cons d dead ih =>
    obtain ⟨hd, hnodup⟩ := List.nodup_cons.1 hnodup
    obtain ⟨f, hf⟩ := hdead d (by simp)
    have books := books_freeFrame hf
    have hframe {j : Nat} {k : Frame} := frame_freeFrame_iff (j := j) (k := k) hf
    have hrest : ∀ i ∈ dead, ∃ g, (a.freeFrame d).frame i = .ok g := by
      intro i hi
      obtain ⟨g, hg⟩ := hdead i (by simp [hi])
      exact ⟨_, hframe.2 ⟨fun h => hd (h ▸ hi), g, hg, rfl⟩⟩
    obtain ⟨gone, kept, old, size, free, pending, threshold, nextSerial, reclaiming⟩ :=
      ih hnodup hrest
    refine ⟨?_, ?_, ?_, size.trans books.size, ?_, pending.trans books.pending,
      threshold.trans books.threshold, nextSerial.trans books.nextSerial,
      reclaiming.trans books.reclaiming⟩
    · intro i hi g hg
      rcases List.mem_cons.1 hi with rfl | hi
      · obtain ⟨-, k, hk, -⟩ := old i g hg
        exact (hframe.1 hk).1 rfl
      · exact gone i hi g hg
    · intro i g hi hg
      obtain ⟨hne, hi⟩ := not_or.1 fun h => hi (List.mem_cons.2 h)
      obtain ⟨k, hk, hagrees⟩ := kept i _ hi (hframe.2 ⟨hne, g, hg, rfl⟩)
      exact ⟨k, hk, (g.agrees_minus _).trans hagrees⟩
    · intro i g hg
      obtain ⟨hi, k, hk, hagrees⟩ := old i g hg
      obtain ⟨hne, l, hl, rfl⟩ := hframe.1 hk
      exact ⟨fun h => (List.mem_cons.1 h).elim hne hi, l, hl, (l.agrees_minus _).trans hagrees⟩
    · rw [List.foldl_cons, free, books.free]
      simp

end Arena

end UniformScript
