import UniformScript.Proofs.Arena.Frames

/-!
# What operations do to the frames of an arena

What comes of an operation when it gives a result, in an arena of which nothing else is known.  An
arena `b` is `Thinned` from `a` if every frame of `b` is a frame of `a`, with the same names and
values bound in it and the same parent.  Releasing a frame and collecting thin an arena out, and
nothing more.

* `exists_of_set`, `exists_of_reassign`, `of_push`: binding a name, giving it another value, and
  pushing a frame.
* `get_of_set`: a name that is bound in a frame is found there.
* `exists_bound_of_get`: a value that is found is bound in some frame.
* `thinned_release`, `thinned_collect`: frames are freed.
-/

namespace UniformScript

namespace Arena

variable {a b c : Arena} {i j : Nat} {name : String} {v : Value} {f g : Frame} {held : List Handle}

/-! ## Binding names -/

/-- A name is bound in a frame that is there. -/
theorem exists_of_set (h : a.set i name v = .ok b) :
    ∃ f, a.frame i = .ok f ∧ b = a.putFrame i { f with bindings := f.bindings.put name v } := by
  unfold set at h
  obtain ⟨f, hf⟩ | hf := a.frame_cases i
  · rw [hf] at h
    cases h
    exact ⟨f, hf, rfl⟩
  · rw [hf] at h
    cases h

/-- Where a name is bound, there its value is found. -/
theorem get_of_set (h : a.set i name v = .ok b) : b.get i name = .ok (some v) := by
  obtain ⟨f, hf, rfl⟩ := exists_of_set h
  exact get_of_bound (frame_putFrame_self _ hf) (Bindings.lookup_put_self name v f.bindings)

/-- The frame where a name can be given another value binds it. -/
theorem exists_of_binder (h : a.binder i name = .ok (some j)) :
    ∃ g, a.frame j = .ok g ∧ (g.bindings.lookup name).isSome := by
  unfold binder at h
  obtain ⟨f, hf⟩ | hf := a.frame_cases i
  · rw [hf] at h
    simp only [bind, Except.bind] at h
    split at h
    · rename_i hbound
      cases h
      exact ⟨f, hf, hbound⟩
    · cases hp : f.parent with
      | none =>
        simp only [hp] at h
        cases h
      | some p =>
        simp only [hp] at h
        obtain ⟨g, hg⟩ | hg := a.frame_cases p
        · rw [hg] at h
          simp only [pure, Except.pure] at h
          split at h
          · rename_i hbound
            cases h
            exact ⟨g, hg, hbound⟩
          · cases h
        · rw [hg] at h
          cases h
  · rw [hf] at h
    cases h

/-- A name is given another value in a frame that binds it, or nothing happens. -/
theorem exists_of_reassign {r : Bool} (h : a.reassign i name v = .ok (r, b)) :
    b = a ∨ ∃ j f, a.frame j = .ok f ∧ (f.bindings.lookup name).isSome ∧
      b = a.putFrame j { f with bindings := f.bindings.put name v } := by
  unfold reassign at h
  cases hbinder : a.binder i name with
  | error fault =>
    rw [hbinder] at h
    cases h
  | ok found =>
    rw [hbinder] at h
    cases found with
    | none =>
      cases h
      exact .inl rfl
    | some j =>
      obtain ⟨f, hf, hbound⟩ := exists_of_binder hbinder
      simp only [bind, Except.bind] at h
      cases hset : a.set j name v with
      | error fault =>
        rw [hset] at h
        cases h
      | ok d =>
        rw [hset] at h
        cases h
        obtain ⟨f', hf', rfl⟩ := exists_of_set hset
        obtain rfl := frame_inj hf hf'
        exact .inr ⟨j, f, hf, hbound, rfl⟩

/-- A value that is found is bound in some frame. -/
theorem exists_bound_of_lookup {fuel : Nat} (h : a.lookup fuel i name = .ok (some v)) :
    ∃ j f, a.frame j = .ok f ∧ (name, v) ∈ f.bindings := by
  induction fuel generalizing i with
  | zero => cases h
  | succ fuel ih =>
    unfold lookup at h
    obtain ⟨f, hf⟩ | hf := a.frame_cases i
    · simp only [hf] at h
      cases hv : f.bindings.lookup name with
      | some w =>
        simp only [hv] at h
        cases h
        obtain ⟨l₁, l₂, hbs, -⟩ := List.lookup_eq_some_iff.1 hv
        exact ⟨i, f, hf, by simp [hbs]⟩
      | none =>
        cases hp : f.parent with
        | none =>
          simp only [hv, hp] at h
          cases h
        | some p =>
          simp only [hv, hp] at h
          exact ih h
    · simp only [hf] at h
      cases h

theorem exists_bound_of_get (h : a.get i name = .ok (some v)) :
    ∃ j f, a.frame j = .ok f ∧ (name, v) ∈ f.bindings := exists_bound_of_lookup h

/-! ## Thinning out -/

/-- Every frame of `b` is one of `a`, in the same slot, with the same bindings and the same parent.
-/
structure Thinned (a b : Arena) : Prop where
  old : ∀ {i g}, b.frame i = .ok g → ∃ f, a.frame i = .ok f ∧ f.bindings = g.bindings ∧
    f.serial = g.serial ∧ f.parent = g.parent
  nextSerial : b.nextSerial = a.nextSerial

namespace Thinned

theorem refl (a : Arena) : Thinned a a := ⟨fun h => ⟨_, h, rfl, rfl, rfl⟩, rfl⟩

theorem trans (h₁ : Thinned a b) (h₂ : Thinned b c) : Thinned a c where
  old hg := by
    obtain ⟨f, hf, hfg, hsfg, hpfg⟩ := h₂.old hg
    obtain ⟨e, he, hef, hsef, hpef⟩ := h₁.old hf
    exact ⟨e, he, hef.trans hfg, hsef.trans hsfg, hpef.trans hpfg⟩
  nextSerial := h₂.nextSerial.trans h₁.nextSerial

/-- The frames are what counts, and the next serial number. -/
theorem of_frames_eq (hframes : b.frames = a.frames) (hserial : b.nextSerial = a.nextSerial) :
    Thinned a b where
  old hg := ⟨_, (frame_eq_of_frames_eq hframes _) ▸ hg, rfl, rfl, rfl⟩
  nextSerial := hserial

end Thinned

/-- Putting another frame with the same bindings and the same parent into a slot. -/
theorem thinned_putFrame (hf : a.frame i = .ok f) (hbindings : f.bindings = g.bindings)
    (hserial : f.serial = g.serial) (hparent : f.parent = g.parent) :
    Thinned a (a.putFrame i g) where
  old hk := by
    rcases (frame_putFrame_iff hf).1 hk with ⟨rfl, rfl⟩ | ⟨-, hk⟩
    · exact ⟨f, hf, hbindings, hserial, hparent⟩
    · exact ⟨_, hk, rfl, rfl, rfl⟩
  nextSerial := rfl

theorem thinned_addChild {parent : Option Nat} (h : a.addChild parent = .ok b) : Thinned a b where
  old hg := by
    obtain ⟨f, hf, rfl⟩ := (frame_addChild_iff h).1 hg
    exact ⟨f, hf, rfl, rfl, rfl⟩
  nextSerial := (sameBooks_of_addChild h).nextSerial

theorem thinned_freeFrame (a : Arena) (i : Nat) : Thinned a (a.freeFrame i) := by
  obtain ⟨f, hf⟩ | hf := a.frame_cases i
  · refine ⟨fun hg => ?_, (books_freeFrame hf).nextSerial⟩
    obtain ⟨-, k, hk, rfl⟩ := (frame_freeFrame_iff hf).1 hg
    exact ⟨k, hk, rfl, rfl, rfl⟩
  · unfold freeFrame
    rw [hf]
    exact .refl a

theorem thinned_foldl_freeFrame (a : Arena) (dead : List Nat) :
    Thinned a (dead.foldl freeFrame a) := by
  induction dead generalizing a with
  | nil => exact .refl a
  | cons i dead ih => exact (thinned_freeFrame a i).trans (ih _)

theorem thinned_collect (h : a.collect held = .ok b) : Thinned a b := by
  unfold collect at h
  split at h
  · cases h
    exact .refl a
  · cases hw : a.waiting with
    | error fault =>
      rw [hw] at h
      cases h
    | ok w =>
      rw [hw] at h
      cases h
      refine .trans ?_ (thinned_foldl_freeFrame _ _)
      exact .of_frames_eq rfl rfl

theorem thinned_collectIfDue (h : a.collectIfDue held = .ok b) : Thinned a b := by
  unfold collectIfDue at h
  split at h
  · cases h
    exact .refl a
  · cases hc : a.collect held with
    | error fault =>
      rw [hc] at h
      cases h
    | ok c =>
      rw [hc] at h
      cases h
      exact (thinned_collect hc).trans (.of_frames_eq rfl rfl)

theorem thinned_release (h : a.release held i = .ok b) : Thinned a b := by
  unfold release at h
  split at h
  · cases h
    exact .refl a
  · obtain ⟨f, hf⟩ | hf := a.frame_cases i
    · rw [hf] at h
      simp only [bind, Except.bind] at h
      have hput : Thinned a (a.putFrame i { f with returned := true }) :=
        thinned_putFrame hf rfl rfl rfl
      split at h
      · cases h
        exact hput
      · split at h
        · cases h
          exact hput.trans (thinned_freeFrame _ i)
        · refine hput.trans (.trans ?_ (thinned_collectIfDue h))
          exact .of_frames_eq rfl rfl
    · rw [hf] at h
      cases h

/-- What is pushed is a frame without names, numbered with the next serial number. -/
theorem of_push {parent : Option Nat} (h : a.push parent = .ok (i, b)) :
    b.nextSerial = a.nextSerial + 1 ∧ ∀ {j g}, b.frame j = .ok g →
      (j = i ∧ g.bindings = [] ∧ g.serial = a.nextSerial) ∨
        (j ≠ i ∧ ∃ f, a.frame j = .ok f ∧ f.bindings = g.bindings ∧ f.serial = g.serial ∧
          f.parent = g.parent) := by
  unfold push at h
  cases hc : a.addChild parent with
  | error fault =>
    rw [hc] at h
    cases h
  | ok c =>
    rw [hc] at h
    simp only [bind, Except.bind] at h
    have hthin := thinned_addChild hc
    have hserial : c.nextSerial = a.nextSerial := hthin.nextSerial
    cases hfree : c.free with
    | cons k free =>
      rw [hfree] at h
      cases h
      refine ⟨congrArg (· + 1) hserial, fun {j g} hg => ?_⟩
      rw [frame_eq_ok_iff] at hg
      by_cases hj : j = i
      · subst hj
        simp only [putFrame, Array.getElem?_setIfInBounds_self] at hg
        split at hg
        · cases hg
          exact .inl ⟨rfl, rfl, hserial⟩
        · cases hg
      · simp only [putFrame, Array.getElem?_setIfInBounds, Ne.symm hj, if_false] at hg
        exact .inr ⟨hj, hthin.old (frame_eq_ok_iff.2 hg)⟩
    | nil =>
      rw [hfree] at h
      cases h
      refine ⟨congrArg (· + 1) hserial, fun {j g} hg => ?_⟩
      rw [frame_eq_ok_iff] at hg
      by_cases hj : j = c.frames.size
      · subst hj
        simp only [Array.getElem?_push_size] at hg
        cases hg
        exact .inl ⟨rfl, rfl, hserial⟩
      · simp only [Array.getElem?_push, hj, if_false] at hg
        exact .inr ⟨hj, hthin.old (frame_eq_ok_iff.2 hg)⟩

end Arena

end UniformScript
