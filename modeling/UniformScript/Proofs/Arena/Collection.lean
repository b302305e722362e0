import UniformScript.Proofs.Arena.Reachability

/-!
# What a collection keeps and a release frees

A collection of a sound arena keeps the frames that are reached from the running ones and from the
handles held outside, and no others.  The end of a call takes its frame from the running ones; what
is held outside stays.

* `Sound.exists_collect`: a collection gives a sound arena, whose frames are the reached ones.
* `Collected.reached_iff`: the same frames are reached before and after.
* `Sound.exists_release`: so does a release, which may free the frame, let it wait, or collect.
-/

namespace UniformScript

namespace Arena

variable {a b : Arena} {i j p : Nat} {f g k : Frame} {h : Handle} {held : List Handle}

/-! ## Collecting -/

/-- The handles from which a collection looks for frames to keep. -/
def Root (a : Arena) (held : List Handle) (h : Handle) : Prop := a.Running h ∨ h ∈ held

/-- What a collection makes of an arena. -/
structure Collected (a : Arena) (held : List Handle) (b : Arena) : Prop where
  sound : b.Sound
  /-- The frames that are left are the reached ones. -/
  names_iff : ∀ h, b.Names h ↔ a.Reached (a.Root held) h
  /-- They differ from before at most in their counts of children. -/
  old : ∀ {i g}, b.frame i = .ok g → ∃ f, a.frame i = .ok f ∧ f.Agrees g
  pending : b.pending.Sublist a.pending
  nextSerial : b.nextSerial = a.nextSerial

theorem Sound.names_of_root (hs : a.Sound) (hheld : ∀ h ∈ held, a.Names h)
    (hr : a.Reached (a.Root held) h) : a.Names h :=
  hs.names_of_reached (fun h hh => hh.elim Running.names (hheld h)) hr

theorem Collected.frame_of_names (hc : Collected a held b) (hn : b.Names h) :
    ∃ f g, a.frame h.index = .ok f ∧ b.frame h.index = .ok g ∧ f.Agrees g ∧
      f.serial = h.serial := by
  obtain ⟨g, hg, hserial⟩ := hn
  obtain ⟨f, hf, hagrees⟩ := hc.old hg
  exact ⟨f, g, hf, hg, hagrees, hagrees.serial.trans hserial⟩

/-- The running frames stay, and no other frame runs. -/
theorem Collected.running_iff (hc : Collected a held b) : b.Running h ↔ a.Running h := by
  constructor
  · rintro ⟨g, hg, hserial, hreturned⟩
    obtain ⟨f, hf, hagrees⟩ := hc.old hg
    exact ⟨f, hf, hagrees.serial.trans hserial, hagrees.returned.trans hreturned⟩
  · intro hr
    obtain ⟨f, g, hf, hg, hagrees, hserial⟩ :=
      hc.frame_of_names ((hc.names_iff h).2 (.root (.inl hr)))
    obtain ⟨k, hk, -, hreturned⟩ := hr
    obtain rfl := frame_inj hf hk
    exact ⟨g, hg, hagrees.serial.symm.trans hserial, hagrees.returned.symm.trans hreturned⟩

/-- A collection changes nothing about what is reached. -/
theorem Collected.reached_iff (hc : Collected a held b) {root : Handle → Prop}
    (hroot : ∀ h, root h → a.Root held h) : b.Reached root h ↔ a.Reached root h := by
  constructor
  · intro hr
    induction hr with
    | root hh => exact .root hh
    | parent _ hg hserial hp hk ih =>
      obtain ⟨f, hf, hfg⟩ := hc.old hg
      obtain ⟨l, hl, hlk⟩ := hc.old hk
      rw [← hlk.serial]
      exact .parent ih hf (hfg.serial.trans hserial) (hfg.parent.trans hp) hl
    | value _ hg hserial hk ih =>
      obtain ⟨f, hf, hfg⟩ := hc.old hg
      exact .value ih hf (hfg.serial.trans hserial) (hfg.handles ▸ hk)
  · intro hr
    induction hr with
    | root hh => exact .root hh
    | @parent h f p k hr hf hserial hp hk ih =>
      have hreached := hr.mono hroot
      obtain ⟨f', g, hf', hg, hagrees, -⟩ := hc.frame_of_names ((hc.names_iff h).2 hreached)
      obtain rfl := frame_inj hf hf'
      obtain ⟨k', l, hk', hl, hkl, -⟩ := hc.frame_of_names
        ((hc.names_iff ⟨p, k.serial⟩).2 (.parent hreached hf hserial hp hk))
      obtain rfl := frame_inj hk hk'
      rw [hkl.serial]
      exact .parent ih hg (hagrees.serial.symm.trans hserial) (hagrees.parent.symm.trans hp) hl
    | @value h f _ hr hf hserial hk ih =>
      obtain ⟨f', g, hf', hg, hagrees, -⟩ :=
        hc.frame_of_names ((hc.names_iff h).2 (hr.mono hroot))
      obtain rfl := frame_inj hf hf'
      exact .value ih hg (hagrees.serial.symm.trans hserial) (hagrees.handles ▸ hk)

/-- What is found among the waiting slots: the roots, and what links lead to from there. -/
structure Found (a : Arena) (held : List Handle) (found : List Nat) : Prop where
  /-- Handles held outside lead to slots that are found. -/
  outside : ∀ h ∈ held, h.index ∈ a.pending → h.index ∈ found
  /-- Parents lead to slots that are found, unless they start from a slot that is not. -/
  parent : ∀ {i f p}, a.frame i = .ok f → (f.returned = true → i ∈ found) → f.parent = some p →
    p ∈ a.pending → p ∈ found
  /-- So do the handles of bound values. -/
  value : ∀ {i f}, a.frame i = .ok f → (f.returned = true → i ∈ found) → ∀ h ∈ f.handles,
    h.index ∈ a.pending → h.index ∈ found
  /-- All that is found is reached. -/
  reached : ∀ {i f}, i ∈ found → a.frame i = .ok f → a.Reached (a.Root held) ⟨i, f.serial⟩

/-- What a frame leads to is reached if the frame is. -/
theorem Sound.reached_of_mem_successors (hs : a.Sound) {root : Handle → Prop}
    (hr : a.Reached root ⟨i, f.serial⟩) (hf : a.frame i = .ok f) (hj : j ∈ a.successors i)
    (hg : a.frame j = .ok g) : a.Reached root ⟨j, g.serial⟩ := by
  rcases (mem_successors_iff hf).1 hj with hp | ⟨h, hh, rfl⟩
  · exact .parent hr hf rfl hp hg
  · rw [← (hs.names hf h hh).eq_handle hg rfl]
    exact .value hr hf rfl hh

section

variable {w : List (Nat × Frame)} (hs : a.Sound) (hfst : w.map Prod.fst = a.pending)
  (hframes : ∀ x ∈ w, a.frame x.1 = .ok x.2)
include hs hfst hframes

/-- A handle on a waiting frame that is held outside or in a running frame makes it a root. -/
theorem Sound.mem_roots_of_held (hn : a.Names h) (hi : h.index ∈ a.pending)
    (hsome : h ∈ held ∨ ∃ j g, a.frame j = .ok g ∧ g.returned = false ∧ h ∈ g.handles) :
    h.index ∈ a.roots held w := by
  obtain ⟨f, hf, hreturned⟩ := hs.mem_pending_iff.1 hi
  obtain ⟨x, hx, hxi⟩ := List.mem_map.1 (hfst ▸ hi)
  refine List.mem_append_left _ (List.mem_map.2 ⟨x, List.mem_filter.2 ⟨hx, ?_⟩, hxi⟩)
  have hxf := hframes x hx
  rw [hxi] at hxf
  obtain rfl := frame_inj hf hxf
  rw [decide_eq_true_eq, hxi]
  refine (hs.count_internal_lt_iff hfst hframes hf hreturned).2 ?_
  rw [← hn.eq_handle hf rfl]
  exact hsome

theorem Sound.reached_of_mem_roots (hi : i ∈ a.roots held w) (hf : a.frame i = .ok f) :
    a.Reached (a.Root held) ⟨i, f.serial⟩ := by
  rcases List.mem_append.1 hi with hi | hi
  · -- a handle on the frame is held outside or in a running frame
    obtain ⟨x, hx, rfl⟩ := List.mem_map.1 hi
    obtain ⟨hx, hlt⟩ := List.mem_filter.1 hx
    have hmem : x.1 ∈ a.pending := hfst ▸ List.mem_map_of_mem hx
    obtain rfl := frame_inj hf (hframes x hx)
    obtain ⟨g, hg, hreturned⟩ := hs.mem_pending_iff.1 hmem
    obtain rfl := frame_inj hf hg
    rcases (hs.count_internal_lt_iff hfst hframes hf hreturned).1 (of_decide_eq_true hlt)
      with hh | ⟨j, k, hk, hrunning, hh⟩
    · exact .root (.inr hh)
    · have hroot : a.Running ⟨j, k.serial⟩ := ⟨k, hk, rfl, hrunning⟩
      exact .value (.root (.inl hroot)) hk rfl hh
  · -- the frame is the parent of a running one
    obtain ⟨g, hg, hp⟩ := List.mem_filterMap.1 hi
    obtain ⟨j, hj⟩ := mem_live_iff.1 hg
    split at hp
    · cases hp
    · rename_i hrunning
      have hroot : a.Running ⟨j, g.serial⟩ := ⟨g, hj, rfl, by simpa using hrunning⟩
      exact .parent (.root (.inl hroot)) hj rfl hp hf

theorem Sound.found (hheld : ∀ h ∈ held, a.Names h) :
    Found a held (a.reach a.pending (a.pending.length + 1) (a.roots held w) []) := by
  obtain ⟨-, hroots, hclosed⟩ : [] ⊆ _ ∧ _ := closed_reach a (a.roots held w) List.nodup_nil
    (List.nil_subset a.pending) (by simp : _ < _ + (a.pending.length + 1)) (by simp)
  refine ⟨?_, ?_, ?_, ?_⟩
  · intro h hh hi
    exact hroots _ (hs.mem_roots_of_held hfst hframes (hheld h hh) hi (.inl hh)) hi
  · intro i f p hf hfound hp hw
    by_cases hreturned : f.returned = true
    · exact hclosed i (hfound hreturned) p ((mem_successors_iff hf).2 (.inl hp)) hw
    · refine hroots p (List.mem_append_right _ ?_) hw
      exact List.mem_filterMap.2 ⟨f, mem_live_iff.2 ⟨i, hf⟩, by simp [hreturned, hp]⟩
  · intro i f hf hfound h hh hw
    by_cases hreturned : f.returned = true
    · exact hclosed i (hfound hreturned) _ ((mem_successors_iff hf).2 (.inr ⟨h, hh, rfl⟩)) hw
    · have hrunning : f.returned = false := by simpa using hreturned
      exact hroots _ (hs.mem_roots_of_held hfst hframes (hs.names hf h hh) hw
        (.inr ⟨i, f, hf, hrunning, hh⟩)) hw
  · -- the roots are reached, and links hand it on
    let P (i : Nat) : Prop := ∀ f, a.frame i = .ok f → a.Reached (a.Root held) ⟨i, f.serial⟩
    have hstep : ∀ i ∈ a.pending, P i → ∀ j ∈ a.successors i, P j := by
      intro i hi hP j hj g hg
      obtain ⟨f, hf, -⟩ := hs.mem_pending_iff.1 hi
      exact hs.reached_of_mem_successors (hP f hf) hf hj hg
    have hfrontier : ∀ i ∈ a.roots held w, P i :=
      fun i hi f hf => hs.reached_of_mem_roots hfst hframes hi hf
    intro i f hi hf
    exact (reach_subset (P := P) hstep hfrontier (by simp) i hi).2 f hf

end

section

/-! Of the waiting slots those are freed that have not been found. -/

variable {found dead : List Nat} (hs : a.Sound)
  (hdead : ∀ i, i ∈ dead ↔ i ∈ a.pending ∧ i ∉ found)
include hs hdead

/-- A frame that has returned is found if it stays. -/
theorem Sound.found_of_not_dead (hf : a.frame i = .ok f) (hi : i ∉ dead)
    (hreturned : f.returned = true) : i ∈ found := by
  by_contra hnot
  exact hi ((hdead i).2 ⟨hs.mem_pending_iff.2 ⟨f, hf, hreturned⟩, hnot⟩)

variable (hfound : Found a held found)
include hfound

theorem Found.parent_not_dead (hf : a.frame i = .ok f) (hi : i ∉ dead) (hp : f.parent = some p) :
    p ∉ dead := by
  intro hpd
  obtain ⟨hpending, hnot⟩ := (hdead p).1 hpd
  exact hnot (hfound.parent hf (hs.found_of_not_dead hdead hf hi) hp hpending)

theorem Found.value_not_dead (hf : a.frame i = .ok f) (hi : i ∉ dead) (hh : h ∈ f.handles) :
    h.index ∉ dead := by
  intro hhd
  obtain ⟨hpending, hnot⟩ := (hdead _).1 hhd
  exact hnot (hfound.value hf (hs.found_of_not_dead hdead hf hi) h hh hpending)

/-- The frames that stay are the reached ones. -/
theorem Found.names_iff (hheld : ∀ h ∈ held, a.Names h) :
    h.index ∉ dead ∧ a.Names h ↔ a.Reached (a.Root held) h := by
  constructor
  · rintro ⟨hi, hn⟩
    obtain ⟨f, hf, -⟩ := id hn
    rw [hn.eq_handle hf rfl]
    by_cases hreturned : f.returned = true
    · exact hfound.reached (hs.found_of_not_dead hdead hf hi hreturned) hf
    · exact .root (.inl ⟨f, hf, rfl, by simpa using hreturned⟩)
  · intro hr
    refine ⟨?_, hs.names_of_root hheld hr⟩
    induction hr with
    | root hh =>
      intro hi
      obtain ⟨hpending, hnot⟩ := (hdead _).1 hi
      rcases hh with ⟨f, hf, -, hrunning⟩ | hh
      · obtain ⟨g, hg, hreturned⟩ := hs.mem_pending_iff.1 hpending
        obtain rfl := frame_inj hf hg
        exact absurd hreturned (by simp [hrunning])
      · exact hnot (hfound.outside _ hh hpending)
    | parent _ hf _ hp _ ih => exact hfound.parent_not_dead hs hdead hf ih hp
    | value _ hf _ hh ih => exact hfound.value_not_dead hs hdead hf ih hh

end

/-- Where nothing waits, every frame runs. -/
theorem Sound.collected_of_none_pending (hs : a.Sound) (hheld : ∀ h ∈ held, a.Names h)
    (hnone : a.pending = []) : Collected a held a where
  sound := hs
  names_iff h := by
    refine ⟨?_, hs.names_of_root hheld⟩
    rintro ⟨f, hf, hserial⟩
    refine .root (.inl ⟨f, hf, hserial, Bool.eq_false_iff.2 fun hreturned => ?_⟩)
    have hpending := hs.mem_pending_iff.2 ⟨f, hf, hreturned⟩
    rw [hnone] at hpending
    cases hpending
  old hg := ⟨_, hg, .refl _⟩
  pending := .refl _
  nextSerial := rfl

/-- Freeing the waiting frames that have not been found. -/
theorem Sound.collected_of_found {found : List Nat} (hs : a.Sound)
    (hheld : ∀ h ∈ held, a.Names h) (hfound : Found a held found) :
    Collected a held ((a.pending.filter (not ∘ fun i => found.contains i)).foldl freeFrame
      { a with pending := a.pending.filter fun i => found.contains i }) := by
  have hkept (i : Nat) : i ∈ a.pending.filter (fun i => found.contains i) ↔
      i ∈ a.pending ∧ i ∈ found := by simp
  have hdead (i : Nat) : i ∈ a.pending.filter (not ∘ fun i => found.contains i) ↔
      i ∈ a.pending ∧ i ∉ found := by simp
  have hkeptNodup := hs.pending_nodup.filter fun i => found.contains i
  have hdeadNodup := hs.pending_nodup.filter (not ∘ fun i => found.contains i)
  have hsublist : (a.pending.filter fun i => found.contains i).Sublist a.pending :=
    List.filter_sublist
  generalize a.pending.filter (fun i => found.contains i) = kept at hkept hkeptNodup hsublist ⊢
  generalize a.pending.filter (not ∘ fun i => found.contains i) = dead at hdead hdeadNodup ⊢
  obtain ⟨hfreed, hsound⟩ := hs.free hdeadNodup hkeptNodup
    (fun i => by rw [hkept, hdead]; tauto)
    (fun i hi hdi => ((hdead i).1 hdi).2 ((hkept i).1 hi).2)
    (hfound.parent_not_dead hs hdead)
    (fun hf hi h hh => hfound.value_not_dead hs hdead hf hi hh)
  exact {
    sound := hsound
    names_iff := fun h => hfreed.names_iff.trans (hfound.names_iff hs hdead hheld)
    old := fun {i g} hg => by
      obtain ⟨-, f, hf, hagrees⟩ := hfreed.old i g hg
      exact ⟨f, hf, hagrees⟩
    pending := hfreed.pending ▸ hsublist
    nextSerial := hfreed.nextSerial }

/-- A collection of a sound arena keeps the frames that are reached, and no others. -/
theorem Sound.exists_collect (hs : a.Sound) (hheld : ∀ h ∈ held, a.Names h) :
    ∃ b, a.collect held = .ok b ∧ Collected a held b := by
  obtain ⟨w, hw, hfst, hframes⟩ := hs.exists_waiting
  unfold collect
  by_cases hempty : a.pending.isEmpty = true
  · rw [if_pos hempty]
    exact ⟨a, rfl, hs.collected_of_none_pending hheld (List.isEmpty_iff.1 hempty)⟩
  · rw [if_neg hempty, hw]
    simp only [bind, Except.bind, List.partition_eq_filter_filter]
    exact ⟨_, rfl, hs.collected_of_found hheld (hs.found hfst hframes hheld)⟩

/-! ## Releasing -/

/-- Whether something refers to the frame `f` in a slot when its call returns. -/
def Referred (a : Arena) (held : List Handle) (i : Nat) (f : Frame) : Prop :=
  f.children ≠ 0 ∨ a.outstanding held ⟨i, f.serial⟩ ≠ 0

/-- Whether the end of the call that pushed the frame in a slot makes a collection due. -/
def CollectsAtRelease (a : Arena) (held : List Handle) (i : Nat) : Prop :=
  i ≠ 0 ∧ ∃ f, a.frame i = .ok f ∧ a.Referred held i f ∧ a.threshold ≤ a.pending.length + 1

/-- What the end of the call that pushed the frame in slot `i` makes of an arena. -/
structure Released (a : Arena) (held : List Handle) (i : Nat) (b : Arena) : Prop where
  sound : b.Sound
  /-- All running frames but the released one go on running. -/
  running_iff : ∀ h, b.Running h ↔ h.index ≠ i ∧ a.Running h
  /-- The handles held outside still name their frames. -/
  names : ∀ h ∈ held, b.Names h
  /-- The frames that are left have the names and the parents they had. -/
  old : ∀ {j g}, b.frame j = .ok g → ∃ f, a.frame j = .ok f ∧ f.bindings = g.bindings ∧
    f.parent = g.parent ∧ f.serial = g.serial
  nextSerial : b.nextSerial = a.nextSerial

/-- What agrees with a frame after one has begun to wait agrees with that frame before. -/
theorem old_wait (hf : a.frame i = .ok f) (hk : (a.wait i f).frame j = .ok k)
    (hagrees : k.Agrees g) : ∃ l, a.frame j = .ok l ∧ l.bindings = g.bindings ∧
      l.parent = g.parent ∧ l.serial = g.serial := by
  rcases (frame_wait_iff hf).1 hk with ⟨rfl, rfl⟩ | ⟨-, hk⟩
  · exact ⟨f, hf, hagrees.bindings, hagrees.parent, hagrees.serial⟩
  · exact ⟨k, hk, hagrees.bindings, hagrees.parent, hagrees.serial⟩

/-- The handles in frames are the same when a frame waits. -/
theorem mem_handles_wait_iff (hf : a.frame i = .ok f) :
    h ∈ (a.wait i f).handles ↔ h ∈ a.handles := by
  rw [mem_handles_iff, mem_handles_iff]
  constructor
  · rintro ⟨j, g, hg, hh⟩
    rcases (frame_wait_iff hf).1 hg with ⟨-, rfl⟩ | ⟨-, hg⟩
    · exact ⟨i, f, hf, hh⟩
    · exact ⟨j, g, hg, hh⟩
  · rintro ⟨j, g, hg, hh⟩
    by_cases hj : j = i
    · subst hj
      obtain rfl := frame_inj hf hg
      exact ⟨j, _, (frame_wait_iff hf).2 (.inl ⟨rfl, rfl⟩), hh⟩
    · exact ⟨j, g, (frame_wait_iff hf).2 (.inr ⟨hj, hg⟩), hh⟩

/-- How often a handle is held does not depend on whether a frame waits. -/
theorem outstanding_wait_eq_zero_iff (hf : a.frame i = .ok f) (held : List Handle) (h : Handle) :
    (a.wait i f).outstanding held h = 0 ↔ a.outstanding held h = 0 := by
  unfold outstanding
  simp only [Nat.add_eq_zero_iff, List.count_eq_zero, mem_handles_wait_iff hf]

/-- The release of a frame: what is done depends on whether something refers to it. -/
theorem release_eq (hreclaiming : a.reclaiming = true) (hi : i ≠ 0) (hf : a.frame i = .ok f)
    (held : List Handle) :
    (a.Referred held i f → a.release held i = (a.wait i f).collectIfDue held) ∧
      (¬ a.Referred held i f → a.release held i =
        .ok ((a.putFrame i { f with returned := true }).freeFrame i)) := by
  have hsame := outstanding_wait_eq_zero_iff hf held ⟨i, f.serial⟩
  have hcond : a.Referred held i f ↔
      ¬ (f.children = 0 ∧ (a.wait i f).outstanding held ⟨i, f.serial⟩ = 0) := by
    unfold Referred
    rw [hsame]
    tauto
  have hrelease : a.release held i =
      if f.children = 0 ∧ (a.wait i f).outstanding held ⟨i, f.serial⟩ = 0 then
        .ok ((a.putFrame i { f with returned := true }).freeFrame i)
      else (a.wait i f).collectIfDue held := by
    unfold release
    rw [if_neg hi, hf]
    have hkeeps : (!(a.putFrame i { f with returned := true }).reclaiming) = false := by
      show (!a.reclaiming) = false
      rw [hreclaiming]
      rfl
    simp only [bind, Except.bind, hkeeps, Bool.and_eq_true, decide_eq_true_eq]
    rfl
  rw [hrelease, hcond]
  exact ⟨fun h => if_neg h, fun h => if_pos (not_not.1 h)⟩

/-- The collection that is due when enough frames wait. -/
theorem collectIfDue_eq (hb : a.collect held = .ok b) : a.collectIfDue held =
    .ok (if a.pending.length < a.threshold then a
      else { b with threshold := max (2 * b.pending.length) minThreshold }) := by
  unfold collectIfDue
  rw [hb]
  split
  · rfl
  · rfl

/-- The books on when to collect matter to nothing else. -/
theorem Sound.withThreshold (hs : a.Sound) (n : Nat) : ({ a with threshold := n } : Arena).Sound :=
  ⟨hs.reclaiming, hs.global, hs.parent_there, hs.names, hs.serial_lt, hs.serial_inj,
    hs.mem_pending_iff, hs.pending_nodup, hs.mem_free_iff, hs.free_nodup, hs.children_eq⟩

theorem Collected.withThreshold (hc : Collected a held b) (n : Nat) :
    Collected a held { b with threshold := n } :=
  ⟨hc.sound.withThreshold n, hc.names_iff, hc.old, hc.pending, hc.nextSerial⟩

/-- Freeing a frame at once, when nothing refers to it. -/
theorem Sound.released_of_not_referred (hs : a.Sound) (hheld : ∀ h ∈ held, a.Names h)
    (hi : i ≠ 0) (hf : a.frame i = .ok f) (hrunning : f.returned = false)
    (hnone : ¬ a.Referred held i f) :
    Released a held i ((a.putFrame i { f with returned := true }).freeFrame i) := by
  obtain ⟨hchildren, hout⟩ := not_or.1 hnone
  rw [not_not] at hchildren hout
  unfold outstanding at hout
  rw [Nat.add_eq_zero_iff, List.count_eq_zero, List.count_eq_zero] at hout
  have hw := hs.wait hf hi hrunning
  have hwf : (a.wait i f).frame i = .ok { f with returned := true } :=
    (frame_wait_iff hf).2 (.inl ⟨rfl, rfl⟩)
  have hnot : i ∉ a.pending := by
    have hnodup : (a.pending ++ [i]).Nodup := hw.pending_nodup
    intro h
    exact (List.nodup_append.1 hnodup).2.2 i h i (List.mem_singleton_self i) rfl
  have hbare : (a.wait i f).childrenOf i = ∅ := by
    rw [← Finset.card_eq_zero, ← hw.children_eq hwf]
    exact hchildren
  obtain ⟨hfreed, hsound⟩ := hw.free (List.nodup_singleton i) hs.pending_nodup
    (fun j => List.mem_append) (fun j hj hji => hnot (List.mem_singleton.1 hji ▸ hj))
    (fun {j g p} hg _ hp hpi => by
      rw [List.mem_singleton] at hpi
      subst hpi
      have hmem := mem_childrenOf_iff.2 ⟨g, hg, hp⟩
      rw [hbare] at hmem
      exact absurd hmem (Finset.notMem_empty j))
    (fun {j g} hg _ h hh hhi => by
      rw [List.mem_singleton] at hhi
      have heq : h = ⟨i, f.serial⟩ := (hw.names hg h hh).eq_of_index_eq ⟨_, hwf, rfl⟩ hhi
      refine hout.1 ((mem_handles_wait_iff hf).1 ?_)
      rw [← heq]
      exact mem_handles_iff.2 ⟨j, g, hg, hh⟩)
  refine ⟨hsound, fun h => ?_, fun h hh => ?_, fun {j g} hg => ?_, hfreed.nextSerial⟩
  · refine hfreed.running_iff.trans ?_
    rw [List.mem_singleton]
    show h.index ≠ i ∧ (a.wait i f).Running h ↔ _
    rw [running_wait_iff hf]
    tauto
  · have hn := hheld h hh
    refine hfreed.names_iff.2 ⟨?_, (names_wait_iff hf).2 hn⟩
    rw [List.mem_singleton]
    intro hhi
    have heq := hn.eq_handle hf hhi
    exact hout.2 (heq ▸ hh)
  · obtain ⟨-, k, hk, hagrees⟩ := hfreed.old j g hg
    exact old_wait hf hk hagrees

/-- The end of a call: its frame is running no more, the arena is sound, and what is held outside
stays.  If a collection is due, its result is what the arena becomes. -/
theorem Sound.exists_release (hs : a.Sound) (hheld : ∀ h ∈ held, a.Names h) (hi : i ≠ 0)
    (hf : a.frame i = .ok f) (hrunning : f.returned = false) :
    ∃ b, a.release held i = .ok b ∧ Released a held i b ∧
      (a.CollectsAtRelease held i → Collected (a.wait i f) held b) := by
  obtain ⟨hwait, hfree⟩ := release_eq hs.reclaiming hi hf held
  by_cases hreferred : a.Referred held i f
  · have hw := hs.wait hf hi hrunning
    obtain ⟨c, hc, hcollected⟩ :=
      hw.exists_collect fun h hh => (names_wait_iff hf).2 (hheld h hh)
    rw [hwait hreferred, collectIfDue_eq hc]
    refine ⟨_, rfl, ?_, ?_⟩
    · split
      · exact ⟨hw, fun h => running_wait_iff hf, fun h hh => (names_wait_iff hf).2 (hheld h hh),
          fun hg => old_wait hf hg (.refl _), rfl⟩
      · refine ⟨(hcollected.withThreshold _).sound, fun h => ?_, fun h hh => ?_,
          fun {j g} hg => ?_, hcollected.nextSerial⟩
        · exact hcollected.running_iff.trans (running_wait_iff hf)
        · exact (hcollected.names_iff h).2 (.root (.inr hh))
        · obtain ⟨k, hk, hagrees⟩ := hcollected.old hg
          exact old_wait hf hk hagrees
    · rintro ⟨-, g, hg, -, hdue⟩
      have hlong : ¬ (a.wait i f).pending.length < (a.wait i f).threshold := by
        show ¬ (a.pending ++ [i]).length < a.threshold
        rw [List.length_append]
        exact Nat.not_lt.2 hdue
      rw [if_neg hlong]
      exact hcollected.withThreshold _
  · rw [hfree hreferred]
    refine ⟨_, rfl, hs.released_of_not_referred hheld hi hf hrunning hreferred, ?_⟩
    rintro ⟨-, g, hg, hgr, -⟩
    obtain rfl := frame_inj hf hg
    exact absurd hgr hreferred

end Arena

end UniformScript
