import UniformScript.Proofs.Arena.Frames

/-!
# Sound arenas

In a sound arena every handle and every link to a parent leads to a frame that is there, no two
frames have the same serial number, and the books agree with the frames: the waiting slots are
those of the frames that have returned, the free slots are the empty ones, and every frame counts
its children.

* `sound_start`: an arena with only a global frame is sound.
* `Sound.exists_push`, `Sound.exists_set`, `Sound.exists_reassign`, `Sound.exists_get`: these
  operations give a result when they name frames that are there, and the arena stays sound.
* `Sound.wait`: so it does when a running frame returns and starts to wait.
* `Sound.free`: and when waiting frames are freed that nothing left behind leads to.
-/

namespace UniformScript

namespace Arena

variable {a b : Arena} {i j p : Nat} {f g k : Frame} {h : Handle}

/-- The frame that the handle was taken on is there, and its call has not returned. -/
def Running (a : Arena) (h : Handle) : Prop :=
  ∃ f, a.frame h.index = .ok f ∧ f.serial = h.serial ∧ f.returned = false

theorem Running.names (hr : a.Running h) : a.Names h := by
  obtain ⟨f, hf, hserial, -⟩ := hr
  exact ⟨f, hf, hserial⟩

/-- What holds of an arena between any two operations on it. -/
structure Sound (a : Arena) : Prop where
  /-- The arena frees frames. -/
  reclaiming : a.reclaiming = true
  /-- The first slot holds the global frame, which has no parent and does not return. -/
  global : ∃ f, a.frame 0 = .ok f ∧ f.serial = 0 ∧ f.parent = none ∧ f.returned = false
  /-- The parent of a frame is there, and older. -/
  parent_there : ∀ {i f p}, a.frame i = .ok f → f.parent = some p →
    ∃ g, a.frame p = .ok g ∧ g.serial < f.serial
  /-- The handles that a frame holds name frames. -/
  names : ∀ {i f}, a.frame i = .ok f → ∀ h ∈ f.handles, a.Names h
  /-- Serial numbers have all been given out. -/
  serial_lt : ∀ {i f}, a.frame i = .ok f → f.serial < a.nextSerial
  /-- No two frames have the same serial number. -/
  serial_inj : ∀ {i j f g}, a.frame i = .ok f → a.frame j = .ok g → f.serial = g.serial → i = j
  /-- The waiting slots are those of the frames that have returned. -/
  mem_pending_iff : ∀ {i}, i ∈ a.pending ↔ ∃ f, a.frame i = .ok f ∧ f.returned = true
  pending_nodup : a.pending.Nodup
  /-- The free slots are the empty ones. -/
  mem_free_iff : ∀ {i}, i ∈ a.free ↔ i < a.frames.size ∧ ∀ f, a.frame i ≠ .ok f
  free_nodup : a.free.Nodup
  /-- A frame counts its children. -/
  children_eq : ∀ {i f}, a.frame i = .ok f → f.children = (a.childrenOf i).card

theorem Sound.names_handles (hs : a.Sound) : ∀ h ∈ a.handles, a.Names h := by
  intro h hh
  obtain ⟨i, f, hf, hmem⟩ := mem_handles_iff.1 hh
  exact hs.names hf h hmem

theorem Sound.running_global (hs : a.Sound) : a.Running ⟨0, 0⟩ := by
  obtain ⟨f, hf, hserial, -, hreturned⟩ := hs.global
  exact ⟨f, hf, hserial, hreturned⟩

/-- Handles on the same slot that both name its frame are the same handle. -/
theorem Names.eq_of_index_eq {h' : Handle} (hn : a.Names h) (hn' : a.Names h')
    (hindex : h.index = h'.index) : h = h' := by
  obtain ⟨f, hf, hserial⟩ := hn
  obtain ⟨g, hg, hserial'⟩ := hn'
  rw [hindex] at hf
  obtain rfl := frame_inj hf hg
  cases h
  cases h'
  simp only at hindex hserial hserial'
  rw [hindex, ← hserial, ← hserial']

/-- A handle that names the frame in a slot is the handle on that frame. -/
theorem Names.eq_handle (hn : a.Names h) (hf : a.frame i = .ok f) (hi : h.index = i) :
    h = ⟨i, f.serial⟩ :=
  hn.eq_of_index_eq ⟨f, hf, rfl⟩ hi

/-! ## The start -/

theorem frame_start_iff {globals : Bindings} {reclaiming : Bool} :
    (start reclaiming globals).frame i = .ok f ↔ i = 0 ∧ f = ⟨globals, none, 0, 0, false⟩ := by
  rw [frame_eq_ok_iff]
  unfold start
  cases i with
  | zero => simp [eq_comm]
  | succ i => simp

theorem sound_start {globals : Bindings} (hglobals : ∀ b ∈ globals, b.2.handles = []) :
    (start true globals).Sound where
  reclaiming := rfl
  global := ⟨_, frame_start_iff.2 ⟨rfl, rfl⟩, rfl, rfl, rfl⟩
  parent_there hf hp := by
    obtain ⟨-, rfl⟩ := frame_start_iff.1 hf
    cases hp
  names hf h hh := by
    obtain ⟨-, rfl⟩ := frame_start_iff.1 hf
    have hhandles : (⟨globals, none, 0, 0, false⟩ : Frame).handles = [] :=
      List.flatMap_eq_nil_iff.2 hglobals
    rw [hhandles] at hh
    cases hh
  serial_lt hf := by
    obtain ⟨-, rfl⟩ := frame_start_iff.1 hf
    exact Nat.zero_lt_one
  serial_inj hf hg _ := by
    obtain ⟨rfl, -⟩ := frame_start_iff.1 hf
    obtain ⟨rfl, -⟩ := frame_start_iff.1 hg
    rfl
  mem_pending_iff := by
    refine ⟨nofun, ?_⟩
    rintro ⟨f, hf, hreturned⟩
    obtain ⟨-, rfl⟩ := frame_start_iff.1 hf
    cases hreturned
  pending_nodup := .nil
  mem_free_iff {i} := by
    refine ⟨nofun, ?_⟩
    rintro ⟨hi, hempty⟩
    obtain rfl : i = 0 := Nat.lt_one_iff.1 hi
    exact absurd (frame_start_iff.2 ⟨rfl, rfl⟩) (hempty _)
  free_nodup := .nil
  children_eq hf := by
    obtain ⟨-, rfl⟩ := frame_start_iff.1 hf
    refine (Finset.card_eq_zero.2 (Finset.eq_empty_of_forall_notMem fun j hj => ?_)).symm
    obtain ⟨g, hg, hparent⟩ := mem_childrenOf_iff.1 hj
    obtain ⟨-, rfl⟩ := frame_start_iff.1 hg
    cases hparent

/-! ## Pushing -/

theorem Pushed.names_iff {parent : Option Nat} (hp : Pushed a parent i b) :
    b.Names h ↔ h = ⟨i, a.nextSerial⟩ ∨ a.Names h := by
  constructor
  · rintro ⟨f, hf, hserial⟩
    rcases hp.frame_iff.1 hf with ⟨hi, rfl⟩ | ⟨-, g, hg, rfl⟩
    · left
      cases h
      simp only at hi hserial
      rw [hi, hserial]
    · exact .inr ⟨g, hg, hserial⟩
  · rintro (rfl | ⟨f, hf, hserial⟩)
    · exact ⟨_, hp.frame_iff.2 (.inl ⟨rfl, rfl⟩), rfl⟩
    · have hne : h.index ≠ i := fun hi => hp.vacant f (hi ▸ hf)
      exact ⟨_, hp.frame_iff.2 (.inr ⟨hne, f, hf, rfl⟩), hserial⟩

theorem Pushed.running_iff {parent : Option Nat} (hp : Pushed a parent i b) :
    b.Running h ↔ h = ⟨i, a.nextSerial⟩ ∨ a.Running h := by
  constructor
  · rintro ⟨f, hf, hserial, hreturned⟩
    rcases hp.frame_iff.1 hf with ⟨hi, rfl⟩ | ⟨-, g, hg, rfl⟩
    · left
      cases h
      simp only at hi hserial
      rw [hi, hserial]
    · exact .inr ⟨g, hg, hserial, hreturned⟩
  · rintro (rfl | ⟨f, hf, hserial, hreturned⟩)
    · exact ⟨_, hp.frame_iff.2 (.inl ⟨rfl, rfl⟩), rfl, rfl⟩
    · have hne : h.index ≠ i := fun hi => hp.vacant f (hi ▸ hf)
      exact ⟨_, hp.frame_iff.2 (.inr ⟨hne, f, hf, rfl⟩), hserial, hreturned⟩

/-- The children of a slot after a push: one more if it is the parent. -/
theorem Pushed.card_childrenOf {parent : Option Nat} (hp : Pushed a parent i b) (j : Nat) :
    (b.childrenOf j).card = (a.childrenOf j).card + once parent j := by
  have hold (l : Nat) (hl : l ≠ i) : l ∈ b.childrenOf j ↔ l ∈ a.childrenOf j := by
    rw [mem_childrenOf_iff, mem_childrenOf_iff]
    constructor
    · rintro ⟨f, hf, hparent⟩
      rcases hp.frame_iff.1 hf with ⟨hi, -⟩ | ⟨-, g, hg, rfl⟩
      · exact absurd hi hl
      · exact ⟨g, hg, hparent⟩
    · rintro ⟨f, hf, hparent⟩
      exact ⟨_, hp.frame_iff.2 (.inr ⟨hl, f, hf, rfl⟩), hparent⟩
  have hvacant : i ∉ a.childrenOf j := by
    intro hi
    obtain ⟨f, hf, -⟩ := mem_childrenOf_iff.1 hi
    exact hp.vacant f hf
  have hnew : i ∈ b.childrenOf j ↔ parent = some j := by
    rw [mem_childrenOf_iff]
    constructor
    · rintro ⟨f, hf, hparent⟩
      rcases hp.frame_iff.1 hf with ⟨-, rfl⟩ | ⟨hne, -⟩
      · exact hparent
      · exact absurd rfl hne
    · intro hparent
      exact ⟨_, hp.frame_iff.2 (.inl ⟨rfl, rfl⟩), hparent⟩
  unfold once
  split
  · rename_i hparent
    rw [← Finset.card_insert_of_notMem hvacant]
    congr 1
    ext l
    rw [Finset.mem_insert]
    by_cases hl : l = i
    · subst hl
      simp [hnew, hparent]
    · simp [hl, hold l hl]
  · rename_i hparent
    rw [Nat.add_zero]
    congr 1
    ext l
    by_cases hl : l = i
    · subst hl
      simp [hnew, hparent, hvacant]
    · exact hold l hl

/-- A frame that was there stays, with one child more if it is the parent. -/
theorem Pushed.frame_of_frame {parent : Option Nat} (hp : Pushed a parent i b)
    (hf : a.frame j = .ok f) : b.frame j = .ok (f.plus (once parent j)) :=
  hp.frame_iff.2 (.inr ⟨fun hj => hp.vacant f (hj ▸ hf), f, hf, rfl⟩)

/-- The slots that are empty after a push were empty, and are not the one of the new frame. -/
theorem Pushed.empty_iff {parent : Option Nat} (hp : Pushed a parent i b) :
    (∀ f, b.frame j ≠ .ok f) ↔ j ≠ i ∧ ∀ f, a.frame j ≠ .ok f := by
  constructor
  · intro he
    refine ⟨fun hj => he _ (hp.frame_iff.2 (.inl ⟨hj, rfl⟩)), fun f hf => ?_⟩
    exact he _ (hp.frame_of_frame hf)
  · rintro ⟨hj, he⟩ f hf
    rcases hp.frame_iff.1 hf with ⟨hji, -⟩ | ⟨-, g, hg, -⟩
    · exact hj hji
    · exact he g hg

theorem Pushed.free_nodup {parent : Option Nat} (hp : Pushed a parent i b)
    (hnodup : a.free.Nodup) : b.free.Nodup := by
  rcases hp.slot with ⟨hfree, -⟩ | ⟨-, hfree, -⟩
  · rw [hfree] at hnodup
    exact (List.nodup_cons.1 hnodup).2
  · rw [hfree]
    exact .nil

/-- The new frame takes the first of the free slots, or there are none and it takes a new one. -/
theorem Pushed.mem_free_iff {parent : Option Nat} (hp : Pushed a parent i b) (hs : a.Sound) :
    j ∈ b.free ↔ j < b.frames.size ∧ ∀ f, b.frame j ≠ .ok f := by
  have hmem := hs.mem_free_iff (i := j)
  rw [hp.empty_iff]
  rcases hp.slot with ⟨hfree, hsize⟩ | ⟨hfree, hfree', rfl, hsize⟩
  · have hnodup := hs.free_nodup
    rw [hfree] at hnodup
    obtain ⟨hi, -⟩ := List.nodup_cons.1 hnodup
    rw [hfree, List.mem_cons] at hmem
    rw [hsize]
    constructor
    · intro hj
      obtain ⟨hlt, he⟩ := hmem.1 (.inr hj)
      exact ⟨hlt, fun h => hi (h ▸ hj), he⟩
    · rintro ⟨hlt, hne, he⟩
      exact (hmem.2 ⟨hlt, he⟩).resolve_left hne
  · rw [hfree] at hmem
    rw [hfree', hsize]
    refine ⟨nofun, ?_⟩
    rintro ⟨hlt, hne, he⟩
    exact absurd (hmem.2 ⟨by omega, he⟩) List.not_mem_nil

/-- No frame has an empty slot for its parent. -/
theorem Sound.childrenOf_vacant (hs : a.Sound) (hi : ∀ f, a.frame i ≠ .ok f) :
    a.childrenOf i = ∅ := by
  refine Finset.eq_empty_of_forall_notMem fun j hj => ?_
  obtain ⟨f, hf, hparent⟩ := mem_childrenOf_iff.1 hj
  obtain ⟨g, hg, -⟩ := hs.parent_there hf hparent
  exact hi g hg

theorem Pushed.children_eq {parent : Option Nat} (hp : Pushed a parent i b) (hs : a.Sound)
    (hparent : ∀ p ∈ parent, ∃ f, a.frame p = .ok f) (hf : b.frame j = .ok f) :
    f.children = (b.childrenOf j).card := by
  rw [hp.card_childrenOf]
  rcases hp.frame_iff.1 hf with ⟨rfl, rfl⟩ | ⟨-, g, hg, rfl⟩
  · -- the slot was empty, and its new frame has no child yet
    have hother : once parent j = 0 := by
      unfold once
      rw [if_neg]
      rintro rfl
      obtain ⟨g, hg⟩ := hparent j rfl
      exact hp.vacant g hg
    rw [hs.childrenOf_vacant hp.vacant, hother]
    rfl
  · show g.children + once parent j = _
    rw [hs.children_eq hg]

/-- An arena is sound after a push under a parent that is there. -/
theorem Sound.of_pushed {parent : Option Nat} (hs : a.Sound) (hp : Pushed a parent i b)
    (hparent : ∀ p ∈ parent, ∃ f, a.frame p = .ok f) : b.Sound where
  reclaiming := hp.reclaiming.trans hs.reclaiming
  global := by
    obtain ⟨f, hf, hserial, hnone, hreturned⟩ := hs.global
    exact ⟨_, hp.frame_of_frame hf, hserial, hnone, hreturned⟩
  parent_there hf hfp := by
    rcases hp.frame_iff.1 hf with ⟨-, rfl⟩ | ⟨-, g, hg, rfl⟩
    · obtain ⟨g, hg⟩ := hparent _ hfp
      have hlt := hs.serial_lt hg
      exact ⟨_, hp.frame_of_frame hg, hlt⟩
    · obtain ⟨k, hk, hlt⟩ := hs.parent_there hg hfp
      exact ⟨_, hp.frame_of_frame hk, hlt⟩
  names hf h hh := by
    rcases hp.frame_iff.1 hf with ⟨-, rfl⟩ | ⟨-, g, hg, rfl⟩
    · cases hh
    · exact hp.names_iff.2 (.inr (hs.names hg h hh))
  serial_lt hf := by
    rw [hp.nextSerial]
    rcases hp.frame_iff.1 hf with ⟨-, rfl⟩ | ⟨-, g, hg, rfl⟩
    · exact Nat.lt_succ_self _
    · have hlt := hs.serial_lt hg
      exact Nat.lt_succ_of_lt hlt
  serial_inj hf hg hserial := by
    -- the number of the new frame is larger than those of all others
    rcases hp.frame_iff.1 hf with ⟨rfl, rfl⟩ | ⟨-, k, hk, rfl⟩ <;>
      rcases hp.frame_iff.1 hg with ⟨rfl, rfl⟩ | ⟨-, m, hm, rfl⟩
    · rfl
    · have hlt := hs.serial_lt hm
      exact absurd hserial (Nat.ne_of_gt hlt)
    · have hlt := hs.serial_lt hk
      exact absurd hserial (Nat.ne_of_lt hlt)
    · exact hs.serial_inj hk hm hserial
  mem_pending_iff {j} := by
    rw [hp.pending, hs.mem_pending_iff]
    constructor
    · rintro ⟨f, hf, hreturned⟩
      exact ⟨_, hp.frame_of_frame hf, hreturned⟩
    · rintro ⟨f, hf, hreturned⟩
      rcases hp.frame_iff.1 hf with ⟨-, rfl⟩ | ⟨-, g, hg, rfl⟩
      · cases hreturned
      · exact ⟨g, hg, hreturned⟩
  pending_nodup := hp.pending ▸ hs.pending_nodup
  mem_free_iff := hp.mem_free_iff hs
  free_nodup := hp.free_nodup hs.free_nodup
  children_eq hf := hp.children_eq hs hparent hf

/-- A push under a parent that is there. -/
theorem Sound.exists_push {parent : Option Nat} (hs : a.Sound)
    (hparent : ∀ p ∈ parent, ∃ f, a.frame p = .ok f) :
    ∃ i b, a.push parent = .ok (i, b) ∧ Pushed a parent i b ∧ b.Sound := by
  obtain ⟨i, b, hpush, hp⟩ := Arena.exists_push hparent fun i hi => hs.mem_free_iff.1 hi
  exact ⟨i, b, hpush, hp, hs.of_pushed hp hparent⟩

/-! ## Taking handles -/

theorem handle_eq (hf : a.frame i = .ok f) : a.handle i = .ok ⟨i, f.serial⟩ := by
  unfold handle
  rw [hf]
  rfl

/-! ## Changing a frame -/

/-- The arenas hold the same frames, and the same of them run. -/
structure SameFrames (a b : Arena) : Prop where
  names_iff : ∀ h, b.Names h ↔ a.Names h
  running_iff : ∀ h, b.Running h ↔ a.Running h
  nextSerial : b.nextSerial = a.nextSerial

theorem SameFrames.refl (a : Arena) : SameFrames a a := ⟨fun _ => .rfl, fun _ => .rfl, rfl⟩

theorem SameFrames.trans {c : Arena} (h : SameFrames a b) (h' : SameFrames b c) :
    SameFrames a c where
  names_iff k := (h'.names_iff k).trans (h.names_iff k)
  running_iff k := (h'.running_iff k).trans (h.running_iff k)
  nextSerial := h'.nextSerial.trans h.nextSerial

theorem names_putFrame_iff (hf : a.frame i = .ok f) (hserial : g.serial = f.serial) :
    (a.putFrame i g).Names h ↔ a.Names h := by
  constructor
  · rintro ⟨k, hk, hks⟩
    rcases (frame_putFrame_iff hf).1 hk with ⟨hi, rfl⟩ | ⟨-, hk⟩
    · exact ⟨f, hi ▸ hf, hserial ▸ hks⟩
    · exact ⟨k, hk, hks⟩
  · rintro ⟨k, hk, hks⟩
    by_cases hi : h.index = i
    · rw [hi] at hk
      obtain rfl := frame_inj hf hk
      exact ⟨g, (frame_putFrame_iff hf).2 (.inl ⟨hi, rfl⟩), hserial.trans hks⟩
    · exact ⟨k, (frame_putFrame_iff hf).2 (.inr ⟨hi, hk⟩), hks⟩

section

/-! A frame is put in the place of another with the same parent, serial number and count of
children. -/

variable (hf : a.frame i = .ok f) (hparent : g.parent = f.parent)
  (hserial : g.serial = f.serial)
include hf hparent hserial

/-- A frame of the new arena has the parent, the number and the count of the one it stands for. -/
theorem frame_before_put (hchildren : g.children = f.children)
    (hk : (a.putFrame i g).frame j = .ok k) : ∃ l, a.frame j = .ok l ∧
      k.parent = l.parent ∧ k.serial = l.serial ∧ k.children = l.children := by
  rcases (frame_putFrame_iff hf).1 hk with ⟨rfl, rfl⟩ | ⟨-, hk⟩
  · exact ⟨f, hf, hparent, hserial, hchildren⟩
  · exact ⟨k, hk, rfl, rfl, rfl⟩

theorem frame_after_put {l : Frame} (hl : a.frame j = .ok l) :
    ∃ k, (a.putFrame i g).frame j = .ok k ∧ k.parent = l.parent ∧ k.serial = l.serial := by
  by_cases hj : j = i
  · subst hj
    obtain rfl := frame_inj hf hl
    exact ⟨g, (frame_putFrame_iff hf).2 (.inl ⟨rfl, rfl⟩), hparent, hserial⟩
  · exact ⟨l, (frame_putFrame_iff hf).2 (.inr ⟨hj, hl⟩), rfl, rfl⟩

theorem childrenOf_putFrame (hchildren : g.children = f.children) (j : Nat) :
    (a.putFrame i g).childrenOf j = a.childrenOf j := by
  refine childrenOf_congr fun m => ?_
  constructor
  · rintro ⟨n, hn, hnparent⟩
    obtain ⟨l, hl, hlparent, -⟩ := frame_before_put hf hparent hserial hchildren hn
    exact ⟨l, hl, hlparent ▸ hnparent⟩
  · rintro ⟨n, hn, hnparent⟩
    obtain ⟨l, hl, hlparent, -⟩ := frame_after_put hf hparent hserial hn
    exact ⟨l, hl, hlparent.trans hnparent⟩

/-- An arena stays sound if the handles of the new frame are on frames that are there. -/
theorem Sound.put {pending : List Nat} (hs : a.Sound) (hchildren : g.children = f.children)
    (hnames : ∀ h ∈ g.handles, a.Names h) (hglobal : i = 0 → g.returned = false)
    (hpending : ∀ j, j ∈ pending ↔ ∃ k, (a.putFrame i g).frame j = .ok k ∧ k.returned = true)
    (hnodup : pending.Nodup) : ({ a.putFrame i g with pending } : Arena).Sound where
  reclaiming := hs.reclaiming
  global := by
    obtain ⟨l, hl, hzero, hnone, hreturned⟩ := hs.global
    by_cases hi : (0 : Nat) = i
    · subst hi
      obtain rfl := frame_inj hf hl
      exact ⟨g, (frame_putFrame_iff hf).2 (.inl ⟨rfl, rfl⟩), hserial.trans hzero,
        hparent.trans hnone, hglobal rfl⟩
    · exact ⟨l, (frame_putFrame_iff hf).2 (.inr ⟨hi, hl⟩), hzero, hnone, hreturned⟩
  parent_there hk hkp := by
    obtain ⟨l, hl, hlparent, hlserial, -⟩ := frame_before_put hf hparent hserial hchildren hk
    obtain ⟨m, hm, hlt⟩ := hs.parent_there hl (hlparent ▸ hkp)
    obtain ⟨n, hn, -, hnserial⟩ := frame_after_put hf hparent hserial hm
    exact ⟨n, hn, by rw [hnserial, hlserial]; exact hlt⟩
  names hk h hh := by
    refine (names_putFrame_iff hf hserial).2 ?_
    rcases (frame_putFrame_iff hf).1 hk with ⟨rfl, rfl⟩ | ⟨-, hk⟩
    · exact hnames h hh
    · exact hs.names hk h hh
  serial_lt hk := by
    obtain ⟨l, hl, -, hlserial, -⟩ := frame_before_put hf hparent hserial hchildren hk
    rw [hlserial]
    exact hs.serial_lt hl
  serial_inj hk hn hkn := by
    obtain ⟨l, hl, -, hlserial, -⟩ := frame_before_put hf hparent hserial hchildren hk
    obtain ⟨o, ho, -, hoserial, -⟩ := frame_before_put hf hparent hserial hchildren hn
    exact hs.serial_inj hl ho (by rw [← hlserial, ← hoserial]; exact hkn)
  mem_pending_iff := hpending _
  pending_nodup := hnodup
  mem_free_iff {j} := by
    have hempty : (∀ k, (a.putFrame i g).frame j ≠ .ok k) ↔ ∀ l, a.frame j ≠ .ok l := by
      constructor
      · intro he l hl
        obtain ⟨k, hk, -⟩ := frame_after_put hf hparent hserial hl
        exact he k hk
      · intro he k hk
        obtain ⟨l, hl, -⟩ := frame_before_put hf hparent hserial hchildren hk
        exact he l hl
    refine hs.mem_free_iff.trans ?_
    rw [← hempty, ← (sameBooks_putFrame a i g).size]
    rfl
  free_nodup := hs.free_nodup
  children_eq {j _} hk := by
    obtain ⟨l, hl, -, -, hlchildren⟩ := frame_before_put hf hparent hserial hchildren hk
    rw [hlchildren, hs.children_eq hl]
    exact congrArg _ (childrenOf_putFrame hf hparent hserial hchildren j).symm

end

/-! ### Bindings -/

/-- Another value for a name: what is bound then was bound before, or is that value. -/
theorem mem_put {name : String} {v : Value} {bs : Bindings} {p : String × Value}
    (hp : p ∈ bs.put name v) : p ∈ bs ∨ p.2 = v := by
  induction bs with
  | nil =>
    obtain rfl := List.mem_singleton.1 hp
    exact .inr rfl
  | cons q bs ih =>
    obtain ⟨n, w⟩ := q
    unfold Bindings.put at hp
    split at hp
    · rcases List.mem_cons.1 hp with rfl | hp
      · exact .inr rfl
      · exact .inl (List.mem_cons_of_mem _ hp)
    · rcases List.mem_cons.1 hp with rfl | hp
      · exact .inl List.mem_cons_self
      · exact (ih hp).imp_left (List.mem_cons_of_mem _)

theorem set_eq {name : String} {v : Value} (hf : a.frame i = .ok f) :
    a.set i name v = .ok (a.putFrame i { f with bindings := f.bindings.put name v }) := by
  unfold set
  rw [hf]
  rfl

theorem sameFrames_putFrame (hf : a.frame i = .ok f) (hserial : g.serial = f.serial)
    (hreturned : g.returned = f.returned) : SameFrames a (a.putFrame i g) := by
  refine ⟨fun h => names_putFrame_iff hf hserial, fun h => ?_, rfl⟩
  constructor
  · rintro ⟨k, hk, hks, hkr⟩
    rcases (frame_putFrame_iff hf).1 hk with ⟨hi, rfl⟩ | ⟨-, hk⟩
    · exact ⟨f, hi ▸ hf, hserial ▸ hks, hreturned ▸ hkr⟩
    · exact ⟨k, hk, hks, hkr⟩
  · rintro ⟨k, hk, hks, hkr⟩
    by_cases hi : h.index = i
    · rw [hi] at hk
      obtain rfl := frame_inj hf hk
      exact ⟨g, (frame_putFrame_iff hf).2 (.inl ⟨hi, rfl⟩), hserial.trans hks,
        hreturned.trans hkr⟩
    · exact ⟨k, (frame_putFrame_iff hf).2 (.inr ⟨hi, hk⟩), hks, hkr⟩

/-- Binding a name in a frame that is there to a value whose handles name frames. -/
theorem Sound.exists_set {v : Value} (hs : a.Sound) (hf : a.frame i = .ok f)
    (hv : ∀ h ∈ v.handles, a.Names h) (name : String) :
    ∃ b, a.set i name v = .ok b ∧ SameFrames a b ∧ b.Sound := by
  let g : Frame := { f with bindings := f.bindings.put name v }
  have hsame := sameFrames_putFrame (g := g) hf rfl rfl
  refine ⟨_, set_eq hf, hsame, Sound.put (g := g) hf rfl rfl hs rfl ?_ ?_ ?_ hs.pending_nodup⟩
  · intro h hh
    obtain ⟨p, hp, hh⟩ := List.mem_flatMap.1 hh
    rcases mem_put hp with hp | hp
    · exact hs.names hf h (List.mem_flatMap.2 ⟨p, hp, hh⟩)
    · exact hv h (hp ▸ hh)
  · rintro rfl
    obtain ⟨k, hk, -, -, hreturned⟩ := hs.global
    obtain rfl := frame_inj hf hk
    exact hreturned
  · intro j
    rw [hs.mem_pending_iff]
    constructor
    · rintro ⟨k, hk, hreturned⟩
      by_cases hj : j = i
      · subst hj
        obtain rfl := frame_inj hf hk
        exact ⟨g, (frame_putFrame_iff hf).2 (.inl ⟨rfl, rfl⟩), hreturned⟩
      · exact ⟨k, (frame_putFrame_iff hf).2 (.inr ⟨hj, hk⟩), hreturned⟩
    · rintro ⟨k, hk, hreturned⟩
      rcases (frame_putFrame_iff hf).1 hk with ⟨rfl, rfl⟩ | ⟨-, hk⟩
      · exact ⟨f, hf, hreturned⟩
      · exact ⟨k, hk, hreturned⟩

/-- The frame where a name is given another value is there. -/
theorem Sound.exists_binder (hs : a.Sound) (hf : a.frame i = .ok f) (name : String) :
    ∃ r, a.binder i name = .ok r ∧ ∀ j ∈ r, ∃ g, a.frame j = .ok g := by
  unfold binder
  rw [hf]
  simp only [bind, Except.bind]
  split
  · exact ⟨some i, rfl, by rintro j ⟨⟩; exact ⟨f, hf⟩⟩
  · cases hp : f.parent with
    | none => exact ⟨none, rfl, nofun⟩
    | some p =>
      obtain ⟨g, hg, -⟩ := hs.parent_there hf hp
      simp only [hg]
      split
      · exact ⟨some p, rfl, by rintro j ⟨⟩; exact ⟨g, hg⟩⟩
      · exact ⟨none, rfl, nofun⟩

theorem Sound.exists_reassign {v : Value} (hs : a.Sound) (hf : a.frame i = .ok f)
    (hv : ∀ h ∈ v.handles, a.Names h) (name : String) :
    ∃ r b, a.reassign i name v = .ok (r, b) ∧ SameFrames a b ∧ b.Sound := by
  obtain ⟨r, hr, hthere⟩ := hs.exists_binder hf name
  unfold reassign
  rw [hr]
  cases r with
  | none => exact ⟨false, a, rfl, .refl a, hs⟩
  | some j =>
    obtain ⟨g, hg⟩ := hthere j rfl
    obtain ⟨b, hb, hsame, hsound⟩ := hs.exists_set hg hv name
    refine ⟨true, b, ?_, hsame, hsound⟩
    simp only [bind, Except.bind, hb]
    rfl

/-- Looking a name up in a frame that is there: a value that is found is bound in some frame. -/
theorem Sound.exists_lookup (hs : a.Sound) (hf : a.frame i = .ok f) (name : String) (fuel : Nat) :
    ∃ r, a.lookup fuel i name = .ok r ∧ ∀ v ∈ r, ∀ h ∈ v.handles, a.Names h := by
  induction fuel generalizing i f with
  | zero => exact ⟨none, rfl, nofun⟩
  | succ fuel ih =>
    unfold lookup
    simp only [hf]
    cases hv : f.bindings.lookup name with
    | some v =>
      refine ⟨some v, rfl, ?_⟩
      rintro _ ⟨⟩ h hh
      have hmem : (name, v) ∈ f.bindings := by
        obtain ⟨l₁, l₂, hbs, -⟩ := List.lookup_eq_some_iff.1 hv
        rw [hbs]
        simp
      exact hs.names hf h (List.mem_flatMap.2 ⟨_, hmem, hh⟩)
    | none =>
      cases hp : f.parent with
      | none => exact ⟨none, rfl, nofun⟩
      | some p =>
        obtain ⟨g, hg, -⟩ := hs.parent_there hf hp
        exact ih hg

theorem Sound.exists_get (hs : a.Sound) (hf : a.frame i = .ok f) (name : String) :
    ∃ r, a.get i name = .ok r ∧ ∀ v ∈ r, ∀ h ∈ v.handles, a.Names h :=
  hs.exists_lookup hf name _

/-! ### Returning -/

/-- The arena in which the frame `f` in a slot has returned and waits. -/
def wait (a : Arena) (i : Nat) (f : Frame) : Arena :=
  { a.putFrame i { f with returned := true } with pending := a.pending ++ [i] }

theorem frame_wait_iff (hf : a.frame i = .ok f) : (a.wait i f).frame j = .ok k ↔
    (j = i ∧ k = { f with returned := true }) ∨ (j ≠ i ∧ a.frame j = .ok k) :=
  frame_putFrame_iff hf

theorem names_wait_iff (hf : a.frame i = .ok f) : (a.wait i f).Names h ↔ a.Names h :=
  names_putFrame_iff (g := { f with returned := true }) hf rfl

theorem running_wait_iff (hf : a.frame i = .ok f) :
    (a.wait i f).Running h ↔ h.index ≠ i ∧ a.Running h := by
  constructor
  · rintro ⟨k, hk, hks, hkr⟩
    rcases (frame_wait_iff hf).1 hk with ⟨-, rfl⟩ | ⟨hi, hk⟩
    · cases hkr
    · exact ⟨hi, k, hk, hks, hkr⟩
  · rintro ⟨hi, k, hk, hks, hkr⟩
    exact ⟨k, (frame_wait_iff hf).2 (.inr ⟨hi, hk⟩), hks, hkr⟩

theorem Sound.wait (hs : a.Sound) (hf : a.frame i = .ok f) (hi : i ≠ 0)
    (hreturned : f.returned = false) : (a.wait i f).Sound := by
  have hnew : i ∉ a.pending := by
    intro hmem
    obtain ⟨g, hg, hgr⟩ := hs.mem_pending_iff.1 hmem
    obtain rfl := frame_inj hf hg
    exact absurd hgr (by simp [hreturned])
  have hnames := hs.names hf
  refine Sound.put (g := { f with returned := true }) hf rfl rfl hs rfl hnames
    (fun h => absurd h hi) (fun j => ?_) ?_
  · rw [List.mem_append, List.mem_singleton, hs.mem_pending_iff]
    constructor
    · rintro (⟨k, hk, hkr⟩ | rfl)
      · refine ⟨k, (frame_putFrame_iff hf).2 (.inr ⟨?_, hk⟩), hkr⟩
        rintro rfl
        exact hnew (hs.mem_pending_iff.2 ⟨k, hk, hkr⟩)
      · exact ⟨_, (frame_putFrame_iff hf).2 (.inl ⟨rfl, rfl⟩), rfl⟩
    · rintro ⟨k, hk, hkr⟩
      rcases (frame_putFrame_iff hf).1 hk with ⟨hj, -⟩ | ⟨-, hk⟩
      · exact .inr hj
      · exact .inl ⟨k, hk, hkr⟩
  · refine List.nodup_append.2 ⟨hs.pending_nodup, List.nodup_singleton i, ?_⟩
    intro l hl m hm
    rw [List.mem_singleton] at hm
    rw [hm]
    exact fun h => hnew (h ▸ hl)

/-! ## Freeing -/

theorem Freed.names_iff {dead : List Nat} (hfreed : Freed a dead b) :
    b.Names h ↔ h.index ∉ dead ∧ a.Names h := by
  constructor
  · rintro ⟨g, hg, hserial⟩
    obtain ⟨hi, f, hf, hagrees⟩ := hfreed.old _ g hg
    exact ⟨hi, f, hf, hagrees.serial.trans hserial⟩
  · rintro ⟨hi, f, hf, hserial⟩
    obtain ⟨g, hg, hagrees⟩ := hfreed.kept _ f hi hf
    exact ⟨g, hg, hagrees.serial.symm.trans hserial⟩

theorem Freed.running_iff {dead : List Nat} (hfreed : Freed a dead b) :
    b.Running h ↔ h.index ∉ dead ∧ a.Running h := by
  constructor
  · rintro ⟨g, hg, hserial, hreturned⟩
    obtain ⟨hi, f, hf, hagrees⟩ := hfreed.old _ g hg
    exact ⟨hi, f, hf, hagrees.serial.trans hserial, hagrees.returned.trans hreturned⟩
  · rintro ⟨hi, f, hf, hserial, hreturned⟩
    obtain ⟨g, hg, hagrees⟩ := hfreed.kept _ f hi hf
    exact ⟨g, hg, hagrees.serial.symm.trans hserial, hagrees.returned.symm.trans hreturned⟩

/-- Every frame counts its children. -/
def CountsChildren (a : Arena) : Prop :=
  ∀ i f, a.frame i = .ok f → f.children = (a.childrenOf i).card

theorem CountsChildren.freeFrame (hc : a.CountsChildren) (hf : a.frame i = .ok f) :
    (a.freeFrame i).CountsChildren := by
  intro j k hk
  obtain ⟨-, g, hg, rfl⟩ := (frame_freeFrame_iff hf).1 hk
  have herase : (a.freeFrame i).childrenOf j = (a.childrenOf j).erase i := by
    ext l
    rw [mem_childrenOf_iff, Finset.mem_erase, mem_childrenOf_iff]
    constructor
    · rintro ⟨m, hm, hparent⟩
      obtain ⟨hl, n, hn, rfl⟩ := (frame_freeFrame_iff hf).1 hm
      exact ⟨hl, n, hn, hparent⟩
    · rintro ⟨hl, n, hn, hparent⟩
      exact ⟨_, (frame_freeFrame_iff hf).2 ⟨hl, n, hn, rfl⟩, hparent⟩
  have hmem : i ∈ a.childrenOf j ↔ f.parent = some j := by
    rw [mem_childrenOf_iff]
    constructor
    · rintro ⟨m, hm, hparent⟩
      obtain rfl := frame_inj hf hm
      exact hparent
    · exact fun hparent => ⟨f, hf, hparent⟩
  show g.children - once f.parent j = _
  rw [herase, hc j g hg]
  unfold once
  split
  · rename_i hparent
    rw [Finset.card_erase_of_mem (hmem.2 hparent)]
  · rename_i hparent
    rw [Finset.erase_eq_of_notMem (fun h => hparent (hmem.1 h)), Nat.sub_zero]

theorem CountsChildren.foldl {dead : List Nat} (hc : a.CountsChildren) (hnodup : dead.Nodup)
    (hdead : ∀ i ∈ dead, ∃ f, a.frame i = .ok f) :
    (dead.foldl Arena.freeFrame a).CountsChildren := by
  induction dead generalizing a with
  | nil => exact hc
  | cons d dead ih =>
    obtain ⟨hd, hnodup⟩ := List.nodup_cons.1 hnodup
    obtain ⟨f, hf⟩ := hdead d List.mem_cons_self
    refine ih (hc.freeFrame hf) hnodup fun i hi => ?_
    obtain ⟨g, hg⟩ := hdead i (List.mem_cons_of_mem _ hi)
    exact ⟨_, (frame_freeFrame_iff hf).2 ⟨fun h => hd (h ▸ hi), g, hg, rfl⟩⟩

section

/-! Of the waiting frames some are freed and the others go on waiting. -/

variable {kept dead : List Nat} (hs : a.Sound)
  (hfreed : Freed { a with pending := kept } dead b)
include hs hfreed

/-- The slots that are free then are those of the frames that were freed, and those that were free
before. -/
theorem Sound.mem_free_of_freed (hdead : ∀ i ∈ dead, i ∈ a.pending) :
    i ∈ b.free ↔ i < b.frames.size ∧ ∀ f, b.frame i ≠ .ok f := by
  rw [hfreed.free, hfreed.size, List.mem_append, List.mem_reverse]
  constructor
  · rintro (hi | hi)
    · obtain ⟨f, hf, -⟩ := hs.mem_pending_iff.1 (hdead i hi)
      exact ⟨lt_size_of_frame hf, hfreed.gone i hi⟩
    · obtain ⟨hlt, he⟩ := hs.mem_free_iff.1 hi
      refine ⟨hlt, fun g hg => ?_⟩
      obtain ⟨-, f, hf, -⟩ := hfreed.old i g hg
      exact he f hf
  · rintro ⟨hlt, he⟩
    by_cases hi : i ∈ dead
    · exact .inl hi
    · refine .inr (hs.mem_free_iff.2 ⟨hlt, fun f hf => ?_⟩)
      obtain ⟨g, hg, -⟩ := hfreed.kept i f hi hf
      exact he g hg

theorem Sound.free_nodup_of_freed (hdead : ∀ i ∈ dead, i ∈ a.pending) (hnodup : dead.Nodup) :
    b.free.Nodup := by
  rw [hfreed.free]
  refine List.nodup_append.2 ⟨List.nodup_reverse.2 hnodup, hs.free_nodup, ?_⟩
  rintro i hi j hj rfl
  obtain ⟨f, hf, -⟩ := hs.mem_pending_iff.1 (hdead i (List.mem_reverse.1 hi))
  exact (hs.mem_free_iff.1 hj).2 f hf

theorem Sound.mem_pending_of_freed (hmem : ∀ i, i ∈ a.pending ↔ i ∈ kept ∨ i ∈ dead)
    (hapart : ∀ i ∈ kept, i ∉ dead) :
    i ∈ b.pending ↔ ∃ f, b.frame i = .ok f ∧ f.returned = true := by
  rw [hfreed.pending]
  constructor
  · intro hi
    obtain ⟨f, hf, hfr⟩ := hs.mem_pending_iff.1 ((hmem i).2 (.inl hi))
    obtain ⟨g, hg, hagrees⟩ := hfreed.kept i f (hapart i hi) hf
    exact ⟨g, hg, hagrees.returned ▸ hfr⟩
  · rintro ⟨g, hg, hgr⟩
    obtain ⟨hi, f, hf, hagrees⟩ := hfreed.old i g hg
    have hpending := hs.mem_pending_iff.2 ⟨f, hf, hagrees.returned.trans hgr⟩
    exact ((hmem i).1 hpending).resolve_right hi

/-- An arena stays sound if no frame that stays leads to one that is freed. -/
theorem Sound.of_freed (hcounts : b.CountsChildren) (hnodup : dead.Nodup) (hkept : kept.Nodup)
    (hmem : ∀ i, i ∈ a.pending ↔ i ∈ kept ∨ i ∈ dead) (hapart : ∀ i ∈ kept, i ∉ dead)
    (hparent : ∀ {i f p}, a.frame i = .ok f → i ∉ dead → f.parent = some p → p ∉ dead)
    (hhandle : ∀ {i f}, a.frame i = .ok f → i ∉ dead → ∀ h ∈ f.handles, h.index ∉ dead) :
    b.Sound where
  reclaiming := hfreed.reclaiming.trans hs.reclaiming
  global := by
    obtain ⟨f, hf, hserial, hnone, hrunning⟩ := hs.global
    have hzero : 0 ∉ dead := by
      intro hzero
      obtain ⟨g, hg, hgr⟩ := hs.mem_pending_iff.1 ((hmem 0).2 (.inr hzero))
      obtain rfl := frame_inj hf hg
      exact absurd hgr (by simp [hrunning])
    obtain ⟨g, hg, hagrees⟩ := hfreed.kept 0 f hzero hf
    exact ⟨g, hg, hagrees.serial ▸ hserial, hagrees.parent ▸ hnone, hagrees.returned ▸ hrunning⟩
  parent_there hg hgp := by
    obtain ⟨hi, f, hf, hagrees⟩ := hfreed.old _ _ hg
    have hfp := hagrees.parent.trans hgp
    obtain ⟨k, hk, hlt⟩ := hs.parent_there hf hfp
    obtain ⟨l, hl, hkl⟩ := hfreed.kept _ k (hparent hf hi hfp) hk
    exact ⟨l, hl, by rw [← hkl.serial, ← hagrees.serial]; exact hlt⟩
  names hg h hh := by
    obtain ⟨hi, f, hf, hagrees⟩ := hfreed.old _ _ hg
    rw [← hagrees.handles] at hh
    exact hfreed.names_iff.2 ⟨hhandle hf hi h hh, hs.names hf h hh⟩
  serial_lt hg := by
    obtain ⟨-, f, hf, hagrees⟩ := hfreed.old _ _ hg
    rw [hfreed.nextSerial, ← hagrees.serial]
    exact hs.serial_lt hf
  serial_inj hg hl hgl := by
    obtain ⟨-, f, hf, hfg⟩ := hfreed.old _ _ hg
    obtain ⟨-, k, hk, hkl⟩ := hfreed.old _ _ hl
    exact hs.serial_inj hf hk (hfg.serial.trans (hgl.trans hkl.serial.symm))
  mem_pending_iff := hs.mem_pending_of_freed hfreed hmem hapart
  pending_nodup := hfreed.pending ▸ hkept
  mem_free_iff := hs.mem_free_of_freed hfreed fun i hi => (hmem i).2 (.inr hi)
  free_nodup := hs.free_nodup_of_freed hfreed (fun i hi => (hmem i).2 (.inr hi)) hnodup
  children_eq hg := hcounts _ _ hg

end

/-- Freeing waiting frames to which no frame that stays leads; the others go on waiting. -/
theorem Sound.free {kept dead : List Nat} (hs : a.Sound) (hnodup : dead.Nodup)
    (hkept : kept.Nodup) (hmem : ∀ i, i ∈ a.pending ↔ i ∈ kept ∨ i ∈ dead)
    (hapart : ∀ i ∈ kept, i ∉ dead)
    (hparent : ∀ {i f p}, a.frame i = .ok f → i ∉ dead → f.parent = some p → p ∉ dead)
    (hhandle : ∀ {i f}, a.frame i = .ok f → i ∉ dead → ∀ h ∈ f.handles, h.index ∉ dead) :
    Freed { a with pending := kept } dead (dead.foldl freeFrame { a with pending := kept }) ∧
      (dead.foldl freeFrame { a with pending := kept }).Sound := by
  have hdead : ∀ i ∈ dead, ∃ f, ({ a with pending := kept } : Arena).frame i = .ok f := by
    intro i hi
    obtain ⟨f, hf, -⟩ := hs.mem_pending_iff.1 ((hmem i).2 (.inr hi))
    exact ⟨f, hf⟩
  have hfreed := freed_foldl hnodup hdead
  have hcounts : ({ a with pending := kept } : Arena).CountsChildren :=
    fun i f hf => hs.children_eq hf
  exact ⟨hfreed, hs.of_freed hfreed (hcounts.foldl hnodup hdead) hnodup hkept hmem hapart hparent
    hhandle⟩

end Arena

end UniformScript
