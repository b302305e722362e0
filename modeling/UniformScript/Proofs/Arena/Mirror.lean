import UniformScript.Proofs.Arena.Collection
import UniformScript.Proofs.Value.Settled

/-!
# An arena and its mirror

Beside a sound arena stands one that keeps every frame.  Both are used alike, so that the frame
with serial number `s`, in whatever slot it is, has its image in slot `s` of the mirror: the same
names, bound to the settled values, and the image of its parent.

* `Mirrors.push`, `Mirrors.set`, `Mirrors.reassign`, `Mirrors.get`: an operation on a frame and the
  operation on its image have the same result, and the arenas are an arena and its mirror again.
* `Mirrors.release`, `Mirrors.collect`: so they are after a release and a collection, although the
  mirror frees nothing.
* `Sound.alike`: slots and serial numbers tell the same frames apart.
-/

namespace UniformScript

/-- The bindings with all values settled. -/
def Bindings.settled (bs : Bindings) : Bindings := bs.map fun b => (b.1, b.2.settled)

namespace Bindings

theorem lookup_settled (bs : Bindings) (name : String) :
    bs.settled.lookup name = (bs.lookup name).map Value.settled :=
  lookup_mapValues bs name

theorem settled_put (bs : Bindings) (name : String) (v : Value) :
    (bs.put name v).settled = bs.settled.put name v.settled :=
  mapValues_put bs name v

end Bindings

namespace Arena

variable {a b : Arena} {i j p : Nat} {f g k : Frame} {name : String} {held : List Handle}

/-- The serial number of the frame in a slot. -/
def serialAt (a : Arena) (i : Nat) : Nat :=
  match a.frame i with
  | .ok f => f.serial
  | .error _ => 0

theorem serialAt_eq (hf : a.frame i = .ok f) : a.serialAt i = f.serial := by
  unfold serialAt
  rw [hf]

/-- The frame `g` is the image of the frame `f` of the arena. -/
structure Image (a : Arena) (f g : Frame) : Prop where
  bindings : g.bindings = f.bindings.settled
  parent : g.parent = f.parent.map a.serialAt
  serial : g.serial = f.serial

/-- The arena `b` is the mirror of `a`. -/
structure Mirrors (a b : Arena) : Prop where
  /-- The mirror keeps its frames. -/
  reclaiming : b.reclaiming = false
  free : b.free = []
  pending : b.pending = []
  /-- All frames that have ever been pushed are in the mirror, each in a slot of its own. -/
  size : b.frames.size = a.nextSerial
  full : ∀ i < b.frames.size, ∃ g, b.frame i = .ok g
  nextSerial : b.nextSerial = a.nextSerial
  /-- Every frame has its image in the slot with its serial number. -/
  frame : ∀ {i f}, a.frame i = .ok f → ∃ g, b.frame f.serial = .ok g ∧ Image a f g

/-- The image of a frame where parents have the same serial numbers. -/
theorem Image.congr {c : Arena} (h : Image a f g)
    (hparent : ∀ p, f.parent = some p → c.serialAt p = a.serialAt p) : Image c f g := by
  refine ⟨h.bindings, ?_, h.serial⟩
  rw [h.parent]
  cases hp : f.parent with
  | none => rfl
  | some p => rw [Option.map_some, Option.map_some, hparent p hp]

/-- No slot of the mirror is empty. -/
theorem Mirrors.liveCount (hm : Mirrors a b) : b.liveCount = a.nextSerial := by
  have hall : ∀ o ∈ b.frames.toList, (id o).isSome = true := by
    intro o ho
    obtain ⟨i, hi, rfl⟩ := List.getElem_of_mem ho
    obtain ⟨g, hg⟩ := hm.full i (by simpa using hi)
    obtain ⟨h, hget⟩ := Array.getElem?_eq_some_iff.1 (frame_eq_ok_iff.1 hg)
    rw [Array.getElem_toList, hget]
    rfl
  unfold Arena.liveCount live
  rw [List.filterMap_length_eq_length.2 hall, Array.length_toList, hm.size]

theorem mirrors_start {globals : Bindings} (hglobals : globals.settled = globals) :
    Mirrors (start true globals) (start false globals) := by
  refine ⟨rfl, rfl, rfl, rfl, ?_, rfl, ?_⟩
  · intro i hi
    obtain rfl : i = 0 := Nat.lt_one_iff.1 hi
    exact ⟨_, frame_start_iff.2 ⟨rfl, rfl⟩⟩
  · intro i f hf
    obtain ⟨rfl, rfl⟩ := frame_start_iff.1 hf
    exact ⟨_, frame_start_iff.2 ⟨rfl, rfl⟩, hglobals.symm, rfl, rfl⟩

/-- Slots and serial numbers tell handles on frames that are there alike. -/
theorem Sound.alike {hs ks : List Handle} (ha : a.Sound) (hhs : ∀ h ∈ hs, a.Names h)
    (hks : ∀ k ∈ ks, a.Names k) : Value.Alike hs ks := by
  intro h hh k hk
  obtain ⟨f, hf, hfs⟩ := hhs h hh
  obtain ⟨g, hg, hgs⟩ := hks k hk
  constructor
  · intro hindex
    rw [(hhs h hh).eq_of_index_eq (hks k hk) hindex]
  · intro hserial
    exact ha.serial_inj hf hg (hfs.trans (hserial.trans hgs.symm))

/-! ## Looking names up -/

/-- Whether the frame in a slot is as old as a serial number, or older. -/
def isUpTo (a : Arena) (serial i : Nat) : Bool :=
  match a.frame i with
  | .ok f => f.serial ≤ serial
  | .error _ => false

/-- The slots of the frames that are as old as a serial number, or older. -/
def upTo (a : Arena) (serial : Nat) : Finset Nat :=
  (Finset.range a.frames.size).filter fun i => a.isUpTo serial i

theorem mem_upTo_iff {serial : Nat} :
    i ∈ a.upTo serial ↔ ∃ f, a.frame i = .ok f ∧ f.serial ≤ serial := by
  unfold upTo isUpTo
  rw [Finset.mem_filter, Finset.mem_range]
  constructor
  · rintro ⟨-, hi⟩
    split at hi
    · rename_i f hf
      exact ⟨f, hf, of_decide_eq_true hi⟩
    · cases hi
  · rintro ⟨f, hf, hle⟩
    refine ⟨lt_size_of_frame hf, ?_⟩
    simp [hf, hle]

theorem card_upTo_le (a : Arena) (serial : Nat) : (a.upTo serial).card ≤ a.frames.size := by
  have h := Finset.card_filter_le (Finset.range a.frames.size) fun i => a.isUpTo serial i
  rw [Finset.card_range] at h
  exact h

/-- There are less frames as old as an older one. -/
theorem card_upTo_lt (hf : a.frame i = .ok f) (hlt : g.serial < f.serial) :
    (a.upTo g.serial).card < (a.upTo f.serial).card := by
  apply Finset.card_lt_card
  rw [Finset.ssubset_iff_of_subset]
  · refine ⟨i, mem_upTo_iff.2 ⟨f, hf, Nat.le_refl _⟩, ?_⟩
    intro hi
    obtain ⟨k, hk, hle⟩ := mem_upTo_iff.1 hi
    obtain rfl := frame_inj hf hk
    exact absurd hlt (Nat.not_lt.2 hle)
  · intro j hj
    obtain ⟨k, hk, hle⟩ := mem_upTo_iff.1 hj
    exact mem_upTo_iff.2 ⟨k, hk, Nat.le_trans hle (Nat.le_of_lt hlt)⟩

/-- A name has the same value from a frame on and from its image on.  The way to the global frame
leads to older and older frames, so it is at most as long as there are frames as old as the
first. -/
theorem Mirrors.lookup (hm : Mirrors a b) (hs : a.Sound) {fuel fuel' : Nat}
    (hf : a.frame i = .ok f) (hfuel : (a.upTo f.serial).card ≤ fuel) (hfuel' : f.serial < fuel') :
    ∃ r, a.lookup fuel i name = .ok r ∧
      b.lookup fuel' f.serial name = .ok (r.map Value.settled) := by
  induction fuel generalizing i f fuel' with
  | zero =>
    have hmem : i ∈ a.upTo f.serial := mem_upTo_iff.2 ⟨f, hf, Nat.le_refl _⟩
    rw [Finset.card_eq_zero.1 (Nat.le_zero.1 hfuel)] at hmem
    exact absurd hmem (Finset.notMem_empty i)
  | succ fuel ih =>
    obtain ⟨fuel', rfl⟩ : ∃ n, fuel' = n + 1 := ⟨fuel' - 1, by omega⟩
    obtain ⟨g, hg, himage⟩ := hm.frame hf
    unfold Arena.lookup
    simp only [hf, hg, himage.bindings, himage.parent, Bindings.lookup_settled]
    cases hv : f.bindings.lookup name with
    | some v => exact ⟨some v, rfl, rfl⟩
    | none =>
      cases hp : f.parent with
      | none => exact ⟨none, rfl, rfl⟩
      | some p =>
        obtain ⟨k, hk, hlt⟩ := hs.parent_there hf hp
        have hcard := card_upTo_lt hf hlt
        simp only [Option.map_none, Option.map_some, serialAt_eq hk]
        exact ih hk (by omega) (by omega)

/-- A name has the same value in a frame and in its image. -/
theorem Mirrors.get (hm : Mirrors a b) (hs : a.Sound) (hf : a.frame i = .ok f) (name : String) :
    ∃ r, a.get i name = .ok r ∧ b.get f.serial name = .ok (r.map Value.settled) := by
  apply hm.lookup hs hf (a.card_upTo_le f.serial)
  rw [hm.size]
  exact hs.serial_lt hf

theorem Mirrors.handle (hm : Mirrors a b) (hf : a.frame i = .ok f) :
    b.handle f.serial = .ok (Handle.settled ⟨i, f.serial⟩) := by
  obtain ⟨g, hg, himage⟩ := hm.frame hf
  rw [handle_eq hg, himage.serial]
  rfl

/-! ## Binding names -/

/-- Another frame in a slot leaves no slot empty. -/
theorem Mirrors.full_putFrame (hm : Mirrors a b) (hf : b.frame i = .ok f) (g : Frame) :
    ∀ j < (b.putFrame i g).frames.size, ∃ k, (b.putFrame i g).frame j = .ok k := by
  intro j hj
  rw [(sameBooks_putFrame b i g).size] at hj
  obtain ⟨k, hk⟩ := hm.full j hj
  by_cases hji : j = i
  · exact ⟨g, (frame_putFrame_iff hf).2 (.inl ⟨hji, rfl⟩)⟩
  · exact ⟨k, (frame_putFrame_iff hf).2 (.inr ⟨hji, hk⟩)⟩

theorem serialAt_putFrame (hf : a.frame i = .ok f) (hserial : g.serial = f.serial) (j : Nat) :
    (a.putFrame i g).serialAt j = a.serialAt j := by
  unfold serialAt
  by_cases hj : j = i
  · subst hj
    rw [frame_putFrame_self g hf, hf]
    exact hserial
  · rw [frame_putFrame_of_ne hj]

theorem Mirrors.set {v : Value} (hm : Mirrors a b) (hs : a.Sound) (hf : a.frame i = .ok f)
    (name : String) : ∃ a' b', a.set i name v = .ok a' ∧
      b.set f.serial name v.settled = .ok b' ∧ Mirrors a' b' := by
  obtain ⟨g, hg, himage⟩ := hm.frame hf
  let f' : Frame := { f with bindings := f.bindings.put name v }
  let g' : Frame := { g with bindings := g.bindings.put name v.settled }
  have hcongr {k l : Frame} (h : Image a k l) : Image (a.putFrame i f') k l :=
    h.congr fun p _ => serialAt_putFrame (g := f') hf rfl p
  have hbooks := sameBooks_putFrame b f.serial g'
  refine ⟨_, _, set_eq hf, set_eq hg, hm.reclaiming, hm.free, hm.pending,
    hbooks.size.trans hm.size, hm.full_putFrame hg g', hm.nextSerial, ?_⟩
  intro j k hk
  rcases (frame_putFrame_iff hf).1 hk with ⟨rfl, rfl⟩ | ⟨hj, hk⟩
  · refine ⟨g', (frame_putFrame_iff hg).2 (.inl ⟨rfl, rfl⟩), hcongr ⟨?_, himage.parent,
      himage.serial⟩⟩
    show g.bindings.put name v.settled = (f.bindings.put name v).settled
    rw [himage.bindings, Bindings.settled_put]
  · obtain ⟨l, hl, hkl⟩ := hm.frame hk
    have hne : k.serial ≠ f.serial := fun h => hj (hs.serial_inj hk hf h)
    exact ⟨l, (frame_putFrame_iff hg).2 (.inr ⟨hne, hl⟩), hcongr hkl⟩

/-- A name is given another value in a frame or in none, and likewise in the image. -/
theorem Mirrors.binder (hm : Mirrors a b) (hs : a.Sound) (hf : a.frame i = .ok f) (name : String) :
    (a.binder i name = .ok none ∧ b.binder f.serial name = .ok none) ∨
      ∃ j k, a.binder i name = .ok (some j) ∧ a.frame j = .ok k ∧
        b.binder f.serial name = .ok (some k.serial) := by
  obtain ⟨g, hg, himage⟩ := hm.frame hf
  unfold Arena.binder
  simp only [hf, hg, bind, Except.bind, himage.bindings, himage.parent, Bindings.lookup_settled,
    Option.isSome_map]
  by_cases hbound : (f.bindings.lookup name).isSome = true
  · rw [if_pos hbound, if_pos hbound]
    exact .inr ⟨i, f, rfl, hf, rfl⟩
  · rw [if_neg hbound, if_neg hbound]
    cases hp : f.parent with
    | none => exact .inl ⟨rfl, rfl⟩
    | some p =>
      obtain ⟨k, hk, -⟩ := hs.parent_there hf hp
      obtain ⟨l, hl, hkl⟩ := hm.frame hk
      simp only [Option.map_some, serialAt_eq hk, hk, hl, hkl.bindings, Bindings.lookup_settled,
        Option.isSome_map]
      by_cases hparent : (k.bindings.lookup name).isSome = true
      · rw [if_pos hparent, if_pos hparent]
        exact .inr ⟨p, k, rfl, hk, rfl⟩
      · rw [if_neg hparent, if_neg hparent]
        exact .inl ⟨rfl, rfl⟩

theorem Mirrors.reassign {v : Value} (hm : Mirrors a b) (hs : a.Sound) (hf : a.frame i = .ok f)
    (name : String) : ∃ r a' b', a.reassign i name v = .ok (r, a') ∧
      b.reassign f.serial name v.settled = .ok (r, b') ∧ Mirrors a' b' := by
  unfold Arena.reassign
  rcases hm.binder hs hf name with ⟨hn, hn'⟩ | ⟨j, k, hj, hk, hj'⟩
  · rw [hn, hn']
    exact ⟨false, a, b, rfl, rfl, hm⟩
  · obtain ⟨a', b', ha', hb', hm'⟩ := hm.set (v := v) hs hk name
    refine ⟨true, a', b', ?_, ?_, hm'⟩
    · rw [hj]
      simp only [bind, Except.bind, ha']
      rfl
    · rw [hj']
      simp only [bind, Except.bind, hb']
      rfl

/-! ## Pushing and freeing -/

/-- A push takes the next slot of a mirror, where no slot is free. -/
theorem Mirrors.exists_push {parent : Option Nat} (hm : Mirrors a b)
    (hparent : ∀ p ∈ parent, ∃ f, a.frame p = .ok f) :
    ∃ b', b.push (parent.map a.serialAt) = .ok (a.nextSerial, b') ∧
      Pushed b (parent.map a.serialAt) a.nextSerial b' ∧ b'.free = [] ∧
      b'.frames.size = a.nextSerial + 1 := by
  have hparent' : ∀ p ∈ parent.map a.serialAt, ∃ g, b.frame p = .ok g := by
    intro p hpp
    obtain ⟨q, hq, rfl⟩ := Option.map_eq_some_iff.1 hpp
    obtain ⟨f, hf⟩ := hparent q hq
    obtain ⟨g, hg, -⟩ := hm.frame hf
    exact ⟨g, (serialAt_eq hf).symm ▸ hg⟩
  obtain ⟨j, b', hb', hp'⟩ := Arena.exists_push hparent' fun k hk => by
    rw [hm.free] at hk
    cases hk
  rcases hp'.slot with ⟨hfree, -⟩ | ⟨-, hfree', hj, hsize⟩
  · rw [hm.free] at hfree
    cases hfree
  · obtain rfl : j = a.nextSerial := hj.trans hm.size
    exact ⟨b', hb', hp', hfree', hsize.trans (congrArg (· + 1) hm.size)⟩

/-- The image of a frame that was there is its image still. -/
theorem Image.of_pushed {parent : Option Nat} {a' : Arena} (hs : a.Sound)
    (hp : Pushed a parent i a') (hf : a.frame j = .ok f) (himage : Image a f g) (n n' : Nat) :
    Image a' (f.plus n) (g.plus n') := by
  have himage' : Image a' f g := himage.congr fun p hfp => by
    obtain ⟨k, hk, -⟩ := hs.parent_there hf hfp
    rw [serialAt_eq hk, serialAt_eq (hp.frame_of_frame hk)]
    rfl
  exact ⟨himage'.bindings, himage'.parent, himage'.serial⟩

theorem Mirrors.push {parent : Option Nat} (hm : Mirrors a b) (hs : a.Sound)
    (hparent : ∀ p ∈ parent, ∃ f, a.frame p = .ok f) :
    ∃ i a' b', a.push parent = .ok (i, a') ∧
      b.push (parent.map a.serialAt) = .ok (a.nextSerial, b') ∧ Mirrors a' b' := by
  obtain ⟨i, a', ha', hp, hs'⟩ := hs.exists_push hparent
  obtain ⟨b', hb', hp', hfree', hsize⟩ := hm.exists_push hparent
  refine ⟨i, a', b', ha', hb', hp'.reclaiming.trans hm.reclaiming, hfree',
    hp'.pending.trans hm.pending, hsize.trans hp.nextSerial.symm, ?_, ?_, ?_⟩
  · intro j hj
    by_cases hjn : j = a.nextSerial
    · exact ⟨_, hp'.frame_iff.2 (.inl ⟨hjn, rfl⟩)⟩
    · obtain ⟨g, hg⟩ := hm.full j (by rw [hm.size]; omega)
      exact ⟨_, hp'.frame_of_frame hg⟩
  · rw [hp'.nextSerial, hm.nextSerial, hp.nextSerial]
  intro k f hf
  rcases hp.frame_iff.1 hf with ⟨-, rfl⟩ | ⟨-, g, hg, rfl⟩
  · refine ⟨_, hp'.frame_iff.2 (.inl ⟨rfl, rfl⟩), rfl, ?_, hm.nextSerial⟩
    cases parent with
    | none => rfl
    | some p =>
      obtain ⟨f, hf⟩ := hparent p rfl
      show some (a.serialAt p) = some (a'.serialAt p)
      rw [serialAt_eq hf, serialAt_eq (hp.frame_of_frame hf)]
      rfl
  · obtain ⟨l, hl, himage⟩ := hm.frame hg
    have hlt := hs.serial_lt hg
    have hne : (g.plus (once parent k)).serial ≠ a.nextSerial := Nat.ne_of_lt hlt
    exact ⟨_, hp'.frame_iff.2 (.inr ⟨hne, l, hl, rfl⟩), himage.of_pushed hs hp hg _ _⟩

/-- Frames may go; those that are left keep their images. -/
theorem Mirrors.shrink {a' : Arena} (hm : Mirrors a b) (hs' : a'.Sound)
    (hold : ∀ {j g}, a'.frame j = .ok g → ∃ f, a.frame j = .ok f ∧ f.bindings = g.bindings ∧
      f.parent = g.parent ∧ f.serial = g.serial) (hnext : a'.nextSerial = a.nextSerial) :
    Mirrors a' b := by
  refine ⟨hm.reclaiming, hm.free, hm.pending, hm.size.trans hnext.symm, hm.full,
    hm.nextSerial.trans hnext.symm, ?_⟩
  intro j g hg
  obtain ⟨f, hf, hbindings, hparent, hserial⟩ := hold hg
  obtain ⟨k, hk, himage⟩ := hm.frame hf
  have hkept : Image a' f k := himage.congr fun p hp => by
    obtain ⟨l, hl, -⟩ := hs'.parent_there hg (hparent ▸ hp)
    obtain ⟨m, hm, -, -, hmserial⟩ := hold hl
    rw [serialAt_eq hl, serialAt_eq hm, hmserial]
  refine ⟨k, hserial ▸ hk, ?_, ?_, hkept.serial.trans hserial⟩
  · rw [hkept.bindings, hbindings]
  · rw [hkept.parent, hparent]

/-- The end of a call frees frames, or none, and only marks the image of its own in the mirror. -/
theorem Mirrors.release {a' : Arena} (hm : Mirrors a b) (held' : List Handle) (hs : a.Sound)
    (hi : i ≠ 0) (hf : a.frame i = .ok f) (hr : Released a held i a') :
    ∃ b', b.release held' f.serial = .ok b' ∧ Mirrors a' b' := by
  have hm' := hm.shrink hr.sound hr.old hr.nextSerial
  obtain ⟨g, hg, -⟩ := hm.frame hf
  have hne : f.serial ≠ 0 := by
    intro h
    obtain ⟨k, hk, hserial, -⟩ := hs.global
    exact hi (hs.serial_inj hf hk (h.trans hserial.symm))
  let g' : Frame := { g with returned := true }
  have hrelease : b.release held' f.serial = .ok (b.putFrame f.serial g') := by
    have hkeeps : (!(b.putFrame f.serial g').reclaiming) = true := by
      show (!b.reclaiming) = true
      rw [hm.reclaiming]
      rfl
    unfold Arena.release
    rw [if_neg hne, hg]
    simp only [bind, Except.bind]
    exact if_pos hkeeps
  have hbooks := sameBooks_putFrame b f.serial g'
  refine ⟨_, hrelease, hm'.reclaiming, hm'.free, hm'.pending, hbooks.size.trans hm'.size,
    hm'.full_putFrame hg g', hm'.nextSerial, ?_⟩
  intro j k hk
  obtain ⟨l, hl, himage⟩ := hm'.frame hk
  by_cases hkf : k.serial = f.serial
  · rw [hkf] at hl
    obtain rfl := frame_inj hg hl
    exact ⟨g', (frame_putFrame_iff hg).2 (.inl ⟨hkf, rfl⟩), himage.bindings, himage.parent,
      himage.serial⟩
  · exact ⟨l, (frame_putFrame_iff hg).2 (.inr ⟨hkf, hl⟩), himage⟩

/-- A collection leaves the mirror as it is. -/
theorem Mirrors.collect {a' : Arena} (hm : Mirrors a b) (held' : List Handle)
    (hc : Collected a held a') :
    b.collect held' = .ok b ∧ Mirrors a' b := by
  constructor
  · unfold Arena.collect
    rw [hm.pending]
    rfl
  · apply hm.shrink hc.sound _ hc.nextSerial
    intro j g hg
    obtain ⟨f, hf, hagrees⟩ := hc.old hg
    exact ⟨f, hf, hagrees.bindings, hagrees.parent, hagrees.serial⟩

end Arena

end UniformScript
