import UniformScript.Proofs.Arena.Collection
import UniformScript.Proofs.Arena.Effects

/-!
# Frames that nothing refers to

Frames are numbered in the order in which they are pushed.  An arena is `Unreferred N` if nothing
refers to the frames numbered from `N` on: none of them has a child, and no bound value holds a
handle on one.  A release frees such a frame at once, and no collection is made.

`Balanced N a b` compares two states of an arena, an earlier and a later one: the same frames are
there, and nothing refers to those numbered from `N` on.

* `Balanced.set`, `Balanced.reassign`: binding values that hold no handles on such frames.
* `Unreferred.not_referred`: a frame that is pushed after the others is freed at once.
* `Balanced.of_call`: a frame is pushed, something is done, and the frame is released.
-/

namespace UniformScript

namespace Arena

variable {a b c d : Arena} {N i : Nat} {name : String} {v : Value} {f g : Frame}
  {held : List Handle}

/-- Nothing in the arena refers to a frame numbered from `N` on. -/
structure Unreferred (N : Nat) (a : Arena) : Prop where
  /-- Frames that are pushed are numbered from `N` on. -/
  le : N ≤ a.nextSerial
  /-- No bound value holds a handle on such a frame. -/
  handles : ∀ {i f}, a.frame i = .ok f → ∀ h ∈ f.handles, h.serial < N
  /-- No such frame has a child. -/
  children : ∀ {i f}, a.frame i = .ok f → N ≤ f.serial → f.children = 0

/-- The same frames are there in `b` as in `a`, and nothing refers to those numbered from `N`
on. -/
structure Balanced (N : Nat) (a b : Arena) : Prop where
  unreferred : b.Unreferred N
  names_iff : ∀ h, b.Names h ↔ a.Names h
  reclaiming : b.reclaiming = a.reclaiming

namespace Balanced

theorem refl (hu : a.Unreferred N) : Balanced N a a := ⟨hu, fun _ => .rfl, rfl⟩

theorem trans (h₁ : Balanced N a b) (h₂ : Balanced N b c) : Balanced N a c where
  unreferred := h₂.unreferred
  names_iff h := (h₂.names_iff h).trans (h₁.names_iff h)
  reclaiming := h₂.reclaiming.trans h₁.reclaiming

end Balanced

/-- Nothing refers to frames that have not been pushed yet. -/
theorem Sound.unreferred (hs : a.Sound) : a.Unreferred a.nextSerial where
  le := Nat.le_refl _
  handles hf h hh := by
    obtain ⟨g, hg, hserial⟩ := hs.names hf h hh
    exact hserial ▸ hs.serial_lt hg
  children hf hle := absurd hle (Nat.not_le.2 (hs.serial_lt hf))

/-! ## Binding names -/

/-- What is bound then holds only handles on earlier frames. -/
theorem handles_put_lt {bs : Bindings} (hbs : ∀ p ∈ bs, ∀ h ∈ p.2.handles, h.serial < N)
    (hv : ∀ h ∈ v.handles, h.serial < N) :
    ∀ h ∈ (bs.put name v).flatMap fun b => b.2.handles, h.serial < N := by
  intro h hh
  obtain ⟨p, hp, hh⟩ := List.mem_flatMap.1 hh
  rcases mem_put hp with hp | hp
  · exact hbs p hp h hh
  · exact hv h (hp ▸ hh)

namespace Balanced

theorem putFrame (hu : a.Unreferred N) (hf : a.frame i = .ok f) (hserial : g.serial = f.serial)
    (hchildren : g.children = f.children) (hhandles : ∀ h ∈ g.handles, h.serial < N) :
    Balanced N a (a.putFrame i g) where
  unreferred :=
    { le := hu.le
      handles := by
        intro j k hk
        rcases (frame_putFrame_iff hf).1 hk with ⟨-, rfl⟩ | ⟨-, hk⟩
        · exact hhandles
        · exact hu.handles hk
      children := by
        intro j k hk hle
        rcases (frame_putFrame_iff hf).1 hk with ⟨-, rfl⟩ | ⟨-, hk⟩
        · exact hchildren.trans (hu.children hf (hserial ▸ hle))
        · exact hu.children hk hle }
  names_iff _ := names_putFrame_iff hf hserial
  reclaiming := rfl

/-- Binding a value in a frame. -/
theorem bind (hu : a.Unreferred N) (hv : ∀ h ∈ v.handles, h.serial < N) (hf : a.frame i = .ok f) :
    Balanced N a (a.putFrame i { f with bindings := f.bindings.put name v }) := by
  refine putFrame hu hf rfl rfl (handles_put_lt (fun p hp h hh => ?_) hv)
  exact hu.handles hf h (List.mem_flatMap.2 ⟨p, hp, hh⟩)

theorem set (hu : a.Unreferred N) (hv : ∀ h ∈ v.handles, h.serial < N)
    (h : a.set i name v = .ok b) : Balanced N a b := by
  obtain ⟨f, hf, rfl⟩ := exists_of_set h
  exact bind hu hv hf

theorem reassign {r : Bool} (hu : a.Unreferred N) (hv : ∀ h ∈ v.handles, h.serial < N)
    (h : a.reassign i name v = .ok (r, b)) : Balanced N a b := by
  obtain rfl | ⟨j, f, hf, -, rfl⟩ := exists_of_reassign h
  · exact refl hu
  · exact bind hu hv hf

end Balanced

/-- A value that is found holds only handles on earlier frames. -/
theorem Unreferred.get (hu : a.Unreferred N) (h : a.get i name = .ok (some v)) :
    ∀ k ∈ v.handles, k.serial < N := by
  intro k hk
  obtain ⟨j, f, hf, hmem⟩ := exists_bound_of_get h
  exact hu.handles hf k (List.mem_flatMap.2 ⟨_, hmem, hk⟩)

/-! ## Calls -/

/-- Nothing refers to a frame that is pushed, nor to the later ones, if its parent is an earlier
one. -/
theorem Unreferred.push {parent : Option Nat} (hu : a.Unreferred N) (hp : Pushed a parent i b)
    (hparent : ∀ p ∈ parent, ∃ f, a.frame p = .ok f ∧ f.serial < N) : b.Unreferred N where
  le := by
    rw [hp.nextSerial]
    exact Nat.le_succ_of_le hu.le
  handles hg h hh := by
    rcases hp.frame_iff.1 hg with ⟨-, rfl⟩ | ⟨-, f, hf, rfl⟩
    · cases hh
    · exact hu.handles hf h hh
  children {j g} hg hle := by
    rcases hp.frame_iff.1 hg with ⟨-, rfl⟩ | ⟨-, f, hf, rfl⟩
    · rfl
    · have hother : once parent j = 0 := by
        refine if_neg fun hj => ?_
        obtain ⟨k, hk, hlt⟩ := hparent j hj
        obtain rfl := frame_inj hf hk
        exact Nat.lt_irrefl _ (Nat.lt_of_lt_of_le hlt hle)
      show f.children + once parent j = 0
      rw [hother, hu.children hf hle]

/-- All frames but the freed one are still there. -/
theorem names_freeFrame_iff (hf : a.frame i = .ok f) {h : Handle} :
    (a.freeFrame i).Names h ↔ h.index ≠ i ∧ a.Names h := by
  constructor
  · rintro ⟨g, hg, hserial⟩
    obtain ⟨hne, k, hk, rfl⟩ := (frame_freeFrame_iff hf).1 hg
    exact ⟨hne, k, hk, hserial⟩
  · rintro ⟨hne, k, hk, hserial⟩
    exact ⟨_, (frame_freeFrame_iff hf).2 ⟨hne, k, hk, rfl⟩, hserial⟩

theorem Unreferred.freeFrame (hu : a.Unreferred N) (hf : a.frame i = .ok f) :
    (a.freeFrame i).Unreferred N where
  le := (books_freeFrame hf).nextSerial ▸ hu.le
  handles hg h hh := by
    obtain ⟨-, k, hk, rfl⟩ := (frame_freeFrame_iff hf).1 hg
    exact hu.handles hk h hh
  children {j g} hg hle := by
    obtain ⟨-, k, hk, rfl⟩ := (frame_freeFrame_iff hf).1 hg
    show k.children - _ = 0
    rw [hu.children hk hle, Nat.zero_sub]

/-- Neither does anything that is held outside. -/
theorem Unreferred.not_referred (hu : a.Unreferred N) (hf : a.frame i = .ok f)
    (hle : N ≤ f.serial) (hheld : ∀ h ∈ held, h.serial < N) : ¬ a.Referred held i f := by
  rintro (hchildren | houtstanding)
  · exact hchildren (hu.children hf hle)
  · have hbound : a.handles.count ⟨i, f.serial⟩ = 0 := by
      refine List.count_eq_zero.2 fun hh => ?_
      obtain ⟨j, g, hg, hh⟩ := mem_handles_iff.1 hh
      exact Nat.not_le.2 (hu.handles hg _ hh) hle
    have houtside : held.count ⟨i, f.serial⟩ = 0 :=
      List.count_eq_zero.2 fun hh => Nat.not_le.2 (hheld _ hh) hle
    exact houtstanding (by rw [outstanding, hbound, houtside])

/-- The release of a frame that nothing refers to frees it, and no other. -/
theorem Unreferred.of_release (hu : a.Unreferred N) (hreclaiming : a.reclaiming = true)
    (hi : i ≠ 0) (hf : a.frame i = .ok f) (hle : N ≤ f.serial)
    (hheld : ∀ h ∈ held, h.serial < N) (h : a.release held i = .ok b) :
    b.Unreferred N ∧ (∀ k, b.Names k ↔ k.index ≠ i ∧ a.Names k) ∧ b.reclaiming = a.reclaiming := by
  rw [(release_eq hreclaiming hi hf held).2 (hu.not_referred hf hle hheld)] at h
  cases h
  have hput : Balanced N a (a.putFrame i { f with returned := true }) :=
    .putFrame hu hf rfl rfl fun k hk => hu.handles hf k hk
  have hthere := frame_putFrame_self { f with returned := true } hf
  refine ⟨hput.unreferred.freeFrame hthere, fun k => ?_, (books_freeFrame hthere).reclaiming⟩
  rw [names_freeFrame_iff hthere, hput.names_iff]

/-- A whole call: a frame is pushed, something is done that leaves the same frames, and the frame
is released. -/
theorem Balanced.of_call {parent : Option Nat} (hs : a.Sound) (hu : a.Unreferred N)
    (hp : Pushed a parent i b) (hbody : Balanced N b c) (hheld : ∀ h ∈ held, h.serial < N)
    (hrelease : c.release held i = .ok d) : Balanced N a d := by
  have hreclaiming : c.reclaiming = a.reclaiming := hbody.reclaiming.trans hp.reclaiming
  have hvacant : ∀ h, a.Names h → h.index ≠ i := by
    rintro h ⟨f, hf, -⟩ hi
    exact hp.vacant f (hi ▸ hf)
  obtain ⟨f, hf, hserial⟩ : c.Names ⟨i, a.nextSerial⟩ :=
    (hbody.names_iff _).2 (hp.names_iff.2 (.inl rfl))
  have hle : N ≤ f.serial := hserial ▸ hu.le
  have hi : i ≠ 0 := (hvacant _ hs.running_global.names).symm
  obtain ⟨hunreferred, hnames, hkeeps⟩ := hbody.unreferred.of_release
    (hreclaiming.trans hs.reclaiming) hi hf hle hheld hrelease
  refine ⟨hunreferred, fun h => ?_, hkeeps.trans hreclaiming⟩
  rw [hnames, hbody.names_iff, hp.names_iff]
  constructor
  · rintro ⟨hne, rfl | hn⟩
    · exact absurd rfl hne
    · exact hn
  · exact fun hn => ⟨hvacant h hn, .inr hn⟩

end Arena

end UniformScript
