import UniformScript.Proofs.Arena.Sound
import Mathlib.Data.Finset.Dedup

/-!
# Chains of parents

From a frame one gets to its parent, from there to the next, and so on, until there is a frame
without a parent.  Slots are used again, so the parent of a frame may be in a slot behind its own.
But parents are older than their children, and so a chain never comes back to a slot it has passed.

* `Chain`: the slots from a frame up to the outermost one.
* `Sound.exists_chain`, `Sound.nodup_of_chain`: in a sound arena every frame has a chain, on which
  no slot occurs twice.
* `Sound.get_eq_of_chain`: a name has the value that the first frame on the chain binds it to.
-/

namespace UniformScript

namespace Arena

variable {a : Arena} {i j p : Nat} {f : Frame} {path : List Nat} {name : String}

/-- The slot of a frame, that of its parent, and so on up to a frame without a parent. -/
inductive Chain (a : Arena) : Nat → List Nat → Prop where
  | outermost {i : Nat} {f : Frame} (hf : a.frame i = .ok f) (hp : f.parent = none) : Chain a i [i]
  | inside {i p : Nat} {f : Frame} {path : List Nat} (hf : a.frame i = .ok f)
    (hp : f.parent = some p) (h : Chain a p path) : Chain a i (i :: path)

/-- What the frame in a slot itself binds a name to. -/
def bound? (a : Arena) (name : String) (i : Nat) : Option Value :=
  match a.frame i with
  | .ok f => f.bindings.lookup name
  | .error _ => none

theorem bound?_eq (hf : a.frame i = .ok f) : a.bound? name i = f.bindings.lookup name := by
  unfold bound?
  rw [hf]

namespace Chain

theorem head (h : a.Chain i path) : ∃ rest, path = i :: rest := by
  cases h with
  | outermost _ _ => exact ⟨[], rfl⟩
  | inside _ _ _ => exact ⟨_, rfl⟩

theorem there (h : a.Chain i path) : ∀ j ∈ path, ∃ f, a.frame j = .ok f := by
  induction h with
  | outermost hf _ => simpa using ⟨_, hf⟩
  | inside hf _ _ ih => exact List.forall_mem_cons.2 ⟨⟨_, hf⟩, ih⟩

/-- Looking a name up follows the chain, if it may pass as many frames. -/
theorem lookup_eq (h : a.Chain i path) {fuel : Nat} (hfuel : path.length ≤ fuel) (name : String) :
    a.lookup fuel i name = .ok (path.findSome? (a.bound? name)) := by
  induction h generalizing fuel with
  | @outermost i f hf hp =>
    cases fuel with
    | zero => cases hfuel
    | succ fuel =>
      simp only [lookup, hf, hp, List.findSome?_cons, bound?_eq hf]
      cases f.bindings.lookup name <;> rfl
  | @inside i p f path hf hp _ ih =>
    cases fuel with
    | zero => cases hfuel
    | succ fuel =>
      simp only [lookup, hf, hp, List.findSome?_cons, bound?_eq hf]
      cases f.bindings.lookup name with
      | some v => rfl
      | none => exact ih (Nat.le_of_succ_le_succ hfuel)

end Chain

/-! ## Sound arenas -/

/-- Every frame has a chain of parents. -/
theorem Sound.exists_chain (hs : a.Sound) (hf : a.frame i = .ok f) : ∃ path, a.Chain i path := by
  -- the serial number goes down from a frame to its parent
  induction hserial : f.serial using Nat.strongRecOn generalizing i f with
  | ind n ih =>
    cases hp : f.parent with
    | none => exact ⟨[i], .outermost hf hp⟩
    | some p =>
      obtain ⟨g, hg, hlt⟩ := hs.parent_there hf hp
      obtain ⟨path, hpath⟩ := ih g.serial (hserial ▸ hlt) hg rfl
      exact ⟨i :: path, .inside hf hp hpath⟩

/-- The frames on a chain are not younger than the one it starts from. -/
theorem Sound.serial_le_of_chain (hs : a.Sound) (h : a.Chain i path) (hf : a.frame i = .ok f) :
    ∀ j ∈ path, ∃ g, a.frame j = .ok g ∧ g.serial ≤ f.serial := by
  induction h generalizing f with
  | outermost _ _ => simpa using ⟨f, hf, Nat.le_refl _⟩
  | inside hf' hp _ ih =>
    obtain rfl := frame_inj hf hf'
    obtain ⟨k, hk, hlt⟩ := hs.parent_there hf hp
    refine List.forall_mem_cons.2 ⟨⟨f, hf, Nat.le_refl _⟩, fun j hj => ?_⟩
    obtain ⟨g, hg, hle⟩ := ih hk j hj
    exact ⟨g, hg, Nat.le_of_lt (Nat.lt_of_le_of_lt hle hlt)⟩

/-- No slot occurs twice on a chain. -/
theorem Sound.nodup_of_chain (hs : a.Sound) (h : a.Chain i path) : path.Nodup := by
  induction h with
  | outermost _ _ => exact List.nodup_singleton _
  | inside hf hp h ih =>
    refine List.nodup_cons.2 ⟨fun hmem => ?_, ih⟩
    obtain ⟨k, hk, hlt⟩ := hs.parent_there hf hp
    obtain ⟨g, hg, hle⟩ := hs.serial_le_of_chain h hk _ hmem
    obtain rfl := frame_inj hf hg
    omega

/-- A chain is not longer than there are slots. -/
theorem Sound.length_le_of_chain (hs : a.Sound) (h : a.Chain i path) :
    path.length ≤ a.frames.size := by
  have hsubset : path.toFinset ⊆ Finset.range a.frames.size := by
    intro j hj
    obtain ⟨g, hg⟩ := h.there j (List.mem_toFinset.1 hj)
    exact Finset.mem_range.2 (lt_size_of_frame hg)
  have hcard := Finset.card_le_card hsubset
  rwa [List.toFinset_card_of_nodup (hs.nodup_of_chain h), Finset.card_range] at hcard

/-- A name has the value that the first frame on the chain binds it to. -/
theorem Sound.get_eq_of_chain (hs : a.Sound) (h : a.Chain i path) (name : String) :
    a.get i name = .ok (path.findSome? (a.bound? name)) :=
  h.lookup_eq (hs.length_le_of_chain h) name

end Arena

end UniformScript
