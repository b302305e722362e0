import UniformScript.Proofs.Arena.Effects
import UniformScript.Proofs.Eval.Safety

/-!
# The names that frames bind

Frames come and go, and a slot that was freed is used again; a handle tells the frames of one slot
apart by their serial numbers.  `KeepsNames own a b` compares two states of an arena, an earlier
and a later one: the frames that were there before and are still there have the parents they had
and bind the names they did, and none of them binds more, except perhaps the one in slot `own`.

* `KeepsNames.trans`: one change after the other.
* `keepsNames_set`, `keepsNames_reassign`, `keepsNames_push`, `Thinned.keepsNames`: the changes.
* `KeepsNames.of_call`: a frame is pushed, names are bound in it, and it is released.
-/

namespace UniformScript

namespace Arena

variable {a b c d : Arena} {i : Nat} {name : String} {v : Value} {f g : Frame}
  {held : List Handle}

/-! ## Two states of an arena -/

/-- From `a` to `b`, no frame that stays loses its parent or a name, and only the one in slot `own`
may get more names. -/
structure KeepsNames (own : Option Nat) (a b : Arena) : Prop where
  nextSerial : a.nextSerial ≤ b.nextSerial
  /-- A frame that is numbered like an old one is an old one. -/
  old : ∀ {h : Handle}, h.serial < a.nextSerial → b.Names h → a.Names h
  /-- It has the parent it had. -/
  parent : ∀ {i f g}, a.frame i = .ok f → b.frame i = .ok g → g.serial < a.nextSerial →
    f.parent = g.parent
  /-- Names stay bound. -/
  kept : ∀ {h : Handle} {name}, h.serial < a.nextSerial → b.Names h → a.Binds h.index name →
    b.Binds h.index name
  /-- Other frames bind no other names. -/
  others : ∀ {h : Handle} {name}, h.serial < a.nextSerial → b.Names h → some h.index ≠ own →
    b.Binds h.index name → a.Binds h.index name

namespace KeepsNames

variable {own own' : Option Nat}

theorem refl (own : Option Nat) (a : Arena) : KeepsNames own a a :=
  ⟨Nat.le_refl _, fun _ h => h, fun hf hg _ => congrArg _ (frame_inj hf hg), fun _ _ h => h,
    fun _ _ _ h => h⟩

/-- One change after the other, if the slot where the second one may bind names is the same, or
holds no old frame. -/
theorem trans_of (h₁ : KeepsNames own a b) (h₂ : KeepsNames own' b c)
    (hown : ∀ h : Handle, h.serial < a.nextSerial → b.Names h → some h.index = own' →
      some h.index = own) : KeepsNames own a c where
  nextSerial := Nat.le_trans h₁.nextSerial h₂.nextSerial
  old hlt hn := h₁.old hlt (h₂.old (Nat.lt_of_lt_of_le hlt h₁.nextSerial) hn)
  parent {i f k} hf hk hlt := by
    have hlt' := Nat.lt_of_lt_of_le hlt h₁.nextSerial
    obtain ⟨g, hg, hserial⟩ := h₂.old (h := ⟨i, k.serial⟩) hlt' ⟨k, hk, rfl⟩
    exact (h₁.parent hf hg (hserial ▸ hlt)).trans (h₂.parent hg hk hlt')
  kept hlt hn hb := by
    have hlt' := Nat.lt_of_lt_of_le hlt h₁.nextSerial
    exact h₂.kept hlt' hn (h₁.kept hlt (h₂.old hlt' hn) hb)
  others {h name} hlt hn hne hb := by
    have hlt' := Nat.lt_of_lt_of_le hlt h₁.nextSerial
    have hn' := h₂.old hlt' hn
    have hne' : some h.index ≠ own' := fun heq => hne (hown h hlt hn' heq)
    exact h₁.others hlt hn' hne (h₂.others hlt' hn hne' hb)

theorem trans (h₁ : KeepsNames own a b) (h₂ : KeepsNames own b c) : KeepsNames own a c :=
  h₁.trans_of h₂ fun _ _ _ h => h

/-- If no frame gets more names, then in particular none but that in slot `own`. -/
theorem weaken (h : KeepsNames none a b) (own : Option Nat) : KeepsNames own a b :=
  ⟨h.nextSerial, h.old, h.parent, h.kept, fun hlt hn _ => h.others hlt hn nofun⟩

end KeepsNames

/-! ## Binding names -/

/-- Changing the bindings of a frame, if its names stay bound. -/
theorem keepsNames_putFrame {own : Option Nat} (hf : a.frame i = .ok f)
    (hserial : g.serial = f.serial) (hparent : g.parent = f.parent)
    (hkept : ∀ name, (f.bindings.lookup name).isSome → (g.bindings.lookup name).isSome)
    (hothers : some i ≠ own → ∀ name, (g.bindings.lookup name).isSome →
      (f.bindings.lookup name).isSome) : KeepsNames own a (a.putFrame i g) where
  nextSerial := Nat.le_refl _
  old {h} _ hn := by
    obtain ⟨k, hk, hs⟩ := hn
    rcases (frame_putFrame_iff hf).1 hk with ⟨hi, rfl⟩ | ⟨-, hk⟩
    · exact ⟨f, hi ▸ hf, hserial ▸ hs⟩
    · exact ⟨k, hk, hs⟩
  parent {j e k} he hk _ := by
    rcases (frame_putFrame_iff hf).1 hk with ⟨rfl, rfl⟩ | ⟨-, hk⟩
    · rw [hparent, frame_inj he hf]
    · rw [frame_inj he hk]
  kept {h name} _ _ hb := by
    obtain ⟨k, v, hk, hv⟩ := hb
    by_cases hi : h.index = i
    · rw [hi] at hk ⊢
      obtain rfl := frame_inj hf hk
      obtain ⟨w, hw⟩ := Option.isSome_iff_exists.1 (hkept name (by simp [hv]))
      exact ⟨g, w, (frame_putFrame_iff hf).2 (.inl ⟨rfl, rfl⟩), hw⟩
    · exact ⟨k, v, (frame_putFrame_iff hf).2 (.inr ⟨hi, hk⟩), hv⟩
  others {h name} _ _ hne hb := by
    obtain ⟨k, v, hk, hv⟩ := hb
    rcases (frame_putFrame_iff hf).1 hk with ⟨hi, rfl⟩ | ⟨-, hk⟩
    · rw [hi] at hne ⊢
      obtain ⟨w, hw⟩ := Option.isSome_iff_exists.1 (hothers hne name (by simp [hv]))
      exact ⟨f, w, hf, hw⟩
    · exact ⟨k, v, hk, hv⟩

theorem isSome_lookup_put (name other : String) (v : Value) (bs : Bindings) :
    ((bs.put name v).lookup other).isSome ↔ other = name ∨ (bs.lookup other).isSome := by
  by_cases hname : other = name
  · subst hname
    simp [Bindings.lookup_put_self]
  · simp [Bindings.lookup_put_of_ne hname, hname]

theorem keepsNames_set (h : a.set i name v = .ok b) : KeepsNames (some i) a b := by
  obtain ⟨f, hf, rfl⟩ := exists_of_set h
  refine keepsNames_putFrame hf rfl rfl (fun other hother => ?_) (fun hne => absurd rfl hne)
  exact (isSome_lookup_put name other v f.bindings).2 (.inr hother)

/-- A name that is given another value was bound before. -/
theorem keepsNames_reassign {r : Bool} (h : a.reassign i name v = .ok (r, b)) :
    KeepsNames none a b := by
  obtain rfl | ⟨j, f, hf, hbound, rfl⟩ := exists_of_reassign h
  · exact .refl _ _
  · refine keepsNames_putFrame hf rfl rfl (fun other hother => ?_) (fun _ other hother => ?_)
    · exact (isSome_lookup_put name other v f.bindings).2 (.inr hother)
    · rcases (isSome_lookup_put name other v f.bindings).1 hother with rfl | hother
      · exact hbound
      · exact hother

/-! ## Calls -/

theorem Thinned.keepsNames (h : Thinned a b) : KeepsNames none a b where
  nextSerial := Nat.le_of_eq h.nextSerial.symm
  old _ hn := by
    obtain ⟨g, hg, hs⟩ := hn
    obtain ⟨f, hf, -, hserial, -⟩ := h.old hg
    exact ⟨f, hf, hserial.trans hs⟩
  parent hf hg _ := by
    obtain ⟨f', hf', -, -, hparent⟩ := h.old hg
    rw [frame_inj hf hf', hparent]
  kept _ hn hb := by
    obtain ⟨g, hg, -⟩ := hn
    obtain ⟨f, v, hf, hv⟩ := hb
    obtain ⟨f', hf', hbindings, -⟩ := h.old hg
    obtain rfl := frame_inj hf hf'
    exact ⟨g, v, hg, hbindings ▸ hv⟩
  others _ _ _ hb := by
    obtain ⟨g, v, hg, hv⟩ := hb
    obtain ⟨f, hf, hbindings, -⟩ := h.old hg
    exact ⟨f, v, hf, hbindings ▸ hv⟩

/-- No old frame is in the slot of a frame that is pushed. -/
theorem index_ne_of_push {parent : Option Nat} {h : Handle} (hpush : a.push parent = .ok (i, b))
    (hlt : h.serial < a.nextSerial) (hn : b.Names h) : h.index ≠ i := by
  obtain ⟨g, hg, hs⟩ := hn
  rcases (of_push hpush).2 hg with ⟨-, -, hserial⟩ | ⟨hne, -⟩
  · omega
  · exact hne

theorem keepsNames_push {parent : Option Nat} (hpush : a.push parent = .ok (i, b)) :
    KeepsNames none a b := by
  obtain ⟨hserial, hframes⟩ := of_push hpush
  -- an old frame is there as it was before
  have hold {h : Handle} (hlt : h.serial < a.nextSerial) (hn : b.Names h) {g : Frame}
      (hg : b.frame h.index = .ok g) :
      ∃ f, a.frame h.index = .ok f ∧ f.bindings = g.bindings ∧ f.serial = g.serial ∧
        f.parent = g.parent := by
    rcases hframes hg with ⟨hi, -⟩ | ⟨-, hf⟩
    · exact absurd hi (index_ne_of_push hpush hlt hn)
    · exact hf
  refine ⟨by omega, fun {h} hlt hn => ?_, fun {j f g} hf hg hlt => ?_,
    fun {h name} hlt hn hb => ?_, fun {h name} hlt hn _ hb => ?_⟩
  · obtain ⟨g, hg, hs⟩ := id hn
    obtain ⟨f, hf, -, hserial, -⟩ := hold hlt hn hg
    exact ⟨f, hf, hserial.trans hs⟩
  · obtain ⟨f', hf', -, -, hparent⟩ := hold (h := ⟨j, g.serial⟩) hlt ⟨g, hg, rfl⟩ hg
    rw [frame_inj hf hf', hparent]
  · obtain ⟨g, hg, -⟩ := id hn
    obtain ⟨f, v, hf, hv⟩ := hb
    obtain ⟨f', hf', hbindings, -⟩ := hold hlt hn hg
    obtain rfl := frame_inj hf hf'
    exact ⟨g, v, hg, hbindings ▸ hv⟩
  · obtain ⟨g, v, hg, hv⟩ := hb
    obtain ⟨f, hf, hbindings, -⟩ := hold hlt hn hg
    exact ⟨f, v, hf, hbindings ▸ hv⟩

/-- A frame is pushed, names are bound in it: the frames from before keep theirs. -/
theorem KeepsNames.of_entered {parent : Option Nat} (hpush : a.push parent = .ok (i, b))
    (hbody : KeepsNames (some i) b c) : KeepsNames none a c := by
  refine (keepsNames_push hpush).trans_of hbody fun h hlt hn hi => ?_
  exact absurd (Option.some.inj hi) (index_ne_of_push hpush hlt hn)

/-- A whole call: in the end the frame is released. -/
theorem KeepsNames.of_call {parent : Option Nat} (hpush : a.push parent = .ok (i, b))
    (hbody : KeepsNames (some i) b c) (hrelease : c.release held i = .ok d) :
    KeepsNames none a d :=
  (of_entered hpush hbody).trans (thinned_release hrelease).keepsNames

end Arena

end UniformScript
