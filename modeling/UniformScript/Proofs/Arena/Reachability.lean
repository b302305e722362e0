import UniformScript.Proofs.Arena.Sound

/-!
# What is reached in an arena

A handle is reached if a chain of parents and of handles in bound values leads to its frame from a
running frame or from a handle held outside of the arena.  A collection finds out by rounds and by
counting.  The rounds of `reach` close a set of slots under the links among waiting frames.  A
waiting frame has more handles than waiting frames hold on it just if a running frame or someone
outside holds one.

* `Reached`: what is reached from given handles.
* `closed_reach` and `reach_subset`: the slots that `reach` finds are closed under links, and links
  lead to all of them.
* `Sound.count_internal_lt_iff`: who holds the handles that the count of inner ones misses.
-/

namespace UniformScript

namespace Arena

variable {a b : Arena} {i j p : Nat} {f g k : Frame} {h : Handle} {held : List Handle}

/-! ## Being reached -/

/-- A chain of parents and of handles in bound values leads from a handle of `root` to the handle.
-/
inductive Reached (a : Arena) (root : Handle → Prop) : Handle → Prop where
  | root {h : Handle} : root h → Reached a root h
  | parent {h : Handle} {f : Frame} {p : Nat} {g : Frame} : Reached a root h →
      a.frame h.index = .ok f → f.serial = h.serial → f.parent = some p → a.frame p = .ok g →
      Reached a root ⟨p, g.serial⟩
  | value {h : Handle} {f : Frame} {k : Handle} : Reached a root h →
      a.frame h.index = .ok f → f.serial = h.serial → k ∈ f.handles → Reached a root k

theorem Reached.mono {root root' : Handle → Prop} (hroot : ∀ h, root h → root' h)
    (hr : a.Reached root h) : a.Reached root' h := by
  induction hr with
  | root hh => exact .root (hroot _ hh)
  | parent _ hf hserial hp hg ih => exact .parent ih hf hserial hp hg
  | value _ hf hserial hk ih => exact .value ih hf hserial hk

/-- What is reached is there, if the roots are. -/
theorem Sound.names_of_reached {root : Handle → Prop} (hs : a.Sound)
    (hroot : ∀ h, root h → a.Names h) (hr : a.Reached root h) : a.Names h := by
  induction hr with
  | root hh => exact hroot _ hh
  | parent _ _ _ _ hg => exact ⟨_, hg, rfl⟩
  | value _ hf _ hk => exact hs.names hf _ hk

/-! ## Rounds -/

theorem mem_successors_iff (hf : a.frame i = .ok f) :
    j ∈ a.successors i ↔ f.parent = some j ∨ ∃ h ∈ f.handles, h.index = j := by
  unfold successors
  rw [hf]
  simp only [List.mem_append, Option.mem_toList, List.mem_map]

theorem nodup_eraseDups (l : List Nat) : l.eraseDups.Nodup := by
  induction hn : l.length using Nat.strong_induction_on generalizing l with
  | _ n ih =>
    cases l with
    | nil => simp
    | cons x l =>
      have hlt : (l.filter fun y => !y == x).length < n := by
        have := List.length_filter_le (fun y => !y == x) l
        rw [List.length_cons] at hn
        omega
      rw [List.eraseDups_cons, List.nodup_cons]
      exact ⟨by simp [List.mem_eraseDups], ih _ hlt _ rfl⟩

/-- The slots that a round finds. -/
def fresh (within frontier seen : List Nat) : List Nat :=
  (frontier.filter fun i => within.contains i && !seen.contains i).eraseDups

theorem mem_fresh_iff {within frontier seen : List Nat} :
    i ∈ fresh within frontier seen ↔ i ∈ frontier ∧ i ∈ within ∧ i ∉ seen := by
  simp [fresh, List.mem_eraseDups]

theorem reach_succ (a : Arena) (within : List Nat) (rounds : Nat) (frontier seen : List Nat) :
    a.reach within (rounds + 1) frontier seen =
      if (fresh within frontier seen).isEmpty then seen
      else a.reach within rounds ((fresh within frontier seen).flatMap a.successors)
        (fresh within frontier seen ++ seen) := rfl

/-- What `reach` finds has every property that the frontier has and that links hand on. -/
theorem reach_subset {within : List Nat} {P : Nat → Prop}
    (hstep : ∀ i ∈ within, P i → ∀ j ∈ a.successors i, P j) {rounds : Nat}
    {frontier seen : List Nat} (hfrontier : ∀ i ∈ frontier, P i)
    (hseen : ∀ i ∈ seen, i ∈ within ∧ P i) :
    ∀ i ∈ a.reach within rounds frontier seen, i ∈ within ∧ P i := by
  induction rounds generalizing frontier seen with
  | zero => exact hseen
  | succ rounds ih =>
    rw [reach_succ]
    have hfresh : ∀ i ∈ fresh within frontier seen, i ∈ within ∧ P i := by
      intro i hi
      obtain ⟨hi, hw, -⟩ := mem_fresh_iff.1 hi
      exact ⟨hw, hfrontier i hi⟩
    split
    · exact hseen
    · refine ih (fun j hj => ?_) fun i hi => ?_
      · obtain ⟨i, hi, hj⟩ := List.mem_flatMap.1 hj
        obtain ⟨hw, hP⟩ := hfresh i hi
        exact hstep i hw hP j hj
      · rcases List.mem_append.1 hi with hi | hi
        · exact hfresh i hi
        · exact hseen i hi

/-- A set of slots that has the links of its slots, as far as they stay `within`. -/
def Closed (a : Arena) (within : List Nat) (slots : List Nat) : Prop :=
  ∀ i ∈ slots, ∀ j ∈ a.successors i, j ∈ within → j ∈ slots

/-- With more rounds than slots are left to find, `reach` finds the frontier and all it leads to.
-/
theorem closed_reach (a : Arena) {within : List Nat} {rounds : Nat} (frontier : List Nat)
    {seen : List Nat} (hnodup : seen.Nodup) (hsub : seen ⊆ within)
    (hrounds : within.length < seen.length + rounds)
    (hseen : ∀ i ∈ seen, ∀ j ∈ a.successors i, j ∈ within → j ∈ seen ∨ j ∈ frontier) :
    seen ⊆ a.reach within rounds frontier seen ∧
      (∀ i ∈ frontier, i ∈ within → i ∈ a.reach within rounds frontier seen) ∧
      a.Closed within (a.reach within rounds frontier seen) := by
  induction rounds generalizing seen frontier with
  | zero =>
    have hle := (hnodup.subperm hsub).length_le
    omega
  | succ rounds ih =>
    rw [reach_succ]
    have hfound {j : Nat} (hj : j ∈ frontier) (hw : j ∈ within) :
        j ∈ seen ∨ j ∈ fresh within frontier seen := by
      by_cases hs : j ∈ seen
      · exact .inl hs
      · exact .inr (mem_fresh_iff.2 ⟨hj, hw, hs⟩)
    have hdups : (fresh within frontier seen).Nodup := nodup_eraseDups _
    have hall {i : Nat} (hi : i ∈ fresh within frontier seen) := mem_fresh_iff.1 hi
    split
    · rename_i hempty
      rw [List.isEmpty_iff] at hempty
      have hin {j : Nat} (hj : j ∈ frontier) (hw : j ∈ within) : j ∈ seen := by
        rcases hfound hj hw with hs | hf
        · exact hs
        · rw [hempty] at hf
          cases hf
      refine ⟨List.Subset.refl _, fun i hi hw => hin hi hw, fun i hi j hj hw => ?_⟩
      exact (hseen i hi j hj hw).elim id fun hj => hin hj hw
    · rename_i hne
      generalize fresh within frontier seen = new at hfound hdups hall hne ⊢
      have hpos : 0 < new.length := by
        rw [List.length_pos_iff]
        rintro rfl
        exact hne rfl
      obtain ⟨hkeep, -, hclosed⟩ := ih (new.flatMap a.successors)
        (List.nodup_append.2 ⟨hdups, hnodup, fun i hi j hj hij => (hall hi).2.2 (hij ▸ hj)⟩)
        (List.append_subset.2 ⟨fun i hi => (hall hi).2.1, hsub⟩)
        (by rw [List.length_append]; omega)
        (fun i hi j hj hw => by
          rcases List.mem_append.1 hi with hi | hi
          · exact .inr (List.mem_flatMap.2 ⟨i, hi, hj⟩)
          · rcases hseen i hi j hj hw with hs | hf
            · exact .inl (List.mem_append_right _ hs)
            · exact .inl (List.mem_append.2 (hfound hf hw).symm))
      refine ⟨fun i hi => hkeep (List.mem_append_right _ hi), fun i hi hw => ?_, hclosed⟩
      exact hkeep (List.mem_append.2 (hfound hi hw).symm)

/-! ## Counting handles -/

/-- The waiting frames, in the order of their slots. -/
theorem Sound.exists_waiting (hs : a.Sound) : ∃ w, a.waiting = .ok w ∧
    w.map Prod.fst = a.pending ∧ ∀ x ∈ w, a.frame x.1 = .ok x.2 := by
  have hall : ∀ l : List Nat, (∀ i ∈ l, ∃ f, a.frame i = .ok f) →
      ∃ w : List (Nat × Frame), (l.mapM fun i => do
        let f ← a.frame i
        return (i, f)) = .ok w ∧ w.map Prod.fst = l ∧ ∀ x ∈ w, a.frame x.1 = .ok x.2 := by
    intro l hl
    induction l with
    | nil => exact ⟨[], rfl, rfl, nofun⟩
    | cons i l ih =>
      obtain ⟨f, hf⟩ := hl i List.mem_cons_self
      obtain ⟨w, hw, hfst, hframes⟩ := ih fun j hj => hl j (List.mem_cons_of_mem _ hj)
      refine ⟨(i, f) :: w, ?_, by rw [List.map_cons, hfst], ?_⟩
      · rw [List.mapM_cons, hf, hw]
        rfl
      · intro x hx
        rcases List.mem_cons.1 hx with rfl | hx
        · exact hf
        · exact hframes x hx
  refine hall a.pending fun i hi => ?_
  obtain ⟨f, hf, -⟩ := hs.mem_pending_iff.1 hi
  exact ⟨f, hf⟩

theorem Sound.nodup_live (hs : a.Sound) : a.live.Nodup := by
  unfold live
  rw [List.Nodup, List.pairwise_filterMap, List.pairwise_iff_getElem]
  intro i j hi hj hij f hf g hg hfg
  subst hfg
  have hslot (l : Nat) (hl : l < a.frames.toList.length) (h : id a.frames.toList[l] = some f) :
      a.frame l = .ok f := by
    rw [frame_eq_ok_iff, ← Array.getElem?_toList, List.getElem?_eq_getElem hl]
    exact congrArg some h
  have := hs.serial_inj (hslot i hi hf) (hslot j hj hg) rfl
  omega

/-- The waiting frames are the frames that have returned. -/
theorem Sound.perm_waiting (hs : a.Sound) {w : List (Nat × Frame)}
    (hfst : w.map Prod.fst = a.pending) (hframes : ∀ x ∈ w, a.frame x.1 = .ok x.2) :
    (w.map Prod.snd).Perm (a.live.filter Frame.returned) := by
  have hw : w.Pairwise fun x y => x.1 ≠ y.1 := by
    rw [← List.pairwise_map (f := Prod.fst) (R := (· ≠ ·)), hfst]
    exact hs.pending_nodup
  have hnodup : (w.map Prod.snd).Nodup := by
    rw [List.Nodup, List.pairwise_map]
    refine hw.imp_of_mem fun {x y} hx hy hne hsame => hne ?_
    exact hs.serial_inj (hframes x hx) (hframes y hy) (congrArg Frame.serial hsame)
  rw [List.perm_ext_iff_of_nodup hnodup (hs.nodup_live.filter _)]
  intro f
  rw [List.mem_map, List.mem_filter, mem_live_iff]
  constructor
  · rintro ⟨x, hx, rfl⟩
    have hmem : x.1 ∈ a.pending := hfst ▸ List.mem_map_of_mem hx
    obtain ⟨g, hg, hgr⟩ := hs.mem_pending_iff.1 hmem
    obtain rfl := frame_inj (hframes x hx) hg
    exact ⟨⟨_, hg⟩, hgr⟩
  · rintro ⟨⟨i, hf⟩, hr⟩
    have hmem : i ∈ w.map Prod.fst := hfst ▸ hs.mem_pending_iff.2 ⟨f, hf, hr⟩
    obtain ⟨x, hx, rfl⟩ := List.mem_map.1 hmem
    exact ⟨x, hx, frame_inj (hframes x hx) hf⟩

/-- The handles that some frames hold. -/
def handlesIn (frames : List Frame) : List Handle := frames.flatMap Frame.handles

theorem count_handles (a : Arena) (h : Handle) : a.handles.count h =
    (handlesIn (a.live.filter Frame.returned)).count h +
      (handlesIn (a.live.filter fun f => !f.returned)).count h := by
  have hperm := (List.filter_append_perm Frame.returned a.live).flatMap_right Frame.handles
  rw [List.flatMap_append] at hperm
  show (a.live.flatMap Frame.handles).count h = _
  rw [← hperm.count_eq, List.count_append]
  rfl

/-- The inner handles on a waiting frame are those that waiting frames hold. -/
theorem Sound.count_internal (hs : a.Sound) {w : List (Nat × Frame)}
    (hfst : w.map Prod.fst = a.pending) (hframes : ∀ x ∈ w, a.frame x.1 = .ok x.2)
    (hf : a.frame i = .ok f) (hr : f.returned = true) : (a.internal w).count i =
      (handlesIn (a.live.filter Frame.returned)).count ⟨i, f.serial⟩ := by
  have hi : a.pending.contains i = true := by
    simpa using hs.mem_pending_iff.2 ⟨f, hf, hr⟩
  have hslots : (w.flatMap fun x => x.2.handles.map Handle.index) =
      (handlesIn (w.map Prod.snd)).map Handle.index := by
    unfold handlesIn
    rw [List.map_flatMap, List.flatMap_map]
  have hperm := (hs.perm_waiting hfst hframes).flatMap_right Frame.handles
  unfold internal
  rw [List.count_filter hi, hslots]
  show _ = (List.flatMap _ _).count _
  rw [← hperm.count_eq, List.count, List.countP_map, List.count]
  refine List.countP_congr fun h hh => ?_
  obtain ⟨g, hg, hh⟩ := List.mem_flatMap.1 hh
  obtain ⟨x, hx, rfl⟩ := List.mem_map.1 hg
  have hn := hs.names (hframes x hx) h hh
  simp only [Function.comp_apply, beq_iff_eq]
  constructor
  · intro hindex
    exact hn.eq_handle hf hindex
  · rintro rfl
    rfl

/-- A waiting frame has more handles than the inner ones just if one of them is held outside or in
a running frame. -/
theorem Sound.count_internal_lt_iff (hs : a.Sound) {w : List (Nat × Frame)}
    (hfst : w.map Prod.fst = a.pending) (hframes : ∀ x ∈ w, a.frame x.1 = .ok x.2)
    (hf : a.frame i = .ok f) (hr : f.returned = true) :
    (a.internal w).count i < a.outstanding held ⟨i, f.serial⟩ ↔
      ⟨i, f.serial⟩ ∈ held ∨
        ∃ j g, a.frame j = .ok g ∧ g.returned = false ∧ ⟨i, f.serial⟩ ∈ g.handles := by
  unfold outstanding
  rw [hs.count_internal hfst hframes hf hr, count_handles, Nat.add_assoc]
  have hrunning : 0 < (handlesIn (a.live.filter fun f => !f.returned)).count ⟨i, f.serial⟩ ↔
      ∃ j g, a.frame j = .ok g ∧ g.returned = false ∧ ⟨i, f.serial⟩ ∈ g.handles := by
    rw [List.count_pos_iff, handlesIn, List.mem_flatMap]
    constructor
    · rintro ⟨g, hg, hh⟩
      obtain ⟨hg, hgr⟩ := List.mem_filter.1 hg
      obtain ⟨j, hj⟩ := mem_live_iff.1 hg
      exact ⟨j, g, hj, by simpa using hgr, hh⟩
    · rintro ⟨j, g, hj, hgr, hh⟩
      exact ⟨g, List.mem_filter.2 ⟨mem_live_iff.2 ⟨j, hj⟩, by simp [hgr]⟩, hh⟩
  rw [← hrunning, ← List.count_pos_iff (a := (⟨i, f.serial⟩ : Handle))]
  omega

end Arena

end UniformScript
