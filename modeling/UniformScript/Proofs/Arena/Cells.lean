import UniformScript.Proofs.Arena.Chains
import UniformScript.Proofs.Arena.Effects
import UniformScript.Proofs.Arena.History

/-!
# Reading and writing names

A name that a frame binds is a cell of that frame.  Reading a name goes up the chain of parents to
the first cell there is.  Binding a name writes the cell of the frame itself; giving a name another
value writes that of the frame or of its parent, and no cell further up.

* `Written`: one cell has been written, and nothing else is different.
* `Sees`: the frames from which a cell is read.
* `Sound.get_of_written`, `Sound.get_of_written_of_not_sees`: a write shows from these frames, and
  from no others.
* `Sound.exists_reassigned`: giving a name another value writes the nearer one of two cells, or
  does nothing.
* `Use.Reachable.cells_coherent`: so it is in every arena that comes of operations.
-/

namespace UniformScript

namespace Arena

variable {a b : Arena} {i j p : Nat} {f g : Frame} {path : List Nat} {name : String} {v : Value}

/-! ## Writing a cell -/

/-- The arena `b` is `a` with the value `v` in the cell of a name in slot `i`.  All other cells,
and all else in the frames and the books, are as before. -/
structure Written (a : Arena) (i : Nat) (name : String) (v : Value) (b : Arena) : Prop where
  cell : b.bound? name i = some v
  cells : ∀ k m, k ≠ i ∨ m ≠ name → b.bound? m k = a.bound? m k
  others : ∀ k, k ≠ i → b.frame k = a.frame k
  frame : ∀ k f, a.frame k = .ok f → ∃ bindings, b.frame k = .ok { f with bindings }
  books : SameBooks a b

theorem written_putFrame (hf : a.frame i = .ok f) (name : String) (v : Value) :
    Written a i name v (a.putFrame i { f with bindings := f.bindings.put name v }) := by
  have hself := frame_putFrame_self { f with bindings := f.bindings.put name v } hf
  have hother {k : Nat} (hk : k ≠ i) :=
    frame_putFrame_of_ne hk a { f with bindings := f.bindings.put name v }
  refine ⟨?_, fun k m hkm => ?_, fun k hk => hother hk, fun k g hg => ?_, sameBooks_putFrame _ _ _⟩
  · rw [bound?_eq hself]
    exact Bindings.lookup_put_self name v f.bindings
  · by_cases hk : k = i
    · subst hk
      rw [bound?_eq hself, bound?_eq hf]
      exact Bindings.lookup_put_of_ne (hkm.resolve_left (absurd rfl)) v f.bindings
    · unfold bound?
      rw [hother hk]
  · by_cases hk : k = i
    · subst hk
      obtain rfl := frame_inj hf hg
      exact ⟨_, hself⟩
    · exact ⟨g.bindings, (hother hk).trans hg⟩

/-- Writing a cell moves no frame: chains of parents stay as they are. -/
theorem Written.chain (hw : Written a i name v b) (h : a.Chain j path) : b.Chain j path := by
  induction h with
  | outermost hf hp =>
    obtain ⟨bindings, hg⟩ := hw.frame _ _ hf
    exact .outermost hg hp
  | inside hf hp _ ih =>
    obtain ⟨bindings, hg⟩ := hw.frame _ _ hf
    exact .inside hg hp ih

/-- After a write, a name is looked up in the frames that it was looked up in before. -/
theorem Sound.get_eq_of_written (hs : a.Sound) (hw : Written a i name v b) (h : a.Chain j path)
    (m : String) : b.get j m = .ok (path.findSome? (b.bound? m)) := by
  refine (hw.chain h).lookup_eq ?_ m
  rw [hw.books.size]
  exact hs.length_le_of_chain h

/-! ## Seeing a cell -/

/-- From slot `j`, the cell of the name in slot `i` is the one that is read: the chain of parents
comes to `i`, and no frame before it binds the name. -/
def Sees (a : Arena) (j : Nat) (name : String) (i : Nat) : Prop :=
  ∃ near far, a.Chain j (near ++ i :: far) ∧ ∀ k ∈ near, a.bound? name k = none

theorem Sound.sees_self (hs : a.Sound) (hf : a.frame i = .ok f) (name : String) :
    a.Sees i name i := by
  obtain ⟨path, h⟩ := hs.exists_chain hf
  obtain ⟨far, rfl⟩ := h.head
  exact ⟨[], far, h, nofun⟩

theorem Sound.sees_parent (hs : a.Sound) (hf : a.frame i = .ok f) (hp : f.parent = some p)
    (hnone : a.bound? name i = none) : a.Sees i name p := by
  obtain ⟨g, hg, -⟩ := hs.parent_there hf hp
  obtain ⟨path, h⟩ := hs.exists_chain hg
  obtain ⟨far, rfl⟩ := h.head
  exact ⟨[i], far, .inside hf hp h, by simpa using hnone⟩

/-- What is written into a cell is read from every frame that sees it. -/
theorem Sound.get_of_written (hs : a.Sound) (hw : Written a i name v b) (hsees : a.Sees j name i) :
    b.get j name = .ok (some v) := by
  obtain ⟨near, far, h, hnear⟩ := hsees
  have hnodup := hs.nodup_of_chain h
  have hnear' : near.findSome? (b.bound? name) = none := by
    refine List.findSome?_eq_none_iff.2 fun k hk => ?_
    have hne : k ≠ i := by
      rintro rfl
      exact (List.nodup_append.1 hnodup).2.2 k hk k List.mem_cons_self rfl
    rw [hw.cells k name (.inl hne)]
    exact hnear k hk
  rw [hs.get_eq_of_written hw h, List.findSome?_append, hnear', List.findSome?_cons, hw.cell]
  rfl

/-- From all other frames, and under all other names, what is read is what was read before. -/
theorem Sound.get_of_written_of_not_sees (hs : a.Sound) (hw : Written a i name v b)
    (hf : a.frame j = .ok f) {m : String} (hnot : ¬ (m = name ∧ a.Sees j name i)) :
    b.get j m = a.get j m := by
  obtain ⟨path, h⟩ := hs.exists_chain hf
  rw [hs.get_eq_of_written hw h, hs.get_eq_of_chain h]
  -- away from the cell, the frames on the chain bind what they bound before
  have hsame {ks : List Nat} (hks : ∀ k ∈ ks, k ≠ i ∨ m ≠ name) :
      ks.findSome? (b.bound? m) = ks.findSome? (a.bound? m) := by
    rw [← List.head?_filterMap, ← List.head?_filterMap,
      List.filterMap_congr fun k hk => hw.cells k m (hks k hk)]
  by_cases hm : m = name
  · subst hm
    by_cases hi : i ∈ path
    · obtain ⟨near, far, rfl⟩ := List.append_of_mem hi
      have hnear : ∀ k ∈ near, k ≠ i ∨ m ≠ m := by
        rintro k hk
        refine .inl ?_
        rintro rfl
        exact (List.nodup_append.1 (hs.nodup_of_chain h)).2.2 k hk k List.mem_cons_self rfl
      -- the cell is on the chain, so a frame in front of it binds the name
      obtain ⟨w, hw⟩ : ∃ w, near.findSome? (a.bound? m) = some w := by
        by_contra hnone
        refine hnot ⟨rfl, near, far, h, List.findSome?_eq_none_iff.1 ?_⟩
        exact Option.eq_none_iff_forall_ne_some.2 fun w hw => hnone ⟨w, hw⟩
      rw [List.findSome?_append, List.findSome?_append, hsame hnear, hw]
      rfl
    · exact congrArg _ (hsame fun k hk => .inl fun hki => hi (hki ▸ hk))
  · exact congrArg _ (hsame fun k _ => .inr hm)

/-! ## Giving a name another value -/

/-- The slot where a name is given another value, if the frame or its parent binds it. -/
theorem Sound.binder_cases (hs : a.Sound) (hf : a.frame i = .ok f) (name : String) :
    (∃ k g, a.binder i name = .ok (some k) ∧ (k = i ∨ f.parent = some k) ∧ a.frame k = .ok g ∧
      (a.bound? name k).isSome ∧ a.Sees i name k) ∨
    (a.binder i name = .ok none ∧ a.bound? name i = none ∧
      ∀ p, f.parent = some p → a.bound? name p = none) := by
  unfold binder
  rw [hf]
  simp only [bind, Except.bind]
  split
  · rename_i hbound
    exact .inl ⟨i, f, rfl, .inl rfl, hf, by rwa [bound?_eq hf], hs.sees_self hf name⟩
  · rename_i hnone
    have hnone : a.bound? name i = none := by
      rw [bound?_eq hf]
      exact Option.not_isSome_iff_eq_none.1 hnone
    cases hp : f.parent with
    | none => exact .inr ⟨rfl, hnone, nofun⟩
    | some p =>
      obtain ⟨g, hg, -⟩ := hs.parent_there hf hp
      simp only [hg]
      split
      · rename_i hbound
        exact .inl ⟨p, g, rfl, .inr rfl, hg, by rwa [bound?_eq hg], hs.sees_parent hf hp hnone⟩
      · rename_i hunbound
        refine .inr ⟨rfl, hnone, ?_⟩
        rintro _ ⟨⟩
        rw [bound?_eq hg]
        exact Option.not_isSome_iff_eq_none.1 hunbound

/-- What comes of giving a name in slot `i` another value, and whether there was one. -/
structure Reassigned (a : Arena) (i : Nat) (name : String) (v : Value) (found : Bool) (b : Arena) :
    Prop where
  /-- The name is found if the frame or its parent binds it. -/
  found_iff : found = true ↔ (a.bound? name i).isSome ∨
    ∃ p, a.parent i = .ok (some p) ∧ (a.bound? name p).isSome
  /-- Then one cell, of the frame or of its parent, is written, -/
  written : found = true → ∃ k, (k = i ∨ a.parent i = .ok (some k)) ∧ (a.bound? name k).isSome ∧
    a.Written k name v b
  /-- and the value is read from the frame. -/
  get : found = true → b.get i name = .ok (some v)
  /-- Frames two or more levels up are as before, -/
  above : ∀ path, a.Chain i path → ∀ k ∈ path.drop 2, b.frame k = a.frame k
  /-- and if the name is not found, all is. -/
  unchanged : found = false → b = a

theorem parent_eq (hf : a.frame i = .ok f) : a.parent i = .ok f.parent := by
  unfold parent
  rw [hf]
  rfl

/-- The slots of a frame and of its parent are not among those further up. -/
theorem Sound.ne_of_mem_drop (hs : a.Sound) (hf : a.frame i = .ok f) (h : a.Chain i path)
    {k n : Nat} (hk : k = i ∨ f.parent = some k) (hn : n ∈ path.drop 2) : n ≠ k := by
  have hnodup := hs.nodup_of_chain h
  cases h with
  | outermost _ _ => cases hn
  | inside hf' hp h' =>
    obtain rfl := frame_inj hf hf'
    obtain ⟨far, rfl⟩ := h'.head
    simp only [List.drop_succ_cons, List.drop_zero] at hn
    simp only [List.nodup_cons, List.mem_cons, not_or] at hnodup
    rintro rfl
    rcases hk with rfl | hk
    · exact hnodup.1.2 hn
    · cases hp.symm.trans hk
      exact hnodup.2.1 hn

theorem Sound.exists_reassigned (hs : a.Sound) (hf : a.frame i = .ok f) (name : String)
    (v : Value) :
    ∃ found b, a.reassign i name v = .ok (found, b) ∧ Reassigned a i name v found b := by
  have hparent := parent_eq hf
  unfold reassign
  obtain ⟨k, g, hbinder, hk, hg, hbound, hsees⟩ | ⟨hbinder, hself, hup⟩ := hs.binder_cases hf name
  · have hw := written_putFrame hg name v
    have hk' : k = i ∨ a.parent i = .ok (some k) := hk.imp_right fun h => by rw [hparent, h]
    refine ⟨true, _, by rw [hbinder]; simp only [bind, Except.bind, set_eq hg]; rfl, ?_⟩
    refine ⟨⟨fun _ => ?_, fun _ => rfl⟩, fun _ => ⟨k, hk', hbound, hw⟩,
      fun _ => hs.get_of_written hw hsees, fun path h n hn => ?_, nofun⟩
    · rcases hk' with rfl | hk'
      · exact .inl hbound
      · exact .inr ⟨k, hk', hbound⟩
    · exact hw.others n (hs.ne_of_mem_drop hf h hk hn)
  · refine ⟨false, a, by rw [hbinder]; rfl, ⟨nofun, ?_⟩, nofun, nofun, fun _ _ _ _ => rfl,
      fun _ => rfl⟩
    rintro (hsome | ⟨p, hp, hsome⟩)
    · rw [hself] at hsome
      cases hsome
    · rw [hparent] at hp
      rw [hup p (Except.ok.inj hp)] at hsome
      cases hsome

/-! ## Reading and writing -/

/-- Reading, binding and giving another value fit together, in all frames that are there. -/
structure Coherent (a : Arena) : Prop where
  /-- A name has the value that the first frame on the chain of parents binds it to, if one does.
  -/
  get : ∀ i f n, a.frame i = .ok f →
    ∃ path, a.Chain i path ∧ a.get i n = .ok (path.findSome? (a.bound? n))
  /-- Binding a name writes its cell in the frame.  The value is read from the frame, and from
  those that see the cell; nothing else is read differently. -/
  set : ∀ i f n v, a.frame i = .ok f → ∃ b, a.set i n v = .ok b ∧ a.Written i n v b ∧
    b.get i n = .ok (some v) ∧ ∀ j g m, a.frame j = .ok g →
      (a.Sees j n i → b.get j n = .ok (some v)) ∧ (b.get j m ≠ a.get j m → m = n ∧ a.Sees j n i)
  /-- Giving a name another value writes one cell that is there, or nothing. -/
  reassign : ∀ i f n v, a.frame i = .ok f → ∃ found b, a.reassign i n v = .ok (found, b) ∧
    a.Reassigned i n v found b

theorem Sound.coherent (hs : a.Sound) : a.Coherent where
  get i f n hf := by
    obtain ⟨path, h⟩ := hs.exists_chain hf
    exact ⟨path, h, hs.get_eq_of_chain h n⟩
  set i f n v hf := by
    have hw := written_putFrame hf n v
    refine ⟨_, set_eq hf, hw, hs.get_of_written hw (hs.sees_self hf n), fun j g m hg => ?_⟩
    refine ⟨hs.get_of_written hw, fun hne => ?_⟩
    by_contra hnot
    exact hne (hs.get_of_written_of_not_sees hw hg hnot)
  reassign i f n v hf := hs.exists_reassigned hf n v

namespace Use

variable {s : Use}

/-- In whatever way an arena is used, and whatever its frames have for parents, reading a name,
binding it and giving it another value fit together. -/
theorem Reachable.cells_coherent (hs : s.Reachable) : s.arena.Coherent :=
  hs.invariant.sound.coherent

/-- A slot is used again, two levels below the global frame.  What is bound in the global frame is
read from there, but cannot be given another value from there; what its parent binds can. -/
theorem Reachable.cells_coherent_levels : ∃ s, Reachable s ∧ s.arena.Coherent ∧
    s.arena.Chain 1 [1, 2, 0] ∧
    (∀ b, s.arena.set 0 "x" (.text "c") = .ok b → b.get 1 "x" = .ok (some (.text "c"))) ∧
    (∃ b, s.arena.reassign 1 "x" (.text "c") = .ok (false, b)) ∧
    ∃ b, s.arena.reassign 1 "y" (.text "c") = .ok (true, b) ∧
      b.get 1 "y" = .ok (some (.text "c")) := by
  have hs : Reachable _ := .start
  have hs := hs.step (.push (some 0)) (by rintro p ⟨⟩; exact ⟨_, rfl⟩) rfl
  have hs := hs.step (.push (some 0)) (by rintro p ⟨⟩; exact ⟨_, rfl⟩) rfl
  have hs := hs.step (.release 1)
    (.inr ⟨⟨1, 1⟩, List.mem_cons_of_mem _ List.mem_cons_self, rfl⟩) rfl
  have hs := hs.step (.push (some 2)) (by rintro p ⟨⟩; exact ⟨_, rfl⟩) rfl
  have hs := hs.step (.set 0 "x" (.text "a")) ⟨⟨_, rfl⟩, nofun⟩ rfl
  have hs := hs.step (.set 2 "y" (.text "b")) ⟨⟨_, rfl⟩, nofun⟩ rfl
  have hc := hs.cells_coherent
  obtain ⟨s, hs, hc, hlast, hmiddle, hfirst⟩ : ∃ s : Use, s.Reachable ∧ s.arena.Coherent ∧
      s.arena.frame 1 = .ok ⟨[], some 2, 3, 0, false⟩ ∧
      s.arena.frame 2 = .ok ⟨[("y", .text "b")], some 0, 2, 1, false⟩ ∧
      s.arena.frame 0 = .ok ⟨[("x", .text "a")], none, 0, 1, false⟩ := ⟨_, hs, hc, rfl, rfl, rfl⟩
  have hchain : s.arena.Chain 1 [1, 2, 0] :=
    .inside hlast rfl (.inside hmiddle rfl (.outermost hfirst rfl))
  have hparent : s.arena.parent 1 = .ok (some 2) := parent_eq hlast
  refine ⟨s, hs, hc, hchain, fun b hb => ?_, ?_, ?_⟩
  · obtain ⟨b', hb', -, -, hreads⟩ := hc.set 0 _ "x" (.text "c") hfirst
    cases hb.symm.trans hb'
    refine (hreads 1 _ "x" hlast).1 ⟨[1, 2], [], hchain, fun k hk => ?_⟩
    obtain rfl | rfl : k = 1 ∨ k = 2 := by simpa using hk
    · rw [bound?_eq hlast]; rfl
    · rw [bound?_eq hmiddle]; rfl
  · obtain ⟨found, b, hb, hr⟩ := hc.reassign 1 _ "x" (.text "c") hlast
    cases found with
    | false => exact ⟨b, hb⟩
    | true =>
      rcases hr.found_iff.1 rfl with hbound | ⟨p, hp, hbound⟩
      · rw [bound?_eq hlast] at hbound
        cases hbound
      · cases hparent.symm.trans hp
        rw [bound?_eq hmiddle] at hbound
        cases hbound
  · obtain ⟨found, b, hb, hr⟩ := hc.reassign 1 _ "y" (.text "c") hlast
    have hfound : found = true :=
      hr.found_iff.2 (.inr ⟨2, hparent, by rw [bound?_eq hmiddle]; rfl⟩)
    exact ⟨b, hfound ▸ hb, hr.get hfound⟩

end Use

end Arena

end UniformScript
