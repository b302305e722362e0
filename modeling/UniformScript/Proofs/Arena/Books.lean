import UniformScript.Proofs.Arena.Chains
import UniformScript.Proofs.Arena.Effects
import UniformScript.Proofs.Arena.History

/-!
# The books of an arena

An arena counts children, keeps lists of free and of waiting slots, and knows how many frames may
wait until a collection.  Whatever operations come one after the other, these books are exact: the
counts are those of the children that are there, also between two frames that one collection frees;
the lists hold each slot that belongs there once; and less frames wait than may.

* `FreesCounted`: freeing slots that the parents of their frames count.
* `collect_eq`: a collection sorts the waiting slots, and then frees some of them.
* `Use.Kept`: uses together with how many frames the last due collection left.
* `Use.Reachable.books_exact`: all books, in every use of an arena.
-/

namespace UniformScript

namespace Arena

variable {a b c : Arena} {i j p : Nat} {f g : Frame} {held : List Handle} {kept dead : List Nat}

/-! ## Freeing what is counted -/

/-- Slots are freed one after the other.  Each of them holds a frame when its turn comes, and the
parent of that frame, unless it was freed before, counts at least one child. -/
def FreesCounted (a : Arena) : List Nat → Prop
  | [] => True
  | i :: rest =>
    (∃ f, a.frame i = .ok f ∧
      ∀ p g, f.parent = some p → a.frame p = .ok g → 0 < g.children) ∧
    (a.freeFrame i).FreesCounted rest

/-- As long as every frame counts its children, there is one to take away when a frame is freed. -/
theorem CountsChildren.freesCounted (hc : a.CountsChildren) (hnodup : dead.Nodup)
    (hdead : ∀ i ∈ dead, ∃ f, a.frame i = .ok f) : a.FreesCounted dead := by
  induction dead generalizing a with
  | nil => trivial
  | cons d dead ih =>
    obtain ⟨hd, hnodup⟩ := List.nodup_cons.1 hnodup
    obtain ⟨f, hf⟩ := hdead d List.mem_cons_self
    refine ⟨⟨f, hf, fun p g hp hg => ?_⟩, ih (hc.freeFrame hf) hnodup fun i hi => ?_⟩
    · rw [hc p g hg]
      exact Finset.card_pos.2 ⟨d, mem_childrenOf_iff.2 ⟨f, hf, hp⟩⟩
    · obtain ⟨g, hg⟩ := hdead i (List.mem_cons_of_mem _ hi)
      exact ⟨_, (frame_freeFrame_iff hf).2 ⟨fun h => hd (h ▸ hi), g, hg, rfl⟩⟩

/-! ## Collecting in two steps -/

/-- The waiting slots that a collection keeps, and those that it frees. -/
def sorted (a : Arena) (held : List Handle) : Except Fault (List Nat × List Nat) := do
  let waiting ← a.waiting
  let reached := a.reach a.pending (a.pending.length + 1) (a.roots held waiting) []
  return a.pending.partition (reached.contains ·)

/-- A collection sorts the waiting slots, and then frees some of them. -/
theorem collect_eq (a : Arena) (held : List Handle) :
    a.collect held =
      (a.sorted held).map fun parts => parts.2.foldl freeFrame { a with pending := parts.1 } := by
  obtain ⟨frames, free, pending, threshold, nextSerial, reclaiming⟩ := a
  cases pending with
  | nil => rfl
  | cons i pending =>
    unfold collect sorted
    rw [if_neg (by simp)]
    generalize waiting _ = w
    cases w with
    | error fault => rfl
    | ok w => rfl

/-- The slots that a collection frees wait, and are freed once each. -/
theorem dead_of_sorted (hs : a.Sound) (h : a.sorted held = .ok (kept, dead)) :
    dead.Nodup ∧ ∀ i ∈ dead, ∃ f, a.frame i = .ok f := by
  unfold sorted at h
  obtain ⟨w, hw, -, -⟩ := hs.exists_waiting
  rw [hw] at h
  simp only [bind, Except.bind, pure, Except.pure, List.partition_eq_filter_filter] at h
  obtain ⟨-, rfl⟩ := Prod.mk.inj (Except.ok.inj h)
  refine ⟨hs.pending_nodup.filter _, fun i hi => ?_⟩
  obtain ⟨f, hf, -⟩ := hs.mem_pending_iff.1 (List.mem_of_mem_filter hi)
  exact ⟨f, hf⟩

/-- A collection frees slots one after the other, each of which is counted when its turn comes. -/
structure CollectsCounted (a : Arena) (held : List Handle) (kept dead : List Nat) : Prop where
  sorted_eq : a.sorted held = .ok (kept, dead)
  collect_eq : a.collect held = .ok (dead.foldl freeFrame { a with pending := kept })
  counted : ({ a with pending := kept } : Arena).FreesCounted dead

theorem Sound.collectsCounted (hs : a.Sound) (held : List Handle) :
    ∃ kept dead, a.CollectsCounted held kept dead := by
  obtain ⟨w, hw, -, -⟩ := hs.exists_waiting
  obtain ⟨⟨kept, dead⟩, hsorted⟩ : ∃ parts, a.sorted held = .ok parts := by
    unfold sorted
    rw [hw]
    exact ⟨_, rfl⟩
  obtain ⟨hnodup, hdead⟩ := dead_of_sorted hs hsorted
  have hcounts : ({ a with pending := kept } : Arena).CountsChildren := fun i f hf =>
    hs.children_eq hf
  refine ⟨kept, dead, hsorted, ?_, hcounts.freesCounted hnodup hdead⟩
  rw [Arena.collect_eq, hsorted]
  rfl

/-- The release of a frame frees it at once, or lets it wait and collects if that is due; either
way it frees slots that are counted. -/
structure ReleaseCounted (a : Arena) (held : List Handle) (i : Nat) (f : Frame) : Prop where
  atOnce : ¬ a.Referred held i f →
    a.release held i = .ok ((a.putFrame i { f with returned := true }).freeFrame i) ∧
    (a.putFrame i { f with returned := true }).FreesCounted [i]
  waiting : a.Referred held i f → a.release held i = (a.wait i f).collectIfDue held ∧
    ∃ kept dead, (a.wait i f).CollectsCounted held kept dead

theorem Sound.releaseCounted (hs : a.Sound) (hf : a.frame i = .ok f) (hi : i ≠ 0)
    (hreturned : f.returned = false) (held : List Handle) : a.ReleaseCounted held i f := by
  obtain ⟨hwait, hfree⟩ := release_eq hs.reclaiming hi hf held
  have hw := hs.wait hf hi hreturned
  refine ⟨fun hnone => ⟨hfree hnone, ?_⟩, fun hsome => ⟨hwait hsome, hw.collectsCounted held⟩⟩
  have hcounts : (a.putFrame i { f with returned := true }).CountsChildren := fun j g hg =>
    hw.children_eq hg
  refine hcounts.freesCounted (List.nodup_singleton i) fun j hj => ?_
  obtain rfl := List.mem_singleton.1 hj
  exact ⟨_, frame_putFrame_self _ hf⟩

/-! ## What may wait -/

theorem threshold_freeFrame (a : Arena) (i : Nat) : (a.freeFrame i).threshold = a.threshold := by
  obtain ⟨f, hf⟩ | hf := a.frame_cases i
  · exact (books_freeFrame hf).threshold
  · unfold freeFrame
    rw [hf]

theorem pending_freeFrame (a : Arena) (i : Nat) : (a.freeFrame i).pending = a.pending := by
  obtain ⟨f, hf⟩ | hf := a.frame_cases i
  · exact (books_freeFrame hf).pending
  · unfold freeFrame
    rw [hf]

/-- Freeing slots does not change how many frames wait, nor how many may. -/
theorem foldl_freeFrame (a : Arena) (dead : List Nat) :
    (dead.foldl freeFrame a).threshold = a.threshold ∧
      (dead.foldl freeFrame a).pending = a.pending := by
  induction dead generalizing a with
  | nil => exact ⟨rfl, rfl⟩
  | cons d dead ih =>
    obtain ⟨hthreshold, hpending⟩ := ih (a.freeFrame d)
    exact ⟨hthreshold.trans (a.threshold_freeFrame d), hpending.trans (a.pending_freeFrame d)⟩

theorem threshold_collect (h : a.collect held = .ok b) : b.threshold = a.threshold := by
  rw [collect_eq] at h
  cases hsorted : a.sorted held with
  | error fault =>
    rw [hsorted] at h
    cases h
  | ok parts =>
    rw [hsorted] at h
    cases h
    exact (foldl_freeFrame _ _).1

/-- The arena collects when twice as many frames wait as were left the last time, or more than a
minimum, and has not yet come to that. -/
structure InTime (a : Arena) (n : Nat) : Prop where
  threshold : a.threshold = max minThreshold (2 * n)
  lt : a.pending.length < a.threshold

theorem InTime.of_le {n : Nat} (h : a.InTime n) (hthreshold : b.threshold = a.threshold)
    (hpending : b.pending.length ≤ a.pending.length) : b.InTime n :=
  ⟨hthreshold.trans h.threshold, hthreshold ▸ Nat.lt_of_le_of_lt hpending h.lt⟩

/-- The end of a call: if no collection is due, the same number of frames may wait as before; and
if one is due, twice as many as it leaves. -/
theorem Sound.inTime_of_release (hs : a.Sound) (hheld : ∀ h ∈ held, a.Names h) {n : Nat}
    (hn : a.InTime n) (hf : a.frame i = .ok f) (hreturned : f.returned = false) (hi : i ≠ 0)
    (hb : a.release held i = .ok b) :
    (¬ a.CollectsAtRelease held i → b.InTime n) ∧
      (a.CollectsAtRelease held i → b.InTime b.pending.length) := by
  obtain ⟨hwait, hfree⟩ := release_eq hs.reclaiming hi hf held
  have hlength : (a.wait i f).pending.length = a.pending.length + 1 := List.length_append
  by_cases hreferred : a.Referred held i f
  · rw [hwait hreferred] at hb
    obtain ⟨c, hc, hcollected⟩ := (hs.wait hf hi hreturned).exists_collect fun h hh =>
      (names_wait_iff hf).2 (hheld h hh)
    rw [collectIfDue_eq hc, hlength] at hb
    constructor
    · intro hnot
      have hlt : a.pending.length + 1 < a.threshold := by
        by_contra hge
        exact hnot ⟨hi, f, hf, hreferred, Nat.not_lt.1 hge⟩
      rw [if_pos (show _ < (a.wait i f).threshold from hlt)] at hb
      cases hb
      exact ⟨hn.threshold, hlength ▸ hlt⟩
    · rintro ⟨-, -, -, -, hdue⟩
      rw [if_neg (show ¬ _ < (a.wait i f).threshold from Nat.not_lt.2 hdue)] at hb
      cases hb
      refine ⟨Nat.max_comm _ _, ?_⟩
      show c.pending.length < max (2 * c.pending.length) minThreshold
      unfold minThreshold
      omega
  · rw [hfree hreferred] at hb
    cases hb
    constructor
    · intro _
      exact hn.of_le (threshold_freeFrame _ _) (Nat.le_of_eq (congrArg _ (pending_freeFrame _ _)))
    · rintro ⟨-, g, hg, hgr, -⟩
      obtain rfl := frame_inj hf hg
      exact absurd hgr hreferred

/-! ## Uses -/

namespace Use

variable {s s' : Use} {op : Op} {n : Nat}

/-- The uses that come of operations that are allowed, and how many frames were left waiting by the
last collection that a release made; none, if there was no such collection. -/
inductive Kept : Use → Nat → Prop where
  | start : Kept start 0
  | due {s s' : Use} {n i : Nat} : Kept s n → s.Allowed (.release i) →
    s.arena.CollectsAtRelease s.held i → s.perform (.release i) = .ok s' →
    Kept s' s'.arena.pending.length
  | other {s s' : Use} {n : Nat} (op : Op) : Kept s n → s.Allowed op →
    (∀ i, op = .release i → ¬ s.arena.CollectsAtRelease s.held i) → s.perform op = .ok s' →
    Kept s' n

theorem Kept.reachable (h : Kept s n) : s.Reachable := by
  induction h with
  | start => exact .start
  | due _ hop _ hperform ih => exact ih.step _ hop hperform
  | other op _ hop _ hperform ih => exact ih.step op hop hperform

theorem Reachable.exists_kept (h : s.Reachable) : ∃ n, Kept s n := by
  induction h with
  | start => exact ⟨0, .start⟩
  | @step s s' op _ hop hperform ih =>
    obtain ⟨n, hn⟩ := ih
    by_cases hdue : ∃ i, op = .release i ∧ s.arena.CollectsAtRelease s.held i
    · obtain ⟨i, rfl, hdue⟩ := hdue
      exact ⟨_, hn.due hop hdue hperform⟩
    · exact ⟨n, hn.other op hop (fun i hi hc => hdue ⟨i, hi, hc⟩) hperform⟩

/-- What an operation does to the arena. -/
def Changes (s : Use) (b : Arena) : Op → Prop
  | .push parent => ∃ i, s.arena.push parent = .ok (i, b)
  | .set i name v => s.arena.set i name v = .ok b
  | .reassign i name v => ∃ r, s.arena.reassign i name v = .ok (r, b)
  | .release i => s.arena.release s.held i = .ok b
  | .collect => s.arena.collect s.held = .ok b
  | .handle _ | .clone _ | .drop _ | .get _ _ | .parent _ => b = s.arena

/-- Of two steps in a row that give a result, the first gives one. -/
theorem exists_of_bind {α β : Type} {x : Except Fault α} {g : α → Except Fault β} {r : β}
    (h : x >>= g = .ok r) : ∃ y, x = .ok y ∧ g y = .ok r := by
  cases x with
  | error fault => cases h
  | ok y => exact ⟨y, rfl, h⟩

theorem changes_of_perform (h : s.perform op = .ok s') : s.Changes s'.arena op := by
  cases op with
  | push parent =>
    obtain ⟨⟨i, b⟩, hpush, h⟩ := exists_of_bind h
    obtain ⟨k, -, h⟩ := exists_of_bind h
    cases h
    exact ⟨i, hpush⟩
  | handle i | get i _ | parent i =>
    obtain ⟨_, -, h⟩ := exists_of_bind h
    cases h
    rfl
  | clone k | drop k =>
    cases h
    rfl
  | set i name v =>
    obtain ⟨b, hset, h⟩ := exists_of_bind h
    cases h
    exact hset
  | reassign i name v =>
    obtain ⟨⟨r, b⟩, hset, h⟩ := exists_of_bind h
    cases h
    exact ⟨r, hset⟩
  | release i =>
    obtain ⟨b, hrelease, h⟩ := exists_of_bind h
    cases h
    exact hrelease
  | collect =>
    obtain ⟨b, hcollect, h⟩ := exists_of_bind h
    cases h
    exact hcollect

/-- If no collection is due, an operation does not change how many frames may wait, and after it
less of them do. -/
theorem inTime_of_changes {b : Arena} (inv : s.Invariant) (hop : s.Allowed op)
    (hnot : ∀ i, op = .release i → ¬ s.arena.CollectsAtRelease s.held i)
    (h : s.Changes b op) (hn : s.arena.InTime n) : b.InTime n := by
  cases op with
  | push parent =>
    obtain ⟨i, hpush⟩ := h
    obtain ⟨j, c, hpush', hp, -⟩ := inv.sound.exists_push hop
    cases hpush.symm.trans hpush'
    exact hn.of_le hp.threshold (Nat.le_of_eq (congrArg _ hp.pending))
  | set i name v =>
    obtain ⟨f, hf, rfl⟩ := exists_of_set h
    exact hn.of_le rfl (Nat.le_refl _)
  | reassign i name v =>
    obtain ⟨r, hset⟩ := h
    obtain rfl | ⟨j, f, -, -, rfl⟩ := exists_of_reassign hset
    · exact hn
    · exact hn.of_le rfl (Nat.le_refl _)
  | release i =>
    by_cases hi : i = 0
    · subst hi
      cases h
      exact hn
    · obtain ⟨k, hk, rfl⟩ := hop.resolve_left hi
      obtain ⟨f, hf, -, hrunning⟩ := (inv.running_iff k).2 (.inr hk)
      exact (inv.sound.inTime_of_release inv.names hn hf hrunning hi h).1 (hnot _ rfl)
  | collect =>
    obtain ⟨c, hc, hcollected⟩ := inv.sound.exists_collect inv.names
    cases (show s.arena.collect s.held = .ok b from h).symm.trans hc
    exact hn.of_le (threshold_collect hc) hcollected.pending.length_le
  | handle _ | clone _ | drop _ | get _ _ | parent _ =>
    cases h
    exact hn

/-- The arena always collects in time. -/
theorem Kept.inTime (h : Kept s n) : s.arena.InTime n := by
  induction h with
  | start => exact ⟨rfl, by decide⟩
  | @due s s' n i hkept hop hdue hperform ih =>
    have inv := hkept.reachable.invariant
    have hi := hdue.1
    obtain ⟨k, hk, rfl⟩ := hop.resolve_left hi
    obtain ⟨f, hf, -, hrunning⟩ := (inv.running_iff k).2 (.inr hk)
    have hrelease := changes_of_perform hperform
    exact (inv.sound.inTime_of_release inv.names ih hf hrunning hi hrelease).2 hdue
  | other op hkept hop hnot hperform ih =>
    exact inTime_of_changes hkept.reachable.invariant hop hnot (changes_of_perform hperform) ih

/-- The books of an arena agree with its frames, and with what its users have done. -/
structure Books (s : Use) : Prop where
  /-- Every frame counts its children. -/
  children : ∀ i f, s.arena.frame i = .ok f → f.children = (s.arena.childrenOf i).card
  /-- A collection takes no child away from a frame that counts none. -/
  collected : ∃ kept dead, s.arena.CollectsCounted s.held kept dead
  /-- Nor does a release, whether it frees the frame at once or makes a collection due. -/
  released : ∀ i, s.Allowed (.release i) → i ≠ 0 → ∃ f, s.arena.frame i = .ok f ∧
    s.arena.ReleaseCounted s.held i f
  /-- The free slots are the empty ones, each once. -/
  free_nodup : s.arena.free.Nodup
  mem_free_iff : ∀ i, i ∈ s.arena.free ↔ s.arena.frames[i]? = some none
  /-- The waiting slots are those of the frames that were released and are there, each once. -/
  pending_nodup : s.arena.pending.Nodup
  mem_pending_iff : ∀ i, i ∈ s.arena.pending ↔ ∃ f, s.arena.frame i = .ok f ∧
    ⟨i, f.serial⟩ ∈ s.pushed ∧ ⟨i, f.serial⟩ ∉ s.running
  /-- From every frame the parents come to an end, and no slot occurs twice among them; a name is
  looked up in all of them. -/
  chain : ∀ i f, s.arena.frame i = .ok f → ∃ path, s.arena.Chain i path ∧ path.Nodup ∧
    ∀ name, s.arena.get i name = .ok (path.findSome? (s.arena.bound? name))
  /-- Less frames wait than may, which are twice as many as the last due collection left. -/
  inTime : (∃ n, s.Kept n) ∧ ∀ n, s.Kept n →
    s.arena.threshold = max 64 (2 * n) ∧ s.arena.pending.length < s.arena.threshold

/-- The waiting slots are those of the frames that were released and are still there. -/
theorem Invariant.mem_pending_iff (inv : s.Invariant) (i : Nat) : i ∈ s.arena.pending ↔
    ∃ f, s.arena.frame i = .ok f ∧ ⟨i, f.serial⟩ ∈ s.pushed ∧ ⟨i, f.serial⟩ ∉ s.running := by
  rw [inv.sound.mem_pending_iff]
  refine exists_congr fun f => and_congr_right fun hf => ?_
  have hrunning : s.arena.Running ⟨i, f.serial⟩ ↔ f.returned = false := by
    constructor
    · rintro ⟨g, hg, -, hreturned⟩
      obtain rfl := frame_inj hf hg
      exact hreturned
    · exact fun hreturned => ⟨f, hf, rfl, hreturned⟩
  rw [inv.running_iff] at hrunning
  rw [← Bool.not_eq_false, ← hrunning, not_or]
  refine and_congr_left fun _ => ?_
  constructor
  · exact fun hne => (inv.pushed_of_names _ ⟨f, hf, rfl⟩).resolve_left hne
  · rintro hpushed heq
    have hpos := (inv.pushed_lt _ hpushed).1
    rw [heq] at hpos
    exact Nat.lt_irrefl 0 hpos

/-- The bookkeeping of the arena is exact, in whatever way it is used: counts of children, free and
waiting slots, chains of parents and the number of frames that may wait. -/
theorem Reachable.books_exact (hs : s.Reachable) : s.Books := by
  have inv := hs.invariant
  refine {
    children := fun i f hf => inv.sound.children_eq hf
    collected := inv.sound.collectsCounted s.held
    released := ?_
    free_nodup := inv.sound.free_nodup
    mem_free_iff := ?_
    pending_nodup := inv.sound.pending_nodup
    mem_pending_iff := inv.mem_pending_iff
    chain := ?_
    inTime := ⟨hs.exists_kept, fun n hn => ⟨hn.inTime.threshold.trans ?_, hn.inTime.lt⟩⟩ }
  · intro i hop hi
    obtain ⟨h, hh, rfl⟩ := hop.resolve_left hi
    obtain ⟨f, hf, -, hrunning⟩ := (inv.running_iff h).2 (.inr hh)
    exact ⟨f, hf, inv.sound.releaseCounted hf hi hrunning s.held⟩
  · intro i
    rw [inv.sound.mem_free_iff]
    constructor
    · rintro ⟨hlt, hempty⟩
      cases hslot : s.arena.frames[i] with
      | none => exact Array.getElem?_eq_some_iff.2 ⟨hlt, hslot⟩
      | some f =>
        exact absurd (frame_eq_ok_iff.2 (Array.getElem?_eq_some_iff.2 ⟨hlt, hslot⟩)) (hempty f)
    · intro hslot
      obtain ⟨hlt, -⟩ := Array.getElem?_eq_some_iff.1 hslot
      refine ⟨hlt, fun f hf => ?_⟩
      rw [frame_eq_ok_iff, hslot] at hf
      cases hf
  · intro i f hf
    obtain ⟨path, hpath⟩ := inv.sound.exists_chain hf
    exact ⟨path, hpath, inv.sound.nodup_of_chain hpath, inv.sound.get_eq_of_chain hpath⟩
  · rfl

/-- A slot is used again by a frame whose parent is in a later slot: the chain of parents goes up
and down, and comes to an end.  The frame waits, since a handle on it is held. -/
theorem Reachable.books_exact_reuse : ∃ s, Reachable s ∧ s.Books ∧ s.arena.free = [] ∧
    s.arena.pending = [1] ∧ s.arena.Chain 1 [1, 2, 0] := by
  have hs : Reachable _ := .start
  have hs := hs.step (.push (some 0)) (by rintro p ⟨⟩; exact ⟨_, rfl⟩) rfl
  have hs := hs.step (.push (some 0)) (by rintro p ⟨⟩; exact ⟨_, rfl⟩) rfl
  have hs := hs.step (.release 1)
    (.inr ⟨⟨1, 1⟩, List.mem_cons_of_mem _ List.mem_cons_self, rfl⟩) rfl
  have hs := hs.step (.push (some 2)) (by rintro p ⟨⟩; exact ⟨_, rfl⟩) rfl
  have hs := hs.step (.handle 1) ⟨_, rfl⟩ rfl
  have hs := hs.step (.release 1) (.inr ⟨⟨1, 3⟩, List.mem_cons_self, rfl⟩) rfl
  exact ⟨_, hs, hs.books_exact, rfl, rfl, .inside rfl rfl (.inside rfl rfl (.outermost rfl rfl))⟩

end Use

end Arena

end UniformScript
