import UniformScript.Proofs.Arena.Collection

/-!
# Any use of an arena

Whoever uses an arena pushes and releases frames, takes handles, clones and drops them, binds
values to names and asks for them, and collects at any time.  `Use` is an arena together with a
record of what its users hold and do, and `Reachable` says what uses come of such operations, in
any order.  The operations name frames that are there, release a pushed frame at most once, and
bind values whose handles are held by someone.

* `Use.Invariant`: what the operations keep.
* `Use.Invariant.step`: an operation that is allowed gives a result and keeps the invariant.  If it
  collects, the frames that are left are the reached ones.
* `Use.Reachable.collector_exact`: so handles never name a later frame, and a collection leaves
  nothing but what is reached.
-/

namespace UniformScript

namespace Arena

/-- An arena and a record of what its users hold and have done. -/
structure Use where
  /-- The arena. -/
  arena : Arena
  /-- The handles held outside of the arena. -/
  held : List Handle
  /-- Handles on the pushed frames that have not been released. -/
  running : List Handle
  /-- Handles on all the frames pushed so far, as they were given out. -/
  pushed : List Handle

/-- What a user can do. -/
inductive Op where
  /-- Pushes a frame. -/
  | push (parent : Option Nat)
  /-- Takes a handle on the frame in a slot. -/
  | handle (i : Nat)
  /-- Takes a handle once more. -/
  | clone (h : Handle)
  /-- Drops a handle. -/
  | drop (h : Handle)
  /-- Binds a name in the frame in a slot. -/
  | set (i : Nat) (name : String) (v : Value)
  /-- Gives a name another value. -/
  | reassign (i : Nat) (name : String) (v : Value)
  /-- Looks a name up and keeps the value. -/
  | get (i : Nat) (name : String)
  /-- Asks for the parent of the frame in a slot. -/
  | parent (i : Nat)
  /-- Ends the call that pushed the frame in a slot. -/
  | release (i : Nat)
  /-- Collects. -/
  | collect

namespace Use

variable {s s' : Use} {b : Arena} {h : Handle} {i : Nat} {op : Op}

/-- A new arena, of which nobody holds anything. -/
def start : Use := ⟨Arena.start true [], [], [], []⟩

/-- Whether the slot holds a frame. -/
def There (s : Use) (i : Nat) : Prop := ∃ f, s.arena.frame i = .ok f

/-- Whether a handle is held by someone: outside, or by a value bound in a frame. -/
def Outstanding (s : Use) (h : Handle) : Prop := h ∈ s.held ∨ h ∈ s.arena.handles

/-- The operations that a user may do. -/
def Allowed (s : Use) : Op → Prop
  | .push parent => ∀ p ∈ parent, s.There p
  | .handle i => s.There i
  | .clone h => s.Outstanding h
  | .drop h => h ∈ s.held
  | .set i _ v => s.There i ∧ ∀ h ∈ v.handles, s.Outstanding h
  | .reassign i _ v => s.There i ∧ ∀ h ∈ v.handles, s.Outstanding h
  | .get i _ => s.There i
  | .parent i => s.There i
  | .release i => i = 0 ∨ ∃ h ∈ s.running, h.index = i
  | .collect => True

/-- Does an operation. -/
def perform (s : Use) : Op → Except Fault Use
  | .push parent => do
    let (i, b) ← s.arena.push parent
    let h ← b.handle i
    return ⟨b, s.held, h :: s.running, h :: s.pushed⟩
  | .handle i => do
    let h ← s.arena.handle i
    return { s with held := h :: s.held }
  | .clone h => return { s with held := h :: s.held }
  | .drop h => return { s with held := s.held.erase h }
  | .set i name v => do
    let b ← s.arena.set i name v
    return { s with arena := b }
  | .reassign i name v => do
    let (_, b) ← s.arena.reassign i name v
    return { s with arena := b }
  | .get i name => do
    let found ← s.arena.get i name
    return { s with held := Value.handlesAll found.toList ++ s.held }
  | .parent i => do
    let _ ← s.arena.parent i
    return s
  | .release i => do
    let b ← s.arena.release s.held i
    return { s with arena := b, running := s.running.filter (·.index ≠ i) }
  | .collect => do
    let b ← s.arena.collect s.held
    return { s with arena := b }

/-- The uses that come of operations that are allowed. -/
inductive Reachable : Use → Prop where
  | start : Reachable start
  | step {s s' : Use} (op : Op) : Reachable s → s.Allowed op → s.perform op = .ok s' → Reachable s'

/-- Whether an operation makes a collection, by itself or because a release makes one due. -/
def Collects (s : Use) : Op → Prop
  | .collect => True
  | .release i => s.arena.CollectsAtRelease s.held i
  | _ => False

/-- The global frame, the frames that have not been released, and those with handles outside. -/
def Root (s : Use) (h : Handle) : Prop := h = ⟨0, 0⟩ ∨ h ∈ s.running ∨ h ∈ s.held

/-! ## What operations keep -/

/-- What holds of a use between any two operations. -/
structure Invariant (s : Use) : Prop where
  sound : s.arena.Sound
  names : ∀ h ∈ s.held, s.arena.Names h
  running_iff : ∀ h, s.arena.Running h ↔ h = ⟨0, 0⟩ ∨ h ∈ s.running
  /-- Every frame that is there was pushed at some time, or is the global one. -/
  pushed_of_names : ∀ h, s.arena.Names h → h = ⟨0, 0⟩ ∨ h ∈ s.pushed
  pushed_lt : ∀ h ∈ s.pushed, 0 < h.serial ∧ h.serial < s.arena.nextSerial
  /-- No serial number was given out twice. -/
  nodup : (s.pushed.map Handle.serial).Nodup

namespace Invariant

theorem start : Use.start.Invariant := by
  refine ⟨sound_start (by simp), nofun, fun h => ?_, fun h => ?_, nofun, .nil⟩
  · constructor
    · rintro ⟨f, hf, hserial, -⟩
      obtain ⟨hi, rfl⟩ := frame_start_iff.1 hf
      left
      cases h
      simp only at hi hserial
      rw [hi, ← hserial]
    · rintro (rfl | hr)
      · exact ⟨_, frame_start_iff.2 ⟨rfl, rfl⟩, rfl, rfl⟩
      · cases hr
  · rintro ⟨f, hf, hserial⟩
    obtain ⟨hi, rfl⟩ := frame_start_iff.1 hf
    left
    cases h
    simp only at hi hserial
    rw [hi, ← hserial]

theorem names_of_outstanding (inv : s.Invariant) (ho : s.Outstanding h) : s.arena.Names h :=
  ho.elim (inv.names h) (inv.sound.names_handles h)

/-- Other handles held outside. -/
theorem withHeld {held : List Handle} (inv : s.Invariant) (hheld : ∀ h ∈ held, s.arena.Names h) :
    ({ s with held } : Use).Invariant :=
  ⟨inv.sound, hheld, inv.running_iff, inv.pushed_of_names, inv.pushed_lt, inv.nodup⟩

/-- Another arena with the same frames. -/
theorem withArena (inv : s.Invariant) (hsame : SameFrames s.arena b) (hsound : b.Sound) :
    ({ s with arena := b } : Use).Invariant where
  sound := hsound
  names h hh := (hsame.names_iff h).2 (inv.names h hh)
  running_iff h := (hsame.running_iff h).trans (inv.running_iff h)
  pushed_of_names h hn := inv.pushed_of_names h ((hsame.names_iff h).1 hn)
  pushed_lt h hh := hsame.nextSerial ▸ inv.pushed_lt h hh
  nodup := inv.nodup

/-- A frame more. -/
theorem push {parent : Option Nat} (inv : s.Invariant) (hp : Pushed s.arena parent i b)
    (hsound : b.Sound) :
    (⟨b, s.held, ⟨i, s.arena.nextSerial⟩ :: s.running,
      ⟨i, s.arena.nextSerial⟩ :: s.pushed⟩ : Use).Invariant where
  sound := hsound
  names h hh := hp.names_iff.2 (.inr (inv.names h hh))
  running_iff h := by
    rw [hp.running_iff, inv.running_iff, List.mem_cons]
    tauto
  pushed_of_names h hn := by
    rw [List.mem_cons]
    rcases hp.names_iff.1 hn with rfl | hn
    · exact .inr (.inl rfl)
    · exact (inv.pushed_of_names h hn).imp_right .inr
  pushed_lt h hh := by
    show _ ∧ _ < b.nextSerial
    rw [hp.nextSerial]
    rcases List.mem_cons.1 hh with rfl | hh
    · obtain ⟨f, hf, hserial, -⟩ := inv.sound.global
      have hlt := inv.sound.serial_lt hf
      have hpos : 0 < s.arena.nextSerial := by omega
      exact ⟨hpos, Nat.lt_succ_self _⟩
    · obtain ⟨hpos, hlt⟩ := inv.pushed_lt h hh
      exact ⟨hpos, Nat.lt_succ_of_lt hlt⟩
  nodup := by
    refine List.nodup_cons.2 ⟨fun hmem => ?_, inv.nodup⟩
    obtain ⟨h, hh, hserial⟩ := List.mem_map.1 hmem
    exact Nat.ne_of_lt (inv.pushed_lt h hh).2 hserial

/-- A collection. -/
theorem collect (inv : s.Invariant) (hc : Collected s.arena s.held b) :
    ({ s with arena := b } : Use).Invariant where
  sound := hc.sound
  names h hh := (hc.names_iff h).2 (.root (.inr hh))
  running_iff h := hc.running_iff.trans (inv.running_iff h)
  pushed_of_names h hn := by
    obtain ⟨f, -, hf, -, -, hserial⟩ := hc.frame_of_names hn
    exact inv.pushed_of_names h ⟨f, hf, hserial⟩
  pushed_lt h hh := hc.nextSerial ▸ inv.pushed_lt h hh
  nodup := inv.nodup

/-- The end of a call. -/
theorem release (inv : s.Invariant) (hr : Released s.arena s.held i b) (hi : i ≠ 0) :
    ({ s with arena := b, running := s.running.filter (·.index ≠ i) } : Use).Invariant where
  sound := hr.sound
  names := hr.names
  running_iff h := by
    rw [hr.running_iff, inv.running_iff, List.mem_filter, decide_eq_true_eq]
    constructor
    · rintro ⟨hne, rfl | hh⟩
      · exact .inl rfl
      · exact .inr ⟨hh, hne⟩
    · rintro (rfl | ⟨hh, hne⟩)
      · exact ⟨hi.symm, .inl rfl⟩
      · exact ⟨hne, .inr hh⟩
  pushed_of_names h hn := by
    obtain ⟨g, hg, hserial⟩ := hn
    obtain ⟨f, hf, -, -, hfg⟩ := hr.old hg
    exact inv.pushed_of_names h ⟨f, hf, hfg.trans hserial⟩
  pushed_lt h hh := hr.nextSerial ▸ inv.pushed_lt h hh
  nodup := inv.nodup

/-- The global frame is never among those that users have to release. -/
theorem releaseGlobal (inv : s.Invariant) :
    ({ s with running := s.running.filter (·.index ≠ 0) } : Use).Invariant where
  sound := inv.sound
  names := inv.names
  running_iff h := by
    rw [inv.running_iff, List.mem_filter, decide_eq_true_eq]
    constructor
    · rintro (rfl | hh)
      · exact .inl rfl
      · by_cases hi : h.index = 0
        · have hn := ((inv.running_iff h).2 (.inr hh)).names
          exact .inl (hn.eq_of_index_eq inv.sound.running_global.names hi)
        · exact .inr ⟨hh, hi⟩
    · exact Or.imp_right And.left
  pushed_of_names := inv.pushed_of_names
  pushed_lt := inv.pushed_lt
  nodup := inv.nodup

/-- From the users' point of view, the arena looks for frames to keep from the same roots. -/
theorem root_iff (inv : s.Invariant) (h : Handle) : s.arena.Root s.held h ↔ s.Root h := by
  unfold Arena.Root Use.Root
  rw [inv.running_iff, or_assoc]

end Invariant

/-! ## One operation after the other -/

/-- Right after a collection, a frame is there if and only if it is reached. -/
def Exact (s : Use) : Prop := ∀ h, s.arena.Names h ↔ s.arena.Reached s.Root h

/-- A collection of an arena whose roots are those of the users leaves what is reached. -/
theorem Invariant.exact_of_collected {a : Arena} (inv : s.Invariant)
    (hc : Collected a s.held s.arena) : s.Exact := by
  intro h
  have hroot (h : Handle) : s.Root h → a.Root s.held h := fun hh =>
    ((inv.root_iff h).2 hh).imp_left hc.running_iff.1
  have hback (h : Handle) : a.Root s.held h → s.Root h := fun hh =>
    (inv.root_iff h).1 (hh.imp_left hc.running_iff.2)
  rw [hc.names_iff, hc.reached_iff hroot]
  exact ⟨.mono hback, .mono hroot⟩

/-- An operation that is allowed gives a result and keeps the invariant; if it collects, the frames
that are left are the reached ones. -/
theorem Invariant.step (inv : s.Invariant) (hop : s.Allowed op) :
    ∃ s', s.perform op = .ok s' ∧ s'.Invariant ∧ (s.Collects op → s'.Exact) := by
  cases op with
  | push parent =>
    obtain ⟨i, b, hpush, hp, hsound⟩ := inv.sound.exists_push hop
    have hh : b.handle i = .ok ⟨i, s.arena.nextSerial⟩ :=
      handle_eq (hp.frame_iff.2 (.inl ⟨rfl, rfl⟩))
    refine ⟨_, ?_, inv.push hp hsound, False.elim⟩
    simp only [perform, hpush, bind, Except.bind, hh]
    rfl
  | handle i =>
    obtain ⟨f, hf⟩ := hop
    refine ⟨{ s with held := ⟨i, f.serial⟩ :: s.held }, ?_, inv.withHeld ?_, False.elim⟩
    · simp only [perform, handle_eq hf]
      rfl
    · intro h hh
      rcases List.mem_cons.1 hh with rfl | hh
      · exact ⟨f, hf, rfl⟩
      · exact inv.names h hh
  | clone h =>
    refine ⟨_, rfl, inv.withHeld fun k hk => ?_, False.elim⟩
    rcases List.mem_cons.1 hk with rfl | hk
    · exact inv.names_of_outstanding hop
    · exact inv.names k hk
  | drop h =>
    exact ⟨_, rfl, inv.withHeld fun k hk => inv.names k (List.mem_of_mem_erase hk), False.elim⟩
  | set i name v =>
    obtain ⟨⟨f, hf⟩, hv⟩ := hop
    obtain ⟨b, hb, hsame, hsound⟩ :=
      inv.sound.exists_set hf (fun h hh => inv.names_of_outstanding (hv h hh)) name
    refine ⟨_, ?_, inv.withArena hsame hsound, False.elim⟩
    simp only [perform, hb]
    rfl
  | reassign i name v =>
    obtain ⟨⟨f, hf⟩, hv⟩ := hop
    obtain ⟨r, b, hb, hsame, hsound⟩ :=
      inv.sound.exists_reassign hf (fun h hh => inv.names_of_outstanding (hv h hh)) name
    refine ⟨_, ?_, inv.withArena hsame hsound, False.elim⟩
    simp only [perform, hb]
    rfl
  | get i name =>
    obtain ⟨f, hf⟩ := hop
    obtain ⟨r, hr, hnames⟩ := inv.sound.exists_get hf name
    refine ⟨{ s with held := Value.handlesAll r.toList ++ s.held }, ?_, inv.withHeld ?_,
      False.elim⟩
    · simp only [perform, hr]
      rfl
    · intro h hh
      rcases List.mem_append.1 hh with hh | hh
      · cases r with
        | none => cases hh
        | some v => exact hnames v rfl h (by simpa [Value.handlesAll] using hh)
      · exact inv.names h hh
  | parent i =>
    obtain ⟨f, hf⟩ := hop
    refine ⟨s, ?_, inv, False.elim⟩
    simp only [perform, Arena.parent, hf]
    rfl
  | release i =>
    by_cases hi : i = 0
    · subst hi
      exact ⟨_, rfl, inv.releaseGlobal, fun hc => absurd rfl hc.1⟩
    · obtain ⟨h, hh, rfl⟩ := hop.resolve_left hi
      obtain ⟨f, hf, -, hrunning⟩ := (inv.running_iff h).2 (.inr hh)
      obtain ⟨b, hb, hr, hcollects⟩ := inv.sound.exists_release inv.names hi hf hrunning
      have inv' := inv.release hr hi
      refine ⟨_, ?_, inv', fun hc => ?_⟩
      · simp only [perform, hb]
        rfl
      · exact inv'.exact_of_collected (hcollects hc)
  | collect =>
    obtain ⟨b, hb, hc⟩ := inv.sound.exists_collect inv.names
    have inv' := inv.collect hc
    refine ⟨_, ?_, inv', fun _ => inv'.exact_of_collected hc⟩
    simp only [perform, hb]
    rfl

/-! ## All operations -/

theorem Reachable.invariant (hs : s.Reachable) : s.Invariant := by
  induction hs with
  | start => exact .start
  | step op _ hop hperform inv =>
    obtain ⟨s', hs', inv', -⟩ := inv.step hop
    rw [hs'] at hperform
    cases hperform
    exact inv'

/-- In whatever way an arena is used, no two of its frames ever have the same serial number; every
handle that someone holds is one on a frame that was pushed, and still names that frame; and the
parents of frames are there.  Operations that are allowed give a result, and right after a
collection the frames that are there are exactly the global one, those that have not been released,
and those that are reached from them or from the handles held outside. -/
theorem Reachable.collector_exact (hs : s.Reachable) :
    ((⟨0, 0⟩ :: s.pushed).map Handle.serial).Nodup ∧
      (∀ h, s.Outstanding h → h ∈ ⟨0, 0⟩ :: s.pushed ∧ s.arena.Names h) ∧
      (∀ i f p, s.arena.frame i = .ok f → f.parent = some p → s.There p) ∧
      ∀ op, s.Allowed op → ∃ s', s.perform op = .ok s' ∧ (s.Collects op →
        ∀ h, s'.arena.Names h ↔ s'.arena.Reached s'.Root h) := by
  have inv := hs.invariant
  refine ⟨?_, fun h ho => ?_, fun i f p hf hp => ?_, fun op hop => ?_⟩
  · refine List.nodup_cons.2 ⟨fun hmem => ?_, inv.nodup⟩
    obtain ⟨h, hh, hserial⟩ := List.mem_map.1 hmem
    exact Nat.ne_of_gt (inv.pushed_lt h hh).1 hserial
  · have hn := inv.names_of_outstanding ho
    exact ⟨List.mem_cons.2 (inv.pushed_of_names h hn), hn⟩
  · obtain ⟨g, hg, -⟩ := inv.sound.parent_there hf hp
    exact ⟨g, hg⟩
  · obtain ⟨s', hperform, -, hexact⟩ := inv.step hop
    exact ⟨s', hperform, hexact⟩

/-- A function that is bound in the frame it was defined in keeps that frame waiting when its call
returns; the next collection frees it. -/
theorem Reachable.collector_exact_cycle : ∃ s, Reachable s ∧ s.arena.pending = [1] ∧
    s.Outstanding ⟨1, 1⟩ ∧ s.arena.Names ⟨1, 1⟩ ∧ ∃ s', s.perform .collect = .ok s' ∧
      ¬ s'.arena.Names ⟨1, 1⟩ ∧ ¬ s'.arena.Reached s'.Root ⟨1, 1⟩ := by
  let f : Function := ⟨some "f", [], .block default [], ⟨0, 0⟩, ⟨1, 1⟩⟩
  have hs : Reachable _ := .start
  have hs := hs.step (.push (some 0)) (by rintro p ⟨⟩; exact ⟨_, rfl⟩) rfl
  have hs := hs.step (.handle 1) ⟨_, rfl⟩ rfl
  have hs := hs.step (.set 1 "f" (.function f))
    ⟨⟨_, rfl⟩, by
      intro h hh
      obtain rfl := List.mem_singleton.1 hh
      exact .inl List.mem_cons_self⟩ rfl
  have hs := hs.step (.drop ⟨1, 1⟩) List.mem_cons_self rfl
  have hs := hs.step (.release 1) (.inr ⟨⟨1, 1⟩, List.mem_cons_self, rfl⟩) rfl
  obtain ⟨-, hnames, -, hops⟩ := hs.collector_exact
  obtain ⟨s', hperform, hexact⟩ := hops .collect trivial
  have hgone : ¬ s'.arena.Names ⟨1, 1⟩ := by
    cases hperform
    rintro ⟨g, hg, -⟩
    cases hg
  refine ⟨_, hs, rfl, ?_, (hnames ⟨1, 1⟩ ?_).2, s', hperform, hgone,
    fun hr => hgone ((hexact trivial _).2 hr)⟩
  all_goals exact .inr (List.mem_singleton_self (⟨1, 1⟩ : Handle))

end Use

end Arena

end UniformScript
