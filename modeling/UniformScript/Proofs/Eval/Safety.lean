import UniformScript.Proofs.Arena.Collection
import UniformScript.Proofs.Eval.Task

/-!
# Evaluation never misuses the arena

Every step of evaluation that starts in a sound arena, in a running frame and with handles under
way that name frames, ends in a sound arena, where the same frames run and the handles under way,
with those of the result, still name their frames.  No step ends with a fault.

* `Safe`: what is shown of a step, and `Safe.bind`: of one step after the other.
* `exists_entered`: the frame of a call, with its arguments bound.
* `Safe.calling`: a call, whatever is evaluated in its frame, down to the release of the frame.
* `safe_run`: evaluation of any task, however deep.
-/

namespace UniformScript

open Arena

/-! ## Names that are bound -/

/-- The frame in a slot binds a name itself. -/
def Arena.Binds (a : Arena) (i : Nat) (name : String) : Prop :=
  ∃ f v, a.frame i = .ok f ∧ f.bindings.lookup name = some v

namespace Arena.Binds

variable {a b : Arena} {i j : Nat} {name other : String} {v : Value}

theorem of_set (h : a.set i name v = .ok b) : b.Binds i name := by
  obtain ⟨f, hf⟩ | hf := a.frame_cases i
  · rw [set_eq hf] at h
    cases h
    exact ⟨_, v, (frame_putFrame_iff hf).2 (.inl ⟨rfl, rfl⟩),
      Bindings.lookup_put_self name v f.bindings⟩
  · simp only [Arena.set, hf] at h
    cases h

theorem set (hb : a.Binds j other) (h : a.set i name v = .ok b) : b.Binds j other := by
  obtain ⟨g, w, hg, hw⟩ := hb
  obtain ⟨f, hf⟩ | hf := a.frame_cases i
  · rw [set_eq hf] at h
    cases h
    by_cases hj : j = i
    · subst hj
      obtain rfl := frame_inj hf hg
      have hframe := (frame_putFrame_iff (g := { f with bindings := f.bindings.put name v })
        hf).2 (.inl ⟨rfl, rfl⟩)
      by_cases hname : other = name
      · subst hname
        exact ⟨_, v, hframe, Bindings.lookup_put_self other v f.bindings⟩
      · refine ⟨_, w, hframe, ?_⟩
        rw [← hw]
        exact Bindings.lookup_put_of_ne hname v f.bindings
    · exact ⟨g, w, (frame_putFrame_iff hf).2 (.inr ⟨hj, hg⟩), hw⟩
  · simp only [Arena.set, hf] at h
    cases h

/-- What a frame binds itself is found. -/
theorem get (hb : a.Binds i name) : ∃ v, a.get i name = .ok (some v) := by
  obtain ⟨f, v, hf, hv⟩ := hb
  exact ⟨v, get_of_bound hf hv⟩

end Arena.Binds

namespace Eval

variable {α β : Type} {ctx ctx' : Context} {m m' m₁ : Machine} {hs hs' : List Handle}

/-! ## Safe steps -/

/-- What a step relies on. -/
structure Fits (ctx : Context) (m : Machine) : Prop where
  sound : m.arena.Sound
  /-- The handles under way name frames. -/
  names : ∀ h ∈ ctx.held, m.arena.Names h
  /-- The frame of the context runs. -/
  running : ∃ serial, m.arena.Running ⟨ctx.frame, serial⟩

/-- What a step leaves behind: `hs` are the handles of its result. -/
structure Leaves (ctx : Context) (m : Machine) (hs : List Handle) (m' : Machine) : Prop where
  sound : m'.arena.Sound
  names : ∀ h ∈ hs ++ ctx.held, m'.arena.Names h
  /-- The same frames run as before. -/
  running_iff : ∀ h, m'.arena.Running h ↔ m.arena.Running h

/-- The handles of the result name frames. -/
theorem Leaves.names_result (hl : Leaves ctx m hs m') : ∀ h ∈ hs, m'.arena.Names h :=
  fun h hh => hl.names h (List.mem_append_left _ hh)

/-- A step ends without a fault, and its result holds `handles`. -/
def Safe (handles : α → List Handle) (ctx : Context) (m : Machine) : Outcome α → Prop
  | .value a m' => Leaves ctx m (handles a) m'
  | .raised _ m' => Leaves ctx m [] m'
  | .faulted _ => False
  | .exhausted => True

theorem Fits.frame (hfit : Fits ctx m) : ∃ f, m.arena.frame ctx.frame = .ok f := by
  obtain ⟨serial, f, hf, -⟩ := hfit.running
  exact ⟨f, hf⟩

theorem Fits.leaves (hfit : Fits ctx m) (hnames : ∀ h ∈ hs, m.arena.Names h) :
    Leaves ctx m hs m where
  sound := hfit.sound
  names h hh := (List.mem_append.1 hh).elim (hnames h) (hfit.names h)
  running_iff _ := .rfl

/-- A step can go on where another one ended, also with its result under way. -/
theorem Leaves.fits (hl : Leaves ctx m hs m') (hfit : Fits ctx m)
    (hsub : ctx'.held ⊆ hs ++ ctx.held) (hframe : ctx'.frame = ctx.frame) : Fits ctx' m' where
  sound := hl.sound
  names h hh := hl.names h (hsub hh)
  running := by
    obtain ⟨serial, hr⟩ := hfit.running
    rw [hframe]
    exact ⟨serial, (hl.running_iff _).2 hr⟩

theorem Leaves.fits_same (hl : Leaves ctx m hs m') (hfit : Fits ctx m) : Fits ctx m' :=
  hl.fits hfit (List.subset_append_right _ _) rfl

theorem Leaves.fits_holding {v : Value} (hl : Leaves ctx m v.handles m') (hfit : Fits ctx m) :
    Fits (ctx.holding v) m' :=
  hl.fits hfit (List.Subset.refl _) rfl

/-- Fewer handles of the result, and fewer under way. -/
theorem Leaves.weaken (hl : Leaves ctx' m hs m') (hsub : hs' ⊆ hs ++ ctx'.held)
    (hheld : ctx.held ⊆ ctx'.held) : Leaves ctx m hs' m' where
  sound := hl.sound
  names h hh := by
    rcases List.mem_append.1 hh with hh | hh
    · exact hl.names h (hsub hh)
    · exact hl.names h (List.mem_append_right _ (hheld hh))
  running_iff := hl.running_iff

theorem Leaves.of_holding {v : Value} (hl : Leaves (ctx.holding v) m hs m') : Leaves ctx m hs m' :=
  hl.weaken (List.subset_append_left _ _) (List.subset_append_right _ _)

theorem Leaves.trans (h₁ : Leaves ctx m hs m₁) (h₂ : Leaves ctx m₁ hs' m') :
    Leaves ctx m hs' m' where
  sound := h₂.sound
  names := h₂.names
  running_iff h := (h₂.running_iff h).trans (h₁.running_iff h)

namespace Safe

variable {handles : α → List Handle} {handles' : β → List Handle}

/-- A step that is safe with more handles under way. -/
theorem weaken {o : Outcome α} (h : Safe handles ctx' m o) (hheld : ctx.held ⊆ ctx'.held) :
    Safe handles ctx m o := by
  cases o with
  | value a m' => exact Leaves.weaken h (List.subset_append_left _ _) hheld
  | raised failure m' => exact Leaves.weaken h (List.nil_subset _) hheld
  | faulted fault => exact h
  | exhausted => exact h

theorem of_holding {v : Value} {o : Outcome α} (h : Safe handles (ctx.holding v) m o) :
    Safe handles ctx m o :=
  h.weaken (List.subset_append_right _ _)

theorem pure {a : α} (hfit : Fits ctx m) (hnames : ∀ h ∈ handles a, m.arena.Names h) :
    Safe handles ctx m ((Pure.pure a : Eval α) m) :=
  hfit.leaves hnames

theorem raise {c : Context} {cause : RuntimeCause} {span : Span} (hfit : Fits ctx m) :
    Safe handles ctx m ((Eval.raise c cause span : Eval α) m) :=
  hfit.leaves (fun _ h => nomatch h)

/-- One step after the other. -/
theorem bind {p : Eval α} {f : α → Eval β} (hp : Safe handles ctx m (p m))
    (hf : ∀ a m', Leaves ctx m (handles a) m' → Safe handles' ctx m' (f a m')) :
    Safe handles' ctx m ((p >>= f) m) := by
  show Safe handles' ctx m (Eval.bind p f m)
  unfold Eval.bind
  cases hpm : p m with
  | value a m₁ =>
    rw [hpm] at hp
    have hsafe := hf a m₁ hp
    show Safe handles' ctx m (f a m₁)
    cases hfm : f a m₁ with
    | value b m' =>
      rw [hfm] at hsafe
      exact Leaves.trans hp hsafe
    | raised failure m' =>
      rw [hfm] at hsafe
      exact Leaves.trans hp hsafe
    | faulted fault =>
      rw [hfm] at hsafe
      exact hsafe
    | exhausted => trivial
  | raised failure m₁ =>
    rw [hpm] at hp
    exact hp
  | faulted fault =>
    rw [hpm] at hp
    exact hp
  | exhausted => trivial

/-- Asking for the value of a name. -/
theorem ask_get (hfit : Fits ctx m) (name : String) :
    Safe (fun found : Option Value => Value.handlesAll found.toList) ctx m
      (ask (fun a => a.get ctx.frame name) m) := by
  obtain ⟨f, hf⟩ := hfit.frame
  obtain ⟨r, hr, hnames⟩ := hfit.sound.exists_get hf name
  simp only [ask, hr]
  apply hfit.leaves
  intro h hh
  cases r with
  | none => cases hh
  | some v => exact hnames v rfl h (by simpa [Value.handlesAll] using hh)

/-- Binding a name in the frame of the context. -/
theorem set {v : Value} (hfit : Fits ctx m) (hv : ∀ h ∈ v.handles, m.arena.Names h)
    (name : String) :
    Safe (fun _ => v.handles) ctx m (Eval.set ctx.frame name v m) := by
  obtain ⟨f, hf⟩ := hfit.frame
  obtain ⟨b, hb, hsame, hsound⟩ := hfit.sound.exists_set hf hv name
  unfold Eval.set change
  simp only [hb, Bind.bind, Except.bind]
  refine ⟨hsound, fun h hh => (hsame.names_iff h).2 ?_, hsame.running_iff⟩
  exact (List.mem_append.1 hh).elim (hv h) (hfit.names h)

/-- Giving a name another value. -/
theorem reassign {v : Value} (hfit : Fits ctx m) (hv : ∀ h ∈ v.handles, m.arena.Names h)
    (name : String) : Safe (fun _ => v.handles) ctx m
      (change (fun a => a.reassign ctx.frame name v) m) := by
  obtain ⟨f, hf⟩ := hfit.frame
  obtain ⟨r, b, hb, hsame, hsound⟩ := hfit.sound.exists_reassign hf hv name
  simp only [change, hb]
  refine ⟨hsound, fun h hh => (hsame.names_iff h).2 ?_, hsame.running_iff⟩
  exact (List.mem_append.1 hh).elim (hv h) (hfit.names h)

/-- Taking a handle on the frame of the context. -/
theorem handle (hfit : Fits ctx m) :
    Safe (fun h => [h]) ctx m (ask (fun a => a.handle ctx.frame) m) := by
  obtain ⟨f, hf⟩ := hfit.frame
  simp only [ask, handle_eq hf]
  apply hfit.leaves
  intro h hh
  obtain rfl := List.mem_singleton.1 hh
  exact ⟨f, hf, rfl⟩

/-- Turning to the world. -/
theorem turn (hfit : Fits ctx m) (f : Host → α × Host) :
    Safe (fun _ => []) ctx m (Eval.turn f m) := by
  have hl : Leaves ctx m [] ⟨m.arena, (f m.host).2⟩ := ⟨hfit.sound, hfit.names, fun _ => .rfl⟩
  exact hl

end Safe

/-! ## Calls -/

/-- Binding names in a frame that is there. -/
theorem exists_setAll {i : Nat} {args : List (String × Value)} (hs : m.arena.Sound)
    (hf : ∃ f, m.arena.frame i = .ok f)
    (hargs : ∀ p ∈ args, ∀ h ∈ p.2.handles, m.arena.Names h) :
    ∃ m', setAll i args m = .value () m' ∧ m'.arena.Sound ∧ SameFrames m.arena m'.arena ∧
      (∀ j name, m.arena.Binds j name → m'.arena.Binds j name) ∧
      ∀ p ∈ args, m'.arena.Binds i p.1 := by
  induction args generalizing m with
  | nil => exact ⟨m, rfl, hs, .refl _, fun _ _ h => h, nofun⟩
  | cons arg args ih =>
    obtain ⟨name, v⟩ := arg
    obtain ⟨f, hf⟩ := hf
    obtain ⟨hv, hrest⟩ := List.forall_mem_cons.1 hargs
    obtain ⟨b, hb, hsame, hsound⟩ := hs.exists_set hf hv name
    have hthere : ∃ g, b.frame i = .ok g := by
      obtain ⟨g, hg, -⟩ := (hsame.names_iff ⟨i, f.serial⟩).2 ⟨f, hf, rfl⟩
      exact ⟨g, hg⟩
    have hnames : ∀ p ∈ args, ∀ h ∈ p.2.handles, b.Names h := by
      intro p hp h hh
      exact (hsame.names_iff h).2 (hrest p hp h hh)
    obtain ⟨m', hm', hsound', hsame', hkept, hbound⟩ :=
      ih (m := ⟨b, m.host⟩) hsound hthere hnames
    have hset : set i name v m = .value () ⟨b, m.host⟩ := by
      simp only [set, change, hb, Bind.bind, Except.bind]
      rfl
    refine ⟨m', ?_, hsound', hsame.trans hsame', ?_, ?_⟩
    · show (set i name v >>= fun _ => setAll i args) m = _
      rw [bind_of_value hset]
      exact hm'
    · intro j other hj
      exact hkept j other (hj.set hb)
    · intro p hp
      rcases List.mem_cons.1 hp with rfl | hp
      · exact hkept i name (.of_set hb)
      · exact hbound p hp

/-- Binding several names in the frame of the context. -/
theorem safe_setAll {args : List (String × Value)} (hfit : Fits ctx m)
    (hargs : ∀ p ∈ args, ∀ h ∈ p.2.handles, m.arena.Names h) :
    Safe (fun _ => []) ctx m (Eval.setAll ctx.frame args m) := by
  obtain ⟨m', hm', hsound, hsame, -⟩ := exists_setAll hfit.sound hfit.frame hargs
  rw [hm']
  exact ⟨hsound, fun h hh => (hsame.names_iff h).2 (hfit.names h hh), hsame.running_iff⟩

/-- The machine `m'` where a frame for a call was pushed into slot `i`, and names were bound. -/
structure Entered (ctx : Context) (m : Machine) (i : Nat) (args : List (String × Value))
    (m' : Machine) : Prop where
  sound : m'.arena.Sound
  names : ∀ h, m.arena.Names h → m'.arena.Names h
  held : ∀ h ∈ ctx.held, m'.arena.Names h
  /-- One frame more runs. -/
  running_iff : ∀ h, m'.arena.Running h ↔ h = ⟨i, m.arena.nextSerial⟩ ∨ m.arena.Running h
  /-- It is in a slot where no frame ran. -/
  vacant : ∀ h, m.arena.Running h → h.index ≠ i
  ne_global : i ≠ 0
  binds : ∀ p ∈ args, m'.arena.Binds i p.1

theorem Entered.fits {i : Nat} {args : List (String × Value)} {name : String} {entry : Position}
    {run : Nat} (he : Entered ctx m i args m') : Fits (ctx.entering name entry i run) m' where
  sound := he.sound
  names := he.held
  running := ⟨m.arena.nextSerial, (he.running_iff _).2 (.inl rfl)⟩

/-- The frame around a call is there if a handle names it. -/
theorem there_of_names {h : Handle} (hn : m.arena.Names h) :
    ∀ p ∈ some h.index, ∃ f, m.arena.frame p = .ok f := by
  rintro p ⟨⟩
  obtain ⟨f, hf, -⟩ := hn
  exact ⟨f, hf⟩

/-- A call gets a frame, if the frame around it is there, and its arguments are bound. -/
theorem exists_entered {parent : Option Nat} {args : List (String × Value)} (hfit : Fits ctx m)
    (hparent : ∀ p ∈ parent, ∃ f, m.arena.frame p = .ok f)
    (hargs : ∀ p ∈ args, ∀ h ∈ p.2.handles, m.arena.Names h) :
    ∃ i m₀ m', change (fun a => a.push parent) m = .value i m₀ ∧
      setAll i args m₀ = .value () m' ∧ Entered ctx m i args m' := by
  obtain ⟨i, b, hpush, hp, hsound⟩ := hfit.sound.exists_push hparent
  have hthere : ∃ f, b.frame i = .ok f := ⟨_, hp.frame_iff.2 (.inl ⟨rfl, rfl⟩)⟩
  have hnames : ∀ p ∈ args, ∀ h ∈ p.2.handles, b.Names h := by
    intro p hpa h hh
    exact hp.names_iff.2 (.inr (hargs p hpa h hh))
  obtain ⟨m', hm', hsound', hsame, -, hbound⟩ :=
    exists_setAll (m := ⟨b, m.host⟩) hsound hthere hnames
  have hvacant : ∀ h, m.arena.Running h → h.index ≠ i := by
    rintro h ⟨f, hf, -⟩ hi
    exact hp.vacant f (hi ▸ hf)
  refine ⟨i, ⟨b, m.host⟩, m', ?_, hm', hsound', ?_, ?_, ?_, hvacant, ?_, hbound⟩
  · simp only [change, hpush]
  · intro h hn
    exact (hsame.names_iff h).2 (hp.names_iff.2 (.inr hn))
  · intro h hh
    exact (hsame.names_iff h).2 (hp.names_iff.2 (.inr (hfit.names h hh)))
  · intro h
    exact (hsame.running_iff h).trans hp.running_iff
  · exact (hvacant _ hfit.sound.running_global).symm

/-- The end of a call: its frame is released, and the frames that ran before it go on running. -/
theorem Entered.exists_release {i : Nat} {args : List (String × Value)} {name : String}
    {entry : Position} {run : Nat} (he : Entered ctx m i args m')
    (hl : Leaves (ctx.entering name entry i run) m' hs m₁) :
    ∃ b, m₁.arena.release (hs ++ ctx.held) i = .ok b ∧ Leaves ctx m hs ⟨b, m₁.host⟩ := by
  obtain ⟨f, hf, -, hrunning⟩ :=
    (hl.running_iff ⟨i, m.arena.nextSerial⟩).2 ((he.running_iff _).2 (.inl rfl))
  obtain ⟨b, hb, hr, -⟩ := hl.sound.exists_release hl.names he.ne_global hf hrunning
  refine ⟨b, hb, hr.sound, hr.names, ?_⟩
  intro h
  show b.Running h ↔ _
  rw [hr.running_iff, hl.running_iff, he.running_iff]
  constructor
  · rintro ⟨hne, rfl | hrun⟩
    · exact absurd rfl hne
    · exact hrun
  · intro hrun
    exact ⟨he.vacant h hrun, .inr hrun⟩

/-- The frame is pushed, its arguments are bound, something is evaluated in it, and the frame is
released. -/
theorem Safe.inFrame {parent : Option Nat} {args : List (String × Value)} {name : String}
    {entry : Position} {run : Nat} {body : Nat → Eval Value} (hfit : Fits ctx m)
    (hparent : ∀ p ∈ parent, ∃ f, m.arena.frame p = .ok f)
    (hargs : ∀ p ∈ args, ∀ h ∈ p.2.handles, m.arena.Names h)
    (hbody : ∀ i m', Entered ctx m i args m' →
      Safe Value.handles (ctx.entering name entry i run) m' (body i m')) :
    Safe Value.handles ctx m (Eval.inFrame ctx.held parent args body m) := by
  obtain ⟨i, m₀, m', hpush, hset, he⟩ := exists_entered hfit hparent hargs
  unfold Eval.inFrame
  rw [bind_of_value hpush, bind_of_value hset]
  have hsafe := hbody i m' he
  unfold releasing
  cases hb : body i m' with
  | value v m₁ =>
    rw [hb] at hsafe
    obtain ⟨b, hrelease, hl⟩ := he.exists_release hsafe
    simp only [hrelease]
    exact hl
  | raised failure m₁ =>
    rw [hb] at hsafe
    obtain ⟨b, hrelease, hl⟩ := he.exists_release hsafe
    rw [List.nil_append] at hrelease
    simp only [hrelease]
    exact hl
  | faulted fault =>
    rw [hb] at hsafe
    exact hsafe
  | exhausted => trivial

/-- The check of the number of arguments changes nothing. -/
theorem Safe.checkArity {name : String} {expected given : Nat} {span : Span}
    {f : Unit → Eval Value} (hfit : Fits ctx m)
    (hf : expected = given → Safe Value.handles ctx m (f () m)) :
    Safe Value.handles ctx m ((Eval.checkArity ctx name expected given span >>= f) m) := by
  by_cases hmany : expected < given
  · unfold Eval.checkArity
    rw [if_pos hmany]
    exact Safe.raise hfit
  · by_cases hfew : given < expected
    · unfold Eval.checkArity
      rw [if_neg hmany, if_pos hfew]
      exact Safe.raise hfit
    · unfold Eval.checkArity
      rw [if_neg hmany, if_neg hfew]
      exact hf (by omega)

/-- What holds of the handles of all arguments holds of those bound to any name. -/
theorem handles_zip {P : Handle → Prop} {names : List String} {vs : List Value}
    (hvs : ∀ h ∈ Value.handlesAll vs, P h) :
    ∀ p ∈ names.zip vs, ∀ h ∈ p.2.handles, P h := by
  induction vs generalizing names with
  | nil => simp
  | cons v vs ih =>
    intro p hp h hh
    cases names with
    | nil => cases hp
    | cons name names =>
      rcases List.mem_cons.1 hp with rfl | hp
      · exact hvs h (List.mem_append_left _ hh)
      · exact ih (fun k hk => hvs k (List.mem_append_right _ hk)) p hp h hh

/-- A call: the arguments are counted, and something is evaluated in the frame where they are
bound. -/
theorem Safe.calling {parent : Option Nat} {params : List String} {args : List Value}
    {name : String} {span : Span} {run : Nat} {body : Nat → Eval Value} (hfit : Fits ctx m)
    (hparent : ∀ p ∈ parent, ∃ f, m.arena.frame p = .ok f)
    (hargs : ∀ h ∈ Value.handlesAll args, m.arena.Names h)
    (hbody : params.length = args.length → ∀ i m', Entered ctx m i (params.zip args) m' →
      Safe Value.handles (ctx.entering name span.start i run) m' (body i m')) :
    Safe Value.handles ctx m (Eval.calling ctx name params args span parent body m) := by
  unfold Eval.calling
  apply Safe.checkArity hfit
  intro hlength
  exact Safe.inFrame hfit hparent (handles_zip hargs) (hbody hlength)

/-! ## Built-in functions -/

/-- A parameter that got an argument is bound. -/
theorem mem_zip_of_mem {name : String} {names : List String} {vs : List Value}
    (hlength : names.length = vs.length) (hname : name ∈ names) :
    ∃ p ∈ names.zip vs, p.1 = name := by
  have hfst : (names.zip vs).map Prod.fst = names := List.map_fst_zip (Nat.le_of_eq hlength)
  rw [← hfst] at hname
  exact List.mem_map.1 hname

/-- An argument that is bound in the frame of the context. -/
theorem Safe.argument {name : String} (hfit : Fits ctx m) (hb : m.arena.Binds ctx.frame name) :
    Safe Value.handles ctx m (Eval.argument ctx name m) := by
  obtain ⟨f, hf⟩ := hfit.frame
  obtain ⟨v, hv⟩ := hb.get
  obtain ⟨r, hr, hnames⟩ := hfit.sound.exists_get hf name
  rw [hv] at hr
  cases hr
  have hask : ask (fun a => a.get ctx.frame name) m = .value (some v) m := by
    simp only [ask, hv]
  unfold Eval.argument
  rw [bind_of_value hask]
  exact Safe.pure hfit (hnames v rfl)

/-- Running a built-in function whose arguments are bound. -/
theorem safe_runBuiltin {b : Builtin} {span : Span} (hfit : Fits ctx m)
    (hb : ∀ name ∈ b.params, m.arena.Binds ctx.frame name) :
    Safe Value.handles ctx m (runBuiltin ctx b span m) := by
  cases b with
  | print =>
    apply Safe.bind (Safe.argument hfit (hb "data" List.mem_cons_self))
    intro v m' hl
    have hfit' := hl.fits_same hfit
    apply Safe.bind (Safe.turn hfit' _)
    intro _ m'' hl'
    exact Safe.pure (hl'.fits_same hfit') (fun h hh => nomatch hh)
  | capture =>
    apply Safe.bind (Safe.argument hfit (hb "data" List.mem_cons_self))
    intro v m' hl
    have hfit' := hl.fits_same hfit
    apply Safe.bind (Safe.turn hfit' _)
    intro line m'' hl'
    have hfit'' := hl'.fits_same hfit'
    cases line with
    | some line => exact Safe.pure hfit'' (fun h hh => nomatch hh)
    | none =>
      apply Safe.bind (Safe.turn hfit'' _)
      intro reason m₁ hl₁
      exact Safe.raise (hl₁.fits_same hfit'')
  | random =>
    apply Safe.bind (Safe.turn hfit _)
    intro x m' hl
    exact Safe.pure (hl.fits_same hfit) (fun h hh => nomatch hh)
  | round =>
    apply Safe.bind (Safe.argument hfit (hb "val" List.mem_cons_self))
    intro v m' hl
    have hfit' := hl.fits_same hfit
    cases v with
    | number x => exact Safe.pure hfit' (fun h hh => nomatch hh)
    | _ => exact Safe.raise hfit'

/-- Calling a built-in function. -/
theorem safe_callBuiltin {b : Builtin} {vs : List Value} {span : Span} (hfit : Fits ctx m)
    (hvs : ∀ h ∈ Value.handlesAll vs, m.arena.Names h) :
    Safe Value.handles ctx m (callBuiltin ctx b vs span m) := by
  have hnone : ∀ p ∈ (none : Option Nat), ∃ f, m.arena.frame p = .ok f := nofun
  rw [callBuiltin_eq]
  apply Safe.calling hfit hnone hvs
  intro hlength i m' he
  apply safe_runBuiltin he.fits
  intro name hname
  obtain ⟨p, hp, rfl⟩ := mem_zip_of_mem hlength hname
  exact he.binds p hp

/-! ## Operators -/

theorem handles_onNumbers {f : Float → Float → Value} {v w r : Value}
    (hf : ∀ x y, (f x y).handles = []) (hr : Value.onNumbers f v w = .ok r) : r.handles = [] := by
  unfold Value.onNumbers at hr
  split at hr
  · cases hr
    exact hf _ _
  · cases hr

/-- What an operator gives is a number or a text. -/
theorem handles_binary {op : BinaryOp} {v w r : Value} (hr : op.apply v w = .ok r) :
    r.handles = [] := by
  cases op with
  | add =>
    simp only [BinaryOp.apply, Value.add] at hr
    split at hr <;> cases hr <;> rfl
  | divide =>
    simp only [BinaryOp.apply, Value.divide] at hr
    split at hr
    · split at hr <;> cases hr
      rfl
    · cases hr
  | equal =>
    simp only [BinaryOp.apply, Value.equal] at hr
    split at hr <;> cases hr <;> rfl
  | unequal =>
    simp only [BinaryOp.apply, Value.unequal] at hr
    split at hr <;> cases hr <;> rfl
  | conjunction =>
    simp only [BinaryOp.apply, Value.connect] at hr
    split at hr <;> cases hr <;> rfl
  | disjunction =>
    simp only [BinaryOp.apply, Value.connect] at hr
    split at hr <;> cases hr <;> rfl
  | _ => exact handles_onNumbers (fun _ _ => rfl) hr

theorem handles_unary {op : UnaryOp} {v r : Value} (hr : op.apply v = .ok r) : r.handles = [] := by
  unfold UnaryOp.apply at hr
  split at hr <;> cases hr <;> rfl

/-! ## Tasks -/

/-- The handles that the result of a task holds. -/
def Task.handles : (t : Task) → t.Result → List Handle
  | .expr _ => Value.handles
  | .all _ => Value.handlesAll
  | .number _ => fun _ => []
  | .step _ => fun _ => []
  | .body _ => Value.handles
  | .branch _ => Value.handles
  | .choice _ _ _ => Value.handles
  | .counting _ _ _ _ _ _ _ => Value.handles
  | .looping _ _ _ => Value.handles
  | .call _ _ _ => Value.handles
  | .builtin _ _ _ => Value.handles
  | .running _ _ => Value.handles
  | .binding _ => fun _ => []

/-- What a task relies on, besides its context: values collected are under way, a function and its
arguments have frames that are there, and a built-in function finds its arguments. -/
def Task.Ready (ctx : Context) (m : Machine) : Task → Prop
  | .counting _ _ _ _ _ _ collected => Value.handlesAll collected ⊆ ctx.held
  | .looping _ _ collected => Value.handlesAll collected ⊆ ctx.held
  | .call f args _ => m.arena.Names f.home ∧ ∀ h ∈ Value.handlesAll args, m.arena.Names h
  | .builtin _ args _ => ∀ h ∈ Value.handlesAll args, m.arena.Names h
  | .running b _ => ∀ name ∈ b.params, m.arena.Binds ctx.frame name
  | .binding args => ∀ p ∈ args, ∀ h ∈ p.2.handles, m.arena.Names h
  | _ => True

theorem handlesAll_append (vs ws : List Value) :
    Value.handlesAll (vs ++ ws) = Value.handlesAll vs ++ Value.handlesAll ws := by
  induction vs with
  | nil => rfl
  | cons v vs ih => simp [Value.handlesAll, ih]

theorem mem_handlesAll_iff {vs : List Value} {h : Handle} :
    h ∈ Value.handlesAll vs ↔ ∃ v ∈ vs, h ∈ v.handles := by
  induction vs with
  | nil => simp [Value.handlesAll]
  | cons v vs ih => simp [Value.handlesAll, ih]

theorem mem_handlesAll_reverse {vs : List Value} {h : Handle} :
    h ∈ Value.handlesAll vs.reverse ↔ h ∈ Value.handlesAll vs := by
  simp [mem_handlesAll_iff]

/-- The value of a loop holds no other handles than the values of its rounds. -/
theorem handles_loopValue {body : Body} {collected : List Value} :
    (loopValue body collected).handles ⊆ Value.handlesAll collected := by
  intro h hh
  unfold loopValue at hh
  split at hh
  · cases hh
  · exact mem_handlesAll_reverse.1 hh

theorem collected_holding {v : Value} {collected : List Value}
    (hcollected : Value.handlesAll collected ⊆ ctx.held) :
    Value.handlesAll (v :: collected) ⊆ (ctx.holding v).held := by
  intro h hh
  rcases List.mem_append.1 hh with hh | hh
  · exact List.mem_append_left _ hh
  · exact List.mem_append_right _ (hcollected hh)

/-- Evaluation of every task is safe with the bound `n` on the depth. -/
def SafeAt (n : Nat) : Prop :=
  ∀ (t : Task) (ctx : Context) (m : Machine), Fits ctx m → t.Ready ctx m →
    Safe t.handles ctx m (t.run n ctx m)

namespace SafeAt

variable {n : Nat} {body : Body} {collected : List Value}

theorem eval (ih : SafeAt n) (hfit : Fits ctx m) (e : Expr) :
    Safe Value.handles ctx m (eval n ctx e m) := ih (.expr e) ctx m hfit trivial

theorem evalAll (ih : SafeAt n) (hfit : Fits ctx m) (es : List Expr) :
    Safe Value.handlesAll ctx m (evalAll n ctx es m) := ih (.all es) ctx m hfit trivial

theorem evalNumber (ih : SafeAt n) (hfit : Fits ctx m) (e : Expr) :
    Safe (fun _ => []) ctx m (evalNumber n ctx e m) := ih (.number e) ctx m hfit trivial

theorem evalStep (ih : SafeAt n) (hfit : Fits ctx m) (e : Option Expr) :
    Safe (fun _ => []) ctx m (evalStep n ctx e m) := ih (.step e) ctx m hfit trivial

theorem evalBody (ih : SafeAt n) (hfit : Fits ctx m) (body : Body) :
    Safe Value.handles ctx m (evalBody n ctx body m) := ih (.body body) ctx m hfit trivial

theorem evalBranch (ih : SafeAt n) (hfit : Fits ctx m) (body : Body) :
    Safe Value.handles ctx m (evalBranch n ctx body m) := ih (.branch body) ctx m hfit trivial

/-- The values of expressions make a list. -/
theorem list (ih : SafeAt n) (hfit : Fits ctx m) (es : List Expr) :
    Safe Value.handles ctx m ((do
      let vs ← Eval.evalAll n ctx es
      return Value.list vs) m) := by
  apply Safe.bind (ih.evalAll hfit es)
  intro vs m' hl
  apply Safe.pure (hl.fits_same hfit)
  intro h hh
  exact hl.names_result h hh

theorem expr (ih : SafeAt n) (hfit : Fits ctx m) (e : Expr) :
    Safe Value.handles ctx m (Eval.eval (n + 1) ctx e m) := by
  cases e with
  | number span lexeme x => exact Safe.pure hfit (fun h hh => nomatch hh)
  | text span s => exact Safe.pure hfit (fun h hh => nomatch hh)
  | list span es => exact ih.list hfit es
  | access span name =>
    rw [eval_access]
    apply Safe.bind (Safe.ask_get hfit name)
    intro found m' hl
    cases found with
    | none => exact Safe.raise (hl.fits_same hfit)
    | some v =>
      apply Safe.pure (hl.fits_same hfit)
      intro h hh
      exact hl.names h (by simp [Value.handlesAll, hh])
  | bind span name value =>
    rw [eval_bind]
    apply Safe.bind (ih.eval hfit value)
    intro v m' hl
    have hfit' := hl.fits_same hfit
    apply Safe.bind (Safe.set hfit' hl.names_result name)
    intro _ m'' hl'
    exact Safe.pure (hl'.fits_same hfit') hl'.names_result
  | rebind span name value =>
    rw [eval_rebind]
    apply Safe.bind (ih.eval hfit value)
    intro v m' hl
    have hfit' := hl.fits_same hfit
    apply Safe.bind (Safe.reassign hfit' hl.names_result name)
    intro _ m'' hl'
    exact Safe.pure (hl'.fits_same hfit') hl'.names_result
  | unary span op operand =>
    rw [eval_unary]
    apply Safe.bind (ih.eval hfit operand)
    intro v m' hl
    have hfit' := hl.fits_same hfit
    cases hr : op.apply v with
    | ok r => exact Safe.pure hfit' (by simp [handles_unary hr])
    | error fault => exact Safe.raise hfit'
  | binary span op left right =>
    rw [eval_binary]
    apply Safe.bind (ih.eval hfit left)
    intro v m' hl
    have hfit' := hl.fits_same hfit
    apply Safe.bind (ih.eval (hl.fits_holding hfit) right).of_holding
    intro w m'' hl'
    have hfit'' := hl'.fits_same hfit'
    cases hr : op.apply v w with
    | ok r => exact Safe.pure hfit'' (by simp [handles_binary hr])
    | error fault => cases fault <;> exact Safe.raise hfit''
  | choice span condition body rest =>
    exact ih (.choice condition body rest) ctx m hfit trivial
  | forLoop span name first bound step body =>
    rw [eval_forLoop]
    apply Safe.bind (ih.evalNumber hfit first)
    intro x m₁ hl₁
    have hfit₁ := hl₁.fits_same hfit
    apply Safe.bind (ih.evalNumber hfit₁ bound)
    intro y m₂ hl₂
    have hfit₂ := hl₂.fits_same hfit₁
    apply Safe.bind (ih.evalStep hfit₂ step)
    intro z m₃ hl₃
    exact ih (.counting name (0 ≤ x) y z body x []) ctx m₃ (hl₃.fits_same hfit₂)
      (List.nil_subset _)
  | whileLoop span condition body =>
    exact ih (.looping condition body []) ctx m hfit (List.nil_subset _)
  | function span name params body =>
    rw [eval_function]
    apply Safe.bind (Safe.handle hfit)
    intro home m' hl
    have hfit' := hl.fits_same hfit
    cases name with
    | none => exact Safe.pure hfit' hl.names_result
    | some name =>
      let v := Value.function ⟨some name, params, body, ⟨ctx.run, span.start.index⟩, home⟩
      have hv : ∀ h ∈ v.handles, m'.arena.Names h := hl.names_result
      apply Safe.bind (Safe.set hfit' hv name)
      intro _ m'' hl'
      exact Safe.pure (hl'.fits_same hfit') hl'.names_result
  | call span callee args =>
    rw [eval_call]
    apply Safe.bind (ih.eval hfit callee)
    intro v m' hl
    have hfit' := hl.fits_holding hfit
    refine Safe.of_holding (v := v) ?_
    apply Safe.bind (ih.evalAll hfit' args)
    intro vs m'' hl'
    have hfit'' := hl'.fits_same hfit'
    have hargs : ∀ h ∈ Value.handlesAll vs, m''.arena.Names h := hl'.names_result
    cases v with
    | function f =>
      have hhome : m''.arena.Names f.home := hfit''.names _ List.mem_cons_self
      exact ih (.call f vs span) _ m'' hfit'' ⟨hhome, hargs⟩
    | builtin b => exact safe_callBuiltin hfit'' hargs
    | _ => exact Safe.raise hfit''

theorem all (ih : SafeAt n) (hfit : Fits ctx m) (es : List Expr) :
    Safe Value.handlesAll ctx m (Eval.evalAll (n + 1) ctx es m) := by
  cases es with
  | nil => exact Safe.pure hfit (fun h hh => nomatch hh)
  | cons e es =>
    rw [evalAll_cons]
    apply Safe.bind (ih.eval hfit e)
    intro v m' hl
    have hfit' := hl.fits_holding hfit
    refine Safe.of_holding (v := v) ?_
    apply Safe.bind (ih.evalAll hfit' es)
    intro vs m'' hl'
    apply Safe.pure (hl'.fits_same hfit')
    intro h hh
    rcases List.mem_append.1 hh with hh | hh
    · exact hl'.names h (List.mem_append_right _ (List.mem_append_left _ hh))
    · exact hl'.names_result h hh

theorem number (ih : SafeAt n) (hfit : Fits ctx m) (e : Expr) :
    Safe (fun _ => []) ctx m (Eval.evalNumber (n + 1) ctx e m) := by
  rw [evalNumber_succ]
  apply Safe.bind (ih.eval hfit e)
  intro v m' hl
  cases v with
  | number x => exact Safe.pure (hl.fits_same hfit) (fun h hh => nomatch hh)
  | _ => exact Safe.raise (hl.fits_same hfit)

theorem branch (ih : SafeAt n) (hfit : Fits ctx m) (body : Body) :
    Safe Value.handles ctx m (Eval.evalBranch (n + 1) ctx body m) := by
  rw [evalBranch_succ]
  apply Safe.bind (ih.evalBody hfit body)
  intro v m' hl
  apply Safe.pure (hl.fits_same hfit)
  intro h hh
  split at hh
  · cases hh
  · exact hl.names_result h hh

theorem choice (ih : SafeAt n) (hfit : Fits ctx m) (condition : Expr) (body : Body)
    (rest : Branches) : Safe Value.handles ctx m (choose (n + 1) ctx condition body rest m) := by
  rw [choose_succ]
  apply Safe.bind (ih.eval hfit condition)
  intro c m' hl
  have hfit' := hl.fits_same hfit
  by_cases hc : c.isTrue = true
  · rw [if_pos hc]
    exact (ih.evalBranch (hl.fits_holding hfit) body).of_holding
  · rw [if_neg hc]
    cases rest with
    | nothing => exact Safe.pure hfit' (fun h hh => nomatch hh)
    | elif condition body rest => exact ih (.choice condition body rest) ctx m' hfit' trivial
    | otherwise body => exact ih.evalBranch hfit' body

theorem counting (ih : SafeAt n) (hfit : Fits ctx m) (name : String) (upwards : Bool)
    (bound step i : Float) (body : Body) (hcollected : Value.handlesAll collected ⊆ ctx.held) :
    Safe Value.handles ctx m
      (count (n + 1) ctx name upwards bound step body i collected m) := by
  rw [count_succ]
  by_cases hrange : inRange upwards i bound = true
  · rw [if_pos hrange]
    apply Safe.bind (Safe.set (v := .number i) hfit (fun h hh => nomatch hh) name)
    intro _ m' hl
    have hfit' := hl.fits_same hfit
    apply Safe.bind (ih.evalBody hfit' body)
    intro v m'' hl'
    by_cases hblock : body.isBlock = true
    · rw [if_pos hblock]
      exact ih (.counting name upwards bound step body (i + step) collected) ctx m''
        (hl'.fits_same hfit') hcollected
    · rw [if_neg hblock]
      refine Safe.of_holding (v := v) ?_
      exact ih (.counting name upwards bound step body (i + step) (v :: collected)) _ m''
        (hl'.fits_holding hfit') (collected_holding hcollected)
  · rw [if_neg hrange]
    apply Safe.pure hfit
    intro h hh
    exact hfit.names h (hcollected (handles_loopValue hh))

theorem looping (ih : SafeAt n) (hfit : Fits ctx m) (condition : Expr) (body : Body)
    (hcollected : Value.handlesAll collected ⊆ ctx.held) :
    Safe Value.handles ctx m (rounds (n + 1) ctx condition body collected m) := by
  rw [rounds_succ]
  apply Safe.bind (ih.eval hfit condition)
  intro c m' hl
  have hfit' := hl.fits_same hfit
  by_cases hc : c.isTrue = true
  · rw [if_pos hc]
    apply Safe.bind (ih.evalBody (hl.fits_holding hfit) body).of_holding
    intro v m'' hl'
    by_cases hblock : body.isBlock = true
    · rw [if_pos hblock]
      exact ih (.looping condition body collected) ctx m'' (hl'.fits_same hfit') hcollected
    · rw [if_neg hblock]
      refine Safe.of_holding (v := v) ?_
      exact ih (.looping condition body (v :: collected)) _ m'' (hl'.fits_holding hfit')
        (collected_holding hcollected)
  · rw [if_neg hc]
    apply Safe.pure hfit'
    intro h hh
    exact hfit'.names h (hcollected (handles_loopValue hh))

theorem call (ih : SafeAt n) (hfit : Fits ctx m) {f : Function} {args : List Value} (span : Span)
    (hhome : m.arena.Names f.home) (hargs : ∀ h ∈ Value.handlesAll args, m.arena.Names h) :
    Safe Value.handles ctx m (callFunction (n + 1) ctx f args span m) := by
  rw [callFunction_succ]
  apply Safe.calling hfit (there_of_names hhome) hargs
  intro _ i m' he
  exact ih.evalBody he.fits f.body

end SafeAt

/-- Evaluation of a task in a running frame of a sound arena never ends with a fault; it leaves a
sound arena, in which the same frames run, and in which the handles under way and those of the
result name their frames. -/
theorem safe_run (n : Nat) : SafeAt n := by
  induction n with
  | zero =>
    intro t ctx m hfit hready
    cases t with
    | builtin b args span => exact safe_callBuiltin hfit hready
    | running b span => exact safe_runBuiltin hfit hready
    | binding args => exact safe_setAll hfit hready
    | _ => trivial
  | succ n ih =>
    intro t ctx m hfit hready
    cases t with
    | expr e => exact ih.expr hfit e
    | all es => exact ih.all hfit es
    | number e => exact ih.number hfit e
    | step e =>
      cases e with
      | none => exact Safe.pure hfit (fun h hh => nomatch hh)
      | some e => exact ih.evalNumber hfit e
    | body body =>
      cases body with
      | inline e => exact ih.eval hfit e
      | block span es => exact ih.list hfit es
    | branch body => exact ih.branch hfit body
    | choice condition body rest => exact ih.choice hfit condition body rest
    | counting name upwards bound inc body i collected =>
      exact ih.counting hfit name upwards bound inc i body hready
    | looping condition body collected => exact ih.looping hfit condition body hready
    | call f args span => exact ih.call hfit span hready.1 hready.2
    | builtin b args span => exact safe_callBuiltin hfit hready
    | running b span => exact safe_runBuiltin hfit hready
    | binding args => exact safe_setAll hfit hready

end Eval

end UniformScript
