import UniformScript.Proofs.Arena.Mirror
import UniformScript.Proofs.Eval.Safety

/-!
# Evaluation beside a mirror

The same thing is evaluated twice, in an arena and in its mirror.  Whatever the arena frees and
uses again in between, both evaluations end alike: with a value and that value settled, with the
same failure, or both with the bound on the depth met; and the world around them has seen the same.

* `Reflects`: that two steps end alike, and `Reflects.bind`: one step after the other.
* `Reflects.calling`: a call, from the push of its frame to the release.
* `reflectsAt`: evaluation of any task, however deep.
-/

namespace UniformScript

open Arena

theorem Bindings.settled_zip (names : List String) (vs : List Value) :
    Bindings.settled (names.zip vs) = names.zip (Value.settledAll vs) := by
  rw [Value.settledAll_eq_map]
  exact mapValues_zip names vs

namespace Eval

variable {α α' β β' : Type} {ctx ctx' : Context} {m m' m₁ m₁' : Machine} {hs : List Handle}

/-! ## Steps that end alike -/

/-- The machine `m'` has the mirror of the arena, and the same world. -/
structure Machine.Mirrors (m m' : Machine) : Prop where
  arena : Arena.Mirrors m.arena m'.arena
  host : m'.host = m.host

/-- Evaluation can go on in a machine, and beside it in its mirror. -/
structure Beside (ctx : Context) (m : Machine) (ctx' : Context) (m' : Machine) : Prop where
  fits : Fits ctx m
  mirrors : m.Mirrors m'
  /-- The running frame of the one is the image of that of the other. -/
  running : m.arena.Running ⟨ctx.frame, ctx'.frame⟩
  run : ctx'.run = ctx.run
  calls : ctx'.calls = ctx.calls

/-- Two steps end alike, where `settle` settles the result of the first. -/
inductive Reflects (settle : α → α') : Outcome α → Outcome α' → Prop where
  | value (a : α) {m m' : Machine} (hm : m.Mirrors m') :
    Reflects settle (.value a m) (.value (settle a) m')
  | raised (failure : RuntimeFailure) {m m' : Machine} (hm : m.Mirrors m') :
    Reflects settle (.raised failure m) (.raised failure m')
  | exhausted : Reflects settle .exhausted .exhausted

theorem Beside.frame (hb : Beside ctx m ctx' m') :
    ∃ f, m.arena.frame ctx.frame = .ok f ∧ f.serial = ctx'.frame := by
  obtain ⟨f, hf, hserial, -⟩ := hb.running
  exact ⟨f, hf, hserial⟩

/-- What is under way may be dropped. -/
theorem Beside.of_holding {v v' : Value} (hb : Beside (ctx.holding v) m (ctx'.holding v') m') :
    Beside ctx m ctx' m' where
  fits := ⟨hb.fits.sound, fun h hh => hb.fits.names h (List.mem_append_right _ hh),
    hb.fits.running⟩
  mirrors := hb.mirrors
  running := hb.running
  run := hb.run
  calls := hb.calls

/-- After a step evaluation can go on. -/
theorem Beside.next (hb : Beside ctx m ctx' m') (hl : Leaves ctx m hs m₁)
    (hm : m₁.Mirrors m₁') : Beside ctx m₁ ctx' m₁' where
  fits := hl.fits_same hb.fits
  mirrors := hm
  running := (hl.running_iff _).2 hb.running
  run := hb.run
  calls := hb.calls

/-- So it can with the result of the step under way. -/
theorem Beside.holding {v : Value} (hb : Beside ctx m ctx' m') (hl : Leaves ctx m v.handles m₁)
    (hm : m₁.Mirrors m₁') : Beside (ctx.holding v) m₁ (ctx'.holding v.settled) m₁' where
  fits := hl.fits_holding hb.fits
  mirrors := hm
  running := (hl.running_iff _).2 hb.running
  run := hb.run
  calls := hb.calls

namespace Reflects

variable {settle : α → α'} {settle' : β → β'} {handles : α → List Handle}

theorem pure {a : α} {a' : α'} (hb : Beside ctx m ctx' m') (ha : a' = settle a) :
    Reflects settle ((Pure.pure a : Eval α) m) ((Pure.pure a' : Eval α') m') := by
  subst ha
  exact .value a hb.mirrors

theorem raise {cause : RuntimeCause} {span : Span} (hb : Beside ctx m ctx' m') :
    Reflects settle ((Eval.raise ctx cause span : Eval α) m)
      ((Eval.raise ctx' cause span : Eval α') m') := by
  unfold Eval.raise
  rw [hb.calls]
  exact .raised _ hb.mirrors

/-- One step after the other. -/
theorem bind {p : Eval α} {p' : Eval α'} {f : α → Eval β} {f' : α' → Eval β'}
    (hsafe : Safe handles ctx m (p m)) (hp : Reflects settle (p m) (p' m'))
    (hf : ∀ a m₁ m₁', Leaves ctx m (handles a) m₁ → m₁.Mirrors m₁' →
      Reflects settle' (f a m₁) (f' (settle a) m₁')) :
    Reflects settle' ((p >>= f) m) ((p' >>= f') m') := by
  show Reflects settle' (Eval.bind p f m) (Eval.bind p' f' m')
  unfold Eval.bind
  generalize p m = o at hsafe hp
  generalize p' m' = o' at hp
  cases hp with
  | value a hm => exact hf a _ _ hsafe hm
  | raised failure hm => exact .raised failure hm
  | exhausted => exact .exhausted

/-! ### Steps on the arena -/

/-- Asking for the value of a name. -/
theorem ask_get (hb : Beside ctx m ctx' m') (name : String) :
    Reflects (Option.map Value.settled) (ask (fun a => a.get ctx.frame name) m)
      (ask (fun a => a.get ctx'.frame name) m') := by
  obtain ⟨f, hf, hserial⟩ := hb.frame
  obtain ⟨r, hr, hr'⟩ := hb.mirrors.arena.get hb.fits.sound hf name
  rw [hserial] at hr'
  simp only [ask, hr, hr']
  exact .value r hb.mirrors

/-- Binding a name in the running frame. -/
theorem set (hb : Beside ctx m ctx' m') (name : String) (v : Value) :
    Reflects id (Eval.set ctx.frame name v m) (Eval.set ctx'.frame name v.settled m') := by
  obtain ⟨f, hf, hserial⟩ := hb.frame
  obtain ⟨a, a', ha, ha', hm⟩ := hb.mirrors.arena.set (v := v) hb.fits.sound hf name
  rw [hserial] at ha'
  unfold Eval.set change
  simp only [ha, ha', Bind.bind, Except.bind]
  exact .value () ⟨hm, hb.mirrors.host⟩

/-- Giving a name another value. -/
theorem reassign (hb : Beside ctx m ctx' m') (name : String) (v : Value) :
    Reflects id (change (fun a => a.reassign ctx.frame name v) m)
      (change (fun a => a.reassign ctx'.frame name v.settled) m') := by
  obtain ⟨f, hf, hserial⟩ := hb.frame
  obtain ⟨r, a, a', ha, ha', hm⟩ := hb.mirrors.arena.reassign (v := v) hb.fits.sound hf name
  rw [hserial] at ha'
  simp only [change, ha, ha']
  exact .value r ⟨hm, hb.mirrors.host⟩

/-- Taking a handle on the running frame. -/
theorem handle (hb : Beside ctx m ctx' m') :
    Reflects Handle.settled (ask (fun a => a.handle ctx.frame) m)
      (ask (fun a => a.handle ctx'.frame) m') := by
  obtain ⟨f, hf, hserial⟩ := hb.frame
  have hh := hb.mirrors.arena.handle hf
  rw [hserial] at hh
  simp only [ask, handle_eq hf, hh]
  rw [hserial]
  exact .value _ hb.mirrors

/-- Turning to the world. -/
theorem turn (hb : Beside ctx m ctx' m') (f : Host → α × Host) :
    Reflects id (Eval.turn f m) (Eval.turn f m') := by
  have hhost := hb.mirrors.host
  unfold Eval.turn
  rw [hhost]
  exact .value _ ⟨hb.mirrors.arena, rfl⟩

end Reflects

/-! ## Calls -/

/-- Binding names in a frame and in its image. -/
theorem Machine.Mirrors.setAll {i : Nat} {f : Frame} {args : List (String × Value)}
    (hm : m.Mirrors m') (hs : m.arena.Sound) (hf : m.arena.frame i = .ok f)
    (hargs : ∀ p ∈ args, ∀ h ∈ p.2.handles, m.arena.Names h) :
    ∃ m₁ m₁', Eval.setAll i args m = .value () m₁ ∧
      Eval.setAll f.serial (Bindings.settled args) m' = .value () m₁' ∧ m₁.Mirrors m₁' := by
  induction args generalizing m m' f with
  | nil => exact ⟨m, m', rfl, rfl, hm⟩
  | cons arg args ih =>
    obtain ⟨name, v⟩ := arg
    obtain ⟨hv, hrest⟩ := List.forall_mem_cons.1 hargs
    obtain ⟨a, a', ha, ha', hma⟩ := hm.arena.set (v := v) hs hf name
    obtain ⟨b, hb, hsame, hsound⟩ := hs.exists_set hf hv name
    rw [ha] at hb
    cases hb
    obtain ⟨g, hg, hserial⟩ := (hsame.names_iff ⟨i, f.serial⟩).2 ⟨f, hf, rfl⟩
    have hma' : Machine.Mirrors ⟨a, m.host⟩ ⟨a', m'.host⟩ := ⟨hma, hm.host⟩
    obtain ⟨m₁, m₁', h, h', hm₁⟩ := ih hma' hsound hg fun p hp k hk =>
      (hsame.names_iff k).2 (hrest p hp k hk)
    have hset : Eval.set i name v m = .value () ⟨a, m.host⟩ := by
      simp only [Eval.set, change, ha, Bind.bind, Except.bind]
      rfl
    have hset' : Eval.set f.serial name v.settled m' = .value () ⟨a', m'.host⟩ := by
      simp only [Eval.set, change, ha', Bind.bind, Except.bind]
      rfl
    refine ⟨m₁, m₁', ?_, ?_, hm₁⟩
    · show (Eval.set i name v >>= fun _ => Eval.setAll i args) m = _
      rw [bind_of_value hset]
      exact h
    · show (Eval.set f.serial name v.settled >>=
        fun _ => Eval.setAll f.serial (Bindings.settled args)) m' = _
      rw [bind_of_value hset']
      simp only at hserial
      rw [hserial] at h'
      exact h'

/-- Binding several names in the running frame. -/
theorem reflects_setAll {args : List (String × Value)} (hb : Beside ctx m ctx' m')
    (hargs : ∀ p ∈ args, ∀ h ∈ p.2.handles, m.arena.Names h) :
    Reflects id (Eval.setAll ctx.frame args m)
      (Eval.setAll ctx'.frame (Bindings.settled args) m') := by
  obtain ⟨f, hf, hserial⟩ := hb.frame
  obtain ⟨m₁, m₁', h, h', hm⟩ := hb.mirrors.setAll hb.fits.sound hf hargs
  rw [hserial] at h'
  rw [h, h']
  exact .value () hm

/-- The frames of a call and of the call beside it. -/
theorem Beside.exists_entered {parent : Option Nat} {args : List (String × Value)}
    (hb : Beside ctx m ctx' m') (hparent : ∀ p ∈ parent, ∃ f, m.arena.frame p = .ok f)
    (hargs : ∀ p ∈ args, ∀ h ∈ p.2.handles, m.arena.Names h) :
    ∃ i m₀ m₀' m₁ m₁', change (fun a => a.push parent) m = .value i m₀ ∧
      setAll i args m₀ = .value () m₁ ∧ Entered ctx m i args m₁ ∧
      change (fun a => a.push (parent.map m.arena.serialAt)) m' =
        .value m.arena.nextSerial m₀' ∧
      setAll m.arena.nextSerial (Bindings.settled args) m₀' = .value () m₁' ∧
      m₁.Mirrors m₁' := by
  obtain ⟨i, m₀, m₁, hpush, hset, he⟩ := Eval.exists_entered hb.fits hparent hargs
  obtain ⟨j, a, a', ha, ha', hm⟩ := hb.mirrors.arena.push hb.fits.sound hparent
  obtain ⟨k, c, hc, hp, hsound⟩ := hb.fits.sound.exists_push hparent
  rw [ha] at hc
  cases hc
  simp only [change, ha] at hpush
  cases hpush
  have hframe := hp.frame_iff.2 (.inl ⟨rfl, rfl⟩)
  have hm' : Machine.Mirrors ⟨a, m.host⟩ ⟨a', m'.host⟩ := ⟨hm, hb.mirrors.host⟩
  obtain ⟨n, n', hn, hn', hmn⟩ := hm'.setAll hsound hframe fun p hpa h hh =>
    hp.names_iff.2 (.inr (hargs p hpa h hh))
  rw [hset] at hn
  cases hn
  refine ⟨i, _, ⟨a', m'.host⟩, m₁, n', ?_, hset, he, ?_, hn', hmn⟩
  · simp only [change, ha]
  · simp only [change, ha']

/-- Whatever a frame leaves behind, it is released, and so is the frame beside it. -/
theorem Entered.exists_release_mirrored {i run : Nat} {args : List (String × Value)}
    {name : String} {entry : Position} {n n' : Machine} (he : Entered ctx m i args m₁)
    (held' : List Handle) (hl : Leaves (ctx.entering name entry i run) m₁ hs n)
    (hn : n.Mirrors n') :
    ∃ b b', n.arena.release (hs ++ ctx.held) i = .ok b ∧
      n'.arena.release held' m.arena.nextSerial = .ok b' ∧
      Machine.Mirrors ⟨b, n.host⟩ ⟨b', n'.host⟩ := by
  obtain ⟨f, hf, hserial, hrunning⟩ :=
    (hl.running_iff ⟨i, m.arena.nextSerial⟩).2 ((he.running_iff _).2 (.inl rfl))
  obtain ⟨b, hb, hr, -⟩ := hl.sound.exists_release hl.names he.ne_global hf hrunning
  obtain ⟨b', hb', hmb⟩ := hn.arena.release held' hl.sound he.ne_global hf hr
  have hserial' : f.serial = m.arena.nextSerial := hserial
  rw [hserial'] at hb'
  exact ⟨b, b', hb, hb', hmb, hn.host⟩

/-- A frame, and the frame beside it: what is evaluated in them ends alike. -/
theorem Reflects.inFrame {parent parent' : Option Nat} {args : List (String × Value)}
    {body body' : Nat → Eval Value} (name : String) (entry : Position) (run : Nat)
    (hb : Beside ctx m ctx' m')
    (hparent : ∀ p ∈ parent, ∃ f, m.arena.frame p = .ok f)
    (hparent' : parent' = parent.map m.arena.serialAt)
    (hargs : ∀ p ∈ args, ∀ h ∈ p.2.handles, m.arena.Names h)
    (hsafe : ∀ i m₁, Entered ctx m i args m₁ →
      Safe Value.handles (ctx.entering name entry i run) m₁ (body i m₁))
    (hbody : ∀ i s m₁ m₁', Entered ctx m i args m₁ →
      Beside (ctx.entering name entry i run) m₁ (ctx'.entering name entry s run) m₁' →
      Reflects Value.settled (body i m₁) (body' s m₁')) :
    Reflects Value.settled (Eval.inFrame ctx.held parent args body m)
      (Eval.inFrame ctx'.held parent' (Bindings.settled args) body' m') := by
  subst hparent'
  unfold Eval.inFrame
  obtain ⟨i, m₀, m₀', m₁, m₁', hpush, hset, he, hpush', hset', hm⟩ :=
    hb.exists_entered hparent hargs
  rw [bind_of_value hpush, bind_of_value hset, bind_of_value hpush', bind_of_value hset']
  have hcalls :
      (⟨name, some entry⟩ : Activation) :: ctx'.calls = ⟨name, some entry⟩ :: ctx.calls :=
    congrArg _ hb.calls
  have hbeside : Beside (ctx.entering name entry i run) m₁
      (ctx'.entering name entry m.arena.nextSerial run) m₁' :=
    ⟨he.fits, hm, (he.running_iff _).2 (.inl rfl), rfl, hcalls⟩
  have hend := hbody i _ m₁ m₁' he hbeside
  have hsafe := hsafe i m₁ he
  unfold releasing
  generalize body i m₁ = o at hend hsafe
  generalize body' m.arena.nextSerial m₁' = o' at hend
  cases hend with
  | value v hn =>
    obtain ⟨b, b', hb, hb', hmb⟩ :=
      he.exists_release_mirrored (v.settled.handles ++ ctx'.held) hsafe hn
    simp only [hb, hb']
    exact .value v hmb
  | raised failure hn =>
    obtain ⟨b, b', hb, hb', hmb⟩ := he.exists_release_mirrored ctx'.held hsafe hn
    rw [List.nil_append] at hb
    simp only [hb, hb']
    exact .raised failure hmb
  | exhausted => exact .exhausted

/-- The check of the number of arguments. -/
theorem Reflects.checkArity {name : String} {expected given : Nat} {span : Span}
    {f f' : Unit → Eval Value} (hb : Beside ctx m ctx' m')
    (hf : expected = given → Reflects Value.settled (f () m) (f' () m')) :
    Reflects Value.settled ((Eval.checkArity ctx name expected given span >>= f) m)
      ((Eval.checkArity ctx' name expected given span >>= f') m') := by
  unfold Eval.checkArity
  by_cases hmany : expected < given
  · rw [if_pos hmany, if_pos hmany]
    exact Reflects.raise hb
  · by_cases hfew : given < expected
    · rw [if_neg hmany, if_pos hfew, if_neg hmany, if_pos hfew]
      exact Reflects.raise hb
    · rw [if_neg hmany, if_neg hfew, if_neg hmany, if_neg hfew]
      exact hf (by omega)

/-- A call, and the call beside it. -/
theorem Reflects.calling {parent parent' : Option Nat} {params : List String} {args : List Value}
    {span : Span} {body body' : Nat → Eval Value} (name : String) (run : Nat)
    (hb : Beside ctx m ctx' m')
    (hparent : ∀ p ∈ parent, ∃ f, m.arena.frame p = .ok f)
    (hparent' : parent' = parent.map m.arena.serialAt)
    (hargs : ∀ h ∈ Value.handlesAll args, m.arena.Names h)
    (hsafe : params.length = args.length → ∀ i m₁, Entered ctx m i (params.zip args) m₁ →
      Safe Value.handles (ctx.entering name span.start i run) m₁ (body i m₁))
    (hbody : params.length = args.length → ∀ i s m₁ m₁', Entered ctx m i (params.zip args) m₁ →
      Beside (ctx.entering name span.start i run) m₁ (ctx'.entering name span.start s run) m₁' →
      Reflects Value.settled (body i m₁) (body' s m₁')) :
    Reflects Value.settled (Eval.calling ctx name params args span parent body m)
      (Eval.calling ctx' name params (Value.settledAll args) span parent' body' m') := by
  unfold Eval.calling
  rw [Value.length_settledAll, ← Bindings.settled_zip]
  apply Reflects.checkArity hb
  intro hlength
  exact Reflects.inFrame name span.start run hb hparent hparent' (handles_zip hargs)
    (hsafe hlength) (hbody hlength)

/-! ## Built-in functions -/

/-- An argument that is bound in the running frame. -/
theorem Reflects.argument {name : String} (hb : Beside ctx m ctx' m')
    (hbound : m.arena.Binds ctx.frame name) :
    Reflects Value.settled (Eval.argument ctx name m) (Eval.argument ctx' name m') := by
  obtain ⟨f, hf, hserial⟩ := hb.frame
  obtain ⟨v, hv⟩ := hbound.get
  obtain ⟨r, hr, hr'⟩ := hb.mirrors.arena.get hb.fits.sound hf name
  rw [hv] at hr
  cases hr
  rw [hserial] at hr'
  have hask : ask (fun a => a.get ctx.frame name) m = .value (some v) m := by
    simp only [ask, hv]
  have hask' : ask (fun a => a.get ctx'.frame name) m' = .value (some v.settled) m' := by
    simp only [ask, hr']
    rfl
  unfold Eval.argument
  rw [bind_of_value hask, bind_of_value hask']
  exact Reflects.pure hb rfl

/-- Running a built-in function whose arguments are bound. -/
theorem reflects_runBuiltin {b : Builtin} {span : Span} (hb : Beside ctx m ctx' m')
    (hbound : ∀ name ∈ b.params, m.arena.Binds ctx.frame name) :
    Reflects Value.settled (runBuiltin ctx b span m) (runBuiltin ctx' b span m') := by
  cases b with
  | print =>
    have hdata := hbound "data" List.mem_cons_self
    apply Reflects.bind (Safe.argument hb.fits hdata) (Reflects.argument hb hdata)
    intro v m₁ m₁' hl hm
    have hb₁ := hb.next hl hm
    rw [Value.printed_settled]
    apply Reflects.bind (Safe.turn hb₁.fits _) (Reflects.turn hb₁ _)
    intro _ m₂ m₂' hl₂ hm₂
    exact Reflects.pure (hb₁.next hl₂ hm₂) rfl
  | capture =>
    have hdata := hbound "data" List.mem_cons_self
    apply Reflects.bind (Safe.argument hb.fits hdata) (Reflects.argument hb hdata)
    intro v m₁ m₁' hl hm
    have hb₁ := hb.next hl hm
    rw [Value.printed_settled]
    apply Reflects.bind (Safe.turn hb₁.fits _) (Reflects.turn hb₁ _)
    intro line m₂ m₂' hl₂ hm₂
    have hb₂ := hb₁.next hl₂ hm₂
    cases line with
    | some line => exact Reflects.pure hb₂ rfl
    | none =>
      apply Reflects.bind (Safe.turn hb₂.fits _) (Reflects.turn hb₂ _)
      intro reason m₃ m₃' hl₃ hm₃
      exact Reflects.raise (hb₂.next hl₃ hm₃)
  | random =>
    apply Reflects.bind (Safe.turn hb.fits _) (Reflects.turn hb _)
    intro x m₁ m₁' hl hm
    exact Reflects.pure (hb.next hl hm) rfl
  | round =>
    have hval := hbound "val" List.mem_cons_self
    apply Reflects.bind (Safe.argument hb.fits hval) (Reflects.argument hb hval)
    intro v m₁ m₁' hl hm
    have hb₁ := hb.next hl hm
    cases v with
    | number x => exact Reflects.pure hb₁ rfl
    | _ => exact Reflects.raise hb₁

/-- Calling a built-in function. -/
theorem reflects_callBuiltin {b : Builtin} {vs : List Value} {span : Span}
    (hb : Beside ctx m ctx' m') (hvs : ∀ h ∈ Value.handlesAll vs, m.arena.Names h) :
    Reflects Value.settled (callBuiltin ctx b vs span m)
      (callBuiltin ctx' b (Value.settledAll vs) span m') := by
  have hbound (hlength : b.params.length = vs.length) {i : Nat} {n : Machine}
      (he : Entered ctx m i (b.params.zip vs) n) : ∀ name ∈ b.params, n.arena.Binds i name := by
    intro name hname
    obtain ⟨p, hp, rfl⟩ := mem_zip_of_mem hlength hname
    exact he.binds p hp
  have hnone : ∀ p ∈ (none : Option Nat), ∃ f, m.arena.frame p = .ok f := nofun
  rw [callBuiltin_eq, callBuiltin_eq, hb.run]
  apply Reflects.calling b.name ctx.run hb hnone rfl hvs
  · intro hlength i n he
    exact safe_runBuiltin he.fits (hbound hlength he)
  · intro hlength i s n n' he hb'
    exact reflects_runBuiltin hb' (hbound hlength he)

/-! ## Tasks -/

theorem loopValue_settled (body : Body) (collected : List Value) :
    loopValue body (Value.settledAll collected) = (loopValue body collected).settled := by
  unfold loopValue
  split
  · rfl
  · rw [Value.settled, Value.settledAll_reverse]

/-- The task with all the values in it settled. -/
def Task.settled : Task → Task
  | expr e => expr e
  | all es => all es
  | number e => number e
  | step e => step e
  | body b => body b
  | branch b => branch b
  | choice condition b rest => choice condition b rest
  | counting name upwards bound inc b i collected =>
    counting name upwards bound inc b i (Value.settledAll collected)
  | looping condition b collected => looping condition b (Value.settledAll collected)
  | call f args span => call f.settled (Value.settledAll args) span
  | builtin b args span => builtin b (Value.settledAll args) span
  | running b span => running b span
  | binding args => binding (Bindings.settled args)

/-- Settles the result of a task. -/
def Task.settle : (t : Task) → t.Result → t.settled.Result
  | expr _ => Value.settled
  | all _ => Value.settledAll
  | number _ => id
  | step _ => id
  | body _ => Value.settled
  | branch _ => Value.settled
  | choice _ _ _ => Value.settled
  | counting _ _ _ _ _ _ _ => Value.settled
  | looping _ _ _ => Value.settled
  | call _ _ _ => Value.settled
  | builtin _ _ _ => Value.settled
  | running _ _ => Value.settled
  | binding _ => id

/-- Evaluation of every task ends like that of the settled task beside it, with the bound `n` on
the depth. -/
def ReflectsAt (n : Nat) : Prop :=
  ∀ (t : Task) (ctx ctx' : Context) (m m' : Machine), Beside ctx m ctx' m' → t.Ready ctx m →
    Reflects t.settle (t.run n ctx m) (t.settled.run n ctx' m')

namespace ReflectsAt

variable {n : Nat} {settle : β → β'}

/-- The value of an expression, and what comes after it. -/
theorem eval (ih : ReflectsAt n) (hb : Beside ctx m ctx' m') (e : Expr) {f : Value → Eval β}
    {f' : Value → Eval β'}
    (hf : ∀ v m₁ m₁', Leaves ctx m v.handles m₁ → m₁.Mirrors m₁' →
      Reflects settle (f v m₁) (f' v.settled m₁')) :
    Reflects settle ((eval n ctx e >>= f) m) ((Eval.eval n ctx' e >>= f') m') :=
  Reflects.bind ((safe_run n).eval hb.fits e) (ih (.expr e) ctx ctx' m m' hb trivial) hf

/-- The values of expressions, and what comes after them. -/
theorem evalAll (ih : ReflectsAt n) (hb : Beside ctx m ctx' m') (es : List Expr)
    {f : List Value → Eval β} {f' : List Value → Eval β'}
    (hf : ∀ vs m₁ m₁', Leaves ctx m (Value.handlesAll vs) m₁ → m₁.Mirrors m₁' →
      Reflects settle (f vs m₁) (f' (Value.settledAll vs) m₁')) :
    Reflects settle ((evalAll n ctx es >>= f) m) ((Eval.evalAll n ctx' es >>= f') m') :=
  Reflects.bind ((safe_run n).evalAll hb.fits es) (ih (.all es) ctx ctx' m m' hb trivial) hf

/-- A number, and what comes after it. -/
theorem evalNumber (ih : ReflectsAt n) (hb : Beside ctx m ctx' m') (e : Expr)
    {f : Float → Eval β} {f' : Float → Eval β'}
    (hf : ∀ x m₁ m₁', Leaves ctx m [] m₁ → m₁.Mirrors m₁' →
      Reflects settle (f x m₁) (f' x m₁')) :
    Reflects settle ((evalNumber n ctx e >>= f) m) ((Eval.evalNumber n ctx' e >>= f') m') :=
  Reflects.bind ((safe_run n).evalNumber hb.fits e) (ih (.number e) ctx ctx' m m' hb trivial) hf

/-- The step of a loop, and what comes after it. -/
theorem evalStep (ih : ReflectsAt n) (hb : Beside ctx m ctx' m') (e : Option Expr)
    {f : Float → Eval β} {f' : Float → Eval β'}
    (hf : ∀ x m₁ m₁', Leaves ctx m [] m₁ → m₁.Mirrors m₁' →
      Reflects settle (f x m₁) (f' x m₁')) :
    Reflects settle ((evalStep n ctx e >>= f) m) ((Eval.evalStep n ctx' e >>= f') m') :=
  Reflects.bind ((safe_run n).evalStep hb.fits e) (ih (.step e) ctx ctx' m m' hb trivial) hf

/-- The value of a body, and what comes after it. -/
theorem evalBody (ih : ReflectsAt n) (hb : Beside ctx m ctx' m') (body : Body) {f : Value → Eval β}
    {f' : Value → Eval β'}
    (hf : ∀ v m₁ m₁', Leaves ctx m v.handles m₁ → m₁.Mirrors m₁' →
      Reflects settle (f v m₁) (f' v.settled m₁')) :
    Reflects settle ((evalBody n ctx body >>= f) m) ((Eval.evalBody n ctx' body >>= f') m') :=
  Reflects.bind ((safe_run n).evalBody hb.fits body) (ih (.body body) ctx ctx' m m' hb trivial) hf

/-- The values of expressions make a list. -/
theorem list (ih : ReflectsAt n) (hb : Beside ctx m ctx' m') (es : List Expr) :
    Reflects Value.settled
      ((do
        let vs ← Eval.evalAll n ctx es
        return Value.list vs) m)
      ((do
        let vs ← Eval.evalAll n ctx' es
        return Value.list vs) m') := by
  apply ih.evalAll hb
  intro vs m₁ m₁' hl hm
  exact Reflects.pure (hb.next hl hm) rfl

theorem expr (ih : ReflectsAt n) (hb : Beside ctx m ctx' m') (e : Expr) :
    Reflects Value.settled (Eval.eval (n + 1) ctx e m) (Eval.eval (n + 1) ctx' e m') := by
  cases e with
  | number span lexeme x => exact Reflects.pure hb rfl
  | text span s => exact Reflects.pure hb rfl
  | list span es => exact ih.list hb es
  | access span name =>
    rw [eval_access, eval_access]
    apply Reflects.bind (Safe.ask_get hb.fits name) (Reflects.ask_get hb name)
    intro r m₁ m₁' hl hm
    cases r with
    | none => exact Reflects.raise (hb.next hl hm)
    | some v => exact Reflects.pure (hb.next hl hm) rfl
  | bind span name value =>
    rw [eval_bind, eval_bind]
    apply ih.eval hb
    intro v m₁ m₁' hl hm
    have hb₁ := hb.next hl hm
    apply Reflects.bind (Safe.set hb₁.fits hl.names_result name) (Reflects.set hb₁ name v)
    intro _ m₂ m₂' hl₂ hm₂
    exact Reflects.pure (hb₁.next hl₂ hm₂) rfl
  | rebind span name value =>
    rw [eval_rebind, eval_rebind]
    apply ih.eval hb
    intro v m₁ m₁' hl hm
    have hb₁ := hb.next hl hm
    apply Reflects.bind (Safe.reassign hb₁.fits hl.names_result name)
      (Reflects.reassign hb₁ name v)
    intro _ m₂ m₂' hl₂ hm₂
    exact Reflects.pure (hb₁.next hl₂ hm₂) rfl
  | unary span op operand =>
    rw [eval_unary, eval_unary]
    apply ih.eval hb
    intro v m₁ m₁' hl hm
    have hb₁ := hb.next hl hm
    rw [Value.applyUnary_settled, Value.type_settled]
    cases op.apply v with
    | ok r => exact Reflects.pure hb₁ rfl
    | error fault => exact Reflects.raise hb₁
  | binary span op left right =>
    rw [eval_binary, eval_binary]
    apply ih.eval hb
    intro v m₁ m₁' hl hm
    have hb₁ := hb.holding hl hm
    apply ih.eval hb₁
    intro w m₂ m₂' hl₂ hm₂
    have hb₂ := hb₁.next hl₂ hm₂
    rw [Value.apply_settled, Value.type_settled, Value.type_settled]
    cases op.apply v w with
    | ok r => exact Reflects.pure hb₂ rfl
    | error fault => cases fault <;> exact Reflects.raise (hb₂.of_holding)
  | choice span condition body rest =>
    exact ih (.choice condition body rest) ctx ctx' m m' hb trivial
  | forLoop span name first bound step body =>
    rw [eval_forLoop, eval_forLoop]
    apply ih.evalNumber hb
    intro x m₁ m₁' hl hm
    have hb₁ := hb.next hl hm
    apply ih.evalNumber hb₁
    intro y m₂ m₂' hl₂ hm₂
    have hb₂ := hb₁.next hl₂ hm₂
    apply ih.evalStep hb₂
    intro z m₃ m₃' hl₃ hm₃
    exact ih (.counting name (0 ≤ x) y z body x []) ctx ctx' m₃ m₃' (hb₂.next hl₃ hm₃)
      (List.nil_subset _)
  | whileLoop span condition body =>
    exact ih (.looping condition body []) ctx ctx' m m' hb (List.nil_subset _)
  | function span name params body =>
    rw [eval_function, eval_function, hb.run]
    apply Reflects.bind (Safe.handle hb.fits) (Reflects.handle hb)
    intro home m₁ m₁' hl hm
    have hb₁ := hb.next hl hm
    cases name with
    | none => exact Reflects.pure hb₁ rfl
    | some name =>
      let v := Value.function ⟨some name, params, body, ⟨ctx.run, span.start.index⟩, home⟩
      have hv : ∀ h ∈ v.handles, m₁.arena.Names h := hl.names_result
      apply Reflects.bind (Safe.set hb₁.fits hv name) (Reflects.set hb₁ name v)
      intro _ m₂ m₂' hl₂ hm₂
      exact Reflects.pure (hb₁.next hl₂ hm₂) rfl
  | call span callee args =>
    rw [eval_call, eval_call]
    apply ih.eval hb
    intro v m₁ m₁' hl hm
    have hb₁ := hb.holding hl hm
    apply ih.evalAll hb₁
    intro vs m₂ m₂' hl₂ hm₂
    have hb₂ := hb₁.next hl₂ hm₂
    cases v with
    | function f =>
      have hhome : m₂.arena.Names f.home := hb₂.fits.names _ List.mem_cons_self
      exact ih (.call f vs span) _ _ m₂ m₂' hb₂ ⟨hhome, hl₂.names_result⟩
    | builtin b => exact reflects_callBuiltin hb₂ hl₂.names_result
    | _ => exact Reflects.raise hb₂.of_holding

theorem all (ih : ReflectsAt n) (hb : Beside ctx m ctx' m') (es : List Expr) :
    Reflects Value.settledAll (Eval.evalAll (n + 1) ctx es m)
      (Eval.evalAll (n + 1) ctx' es m') := by
  cases es with
  | nil => exact Reflects.pure hb rfl
  | cons e es =>
    rw [evalAll_cons, evalAll_cons]
    apply ih.eval hb
    intro v m₁ m₁' hl hm
    have hb₁ := hb.holding hl hm
    apply ih.evalAll hb₁
    intro vs m₂ m₂' hl₂ hm₂
    exact Reflects.pure (hb₁.next hl₂ hm₂) rfl

theorem number (ih : ReflectsAt n) (hb : Beside ctx m ctx' m') (e : Expr) :
    Reflects id (Eval.evalNumber (n + 1) ctx e m) (Eval.evalNumber (n + 1) ctx' e m') := by
  rw [evalNumber_succ, evalNumber_succ]
  apply ih.eval hb
  intro v m₁ m₁' hl hm
  have hb₁ := hb.next hl hm
  cases v with
  | number x => exact Reflects.pure hb₁ rfl
  | _ => exact Reflects.raise hb₁

theorem branch (ih : ReflectsAt n) (hb : Beside ctx m ctx' m') (body : Body) :
    Reflects Value.settled (Eval.evalBranch (n + 1) ctx body m)
      (Eval.evalBranch (n + 1) ctx' body m') := by
  rw [evalBranch_succ, evalBranch_succ]
  apply ih.evalBody hb
  intro v m₁ m₁' hl hm
  apply Reflects.pure (hb.next hl hm)
  split
  · rfl
  · rfl

theorem choice (ih : ReflectsAt n) (hb : Beside ctx m ctx' m') (condition : Expr) (body : Body)
    (rest : Branches) :
    Reflects Value.settled (choose (n + 1) ctx condition body rest m)
      (choose (n + 1) ctx' condition body rest m') := by
  rw [choose_succ, choose_succ]
  apply ih.eval hb
  intro c m₁ m₁' hl hm
  have hb₁ := hb.next hl hm
  rw [Value.isTrue_settled]
  by_cases hc : c.isTrue = true
  · rw [if_pos hc, if_pos hc]
    exact ih (.branch body) _ _ m₁ m₁' (hb.holding hl hm) trivial
  · rw [if_neg hc, if_neg hc]
    cases rest with
    | nothing => exact Reflects.pure hb₁ rfl
    | elif condition body rest =>
      exact ih (.choice condition body rest) ctx ctx' m₁ m₁' hb₁ trivial
    | otherwise body => exact ih (.branch body) ctx ctx' m₁ m₁' hb₁ trivial

theorem counting (ih : ReflectsAt n) (hb : Beside ctx m ctx' m') (name : String) (upwards : Bool)
    (bound step i : Float) (body : Body) {collected : List Value}
    (hcollected : Value.handlesAll collected ⊆ ctx.held) :
    Reflects Value.settled (count (n + 1) ctx name upwards bound step body i collected m)
      (count (n + 1) ctx' name upwards bound step body i (Value.settledAll collected) m') := by
  rw [count_succ, count_succ]
  by_cases hrange : inRange upwards i bound = true
  · rw [if_pos hrange, if_pos hrange]
    have hnone : ∀ h ∈ (Value.number i).handles, m.arena.Names h := fun h hh => nomatch hh
    apply Reflects.bind (Safe.set hb.fits hnone name) (Reflects.set hb name (.number i))
    intro _ m₁ m₁' hl hm
    have hb₁ := hb.next hl hm
    apply ih.evalBody hb₁
    intro v m₂ m₂' hl₂ hm₂
    by_cases hblock : body.isBlock = true
    · rw [if_pos hblock, if_pos hblock]
      exact ih (.counting name upwards bound step body (i + step) collected) ctx ctx' m₂ m₂'
        (hb₁.next hl₂ hm₂) hcollected
    · rw [if_neg hblock, if_neg hblock]
      exact ih (.counting name upwards bound step body (i + step) (v :: collected)) _ _ m₂ m₂'
        (hb₁.holding hl₂ hm₂) (collected_holding hcollected)
  · rw [if_neg hrange, if_neg hrange]
    exact Reflects.pure hb (loopValue_settled body collected)

theorem looping (ih : ReflectsAt n) (hb : Beside ctx m ctx' m') (condition : Expr) (body : Body)
    {collected : List Value} (hcollected : Value.handlesAll collected ⊆ ctx.held) :
    Reflects Value.settled (rounds (n + 1) ctx condition body collected m)
      (rounds (n + 1) ctx' condition body (Value.settledAll collected) m') := by
  rw [rounds_succ, rounds_succ]
  apply ih.eval hb
  intro c m₁ m₁' hl hm
  have hb₁ := hb.next hl hm
  rw [Value.isTrue_settled]
  by_cases hc : c.isTrue = true
  · rw [if_pos hc, if_pos hc]
    apply ih.evalBody (hb.holding hl hm)
    intro v m₂ m₂' hl₂ hm₂
    have hl₂ := hl₂.of_holding
    by_cases hblock : body.isBlock = true
    · rw [if_pos hblock, if_pos hblock]
      exact ih (.looping condition body collected) ctx ctx' m₂ m₂' (hb₁.next hl₂ hm₂) hcollected
    · rw [if_neg hblock, if_neg hblock]
      exact ih (.looping condition body (v :: collected)) _ _ m₂ m₂' (hb₁.holding hl₂ hm₂)
        (collected_holding hcollected)
  · rw [if_neg hc, if_neg hc]
    exact Reflects.pure hb₁ (loopValue_settled body collected)

theorem call (ih : ReflectsAt n) (hb : Beside ctx m ctx' m') {f : Function} {args : List Value}
    (span : Span) (hhome : m.arena.Names f.home)
    (hargs : ∀ h ∈ Value.handlesAll args, m.arena.Names h) :
    Reflects Value.settled (callFunction (n + 1) ctx f args span m)
      (callFunction (n + 1) ctx' f.settled (Value.settledAll args) span m') := by
  have hparent : some f.settled.home.index = (some f.home.index).map m.arena.serialAt := by
    obtain ⟨g, hg, hserial⟩ := hhome
    rw [Option.map_some, serialAt_eq hg, hserial]
    rfl
  rw [callFunction_succ, callFunction_succ]
  apply Reflects.calling f.shownName f.site.run hb (there_of_names hhome) hparent hargs
  · intro _ i n' he
    exact (safe_run n).evalBody he.fits f.body
  · intro _ i s n₁ n₁' he hb'
    exact ih (.body f.body) _ _ n₁ n₁' hb' trivial

end ReflectsAt

/-- Evaluation of any task in an arena, however deep, ends like evaluation of the settled task in
the mirror, and leaves an arena and its mirror. -/
theorem reflectsAt (n : Nat) : ReflectsAt n := by
  induction n with
  | zero =>
    intro t ctx ctx' m m' hb hready
    cases t with
    | builtin b args span => exact reflects_callBuiltin hb hready
    | running b span => exact reflects_runBuiltin hb hready
    | binding args => exact reflects_setAll hb hready
    | _ => exact .exhausted
  | succ n ih =>
    intro t ctx ctx' m m' hb hready
    cases t with
    | expr e => exact ih.expr hb e
    | all es => exact ih.all hb es
    | number e => exact ih.number hb e
    | step e =>
      cases e with
      | none => exact Reflects.pure hb rfl
      | some e => exact ih (.number e) ctx ctx' m m' hb trivial
    | body body =>
      cases body with
      | inline e => exact ih (.expr e) ctx ctx' m m' hb trivial
      | block span es => exact ih.list hb es
    | branch body => exact ih.branch hb body
    | choice condition body rest => exact ih.choice hb condition body rest
    | counting name upwards bound inc body i collected =>
      exact ih.counting hb name upwards bound inc i body hready
    | looping condition body collected => exact ih.looping hb condition body hready
    | call f args span => exact ih.call hb span hready.1 hready.2
    | builtin b args span => exact reflects_callBuiltin hb hready
    | running b span => exact reflects_runBuiltin hb hready
    | binding args => exact reflects_setAll hb hready

end Eval

end UniformScript
