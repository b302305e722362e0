import UniformScript.Arena.Collect
import UniformScript.Proofs.Arena.Frames
import UniformScript.Proofs.Syntax.Unspanned
import UniformScript.Proofs.Value.MapFunctions

/-!
# Values and arenas without spans

A function carries spans in its body, and the place where it is defined.  Both only serve reports
and the equality of functions; neither the arena nor the operators look at them.

* `Value.unspanned`: the value without the spans in the functions in it.
* `Arena.unspanned`: the arena with such values bound in its frames.
* `set_unspanned`, `push_unspanned`, `release_unspanned`, `collect_unspanned` and the like: to
  forget the spans and use the arena is to use the arena and forget the spans.
-/

namespace UniformScript

/-! ## Values -/

/-- The function without the spans of its body and the place of its definition. -/
def Function.unspanned (f : Function) : Function :=
  ⟨f.name, f.params, f.body.unspanned, ⟨0, 0⟩, f.home⟩

theorem Function.shownName_unspanned (f : Function) : f.unspanned.shownName = f.shownName := rfl

namespace Value

/-- The value without the spans of the functions in it. -/
def unspanned (v : Value) : Value := v.mapFunctions Function.unspanned

/-- The values without the spans of the functions in them. -/
def unspannedAll (vs : List Value) : List Value := vs.map unspanned

theorem unspanned_list (vs : List Value) : (list vs).unspanned = list (unspannedAll vs) :=
  congrArg list (mapFunctionsAll_eq_map vs)

theorem handles_unspanned (v : Value) : v.unspanned.handles = v.handles :=
  (handles_mapFunctions (fun _ => rfl) v).trans (List.map_id _)

theorem handlesAll_unspannedAll (vs : List Value) :
    handlesAll (unspannedAll vs) = handlesAll vs := by
  unfold unspannedAll unspanned
  rw [← mapFunctionsAll_eq_map]
  exact (handlesAll_mapFunctionsAll (fun _ => rfl) vs).trans (List.map_id _)

theorem length_unspannedAll (vs : List Value) : (unspannedAll vs).length = vs.length :=
  List.length_map _

theorem type_unspanned (v : Value) : v.unspanned.type = v.type := type_mapFunctions v

theorem isTrue_unspanned (v : Value) : v.unspanned.isTrue = v.isTrue := isTrue_mapFunctions v

theorem shown_unspanned (v : Value) : v.unspanned.shown = v.shown :=
  shown_mapFunctions Function.shownName_unspanned v

theorem printed_unspanned (v : Value) : v.unspanned.printed = v.printed :=
  printed_mapFunctions Function.shownName_unspanned v

theorem apply_unspanned (op : BinaryOp) (v w : Value) :
    op.apply v.unspanned w.unspanned = (op.apply v w).map unspanned :=
  apply_mapFunctions op v w

theorem applyUnary_unspanned (op : UnaryOp) (v : Value) :
    op.apply v.unspanned = (op.apply v).map unspanned :=
  applyUnary_mapFunctions op v

end Value

/-! ## Frames -/

/-- The bindings without the spans of the functions in them. -/
def Bindings.unspanned (bs : Bindings) : Bindings := bs.mapValues Value.unspanned

/-- The frame without the spans of the functions in its bindings. -/
def Frame.unspanned (f : Frame) : Frame := { f with bindings := f.bindings.unspanned }

theorem Frame.handles_unspanned (f : Frame) : f.unspanned.handles = f.handles := by
  unfold Frame.handles Frame.unspanned Bindings.unspanned Bindings.mapValues
  rw [List.flatMap_map]
  simp only [Value.handles_unspanned]

namespace Arena

variable {a : Arena} {i : Nat} {held : List Handle} {within : List Nat}

/-- The arena without the spans of the functions in its frames. -/
def unspanned (a : Arena) : Arena := { a with frames := a.frames.map (Option.map Frame.unspanned) }

theorem frame_unspanned (a : Arena) (i : Nat) :
    a.unspanned.frame i = (a.frame i).map Frame.unspanned := by
  unfold frame unspanned
  simp only [Array.getElem?_map]
  cases a.frames[i]? with
  | none => rfl
  | some o => cases o <;> rfl

theorem unspanned_putFrame (a : Arena) (i : Nat) (f : Frame) :
    (a.putFrame i f).unspanned = a.unspanned.putFrame i f.unspanned := by
  unfold putFrame unspanned
  simp only [Array.map_setIfInBounds, Option.map_some]

theorem live_unspanned (a : Arena) : a.unspanned.live = a.live.map Frame.unspanned := by
  unfold live unspanned
  simp only [Array.toList_map, List.filterMap_map, List.map_filterMap]
  rfl

theorem handles_unspanned (a : Arena) : a.unspanned.handles = a.handles := by
  unfold handles
  rw [live_unspanned, List.flatMap_map]
  simp only [Frame.handles_unspanned]

theorem outstanding_unspanned (a : Arena) (held : List Handle) (h : Handle) :
    a.unspanned.outstanding held h = a.outstanding held h := by
  unfold outstanding
  rw [handles_unspanned]

theorem size_unspanned (a : Arena) : a.unspanned.frames.size = a.frames.size :=
  Array.size_map

/-! ### Names -/

theorem lookup_unspanned (a : Arena) (fuel i : Nat) (name : String) :
    a.unspanned.lookup fuel i name = (a.lookup fuel i name).map (Option.map Value.unspanned) := by
  induction fuel generalizing i with
  | zero => rfl
  | succ fuel ih =>
    unfold lookup
    rw [frame_unspanned]
    cases a.frame i with
    | error fault => rfl
    | ok f =>
      have hbound : f.unspanned.bindings.lookup name =
          (f.bindings.lookup name).map Value.unspanned := Bindings.lookup_mapValues f.bindings name
      have hparent : f.unspanned.parent = f.parent := rfl
      simp only [Except.map, hbound, hparent]
      cases f.bindings.lookup name with
      | some v => rfl
      | none =>
        cases f.parent with
        | none => rfl
        | some p => exact ih p

theorem get_unspanned (a : Arena) (i : Nat) (name : String) :
    a.unspanned.get i name = (a.get i name).map (Option.map Value.unspanned) := by
  unfold get
  rw [size_unspanned, lookup_unspanned]

theorem handle_unspanned (a : Arena) (i : Nat) : a.unspanned.handle i = a.handle i := by
  unfold handle
  rw [frame_unspanned]
  cases a.frame i <;> rfl

theorem set_unspanned (a : Arena) (i : Nat) (name : String) (v : Value) :
    a.unspanned.set i name v.unspanned = (a.set i name v).map unspanned := by
  unfold set
  rw [frame_unspanned]
  cases a.frame i with
  | error fault => rfl
  | ok f =>
    show Except.ok (a.unspanned.putFrame i
      { f.unspanned with bindings := f.bindings.unspanned.put name v.unspanned }) = _
    have hput := unspanned_putFrame a i { f with bindings := f.bindings.put name v }
    unfold Bindings.unspanned
    rw [← Bindings.mapValues_put]
    exact congrArg Except.ok hput.symm

theorem isSome_lookup_unspanned (bs : Bindings) (name : String) :
    (bs.unspanned.lookup name).isSome = (bs.lookup name).isSome := by
  unfold Bindings.unspanned
  rw [Bindings.lookup_mapValues, Option.isSome_map]

theorem binder_unspanned (a : Arena) (i : Nat) (name : String) :
    a.unspanned.binder i name = a.binder i name := by
  unfold binder
  rw [frame_unspanned]
  cases a.frame i with
  | error fault => rfl
  | ok f =>
    simp only [Except.map, bind, Except.bind, Frame.unspanned, isSome_lookup_unspanned]
    cases f.parent with
    | none => rfl
    | some p =>
      simp only [frame_unspanned]
      cases a.frame p with
      | error fault => rfl
      | ok g => simp only [Except.map, Frame.unspanned, isSome_lookup_unspanned]

theorem reassign_unspanned (a : Arena) (i : Nat) (name : String) (v : Value) :
    a.unspanned.reassign i name v.unspanned =
      (a.reassign i name v).map (Prod.map id unspanned) := by
  unfold reassign
  rw [binder_unspanned]
  cases a.binder i name with
  | error fault => rfl
  | ok o =>
    cases o with
    | none => rfl
    | some j =>
      simp only [bind, Except.bind, set_unspanned]
      cases a.set j name v <;> rfl

/-! ### Pushing and freeing -/

theorem addChild_unspanned (a : Arena) (parent : Option Nat) :
    a.unspanned.addChild parent = (a.addChild parent).map unspanned := by
  cases parent with
  | none => rfl
  | some p =>
    unfold addChild
    simp only [frame_unspanned]
    cases a.frame p with
    | error fault => rfl
    | ok f =>
      have hput := unspanned_putFrame a p { f with children := f.children + 1 }
      exact congrArg Except.ok hput.symm

theorem push_unspanned (a : Arena) (parent : Option Nat) :
    a.unspanned.push parent = (a.push parent).map (Prod.map id unspanned) := by
  unfold push
  rw [addChild_unspanned]
  cases a.addChild parent with
  | error fault => rfl
  | ok b =>
    obtain ⟨frames, free, pending, threshold, nextSerial, reclaiming⟩ := b
    cases free with
    | nil =>
      simp only [unspanned, Except.map, bind, Except.bind, Pure.pure, Except.pure, Prod.map_apply,
        Array.map_push, Array.size_map]
      rfl
    | cons i free =>
      simp only [unspanned, Except.map, bind, Except.bind, Pure.pure, Except.pure, Prod.map_apply,
        putFrame, Array.map_setIfInBounds]
      rfl

theorem removeChild_unspanned (a : Arena) (parent : Option Nat) :
    a.unspanned.removeChild parent = (a.removeChild parent).unspanned := by
  cases parent with
  | none => rfl
  | some p =>
    unfold removeChild
    simp only [frame_unspanned]
    cases a.frame p with
    | error fault => rfl
    | ok f => exact (unspanned_putFrame a p { f with children := f.children - 1 }).symm

theorem freeFrame_unspanned (a : Arena) (i : Nat) :
    a.unspanned.freeFrame i = (a.freeFrame i).unspanned := by
  unfold freeFrame
  rw [frame_unspanned]
  cases a.frame i with
  | error fault => rfl
  | ok f =>
    let b : Arena := { a with frames := a.frames.setIfInBounds i none }
    have hempty : ({ a.unspanned with
        frames := a.unspanned.frames.setIfInBounds i none } : Arena) = b.unspanned := by
      simp only [b, unspanned, Array.map_setIfInBounds, Option.map_none]
    have hremove := removeChild_unspanned b f.parent
    simp only [Except.map, hempty]
    show ({ b.unspanned.removeChild f.parent with
      free := i :: (b.unspanned.removeChild f.parent).free } : Arena) = _
    rw [hremove]
    rfl

/-! ### Collecting -/

theorem successors_unspanned (a : Arena) (i : Nat) :
    a.unspanned.successors i = a.successors i := by
  unfold successors
  rw [frame_unspanned]
  cases a.frame i with
  | error fault => rfl
  | ok f =>
    simp only [Except.map, Frame.handles_unspanned]
    rfl

theorem reach_unspanned (a : Arena) (within : List Nat) (rounds : Nat) (frontier seen : List Nat) :
    a.unspanned.reach within rounds frontier seen = a.reach within rounds frontier seen := by
  induction rounds generalizing frontier seen with
  | zero => rfl
  | succ rounds ih =>
    have hsuccessors : a.unspanned.successors = a.successors := funext (successors_unspanned a)
    unfold reach
    simp only [hsuccessors, ih]

/-- The waiting frames without spans. -/
def unspannedWaiting (waiting : List (Nat × Frame)) : List (Nat × Frame) :=
  waiting.map fun w => (w.1, w.2.unspanned)

theorem waiting_unspanned (a : Arena) : a.unspanned.waiting = a.waiting.map unspannedWaiting := by
  have hmap (pending : List Nat) :
      (pending.mapM fun i => do
        let f ← a.unspanned.frame i
        return (i, f)) =
      (pending.mapM fun i => do
        let f ← a.frame i
        return (i, f)).map unspannedWaiting := by
    induction pending with
    | nil => rfl
    | cons i pending ih =>
      rw [List.mapM_cons, List.mapM_cons, ih, frame_unspanned]
      cases a.frame i with
      | error fault => rfl
      | ok f =>
        generalize (pending.mapM fun i => do
          let f ← a.frame i
          return (i, f)) = rest
        cases rest <;> rfl
  exact hmap a.pending

theorem internal_unspanned (a : Arena) (waiting : List (Nat × Frame)) :
    a.unspanned.internal (unspannedWaiting waiting) = a.internal waiting := by
  unfold internal unspannedWaiting
  rw [List.flatMap_map]
  simp only [Frame.handles_unspanned]
  rfl

theorem activeParents_unspanned (a : Arena) : a.unspanned.activeParents = a.activeParents := by
  unfold activeParents
  rw [live_unspanned, List.filterMap_map]
  rfl

theorem roots_unspanned (a : Arena) (held : List Handle) (waiting : List (Nat × Frame)) :
    a.unspanned.roots held (unspannedWaiting waiting) = a.roots held waiting := by
  unfold roots
  simp only [internal_unspanned, outstanding_unspanned, activeParents_unspanned]
  unfold unspannedWaiting
  rw [List.filter_map, List.map_map]
  rfl

theorem foldl_freeFrame_unspanned (a : Arena) (dead : List Nat) :
    dead.foldl freeFrame a.unspanned = (dead.foldl freeFrame a).unspanned := by
  induction dead generalizing a with
  | nil => rfl
  | cons i dead ih => rw [List.foldl_cons, List.foldl_cons, freeFrame_unspanned, ih]

theorem collect_unspanned (a : Arena) (held : List Handle) :
    a.unspanned.collect held = (a.collect held).map unspanned := by
  unfold collect
  show (if a.pending.isEmpty then _ else _) = _
  by_cases hempty : a.pending.isEmpty = true
  · rw [if_pos hempty, if_pos hempty]
    rfl
  · rw [if_neg hempty, if_neg hempty, waiting_unspanned]
    cases a.waiting with
    | error fault => rfl
    | ok waiting =>
      simp only [Except.map, bind, Except.bind, roots_unspanned, reach_unspanned]
      let reached := a.reach a.pending (a.pending.length + 1) (a.roots held waiting) []
      let b : Arena := { a with pending := (a.pending.partition (reached.contains ·)).1 }
      exact congrArg Except.ok (foldl_freeFrame_unspanned b _)

theorem collectIfDue_unspanned (a : Arena) (held : List Handle) :
    a.unspanned.collectIfDue held = (a.collectIfDue held).map unspanned := by
  unfold collectIfDue
  show (if a.pending.length < a.threshold then _ else _) = _
  by_cases hdue : a.pending.length < a.threshold
  · rw [if_pos hdue, if_pos hdue]
    rfl
  · rw [if_neg hdue, if_neg hdue, collect_unspanned]
    cases a.collect held <;> rfl

theorem release_unspanned (a : Arena) (held : List Handle) (i : Nat) :
    a.unspanned.release held i = (a.release held i).map unspanned := by
  unfold release
  by_cases hi : i = 0
  · rw [if_pos hi, if_pos hi]
    rfl
  rw [if_neg hi, if_neg hi, frame_unspanned]
  cases a.frame i with
  | error fault => rfl
  | ok f =>
    have hput : a.unspanned.putFrame i { f.unspanned with returned := true } =
        (a.putFrame i { f with returned := true }).unspanned :=
      (unspanned_putFrame a i { f with returned := true }).symm
    simp only [Except.map, bind, Except.bind, hput, outstanding_unspanned]
    generalize a.putFrame i { f with returned := true } = b
    show (if (!b.reclaiming) = true then _ else if _ then _ else _) = _
    by_cases hkeeps : (!b.reclaiming) = true
    · rw [if_pos hkeeps, if_pos hkeeps]
      rfl
    rw [if_neg hkeeps, if_neg hkeeps]
    by_cases hdead : (f.children = 0 && b.outstanding held ⟨i, f.serial⟩ = 0) = true
    · rw [if_pos hdead]
      refine Eq.trans (if_pos hdead) ?_
      exact congrArg Except.ok (freeFrame_unspanned b i)
    · rw [if_neg hdead]
      refine Eq.trans (if_neg hdead) ?_
      exact collectIfDue_unspanned { b with pending := b.pending ++ [i] } held

/-! ### Whether frames are freed -/

theorem reclaiming_of_set {b : Arena} {name : String} {v : Value} (h : a.set i name v = .ok b) :
    b.reclaiming = a.reclaiming := by
  obtain ⟨f, hf⟩ | hf := a.frame_cases i
  · simp only [set, hf] at h
    cases h
    rfl
  · simp only [set, hf] at h
    cases h

theorem reclaiming_of_reassign {b : Arena} {name : String} {v : Value} {r : Bool}
    (h : a.reassign i name v = .ok (r, b)) : b.reclaiming = a.reclaiming := by
  unfold reassign at h
  cases hbinder : a.binder i name with
  | error fault =>
    rw [hbinder] at h
    cases h
  | ok o =>
    rw [hbinder] at h
    cases o with
    | none =>
      cases h
      rfl
    | some j =>
      cases hset : a.set j name v with
      | error fault =>
        simp only [bind, Except.bind, hset] at h
        cases h
      | ok c =>
        simp only [bind, Except.bind, hset] at h
        cases h
        exact reclaiming_of_set hset

theorem reclaiming_of_push {b : Arena} {parent : Option Nat} {j : Nat}
    (h : a.push parent = .ok (j, b)) : b.reclaiming = a.reclaiming := by
  unfold push at h
  cases hadd : a.addChild parent with
  | error fault =>
    rw [hadd] at h
    cases h
  | ok c =>
    have books := sameBooks_of_addChild hadd
    rw [hadd] at h
    simp only [bind, Except.bind] at h
    split at h
    · cases h
      exact books.reclaiming
    · cases h
      exact books.reclaiming

theorem reclaiming_freeFrame (a : Arena) (i : Nat) :
    (a.freeFrame i).reclaiming = a.reclaiming := by
  obtain ⟨f, hf⟩ | hf := a.frame_cases i
  · exact (books_freeFrame hf).reclaiming
  · unfold freeFrame
    rw [hf]

theorem reclaiming_foldl_freeFrame (a : Arena) (dead : List Nat) :
    (dead.foldl freeFrame a).reclaiming = a.reclaiming := by
  induction dead generalizing a with
  | nil => rfl
  | cons i dead ih => rw [List.foldl_cons, ih, reclaiming_freeFrame]

theorem reclaiming_of_collect {b : Arena} (h : a.collect held = .ok b) :
    b.reclaiming = a.reclaiming := by
  unfold collect at h
  split at h
  · cases h
    rfl
  · cases hw : a.waiting with
    | error fault =>
      rw [hw] at h
      cases h
    | ok waiting =>
      rw [hw] at h
      cases h
      exact reclaiming_foldl_freeFrame _ _

theorem reclaiming_of_collectIfDue {b : Arena} (h : a.collectIfDue held = .ok b) :
    b.reclaiming = a.reclaiming := by
  unfold collectIfDue at h
  split at h
  · cases h
    rfl
  · cases hc : a.collect held with
    | error fault =>
      rw [hc] at h
      cases h
    | ok c =>
      rw [hc] at h
      cases h
      have hsame := reclaiming_of_collect hc
      exact hsame

theorem reclaiming_of_release {b : Arena} (h : a.release held i = .ok b) :
    b.reclaiming = a.reclaiming := by
  unfold release at h
  split at h
  · cases h
    rfl
  obtain ⟨f, hf⟩ | hf := a.frame_cases i
  · simp only [hf, bind, Except.bind] at h
    split at h
    · cases h
      rfl
    split at h
    · cases h
      exact reclaiming_freeFrame _ i
    have hsame := reclaiming_of_collectIfDue h
    exact hsame
  · simp only [hf] at h
    cases h

/-- An arena that frees no frame does not look at the handles that are held. -/
theorem release_eq_of_not_reclaiming (h : a.reclaiming = false) (held held' : List Handle)
    (i : Nat) : a.release held i = a.release held' i := by
  unfold release
  split
  · rfl
  obtain ⟨f, hf⟩ | hf := a.frame_cases i
  · have hkeeps : (!(a.putFrame i { f with returned := true }).reclaiming) = true := by
      show (!a.reclaiming) = true
      rw [h]
      rfl
    simp only [hf, bind, Except.bind, if_pos hkeeps]
  · simp only [hf]
    rfl

end Arena

end UniformScript
