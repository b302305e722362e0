import UniformScript.Proofs.Value.MapFunctions

/-!
# Values with settled handles

In an arena that keeps every frame, a frame stays in the slot that has its serial number.  A handle
is settled by pointing it to that slot, and a value by settling all its handles.  Nothing that is
shown or computed of a value changes with it, and two values are as equal as they were, if slots
and serial numbers tell the same frames apart.

* `printed_settled`, `isTrue_settled`: a settled value is printed and taken for true like the value
  itself.
* `apply_settled`: operators give the same results, settled.
* `same_settled`: equality of settled values.
-/

namespace UniformScript

/-- The handle on the slot that has the frame's serial number. -/
def Handle.settled (h : Handle) : Handle := ⟨h.serial, h.serial⟩

/-- The function with its home settled. -/
def Function.settled (f : Function) : Function := { f with home := f.home.settled }

theorem Function.shownName_settled (f : Function) : f.settled.shownName = f.shownName := rfl

namespace Value

mutual

/-- The value with all its handles settled. -/
def settled : Value → Value
  | number x => number x
  | text s => text s
  | list vs => list (settledAll vs)
  | function f => function f.settled
  | builtin b => builtin b

/-- The values with all their handles settled. -/
def settledAll : List Value → List Value
  | [] => []
  | v :: vs => v.settled :: settledAll vs

end

mutual

theorem settled_eq_mapFunctions : (v : Value) → v.settled = v.mapFunctions Function.settled
  | number _ => rfl
  | text _ => rfl
  | list vs => congrArg list (settledAll_eq_mapFunctionsAll vs)
  | function _ => rfl
  | builtin _ => rfl

theorem settledAll_eq_mapFunctionsAll :
    (vs : List Value) → settledAll vs = mapFunctionsAll Function.settled vs
  | [] => rfl
  | v :: vs => by
    rw [settledAll, mapFunctionsAll, settled_eq_mapFunctions v, settledAll_eq_mapFunctionsAll vs]

end

theorem settled_eq : settled = mapFunctions Function.settled := funext settled_eq_mapFunctions

theorem settledAll_eq_map (vs : List Value) : settledAll vs = vs.map settled := by
  rw [settledAll_eq_mapFunctionsAll, mapFunctionsAll_eq_map, settled_eq]

theorem settledAll_append (vs ws : List Value) :
    settledAll (vs ++ ws) = settledAll vs ++ settledAll ws := by
  simp only [settledAll_eq_map, List.map_append]

theorem settledAll_reverse (vs : List Value) :
    settledAll vs.reverse = (settledAll vs).reverse := by
  simp only [settledAll_eq_map, List.map_reverse]

theorem settledAll_toList (o : Option Value) :
    settledAll o.toList = (o.map settled).toList := by
  cases o <;> rfl

@[simp] theorem length_settledAll (vs : List Value) : (settledAll vs).length = vs.length := by
  rw [settledAll_eq_map, List.length_map]

/-! ## What is shown and computed -/

@[simp] theorem type_settled (v : Value) : v.settled.type = v.type := by
  rw [settled_eq_mapFunctions, type_mapFunctions]

@[simp] theorem isTrue_settled (v : Value) : v.settled.isTrue = v.isTrue := by
  rw [settled_eq_mapFunctions, isTrue_mapFunctions]

@[simp] theorem printed_settled (v : Value) : v.settled.printed = v.printed := by
  rw [settled_eq_mapFunctions]
  exact printed_mapFunctions Function.shownName_settled v

/-- A binary operator gives settled values the settled result. -/
theorem apply_settled (op : BinaryOp) (v w : Value) :
    op.apply v.settled w.settled = (op.apply v w).map settled := by
  rw [settled_eq]
  exact apply_mapFunctions op v w

/-- So does a unary operator. -/
theorem applyUnary_settled (op : UnaryOp) (v : Value) :
    op.apply v.settled = (op.apply v).map settled := by
  rw [settled_eq]
  exact applyUnary_mapFunctions op v

/-! ## Equality -/

/-- Slots and serial numbers tell the handles of one list from those of another alike. -/
def Alike (hs ks : List Handle) : Prop :=
  ∀ h ∈ hs, ∀ k ∈ ks, h.index = k.index ↔ h.serial = k.serial

mutual

/-- Settled values are equal if the values are. -/
theorem same_settled (v w : Value) (h : Alike v.handles w.handles) :
    v.settled.same w.settled = v.same w := by
  cases v with
  | list vs =>
    cases w with
    | list ws => exact sameAll_settledAll vs ws h
    | _ => rfl
  | function f =>
    cases w with
    | function g =>
      have hiff := h f.home (List.mem_singleton_self _) g.home (List.mem_singleton_self _)
      show (f.site == g.site && f.home.serial == g.home.serial) = _
      rw [same, Bool.eq_iff_iff]
      simp only [Bool.and_eq_true, beq_iff_eq, hiff]
    | _ => rfl
  | _ => cases w <;> rfl

theorem sameAll_settledAll (vs ws : List Value) (h : Alike (handlesAll vs) (handlesAll ws)) :
    sameAll (settledAll vs) (settledAll ws) = sameAll vs ws := by
  cases vs with
  | nil => cases ws <;> rfl
  | cons v vs =>
    cases ws with
    | nil => rfl
    | cons w ws =>
      have hhead := same_settled v w fun j hj k hk =>
        h j (List.mem_append_left _ hj) k (List.mem_append_left _ hk)
      have htail := sameAll_settledAll vs ws fun j hj k hk =>
        h j (List.mem_append_right _ hj) k (List.mem_append_right _ hk)
      rw [settledAll, settledAll, sameAll, sameAll, hhead, htail]

end

end Value

end UniformScript
