import UniformScript.Arena
import UniformScript.Value.Operation

/-!
# Values with other functions in them

`Value.mapFunctions g` puts the function `g f` in the place of every function `f` in a value, also
inside of lists.  Operators look at no function, and what is shown of a function is its name; so
where `g` keeps names, a value is shown, printed and computed with as before.

* `shown_mapFunctions`, `printed_mapFunctions`, `isTrue_mapFunctions`: what is shown of a value.
* `apply_mapFunctions`, `applyUnary_mapFunctions`: what operators give.
* `Bindings.lookup_mapValues`, `Bindings.mapValues_put`: bindings of other values.
-/

namespace UniformScript

namespace Value

variable {g : Function → Function}

mutual

/-- The value with other functions in it. -/
def mapFunctions (g : Function → Function) : Value → Value
  | number x => number x
  | text s => text s
  | list vs => list (mapFunctionsAll g vs)
  | function f => function (g f)
  | builtin b => builtin b

/-- The values with other functions in them. -/
def mapFunctionsAll (g : Function → Function) : List Value → List Value
  | [] => []
  | v :: vs => v.mapFunctions g :: mapFunctionsAll g vs

end

theorem mapFunctionsAll_eq_map (vs : List Value) :
    mapFunctionsAll g vs = vs.map (mapFunctions g) := by
  induction vs with
  | nil => rfl
  | cons v vs ih => rw [mapFunctionsAll, ih, List.map_cons]

mutual

theorem handles_mapFunctions {k : Handle → Handle} (hg : ∀ f, (g f).home = k f.home) :
    (v : Value) → (v.mapFunctions g).handles = v.handles.map k
  | number _ => rfl
  | text _ => rfl
  | list vs => handlesAll_mapFunctionsAll hg vs
  | function f => congrArg (fun h => [h]) (hg f)
  | builtin _ => rfl

theorem handlesAll_mapFunctionsAll {k : Handle → Handle} (hg : ∀ f, (g f).home = k f.home) :
    (vs : List Value) → handlesAll (mapFunctionsAll g vs) = (handlesAll vs).map k
  | [] => rfl
  | v :: vs => by
    rw [mapFunctionsAll, handlesAll, handlesAll, List.map_append, handles_mapFunctions hg v,
      handlesAll_mapFunctionsAll hg vs]

end

/-! ## What is shown -/

theorem type_mapFunctions (v : Value) : (v.mapFunctions g).type = v.type := by
  cases v <;> rfl

theorem isTrue_mapFunctions (v : Value) : (v.mapFunctions g).isTrue = v.isTrue := by
  cases v with
  | list vs => cases vs <;> rfl
  | _ => rfl

theorem shown_list (vs : List Value) :
    (list vs).shown = "[" ++ ", ".intercalate (shownAll vs) ++ "]" := rfl

mutual

theorem shown_mapFunctions (hg : ∀ f, (g f).shownName = f.shownName) :
    (v : Value) → (v.mapFunctions g).shown = v.shown
  | number _ => rfl
  | text _ => rfl
  | list vs => by
    rw [mapFunctions, shown_list, shown_list, shownAll_mapFunctionsAll hg vs]
  | function f => congrArg (fun name => "<function " ++ name ++ ">") (hg f)
  | builtin _ => rfl

theorem shownAll_mapFunctionsAll (hg : ∀ f, (g f).shownName = f.shownName) :
    (vs : List Value) → shownAll (mapFunctionsAll g vs) = shownAll vs
  | [] => rfl
  | v :: vs => by
    rw [mapFunctionsAll, shownAll, shownAll, shown_mapFunctions hg v,
      shownAll_mapFunctionsAll hg vs]

end

theorem printed_mapFunctions (hg : ∀ f, (g f).shownName = f.shownName) (v : Value) :
    (v.mapFunctions g).printed = v.printed := by
  cases v with
  | text s => rfl
  | _ => exact shown_mapFunctions hg _

/-! ## Operators -/

theorem onNumbers_mapFunctions {op : Float → Float → Value}
    (hop : ∀ x y, (op x y).mapFunctions g = op x y) (v w : Value) :
    onNumbers op (v.mapFunctions g) (w.mapFunctions g) =
      (onNumbers op v w).map (mapFunctions g) := by
  cases v with
  | number x =>
    cases w with
    | number y => exact congrArg Except.ok (hop x y).symm
    | _ => rfl
  | _ => rfl

theorem divide_mapFunctions (v w : Value) :
    divide (v.mapFunctions g) (w.mapFunctions g) = (divide v w).map (mapFunctions g) := by
  cases v with
  | number x =>
    cases w with
    | number y =>
      simp only [mapFunctions, divide]
      split
      · rfl
      · rfl
    | _ => rfl
  | _ => rfl

theorem connect_mapFunctions (f : Bool → Bool → Bool) (v w : Value) :
    connect f (v.mapFunctions g) (w.mapFunctions g) = (connect f v w).map (mapFunctions g) := by
  cases v with
  | number x => cases w <;> rfl
  | text s =>
    show Except.ok (truth (f (text s).isTrue (w.mapFunctions g).isTrue)) = _
    rw [isTrue_mapFunctions w]
    rfl
  | _ => rfl

/-- A binary operator gives the result with the other functions in it. -/
theorem apply_mapFunctions (op : BinaryOp) (v w : Value) :
    op.apply (v.mapFunctions g) (w.mapFunctions g) = (op.apply v w).map (mapFunctions g) := by
  cases op with
  | add => cases v <;> cases w <;> rfl
  | divide => exact divide_mapFunctions v w
  | equal => cases v <;> cases w <;> rfl
  | unequal => cases v <;> cases w <;> rfl
  | conjunction => exact connect_mapFunctions and v w
  | disjunction => exact connect_mapFunctions or v w
  | _ => exact onNumbers_mapFunctions (fun _ _ => rfl) v w

/-- So does a unary operator. -/
theorem applyUnary_mapFunctions (op : UnaryOp) (v : Value) :
    op.apply (v.mapFunctions g) = (op.apply v).map (mapFunctions g) := by
  cases op <;> cases v <;> rfl

end Value

/-! ## Bindings -/

namespace Bindings

/-- The bindings of the same names to other values. -/
def mapValues (g : Value → Value) (bs : Bindings) : Bindings := bs.map fun b => (b.1, g b.2)

variable {g : Value → Value}

theorem lookup_mapValues (bs : Bindings) (name : String) :
    (bs.mapValues g).lookup name = (bs.lookup name).map g := by
  induction bs with
  | nil => rfl
  | cons b bs ih =>
    obtain ⟨n, v⟩ := b
    show List.lookup name ((n, g v) :: mapValues g bs) = _
    rw [List.lookup_cons, List.lookup_cons, ih]
    cases name == n <;> rfl

theorem mapValues_put (bs : Bindings) (name : String) (v : Value) :
    (bs.put name v).mapValues g = (bs.mapValues g).put name (g v) := by
  induction bs with
  | nil => rfl
  | cons b bs ih =>
    obtain ⟨n, w⟩ := b
    by_cases hn : n = name
    · simp [put, mapValues, hn]
    · have hrest : List.map (fun b => (b.1, g b.2)) (put name v bs) = _ := ih
      simp [put, mapValues, hn, hrest]

theorem mapValues_zip (names : List String) (vs : List Value) :
    mapValues g (names.zip vs) = names.zip (vs.map g) := by
  rw [List.zip_map_right]
  rfl

end Bindings

end UniformScript
