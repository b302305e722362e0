import UniformScript.Proofs.Eval.Depth
import UniformScript.Proofs.Eval.Unspanned

/-!
# Statements one behind the other

To evaluate statements and then others is to evaluate them all, where the values of the first ones
are under way in the meantime.  In an arena that frees no frames that makes no difference.

* `evalAll_append`: the statements of two lists.
* `evalAll_join`: the same up to spans, where the second list is evaluated on its own.
-/

namespace UniformScript.Eval

variable {ctx ctx' : Context} {m : Machine}

/-- All statements are evaluated by evaluating the first ones and then the others, within a bound
that is by so much smaller. -/
theorem evalAll_append (n : Nat) (ctx : Context) (es es' : List Expr) :
    evalAll (n + 1 + es.length) ctx (es ++ es') = (do
      let vs ← evalAll (n + 1 + es.length) ctx es
      let ws ← evalAll (n + 1) (vs.foldl Context.holding ctx) es'
      return vs ++ ws) := by
  induction es generalizing ctx with
  | nil => exact (bind_pure (evalAll (n + 1) ctx es')).symm
  | cons e es ih =>
    rw [List.length_cons, ← Nat.add_assoc, List.cons_append, evalAll_cons, evalAll_cons,
      bind_assoc]
    congr 1
    funext v
    rw [ih, bind_assoc, bind_assoc]
    congr 1
    funext vs
    rw [bind_assoc, pure_bind]
    congr 1

theorem frame_foldl_holding (ctx : Context) (vs : List Value) :
    (vs.foldl Context.holding ctx).frame = ctx.frame := by
  induction vs generalizing ctx with
  | nil => rfl
  | cons v vs ih => exact ih (ctx.holding v)

/-- Where no frames are freed, statements that are up to spans those of two lists are evaluated
like the first list and then the second one, in whatever call of whatever run. -/
theorem evalAll_join (n : Nat) {es es' joined : List Expr}
    (hjoined : unspannedAll joined = unspannedAll (es ++ es')) (hframe : ctx'.frame = ctx.frame)
    (hm : m.arena.reclaiming = false) :
    (evalAll (n + 1 + es.length) ctx joined m).unspanned Value.unspannedAll =
      ((do
        let vs ← evalAll (n + 1 + es.length) ctx es
        let ws ← evalAll (n + 1) ctx' es'
        return vs ++ ws : Eval (List Value)) m).unspanned Value.unspannedAll := by
  have hnone {p : Prop} : false = true → p := nofun
  have hall : m.arena.reclaiming = true → ctx.held = ctx.held := fun _ => rfl
  rw [evalAll_unspanned_eq _ hjoined rfl hall rfl, evalAll_append]
  -- both are what is evaluated without any spans, whatever values are under way
  have hfirst : Blind false Value.unspannedAll (evalAll (n + 1 + es.length) ctx es)
      (evalAll (n + 1 + es.length) ctx.plain (unspannedAll es)) :=
    blindAt false _ (.all es) _ _ (.of_eq rfl hnone)
  have hsecond {ctx₁ : Context} (h : ctx₁.frame = ctx.frame) :
      Blind false Value.unspannedAll (evalAll (n + 1) ctx₁ es')
        (evalAll (n + 1) ctx.plain (unspannedAll es')) :=
    blindAt false (n + 1) (.all es') _ _ (.of_eq h hnone)
  have hplain {f : List Value → Context} (hf : ∀ vs, (f vs).frame = ctx.frame) :
      Blind false Value.unspannedAll
        (do
          let vs ← evalAll (n + 1 + es.length) ctx es
          let ws ← evalAll (n + 1) (f vs) es'
          return vs ++ ws)
        (do
          let vs ← evalAll (n + 1 + es.length) ctx.plain (unspannedAll es)
          let ws ← evalAll (n + 1) ctx.plain (unspannedAll es')
          return vs ++ ws) :=
    hfirst.bind fun vs => (hsecond (hf vs)).bind fun ws => .pure List.map_append.symm
  exact (hplain (frame_foldl_holding ctx)).unspanned_eq (hplain fun _ => hframe) hm rfl

end UniformScript.Eval
