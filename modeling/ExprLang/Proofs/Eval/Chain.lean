import ExprLang.Proofs.Eval.Depth
import ExprLang.Proofs.Grammar.Relocated

/-!
Chains of operators, evaluated from the last operator on instead of along the spine. Trees that are
alike come to the same value, or to the same fault in places that belong together.
-/
namespace ExprLang

namespace Eval

variable {δ : Type}

section

variable [Provenance δ] {limit : Int} {n : Nat}

-- The value of an expression that belongs to a chain whose operands may be nested `n` deep.
def chained (limit : Int) (n : Nat) : Expr δ → EvalM δ Value
  | .binary span op l r => do
    let a ← chained limit n l
    let b ← within limit n r
    op.meaning span l.span r.span a b
  | e => within limit n e

theorem chained_of_ne {e : Expr δ} (h : ∀ span op l r, e ≠ .binary span op l r) :
    chained limit n e = within limit n e := by
  cases e with
  | binary => exact absurd rfl (h _ _ _ _)
  | _ => rfl

-- Folding what is to the right of a part of a chain starts with the value of that part.
theorem fold_spine (e : Expr δ) (links : List (Link δ)) :
    (within limit n (spine e links).fst >>= fun v => (spine e links).snd.foldlM (extend limit n) v) =
      (chained limit n e >>= fun v => links.foldlM (extend limit n) v) := by
  induction e, links using spine.induct with
  | case1 span op l r links ih =>
    rw [spine, ih]
    simp only [chained, List.foldlM_cons, extend, Link.apply_eq, bind_assoc]
  | case2 e links h => rw [spine, chained_of_ne h]; exact h

theorem within_binary (span : Span) (op : BinOp) (l r : Expr δ) :
    within limit (n + 1) (.binary span op l r) = chained limit n (.binary span op l r) := by
  have h := @fold_spine δ _ limit n (.binary span op l r) []
  simp only [List.foldlM_nil, bind_pure] at h
  rw [←h]
  rfl

end

-- The same value, or faults for the same reason at spans that are related by `R`, or a place that cannot
-- be noted.
inductive SameOutcome (R : Span → Span → Prop) : EvalM δ Value → EvalM δ Value → Prop
  | ok (v : Value) : SameOutcome R (.ok v) (.ok v)
  | fail (h : R s s') (cause : EvalError.Cause) : SameOutcome R (fail s cause) (fail s' cause)
  | unlogged (ok : δ) (s : Span) : SameOutcome R (.error (.unlogged ok s)) (.error (.unlogged ok s))

namespace SameOutcome

variable {R : Span → Span → Prop} {s s' : Span}

theorem bind {x x' : EvalM δ Value} {f f' : Value → EvalM δ Value} (h : SameOutcome R x x')
    (hf : ∀ v, SameOutcome R (f v) (f' v)) : SameOutcome R (x >>= f) (x' >>= f') := by
  cases h with
  | ok v => exact hf v
  | fail h cause => exact .fail h cause
  | unlogged ok s => exact .unlogged ok s

theorem eq_ok {x x' : EvalM δ Value} {v : Value} (h : SameOutcome R x x') (hx : x' = .ok v) :
    x = .ok v := by
  cases h with
  | ok => exact hx
  | fail | unlogged => cases hx

-- A fault that is reported has one that belongs to it.
theorem exists_related {x x' : EvalM δ Value} {err : EvalError} (h : SameOutcome R x x')
    (hx : x = .error (.fault err)) : ∃ s', R err.span s' := by
  cases h with
  | ok | unlogged => cases hx
  | @fail s s' h cause =>
    obtain ⟨-, rfl⟩ := EvalFailure.ofFault_eq_fault.mp (Except.error.inj hx)
    exact ⟨s', h⟩

-- The same place is noted first.
theorem logged [Provenance δ] {x x' : EvalM δ Value} (h : SameOutcome R x x') (s : Span) :
    SameOutcome R (logSpan s >>= fun _ => x) (logSpan s >>= fun _ => x') := by
  cases logSpan_cases (δ := δ) s with
  | inl hs =>
    rw [hs]
    exact h
  | inr hs =>
    obtain ⟨ok, hs⟩ := hs
    rw [hs]
    exact .unlogged ok s

theorem int32 (h : R s s') (n : Int) : SameOutcome (δ := δ) R (int32 s n) (int32 s' n) := by
  simp only [Eval.int32]
  split
  · exact .ok _
  · exact .fail h _

-- An operator is applied without regard to places.
theorem meaning {l l' r r' : Span} (op : BinOp) (hs : R s s') (hl : R l l') (hr : R r r')
    (a b : Value) :
    SameOutcome (δ := δ) R (op.meaning s l r a b) (op.meaning s' l' r' a b) := by
  cases a <;> cases b <;> simp only [BinOp.meaning]
  case num.num a b =>
    cases op <;> simp only [BinOp.onNumbers]
    case add | sub | mul => exact .int32 hs _
    case div =>
      split
      · exact .fail hs _
      · exact .int32 hs _
    all_goals exact .ok _
  case bool.bool =>
    split
    · exact .ok _
    · exact .fail hl _
  case num.bool =>
    split
    all_goals exact .fail hr _
  case bool.num =>
    split
    · exact .fail hr _
    · exact .fail hl _

end SameOutcome

variable {R : Span → Span → Prop} {S : Symbol → Symbol → Prop} {limit : Int} {n : Nat}
  {e e' : Program}

-- A chain takes what its operands come to on their level.
theorem sameOutcome_chained
    (hn : ∀ e e', Expr.Alike R S e e' → SameOutcome R (within limit n e) (within limit n e')) :
    (e : Program) → {e' : Program} → Expr.Alike R S e e' →
    SameOutcome R (chained limit n e) (chained limit n e')
  | .binary .., _, .binary hs hl hr =>
    (sameOutcome_chained hn _ hl).bind fun a => (hn _ _ hr).bind fun b =>
      .meaning _ hs hl.span hr.span a b
  | .literal .., _, h | .unary .., _, h | .grouping .., _, h | .cond .., _, h | .block .., _, h => by
    have hc := hn _ _ h
    cases h
    all_goals exact hc

-- On each level, alike trees come to the same.
theorem sameOutcome_within (h : Expr.Alike R S e e') :
    SameOutcome R (within limit n e) (within limit n e') := by
  induction n generalizing e e' with
  | zero => cases h <;> exact .fail ‹_› _
  | succ n ih =>
    cases h with
    | literal => exact .ok _
    | @unary _ _ _ _ op hs h =>
      cases op
      refine (ih h).bind fun v => ?_
      cases v with
      | num k =>
        simp only [checked_eq]
        exact .int32 hs _
      | bool b => exact .fail h.span _
    | binary hs hl hr =>
      rw [within_binary, within_binary]
      exact sameOutcome_chained (fun _ _ h => ih h) _ (.binary hs hl hr)
    | grouping _ h => exact ih h
    | cond _ hc ht he =>
      refine (ih hc).bind fun v => ?_
      cases v with
      | num k => exact .fail hc.span _
      | bool b =>
        cases b with
        | true => exact ih ht
        | false => exact ih he
    | block hs => exact .fail hs _

end Eval

-- What is said of a fault does not depend on its place.
theorem EvalError.diagnostic_moved (s s' : Span) (cause : Cause) :
    (mk s' cause).diagnostic = { (mk s cause).diagnostic with span := s' } := by
  cases cause <;> rfl

theorem Expr.Alike.evaluate {R : Span → Span → Prop} {S : Symbol → Symbol → Prop} {e e' : Program}
    (h : Expr.Alike R S e e') (d : Int) : Eval.SameOutcome R (evaluate e d) (evaluate e' d) := by
  rw [evaluate_program, evaluate_program]
  exact Eval.sameOutcome_within h

end ExprLang
