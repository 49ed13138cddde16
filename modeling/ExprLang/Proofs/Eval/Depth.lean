import ExprLang.Proofs.Eval.Meaning

/-!
The evaluator and its limit. It comes to what an expression means unless a node that it visits on the
way lies too deep, and then it reports the first such node.
-/
namespace ExprLang

variable {δ α : Type}

-- A node that is evaluated, and how high the tree is down to it.
structure Visit (δ : Type) where
  height : Nat
  node : Expr δ

namespace Eval

-- What is visited once a result is known, which is nothing if there is none.
def after (r : EvalM δ α) (f : α → List (Visit δ)) : List (Visit δ) :=
  match r with
  | .ok v => f v
  | .error _ => []

end Eval

open Eval

-- Whether all parts that can be evaluated have spans. Only things that are no expressions, statements
-- or blocks at all have none.
def Expr.isSpanned : Expr δ → Bool
  | .unary _ _ e | .grouping _ e => e.isSpanned
  | .binary _ _ l r => l.isSpanned && r.isSpanned
  | .cond _ c t e => c.isSpanned && t.isSpanned && e.isSpanned
  | .strayAtom .. => false
  | _ => true

theorem Expr.isSpanned_program : (e : Program) → e.isSpanned
  | .literal .. | .block .. => rfl
  | .unary _ _ e | .grouping _ e => e.isSpanned_program
  | .binary _ _ l r => by simp [isSpanned, l.isSpanned_program, r.isSpanned_program]
  | .cond _ c t e => by
    simp [isSpanned, c.isSpanned_program, t.isSpanned_program, e.isSpanned_program]

variable [Provenance δ]

-- The nodes that are visited, in order and up to the first fault, if the root has height `h`. The
-- operators of a chain are not visited apart from the last one, and its operands are one higher than
-- that one. In `visits true` the root belongs to a chain whose operands have height `h`.
def Expr.visits : (inChain : Bool) → (h : Nat) → Expr δ → List (Visit δ)
  | true, h, .binary _ _ l r => l.visits true h ++ after l.meaning fun _ => r.visits false h
  | false, h, .binary span op l r =>
    ⟨h, .binary span op l r⟩ ::
      (l.visits true (h + 1) ++ after l.meaning fun _ => r.visits false (h + 1))
  | _, h, .unary span op e => ⟨h, .unary span op e⟩ :: e.visits false (h + 1)
  | _, h, .grouping span e => ⟨h, .grouping span e⟩ :: e.visits false (h + 1)
  | _, h, .cond span c t e =>
    ⟨h, .cond span c t e⟩ :: (c.visits false (h + 1) ++ after c.meaning fun
      | .bool true => after (logSpan span) fun _ => t.visits false (h + 1)
      | .bool false => after (logSpan span) fun _ => e.visits false (h + 1)
      | .num _ => [])
  | _, h, e => [⟨h, e⟩]

-- The root is visited first.
theorem Expr.visits_eq_cons (h : Nat) (e : Expr δ) : ∃ vs, e.visits false h = ⟨h, e⟩ :: vs := by
  cases e <;> exact ⟨_, rfl⟩

namespace Eval

-- A result, unless there is a node that lies too deep.
def limited (d : Int) (vs : List (Visit δ)) (r : EvalM δ α) : EvalM δ α :=
  match vs.find? (d < ·.height) with
  | none => r
  | some v => fail v.node.span (.tooDeep d)

section

variable {β : Type} {d : Int} {vs : List (Visit δ)} {r : EvalM δ α} {h : Nat} {e : Expr δ}

omit [Provenance δ]

theorem limited_cons_of_le (hd : h ≤ d) : limited d (⟨h, e⟩ :: vs) r = limited d vs r := by
  have hv : decide (d < h) = false := decide_eq_false (Int.not_lt.mpr hd)
  simp only [limited, List.find?_cons, hv]

theorem limited_cons_of_lt (hd : d < h) :
    limited d (⟨h, e⟩ :: vs) r = fail e.span (.tooDeep d) := by
  have hv : decide (d < h) = true := decide_eq_true hd
  simp only [limited, List.find?_cons, hv]

theorem find?_eq_none_iff : vs.find? (d < ·.height) = none ↔ ∀ v ∈ vs, v.height ≤ d := by
  simp only [List.find?_eq_none, decide_eq_true_eq, Int.not_lt]

theorem limited_of_forall_le (h : ∀ v ∈ vs, v.height ≤ d) : limited d vs r = r := by
  rw [limited, find?_eq_none_iff.mpr h]

-- What visits no further nodes does not matter to the limit.
theorem limited_bind (f : α → EvalM δ β) :
    limited d vs (r >>= f) = limited d vs r >>= f := by
  simp only [limited]
  cases vs.find? (d < ·.height) <;> rfl

-- One thing after the other.
theorem limited_append (f : α → List (Visit δ)) (g : α → EvalM δ β) :
    limited d (vs ++ after r f) (r >>= g) = limited d vs r >>= fun v => limited d (f v) (g v) := by
  simp only [limited, List.find?_append]
  cases vs.find? (d < ·.height) with
  | some => rfl
  | none =>
    cases r with
    | error => rfl
    | ok => rfl

end

variable {d : Int} {n h : Nat}

-- The value of a chain up to an operator, from the value up to the one before.
def extend (d : Int) (n : Nat) (v : Value) (k : Link δ) : EvalM δ Value := do
  k.apply v (← within d n k.right)

-- A level of the evaluator does what its limit leaves of what an expression means, if nodes on this
-- level have height `h`.
def Respects (d : Int) (n h : Nat) (δ : Type) [Provenance δ] : Prop :=
  ∀ e : Expr δ, e.isSpanned → within d n e = limited d (e.visits false h) e.meaning

-- Folding a chain comes to the same as evaluating it from its last operator.
theorem Respects.chain (hr : Respects d n h δ) : (e : Expr δ) → e.isSpanned →
    (links : List (Link δ)) →
    (within d n (spine e links).fst >>= fun v => (spine e links).snd.foldlM (extend d n) v) =
      (limited d (e.visits true h) e.meaning >>= fun v => links.foldlM (extend d n) v)
  | .binary span op l r, hs, links => by
    simp only [Expr.isSpanned, Bool.and_eq_true] at hs
    rw [spine, hr.chain l hs.left, Expr.visits, Expr.meaning, limited_append]
    have hk (v : Value) : extend d n v ⟨span, op, l, r⟩ =
        limited d (r.visits false h) (r.meaning >>= op.meaning span l.span r.span v) := by
      rw [extend, hr r hs.right, limited_bind]
      simp only [Link.apply_eq]
    simp only [List.foldlM_cons, hk, bind_assoc]
  | .literal .., hs, _ | .unary .., hs, _ | .grouping .., hs, _ | .cond .., hs, _ | .block .., hs, _
  | .strayBody .., hs, _ | .strayStmt .., hs, _ | .strayBlock .., hs, _ =>
    congrArg (· >>= _) (hr _ hs)

theorem respects_zero (hd : d < h) : Respects d 0 h δ := by
  intro e hs
  have ⟨vs, hvs⟩ := e.visits_eq_cons h
  rw [hvs, limited_cons_of_lt hd]
  cases e with
  | strayAtom => contradiction
  | _ => rfl

theorem Respects.succ (hr : Respects d n (h + 1) δ) (hd : h ≤ d) :
    Respects d (n + 1) h δ := by
  intro e hs
  cases e with
  | literal | block | strayBody | strayStmt | strayBlock =>
    refine .trans ?_ (limited_cons_of_le hd).symm
    rfl
  | strayAtom => contradiction
  | unary span op e =>
    cases op
    rw [Expr.visits, limited_cons_of_le hd, Expr.meaning, limited_bind, ←hr e hs]
    simp only [within, checked_eq]
    rfl
  | grouping span e =>
    rw [Expr.visits, limited_cons_of_le hd]
    exact hr e hs
  | binary span op l r =>
    have hc := hr.chain (.binary span op l r) hs []
    simp only [List.foldlM_nil, bind_pure] at hc
    rw [Expr.visits, limited_cons_of_le hd]
    exact hc
  | cond span c t e =>
    simp only [Expr.isSpanned, Bool.and_eq_true] at hs
    rw [Expr.visits, limited_cons_of_le hd, Expr.meaning, limited_append, within, hr c hs.left.left]
    refine bind_congr fun v => ?_
    have branch {e : Expr δ} (he : e.isSpanned) :
        (logSpan span >>= fun _ => within d n e) =
          limited d (after (logSpan span) fun _ => e.visits false (h + 1))
            (logSpan span >>= fun _ => e.meaning) := by
      rw [hr e he]
      exact (@limited_append δ Unit Value d [] ..).symm
    cases v with
    | num => rfl
    | bool b =>
      cases b with
      | true => exact branch hs.left.right
      | false => exact branch hs.right

-- Levels are left for as long as the limit is not reached.
theorem respects (hn : n + h = d.toNat + 1) (hh : 0 < h) : Respects d n h δ := by
  induction n generalizing h with
  | zero => exact respects_zero (by omega)
  | succ n ih => exact (ih (by omega) (Nat.succ_pos h)).succ (by omega)

end Eval

theorem evaluate_eq_logged {e : Expr δ} (he : e.isSpanned) (d : Int) :
    evaluate e d =
      (limited d (e.visits false 1) e.meaning >>= fun v => do
        logSpan e.span
        return v) := by
  rw [←respects rfl Nat.one_pos e he]
  rfl

-- All places in a program can be noted.
theorem evaluate_program (e : Program) (d : Int) : evaluate e d = within d d.toNat e :=
  bind_pure _

theorem evaluate_eq_limited (e : Program) (d : Int) :
    evaluate e d = limited d (e.visits false 1) e.meaning := by
  rw [evaluate_program, respects rfl Nat.one_pos e e.isSpanned_program]

-- The evaluator comes to what an expression means, unless a node that is visited is higher than the
-- limit. The first one is at fault then. So nothing but such a fault changes with a higher limit. The
-- place of an expression that has a value is noted at the end.
theorem evaluate_eq_meaning {e : Expr δ} (he : e.isSpanned) (d : Int) :
    evaluate e d =
      ((match (e.visits false 1).find? (d < ·.height) with
        | none => e.meaning
        | some v => fail v.node.span (.tooDeep d)) >>= fun v => do
        logSpan e.span
        return v) ∧
    ∀ d' ≥ d, (∀ span, evaluate e d ≠ fail span (.tooDeep d)) → evaluate e d' = evaluate e d := by
  refine ⟨evaluate_eq_logged he d, fun d' hd hne => ?_⟩
  cases hv : (e.visits false 1).find? (d < ·.height) with
  | some v =>
    refine absurd ?_ (hne v.node.span)
    rw [evaluate_eq_logged he, limited, hv]
    rfl
  | none =>
    have hv := find?_eq_none_iff.mp hv
    have hv' : ∀ v ∈ e.visits false 1, v.height ≤ d' := fun v hm => Int.le_trans (hv v hm) hd
    rw [evaluate_eq_logged he, evaluate_eq_logged he, limited_of_forall_le hv, limited_of_forall_le hv']

-- In 1 + 2 + -3 only the last literal lies below the second level.
theorem evaluate_eq_meaning_chain :
    let one : Program := .literal ⟨0, 1, by decide⟩ (.num 1)
    let two : Program := .literal ⟨4, 5, by decide⟩ (.num 2)
    let three : Program := .literal ⟨9, 10, by decide⟩ (.num 3)
    let sum : Program := .binary ⟨0, 5, by decide⟩ .add one two
    let e : Program := .binary ⟨0, 10, by decide⟩ .add sum (.unary ⟨8, 10, by decide⟩ .neg three)
    evaluate e 2 = .error (.fault ⟨three.span, .tooDeep 2⟩) ∧ evaluate e 3 = .ok (.num 0) := by
  intro one two three sum e
  have he : e.isSpanned := rfl
  have hw : Text.isWritable 2 := Text.isWritable_of_natAbs_lt (by decide)
  refine ⟨?_, (evaluate_eq_meaning he 3).left⟩
  exact (evaluate_eq_meaning he 2).left.trans (fail_eq_fault hw)

-- A result that is too long to be written.
theorem evaluate_unwritten {e : Program} {d : Int} {span : Span} {n : Int}
    (hv : ∀ v ∈ e.visits false 1, v.height ≤ d) (hm : e.meaning = int32 span n)
    (h : Text.isWritable n = false) : evaluate e d = .error (.unwritten ⟨span, .overflow n⟩) := by
  rw [evaluate_eq_limited, limited_of_forall_le hv, hm, int32_unwritten h]

theorem meaning_product (n : Int) :
    Expr.meaning (.binary .dummy .mul (.literal .dummy (.num n)) (.literal .dummy (.num n)) : Program) =
      int32 .dummy (n * n) :=
  rfl

-- The message about a product of 6001 digits cannot be written, so that the fault is not reported.
theorem evaluate_product_unwritten :
    let number : Int := 10 ^ 3000
    let factor : Program := .literal .dummy (.num number)
    let product : Program := .binary .dummy .mul factor factor
    (∀ v ∈ product.visits false 1, v.height ≤ defaultEvalDepth) ∧
      evaluate product defaultEvalDepth =
        .error (.unwritten ⟨.dummy, .overflow (number * number)⟩) ∧
      ∀ err, evaluate product defaultEvalDepth ≠ .error (.fault err) := by
  intro number factor product
  have hw : Text.isWritable (number * number) = false := by
    rw [←pow_add]
    exact Text.isWritable_pow (by decide)
  have hv : ∀ v ∈ product.visits false 1, v.height ≤ defaultEvalDepth := by decide
  have he : evaluate product defaultEvalDepth = _ := evaluate_unwritten hv (meaning_product _) hw
  exact ⟨hv, he, by simp [he]⟩

end ExprLang
