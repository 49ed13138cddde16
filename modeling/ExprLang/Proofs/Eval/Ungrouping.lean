import ExprLang.Proofs.Eval.Chain

/-!
Groups have no part in what an expression means. Without some of them, the evaluator takes other ways:
operands of a group that stands to the left of an operator belong to the chain of that operator then.
Yet no node that is visited comes to lie deeper.
-/
namespace ExprLang

open Eval

variable {δ : Type}

mutual

-- What is left of a tree if some groups in it are replaced by what they hold.
inductive Expr.Ungroups : Expr δ → Expr δ → Prop
  | drop (h : Expr.Ungroups e e') : Expr.Ungroups (.grouping s e) e'
  | grouping (h : Expr.Ungroups e e') : Expr.Ungroups (.grouping s e) (.grouping s e')
  | literal : Expr.Ungroups (.literal s v) (.literal s v)
  | unary (h : Expr.Ungroups e e') : Expr.Ungroups (.unary s op e) (.unary s op e')
  | binary (hl : Expr.Ungroups l l') (hr : Expr.Ungroups r r') :
    Expr.Ungroups (.binary s op l r) (.binary s op l' r')
  | cond (hc : Expr.Ungroups c c') (ht : Expr.Ungroups t t') (he : Expr.Ungroups e e') :
    Expr.Ungroups (.cond s c t e) (.cond s c' t' e')
  | block (h : Stmts.Ungroups ss ss') : Expr.Ungroups (.block s (.mk b ss)) (.block s (.mk b ss'))

inductive Stmts.Ungroups : List (Stmt δ) → List (Stmt δ) → Prop
  | nil : Stmts.Ungroups [] []
  | cons (hs : Stmt.Ungroups s s') (h : Stmts.Ungroups ss ss') : Stmts.Ungroups (s :: ss) (s' :: ss')

inductive Stmt.Ungroups : Stmt δ → Stmt δ → Prop
  | bare : Stmt.Ungroups (.declare s x type none) (.declare s x type none)
  | declare (h : Expr.Ungroups e e') :
    Stmt.Ungroups (.declare s x type (some e)) (.declare s x type (some e'))
  | assign (h : Expr.Ungroups e e') : Stmt.Ungroups (.assign s x e) (.assign s x e')
  | discard (h : Expr.Ungroups e e') : Stmt.Ungroups (.discard s e) (.discard s e')
  | result (h : Expr.Ungroups e e') : Stmt.Ungroups (.result s e) (.result s e')

end

-- Anywhere else.
def Anywhere (_ _ : Span) : Prop :=
  True

-- What holds of both parts of two things holds of both things.
theorem both_and {a a' b b' : Bool} (ha : a ∧ a') (hb : b ∧ b') : (a && b) ∧ (a' && b') := by
  simp [ha, hb]

theorem Expr.Ungroups.isSpanned {e e' : Expr δ} : e.Ungroups e' → e.isSpanned ∧ e'.isSpanned
  | .drop h | .grouping h | .unary h => h.isSpanned
  | .literal | .block _ => ⟨rfl, rfl⟩
  | .binary hl hr => both_and hl.isSpanned hr.isSpanned
  | .cond hc ht he => both_and (both_and hc.isSpanned ht.isSpanned) he.isSpanned

section

variable [Provenance δ]

-- Groups mean what they hold.
theorem Expr.Ungroups.meaning {e e' : Expr δ} :
    e.Ungroups e' → SameOutcome Anywhere e.meaning e'.meaning
  | .drop h | .grouping h => h.meaning
  | .literal => .ok _
  | @unary _ _ _ _ .neg h => by
    refine h.meaning.bind fun v => ?_
    cases v with
    | num n => exact .int32 trivial _
    | bool => exact .fail trivial _
  | .binary hl hr =>
    hl.meaning.bind fun a => hr.meaning.bind fun b => .meaning _ trivial trivial trivial a b
  | .cond hc ht he => by
    refine hc.meaning.bind fun v => ?_
    cases v with
    | num => exact .fail trivial _
    | bool b =>
      cases b with
      | true => exact ht.meaning.logged _
      | false => exact he.meaning.logged _
  | .block _ => .fail trivial _

variable {d : Int} {n : Nat} {b : Bool}

omit [Provenance δ] in
theorem Eval.forall_mem_after {α : Type} {r : EvalM δ α} {f : α → List (Visit δ)}
    {p : Visit δ → Prop} :
    (∀ v ∈ after r f, p v) ↔ ∀ a, r = .ok a → ∀ v ∈ f a, p v := by
  cases r with
  | ok a => simp [after]
  | error => simp [after]

-- No node that is visited lies deeper than the limit if the root has height `n`.
def Expr.StaysWithin (d : Int) (b : Bool) (n : Nat) (e : Expr δ) : Prop :=
  ∀ v ∈ e.visits b n, v.height ≤ d

-- The height of the operands of an operator, which takes no level of its own in a chain.
def Visit.below (inChain : Bool) (n : Nat) : Nat :=
  if inChain then n else n + 1

namespace Expr

variable {s : Span} {op : BinOp} {c t e l r : Expr δ}

theorem staysWithin_leaf (he : e.visits b n = [⟨n, e⟩]) : e.StaysWithin d b n ↔ n ≤ d := by
  rw [StaysWithin, he]
  exact List.forall_mem_singleton

theorem staysWithin_block {body : Block δ} : (block s body).StaysWithin d b n ↔ n ≤ d :=
  staysWithin_leaf (by simp [visits])

theorem staysWithin_unary {op : UnOp} :
    (unary s op e).StaysWithin d b n ↔ n ≤ d ∧ e.StaysWithin d false (n + 1) := by
  simp [StaysWithin, visits]

theorem staysWithin_grouping :
    (grouping s e).StaysWithin d b n ↔ n ≤ d ∧ e.StaysWithin d false (n + 1) := by
  simp [StaysWithin, visits]

theorem staysWithin_binary :
    (binary s op l r).StaysWithin d b n ↔
      (b = false → n ≤ d) ∧ l.StaysWithin d true (Visit.below b n) ∧
        ∀ a, l.meaning = .ok a → r.StaysWithin d false (Visit.below b n) := by
  cases b with
  | true =>
    simp only [StaysWithin, visits, List.forall_mem_append, forall_mem_after]
    simp [Visit.below]
  | false =>
    simp only [StaysWithin, visits, List.forall_mem_cons, List.forall_mem_append, forall_mem_after]
    simp [Visit.below]

theorem staysWithin_cond :
    (cond s c t e).StaysWithin d b n ↔ n ≤ d ∧ c.StaysWithin d false (n + 1) ∧
      (c.meaning = .ok (.bool true) → logSpan (δ := δ) s = .ok () → t.StaysWithin d false (n + 1)) ∧
      (c.meaning = .ok (.bool false) → logSpan (δ := δ) s = .ok () →
        e.StaysWithin d false (n + 1)) := by
  simp only [StaysWithin, visits, List.forall_mem_cons, List.forall_mem_append, forall_mem_after]
  refine and_congr_right fun _ => and_congr_right fun _ => ⟨fun h => ⟨fun hc hs => ?_, fun hc hs => ?_⟩, ?_⟩
  · exact forall_mem_after.mp (h _ hc) () hs
  · exact forall_mem_after.mp (h _ hc) () hs
  · rintro ⟨ht, he⟩ a ha
    split
    · exact forall_mem_after.mpr fun _ hs => ht ha hs
    · exact forall_mem_after.mpr fun _ hs => he ha hs
    · exact List.forall_mem_nil _

-- What belongs to a chain or is nearer to the root lies no deeper.
theorem StaysWithin.mono {b b' : Bool} {m n : Nat} : (e : Expr δ) → e.StaysWithin d b n → m ≤ n →
    (b' = false → b = false) → e.StaysWithin d b' m
  | .unary _ _ e, h, hm, _ => by
    have ⟨hn, h⟩ := staysWithin_unary.mp h
    exact staysWithin_unary.mpr ⟨by omega, mono e h (Nat.succ_le_succ hm) id⟩
  | .grouping _ e, h, hm, _ => by
    have ⟨hn, h⟩ := staysWithin_grouping.mp h
    exact staysWithin_grouping.mpr ⟨by omega, mono e h (Nat.succ_le_succ hm) id⟩
  | .binary _ _ l r, h, hm, hb => by
    have ⟨hn, hl, hr⟩ := staysWithin_binary.mp h
    have hm' : Visit.below b' m ≤ Visit.below b n := by
      cases b' <;> cases b <;> simp_all [Visit.below]
      omega
    refine staysWithin_binary.mpr ⟨fun h => ?_, mono l hl hm' id, fun a ha => mono r (hr a ha) hm' id⟩
    have := hn (hb h)
    omega
  | .cond _ c t e, h, hm, _ => by
    have ⟨hn, hc, ht, he⟩ := staysWithin_cond.mp h
    have hm' := Nat.succ_le_succ hm
    refine staysWithin_cond.mpr ⟨by omega, mono c hc hm' id, ?_⟩
    exact ⟨fun h hs => mono t (ht h hs) hm' id, fun h hs => mono e (he h hs) hm' id⟩
  | .literal .., h, hm, _ | .block .., h, hm, _ | .strayBody .., h, hm, _ | .strayStmt .., h, hm, _
  | .strayBlock .., h, hm, _ | .strayAtom .., h, hm, _ => by
    have h := (staysWithin_leaf (by simp [visits])).mp h
    exact (staysWithin_leaf (by simp [visits])).mpr (by omega)

end Expr

-- Without some groups, nothing lies deeper. What a group holds comes one level nearer to the root, and
-- an operator in it may come to belong to a chain.
theorem Expr.Ungroups.staysWithin {d : Int} {b : Bool} {n : Nat} {e e' : Expr δ} :
    e.Ungroups e' → e.StaysWithin d b n → e'.StaysWithin d b n
  | .drop h, hs => by
    have hs := (staysWithin_grouping.mp hs).right
    exact h.staysWithin (hs.mono _ (Nat.le_succ n) fun _ => rfl)
  | .grouping h, hs => by
    obtain ⟨hn, hs⟩ := staysWithin_grouping.mp hs
    exact staysWithin_grouping.mpr ⟨hn, h.staysWithin hs⟩
  | .literal, hs => hs
  | .unary h, hs => by
    obtain ⟨hn, hs⟩ := staysWithin_unary.mp hs
    exact staysWithin_unary.mpr ⟨hn, h.staysWithin hs⟩
  | .binary hl hr, hs => by
    obtain ⟨hn, hsl, hsr⟩ := staysWithin_binary.mp hs
    refine staysWithin_binary.mpr ⟨hn, hl.staysWithin hsl, fun a ha => ?_⟩
    exact hr.staysWithin (hsr a (hl.meaning.eq_ok ha))
  | .cond hc ht he, hs => by
    obtain ⟨hn, hsc, hst, hse⟩ := staysWithin_cond.mp hs
    refine staysWithin_cond.mpr ⟨hn, hc.staysWithin hsc, fun h hl => ?_, fun h hl => ?_⟩
    · exact ht.staysWithin (hst (hc.meaning.eq_ok h) hl)
    · exact he.staysWithin (hse (hc.meaning.eq_ok h) hl)
  | .block _, hs => staysWithin_block.mpr (staysWithin_block.mp hs)

variable {e e' : Expr δ}

theorem Expr.StaysWithin.evaluate_eq (h : e.StaysWithin d false 1) (he : e.isSpanned)
    (hs : logSpan (δ := δ) e.span = .ok ()) : evaluate e d = e.meaning := by
  rw [evaluate_eq_logged he, limited_of_forall_le h, hs]
  exact bind_pure _

-- Whatever lies too deep is at fault.
theorem Expr.staysWithin_of_evaluate (he : e.isSpanned)
    (h : ∀ s, evaluate e d ≠ fail s (.tooDeep d)) : e.StaysWithin d false 1 := by
  cases hv : (e.visits false 1).find? (d < ·.height) with
  | none => exact find?_eq_none_iff.mp hv
  | some v =>
    refine absurd ?_ (h v.node.span)
    rw [evaluate_eq_logged he, limited, hv]
    rfl

-- Within no levels nothing is evaluated.
theorem evaluate_of_nonpos (he : e.isSpanned) (hd : d ≤ 0) :
    evaluate e d = fail e.span (.tooDeep d) := by
  have ⟨vs, hvs⟩ := e.visits_eq_cons 1
  rw [evaluate_eq_logged he, hvs, limited_cons_of_lt (by omega)]
  rfl

-- If a tree is not too deep, it is not without some of its groups either. It has the same value then, or a
-- fault of which the same is said, perhaps in another place. Neither is reported if the number in it is
-- too long to be written, and evaluation also stops for both at a place that cannot be noted.
theorem evaluate_ungrouped (h : e.Ungroups e') (hs : logSpan (δ := δ) e.span = .ok ())
    (hs' : logSpan (δ := δ) e'.span = .ok ()) (hd : 0 < d → ∀ s, evaluate e d ≠ fail s (.tooDeep d)) :
    (∃ v, evaluate e d = .ok v ∧ evaluate e' d = .ok v) ∨
    (∃ err err', evaluate e d = .error (.ofFault err) ∧ evaluate e' d = .error (.ofFault err') ∧
      err'.diagnostic = { err.diagnostic with span := err'.span } ∧
      err'.isWritable = err.isWritable) ∨
    ∃ ok s, evaluate e d = .error (.unlogged ok s) ∧ evaluate e' d = .error (.unlogged ok s) := by
  have ⟨he, he'⟩ := h.isSpanned
  have faults (s s' : Span) (cause : EvalError.Cause) :
      (EvalError.mk s' cause).diagnostic = { (EvalError.mk s cause).diagnostic with span := s' } :=
    EvalError.diagnostic_moved s s' cause
  by_cases hp : 0 < d
  case neg =>
    rw [evaluate_of_nonpos he (by omega), evaluate_of_nonpos he' (by omega)]
    exact .inr (.inl ⟨_, _, rfl, rfl, faults .., rfl⟩)
  case pos =>
    have hw := Expr.staysWithin_of_evaluate he (hd hp)
    rw [hw.evaluate_eq he hs, (h.staysWithin hw).evaluate_eq he' hs']
    have hm := h.meaning
    generalize e.meaning = x, e'.meaning = x' at hm
    cases hm with
    | ok v => exact .inl ⟨v, rfl, rfl⟩
    | fail _ cause => exact .inr (.inl ⟨_, _, rfl, rfl, faults .., rfl⟩)
    | unlogged ok s => exact .inr (.inr ⟨ok, s, rfl, rfl⟩)

end

-- Without its group, (1 - 2) - 3 is one chain.
theorem evaluate_ungrouped_chain :
    let one : Program := .literal ⟨1, 2, by decide⟩ (.num 1)
    let two : Program := .literal ⟨5, 6, by decide⟩ (.num 2)
    let three : Program := .literal ⟨10, 11, by decide⟩ (.num 3)
    let difference : Program := .binary ⟨1, 6, by decide⟩ .sub one two
    let e : Program :=
      .binary ⟨0, 11, by decide⟩ .sub (.grouping ⟨0, 7, by decide⟩ difference) three
    let e' : Program := .binary ⟨0, 11, by decide⟩ .sub difference three
    e.Ungroups e' ∧ ∃ v, evaluate e 4 = .ok v ∧ evaluate e' 4 = .ok v := by
  intro one two three difference e e'
  have hu : e.Ungroups e' := .binary (.drop (.binary .literal .literal)) .literal
  have he : evaluate e 4 = .ok (.num (-4)) := rfl
  refine ⟨hu, (evaluate_ungrouped hu rfl rfl fun _ s h => ?_).resolve_right ?_⟩
  · cases he.symm.trans h
  · rintro (⟨err, _, h, _⟩ | ⟨_, _, h, _⟩)
    all_goals cases he.symm.trans h

-- A product of 6001 digits overflows with and without a group around a factor. It is not too deep, but the
-- fault is not reported.
theorem evaluate_ungrouped_unwritten :
    let number : Int := 10 ^ 3000
    let factor : Program := .literal .dummy (.num number)
    let e : Program := .binary .dummy .mul (.grouping .dummy factor) factor
    let e' : Program := .binary .dummy .mul factor factor
    let failure : EvalFailure Empty := .unwritten ⟨.dummy, .overflow (number * number)⟩
    e.Ungroups e' ∧ evaluate e defaultEvalDepth = .error failure ∧
      evaluate e' defaultEvalDepth = .error failure ∧
      (∀ v, evaluate e' defaultEvalDepth ≠ .ok v) ∧
      ∀ err, evaluate e' defaultEvalDepth ≠ .error (.fault err) := by
  intro number factor e e' failure
  have hw : Text.isWritable (number * number) = false := by
    rw [←pow_add]
    exact Text.isWritable_pow (by decide)
  have he : evaluate e defaultEvalDepth = .error failure :=
    evaluate_unwritten (by decide) (meaning_product _) hw
  have he' : evaluate e' defaultEvalDepth = .error failure :=
    evaluate_unwritten (by decide) (meaning_product _) hw
  exact ⟨.binary (.drop .literal) .literal, he, he', by simp [he'], by simp [he', failure]⟩

end ExprLang
