import Mathlib
import ExprLang.Eval.Basic

/-!
What expressions mean: operands are evaluated from left to right, and nothing limits how deep they are
nested. A fault is one that is reported unless its message cannot be written.
-/
namespace ExprLang

variable {δ : Type}

open Eval

namespace EvalFailure

variable {e e' : EvalError}

-- A fault whose message can be written is reported.
theorem ofFault_of_isWritable (h : e.isWritable) : ofFault (δ := δ) e = .fault e :=
  if_pos h

theorem ofFault_of_isWritable_eq_false (h : e.isWritable = false) :
    ofFault (δ := δ) e = .unwritten e :=
  if_neg (Bool.eq_false_iff.mp h)

theorem ofFault_eq_fault : ofFault (δ := δ) e = .fault e' ↔ e.isWritable ∧ e = e' := by
  rw [ofFault]
  split <;> simp [*]

theorem ofFault_inj : ofFault (δ := δ) e = ofFault e' ↔ e = e' := by
  constructor
  case mp =>
    rw [ofFault, ofFault]
    split <;> split <;> simp
  case mpr => exact congrArg ofFault

end EvalFailure

namespace Eval

variable {span span' : Span} {cause cause' : EvalError.Cause}

theorem fail_inj : fail (δ := δ) (α := α) span cause = fail span' cause' ↔
    span = span' ∧ cause = cause' := by
  rw [fail, fail, Except.error.injEq, EvalFailure.ofFault_inj, EvalError.mk.injEq]

theorem fail_eq_fault (h : (⟨span, cause⟩ : EvalError).isWritable) :
    fail (δ := δ) (α := α) span cause = .error (.fault ⟨span, cause⟩) :=
  congrArg Except.error (EvalFailure.ofFault_of_isWritable h)

-- Nothing but its span can be in the way of noting a place.
theorem logSpan_cases [Provenance δ] (span : Span) : logSpan (δ := δ) span = .ok () ∨
    ∃ ok, logSpan (δ := δ) span = .error (.unlogged ok span) := by
  rw [logSpan]
  split
  case h_1 => exact .inl rfl
  case h_2 ok _ =>
    split
    case isTrue => exact .inl rfl
    case isFalse => exact .inr ⟨ok, rfl⟩

end Eval

-- A number that an operation at `span` comes to, if it fits into 32 bits.
def Eval.int32 (span : Span) (n : Int) : EvalM δ Value :=
  if -2 ^ 31 ≤ n ∧ n < 2 ^ 31 then .ok (.num n) else fail span (.overflow n)

namespace BinOp

def onNumbers (op : BinOp) (span : Span) (a b : Int) : EvalM δ Value :=
  match op with
  | .add => int32 span (a + b)
  | .sub => int32 span (a - b)
  | .mul => int32 span (a * b)
  | .div => if b = 0 then fail span .divisionByZero else int32 span (a.tdiv b)
  | .eq => .ok (.bool (a = b))
  | .ne => .ok (.bool (a ≠ b))
  | .gt => .ok (.bool (a > b))
  | .ge => .ok (.bool (a ≥ b))
  | .lt => .ok (.bool (a < b))
  | .le => .ok (.bool (a ≤ b))

-- The operators that can be applied to truth values, as long as both operands are some.
def isEquality : BinOp → Bool
  | .eq | .ne => true
  | _ => false

-- What an operator over `span` comes to, with operands over `left` and `right`. Where a number is
-- wanted, the first operand that is none is at fault.
def meaning (op : BinOp) (span left right : Span) : Value → Value → EvalM δ Value
  | .num a, .num b => op.onNumbers span a b
  | .bool a, .bool b =>
    if op.isEquality then .ok (.bool (a = b ↔ op = .eq)) else fail left (.notNumeric op .bool)
  | .num _, .bool _ =>
    if op.isEquality then fail right (.notComparable op .number .bool)
    else fail right (.notNumeric op .bool)
  | .bool _, .num _ =>
    if op.isEquality then fail right (.notComparable op .bool .number)
    else fail left (.notNumeric op .bool)

end BinOp

-- The value of an expression. Of a conditional only the branch that is selected counts, after its place
-- has been noted.
def Expr.meaning [Provenance δ] : Expr δ → EvalM δ Value
  | .literal _ v => .ok v.value
  | .unary span .neg e => do
    match ← e.meaning with
    | .num n => int32 span (-n)
    | .bool _ => fail e.span (.notNegatable .bool)
  | .binary span op l r => do
    let a ← l.meaning
    let b ← r.meaning
    op.meaning span l.span r.span a b
  | .grouping _ e => e.meaning
  | .cond span c t e => do
    match ← c.meaning with
    | .bool true => do
      logSpan span
      t.meaning
    | .bool false => do
      logSpan span
      e.meaning
    | .num _ => fail c.span (.notCondition .number)
  | .block span _ | .strayBody _ span _ => fail span .unimplementedBlock
  | .strayStmt ok s => .error (.misplaced ok ⟨.expression, s.category⟩)
  | .strayBlock ok _ => .error (.misplaced ok ⟨.expression, .block⟩)
  | .strayAtom ok a => .error (.misplaced ok ⟨.expression, .atom a⟩)

theorem Eval.checked_eq (span : Span) (n : Int) : checked (δ := δ) span n = int32 span n := by
  have h : (EvalError.minResult ≤ n ∧ n ≤ EvalError.maxResult) ↔ (-2 ^ 31 ≤ n ∧ n < 2 ^ 31) := by
    simp only [EvalError.minResult, EvalError.maxResult]
    omega
  simp only [checked, int32, h]

-- A power of ten with too many digits.
theorem Text.isWritable_pow {k : Nat} (h : maxDigits ≤ k) : isWritable (10 ^ k) = false := by
  have hp {digits : Nat} (hd : digits ≤ k) : hasDigits digits (10 ^ k) = false := by
    rw [Bool.eq_false_iff, ne_eq, hasDigits_iff, Int.natAbs_pow]
    exact Nat.not_lt.mpr (Nat.pow_le_pow_right (by decide) hd)
  exact hp h

-- A number that is too long to be written does not fit, and that is not reported.
theorem Eval.int32_unwritten {span : Span} {n : Int} (h : Text.isWritable n = false) :
    int32 (δ := δ) span n = .error (.unwritten ⟨span, .overflow n⟩) := by
  have hn : ¬(-2 ^ 31 ≤ n ∧ n < 2 ^ 31) := by
    intro hn
    have hp : Nat.pow 10 20 = 100000000000000000000 := rfl
    exact absurd (Text.isWritable_of_natAbs_lt (by omega)) (Bool.eq_false_iff.mp h)
  have hw : (⟨span, .overflow n⟩ : EvalError).isWritable = false := h
  rw [int32, if_neg hn, fail, EvalFailure.ofFault_of_isWritable_eq_false hw]

theorem Eval.Link.apply_eq (k : Link δ) (l r : Value) :
    k.apply l r = k.op.meaning k.span k.left.span k.right.span l r := by
  obtain ⟨span, op, left, right⟩ := k
  cases l <;> cases r
  case num.num a b =>
    cases op with
    | add | sub | mul => exact checked_eq ..
    | div =>
      show (if b = 0 then _ else checked span (a.tdiv b)) = _
      rw [checked_eq]
      rfl
    | eq | ne => simp [apply, equate, BinOp.meaning, BinOp.onNumbers, Bool.beq_eq_decide_eq]
    | gt | ge | lt | le => rfl
  case bool.bool a b =>
    cases op with
    | eq | ne => simp [apply, equate, BinOp.meaning, BinOp.isEquality, Bool.beq_eq_decide_eq]
    | _ => rfl
  case num.bool | bool.num => cases op <;> rfl

end ExprLang
