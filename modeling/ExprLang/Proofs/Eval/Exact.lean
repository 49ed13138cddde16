import ExprLang.Proofs.Eval.Height
import ExprLang.Proofs.Parser.RoundTrip

/-!
Values with numbers of any size. Operators come to the exact value where the evaluator has one, which
then fits into 32 bits, and all numbers that can be written fit. What operators come to with numbers that
fit is never too long to be reported.
-/
namespace ExprLang

variable {δ : Type}

-- A quotient without its fraction.
def towardZero (q : ℚ) : Int :=
  if 0 ≤ q then ⌊q⌋ else ⌈q⌉

theorem towardZero_div_natCast (a : Int) (n : Nat) : towardZero (a / n) = a.tdiv n := by
  by_cases ha : 0 ≤ a
  case pos =>
    have hq : (0 : ℚ) ≤ a / n := by positivity
    rw [towardZero, if_pos hq, Rat.floor_intCast_div_natCast, Int.tdiv_eq_ediv_of_nonneg ha]
  case neg =>
    by_cases hn : n = 0
    case pos => simp [hn, towardZero]
    case neg =>
      have hq : ¬(0 : ℚ) ≤ a / n := by
        have ha : (a : ℚ) < 0 := by exact_mod_cast Int.not_le.mp ha
        have hn : (0 : ℚ) < n := by exact_mod_cast Nat.pos_of_ne_zero hn
        exact not_le.mpr (div_neg_of_neg_of_pos ha hn)
      rw [towardZero, if_neg hq, Rat.ceil_intCast_div_natCast,
        ←Int.tdiv_eq_ediv_of_nonneg (by omega), Int.neg_tdiv, Int.neg_neg]

-- The division of the evaluator leaves out the fraction of the quotient.
theorem towardZero_div (a b : Int) : towardZero (a / b) = a.tdiv b := by
  have ⟨n, hb⟩ := b.eq_nat_or_neg
  cases hb with
  | inl hb =>
    rw [hb]
    exact towardZero_div_natCast a n
  | inr hb =>
    rw [hb, Int.tdiv_neg, ←Int.neg_tdiv, ←towardZero_div_natCast]
    push_cast
    rw [div_neg, neg_div]

-- The numbers that fit into 32 bits.
def IsInt32 (n : Int) : Prop :=
  -2 ^ 31 ≤ n ∧ n ≤ 2 ^ 31 - 1

instance (n : Int) : Decidable (IsInt32 n) :=
  inferInstanceAs (Decidable (_ ∧ _))

-- Of all quotients of numbers that fit, one does not.
theorem eq_of_not_isInt32_tdiv {a b : Int} (ha : IsInt32 a) (h : ¬IsInt32 (a.tdiv b)) :
    a = -2 ^ 31 ∧ b = -1 := by
  simp only [IsInt32] at ha h
  by_cases hb : b.natAbs ≤ 1
  case neg =>
    have hhalf : (a.tdiv b).natAbs ≤ a.natAbs / 2 := by
      rw [Int.natAbs_tdiv]
      exact Nat.div_le_div_left (by omega) (by decide)
    omega
  case pos =>
    have hb : b = 0 ∨ b = 1 ∨ b = -1 := by omega
    rcases hb with rfl | rfl | rfl
    · simp at h
    · rw [Int.tdiv_one] at h
      omega
    · rw [Int.tdiv_neg, Int.tdiv_one] at h
      omega

-- Truth values always fit.
def Value.Fits : Value → Prop
  | .num n => IsInt32 n
  | .bool _ => True

theorem Eval.int32_eq (span : Span) (n : Int) :
    int32 (δ := δ) span n = if IsInt32 n then .ok (.num n) else fail span (.overflow n) := by
  have h : (-2 ^ 31 ≤ n ∧ n < 2 ^ 31) ↔ IsInt32 n := by
    simp only [IsInt32]
    omega
  simp only [int32, h]

namespace BinOp

-- The number that an operator comes to, if it is one that makes numbers.
def number? (op : BinOp) (a b : Int) : Option Int :=
  match op with
  | .add => some (a + b)
  | .sub => some (a - b)
  | .mul => some (a * b)
  | .div => if b = 0 then none else some (towardZero (a / b))
  | _ => none

-- Numbers that fit make numbers of at most twice as many bits.
theorem natAbs_number?_le {op : BinOp} {a b n : Int} (ha : IsInt32 a) (hb : IsInt32 b)
    (h : op.number? a b = some n) : n.natAbs ≤ 2 ^ 62 := by
  simp only [IsInt32] at ha hb
  cases op <;> simp only [number?, Option.some.injEq, Option.ite_none_left_eq_some, reduceCtorEq] at h
  case add | sub => omega
  case mul =>
    have hm : a.natAbs * b.natAbs ≤ 2 ^ 31 * 2 ^ 31 := Nat.mul_le_mul (by omega) (by omega)
    rw [←h, Int.natAbs_mul]
    exact Nat.le_trans hm (by decide)
  case div =>
    rw [←h.right, towardZero_div, Int.natAbs_tdiv]
    exact Nat.le_trans (Nat.div_le_self ..) (by omega)

-- What an operator comes to with numbers of any size.
def exact (op : BinOp) : Value → Value → Option Value
  | .num a, .num b =>
    match op with
    | .eq => some (.bool (a = b))
    | .ne => some (.bool (a ≠ b))
    | .gt => some (.bool (a > b))
    | .ge => some (.bool (a ≥ b))
    | .lt => some (.bool (a < b))
    | .le => some (.bool (a ≤ b))
    | _ => .num <$> op.number? a b
  | .bool a, .bool b =>
    match op with
    | .eq => some (.bool (a = b))
    | .ne => some (.bool (a ≠ b))
    | _ => none
  | _, _ => none

end BinOp

-- The value of an expression with numbers of any size, if it has one.
def Expr.exact : Expr δ → Option Value
  | .literal _ v => some v.value
  | .unary _ .neg e => do
    match ← e.exact with
    | .num n => some (.num (-n))
    | .bool _ => none
  | .binary _ op l r => do op.exact (← l.exact) (← r.exact)
  | .grouping _ e => e.exact
  | .cond _ c t e => do
    match ← c.exact with
    | .bool true => t.exact
    | .bool false => e.exact
    | .num _ => none
  | _ => none

-- Whether all numbers in an expression fit. Blocks have no value, so that nothing in them counts.
def Expr.LiteralsFit : Expr δ → Prop
  | .literal _ v => v.value.Fits
  | .unary _ _ e | .grouping _ e => e.LiteralsFit
  | .binary _ _ l r => l.LiteralsFit ∧ r.LiteralsFit
  | .cond _ c t e => c.LiteralsFit ∧ t.LiteralsFit ∧ e.LiteralsFit
  | _ => True

-- The exact value of an expression, which fits.
def Expr.HasValue (e : Expr δ) (v : Value) : Prop :=
  e.exact = some v ∧ v.Fits

namespace Eval

variable {span : Span} {v a b : Value}

theorem int32_eq_ok {n : Int} (h : int32 (δ := δ) span n = .ok v) : v = .num n ∧ v.Fits := by
  rw [int32_eq] at h
  by_cases hn : IsInt32 n
  case pos =>
    rw [if_pos hn] at h
    cases h
    exact ⟨rfl, hn⟩
  case neg =>
    rw [if_neg hn] at h
    cases h

-- A value that an operator comes to is exact.
theorem exact_of_meaning {op : BinOp} {left right : Span}
    (h : op.meaning (δ := δ) span left right a b = .ok v) : op.exact a b = some v ∧ v.Fits := by
  cases a <;> cases b <;> simp only [BinOp.meaning] at h
  case num.num a b =>
    cases op <;> simp only [BinOp.onNumbers] at h
    case add | sub | mul =>
      obtain ⟨hv, hf⟩ := int32_eq_ok h
      exact ⟨hv ▸ rfl, hf⟩
    case div =>
      split at h
      case isTrue => cases h
      case isFalse hb =>
        obtain ⟨hv, hf⟩ := int32_eq_ok h
        refine ⟨?_, hf⟩
        simp [BinOp.exact, BinOp.number?, hb, towardZero_div, hv]
    all_goals
      cases h
      exact ⟨rfl, trivial⟩
  case bool.bool a b =>
    split at h
    case isFalse => cases h
    case isTrue hop =>
      cases h
      cases op <;> simp [BinOp.isEquality] at hop <;> simp [BinOp.exact, Value.Fits]
  case num.bool | bool.num => split at h <;> cases h

theorem isWritable_of_natAbs_le {n : Int} (h : n.natAbs ≤ 2 ^ 62) : Text.isWritable n :=
  Text.isWritable_of_natAbs_lt (Nat.lt_of_le_of_lt h (by decide))

-- A value that fits, or a fault that is reported.
structure Reported (r : EvalM δ Value) : Prop where
  fits : ∀ v, r = .ok v → v.Fits
  written : ∀ err, r ≠ .error (.unwritten err)

namespace Reported

theorem ok (h : v.Fits) : Reported (δ := δ) (.ok v) where
  fits _ hv := Except.ok.inj hv ▸ h
  written := nofun

theorem fail {cause : EvalError.Cause} (h : (⟨span, cause⟩ : EvalError).isWritable) :
    Reported (δ := δ) (fail span cause) := by
  rw [fail_eq_fault h]
  exact ⟨nofun, nofun⟩

theorem bind {r : EvalM δ Value} {f : Value → EvalM δ Value} (h : Reported r)
    (hf : ∀ v, v.Fits → Reported (f v)) : Reported (r >>= f) := by
  cases r with
  | ok v => exact hf v (h.fits v rfl)
  | error e => exact ⟨nofun, fun err he => h.written err (congrArg _ (Except.error.inj he))⟩

theorem int32 {n : Int} (h : n.natAbs ≤ 2 ^ 62) : Reported (δ := δ) (int32 span n) := by
  rw [int32_eq]
  split
  case isTrue hn => exact .ok hn
  case isFalse => exact .fail (isWritable_of_natAbs_le h)

theorem meaning {left right : Span} (op : BinOp) (ha : a.Fits) (hb : b.Fits) :
    Reported (δ := δ) (op.meaning span left right a b) := by
  cases a <;> cases b <;> simp only [BinOp.meaning]
  case num.num a b =>
    have size {n : Int} (h : op.number? a b = some n) := BinOp.natAbs_number?_le ha hb h
    cases op <;> simp only [BinOp.onNumbers]
    case add | sub | mul => exact .int32 (size rfl)
    case div =>
      split
      case isTrue => exact .fail rfl
      case isFalse h => exact .int32 (size (by rw [BinOp.number?, if_neg h, towardZero_div]))
    all_goals exact .ok trivial
  case bool.bool =>
    split
    · exact .ok trivial
    · exact .fail rfl
  case num.bool | bool.num => split <;> exact .fail rfl

end Reported

-- All numbers that are come across in evaluating a program whose numbers fit can be written.
theorem reported_meaning : (e : Program) → e.LiteralsFit → Reported e.meaning
  | .literal _ _, h => .ok h
  | .unary _ .neg e, h => by
    refine (reported_meaning e h).bind fun v hv => ?_
    cases v with
    | num n =>
      have hv : IsInt32 n := hv
      simp only [IsInt32] at hv
      exact .int32 (by omega)
    | bool => exact .fail rfl
  | .binary _ op l r, h =>
    (reported_meaning l h.left).bind fun _ ha => (reported_meaning r h.right).bind fun _ hb =>
      .meaning op ha hb
  | .grouping _ e, h => reported_meaning e h
  | .cond _ c t e, h => by
    refine (reported_meaning c h.left).bind fun v _ => ?_
    split
    · exact reported_meaning t h.right.left
    · exact reported_meaning e h.right.right
    · exact .fail rfl
  | .block .., _ => .fail rfl

end Eval

theorem evaluate_ne_unwritten {e : Program} {d : Int} (he : e.LiteralsFit) (hd : Text.isWritable d)
    (err : EvalError) : evaluate e d ≠ .error (.unwritten err) := by
  rw [evaluate_eq_limited, Eval.limited]
  cases (e.visits false 1).find? (d < ·.height) with
  | none => exact (Eval.reported_meaning e he).written err
  | some v =>
    have hw : (⟨v.node.span, .tooDeep d⟩ : EvalError).isWritable := hd
    exact (Eval.Reported.fail hw).written err

theorem Outline.Describes.literalsFit {t : Outline} {e : Expr δ} (h : t.Describes e)
    (hw : t.isWritable) : e.LiteralsFit := by
  induction h with
  | num hv =>
    have hm : SyntaxError.maxLiteral = 2147483647 := rfl
    simp only [isWritable, Bool.and_eq_true, decide_eq_true_eq] at hw
    simp only [Expr.LiteralsFit, hv, Value.Fits, IsInt32]
    omega
  | bool hv => simp only [Expr.LiteralsFit, hv, Value.Fits]
  | neg _ ih | grouping _ ih => exact ih hw
  | binary _ _ hl hr =>
    simp only [isWritable, Bool.and_eq_true] at hw
    exact ⟨hl hw.left, hr hw.right⟩
  | cond _ _ _ hc ht he =>
    simp only [isWritable, Bool.and_eq_true] at hw
    exact ⟨hc hw.left.left, ht hw.left.right, he hw.right⟩
  | block => trivial

-- Numbers that can be written fit.
theorem literalsFit_of_parse {src : Text} {i j : Interner} {d : Int} {e : Program} (hi : i.Reachable)
    (h : parse src i d = (.ok e, j)) : e.LiteralsFit := by
  have ⟨_, ht, _, hf⟩ := exists_outline_of_parse hi.valid h
  exact (e.describes_of_outline? ht).literalsFit hf.writable

end ExprLang
