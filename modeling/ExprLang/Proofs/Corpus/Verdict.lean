import ExprLang.Corpus.Generate
import ExprLang.Proofs.Eval.Height

/-!
Verdicts of outlines: the rules by which verdicts on generated sources are put together, applied to
whole outlines. They agree with what the trees mean, for values as well as for kinds of faults.
-/
namespace ExprLang

open Eval

variable {δ : Type}

-- A result is the value that a verdict names, or a fault of the kind that it names.
def Corpus.Agrees (r : EvalM δ Value) : Corpus.Verdict → Prop
  | .ok v => r = .ok v
  | .error kind => ∃ e, r = .error (.fault e) ∧ e.diagnostic.kind = kind

-- The same, whether the message of a fault can be written or not.
def Corpus.Matches (r : EvalM δ Value) : Corpus.Verdict → Prop
  | .ok v => r = .ok v
  | .error kind => ∃ e, r = .error (.ofFault e) ∧ e.diagnostic.kind = kind

open Corpus

def Outline.verdict : Outline → Verdict
  | .num n => .ok (.num n)
  | .bool b => .ok (.bool b)
  | .neg e => do negate (← e.verdict)
  | .binary op l r => do
    let a ← l.verdict
    let b ← r.verdict
    apply op a b
  | .grouping e => e.verdict
  | .cond c t e => do
    match ← c.verdict with
    | .bool b => if b then t.verdict else e.verdict
    | .num _ => .error .typeMismatch
  | .block _ => .error .unimplementedFeature

namespace Corpus.Matches

variable {r : EvalM δ Value} {v : Verdict} {f : Value → EvalM δ Value} {g : Value → Verdict}

theorem ok (x : Value) : Matches (δ := δ) (.ok x) (.ok x) :=
  rfl

theorem fail (span : Span) (cause : EvalError.Cause) {kind : Diagnostic.Kind}
    (h : (EvalError.mk span cause).diagnostic.kind = kind) :
    Matches (δ := δ) (fail span cause) (.error kind) :=
  ⟨_, rfl, h⟩

theorem agrees (h : Matches r v) (hr : ∀ e, r ≠ .error (.unwritten e)) : Agrees r v := by
  cases v with
  | ok => exact h
  | error kind =>
    obtain ⟨e, he, hk⟩ := h
    cases hw : e.isWritable with
    | true => exact ⟨e, he.trans (congrArg _ (EvalFailure.ofFault_of_isWritable hw)), hk⟩
    | false =>
      exact absurd (he.trans (congrArg _ (EvalFailure.ofFault_of_isWritable_eq_false hw))) (hr e)

theorem bind (h : Matches r v) (hf : ∀ x, Matches (f x) (g x)) : Matches (r >>= f) (v >>= g) := by
  cases v
  case ok x =>
    rw [show r = .ok x from h]
    exact hf x
  case error kind =>
    have ⟨e, he, hk⟩ := h
    rw [he]
    exact ⟨e, rfl, hk⟩

theorem int32 (span : Span) (n : Int) : Matches (δ := δ) (int32 span n) (checked n) := by
  rw [←checked_eq]
  simp only [Eval.checked, Corpus.checked]
  split
  · exact .ok _
  · exact .fail _ _ rfl

-- Both apply operators to values alike.
theorem apply (op : BinOp) (span left right : Span) (a b : Value) :
    Matches (δ := δ) (op.meaning span left right a b) (apply op a b) := by
  cases a <;> cases b
  case num.num a b =>
    cases op <;> simp only [BinOp.meaning, BinOp.onNumbers, Corpus.apply]
    case add | sub | mul => exact .int32 _ _
    case div =>
      split
      · exact .fail _ _ rfl
      · exact .int32 _ _
    case eq | ne => simp [Matches, bne, Bool.beq_eq_decide_eq]
    all_goals exact .ok _
  case bool.bool a b =>
    cases op
    case eq | ne =>
      simp [BinOp.meaning, BinOp.isEquality, Corpus.apply, Matches, bne, Bool.beq_eq_decide_eq]
    all_goals exact .fail _ _ rfl
  case num.bool | bool.num => cases op <;> exact .fail _ _ rfl

end Corpus.Matches

-- What a tree means is what the verdict on its outline says.
theorem Outline.Describes.matches {t : Outline} {e : Program} (h : t.Describes e) :
    Matches e.meaning t.verdict := by
  induction h
  case num h | bool h =>
    rw [Expr.meaning, h]
    exact .ok _
  case neg ih =>
    refine ih.bind fun x => ?_
    cases x
    case num => exact .int32 _ _
    case bool => exact .fail _ _ rfl
  case binary ihl ihr => exact ihl.bind fun a => ihr.bind fun b => .apply _ _ _ _ a b
  case grouping ih => exact ih
  case cond ihc ihy ihn =>
    refine ihc.bind fun x => ?_
    cases x
    case num => exact .fail _ _ rfl
    case bool b =>
      cases b
      case true => exact ihy
      case false => exact ihn
  case block => exact .fail _ _ rfl

end ExprLang
