import ExprLang.Proofs.Eval.Depth
import ExprLang.Proofs.Tree.Groups

/-!
The height of an outline, which no node that is visited goes beyond. Where an outline has all its
groups, at most four operators stand between one level of nesting and the next, so that its height is
bounded by its nesting.
-/
namespace ExprLang

variable {δ : Type} {name : Symbol → Option Text}

-- What evaluating a tree depends on, apart from spans. Blocks are not looked into.
inductive Outline.Describes : Outline → Expr δ → Prop
  | num (h : v.value = .num n) : Describes (.num n) (.literal span v)
  | bool (h : v.value = .bool b) : Describes (.bool b) (.literal span v)
  | neg (h : Describes t e) : Describes (.neg t) (.unary span .neg e)
  | binary (hl : Describes t l) (hr : Describes u r) :
    Describes (.binary op t u) (.binary span op l r)
  | grouping (h : Describes t e) : Describes (.grouping t) (.grouping span e)
  | cond (hc : Describes t c) (hy : Describes u y) (hn : Describes v n) :
    Describes (.cond t u v) (.cond span c y n)
  | block {body : Block δ} : Describes (.block ss) (.block span body)

theorem Literal.describes_of_outline? {v : Literal δ} {t : Outline} (h : v.outline? = some t)
    (span : Span) : t.Describes (.literal span v) := by
  cases v
  case num | bool =>
    cases h
    constructor
    rfl
  case loose label value =>
    cases value <;> simp only [outline?, Option.ite_none_right_eq_some, Option.some.injEq] at h
    case inl | inr =>
      obtain ⟨rfl, rfl⟩ := h
      constructor
      rfl

theorem Expr.describes_of_outline? : (e : Expr δ) → {t : Outline} → e.outline? name = some t →
    t.Describes e
  | .block _ (.mk _ _), _, h => by
    simp only [outline?, Option.bind_eq_bind, Option.bind_eq_some_iff] at h
    obtain ⟨_, _, ⟨⟩⟩ := h
    exact .block
  | .literal span _, _, h => Literal.describes_of_outline? h span
  | .unary _ .neg e, _, h => by
    simp only [outline?, Option.bind_eq_bind, Option.bind_eq_some_iff] at h
    obtain ⟨_, hu, ⟨⟩⟩ := h
    exact .neg (e.describes_of_outline? hu)
  | .binary _ _ l r, _, h => by
    simp only [outline?, Option.bind_eq_bind, Option.bind_eq_some_iff] at h
    obtain ⟨_, hu, _, hv, ⟨⟩⟩ := h
    exact .binary (l.describes_of_outline? hu) (r.describes_of_outline? hv)
  | .grouping _ e, _, h => by
    simp only [outline?, Option.bind_eq_bind, Option.bind_eq_some_iff] at h
    obtain ⟨_, hu, ⟨⟩⟩ := h
    exact .grouping (e.describes_of_outline? hu)
  | .cond _ c t e, _, h => by
    simp only [outline?, Option.bind_eq_bind, Option.bind_eq_some_iff] at h
    obtain ⟨_, hu, _, hv, _, hw, ⟨⟩⟩ := h
    exact .cond (c.describes_of_outline? hu) (t.describes_of_outline? hv) (e.describes_of_outline? hw)

open Eval

theorem Eval.mem_after {α : Type} {r : EvalM δ α} {f : α → List (Visit δ)} {v : Visit δ}
    (h : v ∈ after r f) : ∃ x, v ∈ f x := by
  cases r
  case ok x => exact ⟨x, h⟩
  case error => contradiction

namespace Outline

-- The number of levels that evaluating an outline can take. In `height true` the root belongs to a
-- chain, whose operators take no level of their own.
def height : (inChain : Bool) → Outline → Nat
  | true, .binary _ l r => max (l.height true) (r.height false)
  | false, .binary _ l r => max (l.height true) (r.height false) + 1
  | _, .neg e | _, .grouping e => e.height false + 1
  | _, .cond c t e => max (c.height false) (max (t.height false) (e.height false)) + 1
  | _, .num _ | _, .bool _ | _, .block _ => 1

theorem height_true_le (t : Outline) : t.height true ≤ t.height false := by
  cases t <;> simp [height]

-- Belonging to a chain saves at most one level.
theorem height_false_le (t : Outline) : t.height false ≤ t.height true + 1 := by
  cases t <;> simp [height]

variable {t : Outline} {e : Expr δ} {v : Visit δ} {h : Nat} {b : Bool} {d : Int}

namespace Describes

-- No node that is visited lies above the height of the outline.
theorem height_lt [Provenance δ] (hd : t.Describes e) (hv : v ∈ e.visits b h) : v.height < h + t.height b := by
  induction hd generalizing b h
  case num | bool | block =>
    cases b <;> simp_all [Expr.visits, height]
  case neg ih | grouping ih =>
    simp only [Expr.visits, height, List.mem_cons] at hv ⊢
    cases hv
    case inl hv => simp [hv]
    case inr hv =>
      have := ih hv
      omega
  case binary ihl ihr =>
    -- The operands lie on one level, whether the operator takes a level of its own or not.
    cases b <;> simp only [Expr.visits, height, List.mem_cons, List.mem_append] at hv ⊢
    case false =>
      obtain hv | hv | hv := hv
      · simp [hv]
      · have := ihl hv
        omega
      · obtain ⟨_, hv⟩ := mem_after hv
        have := ihr hv
        omega
    case true =>
      cases hv
      case inl hv =>
        have := ihl hv
        omega
      case inr hv =>
        obtain ⟨_, hv⟩ := mem_after hv
        have := ihr hv
        omega
  case cond ihc ihy ihn =>
    simp only [Expr.visits, height, List.mem_cons, List.mem_append] at hv ⊢
    obtain hv | hv | hv := hv
    · simp [hv]
    · have := ihc hv
      omega
    · obtain ⟨x, hv⟩ := mem_after hv
      split at hv
      · obtain ⟨_, hv⟩ := mem_after hv
        have := ihy hv
        omega
      · obtain ⟨_, hv⟩ := mem_after hv
        have := ihn hv
        omega
      · contradiction

-- With enough levels, the evaluator comes to what a program means.
theorem evaluate_eq {e : Program} (hd : t.Describes e) (hl : t.height false ≤ d) :
    evaluate e d = e.meaning := by
  have hv : ∀ v ∈ e.visits false 1, v.height ≤ d := by
    intro v hv
    have := hd.height_lt hv
    omega
  rw [evaluate_eq_limited, limited_of_forall_le hv]

end Describes

-- How many operators can be nested in an outline before its parts have to be groups.
def tiers : Outline → Nat
  | .binary op _ _ => Expr.atomic - op.precedence
  | _ => 0

theorem tiers_le (h : n ≤ t.precedence) : t.tiers ≤ Expr.atomic - n := by
  cases t
  case binary => exact Nat.sub_le_sub_left h _
  all_goals exact Nat.zero_le _

theorem tiers_le_four (t : Outline) : t.tiers ≤ 4 := by
  cases t
  case binary op _ _ => cases op <;> simp [tiers, BinOp.precedence, Expr.atomic]
  all_goals exact Nat.zero_le _

namespace HasGroups

-- Each level of nesting takes up to five levels of the evaluator: its own and one for each tier of
-- operators, as the right operand of an operator binds more tightly than the operator.
theorem height_le : (t : Outline) → t.HasGroups → (b : Bool) →
    t.height b ≤ 5 * t.nesting + 1 + (t.tiers - b.toNat)
  | .num _, _, _ | .bool _, _, _ | .block _, _, _ => by
    simp only [height]
    omega
  | .neg e, hg, _ => by
    have he := height_le e hg.neg.left false
    have := e.tiers_le_four
    simp only [height, nesting, Bool.toNat_false] at he ⊢
    omega
  | .grouping e, hg, _ => by
    have he := height_le e hg.grouping false
    have := e.tiers_le_four
    simp only [height, nesting, Bool.toNat_false] at he ⊢
    omega
  | .cond c t e, hg, _ => by
    have ⟨hc, ht, he⟩ := hg.cond
    have hc := height_le c hc false
    have ht := height_le t ht false
    have he := height_le e he false
    have := c.tiers_le_four
    have := t.tiers_le_four
    have := e.tiers_le_four
    simp only [height, nesting, Bool.toNat_false] at hc ht he ⊢
    omega
  | .binary op l r, hg, b => by
    have ⟨hl, hlp, hr, hrp⟩ := hg.binary
    have hl := height_le l hl true
    have hr := height_le r hr false
    have hlt := tiers_le hlp
    have hrt := tiers_le (Nat.succ_le_of_lt hrp)
    have hop := precedence_lt_atomic op
    have ht : (Outline.binary op l r).tiers = Expr.atomic - op.precedence := rfl
    cases b <;>
      simp only [height, nesting, Bool.toNat_false, Bool.toNat_true] at hl hr ⊢ <;> omega

theorem height_le_nesting (hg : t.HasGroups) : t.height false ≤ 5 * t.nesting + 5 := by
  have := height_le t hg false
  have := t.tiers_le_four
  omega

end HasGroups
end Outline
end ExprLang
