import ExprLang.Proofs.Tree.Words

/-!
Outlines with all their groups, as the parser makes them: none of their parts needs parentheses, so
that their words and their text are those of their parts in order.
-/
namespace ExprLang.Outline

open Token Word

-- Each pair of parentheses in the text of the outline is one of its groups.
def HasGroups (e : Outline) : Prop :=
  e.grouped = e

variable {c e l r t : Outline} {op : BinOp}

-- A part that is put into parentheses by some rule, which spares groups, is spared as well.
theorem hasGroups_of_groupedIf (rule : Outline → Bool) (hg : ∀ e, rule (.grouping e) = false)
    (h : groupedIf (rule e) e.grouped = e) : e.HasGroups ∧ rule e = false := by
  cases hr : rule e
  case false =>
    rw [hr] at h
    exact ⟨h, rfl⟩
  case true =>
    rw [hr] at h
    have := hg e.grouped
    rw [show Outline.grouping e.grouped = e from h, hr] at this
    contradiction

theorem precedence_lt_atomic (op : BinOp) : op.precedence < Expr.atomic := by
  cases op <;> decide

namespace HasGroups

theorem neg (h : (neg e).HasGroups) : e.HasGroups ∧ Expr.atomic ≤ e.precedence ∧ e.isNeg = false := by
  have ⟨he, hr⟩ := hasGroups_of_groupedIf (fun e => e.precedence < Expr.atomic || e.isNeg)
    (fun _ => rfl) (Outline.neg.inj h)
  simp only [Bool.or_eq_false_iff, decide_eq_false_iff_not, Nat.not_lt] at hr
  exact ⟨he, hr⟩

theorem binary (h : (binary op l r).HasGroups) :
    l.HasGroups ∧ op.precedence ≤ l.precedence ∧ r.HasGroups ∧ op.precedence < r.precedence := by
  have ha := precedence_lt_atomic op
  have ⟨_, hl, hr⟩ := Outline.binary.inj h
  have ⟨hl, hlp⟩ := hasGroups_of_groupedIf (fun e => e.precedence < op.precedence)
    (fun _ => decide_eq_false (Nat.lt_asymm ha)) hl
  have ⟨hr, hrp⟩ := hasGroups_of_groupedIf (fun e => e.precedence ≤ op.precedence)
    (fun _ => decide_eq_false (Nat.not_le.mpr ha)) hr
  exact ⟨hl, Nat.not_lt.mp (of_decide_eq_false hlp), hr, Nat.not_le.mp (of_decide_eq_false hrp)⟩

theorem grouping (h : (grouping e).HasGroups) : e.HasGroups :=
  Outline.grouping.inj h

theorem cond (h : (cond c t e).HasGroups) : c.HasGroups ∧ t.HasGroups ∧ e.HasGroups :=
  Outline.cond.inj h

theorem words_neg (h : (Outline.neg e).HasGroups) :
    (Outline.neg e).words = fixed .minus :: e.words := by
  have ⟨_, hp, hn⟩ := h.neg
  simp [words, Nat.not_lt.mpr hp, hn, bracketedIf]

theorem words_binary (h : (Outline.binary op l r).HasGroups) :
    (Outline.binary op l r).words = l.words ++ fixed op.kind :: r.words := by
  have ⟨_, hl, _, hr⟩ := h.binary
  simp [words, Nat.not_lt.mpr hl, Nat.not_le.mpr hr, bracketedIf]

theorem text_neg (h : (Outline.neg e).HasGroups) : (Outline.neg e).text = "-" ++ e.text := by
  have ⟨_, hp, hn⟩ := h.neg
  simp [text, Nat.not_lt.mpr hp, hn, Text.parenthesizedIf]

theorem text_binary (h : (Outline.binary op l r).HasGroups) :
    (Outline.binary op l r).text = l.text ++ (s!" {op.spelling} " ++ r.text) := by
  have ⟨_, hl, _, hr⟩ := h.binary
  simp [text, Nat.not_lt.mpr hl, Nat.not_le.mpr hr, Text.parenthesizedIf]

end HasGroups
end ExprLang.Outline
