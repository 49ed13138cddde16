import ExprLang.Language
import ExprLang.Proofs.Eval.Height
import ExprLang.Proofs.Parser.RoundTrip

/-!
The limits of the parser and the evaluator side by side. A program that was parsed within one can be
too deep for the other, unless the evaluator has five levels for each one of the parser and five more.
-/
namespace ExprLang

open Outline

variable {δ : Type}

namespace Eval

-- No limit was exceeded.
def Shallow (r : EvalM δ Value) : Prop :=
  ∀ span limit, r ≠ fail span (.tooDeep limit)

namespace Shallow

theorem ok (v : Value) : Shallow (δ := δ) (.ok v) :=
  fun _ _ h => nomatch h

theorem fail {span : Span} {cause : EvalError.Cause} (h : ∀ limit, cause ≠ .tooDeep limit) :
    Shallow (δ := δ) (fail span cause) := by
  exact fun _ limit hf => h limit (fail_inj.mp hf).right

theorem bind {r : EvalM δ Value} {f : Value → EvalM δ Value} (hr : Shallow r)
    (hf : ∀ v, Shallow (f v)) : Shallow (r >>= f) := by
  cases r
  case ok v => exact hf v
  case error => exact hr

theorem int32 (span : Span) (n : Int) : Shallow (δ := δ) (int32 span n) := by
  simp only [Eval.int32]
  split
  · exact .ok _
  · exact .fail (by simp)

end Shallow

-- The limit plays no part in what expressions mean.
theorem shallow_meaning_op (op : BinOp) (span left right : Span) (a b : Value) :
    Shallow (δ := δ) (op.meaning span left right a b) := by
  cases a <;> cases b <;> simp only [BinOp.meaning]
  case num.num =>
    cases op <;> simp only [BinOp.onNumbers]
    case add | sub | mul => exact .int32 _ _
    case div =>
      split
      · exact .fail (by simp)
      · exact .int32 _ _
    all_goals exact .ok _
  case bool.bool =>
    split
    · exact .ok _
    · exact .fail (by simp)
  case num.bool | bool.num => split <;> exact .fail (by simp)

theorem shallow_meaning : (e : Program) → Shallow e.meaning
  | .literal _ _ => .ok _
  | .unary _ .neg e => by
    refine (shallow_meaning e).bind fun v => ?_
    cases v
    case num => exact .int32 _ _
    case bool => exact .fail (by simp)
  | .binary _ op l r =>
    (shallow_meaning l).bind fun a => (shallow_meaning r).bind fun b =>
      shallow_meaning_op op _ _ _ a b
  | .grouping _ e => shallow_meaning e
  | .cond _ c t e => by
    refine (shallow_meaning c).bind fun v => ?_
    split
    · exact shallow_meaning t
    · exact shallow_meaning e
    · exact .fail (by simp)
  | .block .. => .fail (by simp)

end Eval

open Eval

variable {src : Text} {i j : Interner} {d m : Int} {e : Program}

theorem runWithin_of_parse (h : parse src .empty d = (.ok e, j)) :
    runWithin src d m = (evaluate e m).mapError .evaluation := by
  simp only [runWithin, h]
  rfl

theorem exists_parse_of_runWithin {f : EvalFailure Empty}
    (h : runWithin src d m = .error (.evaluation f)) : ∃ e j, parse src .empty d = (.ok e, j) := by
  cases hp : parse src .empty d with
  | mk x j =>
    cases x
    case ok e => exact ⟨e, j, rfl⟩
    case error =>
      simp only [runWithin, hp] at h
      cases h

-- A tree that was parsed is not higher than its levels of nesting allow.
theorem shallow_evaluate_of_parse (hi : i.Valid) (h : parse src i d = (.ok e, j))
    (hm : 5 * max d 0 + 5 ≤ m) : Shallow (evaluate e m) := by
  have ⟨t, ht, hn, hf⟩ := exists_outline_of_parse hi h
  have hg : t.HasGroups := hf.grouped_eq
  have hd := e.describes_of_outline? ht
  have hh := hg.height_le_nesting
  rw [hd.evaluate_eq (by omega)]
  exact shallow_meaning e

namespace Outline

-- An operand behind one operator of each tier.
def behindTiers (e : Outline) : Outline :=
  .binary .eq (.num 1) (.binary .lt (.num 1) (.binary .add (.num 1) (.binary .mul (.num 1) e)))

-- As many operators as fit into `n` levels of nesting, each to the right of the one before.
def tower : Nat → Outline
  | 0 => behindTiers (.num 1)
  | n + 1 => behindTiers (.grouping (tower n))

theorem nesting_tower (n : Nat) : (tower n).nesting = n := by
  induction n
  case zero => rfl
  case succ n ih => simp [tower, behindTiers, nesting, ih]

theorem isWritable_tower (n : Nat) : (tower n).isWritable := by
  induction n
  case zero => rfl
  case succ n ih => simp [tower, behindTiers, isWritable, ih, SyntaxError.maxLiteral]

theorem hasGroups_tower (n : Nat) : (tower n).HasGroups := by
  induction n
  case zero => rfl
  case succ n ih =>
    have hg : (tower n).grouped = tower n := ih
    simp [HasGroups, tower, behindTiers, grouped, groupedIf, precedence, BinOp.precedence,
      Expr.atomic, hg]

end Outline

-- The text of a tower.
def towerText : Nat → Text
  | 0 => "1 == 1 < 1 + 1 * 1"
  | n + 1 => "1 == 1 < 1 + 1 * (" ++ towerText n ++ ")"

theorem Outline.text_tower (n : Nat) : (tower n).text = towerText n := by
  induction n
  case zero => decide
  case succ n ih =>
    rw [towerText, ←ih]
    rfl

namespace Outline

variable {t u : Outline} {op : BinOp} {e : Program} {h height n : Nat}

-- A node of a certain height is visited.
def Visited (height h : Nat) (e : Program) : Prop :=
  ∃ v ∈ e.visits false h, v.height = height

-- Behind a number, the right operand of an operator is visited before the operator is applied.
theorem Visited.right (hd : (Outline.binary op (.num k) u).Describes e)
    (hr : ∀ r : Program, u.Describes r → Visited height (h + 1) r) : Visited height h e := by
  cases hd
  case binary hl hu =>
    cases hl
    case num hv =>
      have ⟨v, hmem, hh⟩ := hr _ hu
      refine ⟨v, List.mem_cons_of_mem _ (List.mem_append_right _ ?_), hh⟩
      rw [Expr.meaning, hv]
      exact hmem

theorem Visited.behindTiers (hd : u.behindTiers.Describes e)
    (hr : ∀ r : Program, u.Describes r → Visited height (h + 4) r) : Visited height h e :=
  .right hd fun _ hd => .right hd fun _ hd => .right hd fun _ hd => .right hd hr

-- All of a tower is visited.
theorem visited_tower (hd : (tower n).Describes e) : Visited (h + 5 * n + 4) h e := by
  induction n generalizing e h
  case zero =>
    refine Visited.behindTiers hd fun r hr => ?_
    cases hr
    exact ⟨_, .head _, rfl⟩
  case succ n ih =>
    refine Visited.behindTiers hd fun r hr => ?_
    cases hr
    case grouping hr =>
      have ⟨v, hmem, hh⟩ := ih (h := h + 5) hr
      refine ⟨v, .tail _ hmem, ?_⟩
      omega

end Outline

-- A tower is parsed within its nesting, and too deep for less than five levels for each of it and five
-- more.
theorem evaluate_towerText {n : Nat} (hd : n ≤ d.toNat) (hm : m < 5 * n + 5) :
    ∃ e j span, parse (towerText n) .empty d = (.ok e, j) ∧ evaluate e m = fail span (.tooDeep m) := by
  have hg : (tower n).grouped = tower n := hasGroups_tower n
  have hn : (tower n).grouped.nesting ≤ d.toNat := by
    rw [hg, nesting_tower]
    exact hd
  have ⟨e, j, hp, ht, _⟩ := parse_text (isWritable_tower n) hn
  rw [hg] at ht
  rw [text_tower] at hp
  have hde := e.describes_of_outline? ht
  have ⟨v, hv, hh⟩ := visited_tower (h := 1) hde
  have hr := evaluate_eq_limited e m
  cases hf : (e.visits false 1).find? (m < ·.height)
  case none =>
    have := find?_eq_none_iff.mp hf v hv
    omega
  case some v' =>
    rw [limited, hf] at hr
    exact ⟨e, j, v'.node.span, hp, hr⟩

theorem runWithin_towerText {n : Nat} (hd : n ≤ d.toNat) (hm : m < 5 * n + 5) :
    ∃ span, runWithin (towerText n) d m = .error (.evaluation (.ofFault ⟨span, .tooDeep m⟩)) := by
  have ⟨e, j, span, hp, he⟩ := evaluate_towerText hd hm
  exact ⟨span, by rw [runWithin_of_parse hp, he]; rfl⟩

-- What was parsed within a limit is never too deep for the evaluator if and only if the evaluator has
-- five levels for each level of the parser, and five more.
theorem runWithin_ne_tooDeep_iff (d m : Int) :
    (∀ src span limit, runWithin src d m ≠ .error (.evaluation (.ofFault ⟨span, .tooDeep limit⟩))) ↔
      5 * max d 0 + 5 ≤ m := by
  constructor
  case mp =>
    intro h
    by_contra hm
    have ⟨span, hs⟩ := runWithin_towerText (d := d) (m := m) (Nat.le_refl _) (by omega)
    exact h _ span m hs
  case mpr =>
    intro hm src span limit h
    have ⟨e, j, hp⟩ := exists_parse_of_runWithin h
    rw [runWithin_of_parse hp] at h
    cases he : evaluate e m
    case ok => simp [he, Except.mapError] at h
    case error f =>
      simp only [he, Except.mapError, Except.error.injEq, RunFailure.evaluation.injEq] at h
      subst h
      exact shallow_evaluate_of_parse .empty hp hm span limit he

-- The usual limits are 64 and 256, which leaves the evaluator too few levels.
theorem run_towerText_tooDeep :
    ∃ span, run (towerText 51) = .error (.evaluation (.fault ⟨span, .tooDeep 256⟩)) := by
  have ⟨span, h⟩ : ∃ span, run (towerText 51) = _ := runWithin_towerText (by decide) (by decide)
  have hw : (⟨span, .tooDeep defaultEvalDepth⟩ : EvalError).isWritable :=
    Text.isWritable_of_natAbs_lt (by decide)
  rw [EvalFailure.ofFault_of_isWritable hw] at h
  exact ⟨span, h⟩

-- Five levels for each level of the parser and five more are enough for the evaluator, whatever the
-- source, and there is always a source for which one less is too few.
theorem evaluate_levels_tight (d : Nat) :
    (∀ src i e j, Interner.Reachable i → parse src i d = (.ok e, j) → ∀ m : Int, 5 * d + 5 ≤ m →
      ∀ span limit, evaluate e m ≠ .error (.ofFault ⟨span, .tooDeep limit⟩)) ∧
    ∃ src e j span, parse src .empty d = (.ok e, j) ∧
      evaluate e (5 * d + 4) = .error (.ofFault ⟨span, .tooDeep (5 * d + 4)⟩) := by
  constructor
  case left =>
    intro src i e j hi h m hm
    exact shallow_evaluate_of_parse hi.valid h (by omega)
  case right => exact ⟨_, evaluate_towerText (Int.toNat_natCast d).ge (by omega)⟩

-- A group and a product as operands of a sum.
theorem evaluate_levels_tight_sum :
    ∃ e j, parse "(1+2*3)+4*5" .empty 1 = (.ok e, j) ∧
      ∀ span limit, evaluate e 10 ≠ .error (.ofFault ⟨span, .tooDeep limit⟩) := by
  have ho : (outlineOf? "(1+2*3)+4*5" .empty 1).isSome := by cbv
  obtain ⟨t, ht⟩ := Option.isSome_iff_exists.mp ho
  obtain ⟨e, j, hp, _⟩ := outlineOf?_eq_some_iff.mp ht
  exact ⟨e, j, hp, (evaluate_levels_tight 1).left _ _ e j .empty hp 10 (by decide)⟩

end ExprLang
