namespace ExprLang

-- A source of random choices with states of type `σ`.
class Chance (σ : Type) where
  -- A number in the unit interval.
  uniform : StateM σ Float
  -- A natural number below `n`.
  below (n : Nat) (h : 0 < n) : StateM σ (Fin n)

namespace Chance

variable {σ : Type} [Chance σ]

-- A natural number from `a` to `a + n`.
def between (a n : Nat) : StateM σ Nat :=
  return a + (← below (n + 1) n.succ_pos).val

-- A member of a list that is not empty.
def pick (xs : List α) (h : xs ≠ []) : StateM σ α :=
  return xs.get (← below xs.length (List.length_pos_iff.mpr h))

end Chance

end ExprLang
