import ExprLang.Proofs.Symbol.Growth

/-!
Which handles have a text. From zero on these are the members. Below zero no handle is a member, but those
that count from the last text have one.
-/
namespace ExprLang.Interner

variable {i : Interner} {history : List Text} {s : Symbol} {t : Text}

theorem contains_iff : i.contains s ↔ 0 ≤ s.id ∧ s.id < i.size := by
  simp [contains]

-- A handle below zero is looked up as the one that is as far from zero as it is from the end.
theorem lookup?_of_neg (h : s.id < 0) :
    i.lookup? s = if -(i.size : Int) ≤ s.id then i.lookup? ⟨s.id + i.size⟩ else none := by
  simp only [lookup?, h, if_true]
  split
  case isTrue hs =>
    have hn : ¬s.id + i.size < 0 := by omega
    simp [hn]
  case isFalse hs =>
    have hn : ¬0 ≤ s.id + i.size := by omega
    simp [guard, hn]

theorem lookup?_after_of_nonneg {id : Int} (h : 0 ≤ id) :
    (after history).lookup? ⟨id⟩ = (accepted history)[id.toNat]? := by
  rw [←lookup?_after, Int.toNat_of_nonneg h]

-- The texts behind the handles from zero on, and once more behind those that end before zero.
theorem lookup?_after_eq_some_iff : (after history).lookup? s = some t ↔
    ∃ n : Nat, (accepted history)[n]? = some t ∧ (s.id = n ∨ s.id = n - (after history).size) := by
  have hsize := size_after history
  have lt {n : Nat} (h : (accepted history)[n]? = some t) : n < (accepted history).length :=
    (List.getElem?_eq_some_iff.mp h).choose
  by_cases h : s.id < 0
  case neg =>
    rw [lookup?_after_of_nonneg (Int.not_lt.mp h)]
    constructor
    · exact fun ht => ⟨_, ht, .inl (by omega)⟩
    · intro ⟨n, hn, hs⟩
      have := lt hn
      have he : s.id.toNat = n := by omega
      exact he ▸ hn
  case pos =>
    rw [lookup?_of_neg h]
    split
    case isTrue hs =>
      rw [lookup?_after_of_nonneg (by omega)]
      constructor
      · exact fun ht => ⟨_, ht, .inr (by omega)⟩
      · intro ⟨n, hn, hs⟩
        have he : (s.id + (after history).size).toNat = n := by omega
        exact he ▸ hn
    case isFalse hs =>
      refine ⟨nofun, fun ⟨n, _, hn⟩ => ?_⟩
      omega

theorem isSome_lookup?_after : ((after history).lookup? s).isSome ↔
    -((after history).size : Int) ≤ s.id ∧ s.id < (after history).size := by
  have hsize := size_after history
  rw [Option.isSome_iff_exists]
  simp only [lookup?_after_eq_some_iff]
  constructor
  · intro ⟨t, n, hn, hs⟩
    have hn := (List.getElem?_eq_some_iff.mp hn).choose
    omega
  · intro ⟨hl, hu⟩
    have place (n : Nat) (h : n < (accepted history).length) :
        ∃ t, (accepted history)[n]? = some t := ⟨_, List.getElem?_eq_getElem h⟩
    by_cases h : s.id < 0
    case neg =>
      have ⟨t, ht⟩ := place s.id.toNat (by omega)
      exact ⟨t, _, ht, .inl (by omega)⟩
    case pos =>
      have ⟨t, ht⟩ := place (s.id + (after history).size).toNat (by omega)
      exact ⟨t, _, ht, .inr (by omega)⟩

-- Whatever was presented to an interner, looking up and membership differ for the handles just below
-- zero, one for each text, which have a text without being members.
theorem lookup?_agrees_iff (history : List Text) (s : Symbol) :
    let i := after history
    (i.contains s ↔ 0 ≤ s.id ∧ s.id < i.size) ∧
    (∀ t, i.lookup? s = some t ↔
      ∃ n : Nat, (accepted history)[n]? = some t ∧ (s.id = n ∨ s.id = n - i.size)) ∧
    (((i.lookup? s).isSome ↔ i.contains s) ↔ ¬(-(i.size : Int) ≤ s.id ∧ s.id < 0)) := by
  refine ⟨contains_iff, fun _ => lookup?_after_eq_some_iff, ?_⟩
  rw [isSome_lookup?_after, contains_iff]
  omega

-- The last text is found below zero, where no member is.
theorem lookup?_below_zero :
    (after ["a"]).lookup? ⟨-1⟩ = some "a" ∧ (after ["a"]).contains ⟨-1⟩ = false := by
  constructor <;> cbv

end ExprLang.Interner
