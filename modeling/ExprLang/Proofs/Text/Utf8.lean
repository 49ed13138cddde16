import ExprLang.Proofs.Text.Ascii

/-!
Decoding undoes encoding: the bytes of a code point are one sequence, whatever follows them. A
surrogate comes back where it is allowed.
-/
namespace ExprLang

variable {s : Utf8.Surrogates} {c : CodePoint} {t : Text}

-- Whether a code point can stand in bytes.
def Utf8.Surrogates.admits (s : Surrogates) (c : CodePoint) : Prop :=
  s = .allowed ∨ c.isSurrogate = false

namespace Utf8

theorem toNat_ofNat {n : Nat} (h : n < 256) : (UInt8.ofNat n).toNat = n := by
  rw [UInt8.toNat_ofNat']
  exact Nat.mod_eq_of_lt h

-- The bytes behind the first one of a sequence.
def tail (n : Nat) : UInt8 :=
  .ofNat (0x80 + n % 0x40)

theorem toNat_tail (n : Nat) : (tail n).toNat = 0x80 + n % 0x40 :=
  toNat_ofNat (by omega)

theorem isTail_tail (n : Nat) : isTail (tail n) := by
  simp only [isTail, Bool.and_eq_true, decide_eq_true_eq, UInt8.le_iff_toNat_le, toNat_tail]
  constructor
  case left => exact Nat.le_add_right _ _
  case right =>
    have : n % 0x40 < 0x40 := Nat.mod_lt _ (by decide)
    show 0x80 + n % 0x40 ≤ 0xBF
    omega

end Utf8

namespace CodePoint

open Utf8

theorem encode_cases (c : CodePoint) :
    (c.val < 0x80 ∧ c.encode = [.ofNat c.val]) ∨
    (0x80 ≤ c.val ∧ c.val < 0x800 ∧ c.encode = [.ofNat (0xC0 + c.val / 0x40), tail c.val]) ∨
    (0x800 ≤ c.val ∧ c.val < 0x10000 ∧
      c.encode = [.ofNat (0xE0 + c.val / 0x1000), tail (c.val / 0x40), tail c.val]) ∨
    (0x10000 ≤ c.val ∧ c.encode =
      [.ofNat (0xF0 + c.val / 0x40000), tail (c.val / 0x1000), tail (c.val / 0x40), tail c.val]) := by
  simp only [encode, tail]
  split
  case isTrue h => exact .inl ⟨h, rfl⟩
  split
  case isTrue h₁ h₂ => exact .inr (.inl ⟨by omega, h₂, rfl⟩)
  split
  case isTrue h₂ h₃ => exact .inr (.inr (.inl ⟨by omega, h₃, rfl⟩))
  case isFalse h₃ => exact .inr (.inr (.inr ⟨by omega, rfl⟩))

theorem ofSequence_eq {bits : Nat} {bs : Bytes}
    (h : bs.foldl (fun n b => n * 0x40 + b.toNat % 0x40) bits = c.val) : ofSequence bits bs = c := by
  refine Fin.ext ?_
  rw [ofSequence, h]
  exact Nat.mod_eq_of_lt c.isLt

end CodePoint

namespace Utf8

section

variable {a b c d : UInt8} {i : Nat} {r : Bytes}

-- What may come second depends on the first byte in four cases only.
theorem isSecond_iff :
    isSecond s a b ↔ isTail b ∧ (a.toNat = 0xE0 → 0xA0 ≤ b.toNat) ∧
      (a.toNat = 0xED → b.toNat ≤ 0x9F ∨ s = .allowed) ∧ (a.toNat = 0xF0 → 0x90 ≤ b.toNat) ∧
      (a.toNat = 0xF4 → b.toNat ≤ 0x8F) := by
  simp only [isSecond, Bool.and_eq_true, Bool.or_eq_true, bne_iff_ne, decide_eq_true_eq, ne_eq,
    UInt8.le_iff_toNat_le, ←UInt8.toNat_inj, UInt8.reduceToNat]
  grind

-- The first byte of a longer sequence.
theorem not_single (ha : 0xC2 ≤ a.toNat) (ha' : a.toNat ≤ 0xF4) :
    ¬a < 0x80 ∧ ¬(a < 0xC2 ∨ 0xF4 < a) := by
  simp only [UInt8.lt_iff_toNat_lt, UInt8.reduceToNat]
  omega

theorem decodeFrom_one (ha : a.toNat < 0x80) :
    decodeFrom s i (a :: r) = (.ofByte a :: ·) <$> decodeFrom s (i + 1) r := by
  have ha : a < 0x80 := UInt8.lt_iff_toNat_lt.mpr ha
  rw [decodeFrom.eq_def]
  simp [ha]

theorem decodeFrom_two (ha : 0xC2 ≤ a.toNat) (ha' : a.toNat < 0xE0) (hb : isSecond s a b) :
    decodeFrom s i (a :: b :: r) =
      (.ofSequence (a.toNat - 0xC0) [b] :: ·) <$> decodeFrom s (i + 2) r := by
  have ⟨h₁, h₂⟩ := not_single ha (by omega)
  have h₃ : a < 0xE0 := UInt8.lt_iff_toNat_lt.mpr ha'
  rw [decodeFrom.eq_def]
  simp [h₁, h₂, h₃, hb]

theorem decodeFrom_three (ha : 0xE0 ≤ a.toNat) (ha' : a.toNat < 0xF0) (hb : isSecond s a b)
    (hc : isTail c) :
    decodeFrom s i (a :: b :: c :: r) =
      (.ofSequence (a.toNat - 0xE0) [b, c] :: ·) <$> decodeFrom s (i + 3) r := by
  have ⟨h₁, h₂⟩ := not_single (a := a) (by omega) (by omega)
  have h₃ : ¬a < 0xE0 := mt UInt8.lt_iff_toNat_lt.mp (Nat.not_lt.mpr ha)
  have h₄ : a < 0xF0 := UInt8.lt_iff_toNat_lt.mpr ha'
  rw [decodeFrom.eq_def]
  simp [h₁, h₂, h₃, h₄, hb, hc]

theorem decodeFrom_four (ha : 0xF0 ≤ a.toNat) (ha' : a.toNat ≤ 0xF4) (hb : isSecond s a b)
    (hc : isTail c) (hd : isTail d) :
    decodeFrom s i (a :: b :: c :: d :: r) =
      (.ofSequence (a.toNat - 0xF0) [b, c, d] :: ·) <$> decodeFrom s (i + 4) r := by
  have ⟨h₁, h₂⟩ := not_single (a := a) (by omega) ha'
  have h₃ : ¬a < 0xE0 := mt UInt8.lt_iff_toNat_lt.mp (Nat.not_lt.mpr (Nat.le_trans (by decide) ha))
  have h₄ : ¬a < 0xF0 := mt UInt8.lt_iff_toNat_lt.mp (Nat.not_lt.mpr ha)
  rw [decodeFrom.eq_def]
  simp [h₁, h₂, h₃, h₄, hb, hc, hd]

end

theorem decodeFrom_encode_append (h : s.admits c) (i : Nat) (r : Bytes) :
    decodeFrom s i (c.encode ++ r) = (c :: ·) <$> decodeFrom s (i + c.encode.length) r := by
  have hlt := c.isLt
  have hs : s = .allowed ∨ ¬(0xD800 ≤ c.val ∧ c.val ≤ 0xDFFF) := by
    simpa [Surrogates.admits, CodePoint.isSurrogate] using h
  obtain ⟨h₁, he⟩ | ⟨h₁, h₂, he⟩ | ⟨h₁, h₂, he⟩ | ⟨h₁, he⟩ := c.encode_cases <;> rw [he]
  · have hn : (UInt8.ofNat c.val).toNat = c.val := toNat_ofNat (by omega)
    refine (decodeFrom_one (hn.symm ▸ h₁)).trans ?_
    rw [Text.ofByte_ofNat h₁]
    rfl
  · have hn : (UInt8.ofNat (0xC0 + c.val / 0x40)).toNat = 0xC0 + c.val / 0x40 := toNat_ofNat (by omega)
    have hb : isSecond s (.ofNat (0xC0 + c.val / 0x40)) (tail c.val) := by
      rw [isSecond_iff, hn]
      exact ⟨isTail_tail _, by omega, by omega, by omega, by omega⟩
    refine (decodeFrom_two (by omega) (by omega) hb).trans ?_
    rw [CodePoint.ofSequence_eq (c := c)]
    · rfl
    · simp only [List.foldl_cons, List.foldl_nil, hn, toNat_tail]
      omega
  · have hn : (UInt8.ofNat (0xE0 + c.val / 0x1000)).toNat = 0xE0 + c.val / 0x1000 :=
      toNat_ofNat (by omega)
    have hb : isSecond s (.ofNat (0xE0 + c.val / 0x1000)) (tail (c.val / 0x40)) := by
      rw [isSecond_iff, hn, toNat_tail]
      refine ⟨isTail_tail _, by omega, fun hd => ?_, by omega, by omega⟩
      exact hs.symm.imp_left fun hs => by omega
    refine (decodeFrom_three (by omega) (by omega) hb (isTail_tail _)).trans ?_
    rw [CodePoint.ofSequence_eq (c := c)]
    · rfl
    · simp only [List.foldl_cons, List.foldl_nil, hn, toNat_tail]
      omega
  · have hn : (UInt8.ofNat (0xF0 + c.val / 0x40000)).toNat = 0xF0 + c.val / 0x40000 :=
      toNat_ofNat (by omega)
    have hb : isSecond s (.ofNat (0xF0 + c.val / 0x40000)) (tail (c.val / 0x1000)) := by
      rw [isSecond_iff, hn, toNat_tail]
      exact ⟨isTail_tail _, by omega, by omega, by omega, by omega⟩
    refine (decodeFrom_four (by omega) (by omega) hb (isTail_tail _) (isTail_tail _)).trans ?_
    rw [CodePoint.ofSequence_eq (c := c)]
    · rfl
    · simp only [List.foldl_cons, List.foldl_nil, hn, toNat_tail]
      omega

-- By induction on the text, each code point of which is taken off as a whole.
theorem decodeFrom_encode (h : ∀ c ∈ t, s.admits c) (i : Nat) : decodeFrom s i t.encode = .ok t := by
  induction t generalizing i
  case nil => rfl
  case cons c t hi =>
    have hc : Text.encode (c :: t) = c.encode ++ Text.encode t := rfl
    rw [hc, decodeFrom_encode_append (h c (.head _)), hi fun c hm => h c (.tail _ hm)]
    rfl

theorem decode_encode (h : ∀ c ∈ t, s.admits c) : decode s t.encode = .ok t :=
  decodeFrom_encode h 0

end Utf8

namespace Text

-- Whether a text is free of surrogates.
def isEncodable (t : Text) : Bool :=
  t.all (!·.isSurrogate)

theorem surrogatesFrom_eq_none_iff {i : Nat} : t.surrogatesFrom i = none ↔ t.isEncodable := by
  induction t generalizing i
  case nil => simp [surrogatesFrom, isEncodable]
  case cons c t hi =>
    simp only [isEncodable, List.all_cons] at hi ⊢
    cases hc : c.isSurrogate
    case false => simp [surrogatesFrom, hc, hi]
    case true => simp [surrogatesFrom, hc]

theorem isEncodable_of_isAscii (h : t.isAscii) : t.isEncodable := by
  simp only [isEncodable, isAscii, List.all_eq_true, decide_eq_true_eq] at h ⊢
  intro c hc
  have := h c hc
  simp only [CodePoint.isSurrogate, Bool.not_eq_true', Bool.and_eq_false_iff, decide_eq_false_iff_not]
  omega

-- The bytes of such a text can be decoded even where surrogates are refused.
theorem decode_encode_strict (h : t.isEncodable) : Utf8.decode .refused t.encode = .ok t := by
  refine Utf8.decode_encode fun c hc => .inr ?_
  simpa using List.all_eq_true.mp h c hc

theorem decode_ascii {bs : Bytes} (h : ∀ b ∈ bs, b < 0x80) :
    Utf8.decode .allowed bs = .ok (.ofAscii bs) := by
  have hd := Utf8.decode_encode (s := .allowed) (t := .ofAscii bs) fun _ _ => .inl rfl
  rwa [encode_ofAscii h] at hd

end Text
end ExprLang
