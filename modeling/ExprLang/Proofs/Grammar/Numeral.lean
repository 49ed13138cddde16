import ExprLang.Proofs.Grammar.Derivation
import ExprLang.SyntaxError

/-!
Numerals: the number that the digits of a word are read as, and the digits that a number is written
with.
-/
namespace ExprLang

open Token

theorem CodePoint.digit?_ofByte {b : UInt8} (h : isDigit b) :
    (ofByte b).digit? = some (b.toNat - 0x30) ∧ (ofByte b).val ≠ 0x5F := by
  have table : ∀ b : UInt8, isDigit b →
      (ofByte b).digit? = some (b.toNat - 0x30) ∧ (ofByte b).val ≠ 0x5F :=
    forall_byte (by decide +kernel)
  exact table b h

namespace Text

theorem digits?_ofAscii : (ds : Bytes) → ds ≠ [] → (∀ b ∈ ds, isDigit b) →
    (ofAscii ds).digits? = some (ds.map fun b => b.toNat - 0x30)
  | [], h, _ => absurd rfl h
  | [b], _, hd => by
    have ⟨hb, _⟩ := CodePoint.digit?_ofByte (hd b (.head _))
    simp [ofAscii, digits?, hb]
  | b :: c :: ds, _, hd => by
    have ⟨hb, _⟩ := CodePoint.digit?_ofByte (hd b (.head _))
    have ⟨_, hc⟩ := CodePoint.digit?_ofByte (hd c (.tail _ (.head _)))
    have ih := digits?_ofAscii (c :: ds) (List.cons_ne_nil _ _) fun b hb => hd b (.tail _ hb)
    simp only [ofAscii, List.map_cons] at ih ⊢
    simp [digits?, hb, hc, ih]

theorem numeral?_ofAscii {ds : Bytes} (h : Kind.isNumeral ds) :
    (ofAscii ds).numeral? =
      if ds.length ≤ maxDigits then .ok (Word.decimal ds) else .error (.tooLong ds.length) := by
  simp only [Kind.isNumeral, Bool.and_eq_true, Bool.not_eq_true', List.isEmpty_eq_false_iff,
    List.all_eq_true] at h
  simp [numeral?, digits?_ofAscii ds h.left h.right, Word.decimal]

end Text

namespace Word

-- Numbers are not too long to be read, nor too large.
def InRange (w : Word) : Prop :=
  w.kind = .number → w.text.length ≤ Text.maxDigits ∧ decimal w.text ≤ SyntaxError.maxLiteral

theorem InRange.of_kind {w : Word} (h : w.kind ≠ .number) : w.InRange :=
  fun h' => absurd h' h

-- The digits of a number.
def digits (n : Nat) : Bytes :=
  (Nat.toDigits 10 n).map Char.toUInt8

-- A decimal digit is its own byte.
theorem toNat_toUInt8_digit {n : Nat} {c : Char} (h : c ∈ Nat.toDigits 10 n) :
    c.toUInt8.toNat = c.toNat ∧ 0x30 ≤ c.toNat ∧ c.toNat ≤ 0x39 := by
  have hd := Nat.isDigit_of_mem_toDigits (by decide) (by decide) h
  simp only [Char.isDigit, Bool.and_eq_true, decide_eq_true_eq, UInt32.le_iff_toNat_le] at hd
  have hc : 0x30 ≤ c.toNat ∧ c.toNat ≤ 0x39 := hd
  refine ⟨?_, hc⟩
  show c.toNat % 256 = c.toNat
  omega

theorem ofAscii_digits (n : Nat) : Text.ofAscii (digits n) = (toString (n : Int) : String) := by
  have hs : toString (n : Int) = n.repr := rfl
  rw [hs, Text.ofString, Nat.toList_repr, Text.ofAscii, digits, List.map_map]
  refine List.map_congr_left fun c hc => Fin.ext ?_
  exact (toNat_toUInt8_digit hc).left

theorem digits_ascii {n : Nat} {b : UInt8} (h : b ∈ digits n) : b < 0x80 := by
  have ⟨c, hc, hb⟩ := List.mem_map.mp h
  have ⟨hn, _, hl⟩ := toNat_toUInt8_digit hc
  rw [←hb, UInt8.lt_iff_toNat_lt, hn]
  exact Nat.lt_of_le_of_lt hl (by decide)

theorem isNumeral_digits (n : Nat) : Kind.isNumeral (digits n) := by
  simp only [Kind.isNumeral, digits, Bool.and_eq_true, Bool.not_eq_true', List.isEmpty_eq_false_iff,
    List.all_eq_true, List.mem_map, ne_eq, List.map_eq_nil_iff]
  refine ⟨Nat.toDigits_ne_nil, ?_⟩
  rintro _ ⟨c, hc, rfl⟩
  obtain ⟨hn, hc⟩ := toNat_toUInt8_digit hc
  simp only [isDigit, Bool.and_eq_true, decide_eq_true_eq, UInt8.le_iff_toNat_le, hn]
  exact hc

theorem decimal_digits (n : Nat) : decimal (digits n) = n := by
  have hf : ∀ (cs : List Char) (m : Nat), (∀ c ∈ cs, c.toUInt8.toNat = c.toNat) →
      cs.foldl (fun m c => m * 10 + (c.toUInt8.toNat - 0x30)) m = Nat.ofDigitChars 10 cs m := by
    intro cs
    induction cs with
    | nil => simp
    | cons c cs ih =>
      intro m hc
      rw [List.foldl_cons, Nat.ofDigitChars_cons, hc c (.head _), Nat.mul_comm]
      exact ih _ fun c h => hc c (.tail _ h)
  simp only [decimal, digits, Text.ofDigits, List.map_map, List.foldl_map, Function.comp_apply]
  rw [hf _ _ fun c hc => (toNat_toUInt8_digit hc).left, Nat.ofDigitChars_ten_toDigits]

theorem inRange_digits {n : Nat} (h : n ≤ SyntaxError.maxLiteral) : (number (digits n)).InRange := by
  intro _
  refine ⟨?_, (decimal_digits n).symm ▸ h⟩
  have hl : (Nat.toDigits 10 n).length ≤ 10 := by
    rw [Nat.length_toDigits_le_iff (by decide) (by decide)]
    exact Nat.lt_of_le_of_lt h (by decide)
  rw [number, digits, List.length_map]
  exact Nat.le_trans hl (by decide)

end Word
end ExprLang
