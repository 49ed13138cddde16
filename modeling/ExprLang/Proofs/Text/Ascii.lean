import Mathlib
import ExprLang.Text.Utf8

/-!
Texts of ASCII characters, in which code points and bytes come to the same.
-/
namespace ExprLang.Text

def isAscii (t : Text) : Bool :=
  t.all (·.val < 0x80)

theorem encode_append (s t : Text) : (s ++ t).encode = s.encode ++ t.encode := by
  simp [encode]

theorem encode_cons_ascii {c : CodePoint} (h : c.val < 0x80) (t : Text) :
    encode (c :: t) = .ofNat c.val :: t.encode := by
  simp [encode, CodePoint.encode, h]

theorem ofByte_ofNat {c : CodePoint} (h : c.val < 0x80) : CodePoint.ofByte (.ofNat c.val) = c := by
  refine Fin.ext ?_
  show (UInt8.ofNat c.val).toNat = c.val
  simp only [UInt8.toNat_ofNat']
  omega

theorem isAscii_ofAscii {bs : Bytes} (h : ∀ b ∈ bs, b < 0x80) : (ofAscii bs).isAscii := by
  simp only [isAscii, ofAscii, List.all_map, List.all_eq_true, Function.comp_apply]
  intro b hb
  exact decide_eq_true (UInt8.lt_iff_toNat_lt.mp (h b hb))

theorem encode_ofAscii : {bs : Bytes} → (∀ b ∈ bs, b < 0x80) → (ofAscii bs).encode = bs
  | [], _ => rfl
  | b :: bs, h => by
    have hb : (CodePoint.ofByte b).val < 0x80 := UInt8.lt_iff_toNat_lt.mp (h b (.head _))
    have ih := encode_ofAscii fun b hb => h b (.tail _ hb)
    have hn : UInt8.ofNat (CodePoint.ofByte b).val = b := UInt8.ofNat_toNat
    rw [ofAscii, List.map_cons, encode_cons_ascii hb, hn]
    exact congrArg _ ih

theorem ofAscii_encode : {t : Text} → t.isAscii → ofAscii t.encode = t
  | [], _ => rfl
  | c :: t, h => by
    simp only [isAscii, List.all_cons, Bool.and_eq_true, decide_eq_true_eq] at h
    have ih := ofAscii_encode h.right
    rw [encode_cons_ascii h.left, ofAscii, List.map_cons, ofByte_ofNat h.left]
    exact congrArg _ ih

end ExprLang.Text
