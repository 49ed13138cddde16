import Mathlib
import ExprLang.Token.Lexer

/-!
Words: tokens as they are written, without the places where they stand. The first item of any input
is a word of its kind, and a word is the first item of any input that does not go on with a byte by
which a longer token could be made of it.
-/
namespace ExprLang

-- A token as it is written: its kind and its bytes.
@[ext]
structure Word where
  kind : Token.Kind
  text : Bytes
  deriving DecidableEq

namespace Token

-- What holds of every number below 256 holds of every byte.
theorem forall_byte {P : UInt8 → Prop} (h : ∀ n : Fin 256, P (.ofFin n)) (b : UInt8) : P b :=
  h b.toFin

namespace Kind

-- The bytes of the tokens that are always written alike.
def bytes (k : Kind) : Bytes :=
  (k.spelling : Text).encode

-- A letter, behind which letters, digits and underscores follow.
def isName : Bytes → Bool
  | [] => false
  | b :: bs => isLetter b && bs.all isWord

def isNumeral (bs : Bytes) : Bool :=
  !bs.isEmpty && bs.all isDigit

-- Whether a token of a kind can be written as `bs`.
def allows : Kind → Bytes → Bool
  | .ident, bs => isName bs && ofWord bs == .ident
  | .number, bs => isNumeral bs
  | .eof, bs => bs.isEmpty
  | k, bs => bs == k.bytes

-- The kinds that are always written alike.
def isFixed (k : Kind) : Bool :=
  k != .ident && k != .number && k != .eof

theorem isFixed_iff {k : Kind} : k.isFixed ↔ k ≠ .ident ∧ k ≠ .number ∧ k ≠ .eof := by
  simp [isFixed, and_assoc]

theorem allows_fixed {k : Kind} (h : k.isFixed) {bs : Bytes} : k.allows bs ↔ bs = k.bytes := by
  cases k <;> simp_all [allows, isFixed]

-- Whether a byte right behind a token of a kind makes a longer token of it.
def extendedBy (k : Kind) (b : UInt8) : Bool :=
  match k with
  | .minus => b == '>'.toUInt8
  | .eq | .bang | .gt | .lt => b == '='.toUInt8
  | .amp => b == '&'.toUInt8
  | .pipe => b == '|'.toUInt8
  | .number => isDigit b
  | k => (k == .ident || k.isKeyword) && isWord b

-- Whether a token of a kind ends where `bs` follows.
def endsBefore (k : Kind) (bs : Bytes) : Bool :=
  bs.head?.all (!k.extendedBy ·)

@[simp]
theorem endsBefore_nil (k : Kind) : k.endsBefore [] :=
  rfl

@[simp]
theorem endsBefore_cons (k : Kind) (b : UInt8) (bs : Bytes) :
    k.endsBefore (b :: bs) ↔ k.extendedBy b = false := by
  simp [endsBefore]

theorem ofWord_cases (bs : Bytes) :
    ofWord bs = .ident ∨ (ofWord bs ∈ keywords ∧ bs = (ofWord bs).bytes) := by
  simp only [ofWord]
  cases h : keywords.find? (fun k => (k.spelling : Text).encode == bs) with
  | none => exact .inl rfl
  | some k =>
    have hb := List.find?_some h
    exact .inr ⟨List.mem_of_find?_eq_some h, (eq_of_beq hb).symm⟩

theorem isWord_of_isName {bs : Bytes} (h : isName bs) : ∀ b ∈ bs, isWord b := by
  cases bs with
  | nil => exact List.forall_mem_nil _
  | cons b bs =>
    simp only [isName, Bool.and_eq_true, List.all_eq_true] at h
    exact List.forall_mem_cons.mpr ⟨by simp [isWord, h.left], h.right⟩

theorem isName_ascii {bs : Bytes} (h : isName bs) {b : UInt8} (hb : b ∈ bs) : b < 0x80 := by
  have table : ∀ b : UInt8, isWord b → b < 0x80 := forall_byte (by decide +kernel)
  exact table b (isWord_of_isName h b hb)

theorem isNumeral_ascii {bs : Bytes} (h : isNumeral bs) {b : UInt8} (hb : b ∈ bs) : b < 0x80 := by
  have table : ∀ b : UInt8, isDigit b → b < 0x80 := forall_byte (by decide +kernel)
  simp only [isNumeral, Bool.and_eq_true, List.all_eq_true] at h
  exact table b (h.right b hb)

-- Tokens are written with ASCII characters only.
theorem allows_ascii {k : Kind} {bs : Bytes} (h : k.allows bs) : ∀ b ∈ bs, b < 0x80 := by
  have table : ∀ k ∈ all, k.bytes.all (· < 0x80) := by decide
  by_cases hi : k = .ident
  case pos =>
    subst hi
    simp only [allows, Bool.and_eq_true] at h
    exact fun _ => isName_ascii h.left
  by_cases hn : k = .number
  case pos =>
    subst hn
    exact fun _ => isNumeral_ascii h
  by_cases he : k = .eof
  case pos =>
    subst he
    simp [List.isEmpty_iff.mp h]
  obtain rfl := (allows_fixed (isFixed_iff.mpr ⟨hi, hn, he⟩)).mp h
  simpa using table k k.mem_all

theorem allows_ofWord {bs : Bytes} (h : isName bs) : (ofWord bs).allows bs := by
  cases ofWord_cases bs
  case inl hw => simp [hw, allows, h]
  case inr hw =>
    have hk : ∀ k ∈ keywords, k.allows k.bytes := by decide
    have hb := hk _ hw.left
    rwa [←hw.right] at hb

end Kind

namespace Item

theorem first_digits {bs r : Bytes} (h : Kind.isNumeral bs) (hr : Kind.number.endsBefore r) :
    first (bs ++ r) = .token .number bs.length := by
  cases bs with
  | nil => simp [Kind.isNumeral] at h
  | cons b bs =>
    simp only [Kind.isNumeral, List.all_cons, Bool.and_eq_true] at h
    have table : ∀ b : UInt8, isDigit b →
        Kind.ofByte? b = none ∧ (Pair.ofByte? b).isNone ∧ isLetter b = false :=
      forall_byte (by decide +kernel)
    have ⟨h₁, h₂, h₃⟩ := table b h.right.left
    have hw : (bs ++ r).takeWhile isDigit = bs := by
      rw [List.takeWhile_append_of_pos (List.all_eq_true.mp h.right.right)]
      cases r with
      | nil => simp
      | cons c r => simp_all [Kind.extendedBy]
    simp [first, h₁, Option.isNone_iff_eq_none.mp h₂, h₃, h.right.left, hw]

theorem first_name {bs r : Bytes} (h : Kind.isName bs) (hr : Kind.ident.endsBefore r) :
    first (bs ++ r) = .token (.ofWord bs) bs.length := by
  cases bs with
  | nil => simp [Kind.isName] at h
  | cons b bs =>
    simp only [Kind.isName, Bool.and_eq_true] at h
    have table : ∀ b : UInt8, isLetter b → Kind.ofByte? b = none ∧ (Pair.ofByte? b).isNone :=
      forall_byte (by decide +kernel)
    have ⟨h₁, h₂⟩ := table b h.left
    have hw : (bs ++ r).takeWhile isWord = bs := by
      rw [List.takeWhile_append_of_pos (List.all_eq_true.mp h.right)]
      cases r with
      | nil => simp
      | cons c r => simp_all [Kind.extendedBy]
    simp [first, h₁, Option.isNone_iff_eq_none.mp h₂, h.left, hw]

-- Tokens are read back as they are written.
theorem first_append {k : Kind} {bs r : Bytes} (h : k.allows bs) (hk : k ≠ .eof)
    (hr : k.endsBefore r) : first (bs ++ r) = .token k bs.length := by
  by_cases hi : k = .ident
  case pos =>
    subst hi
    simp only [Kind.allows, Bool.and_eq_true] at h
    rw [first_name h.left hr, eq_of_beq h.right]
  by_cases hn : k = .number
  case pos =>
    subst hn
    exact first_digits h hr
  obtain rfl := (Kind.allows_fixed (by simp [Kind.isFixed, hi, hn, hk])).mp h
  by_cases hw : k ∈ Kind.keywords
  case pos =>
    have table : ∀ k ∈ Kind.keywords, Kind.isName k.bytes ∧ Kind.ofWord k.bytes = k := by decide
    have he : k.extendedBy = Kind.ident.extendedBy := by
      funext b
      cases k <;> simp_all [Kind.extendedBy, Kind.keywords, Kind.isKeyword]
    have ⟨hn, ho⟩ := table k hw
    rw [first_name hn (by simpa [Kind.endsBefore, he] using hr), ho]
  case neg =>
    cases k
    case minus | eq | bang | gt | lt | amp | pipe =>
      cases r with
      | nil => rfl
      | cons b r =>
        simp only [Kind.endsBefore_cons, Kind.extendedBy, beq_eq_false_iff_ne] at hr
        exact if_neg (by simpa using hr)
    case kwIf | kwElse | kwTrue | kwFalse | kwLet | kwFn | kwReturn => exact absurd (by decide) hw
    case ident | number | eof => contradiction
    all_goals rfl

theorem first_blank {b : UInt8} (h : isBlank b) (bs : Bytes) : first (b :: bs) = .stray b := by
  have table : ∀ b : UInt8, isBlank b →
      Kind.ofByte? b = none ∧ (Pair.ofByte? b).isNone ∧ isLetter b = false ∧ isDigit b = false :=
    forall_byte (by decide +kernel)
  have ⟨h₁, h₂, h₃, h₄⟩ := table b h
  simp [first, h₁, Option.isNone_iff_eq_none.mp h₂, h₃, h₄]

-- What the input starts with is written as a token of its kind can be.
theorem allows_of_first {bs : Bytes} {k : Kind} {n : Nat} (h : first bs = .token k n) :
    k.allows (bs.take n) ∧ k ≠ .eof := by
  have single : ∀ b : UInt8, (Kind.ofByte? b).all fun k => k.allows [b] && k != .eof :=
    forall_byte (by decide +kernel)
  have double : ∀ b : UInt8, (Pair.ofByte? b).all fun p =>
      p.long.allows [b, p.second] && p.long != .eof && p.short.allows [b] && p.short != .eof :=
    forall_byte (by decide +kernel)
  cases bs with
  | nil => simp [first] at h
  | cons b bs =>
    simp only [first] at h
    split at h
    case h_1 kind hk =>
      cases h
      simpa [hk] using single b
    split at h
    case h_1 pair hp =>
      have hd := double b
      simp only [hp, Option.all_some, Bool.and_eq_true, bne_iff_ne] at hd
      split at h
      case isTrue hb =>
        cases bs <;> simp at hb
        cases h
        simpa [hb] using hd.left.left
      case isFalse =>
        cases h
        simpa using ⟨hd.left.right, hd.right⟩
    split at h
    case isTrue hl =>
      cases h
      have hn : Kind.isName (b :: bs.takeWhile isWord) := by simp [Kind.isName, hl]
      have ht : (b :: bs).take (bs.takeWhile isWord).length.succ = b :: bs.takeWhile isWord := by
        simp [List.prefix_iff_eq_take.mp (List.takeWhile_prefix isWord) |>.symm]
      refine ⟨?_, fun he => ?_⟩
      · simpa [ht] using Kind.allows_ofWord hn
      · have ha := he ▸ Kind.allows_ofWord hn
        simp [Kind.allows] at ha
    split at h
    case isTrue hd =>
      cases h
      simp [Kind.allows, Kind.isNumeral, hd,
        List.prefix_iff_eq_take.mp (List.takeWhile_prefix isDigit) |>.symm]
    case isFalse => simp at h

end Item
end Token
end ExprLang
