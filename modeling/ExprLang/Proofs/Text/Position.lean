import ExprLang.Diagnostic
import ExprLang.Proofs.Text.Utf8

/-!
Places as they are seen. Where all bytes of a source before an offset are ASCII, they are its characters
before there, one by one, so that lines and columns can be counted in either.
-/
namespace ExprLang

-- A span in a source that is ASCII up to it.
structure Span.IsClear (bs : Bytes) (s : Span) : Prop where
  within : s.hi ≤ bs.length
  ascii : ∀ b ∈ bs.take s.lo, b < 0x80

-- An ASCII byte is part of no character but its own.
theorem CodePoint.eq_ofByte_of_mem {c : CodePoint} {b : UInt8} (h : b ∈ c.encode)
    (hb : b.toNat < 0x80) : c = ofByte b := by
  have large {n : Nat} (hn : 0x80 ≤ n) (hn' : n < 256) : b ≠ .ofNat n := by
    rintro rfl
    rw [Utf8.toNat_ofNat hn'] at hb
    exact Nat.not_lt.mpr hn hb
  have tail (n : Nat) : b ≠ Utf8.tail n := large (by omega) (by omega)
  have := c.isLt
  obtain ⟨hc, he⟩ | ⟨_, _, he⟩ | ⟨_, _, he⟩ | ⟨_, he⟩ := c.encode_cases
  case inl =>
    rw [he, List.mem_singleton] at h
    exact h ▸ (Text.ofByte_ofNat hc).symm
  all_goals
    simp only [he, List.mem_cons, List.not_mem_nil, or_false, tail] at h
    exact absurd h (large (by omega) (by omega))

-- What starts with an ASCII byte is an ASCII character.
theorem CodePoint.lt_of_encode {c : CodePoint} {b : UInt8} {bs : Bytes} (h : c.encode = b :: bs)
    (hb : b < 0x80) : c.val < 0x80 := by
  have hb := UInt8.lt_iff_toNat_lt.mp hb
  have hc : c = ofByte b := eq_ofByte_of_mem (h ▸ .head _) hb
  exact hc ▸ hb

-- The character that ends a line.
def CodePoint.newline : CodePoint := 10

theorem CodePoint.ofByte_eq_newline {b : UInt8} : ofByte b = newline ↔ b = Position.newline := by
  rw [Fin.ext_iff, ←UInt8.toNat_inj]
  rfl

theorem CodePoint.encode_ne_nil (c : CodePoint) : c.encode ≠ [] := by
  simp only [encode]
  split_ifs <;> simp

namespace Text

-- The line in which a text ends, which is one more than the newlines in it.
def line (t : Text) : Nat :=
  t.count .newline + 1

-- The column behind a text, which is one more than the characters behind the last newline.
def column (t : Text) : Nat :=
  (t.rtakeWhile (· ≠ .newline)).length + 1

-- A source can be cut behind ASCII bytes. By induction on the source: each of them is a character.
theorem split_ascii {src : Text} {n : Nat} (hn : n ≤ src.encode.length)
    (h : ∀ b ∈ src.encode.take n, b < 0x80) :
    ∃ before after, src = before ++ after ∧ before.isAscii ∧ before.encode = src.encode.take n := by
  induction src generalizing n
  case nil => exact ⟨[], [], rfl, rfl, by simp [encode]⟩
  case cons c t ih =>
    cases n
    case zero => exact ⟨[], c :: t, rfl, rfl, rfl⟩
    case succ n =>
      obtain ⟨b, bs, hc⟩ := List.exists_cons_of_ne_nil c.encode_ne_nil
      have hb : b < 0x80 := by
        refine h b ?_
        have he : encode (c :: t) = b :: (bs ++ encode t) := by
          rw [encode, List.flatMap_cons, hc]
          rfl
        rw [he]
        exact .head _
      have hlt := CodePoint.lt_of_encode hc hb
      rw [encode_cons_ascii hlt] at hn h ⊢
      have h := fun b hb => h b (.tail _ hb)
      obtain ⟨before, after, ht, ha, he⟩ := ih (Nat.le_of_succ_le_succ hn) h
      refine ⟨c :: before, after, congrArg (c :: ·) ht, ?_, ?_⟩
      · simpa [isAscii, hlt] using ha
      · rw [encode_cons_ascii hlt, he, List.take_succ_cons]

variable {t : Text}

-- In ASCII, lines can be counted in characters.
theorem count_encode (h : t.isAscii) : t.encode.count Position.newline = t.count .newline := by
  conv_rhs => rw [←ofAscii_encode h]
  rw [ofAscii, List.count, List.count, List.countP_map]
  refine List.countP_congr fun b _ => ?_
  simp [CodePoint.ofByte_eq_newline]

-- So can columns.
theorem lastLine_encode (h : t.isAscii) :
    t.encode.length - Position.lastLine t.encode = (t.rtakeWhile (· ≠ .newline)).length := by
  have hl : (t.encode.reverse.takeWhile (· != Position.newline)).length ≤ t.encode.length :=
    calc _
      _ ≤ t.encode.reverse.length := (List.takeWhile_sublist _).length_le
      _ = t.encode.length := List.length_reverse
  conv_rhs => rw [←ofAscii_encode h]
  have hp : (fun c => decide (c ≠ CodePoint.newline)) ∘ .ofByte = (· != Position.newline) := by
    funext b
    rw [Bool.eq_iff_iff]
    simp [CodePoint.ofByte_eq_newline]
  rw [List.rtakeWhile, List.length_reverse, ofAscii, ←List.map_reverse, List.takeWhile_map, hp,
    List.length_map, Position.lastLine]
  omega

end Text

-- The line and the column of an offset are counted in characters, as long as these are ASCII.
theorem Position.ofOffset_encode {before : Text} (h : before.isAscii) (after : Text) :
    ofOffset (before ++ after) before.encode.length =
      { offset := before.encode.length
        line := before.line
        column := before.column } := by
  have hm : min before.encode.length (before ++ after).encode.length = before.encode.length := by
    rw [Text.encode_append, List.length_append]
    omega
  simp only [ofOffset, Int.toNat_natCast, hm]
  rw [Text.encode_append, List.take_left, Text.count_encode h, Text.lastLine_encode h]
  rfl

-- A fault is reported at the line and the column that follow the characters of the source before it.
structure Diagnostic.IsSeen (d : Diagnostic) (src : Text) : Prop where
  clear : d.span.IsClear src.encode
  seen : ∃ before after, src = before ++ after ∧ before.encode = src.encode.take d.span.lo ∧
    ∀ file, d.locate src file =
      file ++ s!":{before.line}:{before.column}: " ++ d.message ++ d.hintLine

theorem Span.IsClear.isSeen {d : Diagnostic} {src : Text} (h : d.span.IsClear src.encode) :
    d.IsSeen src := by
  have hle := Nat.le_trans d.span.le h.within
  have ⟨before, after, hs, ha, he⟩ := Text.split_ascii hle h.ascii
  have hl : before.encode.length = d.span.lo := by
    rw [he, List.length_take, Nat.min_eq_left hle]
  refine ⟨h, before, after, hs, he, fun file => ?_⟩
  rw [Diagnostic.locate, ←hl, hs, Position.ofOffset_encode ha]

end ExprLang
