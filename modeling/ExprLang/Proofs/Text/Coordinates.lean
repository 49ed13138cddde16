import ExprLang.Proofs.Text.Position
import ExprLang.Proofs.Tree.Rows

/-!
Lines and columns as coordinates. The line and the column of a place tell its offset: the bytes of all lines
before it and those before it in its own line. So places come in the order of their lines and columns, and
no two places are reported alike.
-/
namespace ExprLang

section

variable {α : Type} [DecidableEq α] {x : α} {xs : List α}

theorem length_splitOn (x : α) (xs : List α) : (xs.splitOn x).length = xs.count x + 1 := by
  induction xs with
  | nil => rfl
  | cons y xs ih =>
    rw [List.splitOn_cons_eq_if_modifyHead, List.count_cons]
    split
    case isTrue => rw [List.length_cons, ih]
    case isFalse => rw [List.length_modifyHead, ih]

-- The parts between separators make up a list, if each but the last has one behind it.
theorem sum_splitOn (x : α) (xs : List α) :
    ((xs.splitOn x).map (·.length + 1)).sum = xs.length + 1 := by
  induction xs with
  | nil => rfl
  | cons y xs ih =>
    obtain ⟨part, parts, hp⟩ := List.exists_cons_of_ne_nil (xs.splitOn_ne_nil x)
    rw [List.splitOn_cons_eq_if_modifyHead]
    split
    case isTrue =>
      rw [List.map_cons, List.sum_cons, ih, List.length_nil, List.length_cons]
      omega
    case isFalse =>
      rw [hp, List.map_cons, List.sum_cons] at ih
      rw [hp, List.modifyHead_cons, List.map_cons, List.sum_cons, List.length_cons, List.length_cons]
      omega

-- What has no separator in it belongs to the first part of what follows.
theorem splitOn_append (h : x ∉ xs) (ys : List α) :
    (xs ++ ys).splitOn x = (ys.splitOn x).modifyHead (xs ++ ·) := by
  induction xs with
  | nil => exact (congrFun List.modifyHead_id _).symm
  | cons y xs ih =>
    have hy : (y == x) = false := beq_false_of_ne fun hy => h (hy ▸ .head _)
    have ih := ih fun hx => h (.tail _ hx)
    rw [List.cons_append, List.splitOn_cons_eq_if_modifyHead, hy, ih, List.modifyHead_modifyHead]
    rfl

end

namespace Text

-- The lines of a source, without the newlines between them.
def lines (t : Text) : List Text :=
  t.splitOn .newline

-- How many bytes come before a line, with the newlines of the lines before it. Lines are counted from zero.
def bytesBefore (t : Text) (n : Nat) : Nat :=
  ((t.lines.take n).map fun l => l.encode.length + 1).sum

-- The lines of the bytes are the bytes of the lines.
theorem splitOn_encode (t : Text) : t.encode.splitOn Position.newline = t.lines.map encode := by
  induction t with
  | nil => rfl
  | cons c t ih =>
    obtain ⟨l, ls, hl⟩ := List.exists_cons_of_ne_nil (t.splitOn_ne_nil .newline)
    rw [lines, List.splitOn_cons_eq_if_modifyHead, encode, List.flatMap_cons]
    by_cases hc : c = .newline
    case pos =>
      subst hc
      exact congrArg ([] :: ·) ih
    case neg =>
      have hb : Position.newline ∉ c.encode := fun h => hc (CodePoint.eq_ofByte_of_mem h (by decide))
      have ih : (t.flatMap (·.encode)).splitOn Position.newline = (l :: ls).map encode := hl ▸ ih
      rw [if_neg (by simpa using hc), hl, splitOn_append hb, ih]
      rfl

variable {t l : Text} {m n : Nat}

theorem bytesBefore_add_one (h : t.lines[n]? = some l) :
    t.bytesBefore (n + 1) = t.bytesBefore n + (l.encode.length + 1) := by
  simp [bytesBefore, List.take_add_one, h]

theorem bytesBefore_mono (h : m ≤ n) : t.bytesBefore m ≤ t.bytesBefore n := by
  refine monotone_nat_of_le_succ (fun n => ?_) h
  rw [bytesBefore, bytesBefore, List.take_add_one, List.map_append, List.sum_append]
  exact Nat.le_add_right _ _

end Text

namespace Position

variable {bs cs : Bytes}

-- Without newlines there is one line only.
theorem lastLine_of_not_mem (h : newline ∉ bs) : lastLine bs = 0 := by
  have ht : bs.reverse.takeWhile (· != newline) = bs.reverse :=
    List.takeWhile_eq_self_iff.mpr fun b hb => bne_iff_ne.mpr fun he =>
      h (he ▸ List.mem_reverse.mp hb)
  rw [lastLine, ht, List.length_reverse, Nat.sub_self]

theorem lastLine_append (h : newline ∉ cs) : lastLine (bs ++ newline :: cs) = bs.length + 1 := by
  have ht : (bs ++ newline :: cs).reverse.takeWhile (· != newline) = cs.reverse := by
    rw [List.reverse_append, List.reverse_cons, List.append_assoc, List.takeWhile_append_of_pos]
    · simp
    · exact fun b hb => bne_iff_ne.mpr fun he => h (he ▸ List.mem_reverse.mp hb)
  rw [lastLine, ht, List.length_reverse, List.length_append, List.length_cons]
  omega

-- The last newline of some bytes, unless there is none.
theorem exists_newline (bs : Bytes) :
    newline ∉ bs ∨ ∃ before last, bs = before ++ newline :: last ∧ newline ∉ last := by
  by_cases h : newline ∈ bs
  case neg => exact .inl h
  case pos =>
    obtain ⟨last, before, hr, hl⟩ := List.eq_append_cons_of_mem (List.mem_reverse.mpr h)
    refine .inr ⟨before.reverse, last.reverse, ?_, by rwa [List.mem_reverse]⟩
    rw [←bs.reverse_reverse, hr]
    simp

-- The line in which some bytes end, whatever comes behind them. There is one line before it for each newline,
-- and it goes on at least to where the bytes end.
theorem exists_line (bs cs : Bytes) :
    ∃ l, ((bs ++ cs).splitOn newline)[bs.count newline]? = some l ∧
      (((bs ++ cs).splitOn newline |>.take (bs.count newline)).map (·.length + 1)).sum =
        lastLine bs ∧
      bs.length - lastLine bs ≤ l.length := by
  obtain ⟨l, ls, hl⟩ := List.exists_cons_of_ne_nil (cs.splitOn_ne_nil newline)
  obtain h | ⟨before, last, rfl, h⟩ := exists_newline bs
  case inl =>
    rw [splitOn_append h, hl, List.count_eq_zero_of_not_mem h, lastLine_of_not_mem h]
    refine ⟨bs ++ l, rfl, rfl, ?_⟩
    rw [List.length_append]
    exact Nat.le_add_right _ _
  case inr =>
    have hc : (before ++ newline :: last).count newline = (before.splitOn newline).length := by
      rw [List.count_append, List.count_cons_self, List.count_eq_zero_of_not_mem h, length_splitOn]
    rw [List.append_assoc, List.cons_append, List.splitOn_append_cons_self, splitOn_append h, hl, hc,
      lastLine_append h]
    refine ⟨last ++ l, ?_, ?_, ?_⟩
    · rw [List.getElem?_append_right le_rfl, Nat.sub_self]
      rfl
    · rw [List.take_left, sum_splitOn]
    · rw [List.length_append, List.length_append, List.length_cons]
      omega

-- A place as it is reported, where the line comes before the column.
def shown (p : Position) : Nat ×ₗ Nat :=
  toLex (p.line, p.column)

-- A place of a source whose line and column tell the offset. It is on one of the lines, or right behind it.
structure IsExact (src : Text) (p : Position) : Prop where
  line_pos : 0 < p.line
  column_pos : 0 < p.column
  offset_eq : src.bytesBefore (p.line - 1) + (p.column - 1) = p.offset
  on_line : ∃ l, src.lines[p.line - 1]? = some l ∧ p.column - 1 ≤ l.encode.length

theorem isExact_ofOffset (src : Text) (n : Int) : (ofOffset src n).IsExact src := by
  generalize ho : min n.toNat src.encode.length = o
  obtain ⟨l, hl, hs, hc⟩ := exists_line (src.encode.take o) (src.encode.drop o)
  rw [List.take_append_drop, Text.splitOn_encode] at hl hs
  rw [List.getElem?_map, Option.map_eq_some_iff] at hl
  obtain ⟨l, hl, rfl⟩ := hl
  have hlen : (src.encode.take o).length = o := by
    rw [List.length_take]
    omega
  have hle : lastLine (src.encode.take o) ≤ o := by
    rw [lastLine, hlen]
    exact Nat.sub_le _ _
  rw [hlen] at hc
  simp only [ofOffset, ho]
  exact {
    line_pos := Nat.succ_pos _
    column_pos := Nat.succ_pos _
    offset_eq := by
      rw [←List.map_take, List.map_map] at hs
      have hs : src.bytesBefore ((src.encode.take o).count newline) = lastLine (src.encode.take o) := hs
      simp only [Nat.add_sub_cancel]
      omega
    on_line := ⟨l, hl, hc⟩
  }

namespace IsExact

variable {src : Text} {p q : Position} (hp : p.IsExact src) (hq : q.IsExact src)
include hp hq

-- A line ends before the next one starts.
theorem lt_of_line_lt (h : p.line < q.line) : p.offset < q.offset := by
  obtain ⟨l, hl, hc⟩ := hp.on_line
  have := hp.line_pos
  have hn := Text.bytesBefore_add_one hl
  have hm : src.bytesBefore (p.line - 1 + 1) ≤ src.bytesBefore (q.line - 1) :=
    Text.bytesBefore_mono (by omega)
  have := hp.offset_eq
  have := hq.offset_eq
  omega

theorem lt_iff : p.offset < q.offset ↔ p.shown < q.shown := by
  have := hp.offset_eq
  have := hq.offset_eq
  have := hp.column_pos
  have := hq.column_pos
  rw [shown, shown, Prod.Lex.toLex_lt_toLex]
  dsimp only
  obtain h | h | h := lt_trichotomy p.line q.line
  · exact iff_of_true (hp.lt_of_line_lt hq h) (.inl h)
  · have hb : src.bytesBefore (p.line - 1) = src.bytesBefore (q.line - 1) := by rw [h]
    omega
  · have := hq.lt_of_line_lt hp h
    omega

theorem eq_iff : p.offset = q.offset ↔ p.shown = q.shown := by
  have hle : p.offset ≤ q.offset ↔ p.shown ≤ q.shown := by
    simpa only [not_lt] using (hq.lt_iff hp).not
  have hge : q.offset ≤ p.offset ↔ q.shown ≤ p.shown := by
    simpa only [not_lt] using (hp.lt_iff hq).not
  rw [le_antisymm_iff, le_antisymm_iff, hle, hge]

end IsExact

end Position

-- A line and a column in a report, each with a colon behind it.
theorem Text.ofString_place (m n : Nat) :
    ofString s!":{m}:{n}: " =
      0x3A :: (ofAscii (Word.digits m) ++ 0x3A :: (ofAscii (Word.digits n) ++ [0x3A, 0x20])) := by
  have hs : s!":{m}:{n}: " = ":" ++ toString (m : Int) ++ ":" ++ toString (n : Int) ++ ": " := rfl
  rw [hs]
  simp only [ofString_append, ←Word.ofAscii_digits, List.append_assoc]
  rfl

-- Reports on different places differ, however they go on.
theorem Diagnostic.shown_eq_of_locate {d d' : Diagnostic} {src file : Text}
    (h : d.locate src file = d'.locate src file) :
    (Position.ofOffset src d.span.lo).shown = (Position.ofOffset src d'.span.lo).shown := by
  have colon (n : Nat) : 0x3A ∉ Text.ofAscii (Word.digits n) := fun h =>
    absurd (Word.digit_bounds h) (by decide)
  simp only [locate, Text.ofString_place, List.append_assoc, List.cons_append] at h
  have h := (List.cons.inj (List.append_cancel_left h)).right
  obtain ⟨hl, h⟩ := Text.append_cons_inj (colon _) (colon _) h
  obtain ⟨hc, _⟩ := Text.append_cons_inj (colon _) (colon _) h
  rw [Position.shown, Position.shown, Word.ofAscii_digits_inj hl, Word.ofAscii_digits_inj hc]

-- The line and the column of a place are exact coordinates. They tell the offset, which is that asked for if
-- this is in the source; places come in the order of their lines and columns; and faults in different places
-- of a source are reported differently.
theorem ofOffset_exact (src : Text) :
    (∀ n : Int, (Position.ofOffset src n).offset = max 0 (min n src.encode.length) ∧
      (Position.ofOffset src n).IsExact src) ∧
    (∀ m n : Int,
      ((Position.ofOffset src m).offset < (Position.ofOffset src n).offset ↔
        (Position.ofOffset src m).shown < (Position.ofOffset src n).shown) ∧
      ((Position.ofOffset src m).offset = (Position.ofOffset src n).offset ↔
        (Position.ofOffset src m).shown = (Position.ofOffset src n).shown)) ∧
    ∀ (d d' : Diagnostic) (file : Text), d.locate src file = d'.locate src file →
      (Position.ofOffset src d.span.lo).offset = (Position.ofOffset src d'.span.lo).offset := by
  have exact (n : Int) := Position.isExact_ofOffset src n
  refine ⟨fun n => ⟨?_, exact n⟩, fun m n => ⟨(exact m).lt_iff (exact n), (exact m).eq_iff (exact n)⟩, ?_⟩
  · simp only [Position.ofOffset]
    omega
  · intro d d' file h
    exact ((exact _).eq_iff (exact _)).mpr (Diagnostic.shown_eq_of_locate h)

-- Both faults lie behind the source, which has two bytes in the last character of its second line.
theorem ofOffset_exact_end :
    let src : Text := "1\n+é"
    let d : Diagnostic := { kind := .unexpectedByte, span := ⟨7, 8, by decide⟩, message := "a" }
    let d' : Diagnostic := { kind := .divisionByZero, span := ⟨9, 9, by decide⟩, message := "a" }
    (Position.ofOffset src 5).shown = toLex (2, 4) ∧
      d.locate src "b" = d'.locate src "b" ∧
      (Position.ofOffset src d.span.lo).offset = (Position.ofOffset src d'.span.lo).offset := by
  intro src d d'
  have h : d.locate src "b" = d'.locate src "b" := by decide +kernel
  exact ⟨by decide +kernel, h, (ofOffset_exact src).right.right d d' "b" h⟩

end ExprLang
