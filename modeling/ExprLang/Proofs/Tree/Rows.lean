import ExprLang.Proofs.Grammar.Numeral
import ExprLang.Proofs.Text.Ascii
import ExprLang.Proofs.Tree.Preorder

/-!
Reading the rows of a listing. A row shows the level, the line and the span of a part, and the text of a
listing shows its rows, as long as the lines keep free of what divides them.
-/
namespace ExprLang

open Word

namespace Text

-- A line of a listing. It starts with something else than a blank, and it does not end the row or tell
-- where the span begins.
def isHeading : Text → Bool
  | [] => false
  | c :: t => c != 0x20 && (c :: t).all fun c => c != 0x0A && c != 0x40

variable {t t' u u' : Text} {c : CodePoint} {n n' : Nat}

theorem isHeading_append (h : t.isHeading) (hu : u.all fun c => c != 0x0A && c != 0x40) :
    (t ++ u).isHeading := by
  cases t with
  | nil => cases h
  | cons c t => simp_all [isHeading]

theorem head_of_isHeading (h : t.isHeading) : ∀ d ∈ (t ++ u).head?, d ≠ 0x20 := by
  cases t with
  | nil => cases h
  | cons c t => simp_all [isHeading]

theorem not_mem_of_isHeading (h : t.isHeading) : 0x0A ∉ t ∧ 0x40 ∉ t := by
  cases t with
  | nil => cases h
  | cons c t =>
    simp only [isHeading, Bool.and_eq_true, List.all_eq_true, bne_iff_ne] at h
    exact ⟨fun hc => (h.right _ hc).left rfl, fun hc => (h.right _ hc).right rfl⟩

-- A text can be cut where a character stands for the first time.
theorem append_cons_inj (h : c ∉ t) (h' : c ∉ t') (he : t ++ c :: u = t' ++ c :: u') :
    t = t' ∧ u = u' := by
  induction t generalizing t' with
  | nil =>
    cases t' with
    | nil => exact ⟨rfl, (List.cons.inj he).right⟩
    | cons d t' =>
      obtain rfl := (List.cons.inj he).left
      exact absurd (.head _) h'
  | cons d t ih =>
    cases t' with
    | nil =>
      obtain rfl := (List.cons.inj he).left
      exact absurd (.head _) h
    | cons d' t' =>
      obtain ⟨rfl, ht⟩ := List.cons.inj he
      obtain ⟨rfl, rfl⟩ := ih (mt (.tail _) h) (mt (.tail _) h') ht
      exact ⟨rfl, rfl⟩

-- The characters that a text starts with can be counted.
theorem replicate_append_inj (h : ∀ d ∈ t.head?, d ≠ c) (h' : ∀ d ∈ t'.head?, d ≠ c)
    (he : List.replicate n c ++ t = List.replicate n' c ++ t') : n = n' ∧ t = t' := by
  induction n generalizing n' with
  | zero =>
    cases n' with
    | zero => exact ⟨rfl, he⟩
    | succ n' => exact absurd rfl (h c (by rw [show t = _ from he]; rfl))
  | succ n ih =>
    cases n' with
    | zero => exact absurd rfl (h' c (by rw [←show _ = t' from he]; rfl))
    | succ n' =>
      obtain ⟨rfl, ht⟩ := ih (List.cons.inj he).right
      exact ⟨rfl, ht⟩

end Text

-- The digits of a number are the decimal digits.
theorem Word.digit_bounds {n : Nat} {c : CodePoint} (h : c ∈ Text.ofAscii (digits n)) :
    0x30 ≤ c.val ∧ c.val ≤ 0x39 := by
  obtain ⟨b, hb, rfl⟩ := List.mem_map.mp h
  obtain ⟨d, hd, rfl⟩ := List.mem_map.mp hb
  obtain ⟨hv, hd⟩ := toNat_toUInt8_digit hd
  have hv : (CodePoint.ofByte d.toUInt8).val = d.toNat := hv
  exact hv.symm ▸ hd

theorem Word.ofAscii_digits_inj {n n' : Nat}
    (h : Text.ofAscii (digits n) = Text.ofAscii (digits n')) : n = n' := by
  have hb (n : Nat) : (Text.ofAscii (digits n)).encode = digits n :=
    Text.encode_ofAscii fun _ => digits_ascii
  rw [←decimal_digits n, ←decimal_digits n', ←hb n, ←hb n', h]

namespace Span

theorem format_eq (s : Span) :
    (s.format : Text) =
      Text.ofAscii (digits s.lo) ++ 0x2E :: 0x2E :: Text.ofAscii (digits s.hi) := by
  have hf : s.format = toString (s.lo : Int) ++ ".." ++ toString (s.hi : Int) := rfl
  rw [hf]
  simp only [Text.ofString_append, ←ofAscii_digits, List.append_assoc]
  rfl

theorem not_mem_format (s : Span) : 0x0A ∉ (s.format : Text) := by
  rw [format_eq, List.mem_append, List.mem_cons, List.mem_cons]
  rintro (h | h | h | h)
  · exact absurd (digit_bounds h) (by decide)
  · cases h
  · cases h
  · exact absurd (digit_bounds h) (by decide)

theorem format_inj {s s' : Span} (h : (s.format : Text) = s'.format) : s = s' := by
  rw [format_eq, format_eq] at h
  have dot (n : Nat) : 0x2E ∉ Text.ofAscii (digits n) := fun h => absurd (digit_bounds h) (by decide)
  obtain ⟨hlo, hhi⟩ := Text.append_cons_inj (dot _) (dot _) h
  exact Span.ext (ofAscii_digits_inj hlo) (ofAscii_digits_inj (List.cons.inj hhi).right)

end Span

-- Whether a part has a line that can be told from the rest of its row.
def Node.Titled (names : Names) (n : Node Empty) : Prop :=
  ∃ t, n.line names = .ok t ∧ t.isHeading

namespace Pending

variable {names names' : Names} {p p' : Pending Empty} {ps ps' : List (Pending Empty)} {t : Text}
  {ts : List Text}

-- Parts that stand on one level, with the same lines and spans.
structure SameRow (names names' : Names) (p p' : Pending Empty) : Prop where
  indent : p.indent = p'.indent
  line : p.node.line names = p'.node.line names'
  span : p.node.span = p'.node.span

theorem row_eq (h : p.node.line names = .ok t) :
    p.row names =
      .ok (.replicate (2 * p.indent) 0x20 ++ (t ++ 0x20 :: 0x40 :: (p.node.span.format : Text))) := by
  have hs : s!" @{p.node.span.format}" = " @" ++ p.node.span.format := rfl
  rw [row, h, Node.place_program]
  show Except.ok (_ ++ t ++ Text.ofString s!" @{p.node.span.format}") = _
  rw [hs, Text.ofString_append]
  exact congrArg Except.ok (List.append_assoc ..)

theorem not_mem_row (h : p.node.Titled names) (hr : p.row names = .ok t) : 0x0A ∉ t := by
  obtain ⟨u, hl, hu⟩ := h
  cases (row_eq hl).symm.trans hr
  rw [List.mem_append, List.mem_append, List.mem_cons, List.mem_cons]
  rintro (h | h | h | h | h)
  · cases (List.mem_replicate.mp h).right
  · exact (Text.not_mem_of_isHeading hu).left h
  · cases h
  · cases h
  · exact p.node.span.not_mem_format h

-- A row tells all that it is made of.
theorem sameRow_of_row (h : p.node.Titled names) (h' : p'.node.Titled names')
    (hr : p.row names = .ok t) (hr' : p'.row names' = .ok t) : SameRow names names' p p' := by
  obtain ⟨u, hl, hu⟩ := h
  obtain ⟨u', hl', hu'⟩ := h'
  have hrows := Except.ok.inj ((row_eq hl).symm.trans (hr.trans (hr'.symm.trans (row_eq hl'))))
  obtain ⟨hi, hrest⟩ := Text.replicate_append_inj (Text.head_of_isHeading hu)
    (Text.head_of_isHeading hu') hrows
  have mark {u : Text} (hu : u.isHeading) : 0x40 ∉ u ++ [0x20] := by
    simpa using (Text.not_mem_of_isHeading hu).right
  rw [List.append_cons u, List.append_cons u'] at hrest
  obtain ⟨hline, hspan⟩ := Text.append_cons_inj (mark hu) (mark hu') hrest
  have hline := List.append_cancel_right hline
  exact ⟨Nat.eq_of_mul_eq_mul_left Nat.two_pos hi, by rw [hl, hl', hline], Span.format_inj hspan⟩

-- The rows of parts.
def Rows (names : Names) : List (Pending Empty) → List Text → Prop :=
  List.Forall₂ fun p t => p.row names = .ok t

theorem rows_of_mapM (h : ps.mapM (·.row names) = .ok ts) : Rows names ps ts := by
  induction ps generalizing ts with
  | nil =>
    cases h
    exact .nil
  | cons p ps ih =>
    rw [List.mapM_cons] at h
    cases hp : p.row names with
    | error =>
      rw [hp] at h
      cases h
    | ok t =>
    cases hps : ps.mapM (·.row names) with
    | error =>
      rw [hp, hps] at h
      cases h
    | ok us =>
      rw [hp, hps] at h
      cases h
      exact .cons hp (ih hps)

theorem not_mem_rows (h : ∀ p ∈ ps, p.node.Titled names) (hr : Rows names ps ts) :
    ∀ t ∈ ts, 0x0A ∉ t := by
  induction hr with
  | nil => exact List.forall_mem_nil _
  | cons hr _ ih =>
    have ⟨hp, h⟩ := List.forall_mem_cons.mp h
    exact List.forall_mem_cons.mpr ⟨not_mem_row hp hr, ih h⟩

theorem sameRows_of_rows (h : ∀ p ∈ ps, p.node.Titled names)
    (h' : ∀ p ∈ ps', p.node.Titled names') (hr : Rows names ps ts) (hr' : Rows names' ps' ts) :
    List.Forall₂ (SameRow names names') ps ps' := by
  induction hr generalizing ps' with
  | nil =>
    cases hr'
    exact .nil
  | cons hr _ ih =>
    cases hr' with
    | cons hr' hrs' =>
      have ⟨hp, h⟩ := List.forall_mem_cons.mp h
      have ⟨hp', h'⟩ := List.forall_mem_cons.mp h'
      exact .cons (sameRow_of_row hp hp' hr hr') (ih h h' hrs')

-- The text of a listing tells its rows, of which there is at least one.
theorem sameRows_of_join {us : List Text} (h : ∀ p ∈ ps, p.node.Titled names)
    (h' : ∀ p ∈ ps', p.node.Titled names') (hn : ps ≠ []) (hn' : ps' ≠ [])
    (hr : Rows names ps ts) (hr' : Rows names' ps' us)
    (hj : Text.join "\n" ts = Text.join "\n" us) : List.Forall₂ (SameRow names names') ps ps' := by
  have rows {names : Names} {ps : List (Pending Empty)} {ts : List Text} (hn : ps ≠ [])
      (hr : Rows names ps ts) : ts ≠ [] := by
    rintro rfl
    exact hn (List.forall₂_nil_right_iff.mp hr)
  have hsplit : ts = us := by
    rw [←List.splitOn_intercalate _ (not_mem_rows h hr) (rows hn hr),
      ←List.splitOn_intercalate _ (not_mem_rows h' hr') (rows hn' hr')]
    exact congrArg _ hj
  exact sameRows_of_rows h h' hr (hsplit ▸ hr')

end Pending
end ExprLang
