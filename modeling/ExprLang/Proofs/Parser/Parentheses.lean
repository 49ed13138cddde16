import ExprLang.Proofs.Parser.Layout
import ExprLang.Proofs.Tree.Brackets
import ExprLang.Proofs.Tree.Depths

/-!
The parentheses that are added to the text of a tree are needed. Without a pair of them, the text is
still written for an outline that says the same apart from groups. But that one lacks a group, and no
other outline which says the same has its words as deep in parentheses.
-/
namespace ExprLang

open Token Grammar Word Outline

namespace Writing

-- The text without one of the pairs of parentheses that were added.
def Without (w : Writing) (v : Text) : Prop :=
  ∃ p ∈ w.brackets .added, p.removed = v

variable {v w : Writing} {t x : Text}

theorem not_without_plain : ¬(plain t).Without x :=
  nofun

theorem without_append : (v ++ w).Without x ↔
    (∃ y, v.Without y ∧ y ++ w.text = x) ∨ ∃ y, w.Without y ∧ v.text ++ y = x := by
  show (∃ p ∈ _ ++ _, _) ↔ _
  simp only [List.mem_append, List.mem_map, or_and_right, exists_or, Without]
  simp [Brackets.removed_between]

theorem without_after : (plain t ++ w).Without x ↔ ∃ y, w.Without y ∧ t ++ y = x := by
  simp only [without_append, not_without_plain, false_and, exists_false, false_or]
  rfl

theorem without_before : (w ++ plain t).Without x ↔ ∃ y, w.Without y ∧ y ++ t = x := by
  simp only [without_append, not_without_plain, false_and, exists_false, or_false]
  rfl

theorem without_between {s : Text} :
    (plain s ++ w ++ plain t).Without x ↔ ∃ y, w.Without y ∧ s ++ y ++ t = x := by
  simp only [without_before, without_after]
  simp

theorem without_parenthesized {o : Brackets.Origin} : (w.parenthesized o).Without x ↔
    (o = .added ∧ w.text = x) ∨ ∃ y, w.Without y ∧ y.parenthesized = x := by
  simp only [Without, parenthesized, List.mem_append, List.mem_map, or_and_right, exists_or]
  refine or_congr ?_ ?_
  · cases o <;> simp [Brackets.removed]
  · simp [Brackets.removed_between, Text.parenthesized]

end Writing

namespace Outline

open Writing

variable {e : Outline} {v : Text}

-- A text for an outline that is `e` apart from groups and lacks some of those that it needs.
def Lacks (v : Text) (e : Outline) : Prop :=
  ∃ z, Written v z ∧ z.ungrouped = e.ungrouped ∧ ¬z.HasGroups

-- A part that is put into parentheses by some rule may also lack the group that it should be.
theorem lacks_parenthesizedIf (rule : Outline → Bool) (hr : rule e.grouped = rule e)
    (hw : e.isWritable) (ih : ∀ v, e.writing.Without v → Lacks v e)
    (h : (e.writing.parenthesizedIf (rule e)).Without v) :
    ∃ z, Written v z ∧ z.ungrouped = e.ungrouped ∧ ¬(z.HasGroups ∧ rule z = false) := by
  cases hc : rule e with
  | false =>
    rw [hc] at h
    have ⟨z, hz, hu, hg⟩ := ih v h
    exact ⟨z, hz, hu, fun h => hg h.left⟩
  | true =>
    rw [hc] at h
    rcases without_parenthesized.mp h with ⟨_, rfl⟩ | ⟨y, hy, rfl⟩
    -- The pair around the part itself is gone, and no group inside of it is missing.
    · rw [text_writing]
      refine ⟨e.grouped, e.written_text hw, e.ungrouped_grouped, fun h => ?_⟩
      rw [hr, hc] at h
      exact nomatch h.right
    · have ⟨z, hz, hu, hg⟩ := ih y hy
      exact ⟨.grouping z, hz.grouping, hu, fun h => hg h.left.grouping⟩

theorem written_parenthesizedIf (c : Bool) (h : e.isWritable) :
    Written (e.writing.parenthesizedIf c).text (groupedIf c e.grouped) := by
  rw [text_parenthesizedIf, text_writing]
  exact (e.written_text h).parenthesizedIf c

mutual

-- Without a pair that was added, a group is missing.
theorem lacks_without : (e : Outline) → e.isWritable → ∀ v, e.writing.Without v → Lacks v e
  | .num _, _, _, h | .bool _, _, _, h => absurd h not_without_plain
  | .neg e, hw, v, h => by
    obtain ⟨y, hy, rfl⟩ := without_after.mp h
    have ⟨z, hz, hu, hg⟩ := lacks_parenthesizedIf (e := e)
      (fun e => e.precedence < Expr.atomic || e.isNeg)
      (by rw [precedence_grouped, isNeg_grouped]) hw (lacks_without e hw) hy
    refine ⟨.neg z, hz.neg, congrArg neg hu, fun h => hg ?_⟩
    have ⟨hz, hp, hn⟩ := h.neg
    simp [hz, Nat.not_lt.mpr hp, hn]
  | .binary op l r, hw, v, h => by
    simp only [isWritable, Bool.and_eq_true] at hw
    have hul := (ungrouped_groupedIf (l.precedence < op.precedence) _).trans l.ungrouped_grouped
    have hur := (ungrouped_groupedIf (r.precedence ≤ op.precedence) _).trans r.ungrouped_grouped
    rcases without_append.mp h with ⟨y, hy, rfl⟩ | ⟨_, hy, rfl⟩
    · have ⟨z, hz, hu, hg⟩ := lacks_parenthesizedIf (fun e => e.precedence < op.precedence)
        (by rw [precedence_grouped]) hw.left (lacks_without l hw.left) hy
      refine ⟨_, hz.binary op (written_parenthesizedIf _ hw.right), ?_, fun h => hg ?_⟩
      · rw [ungrouped, ungrouped, hu, hur]
      · have ⟨hz, hp, _⟩ := h.binary
        exact ⟨hz, decide_eq_false (Nat.not_lt.mpr hp)⟩
    · obtain ⟨y, hy', rfl⟩ := without_after.mp hy
      have ⟨z, hz, hu, hg⟩ := lacks_parenthesizedIf (fun e => e.precedence ≤ op.precedence)
        (by rw [precedence_grouped]) hw.right (lacks_without r hw.right) hy'
      refine ⟨_, (written_parenthesizedIf _ hw.left).binary op hz, ?_, fun h => hg ?_⟩
      · rw [ungrouped, ungrouped, hu, hul]
      · have ⟨_, _, hz, hp⟩ := h.binary
        exact ⟨hz, decide_eq_false (Nat.not_le.mpr hp)⟩
  | .grouping e, hw, v, h => by
    rcases without_parenthesized.mp h with ⟨⟨⟩, _⟩ | ⟨y, hy, rfl⟩
    have ⟨z, hz, hu, hg⟩ := lacks_without e hw y hy
    exact ⟨.grouping z, hz.grouping, hu, fun h => hg h.grouping⟩
  | .cond c t e, hw, v, h => by
    simp only [isWritable, Bool.and_eq_true] at hw
    have hc := c.written_text hw.left.left
    have ht := t.written_text hw.left.right
    have he := e.written_text hw.right
    simp only [writing, without_before, without_after, without_append (w := e.writing),
      without_append (w := t.writing)] at h
    obtain ⟨_, ⟨_, ⟨_, h, rfl⟩, rfl⟩ | ⟨y, hy, rfl⟩, rfl⟩ := h
    · obtain ⟨_, ⟨_, ⟨y, hy, rfl⟩, rfl⟩, rfl⟩ | ⟨y, hy, rfl⟩ := h
      · have ⟨z, hz, hu, hg⟩ := lacks_without c hw.left.left y hy
        rw [t.text_writing, e.text_writing]
        refine ⟨_, .cond hz ht he, ?_, fun h => hg h.cond.left⟩
        rw [ungrouped, ungrouped, hu, t.ungrouped_grouped, e.ungrouped_grouped]
      · have ⟨z, hz, hu, hg⟩ := lacks_without t hw.left.right y hy
        show Lacks ("if " ++ c.writing.text ++ " \x7b " ++ y ++ _ ++ e.writing.text ++ _) _
        rw [c.text_writing, e.text_writing]
        refine ⟨_, .cond hc hz he, ?_, fun h => hg h.cond.right.left⟩
        rw [ungrouped, ungrouped, hu, c.ungrouped_grouped, e.ungrouped_grouped]
    · have ⟨z, hz, hu, hg⟩ := lacks_without e hw.right y hy
      show Lacks ("if " ++ c.writing.text ++ " \x7b " ++ t.writing.text ++ _ ++ y ++ _) _
      rw [c.text_writing, t.text_writing]
      refine ⟨_, .cond hc ht hz, ?_, fun h => hg h.cond.right.right⟩
      rw [ungrouped, ungrouped, hu, c.ungrouped_grouped, t.ungrouped_grouped]
  | .block [], _, _, h => absurd h not_without_plain
  | .block (s :: ss), hw, v, h => by
    obtain ⟨y, hy, rfl⟩ := without_between.mp h
    have ⟨zs, hzs, hu, hg⟩ := lacks_body (s :: ss) hw y hy
    exact ⟨.block zs, .block hzs, congrArg block hu, fun h => hg (Outline.block.inj h)⟩

theorem Item.lacks_without : (s : Item) → s.isWritable → ∀ v, s.writing.Without v →
    ∃ z : Item, v.Reads (z.depths ·) ∧ z.ungrouped = s.ungrouped ∧ z.grouped ≠ z
  | .declare name type none, hw, v, h => by
    have ⟨y, hy, _⟩ := without_between.mp h
    exact absurd hy not_without_plain
  | .declare name type (some e), hw, v, h => by
    simp only [Item.isWritable, Bool.and_eq_true] at hw
    obtain ⟨_, hi, rfl⟩ := without_between.mp h
    obtain ⟨y, hy, rfl⟩ := without_after.mp hi
    have ⟨z, hz, hu, hg⟩ := Outline.lacks_without e hw.right y hy
    refine ⟨_, reads_declare hw.left.left hw.left.right hz.init, ?_, fun h => hg ?_⟩
    · rw [Item.ungrouped, Item.ungrouped, hu]
    · exact Option.some.inj (Item.declare.inj h).right.right
  | .assign name e, hw, v, h => by
    simp only [Item.isWritable, Bool.and_eq_true] at hw
    obtain ⟨y, hy, rfl⟩ := without_between.mp h
    have ⟨z, hz, hu, hg⟩ := Outline.lacks_without e hw.right y hy
    refine ⟨.assign name z, reads_assign hw.left hz, congrArg (Item.assign name) hu, fun h => hg ?_⟩
    exact (Item.assign.inj h).right
  | .discard e, hw, v, h => by
    obtain ⟨y, hy, rfl⟩ := without_before.mp h
    have ⟨z, hz, hu, hg⟩ := Outline.lacks_without e hw y hy
    exact ⟨.discard z, hz.reads.semicolon, congrArg Item.discard hu, fun h => hg (Item.discard.inj h)⟩
  | .result e, hw, v, h => by
    have ⟨z, hz, hu, hg⟩ := Outline.lacks_without e hw v h
    exact ⟨.result z, hz.reads, congrArg Item.result hu, fun h => hg (Item.result.inj h)⟩

theorem lacks_body : (ss : List Item) → areWritable ss → ∀ v, (join (writings ss)).Without v →
    ∃ zs, v.Reads (depthss · zs) ∧ ungroupeds zs = ungroupeds ss ∧ groupeds zs ≠ zs
  | [], _, v, h => absurd h not_without_plain
  | [s], hw, v, h => by
    simp only [areWritable, Bool.and_eq_true] at hw
    have ⟨z, hz, hu, hg⟩ := s.lacks_without hw.left.left v h
    refine ⟨[z], ?_, ?_, fun h => hg (List.cons.inj h).left⟩
    · simpa [depthss] using hz
    · simp [ungroupeds, hu]
  | s :: s' :: ss, hw, v, h => by
    rw [areWritable, Bool.and_eq_true, Bool.and_eq_true] at hw
    rcases without_append.mp h with ⟨y, hy, rfl⟩ | ⟨_, hss, rfl⟩
    · have ⟨z, hz, hu, hg⟩ := s.lacks_without hw.left.left y hy
      have hss := reads_texts (s' :: ss) hw.right
      rw [←texts_writings, ←text_join] at hss
      refine ⟨_, reads_body hz hss, ?_, fun h => hg (List.cons.inj h).left⟩
      rw [ungroupeds, ungroupeds, hu, ungroupeds_groupeds]
    · obtain ⟨y, hy, rfl⟩ := without_after.mp hss
      have ⟨zs, hzs, hu, hg⟩ := lacks_body (s' :: ss) hw.right y hy
      have hs := s.reads_text hw.left.left
      rw [s.text_writing]
      refine ⟨_, reads_body hs hzs, ?_, fun h => hg (List.cons.inj h).right⟩
      rw [ungroupeds, ungroupeds, hu, s.ungrouped_grouped]

end

theorem Written.depths_eq {ws : List Word} (h : Written v e)
    (hw : (Lexer.ofText v).words = ws ++ [.eof]) : Word.depths 0 ws = e.depths 0 := by
  have ⟨vs, hs, hd⟩ := h.reads
  have hv := hs.scans .nil
  rw [List.append_nil] at hv
  have hvs := (hv.words_eq (l := Lexer.ofText v) rfl).left
  obtain rfl : ws = vs := List.append_cancel_right (hw.symm.trans hvs)
  simpa [Word.depths] using hd 0 []

end Outline

theorem Word.depths_map_canonical (d : Nat) (ws : List Word) :
    depths d (ws.map canonical) = depths d ws := by
  induction ws generalizing d with
  | nil => rfl
  | cons w ws ih => simp only [List.map_cons, depths, kind_canonical, ih]

variable {δ : Type} {i j : Interner} {d : Int} {t : Outline} {v : Text}

-- A tree that was parsed has all its groups, so its source was not written for one which lacks some.
theorem Outline.Lacks.ungrouped_ne {e : Program} {t' : Outline} (hv : Lacks v t) (hi : i.Reachable)
    (h : parse v i d = (.ok e, j)) (ht : e.outline? j.lookup? = some t') :
    t'.ungrouped ≠ t.ungrouped := by
  have ⟨ws, u, _, hws, hr, hd, hu⟩ := Parser.sound_parse hi.valid h
  obtain rfl : u = t' := Option.some.inj ((e.outline?_mono j.lookup?_of_issued? hu).symm.trans ht)
  have hl := Lexer.legal_words hws hr
  have ⟨z, hz, hzu, hg⟩ := hv
  have hf := hd.derives.fits hl
  have hw := u.written_text hf.writable
  rw [hf.grouped_eq] at hw
  -- Both outlines have the words of the source, in which numbers may have zeros in front.
  have hdu : u.depths 0 = z.depths 0 := by
    rw [←hz.depths_eq hws, ←hw.depths_eq (words_text hf.writable).left, hd.derives.words_eq hl,
      Word.depths_map_canonical]
  intro hut
  have huz := eq_of_depths u z (hut.trans hzu.symm) hdu
  exact hg (huz ▸ hf.grouped_eq)

-- If a pair of parentheses in the text of a tree is none of its groups, the text without the pair is
-- refused or parsed as a tree that says something else.
theorem added_parentheses_needed {e : Expr δ} (ht : e.outline? i.lookup? = some t) (hw : t.isWritable) :
    ∃ u, e.format (some i) = .ok u ∧ ∀ p : Brackets, p.text = u → p.inside.isBalanced →
      p ∉ t.writing.brackets .group → ∀ (i' : Interner) (d : Int) (e' : Program) (j : Interner),
        i'.Reachable → parse p.removed i' d = (.ok e', j) →
        (e'.outline? j.lookup?).map Outline.ungrouped ≠ some t.ungrouped := by
  refine ⟨t.text, Expr.format_eq ht hw, fun p hp hb hg i' d e' j hi h => ?_⟩
  rw [←t.text_writing] at hp
  have ⟨o, ho⟩ := (t.faithful_writing hw).exists_origin hp hb
  cases o with
  | group => contradiction
  | added =>
    have hv := t.lacks_without hw _ ⟨p, ho, rfl⟩
    have ⟨t', ht', _⟩ := exists_outline_of_parse hi.valid h
    rw [ht']
    exact fun hu => hv.ungrouped_ne hi h ht' (Option.some.inj hu)

-- A product of a sum, which is no group, and a group.
theorem added_parentheses_needed_product :
    let one : Program := .literal .dummy (.num 1)
    let e : Program := .binary .dummy .mul (.binary .dummy .add one one) (.grouping .dummy one)
    let t : Outline := .binary .mul (.binary .add (.num 1) (.num 1)) (.grouping (.num 1))
    let p : Brackets := ⟨[], "1 + 1", " * (1)"⟩
    e.outline? Interner.empty.lookup? = some t ∧ t.isWritable ∧ e.format (some .empty) = .ok p.text ∧
      p.inside.isBalanced ∧ p ∉ t.writing.brackets .group ∧
      ∃ e' j, parse p.removed .empty 1 = (.ok e', j) ∧
        (e'.outline? j.lookup?).map Outline.ungrouped ≠ some t.ungrouped := by
  intro one e t p
  have ht : e.outline? Interner.empty.lookup? = some t := by cbv
  have hp : p.text = t.text := by decide
  have hg : p ∉ t.writing.brackets .group := by decide
  have hr : outlineOf? p.removed .empty 1 =
      some (.binary .add (.num 1) (.binary .mul (.num 1) (.grouping (.num 1)))) := by
    cbv
  obtain ⟨e', j, hr, _⟩ := outlineOf?_eq_some_iff.mp hr
  obtain ⟨u, hu, h⟩ := added_parentheses_needed ht (by decide)
  obtain rfl : u = p.text := by
    rw [Expr.format_eq ht (by decide), ←hp] at hu
    exact (Except.ok.inj hu).symm
  exact ⟨ht, by decide, hu, by decide, hg, e', j, hr, h p rfl (by decide) hg _ _ _ _ .empty hr⟩

end ExprLang
