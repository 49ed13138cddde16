import ExprLang.Proofs.Token.Spelling
import ExprLang.Proofs.Tree.Writing

/-!
The words that the text of an outline is read as. Its parentheses are groups: an outline and the one
with these groups have the same text, and are the same apart from groups.
-/
namespace ExprLang

open Token Word

namespace Outline

def groupedIf (c : Bool) (e : Outline) : Outline :=
  if c then .grouping e else e

mutual

-- The outline with a group for each pair of parentheses in its text.
def grouped : Outline → Outline
  | .num n => .num n
  | .bool b => .bool b
  | .neg e => .neg (groupedIf (e.precedence < Expr.atomic || e.isNeg) e.grouped)
  | .binary op l r =>
    .binary op (groupedIf (l.precedence < op.precedence) l.grouped)
      (groupedIf (r.precedence ≤ op.precedence) r.grouped)
  | .grouping e => .grouping e.grouped
  | .cond c t e => .cond c.grouped t.grouped e.grouped
  | .block ss => .block (groupeds ss)

def Item.grouped : Item → Item
  | .declare name type none => .declare name type none
  | .declare name type (some e) => .declare name type (some e.grouped)
  | .assign name e => .assign name e.grouped
  | .discard e => .discard e.grouped
  | .result e => .result e.grouped

def groupeds : List Item → List Item
  | [] => []
  | s :: ss => s.grouped :: groupeds ss

end

def bracketed (ws : List Word) : List Word :=
  fixed .lparen :: (ws ++ [fixed .rparen])

def bracketedIf (c : Bool) (ws : List Word) : List Word :=
  if c then bracketed ws else ws

def typeWords : Option Text → List Word
  | none => []
  | some type => [fixed .colon, .ident type.encode]

mutual

def words : Outline → List Word
  | .num n => [.number (digits n.toNat)]
  | .bool b => [fixed (if b then .kwTrue else .kwFalse)]
  | .neg e => fixed .minus :: bracketedIf (e.precedence < Expr.atomic || e.isNeg) e.words
  | .binary op l r =>
    bracketedIf (l.precedence < op.precedence) l.words ++
      fixed op.kind :: bracketedIf (r.precedence ≤ op.precedence) r.words
  | .grouping e => bracketed e.words
  | .cond c t e =>
    fixed .kwIf :: (c.words ++ fixed .lbrace :: (t.words ++ fixed .rbrace :: fixed .kwElse ::
      fixed .lbrace :: (e.words ++ [fixed .rbrace])))
  | .block ss => fixed .lbrace :: (wordss ss ++ [fixed .rbrace])

def Item.words : Item → List Word
  | .declare name type none =>
    fixed .kwLet :: .ident name.encode :: (typeWords type ++ ([] ++ [fixed .semi]))
  | .declare name type (some e) =>
    fixed .kwLet :: .ident name.encode :: (typeWords type ++ (fixed .eq :: e.words ++ [fixed .semi]))
  | .assign name e => .ident name.encode :: fixed .eq :: (e.words ++ [fixed .semi])
  | .discard e => e.words ++ [fixed .semi]
  | .result e => e.words

def wordss : List Item → List Word
  | [] => []
  | s :: ss => s.words ++ wordss ss

end

section

variable {e : Outline} {c : Bool}

theorem precedence_grouped (e : Outline) : e.grouped.precedence = e.precedence := by
  cases e <;> rfl

theorem isNeg_grouped (e : Outline) : e.grouped.isNeg = e.isNeg := by
  cases e <;> rfl

theorem ungrouped_groupedIf (c : Bool) (e : Outline) : (groupedIf c e).ungrouped = e.ungrouped := by
  cases c <;> rfl

-- A part that is put into parentheses by some rule, but is not if it is a group.
theorem text_groupedIf (rule : Outline → Bool) (hg : ∀ e, rule (.grouping e) = false)
    (hr : rule e.grouped = rule e) (ht : e.grouped.text = e.text) :
    (groupedIf (rule e) e.grouped).text.parenthesizedIf (rule (groupedIf (rule e) e.grouped)) =
      e.text.parenthesizedIf (rule e) := by
  cases h : rule e with
  | false =>
    show e.grouped.text.parenthesizedIf (rule e.grouped) = _
    rw [hr, h, ht]
  | true =>
    show e.grouped.text.parenthesized.parenthesizedIf (rule (.grouping e.grouped)) = _
    rw [hg, ht]
    rfl

end

mutual

-- Groups in place of parentheses do not change the text.
theorem text_grouped : (e : Outline) → e.grouped.text = e.text
  | .num _ | .bool _ => rfl
  | .neg e => by
    have h := text_groupedIf (fun e => e.precedence < Expr.atomic || e.isNeg) (fun _ => rfl)
      (by rw [precedence_grouped, isNeg_grouped]) e.text_grouped
    simp only [grouped, text, h]
  | .binary op l r => by
    have ho : op.precedence < Expr.atomic := by cases op <;> decide
    have hl := text_groupedIf (fun e => e.precedence < op.precedence)
      (fun _ => decide_eq_false (Nat.not_lt.mpr (Nat.le_of_lt ho)))
      (by rw [precedence_grouped]) l.text_grouped
    have hr := text_groupedIf (fun e => e.precedence ≤ op.precedence)
      (fun _ => decide_eq_false (Nat.not_le.mpr ho)) (by rw [precedence_grouped]) r.text_grouped
    simp only [grouped, text, hl, hr]
  | .grouping e => by simp only [grouped, text, e.text_grouped]
  | .cond c t e => by simp only [grouped, text, c.text_grouped, t.text_grouped, e.text_grouped]
  | .block ss => by simp only [grouped, text, texts_groupeds ss]

theorem Item.text_grouped : (s : Item) → s.grouped.text = s.text
  | .declare _ _ none => rfl
  | .declare _ _ (some e) => by simp only [Item.grouped, Item.text, initText, e.text_grouped]
  | .assign _ e | .discard e | .result e => by
    simp only [Item.grouped, Item.text, e.text_grouped]

theorem texts_groupeds : (ss : List Item) → texts (groupeds ss) = texts ss
  | [] => rfl
  | s :: ss => by simp only [groupeds, texts, s.text_grouped, texts_groupeds ss]

end

mutual

-- Only groups are added.
theorem ungrouped_grouped : (e : Outline) → e.grouped.ungrouped = e.ungrouped
  | .num _ | .bool _ => rfl
  | .neg e => by simp only [grouped, ungrouped, ungrouped_groupedIf, e.ungrouped_grouped]
  | .binary _ l r => by
    simp only [grouped, ungrouped, ungrouped_groupedIf, l.ungrouped_grouped, r.ungrouped_grouped]
  | .grouping e => by simp only [grouped, ungrouped, e.ungrouped_grouped]
  | .cond c t e => by
    simp only [grouped, ungrouped, c.ungrouped_grouped, t.ungrouped_grouped, e.ungrouped_grouped]
  | .block ss => by simp only [grouped, ungrouped, ungroupeds_groupeds ss]

theorem Item.ungrouped_grouped : (s : Item) → s.grouped.ungrouped = s.ungrouped
  | .declare _ _ none => rfl
  | .declare _ _ (some e) | .assign _ e | .discard e | .result e => by
    simp only [Item.grouped, Item.ungrouped, e.ungrouped_grouped]

theorem ungroupeds_groupeds : (ss : List Item) → ungroupeds (groupeds ss) = ungroupeds ss
  | [] => rfl
  | s :: ss => by simp only [groupeds, ungroupeds, s.ungrouped_grouped, ungroupeds_groupeds ss]

end

open Text

theorem spells_parenthesizedIf {x : Text} {ws : List Word} (c : Bool) (h : Spells x ws) :
    Spells (x.parenthesizedIf c) (bracketedIf c ws) := by
  cases c with
  | false => exact h
  | true => exact h.parenthesized

theorem opens_op (op : BinOp) : Opens (s!" {op.spelling} " : String) [fixed op.kind] :=
  .between op.isFixed_kind (by cases op <;> rfl)

theorem closes_op (op : BinOp) : Text.closes (s!" {op.spelling} " : String) := by
  cases op <;> decide

theorem spells_type {type : Option Text} (h : type.all isName) :
    typeText type = [] ∧ typeWords type = [] ∨
      Spells (typeText type) (typeWords type) ∧ (typeText type).closes := by
  cases type with
  | none => exact .inl ⟨rfl, rfl⟩
  | some type =>
    refine .inr ⟨?_, closes_append (by decide) _⟩
    exact (Opens.spaced (k := .colon) rfl rfl).append (.ident h)

theorem opens_else : Opens " \x7d else \x7b " [fixed .rbrace, fixed .kwElse, fixed .lbrace] :=
  have rbrace := Opens.between (k := .rbrace) (s := " \x7d ") rfl rfl
  have kwElse := Opens.spaced (k := .kwElse) (s := "else ") rfl rfl
  have lbrace := Opens.spaced (k := .lbrace) (s := "\x7b ") rfl rfl
  rbrace.opens (kwElse.opens lbrace)

theorem endsBefore_numeral {ds : Bytes} (h : Kind.isNumeral ds) : Kind.minus.endsBefore ds := by
  have table : ∀ b : UInt8, isDigit b → Kind.minus.extendedBy b = false :=
    forall_byte (by decide +kernel)
  cases ds with
  | nil => rfl
  | cons b bs =>
    simp only [Kind.isNumeral, List.all_cons, Bool.and_eq_true] at h
    exact (Kind.endsBefore_cons ..).mpr (table b h.right.left)

-- Behind a minus, no part starts with what would make another token of it.
theorem endsBefore_minus {e : Outline} (h : e.isWritable) :
    Kind.minus.endsBefore
      (e.text.parenthesizedIf (e.precedence < Expr.atomic || e.isNeg)).encode := by
  have paren (t : Text) : t.parenthesized.closes := closes_append (closes_append (by decide) _) _
  cases e with
  | num n =>
    simp only [isWritable, Bool.and_eq_true, decide_eq_true_eq] at h
    have hn : (n.toNat : Int) = n := Int.toNat_of_nonneg h.left
    have hd := isNumeral_digits n.toNat
    have he : (num n).text.encode = digits n.toNat := by rw [text, ←hn, encode_toString, hn]
    show Kind.minus.endsBefore (num n).text.encode
    rw [he]
    exact endsBefore_numeral hd
  | bool b => cases b <;> decide
  | binary op l r =>
    have ho : decide (op.precedence < Expr.atomic) = true := by cases op <;> rfl
    rw [precedence, ho]
    exact endsBefore_of_closes (paren _) _
  | neg | grouping | cond => exact endsBefore_of_closes (paren _) _
  | block ss =>
    cases ss with
    | nil => decide
    | cons => exact endsBefore_of_closes (closes_append (closes_append (by decide) _) _) _

mutual

-- The text of an outline is read as its words.
theorem spells : (e : Outline) → e.isWritable → Spells e.text e.words
  | .num n, h => by
    simp only [isWritable, Bool.and_eq_true, decide_eq_true_eq] at h
    have hn : (n.toNat : Int) = n := Int.toNat_of_nonneg h.left
    have hs := Spells.number (n := n.toNat) (by omega)
    rwa [hn] at hs
  | .bool true, _ => .fixed (k := .kwTrue) rfl
  | .bool false, _ => .fixed (k := .kwFalse) rfl
  | .neg e, h => (spells_parenthesizedIf _ (e.spells h)).minus (endsBefore_minus h)
  | .binary op l r, h => by
    simp only [isWritable, Bool.and_eq_true] at h
    have hl := spells_parenthesizedIf (l.precedence < op.precedence) (l.spells h.left)
    have hr := spells_parenthesizedIf (r.precedence ≤ op.precedence) (r.spells h.right)
    exact hl.append ((opens_op op).append hr) (closes_append (closes_op op) _)
  | .grouping e, h => (e.spells h).parenthesized
  | .cond c t e, h => by
    simp only [isWritable, Bool.and_eq_true] at h
    have hc := (Opens.spaced (k := .kwIf) rfl rfl).append (c.spells h.left.left)
    have ht := (hc.opens (.between (k := .lbrace) rfl rfl) (by decide)).append (t.spells h.left.right)
    have he := (ht.opens opens_else (by decide)).append (e.spells h.right)
    exact he.brace.of_eq (by simp [words])
  | .block ss, h => by
    have hss := spells_texts ss h
    cases ss with
    | nil =>
      have lbrace := Opens.fixed (k := .lbrace) rfl fun _ => rfl
      exact lbrace.append (.fixed (k := .rbrace) rfl)
    | cons s ss =>
      have lbrace := Opens.spaced (k := .lbrace) (s := "\x7b ") rfl rfl
      exact (lbrace.append hss).brace

theorem Item.spells : (s : Item) → s.isWritable → Spells s.text s.words
  | .declare name type none, h => by
    simp only [Item.isWritable, Bool.and_eq_true] at h
    have hn := (Opens.spaced (k := .kwLet) rfl rfl).append (.ident h.left)
    have ht := (hn.optional (spells_type h.right)).optional (u := []) (.inl ⟨rfl, rfl⟩)
    exact ht.semicolon.of_eq (by simp [Item.words])
  | .declare name type (some e), h => by
    simp only [Item.isWritable, Bool.and_eq_true] at h
    have hn := (Opens.spaced (k := .kwLet) rfl rfl).append (.ident h.left.left)
    have ht := hn.optional (spells_type h.left.right)
    have he := (Opens.between (k := .eq) (s := " = ") rfl rfl).append (e.spells h.right)
    have hi := ht.append he (closes_append (by decide) _)
    exact hi.semicolon.of_eq (by simp [Item.words])
  | .assign name e, h => by
    simp only [Item.isWritable, Bool.and_eq_true] at h
    have hn := (Spells.ident h.left).opens (.between (k := .eq) (s := " = ") rfl rfl) (by decide)
    exact (hn.append (e.spells h.right)).semicolon
  | .discard e, h => (e.spells h).semicolon
  | .result e, h => e.spells h

theorem spells_texts : (ss : List Item) → areWritable ss →
    Spells (Text.join " " (texts ss)) (wordss ss)
  | [], _ => ⟨fun _ => .done, by simp [wordss]⟩
  | [s], h => by
    simp only [areWritable, Bool.and_eq_true] at h
    have hs := s.spells h.left.left
    simpa [texts, wordss, Text.join] using hs
  | s :: s' :: ss, h => by
    rw [areWritable, Bool.and_eq_true, Bool.and_eq_true] at h
    have hs := s.spells h.left.left
    have hss := Opens.blank.append (spells_texts (s' :: ss) h.right)
    have hj : Text.join " " (texts (s :: s' :: ss)) =
        s.text ++ (" " ++ Text.join " " (texts (s' :: ss))) := by
      simp [Text.join, texts]
    exact hj ▸ hs.append hss (closes_append (by decide) _)

end

end Outline
end ExprLang
