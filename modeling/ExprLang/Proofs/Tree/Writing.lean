import ExprLang.Proofs.Token.Spelling
import ExprLang.Proofs.Tree.Outline

/-!
The text of a tree depends on its outline only, and is put together from the texts of its parts.
Walking down a chain of operators and back comes to the same.
-/
namespace ExprLang

namespace Outline

def precedence : Outline → Nat
  | .binary op _ _ => op.precedence
  | .cond .. => 0
  | _ => Expr.atomic

def isNeg : Outline → Bool
  | .neg _ => true
  | _ => false

def typeText : Option Text → Text
  | none => []
  | some type => ": " ++ type

mutual

-- The text of an outline, with parentheses where they are needed.
def text : Outline → Text
  | .num n => toString n
  | .bool b => toString b
  | .neg e => "-" ++ e.text.parenthesizedIf (e.precedence < Expr.atomic || e.isNeg)
  | .binary op l r =>
    l.text.parenthesizedIf (l.precedence < op.precedence) ++
      (s!" {op.spelling} " ++ r.text.parenthesizedIf (r.precedence ≤ op.precedence))
  | .grouping e => e.text.parenthesized
  | .cond c t e =>
    "if " ++ c.text ++ " \x7b " ++ t.text ++ " \x7d else \x7b " ++ e.text ++ " \x7d"
  | .block ss => Text.braced (texts ss)

def Item.text : Item → Text
  | .declare name type init => "let " ++ name ++ typeText type ++ initText init ++ ";"
  | .assign name e => name ++ " = " ++ e.text ++ ";"
  | .discard e => e.text ++ ";"
  | .result e => e.text

def texts : List Item → List Text
  | [] => []
  | s :: ss => s.text :: texts ss

def initText : Option Outline → Text
  | none => []
  | some e => " = " ++ e.text

end

def Item.isResult : Item → Bool
  | .result _ => true
  | _ => false

mutual

-- Whether the text of an outline can be read back: its numbers are not too large, its names are no
-- keywords, and an expression without a semicolon is the last statement of its block.
def isWritable : Outline → Bool
  | .num n => 0 ≤ n && n ≤ SyntaxError.maxLiteral
  | .bool _ => true
  | .neg e | .grouping e => e.isWritable
  | .binary _ l r => l.isWritable && r.isWritable
  | .cond c t e => c.isWritable && t.isWritable && e.isWritable
  | .block ss => areWritable ss

def Item.isWritable : Item → Bool
  | .declare name type none => name.isName && type.all Text.isName
  | .declare name type (some e) => name.isName && type.all Text.isName && e.isWritable
  | .assign name e => name.isName && e.isWritable
  | .discard e | .result e => e.isWritable

def areWritable : List Item → Bool
  | [] => true
  | s :: ss => s.isWritable && (!s.isResult || ss.isEmpty) && areWritable ss

end

end Outline

variable {δ : Type} {i : Interner}

theorem Literal.precedence_eq {v : Literal δ} {t : Outline} (h : v.outline? = some t) :
    t.precedence = Expr.atomic ∧ t.isNeg = false := by
  cases v with
  | num n | bool b =>
    cases h
    exact ⟨rfl, rfl⟩
  | loose ok label value =>
    cases value with
    | inl n | inr b =>
      simp only [outline?, Option.ite_none_right_eq_some, Option.some.injEq] at h
      obtain ⟨_, rfl⟩ := h
      exact ⟨rfl, rfl⟩

-- Numbers that can be read can be written.
theorem Outline.decimal_eq {n : Int} (h : (num n).isWritable) : Text.decimal n = .ok (num n).text := by
  simp only [isWritable, Bool.and_eq_true, decide_eq_true_eq] at h
  refine if_pos (Text.isWritable_of_natAbs_lt ?_)
  have hm : SyntaxError.maxLiteral = 2147483647 := rfl
  have hp : Nat.pow 10 20 = 100000000000000000000 := rfl
  omega

theorem Literal.format_eq {v : Literal δ} {t : Outline} (h : v.outline? = some t)
    (hw : t.isWritable) : v.format = .ok t.text := by
  cases v with
  | num n =>
    cases h
    exact Outline.decimal_eq hw
  | bool b =>
    cases h
    rfl
  | loose ok label value =>
    cases value with
    | inl n =>
      simp only [outline?, Option.ite_none_right_eq_some, Option.some.injEq] at h
      obtain ⟨rfl, rfl⟩ := h
      exact Outline.decimal_eq hw
    | inr b =>
      simp only [outline?, Option.ite_none_right_eq_some, Option.some.injEq] at h
      obtain ⟨rfl, rfl⟩ := h
      rfl

-- A tree binds as tightly as its outline.
theorem Expr.precedence_eq {name : Symbol → Option Text} {e : Expr δ} {t : Outline}
    (h : e.outline? name = some t) : e.precedence = t.precedence ∧ e.isUnary = t.isNeg := by
  cases e with
  | literal span v =>
    have ⟨hp, hn⟩ := Literal.precedence_eq h
    exact ⟨hp.symm, hn.symm⟩
  | unary span op e =>
    cases op
    simp only [outline?, Option.bind_eq_bind, Option.bind_eq_some_iff] at h
    obtain ⟨u, -, ⟨⟩⟩ := h
    exact ⟨rfl, rfl⟩
  | binary span op l r =>
    simp only [outline?, Option.bind_eq_bind, Option.bind_eq_some_iff] at h
    obtain ⟨u, -, v, -, ⟨⟩⟩ := h
    exact ⟨rfl, rfl⟩
  | grouping span e =>
    simp only [outline?, Option.bind_eq_bind, Option.bind_eq_some_iff] at h
    obtain ⟨u, -, ⟨⟩⟩ := h
    exact ⟨rfl, rfl⟩
  | cond span c t e =>
    simp only [outline?, Option.bind_eq_bind, Option.bind_eq_some_iff] at h
    obtain ⟨u, -, v, -, w, -, ⟨⟩⟩ := h
    exact ⟨rfl, rfl⟩
  | block span b =>
    cases b
    simp only [outline?, Option.bind_eq_bind, Option.bind_eq_some_iff] at h
    obtain ⟨us, -, ⟨⟩⟩ := h
    exact ⟨rfl, rfl⟩
  | strayBody | strayStmt | strayBlock | strayAtom => cases h

namespace Phrase

-- One step of the way back through a chain.
theorem extendAll_link (p : Phrase) (k : Link) (links : List Link) :
    p.extendAll (k :: links) = k.right () >>= fun right =>
      ((p.wrapIf (p.precedence < k.op.precedence)).append
        (s!" {k.op.spelling} " ++ right.parenthesizedIf (k.precedence ≤ k.op.precedence))
        k.op.precedence).extendAll links := by
  simp only [extendAll, List.foldlM_cons, extend, bind_assoc, pure_bind]

theorem extendAll_cons (p : Phrase) {k : Link} {right : Text} (h : k.right () = .ok right)
    (links : List Link) :
    p.extendAll (k :: links) =
      ((p.wrapIf (p.precedence < k.op.precedence)).append
        (s!" {k.op.spelling} " ++ right.parenthesizedIf (k.precedence ≤ k.op.precedence))
        k.op.precedence).extendAll links := by
  rw [extendAll_link, h]
  rfl

end Phrase

theorem Names.name_eq {s : Symbol} {x : Text} (h : i.lookup? s = some x) :
    name (some i) s = .ok x := by
  simp [name, h]

-- A text with a precedence, as far as an expression of a chain is concerned.
def Phrase.Writes (f : List Phrase.Link → Except RenderError Text) (t : Outline) : Prop :=
  ∀ links, ∃ p : Phrase, p.text = t.text ∧ p.precedence = t.precedence ∧ f links = p.extendAll links

theorem Phrase.Writes.nil {f : List Phrase.Link → Except RenderError Text} {t : Outline}
    (h : Writes f t) : f [] = .ok t.text := by
  have ⟨p, hp, _, hf⟩ := h []
  rw [hf, ←hp]
  rfl

theorem Phrase.Writes.ofText {t : Outline} (h : t.precedence = n) :
    Writes (fun links => (Phrase.ofText t.text n).extendAll links) t :=
  fun _ => ⟨.ofText t.text n, Phrase.text_ofText .., h.symm, rfl⟩

mutual

theorem Expr.formatWith_eq : (e : Expr δ) → {t : Outline} → e.outline? i.lookup? = some t →
    t.isWritable → Phrase.Writes (e.formatWith (some i)) t
  | .literal _ v, t, h, hw => by
    intro links
    rw [Expr.formatWith, Literal.format_eq h hw]
    exact Phrase.Writes.ofText (Literal.precedence_eq h).left links
  | .unary _ .neg e, _, h, hw => by
    simp only [Expr.outline?, Option.bind_eq_bind, Option.bind_eq_some_iff] at h
    obtain ⟨u, hu, ⟨⟩⟩ := h
    have he := (e.formatWith_eq hu hw).nil
    have ⟨hp, hn⟩ := Expr.precedence_eq hu
    intro links
    rw [Expr.formatWith, he, hp, hn]
    exact Phrase.Writes.ofText (t := u.neg) rfl links
  | .binary _ op l r, _, h, hw => by
    simp only [Expr.outline?, Option.bind_eq_bind, Option.bind_eq_some_iff] at h
    obtain ⟨u, hu, v, hv, ⟨⟩⟩ := h
    simp only [Outline.isWritable, Bool.and_eq_true] at hw
    have hr := (r.formatWith_eq hv hw.right).nil
    intro links
    have ⟨p, ht, hp, hl⟩ := l.formatWith_eq hu hw.left
      (⟨op, r.precedence, fun _ => r.formatWith (some i) []⟩ :: links)
    rw [Expr.formatWith, hl, Phrase.extendAll_cons p hr]
    refine ⟨_, ?_, rfl, rfl⟩
    rw [Phrase.text_append, Phrase.text_wrapIf, ht, hp, (Expr.precedence_eq hv).left]
    rfl
  | .grouping _ e, _, h, hw => by
    simp only [Expr.outline?, Option.bind_eq_bind, Option.bind_eq_some_iff] at h
    obtain ⟨u, hu, ⟨⟩⟩ := h
    have he := (e.formatWith_eq hu hw).nil
    intro links
    rw [Expr.formatWith, he]
    exact Phrase.Writes.ofText (t := u.grouping) rfl links
  | .cond _ c t e, _, h, hw => by
    simp only [Expr.outline?, Option.bind_eq_bind, Option.bind_eq_some_iff] at h
    obtain ⟨u, hu, v, hv, w, hw', ⟨⟩⟩ := h
    simp only [Outline.isWritable, Bool.and_eq_true] at hw
    have hc := (c.formatWith_eq hu hw.left.left).nil
    have ht := (t.formatWith_eq hv hw.left.right).nil
    have he := (e.formatWith_eq hw' hw.right).nil
    intro links
    rw [Expr.formatWith, hc, ht, he]
    exact Phrase.Writes.ofText (t := u.cond v w) rfl links
  | .block _ (.mk _ ss), _, h, hw => by
    simp only [Expr.outline?, Option.bind_eq_bind, Option.bind_eq_some_iff] at h
    obtain ⟨us, hus, ⟨⟩⟩ := h
    have hss := formatStmts_eq ss hus hw
    intro links
    rw [Expr.formatWith, hss]
    exact Phrase.Writes.ofText (t := .block us) rfl links

theorem Stmt.format_eq : (s : Stmt δ) → {t : Outline.Item} → s.outline? i.lookup? = some t →
    t.isWritable → s.format (some i) = .ok t.text
  | .declare _ ident type init, _, h, hw => by
    simp only [Stmt.outline?, Option.bind_eq_bind, Option.bind_eq_some_iff] at h
    obtain ⟨x, hx, type', htype, init', hinit, ⟨⟩⟩ := h
    have hall : init'.all Outline.isWritable := by
      cases init' with
      | none => rfl
      | some => exact (Bool.and_eq_true_iff.mp hw).right
    rw [Stmt.format, Names.name_eq hx]
    cases type with
    | none =>
      cases htype
      exact bind_initText init hinit hall _
    | some type =>
      simp only [Option.mapM_some, Option.map_eq_map, Option.map_eq_some_iff] at htype
      obtain ⟨y, hy, rfl⟩ := htype
      dsimp only
      rw [Names.name_eq hy]
      exact bind_initText init hinit hall _
  | .assign _ ident e, _, h, hw => by
    simp only [Stmt.outline?, Option.bind_eq_bind, Option.bind_eq_some_iff] at h
    obtain ⟨x, hx, u, hu, ⟨⟩⟩ := h
    simp only [Outline.Item.isWritable, Bool.and_eq_true] at hw
    rw [Stmt.format, Names.name_eq hx, (e.formatWith_eq hu hw.right).nil]
    rfl
  | .discard _ e, _, h, hw => by
    simp only [Stmt.outline?, Option.bind_eq_bind, Option.bind_eq_some_iff] at h
    obtain ⟨u, hu, ⟨⟩⟩ := h
    rw [Stmt.format, (e.formatWith_eq hu hw).nil]
    rfl
  | .result _ e, _, h, hw => by
    simp only [Stmt.outline?, Option.bind_eq_bind, Option.bind_eq_some_iff] at h
    obtain ⟨u, hu, ⟨⟩⟩ := h
    rw [Stmt.format, (e.formatWith_eq hu hw).nil]
    rfl

theorem formatStmts_eq : (ss : List (Stmt δ)) → {ts : List Outline.Item} →
    outlines? i.lookup? ss = some ts → Outline.areWritable ts →
    formatStmts (some i) ss = .ok (Outline.texts ts)
  | [], _, h, _ => by
    cases h
    rfl
  | s :: ss, _, h, hw => by
    simp only [outlines?, Option.bind_eq_bind, Option.bind_eq_some_iff] at h
    obtain ⟨t, ht, ts, hts, ⟨⟩⟩ := h
    simp only [Outline.areWritable, Bool.and_eq_true] at hw
    rw [formatStmts, s.format_eq ht hw.left.left, formatStmts_eq ss hts hw.right]
    rfl

-- The first value of a declaration, with what is done with its text.
theorem bind_initText : (e : Option (Expr δ)) → {t : Option Outline} →
    initOutline? i.lookup? e = some t → t.all Outline.isWritable →
    (f : Text → Except RenderError Text) →
    (match e with
      | none => .ok [] >>= f
      | some e => ((Text.ofString " = " ++ ·) <$> e.formatWith (some i) []) >>= f) = f (Outline.initText t)
  | none, _, h, _, _ => by
    cases h
    rfl
  | some e, _, h, hw, _ => by
    simp only [initOutline?, Option.bind_eq_bind, Option.bind_eq_some_iff] at h
    obtain ⟨u, hu, ⟨⟩⟩ := h
    simp only [(e.formatWith_eq hu hw).nil]
    rfl

end

-- What is written for a tree is the text of its outline.
theorem Expr.format_eq {e : Expr δ} {t : Outline} (h : e.outline? i.lookup? = some t)
    (hw : t.isWritable) : e.format (some i) = .ok t.text :=
  (e.formatWith_eq h hw).nil

end ExprLang
