import Mathlib
import ExprLang.Tree.Category

/-!
Outlines: trees without spans, in which texts stand for symbols. Two trees from different sources or
with different interners are compared by their outlines.
-/
namespace ExprLang

mutual

-- What a tree says, apart from the places of its parts.
inductive Outline
  | num (n : Int)
  | bool (b : Bool)
  | neg (operand : Outline)
  | binary (op : BinOp) (left right : Outline)
  | grouping (inner : Outline)
  | cond (test yes no : Outline)
  | block (body : List Outline.Item)

-- A statement of a block.
inductive Outline.Item
  | declare (name : Text) (type : Option Text) (init : Option Outline)
  | assign (name : Text) (value : Outline)
  | discard (expr : Outline)
  | result (expr : Outline)

end

variable {δ : Type} {name name' : Symbol → Option Text}

-- A literal whose label fits its value.
def Literal.outline? : Literal δ → Option Outline
  | .num n => some (.num n)
  | .bool b => some (.bool b)
  | .loose _ label (.inl n) => if label = ("num" : Text) then some (.num n) else none
  | .loose _ label (.inr b) => if label = ("bool" : Text) then some (.bool b) else none

mutual

-- The outline of a tree in which all parts are where they belong and all symbols have a text.
def Expr.outline? (name : Symbol → Option Text) : Expr δ → Option Outline
  | .literal _ v => v.outline?
  | .unary _ .neg e => do return .neg (← e.outline? name)
  | .binary _ op l r => do return .binary op (← l.outline? name) (← r.outline? name)
  | .grouping _ e => do return .grouping (← e.outline? name)
  | .cond _ c t e => do return .cond (← c.outline? name) (← t.outline? name) (← e.outline? name)
  | .block _ (.mk _ ss) => do return .block (← outlines? name ss)
  | .strayBody .. | .strayStmt .. | .strayBlock .. | .strayAtom .. => none

def Stmt.outline? (name : Symbol → Option Text) : Stmt δ → Option Outline.Item
  | .declare _ ident type init => do
    return .declare (← name ident) (← type.mapM name) (← initOutline? name init)
  | .assign _ ident e => do return .assign (← name ident) (← e.outline? name)
  | .discard _ e => do return .discard (← e.outline? name)
  | .result _ e => do return .result (← e.outline? name)
  | .strayExpr .. | .strayBlock .. | .strayAtom .. => none

def outlines? (name : Symbol → Option Text) : List (Stmt δ) → Option (List Outline.Item)
  | [] => some []
  | s :: ss => do return (← s.outline? name) :: (← outlines? name ss)

def initOutline? (name : Symbol → Option Text) : Option (Expr δ) → Option (Option Outline)
  | none => some none
  | some e => do return some (← e.outline? name)

end

-- More texts for symbols change no outline.
theorem mapM_mono (h : ∀ ⦃s t⦄, name s = some t → name' s = some t) :
    (s : Option Symbol) → {t : Option Text} → s.mapM name = some t → s.mapM name' = some t
  | none, _, ht => ht
  | some s, _, ht => by
    simp only [Option.mapM_some, Option.map_eq_map, Option.map_eq_some_iff] at ht ⊢
    have ⟨u, hu, ht⟩ := ht
    exact ⟨u, h hu, ht⟩

mutual

theorem Expr.outline?_mono (h : ∀ ⦃s t⦄, name s = some t → name' s = some t) :
    (e : Expr δ) → {t : Outline} → e.outline? name = some t → e.outline? name' = some t
  | .literal .., _, ht => ht
  | .unary _ .neg e, _, ht => by
    simp only [Expr.outline?, Option.bind_eq_bind, Option.bind_eq_some_iff] at ht ⊢
    have ⟨u, hu, ht⟩ := ht
    exact ⟨u, e.outline?_mono h hu, ht⟩
  | .binary _ _ l r, _, ht => by
    simp only [Expr.outline?, Option.bind_eq_bind, Option.bind_eq_some_iff] at ht ⊢
    have ⟨u, hu, v, hv, ht⟩ := ht
    exact ⟨u, l.outline?_mono h hu, v, r.outline?_mono h hv, ht⟩
  | .grouping _ e, _, ht => by
    simp only [Expr.outline?, Option.bind_eq_bind, Option.bind_eq_some_iff] at ht ⊢
    have ⟨u, hu, ht⟩ := ht
    exact ⟨u, e.outline?_mono h hu, ht⟩
  | .cond _ c t e, _, ht => by
    simp only [Expr.outline?, Option.bind_eq_bind, Option.bind_eq_some_iff] at ht ⊢
    have ⟨u, hu, v, hv, w, hw, ht⟩ := ht
    exact ⟨u, c.outline?_mono h hu, v, t.outline?_mono h hv, w, e.outline?_mono h hw, ht⟩
  | .block _ (.mk _ ss), _, ht => by
    simp only [Expr.outline?, Option.bind_eq_bind, Option.bind_eq_some_iff] at ht ⊢
    have ⟨us, hus, ht⟩ := ht
    exact ⟨us, outlines?_mono h ss hus, ht⟩

theorem Stmt.outline?_mono (h : ∀ ⦃s t⦄, name s = some t → name' s = some t) :
    (s : Stmt δ) → {t : Outline.Item} → s.outline? name = some t → s.outline? name' = some t
  | .declare _ ident type init, _, ht => by
    simp only [Stmt.outline?, Option.bind_eq_bind, Option.bind_eq_some_iff] at ht ⊢
    have ⟨n, hn, u, hu, v, hv, ht⟩ := ht
    exact ⟨n, h hn, u, mapM_mono h type hu, v, initOutline?_mono h init hv, ht⟩
  | .assign _ _ e, _, ht => by
    simp only [Stmt.outline?, Option.bind_eq_bind, Option.bind_eq_some_iff] at ht ⊢
    have ⟨n, hn, u, hu, ht⟩ := ht
    exact ⟨n, h hn, u, e.outline?_mono h hu, ht⟩
  | .discard _ e, _, ht | .result _ e, _, ht => by
    simp only [Stmt.outline?, Option.bind_eq_bind, Option.bind_eq_some_iff] at ht ⊢
    have ⟨u, hu, ht⟩ := ht
    exact ⟨u, e.outline?_mono h hu, ht⟩

theorem outlines?_mono (h : ∀ ⦃s t⦄, name s = some t → name' s = some t) :
    (ss : List (Stmt δ)) → {ts : List Outline.Item} →
    outlines? name ss = some ts → outlines? name' ss = some ts
  | [], _, ht => ht
  | s :: ss, _, ht => by
    simp only [outlines?, Option.bind_eq_bind, Option.bind_eq_some_iff] at ht ⊢
    have ⟨u, hu, us, hus, ht⟩ := ht
    exact ⟨u, s.outline?_mono h hu, us, outlines?_mono h ss hus, ht⟩

theorem initOutline?_mono (h : ∀ ⦃s t⦄, name s = some t → name' s = some t) :
    (e : Option (Expr δ)) → {t : Option Outline} →
    initOutline? name e = some t → initOutline? name' e = some t
  | none, _, ht => ht
  | some e, _, ht => by
    simp only [initOutline?, Option.bind_eq_bind, Option.bind_eq_some_iff] at ht ⊢
    have ⟨u, hu, ht⟩ := ht
    exact ⟨u, e.outline?_mono h hu, ht⟩

end

theorem Stmt.outline?_result {span : Span} {e : Expr δ} {t : Outline.Item}
    (h : (result span e).outline? name = some t) : ∃ u, t = .result u := by
  simp only [outline?, Option.bind_eq_bind, Option.bind_eq_some_iff] at h
  have ⟨u, _, h⟩ := h
  exact ⟨u, Option.some.inj h.symm⟩

theorem Stmt.eq_result_of_outline? {s : Stmt δ} {t : Outline}
    (h : s.outline? name = some (.result t)) : ∃ span e, s = .result span e := by
  cases s with
  | result span e => exact ⟨span, e, rfl⟩
  | declare | assign | discard =>
    simp [outline?, Option.bind_eq_some_iff] at h
  | strayExpr | strayBlock | strayAtom => cases h

namespace Outline

mutual

-- The number of levels that an outline opens one inside the other. Operators and statements open
-- none.
def nesting : Outline → Nat
  | .num _ | .bool _ => 0
  | .neg e | .grouping e => e.nesting + 1
  | .binary _ l r => max l.nesting r.nesting
  | .cond c t e => max c.nesting (max t.nesting e.nesting) + 1
  | .block ss => nestings ss + 1

def Item.nesting : Item → Nat
  | .declare _ _ none => 0
  | .declare _ _ (some e) | .assign _ e | .discard e | .result e => e.nesting

def nestings : List Item → Nat
  | [] => 0
  | s :: ss => max s.nesting (nestings ss)

end

mutual

-- The outline with every group replaced by what is in it.
def ungrouped : Outline → Outline
  | .num n => .num n
  | .bool b => .bool b
  | .neg e => .neg e.ungrouped
  | .binary op l r => .binary op l.ungrouped r.ungrouped
  | .grouping e => e.ungrouped
  | .cond c t e => .cond c.ungrouped t.ungrouped e.ungrouped
  | .block ss => .block (ungroupeds ss)

def Item.ungrouped : Item → Item
  | .declare name type none => .declare name type none
  | .declare name type (some e) => .declare name type (some e.ungrouped)
  | .assign name e => .assign name e.ungrouped
  | .discard e => .discard e.ungrouped
  | .result e => .result e.ungrouped

def ungroupeds : List Item → List Item
  | [] => []
  | s :: ss => s.ungrouped :: ungroupeds ss

end

end Outline
end ExprLang
