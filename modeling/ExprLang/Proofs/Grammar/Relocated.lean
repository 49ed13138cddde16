import ExprLang.Proofs.Grammar.Located

/-!
Trees with one outline over the same tokens in different places. They differ by these places and by
their symbols only.
-/
namespace ExprLang

open Token Word

mutual

-- Trees of the same shape and with the same literals and operators, whose spans are related by `R` and
-- whose symbols are related by `S`.
inductive Expr.Alike (R : Span → Span → Prop) (S : Symbol → Symbol → Prop) : Program → Program → Prop
  | literal (hs : R s s') : Expr.Alike R S (.literal s v) (.literal s' v)
  | unary (hs : R s s') (h : Expr.Alike R S e e') : Expr.Alike R S (.unary s op e) (.unary s' op e')
  | binary (hs : R s s') (hl : Expr.Alike R S l l') (hr : Expr.Alike R S r r') :
    Expr.Alike R S (.binary s op l r) (.binary s' op l' r')
  | grouping (hs : R s s') (h : Expr.Alike R S e e') :
    Expr.Alike R S (.grouping s e) (.grouping s' e')
  | cond (hs : R s s') (hc : Expr.Alike R S c c') (ht : Expr.Alike R S t t')
      (he : Expr.Alike R S e e') : Expr.Alike R S (.cond s c t e) (.cond s' c' t' e')
  | block (hs : R s s') (hb : R b b') (h : Stmts.Alike R S ss ss') :
    Expr.Alike R S (.block s (.mk b ss)) (.block s' (.mk b' ss'))

inductive Stmts.Alike (R : Span → Span → Prop) (S : Symbol → Symbol → Prop) :
    List (Stmt Empty) → List (Stmt Empty) → Prop
  | nil : Stmts.Alike R S [] []
  | cons (hs : Stmt.Alike R S s s') (h : Stmts.Alike R S ss ss') :
    Stmts.Alike R S (s :: ss) (s' :: ss')

inductive Stmt.Alike (R : Span → Span → Prop) (S : Symbol → Symbol → Prop) :
    Stmt Empty → Stmt Empty → Prop
  | declare (hs : R s s') (hx : S x x') (ht : Option.Rel S type type')
      (hi : Init.Alike R S init init') :
    Stmt.Alike R S (.declare s x type init) (.declare s' x' type' init')
  | assign (hs : R s s') (hx : S x x') (h : Expr.Alike R S e e') :
    Stmt.Alike R S (.assign s x e) (.assign s' x' e')
  | discard (hs : R s s') (h : Expr.Alike R S e e') : Stmt.Alike R S (.discard s e) (.discard s' e')
  | result (hs : R s s') (h : Expr.Alike R S e e') : Stmt.Alike R S (.result s e) (.result s' e')

inductive Init.Alike (R : Span → Span → Prop) (S : Symbol → Symbol → Prop) :
    Option Program → Option Program → Prop
  | none : Init.Alike R S none none
  | some (h : Expr.Alike R S e e') : Init.Alike R S (some e) (some e')

end

theorem Expr.Alike.span {R : Span → Span → Prop} {S : Symbol → Symbol → Prop} {e e' : Program}
    (h : Expr.Alike R S e e') : R e.span e'.span := by
  cases h <;> assumption

namespace Outline

def typeWidth : Option Text → Nat
  | none => 0
  | some _ => 2

mutual

-- The number of tokens that an outline is written as if it has all its groups.
def width : Outline → Nat
  | .num _ | .bool _ => 1
  | .neg e => e.width + 1
  | .binary _ l r => l.width + (r.width + 1)
  | .grouping e => e.width + 2
  | .cond c t e => c.width + (t.width + (e.width + 6))
  | .block ss => widths ss + 2

def Item.width : Item → Nat
  | .declare _ type init => typeWidth type + (initWidth init + 3)
  | .assign _ e => e.width + 3
  | .discard e => e.width + 1
  | .result e => e.width

def initWidth : Option Outline → Nat
  | none => 0
  | some e => e.width + 1

def widths : List Item → Nat
  | [] => 0
  | s :: ss => s.width + widths ss

end
end Outline

namespace Grammar

variable {word word' : Token → Word} {name name' : Symbol → Option Text} {k : Nat}

theorem LocatedType.length_eq {ts : List Token} {type : Option Symbol} {type' : Option Text}
    (h : LocatedType word name ts type type') : ts.length = Outline.typeWidth type' := by
  cases h <;> rfl

mutual

theorem Located.length_eq : Located word name c ts e u → ts.length = u.width
  | .number _ _ | .yes _ | .no _ => rfl
  | .neg _ _ h => by simp [Outline.width, h.length_eq]
  | .binary _ hl _ hr => by simp [Outline.width, hl.length_eq, hr.length_eq]
  | .grouping _ h _ => by simp [Outline.width, h.length_eq]
  | .cond _ hc _ ht _ _ _ he _ => by
    simp +arith [Outline.width, hc.length_eq, ht.length_eq, he.length_eq]
  | .block _ h _ => by simp [Outline.width, h.length_eq]

theorem LocatedBody.length_eq : LocatedBody word name ts ss us → ts.length = Outline.widths us
  | .nil => rfl
  | .cons hs _ h => by rw [List.length_append, hs.length_eq, h.length_eq, Outline.widths]

theorem LocatedStmt.length_eq : LocatedStmt word name ts s u → ts.length = u.width
  | .declare _ _ _ _ ht hi _ => by simp +arith [Outline.Item.width, ht.length_eq, hi.length_eq]
  | .assign _ _ _ _ h _ => by simp [Outline.Item.width, h.length_eq]
  | .discard h _ => by simp [Outline.Item.width, h.length_eq]
  | .result h => by rw [h.length_eq, Outline.Item.width]

theorem LocatedInit.length_eq : LocatedInit word name ts i u → ts.length = Outline.initWidth u
  | .none => rfl
  | .some _ h => by rw [List.length_cons, h.length_eq, Outline.initWidth]

end

-- Where a span has been moved to.
def Moved (k : Nat) (s s' : Span) : Prop :=
  s = s'.shift k

theorem Moved.merge {s s' t t' : Span} (hs : Moved k s s') (ht : Moved k t t') :
    Moved k (s.merge t) (s'.merge t') := by
  rw [Moved, Span.shift_merge, ←hs, ←ht]

-- Symbols with the same text.
def SameText (name name' : Symbol → Option Text) (x x' : Symbol) : Prop :=
  ∃ t, name x = some t ∧ name' x' = some t

section

variable {α β : Type} {f : α → β} {bs cs : List β} {as as' : List α}

theorem split_map (h : bs ++ cs = (as ++ as').map f) (hl : bs.length = as.length) :
    bs = as.map f ∧ cs = as'.map f := by
  rw [List.map_append] at h
  exact List.append_inj h (by rw [hl, List.length_map])

theorem split_map_last {b : β} {a : α} (h : bs ++ [b] = (as ++ [a]).map f) :
    bs = as.map f ∧ b = f a := by
  rw [List.map_append] at h
  have ⟨hs, hl⟩ := List.append_inj' h rfl
  exact ⟨hs, List.singleton_inj.mp hl⟩

end

theorem LocatedType.alike {ts ts' : List Token} {x x' : Option Symbol} {u : Option Text}
    (h : LocatedType word name ts x u) (h' : LocatedType word' name' ts' x' u) :
    Option.Rel (SameText name name') x x' := by
  cases h with
  | none =>
    cases h'
    exact .none
  | some _ _ hs _ =>
    cases h' with
    | some _ _ hs' _ => exact .some ⟨_, hs, hs'⟩

mutual

-- The outline tells how the tokens belong to the parts, so each part has the same tokens in both trees.
theorem Located.alike : Located word name c ts e u → Located word' name' c' ts' e' u →
    ts = ts'.map (shift k) → Expr.Alike (Moved k) (SameText name name') e e'
  | .number _ _, .number _ _, ht | .yes _, .yes _, ht | .no _, .no _, ht => by
    cases ht
    exact .literal rfl
  | .neg _ _ h, .neg _ _ h', ht => by
    have ⟨ho, ht⟩ := List.cons.inj ht
    have ha := h.alike h' ht
    subst ho
    exact .unary (Moved.merge rfl ha.span) ha
  | .binary _ hl _ hr, .binary _ hl' _ hr', ht => by
    have ⟨htl, ht⟩ := split_map ht (by rw [hl.length_eq, hl'.length_eq])
    have hal := hl.alike hl' htl
    have har := hr.alike hr' (List.cons.inj ht).right
    exact .binary (hal.span.merge har.span) hal har
  | .grouping _ h _, .grouping _ h' _, ht => by
    have ⟨ho, ht⟩ := List.cons.inj ht
    have ⟨hts, hk⟩ := split_map_last ht
    subst ho hk
    exact .grouping (Moved.merge rfl rfl) (h.alike h' hts)
  | .cond _ hc _ ht _ _ _ he _, .cond _ hc' _ ht' _ _ _ he' _, hts => by
    have ⟨hi, hts⟩ := List.cons.inj hts
    have ⟨hcs, hts⟩ := split_map hts (by rw [hc.length_eq, hc'.length_eq])
    have ⟨hys, hts⟩ := split_map (List.cons.inj hts).right (by rw [ht.length_eq, ht'.length_eq])
    simp only [List.map_cons, List.cons.injEq] at hts
    have ⟨hes, hk⟩ := split_map_last hts.right.right.right
    subst hi hk
    exact .cond (Moved.merge rfl rfl) (hc.alike hc' hcs) (ht.alike ht' hys) (he.alike he' hes)
  | .block _ h _, .block _ h' _, ht => by
    have ⟨ho, ht⟩ := List.cons.inj ht
    have ⟨hts, hk⟩ := split_map_last ht
    subst ho hk
    exact .block (Moved.merge rfl rfl) (Moved.merge rfl rfl) (h.alike h' hts)

theorem LocatedBody.alike : LocatedBody word name ts ss us → LocatedBody word' name' ts' ss' us →
    ts = ts'.map (shift k) → Stmts.Alike (Moved k) (SameText name name') ss ss'
  | .nil, .nil, _ => .nil
  | .cons hs _ h, .cons hs' _ h', ht => by
    have ⟨hts, ht⟩ := split_map ht (by rw [hs.length_eq, hs'.length_eq])
    exact .cons (hs.alike hs' hts) (h.alike h' ht)

theorem LocatedStmt.alike : LocatedStmt word name ts s u → LocatedStmt word' name' ts' s' u →
    ts = ts'.map (shift k) → Stmt.Alike (Moved k) (SameText name name') s s'
  | .declare _ _ hs _ ht hi _, .declare _ _ hs' _ ht' hi' _, hts => by
    simp only [List.map_cons, List.cons.injEq] at hts
    have ⟨hl, _, hts⟩ := hts
    have ⟨_, hts⟩ := split_map hts (by rw [ht.length_eq, ht'.length_eq])
    have ⟨his, hk⟩ := split_map_last hts
    subst hl hk
    exact .declare (Moved.merge rfl rfl) ⟨_, hs, hs'⟩ (ht.alike ht') (hi.alike hi' his)
  | .assign _ hs _ _ h _, .assign _ hs' _ _ h' _, hts => by
    simp only [List.map_cons, List.cons.injEq] at hts
    have ⟨hw, _, hts⟩ := hts
    have ⟨hes, hk⟩ := split_map_last hts
    subst hw hk
    exact .assign (Moved.merge rfl rfl) ⟨_, hs, hs'⟩ (h.alike h' hes)
  | .discard h _, .discard h' _, hts => by
    have ⟨hts, hk⟩ := split_map_last hts
    have ha := h.alike h' hts
    subst hk
    exact .discard (ha.span.merge rfl) ha
  | .result h, .result h', hts => by
    have ha := h.alike h' hts
    exact .result ha.span ha

theorem LocatedInit.alike : LocatedInit word name ts i u → LocatedInit word' name' ts' i' u →
    ts = ts'.map (shift k) → Init.Alike (Moved k) (SameText name name') i i'
  | .none, .none, _ => .none
  | .some _ h, .some _ h', hts => .some (h.alike h' (List.cons.inj hts).right)

end

end Grammar
end ExprLang
