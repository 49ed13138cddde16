import ExprLang.Proofs.Grammar.Writing
import ExprLang.Proofs.Token.Placement
import ExprLang.Tree.Dump

/-!
Trees over tokens. `Located` tells which tokens a tree is made of, with all its spans and symbols. The
parts of such a tree stand over tokens in a row, its span goes from the first of its tokens to the last,
and nothing in it is left open once its outline is known.
-/
namespace ExprLang

open Token Word

-- A part of a tree at any depth, or the tree itself.
def Node.HasPart {δ : Type} : Node δ → Node δ → Prop :=
  Relation.ReflTransGen fun m n => n ∈ m.children

namespace Grammar

variable {word : Token → Word} {name : Symbol → Option Text}

-- The type of a declaration over its tokens.
inductive LocatedType (word : Token → Word) (name : Symbol → Option Text) :
    List Token → Option Symbol → Option Text → Prop
  | none : LocatedType word name [] none none
  | some (hk : word k = fixed .colon) (hw : word t = .ident y) (hs : name s = some x)
      (hx : x = .ofAscii y) : LocatedType word name [k, t] (some s) (some x)

mutual

-- A tree over its tokens, each of which is written as `word` tells, in the place of a nonterminal. Its
-- symbols have the texts that `name` gives.
inductive Located (word : Token → Word) (name : Symbol → Option Text) :
    Nonterminal → List Token → Program → Outline → Prop
  | number (hw : word t = .number ds) (hv : v = decimal ds) :
    Located word name c [t] (.literal t.span (.num v)) (.num v)
  | yes (hw : word t = fixed .kwTrue) :
    Located word name c [t] (.literal t.span (.bool true)) (.bool true)
  | no (hw : word t = fixed .kwFalse) :
    Located word name c [t] (.literal t.span (.bool false)) (.bool false)
  | neg (hc : c ≠ .primary) (ho : word o = fixed .minus) (h : Located word name .primary ts e u) :
    Located word name c (o :: ts) (.unary (o.span.merge e.span) .neg e) (.neg u)
  | binary (hc : c.precedence ≤ op.precedence) (hl : Located word name (.tier op.tier) ts l u)
      (ho : word o = fixed op.kind) (hr : Located word name op.tier.operand us r v) :
    Located word name c (ts ++ o :: us) (.binary (l.span.merge r.span) op l r) (.binary op u v)
  | grouping (ho : word o = fixed .lparen) (h : Located word name .expr ts e u)
      (hk : word k = fixed .rparen) :
    Located word name c (o :: (ts ++ [k])) (.grouping (o.span.merge k.span) e) (.grouping u)
  | cond (hi : word i = fixed .kwIf) (hc : Located word name .expr cs c c')
      (ho : word o = fixed .lbrace) (ht : Located word name .expr ts t t')
      (hk : word k = fixed .rbrace) (hl : word l = fixed .kwElse) (ho' : word o' = fixed .lbrace)
      (he : Located word name .expr es e e') (hk' : word k' = fixed .rbrace) :
    Located word name .expr (i :: (cs ++ o :: (ts ++ k :: l :: o' :: (es ++ [k']))))
      (.cond (i.span.merge k'.span) c t e) (.cond c' t' e')
  | block (ho : word o = fixed .lbrace) (h : LocatedBody word name ts ss us)
      (hk : word k = fixed .rbrace) :
    Located word name c (o :: (ts ++ [k]))
      (.block (o.span.merge k.span) (.mk (o.span.merge k.span) ss)) (.block us)

-- The statements between the braces of a block. Nothing stands behind a result.
inductive LocatedBody (word : Token → Word) (name : Symbol → Option Text) :
    List Token → List (Stmt Empty) → List Outline.Item → Prop
  | nil : LocatedBody word name [] [] []
  | cons (hs : LocatedStmt word name ts s u) (hr : u.isResult → ss = [])
      (h : LocatedBody word name ts' ss us) : LocatedBody word name (ts ++ ts') (s :: ss) (u :: us)

inductive LocatedStmt (word : Token → Word) (name : Symbol → Option Text) :
    List Token → Stmt Empty → Outline.Item → Prop
  | declare (hl : word l = fixed .kwLet) (hw : word t = .ident y) (hs : name s = some x)
      (hx : x = .ofAscii y) (ht : LocatedType word name ts type type')
      (hi : LocatedInit word name is init init') (hk : word k = fixed .semi) :
    LocatedStmt word name (l :: t :: (ts ++ (is ++ [k])))
      (.declare (l.span.merge k.span) s type init) (.declare x type' init')
  | assign (hw : word t = .ident y) (hs : name s = some x) (hx : x = .ofAscii y)
      (ho : word o = fixed .eq) (h : Located word name .expr ts e u) (hk : word k = fixed .semi) :
    LocatedStmt word name (t :: o :: (ts ++ [k])) (.assign (t.span.merge k.span) s e) (.assign x u)
  | discard (h : Located word name .expr ts e u) (hk : word k = fixed .semi) :
    LocatedStmt word name (ts ++ [k]) (.discard (e.span.merge k.span) e) (.discard u)
  | result (h : Located word name .expr ts e u) :
    LocatedStmt word name ts (.result e.span e) (.result u)

inductive LocatedInit (word : Token → Word) (name : Symbol → Option Text) :
    List Token → Option Program → Option Outline → Prop
  | none : LocatedInit word name [] none none
  | some (ho : word o = fixed .eq) (h : Located word name .expr ts e u) :
    LocatedInit word name (o :: ts) (some e) (some u)

end

-- What can stand in one place can stand in a looser one.
theorem Located.loosen {c c' : Nonterminal} {ts : List Token} {e : Program} {u : Outline}
    (h : Located word name c ts e u) (hc : c'.precedence ≤ c.precedence)
    (hp : c' = .primary → c = .primary) : Located word name c' ts e u := by
  cases h with
  | number hw hv => exact .number hw hv
  | yes hw => exact .yes hw
  | no hw => exact .no hw
  | neg hn ho h => exact .neg (mt hp hn) ho h
  | binary hb hl ho hr => exact .binary (Nat.le_trans hc hb) hl ho hr
  | grouping ho h hk => exact .grouping ho h hk
  | block ho h hk => exact .block ho h hk
  | cond hi hc' ho ht hk hl ho' he hk' =>
    cases c' with
    | expr => exact .cond hi hc' ho ht hk hl ho' he hk'
    | tier τ => cases τ <;> contradiction
    | unary | primary => contradiction

theorem Located.expr {c : Nonterminal} {ts : List Token} {e : Program} {u : Outline}
    (h : Located word name c ts e u) : Located word name .expr ts e u :=
  h.loosen (Nat.zero_le _) (by simp)

theorem LocatedStmt.eq_result {ts : List Token} {s : Stmt Empty} {u : Outline.Item}
    (h : LocatedStmt word name ts s u) (hr : u.isResult) : ∃ span e, s = .result span e := by
  cases h with
  | declare | assign | discard => contradiction
  | result => exact ⟨_, _, rfl⟩

open Nonterminal in
theorem ofPrecedence_precedence {c : Nonterminal} (h : c ≠ .primary) :
    ofPrecedence c.precedence = c := by
  cases c with
  | expr | unary => rfl
  | tier τ => cases τ <;> rfl
  | primary => contradiction

section

variable {c : Nonterminal} {ws : List Word} {u : Outline}

-- What binds tightly enough can stand in a place.
theorem Derives.place {n : Nat} (hp : c ≠ .primary) (hc : c.precedence ≤ n)
    (h : Derives (.ofPrecedence n) ws u) : Derives c ws u :=
  ofPrecedence_precedence hp ▸ h.loosen hc

theorem Derives.placeUnary (hp : c ≠ .primary) (h : Derives .unary ws u) : Derives c ws u := by
  refine place (n := Expr.atomic) hp ?_ h
  cases c with
  | expr => exact Nat.zero_le _
  | tier τ => cases τ <;> decide
  | unary | primary => exact Nat.le_refl _

theorem Derives.placePrimary (h : Derives .primary ws u) : Derives c ws u := by
  by_cases hp : c = .primary
  case pos => exact hp ▸ h
  case neg => exact placeUnary hp (.primary h)

theorem Derives.placeBinary {op : BinOp} (hc : c.precedence ≤ op.precedence)
    (h : Derives (.tier op.tier) ws u) : Derives c ws u := by
  refine place (n := op.precedence) (fun hp => ?_) hc (ofPrecedence_op op ▸ h)
  subst hp
  cases op <;> contradiction

end

theorem LocatedType.derives {ts : List Token} {type : Option Symbol} {type' : Option Text}
    (h : LocatedType word name ts type type') :
    type.mapM name = Option.some type' ∧ Annotation (ts.map word) type' := by
  cases h with
  | none => exact ⟨rfl, .none⟩
  | some hk hw hs hx =>
    subst hx
    simp only [List.map_cons, List.map_nil, hk, hw]
    exact ⟨by simp [hs], .some⟩

mutual

-- A tree over tokens has the outline that is derived from their words.
theorem Located.derives : Located word name c ts e u →
    e.outline? name = some u ∧ Derives c (ts.map word) u
  | .number hw hv => by
    subst hv
    simp only [List.map_cons, List.map_nil, hw]
    exact ⟨rfl, .placePrimary .number⟩
  | .yes hw => by
    simp only [List.map_cons, List.map_nil, hw]
    exact ⟨rfl, .placePrimary .yes⟩
  | .no hw => by
    simp only [List.map_cons, List.map_nil, hw]
    exact ⟨rfl, .placePrimary .no⟩
  | .neg hc ho h => by
    have ⟨he, hd⟩ := h.derives
    simp only [List.map_cons, ho]
    exact ⟨by simp [Expr.outline?, he], .placeUnary hc (.neg hd)⟩
  | .binary hc hl ho hr => by
    have ⟨hl, hdl⟩ := hl.derives
    have ⟨hr, hdr⟩ := hr.derives
    simp only [List.map_append, List.map_cons, ho]
    exact ⟨by simp [Expr.outline?, hl, hr], .placeBinary hc (.binary hdl hdr)⟩
  | .grouping ho h hk => by
    have ⟨he, hd⟩ := h.derives
    simp only [List.map_append, List.map_cons, List.map_nil, ho, hk]
    exact ⟨by simp [Expr.outline?, he], .placePrimary (.grouping hd)⟩
  | .cond hi hc ho ht hk hl ho' he hk' => by
    have ⟨hc, hdc⟩ := hc.derives
    have ⟨ht, hdt⟩ := ht.derives
    have ⟨he, hde⟩ := he.derives
    simp only [List.map_append, List.map_cons, List.map_nil, hi, ho, hk, hl, ho', hk']
    exact ⟨by simp [Expr.outline?, hc, ht, he], .cond hdc hdt hde⟩
  | .block ho h hk => by
    have ⟨hs, hb⟩ := h.derives
    simp only [List.map_append, List.map_cons, List.map_nil, ho, hk]
    exact ⟨by simp [Expr.outline?, hs], .placePrimary (.block hb)⟩

theorem LocatedBody.derives : LocatedBody word name ts ss us →
    outlines? name ss = some us ∧ Body (ts.map word ++ [fixed .rbrace]) us
  | .nil => ⟨rfl, .close⟩
  | .cons (u := u) hs hr h => by
    have ⟨hs, hd⟩ := hs.derives
    have ⟨hss, hb⟩ := h.derives
    refine ⟨by simp [outlines?, hs, hss], ?_⟩
    rw [List.map_append, List.append_assoc]
    cases hd
    case inl hd => exact .item hd hb
    case inr hd =>
      -- Nothing stands behind the result.
      obtain ⟨v, rfl, hd⟩ := hd
      have hss := hr rfl
      subst hss
      cases h
      exact .result hd

theorem LocatedStmt.derives : LocatedStmt word name ts s u →
    s.outline? name = some u ∧
      (Statement (ts.map word) u ∨ ∃ v, u = .result v ∧ Derives .expr (ts.map word) v)
  | .declare hl hw hs hx ht hi hk => by
    have ⟨ht, ha⟩ := ht.derives
    have ⟨hi, hd⟩ := hi.derives
    subst hx
    simp only [List.map_append, List.map_cons, List.map_nil, hl, hw, hk]
    exact ⟨by simp [Stmt.outline?, hs, ht, hi], .inl (.declare ha hd)⟩
  | .assign hw hs hx ho h hk => by
    have ⟨he, hd⟩ := h.derives
    subst hx
    simp only [List.map_append, List.map_cons, List.map_nil, hw, ho, hk]
    exact ⟨by simp [Stmt.outline?, hs, he], .inl (.assign hd)⟩
  | .discard h hk => by
    have ⟨he, hd⟩ := h.derives
    simp only [List.map_append, List.map_cons, List.map_nil, hk]
    exact ⟨by simp [Stmt.outline?, he], .inl (.discard hd)⟩
  | .result h => by
    have ⟨he, hd⟩ := h.derives
    exact ⟨by simp [Stmt.outline?, he], .inr ⟨_, rfl, hd⟩⟩

theorem LocatedInit.derives : LocatedInit word name ts init init' →
    initOutline? name init = some init' ∧ Initial (ts.map word) init'
  | .none => ⟨rfl, .none⟩
  | .some ho h => by
    have ⟨he, hd⟩ := h.derives
    simp only [List.map_cons, ho]
    exact ⟨by simp [initOutline?, he], .some hd⟩

end

-- Tokens that stand one behind the other.
def Ordered (ts : List Token) : Prop :=
  ts.Pairwise fun t t' => t.span.hi ≤ t'.span.lo

-- The span from the first to the last of some tokens.
structure Hull (ts : List Token) (s : Span) : Prop where
  lo : ∃ t ∈ ts.head?, s.lo = t.span.lo
  hi : ∃ t ∈ ts.getLast?, s.hi = t.span.hi

theorem Hull.single (t : Token) : Hull [t] t.span :=
  ⟨⟨t, rfl, rfl⟩, ⟨t, rfl, rfl⟩⟩

-- Spans are merged from the outside, whatever stands between them.
theorem Hull.merge {ts us vs : List Token} {s s' : Span} (h : Hull ts s) (h' : Hull us s')
    (hv : us <:+ vs) (ho : Ordered (ts ++ vs)) : Hull (ts ++ vs) (s.merge s') := by
  have ⟨t, ht, hlo⟩ := h.lo
  have ⟨t', ht', hhi⟩ := h.hi
  have ⟨u, hu, hlo'⟩ := h'.lo
  have ⟨u', hu', hhi'⟩ := h'.hi
  have before (a b : Token) (ha : a ∈ ts) (hb : b ∈ us) : a.span.hi ≤ b.span.lo :=
    (List.pairwise_append.mp ho).right.right a ha b (hv.subset hb)
  have h₁ := before t u (List.mem_of_mem_head? ht) (List.mem_of_mem_head? hu)
  have h₂ := before t' u' (List.mem_of_mem_getLast? ht') (List.mem_of_mem_getLast? hu')
  have := t.span.le
  have := u'.span.le
  refine ⟨⟨t, ?_, ?_⟩, ⟨u', ?_, ?_⟩⟩
  · rw [List.head?_append, Option.mem_def.mp ht]
    rfl
  · rw [Span.lo_merge]
    omega
  · have ⟨ws, hw⟩ := hv
    rw [←hw, List.getLast?_append, List.getLast?_append, Option.mem_def.mp hu']
    rfl
  · rw [Span.hi_merge]
    omega

-- The span of a tree goes from the first of its tokens to the last.
theorem Located.hull : Located word name c ts e u → Ordered ts → Hull ts e.span
  | .number _ _, _ | .yes _, _ | .no _, _ => .single _
  | .neg _ _ h, ho =>
    (Hull.single _).merge (h.hull (List.pairwise_cons.mp ho).right) List.suffix_rfl ho
  | .binary _ hl _ hr, ho => by
    have ⟨hol, hor, _⟩ := List.pairwise_append.mp ho
    exact (hl.hull hol).merge (hr.hull (List.pairwise_cons.mp hor).right) (List.suffix_cons _ _) ho
  | .grouping _ _ _, ho | .block _ _ _, ho =>
    (Hull.single _).merge (.single _) (List.suffix_append _ _) ho
  | .cond _ _ _ _ _ _ _ _ _, ho => by
    refine (Hull.single _).merge (.single _) ?_ ho
    refine .trans ?_ (List.suffix_append _ _)
    refine .trans ?_ (List.suffix_cons _ _)
    refine .trans ?_ (List.suffix_append _ _)
    refine .trans ?_ (List.suffix_cons _ _)
    refine .trans ?_ (List.suffix_cons _ _)
    exact .trans (List.suffix_append _ _) (List.suffix_cons _ _)

-- A part of a tree over its tokens, which opens at most `n` levels.
def LocatedNode (word : Token → Word) (name : Symbol → Option Text) (n : Nat) (ts : List Token) :
    Node Empty → Prop
  | .expr e => ∃ c u, Located word name c ts e u ∧ u.nesting ≤ n
  | .stmt s => ∃ u, LocatedStmt word name ts s u ∧ u.nesting ≤ n
  | .block _ => False

theorem infix_append {ts us vs : List Token} (h : us <:+: vs) : us <:+: ts ++ vs :=
  h.trans (List.suffix_append ts vs).isInfix

theorem LocatedBody.exists_stmt : LocatedBody word name ts ss is → s ∈ ss →
    ∃ us u, us <:+: ts ∧ LocatedStmt word name us s u ∧ u.nesting ≤ Outline.nestings is
  | .cons hs hr h, hm => by
    cases hm with
    | head => exact ⟨_, _, (List.prefix_append _ _).isInfix, hs, Nat.le_max_left ..⟩
    | tail _ hm =>
      have ⟨us, u, hu, hs, hn⟩ := h.exists_stmt hm
      exact ⟨us, u, infix_append hu, hs, Nat.le_trans hn (Nat.le_max_right ..)⟩

section

variable {n : Nat} {ts : List Token}

theorem Located.child {c : Nonterminal} {e : Program} {u : Outline} {m : Node Empty}
    (h : Located word name c ts e u) (hn : u.nesting ≤ n) (hm : m ∈ e.children) :
    ∃ us, us <:+: ts ∧ LocatedNode word name n us m := by
  cases h with
  | number | yes | no => cases hm
  | neg _ _ h =>
    cases List.mem_singleton.mp hm
    exact ⟨_, List.infix_cons List.infix_rfl, _, _, h, Nat.le_of_succ_le hn⟩
  | binary _ hl _ hr =>
    have ⟨hnl, hnr⟩ := Nat.max_le.mp hn
    simp only [Expr.children, List.mem_cons, List.not_mem_nil, or_false] at hm
    obtain rfl | rfl := hm
    · exact ⟨_, (List.prefix_append _ _).isInfix, _, _, hl, hnl⟩
    · exact ⟨_, infix_append (List.infix_cons List.infix_rfl), _, _, hr, hnr⟩
  | grouping _ h _ =>
    cases List.mem_singleton.mp hm
    exact ⟨_, ⟨[_], [_], rfl⟩, _, _, h, Nat.le_of_succ_le hn⟩
  | cond _ hc _ ht _ _ _ he _ =>
    have ⟨hnc, hn⟩ := Nat.max_le.mp (Nat.le_of_succ_le hn)
    have ⟨hnt, hne⟩ := Nat.max_le.mp hn
    simp only [Expr.children, List.mem_cons, List.not_mem_nil, or_false] at hm
    obtain rfl | rfl | rfl := hm
    · exact ⟨_, List.infix_cons (List.prefix_append _ _).isInfix, _, _, hc, hnc⟩
    · refine ⟨_, List.infix_cons (infix_append (List.infix_cons ?_)), _, _, ht, hnt⟩
      exact (List.prefix_append _ _).isInfix
    · refine ⟨_, List.infix_cons (infix_append (List.infix_cons (infix_append ?_))), _, _, he, hne⟩
      exact List.infix_cons (List.infix_cons (List.infix_cons (List.prefix_append _ _).isInfix))
  | block _ h _ =>
    obtain ⟨s, hs, rfl⟩ := List.mem_map.mp hm
    have ⟨us, u, hu, hl, hm⟩ := h.exists_stmt hs
    refine ⟨us, hu.trans ⟨[_], [_], rfl⟩, u, hl, Nat.le_trans hm (Nat.le_of_succ_le hn)⟩

theorem LocatedStmt.child {s : Stmt Empty} {u : Outline.Item} {m : Node Empty}
    (h : LocatedStmt word name ts s u) (hn : u.nesting ≤ n) (hm : m ∈ s.children) :
    ∃ us, us <:+: ts ∧ LocatedNode word name n us m := by
  cases h with
  | declare _ _ _ _ _ hi _ => 
    cases hi with
    | none => cases hm
    | some _ h =>
      cases List.mem_singleton.mp hm
      refine ⟨_, List.infix_cons (List.infix_cons (infix_append ?_)), _, _, h, hn⟩
      exact List.infix_cons (List.prefix_append _ _).isInfix
  | assign _ _ _ _ h _ =>
    cases List.mem_singleton.mp hm
    exact ⟨_, ⟨[_, _], [_], rfl⟩, _, _, h, hn⟩
  | discard h _ =>
    cases List.mem_singleton.mp hm
    exact ⟨_, ⟨[], [_], rfl⟩, _, _, h, hn⟩
  | result h =>
    cases List.mem_singleton.mp hm
    exact ⟨_, List.infix_rfl, _, _, h, hn⟩

theorem LocatedNode.child {m k : Node Empty} (h : LocatedNode word name n ts m)
    (hk : k ∈ m.children) : ∃ us, us <:+: ts ∧ LocatedNode word name n us k := by
  cases m with
  | expr e =>
    have ⟨_, _, h, hn⟩ := h
    exact h.child hn hk
  | stmt s =>
    have ⟨_, h, hn⟩ := h
    exact h.child hn hk
  | block b => exact h.elim

-- By induction on the way from a tree to its part.
theorem LocatedNode.part {m k : Node Empty} (h : LocatedNode word name n ts m) (hk : m.HasPart k) :
    ∃ us, us <:+: ts ∧ LocatedNode word name n us k := by
  induction hk with
  | refl => exact ⟨ts, List.infix_rfl, h⟩
  | tail _ hk ih =>
    have ⟨us, hu, h⟩ := ih
    have ⟨vs, hv, h⟩ := h.child hk
    exact ⟨vs, hv.trans hu, h⟩

end

end Grammar
end ExprLang
