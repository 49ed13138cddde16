import ExprLang.Proofs.Parser.Soundness

/-!
Completeness of the parser: words that are derived within the levels that are left are read, and what
comes back is the outline that they are derived with.
-/
namespace ExprLang

open Token Grammar Word

namespace Parser

variable {α β : Type} {p q r : Parser} {w : Word} {ws vs rest : List Word}

-- The words `ws` come next and can be read, and something is behind them.
structure Ahead (p : Parser) (ws rest : List Word) : Prop where
  ready : p.Ready
  fault : p.fault = none
  words : p.words = ws ++ rest
  range : ∀ w ∈ ws, w.InRange
  more : rest ≠ []

namespace Ahead

theorem split (h : Ahead p (ws ++ vs) rest) : Ahead p ws (vs ++ rest) where
  ready := h.ready
  fault := h.fault
  words := by rw [h.words, List.append_assoc]
  range w hw := h.range w (List.mem_append_left _ hw)
  more := by simp [h.more]

theorem after (h : Ahead p (ws ++ vs) rest) (hr : Reads p ws q) : Ahead q vs rest where
  ready := hr.ready
  fault := hr.fault.trans h.fault
  words := hr.words_eq (by rw [h.words, List.append_assoc])
  range w hw := h.range w (List.mem_append_right _ hw)
  more := h.more

theorem tail (h : Ahead p (w :: ws) rest) (hr : Reads p [w] q) : Ahead q ws rest := by
  rw [←List.singleton_append] at h
  exact h.after hr

theorem kind_eq (h : Ahead p (w :: ws) rest) : p.token.kind = w.kind :=
  kind_of_words h.words

theorem moves (h : Ahead p (w :: ws) rest) (hk : w.kind ≠ .eof) :
    ∃ q, Moves p q ∧ Reads p [w] q ∧ Ahead q ws rest := by
  have ⟨q, hm, hr⟩ := exists_reads h.ready h.fault h.words hk (h.range w (.head _))
  exact ⟨q, hm, hr, h.tail hr⟩

theorem moves_fixed {k : Kind} (h : Ahead p (fixed k :: ws) rest) (hk : k.isFixed) :
    ∃ q, Moves p q ∧ Reads p [fixed k] q ∧ Ahead q ws rest :=
  h.moves (Kind.isFixed_iff.mp hk).right.right

theorem length_le (h : Ahead p ws rest) : ws.length ≤ p.unread := by
  have hl := p.length_words_le
  have hm := List.length_pos_iff.mpr h.more
  rw [h.words, List.length_append] at hl
  omega

theorem kind_mem {c : Nonterminal} {t : Outline} (ha : Ahead p ws rest) (h : Derives c ws t) :
    p.token.kind ∈ c.starts :=
  h.head_mem ha.words

theorem deepen (h : Ahead p ws rest) (d : Nat) : Ahead { p with depth := d } ws rest :=
  ⟨⟨h.ready.interner, h.ready.words⟩, h.fault, h.words, h.range, h.more⟩

end Ahead

-- A parser reads the words `ws` and comes back with something that has the outline `t`.
def Gives (outline? : (Symbol → Option Text) → α → Option β) (m : ParseM α) (p : Parser)
    (ws : List Word) (t : β) : Prop :=
  ∃ a q, Yields m p a q ∧ Reads p ws q ∧ outline? q.interner.issued? a = some t

namespace Gives

variable {outline? : (Symbol → Option Text) → α → Option β} {m m' : ParseM α} {t : β} {k : Kind}

theorem eat (hk : k.isFixed) (ha : Ahead p (fixed k :: ws) rest)
    (h : ∀ ⦃q⦄, Ahead q ws rest → Gives outline? m q ws t) :
    Gives outline? (do if ← eat k then m else m') p (fixed k :: ws) t := by
  have ⟨q, hm, hw, hq⟩ := ha.moves_fixed hk
  have ⟨a, r, hy, hw', ht⟩ := h hq
  exact ⟨a, r, yields_eat_ite.mpr (.inl ⟨ha.kind_eq, q, hm, hy⟩), hw.cons hw', ht⟩

theorem skip (hk : p.token.kind ≠ k) (h : Gives outline? m' p ws t) :
    Gives outline? (do if ← Parser.eat k then m else m') p ws t := by
  have ⟨a, r, hy, hw, ht⟩ := h
  exact ⟨a, r, yields_eat_ite.mpr (.inr ⟨hk, hy⟩), hw, ht⟩

theorem literal {v : Literal Empty} {t : Outline} (hr : p.Ready) (ht : v.outline? = some t) :
    Gives Expr.outline? (do return .literal (← prevSpan) v) p [] t := by
  refine ⟨.literal p.prev.span v, p, ?_, .refl hr, ht⟩
  simp only [yields_bind, yields_prevSpan, yields_pure]
  exact ⟨_, p, ⟨rfl, rfl⟩, rfl, rfl⟩

theorem number {ds : Bytes} {m : ParseM Program} (ha : Ahead p [.number ds] rest) :
    Gives Expr.outline? (do if ← Parser.eat .number then number else m) p [.number ds]
      (.num (decimal ds)) := by
  have ⟨q, hm, hw, _⟩ := ha.moves (by simp [Word.number])
  have hp := word_of_words ha.words
  have hn := ha.ready.words p.word (.head _)
  have hl := hm.lexeme_eq ha.ready
  rw [hp] at hn hl
  have hy := (yields_number hn hl).mpr ⟨ha.range _ (.head _), rfl, rfl⟩
  exact ⟨_, q, yields_eat_ite.mpr (.inl ⟨ha.kind_eq, q, hm, hy⟩), hw, rfl⟩

end Gives

-- A parser reads what `D` relates to an outline, unless it goes on behind it.
def Complete (outline? : (Symbol → Option Text) → α → Option β) (D : List Word → β → Prop)
    (stops : List Word → Prop) (m : ParseM α) : Prop :=
  ∀ ⦃p ws t rest⦄, D ws t → Ahead p ws rest → stops rest → Gives outline? m p ws t

-- The parsers for what follows an opening token are complete up to `n` levels. Each such part has an
-- end of its own.
def Inner.Complete (n : Nat) (inner : Inner) : Prop :=
  ∀ o, Parser.Complete Expr.outline? (fun ws => DerivesWithin n o.nonterminal (fixed o.kind :: ws))
    (fun _ => True) (inner o)

section

variable {inner : Inner} {n : Nat} (hi : inner.Complete n)
include hi

theorem complete_primary :
    Complete Expr.outline? (DerivesWithin n .primary) (Stops .primary) (primary inner) := by
  intro p ws t rest hd ha _
  have hk := ha.kind_mem hd.derives
  cases hd.derives with
  | number => exact .number ha
  | yes =>
    refine .skip (by simp [ha.kind_eq, fixed]) ?_
    exact .eat rfl ha fun q hq => .literal hq.ready rfl
  | no =>
    refine .skip (by simp [ha.kind_eq, fixed]) ?_
    refine .skip (by simp [ha.kind_eq, fixed]) ?_
    exact .eat rfl ha fun q hq => .literal hq.ready rfl
  | grouping =>
    refine .skip (by simp [ha.kind_eq, fixed]) ?_
    refine .skip (by simp [ha.kind_eq, fixed]) ?_
    refine .skip (by simp [ha.kind_eq, fixed]) ?_
    exact .eat rfl ha fun q hq => hi .paren hd hq trivial
  | block =>
    refine .skip (by simp [ha.kind_eq, fixed]) ?_
    refine .skip (by simp [ha.kind_eq, fixed]) ?_
    refine .skip (by simp [ha.kind_eq, fixed]) ?_
    refine .skip (by simp [ha.kind_eq, fixed]) ?_
    exact .eat rfl ha fun q hq => hi .brace hd hq trivial

theorem complete_unary :
    Complete Expr.outline? (DerivesWithin n .unary) (Stops .unary) (unary inner) := by
  intro p ws t rest hd ha _
  cases hd.derives with
  | neg => exact .eat rfl ha fun q hq => hi .minus hd hq trivial
  | primary h =>
    refine .skip (fun hk => ?_) (complete_primary hi ⟨h, hd.nesting⟩ ha (.primary _))
    have hm := ha.kind_mem h
    simp [hk, Nonterminal.starts] at hm

end

section

variable {τ : Tier} {operand : ParseM Program} {n k : Nat} {left : Program} {l : Outline}

-- A chain ends where no operator of its tier comes next.
theorem Gives.chain_nil (hl : left.outline? p.interner.issued? = some l) (ha : Ahead p [] rest)
    (hs : Stops (.tier τ) rest) : Gives Expr.outline? (chain τ.op? operand k left) p [] l := by
  refine ⟨left, p, ?_, .refl ha.ready, hl⟩
  cases k with
  | zero => exact yields_pure.mpr ⟨rfl, rfl⟩
  | succ k =>
    have hn : τ.op? p.token.kind = none := by
      rw [Option.eq_none_iff_forall_ne_some]
      intro op ho
      have ⟨hk, ht⟩ := Tier.op?_eq_some_iff.mp ho
      have ⟨w, ws, hw⟩ := List.exists_cons_of_ne_nil ha.more
      have hp := ha.words
      rw [hw] at hp hs
      have ha := hs w rfl op (by rw [hk, kind_of_words hp])
      simp [Nonterminal.admits, ht] at ha
    rw [chain, yields_bind]
    exact ⟨_, p, yields_peek.mpr ⟨rfl, rfl⟩, by simp [hn]⟩

-- A chain goes on with an operator of its tier and a right operand.
theorem Gives.chain_cons {op : BinOp} {r t : Outline} (hop : op.tier = τ)
    (ha : Ahead p (fixed op.kind :: (ws ++ vs)) rest)
    (hleft : left.outline? p.interner.issued? = some l)
    (hr : ∀ q, Ahead q ws (vs ++ rest) → Gives Expr.outline? operand q ws r)
    (hc : ∀ left q, left.outline? q.interner.issued? = some (.binary op l r) → Ahead q vs rest →
      Gives Expr.outline? (chain τ.op? operand k left) q vs t) :
    Gives Expr.outline? (chain τ.op? operand (k + 1) left) p (fixed op.kind :: (ws ++ vs)) t := by
  have ⟨q₁, hm, hw₁, ha₁⟩ := ha.moves_fixed op.isFixed_kind
  have ⟨right, q₂, hy₂, hw₂, hright⟩ := hr q₁ ha₁.split
  have hleft := left.outline?_mono (hw₁.trans hw₂).grows hleft
  have hb : (Expr.binary (left.span.merge right.span) op left right).outline?
      q₂.interner.issued? = some (.binary op l r) := by
    simp [Expr.outline?, hleft, hright]
  have ⟨e, q₃, hy₃, hw₃, ht⟩ := hc _ q₂ hb (ha₁.after hw₂)
  have hop : τ.op? p.token.kind = some op := Tier.op?_eq_some_iff.mpr ⟨ha.kind_eq.symm, hop⟩
  refine ⟨e, q₃, ?_, hw₁.cons (hw₂.trans hw₃), ht⟩
  rw [chain, yields_bind]
  refine ⟨_, p, yields_peek.mpr ⟨rfl, rfl⟩, ?_⟩
  simp only [hop, yields_bind]
  exact ⟨(), q₁, hm, right, q₂, hy₂, hy₃⟩

-- Operators of a tier behind a left operand. The recursion is on the derivation, and their number is
-- within the bound since each is a word.
theorem complete_chain
    (ho : Complete Expr.outline? (DerivesWithin n τ.operand) (Stops τ.operand) operand) :
    {l t : Outline} → {ls : List Word} → Links τ l ls t → (k : Nat) → ls.length ≤ k →
    {left : Program} → {p : Parser} → left.outline? p.interner.issued? = some l → t.nesting ≤ n →
    {rest : List Word} → Ahead p ls rest → Stops (.tier τ) rest →
    Gives Expr.outline? (chain τ.op? operand k left) p ls t
  | _, _, _, .nil, _, _, _, _, hl, _, _, ha, hs => .chain_nil hl ha hs
  | _, _, _, .cons hop hr hl, _ + 1, hk, _, _, hleft, hn, _, ha, hs =>
    have hlr := Nat.max_le.mp (Nat.le_trans hl.nesting_le hn)
    have hk := Nat.le_trans (List.length_append ▸ Nat.le_add_left ..) (Nat.le_of_succ_le_succ hk)
    .chain_cons hop ha hleft (fun _ ha => ho ⟨hr, hlr.right⟩ ha (hl.stops hs))
      fun _ _ hb ha => complete_chain ho hl _ hk hb hn ha hs

end

theorem complete_tier {t : Tier} {operand : ParseM Program} {n : Nat}
    (ho : Complete Expr.outline? (DerivesWithin n t.operand) (Stops t.operand) operand) :
    Complete Expr.outline? (DerivesWithin n (.tier t)) (Stops (.tier t)) (tier t.op? operand) := by
  intro p ws t rest hd ha hs
  cases hd.derives with
  | chain h hl =>
    have hn := Nat.le_trans hl.nesting_le hd.nesting
    have ⟨left, q, hy, hw, hleft⟩ := ho ⟨h, hn⟩ ha.split (hl.stops hs)
    have ha := ha.after hw
    have ⟨e, r, hy', hw', ht⟩ := complete_chain ho hl q.unread ha.length_le hleft hd.nesting ha hs
    refine ⟨e, r, ?_, hw.trans hw', ht⟩
    simp only [tier, yields_bind, yields_get]
    exact ⟨left, q, hy, q, q, ⟨rfl, rfl⟩, hy'⟩

-- A word is given a symbol that stands for it.
theorem Ahead.intern {x : Bytes} (h : Ahead p (.ident x :: ws) rest) :
    ∃ q, Moves p q ∧ ∃ s r, Yields internPrev q s r ∧ Reads p [.ident x] r ∧ Ahead r ws rest ∧
      r.interner.issued? s = some (.ofAscii x) := by
  obtain ⟨q, hm, hw, ha⟩ := h.moves (by simp [Word.ident])
  have hx := h.ready.words p.word (.head _)
  have hl := hm.lexeme_eq h.ready
  rw [word_of_words h.words] at hx hl
  have he := Text.isEncodable_of_isAscii (Text.isAscii_ofAscii (Kind.allows_ascii hx))
  have hi := Interner.intern_eq_ok_iff.mpr ⟨he, (rfl : q.interner.insert _ = (_, _))⟩
  have hy := yields_internPrev.mpr ⟨_, _, hl, hi, rfl⟩
  obtain ⟨hw', hs⟩ := reads_internPrev hy hw.ready hl
  have hw := hw.trans hw'
  exact ⟨q, hm, _, _, hy, hw, h.tail hw, hs⟩

section

variable {inner : Inner} {n : Nat} (hi : inner.Complete n)
include hi

theorem complete_equality : Complete Expr.outline? (DerivesWithin n (.tier .equality))
    (Stops (.tier .equality)) (equality inner) :=
  have multiplication := complete_tier (t := .multiplication) (complete_unary hi)
  have addition := complete_tier (t := .addition) multiplication
  have comparison := complete_tier (t := .comparison) addition
  complete_tier (t := .equality) comparison

theorem complete_expr :
    Complete Expr.outline? (DerivesWithin n .expr) (Stops .expr) (expr inner) := by
  intro p ws t rest hd ha hs
  cases hd.derives with
  | cond => exact .eat rfl ha fun q hq => hi .cond hd hq trivial
  | equality h =>
    refine .skip (fun hk => ?_) (complete_equality hi ⟨h, hd.nesting⟩ ha (hs.tier _))
    have hm := ha.kind_mem h
    simp [hk, Nonterminal.starts] at hm

theorem complete_bracedExpr {t : Outline}
    (hd : DerivesWithin n .expr ws t) (ha : Ahead p (fixed .lbrace :: (ws ++ [fixed .rbrace])) rest) :
    Gives Expr.outline? (bracedExpr inner) p (fixed .lbrace :: (ws ++ [fixed .rbrace])) t := by
  have ⟨q₁, hm₁, hw₁, ha₁⟩ := ha.moves_fixed rfl
  have ⟨e, q₂, hy, hw₂, ht⟩ := complete_expr hi hd ha₁.split (.close (by decide))
  have ha₂ := ha₁.after hw₂
  have ⟨q₃, hm₃, hw₃, _⟩ := ha₂.moves_fixed rfl
  have ht := e.outline?_mono hw₃.grows ht
  refine ⟨e, q₃, yields_bracedExpr.mpr ?_, hw₁.cons (hw₂.trans hw₃), ht⟩
  exact ⟨ha.kind_eq, q₁, hm₁, q₂, hy, ha₂.kind_eq, hm₃⟩

theorem complete_initial : Complete initOutline?
    (fun ws init => Initial ws init ∧ ∀ t ∈ init, t.nesting ≤ n)
    (fun rest => ∃ vs, rest = fixed .semi :: vs)
    (do if ← eat .eq then some <$> expr inner else pure none) := by
  rintro p ws init rest ⟨hd, hn⟩ ha ⟨vs, rfl⟩
  cases hd with
  | none =>
    refine .skip (by simp [kind_of_words ha.words, fixed]) ?_
    exact ⟨none, p, yields_pure.mpr ⟨rfl, rfl⟩, .refl ha.ready, rfl⟩
  | some h =>
    refine .eat rfl ha fun q hq => ?_
    obtain ⟨e, r, hy, hw, ht⟩ := complete_expr hi ⟨h, hn _ rfl⟩ hq (.close (by decide))
    exact ⟨some e, r, yields_map.mpr ⟨e, hy, rfl⟩, hw, by simp [initOutline?, ht]⟩

end

theorem complete_annotation : Complete (fun name (s : Option Symbol) => s.mapM name) Annotation
    (fun rest => ∀ w ∈ rest.head?, w.kind ≠ .colon)
    (do if ← eat .colon then some <$> ident else pure none) := by
  intro p ws type rest hd ha hs
  cases hd with
  | none =>
    have hk : p.token.kind ≠ .colon := hs p.word (by rw [←List.nil_append rest, ←ha.words]; rfl)
    refine .skip hk ?_
    exact ⟨none, p, yields_pure.mpr ⟨rfl, rfl⟩, .refl ha.ready, rfl⟩
  | some =>
    refine .eat rfl ha fun q hq => ?_
    have ⟨q', hm, s, r, hy, hw, _, hs⟩ := hq.intern
    have hy := yields_ident.mpr ⟨hq.kind_eq, q', hm, hy⟩
    exact ⟨some s, r, yields_map.mpr ⟨s, hy, rfl⟩, hw, by simp [hs]⟩

section

variable {inner : Inner} {n : Nat} (hi : inner.Complete n)
include hi

theorem complete_declaration {x : Bytes} {ts is : List Word} {type : Option Text}
    {init : Option Outline} (ht : Annotation ts type) (hv : Initial is init)
    (hn : ∀ t ∈ init, t.nesting ≤ n)
    (ha : Ahead p (.ident x :: (ts ++ (is ++ [fixed .semi]))) rest) :
    Gives Stmt.outline? (declaration inner) p (.ident x :: (ts ++ (is ++ [fixed .semi])))
      (.declare (.ofAscii x) type init) := by
  have ⟨q₁, hm₁, name, q₂, hy₂, hw₂, ha₂, hname⟩ := ha.intern
  have hy₂ := yields_ident.mpr ⟨ha.kind_eq, q₁, hm₁, hy₂⟩
  have hs : ∀ w ∈ ((is ++ [fixed .semi]) ++ rest).head?, w.kind ≠ .colon := by
    rw [List.append_assoc]
    exact hv.head_ne_colon
  have ⟨type', q₃, hy₃, hw₃, htype⟩ := complete_annotation ht ha₂.split hs
  have ha₃ := ha₂.after hw₃
  have ⟨init', q₄, hy₄, hw₄, hinit⟩ := complete_initial hi ⟨hv, hn⟩ ha₃.split ⟨rest, rfl⟩
  have ha₄ := ha₃.after hw₄
  have ⟨q₅, hm₅, hw₅, _⟩ := ha₄.moves_fixed rfl
  have hy := yields_declaration.mpr
    ⟨name, q₂, hy₂, type', q₃, hy₃, init', q₄, hy₄, ha₄.kind_eq, hm₅, rfl⟩
  have hname := (hw₃.grows.trans (hw₄.grows.trans hw₅.grows)) hname
  have htype := mapM_mono (hw₄.grows.trans hw₅.grows) type' htype
  have hinit := initOutline?_mono hw₅.grows init' hinit
  refine ⟨_, q₅, hy, hw₂.cons (hw₃.trans (hw₄.trans hw₅)), ?_⟩
  simp [Stmt.outline?, hname, htype, hinit]

theorem complete_assignment {x : Bytes} {t : Outline} (hd : DerivesWithin n .expr ws t)
    (ha : Ahead p (.ident x :: fixed .eq :: (ws ++ [fixed .semi])) rest) :
    ∃ q, Moves p q ∧ ∃ s r, Yields (assignment inner) q s r ∧
      Reads p (.ident x :: fixed .eq :: (ws ++ [fixed .semi])) r ∧
      s.outline? r.interner.issued? = some (.assign (.ofAscii x) t) := by
  have ⟨q₁, hm₁, name, q₂, hy₂, hw₂, ha₂, hname⟩ := ha.intern
  have ⟨q₃, hm₃, hw₃, ha₃⟩ := ha₂.moves_fixed rfl
  have ⟨e, q₄, hy₄, hw₄, ht⟩ := complete_expr hi hd ha₃.split (.close (by decide))
  have ha₄ := ha₃.after hw₄
  have ⟨q₅, hm₅, hw₅, _⟩ := ha₄.moves_fixed rfl
  have hy := yields_assignment.mpr
    ⟨name, q₂, hy₂, ha₂.kind_eq, q₃, hm₃, e, q₄, hy₄, ha₄.kind_eq, hm₅, rfl⟩
  have hname := (hw₃.grows.trans (hw₄.grows.trans hw₅.grows)) hname
  have ht := e.outline?_mono hw₅.grows ht
  refine ⟨q₁, hm₁, _, q₅, hy, hw₂.cons (hw₃.cons (hw₄.trans hw₅)), ?_⟩
  simp [Stmt.outline?, hname, ht]

theorem complete_stmt :
    Complete Stmt.outline? (fun ws s => Statement ws s ∧ s.nesting ≤ n) (fun _ => True)
      (stmt inner) := by
  rintro p ws s rest ⟨hd, hn⟩ ha -
  cases hd with
  | declare ht hv =>
    rename_i init _
    have hn : ∀ t ∈ init, t.nesting ≤ n := by
      rintro t ⟨⟩
      exact hn
    exact .eat rfl ha fun q hq => complete_declaration hi ht hv hn hq
  | assign h =>
    have ⟨q, hm, s, r, hy, hw, ht⟩ := complete_assignment hi ⟨h, hn⟩ ha
    exact ⟨s, r, yields_stmt.mpr (.inr (.inl ⟨ha.kind_eq, q, hm, hy⟩)), hw, ht⟩
  | discard h =>
    have ⟨e, q, hy, hw, ht⟩ := complete_expr hi ⟨h, hn⟩ ha.split (.close (by decide))
    have ha' := ha.after hw
    have ⟨r, hm, hw', _⟩ := ha'.moves_fixed rfl
    have ht := e.outline?_mono hw'.grows ht
    have hk := Nonterminal.not_mem_of_starts _ (ha.split.kind_mem h)
    have hy := yields_stmt.mpr (.inr (.inr ⟨hk, e, q, hy, .inl ⟨ha'.kind_eq, hm, rfl⟩⟩))
    exact ⟨_, r, hy, hw.trans hw', by simp [Stmt.outline?, ht]⟩

-- An expression right before the closing brace.
theorem complete_result {t : Outline} (hd : DerivesWithin n .expr ws t)
    (ha : Ahead p ws (fixed .rbrace :: rest)) :
    ∃ e q, Yields (stmt inner) p (.result e.span e) q ∧ Reads p ws q ∧
      e.outline? q.interner.issued? = some t := by
  have ⟨e, q, hy, hw, ht⟩ := complete_expr hi hd ha (.close (by decide))
  have hk := Nonterminal.not_mem_of_starts _ (ha.kind_mem hd.derives)
  have hb := kind_of_words (hw.words_eq ha.words)
  exact ⟨e, q, yields_stmt.mpr (.inr (.inr ⟨hk, e, q, hy, .inr ⟨hb, rfl, rfl⟩⟩)), hw, ht⟩

-- The recursion is on the derivation, and the bound holds since each statement takes a word.
theorem complete_stmtsWithin : {bs : List Word} → {ss : List Outline.Item} → Body bs ss → (k : Nat) →
    bs.length ≤ k → Outline.nestings ss ≤ n → {p : Parser} → {rest : List Word} → Ahead p bs rest →
    Gives outlines? (stmtsWithin inner k) p bs ss
  | _, _, .close, k + 1, _, _, p, rest, ha => by
    have ⟨q, hm, hw, _⟩ := ha.moves_fixed rfl
    exact ⟨[], q, yields_stmtsWithin.mpr (.inl ⟨ha.kind_eq, hm, rfl⟩), hw, rfl⟩
  | _, _, .item hs h, k, hk, hn, p, rest, ha => by
    rename_i ws s bs ss
    have hn := Nat.max_le.mp hn
    have hs₀ : 0 < ws.length := by cases hs <;> simp
    rw [List.length_append] at hk
    obtain ⟨k, rfl⟩ := Nat.exists_eq_add_one_of_ne_zero (n := k) (by omega)
    have ⟨s', q, hy, hw, hs'⟩ := complete_stmt hi ⟨hs, hn.left⟩ ha.split trivial
    have ⟨ss', r, hy', hw', hss'⟩ := complete_stmtsWithin h k (by omega) hn.right (ha.after hw)
    have hb := Nonterminal.not_mem_of_statement _ (hs.head_mem ha.split.words)
    have hne : ∀ span e, s' ≠ .result span e := by
      rintro span e rfl
      obtain ⟨u, rfl⟩ := Stmt.outline?_result hs'
      cases hs
    have hs' := s'.outline?_mono hw'.grows hs'
    refine ⟨s' :: ss', r, ?_, hw.trans hw', by simp [outlines?, hs', hss']⟩
    exact yields_stmtsWithin.mpr (.inr ⟨hb, s', q, hy, .inr ⟨hne, ss', hy', rfl⟩⟩)
  | _, _, .result h, k, hk, hn, p, rest, ha => by
    rw [List.length_append, List.length_singleton] at hk
    obtain ⟨k, rfl⟩ := Nat.exists_eq_add_one_of_ne_zero (n := k) (by omega)
    have hn := (Nat.max_le.mp hn).left
    have ⟨e, q, hy, hw, ht⟩ := complete_result hi ⟨h, hn⟩ ha.split
    have ha' := ha.after hw
    have ⟨r, hm, hw', _⟩ := ha'.moves_fixed rfl
    have ht := e.outline?_mono hw'.grows ht
    have hb := Nonterminal.not_mem_of_statement _ (.tail _ (.tail _ (ha.split.kind_mem h)))
    refine ⟨[.result e.span e], r, ?_, hw.trans hw', by simp [outlines?, Stmt.outline?, ht]⟩
    exact yields_stmtsWithin.mpr
      (.inr ⟨hb, _, q, hy, .inl ⟨e.span, e, rfl, ha'.kind_eq, hm, rfl⟩⟩)

theorem complete_cond {cs ts es : List Word} {c t e : Outline} (hc : DerivesWithin n .expr cs c)
    (ht : DerivesWithin n .expr ts t) (he : DerivesWithin n .expr es e)
    (hws : ws = cs ++ fixed .lbrace :: (ts ++ fixed .rbrace :: fixed .kwElse ::
      fixed .lbrace :: (es ++ [fixed .rbrace]))) (ha : Ahead p ws rest) :
    Gives Expr.outline? (enclosed inner .cond) p ws (.cond c t e) := by
  have hws : ws = cs ++ ((fixed .lbrace :: (ts ++ [fixed .rbrace])) ++ fixed .kwElse ::
      (fixed .lbrace :: (es ++ [fixed .rbrace]))) := by
    simp [hws]
  subst hws
  have ⟨test, q₁, hy₁, hw₁, hc⟩ := complete_expr hi hc ha.split (.close (by decide))
  have ha₁ := ha.after hw₁
  have ⟨yes, q₂, hy₂, hw₂, ht⟩ := complete_bracedExpr hi ht ha₁.split
  have ha₂ := ha₁.after hw₂
  have ⟨q₃, hm₃, hw₃, ha₃⟩ := ha₂.moves_fixed rfl
  have ⟨no, q₄, hy₄, hw₄, he⟩ := complete_bracedExpr hi he ha₃
  have hy := yields_enclosed_cond.mpr
    ⟨test, q₁, hy₁, yes, q₂, hy₂, ha₂.kind_eq, q₃, hm₃, no, hy₄, rfl⟩
  have hc := test.outline?_mono (hw₂.grows.trans (hw₃.grows.trans hw₄.grows)) hc
  have ht := yes.outline?_mono (hw₃.grows.trans hw₄.grows) ht
  refine ⟨_, q₄, hy, hw₁.trans (hw₂.trans (hw₃.cons hw₄)), ?_⟩
  simp [Expr.outline?, hc, ht, he]

theorem complete_enclosed : Inner.Complete (n + 1) (enclosed inner) := by
  rintro o p ws t rest ⟨hd, hn⟩ ha -
  cases o with
  | minus =>
    cases hd with
    | neg h =>
      have ⟨e, q, hy, hw, ht⟩ := complete_primary hi ⟨h, Nat.le_of_succ_le_succ hn⟩ ha (.primary _)
      have hy := yields_enclosed_minus.mpr ⟨e, hy, rfl⟩
      exact ⟨_, q, hy, hw, by simp [Expr.outline?, ht]⟩
    | primary h => cases h
  | paren =>
    cases hd with
    | grouping h =>
      have hd := DerivesWithin.mk h (Nat.le_of_succ_le_succ hn)
      have ⟨e, q, hy, hw, ht⟩ := complete_expr hi hd ha.split (.close (by decide))
      have ha := ha.after hw
      have ⟨r, hm, hw', _⟩ := ha.moves_fixed rfl
      have ht := e.outline?_mono hw'.grows ht
      have hy := yields_enclosed_paren.mpr ⟨e, q, hy, ha.kind_eq, hm, rfl⟩
      exact ⟨_, r, hy, hw.trans hw', by simp [Expr.outline?, ht]⟩
  | brace =>
    cases hd with
    | block h =>
      have hn := Nat.le_of_succ_le_succ hn
      have ⟨ss, q, hy, hw, ht⟩ := complete_stmtsWithin hi h p.unread ha.length_le hn ha
      have hy := yields_enclosed_brace.mpr ⟨ss, hy, rfl⟩
      exact ⟨_, q, hy, hw, by simp [Expr.outline?, ht]⟩
  | cond =>
    cases hd with
    | cond hc ht he =>
      have hn := Nat.max_le.mp (Nat.le_of_succ_le_succ hn)
      have hn' := Nat.max_le.mp hn.right
      exact complete_cond hi ⟨hc, hn.left⟩ ⟨ht, hn'.left⟩ ⟨he, hn'.right⟩ rfl ha
    | equality h => exact h.not_kwIf.elim

end

theorem complete_nested : (n : Nat) → Inner.Complete n (nested n)
  | 0, o => by
    rintro p ws t rest ⟨hd, hn⟩
    have := o.nesting_pos hd
    omega
  | n + 1, o => by
    intro p ws t rest hd ha _
    have ⟨e, q, hy, hw, ht⟩ := complete_enclosed (complete_nested n) o hd (ha.deepen (p.depth + 1)) trivial
    exact ⟨e, _, yields_deeper.mpr ⟨q, hy, rfl⟩, hw.deepen, ht⟩

end Parser
end ExprLang
