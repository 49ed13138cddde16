import ExprLang.Proofs.Parser.Reading

/-!
Soundness of the parser: what a run comes back with is derived from the words that it took off, and
opens no more levels than there were.
-/
namespace ExprLang

open Token Grammar Word

namespace Grammar

-- Derivations of outlines that open at most `n` levels.
structure DerivesWithin (n : Nat) (c : Nonterminal) (ws : List Word) (t : Outline) : Prop where
  derives : Derives c ws t
  nesting : t.nesting ≤ n

-- The operators of a tier by their tokens.
def Tier.op? : Tier → Kind → Option BinOp
  | .equality => Parser.equalityOp?
  | .comparison => Parser.comparisonOp?
  | .addition => Parser.additionOp?
  | .multiplication => Parser.multiplicationOp?

theorem Tier.op?_eq_some_iff {t : Tier} {k : Kind} {op : BinOp} :
    t.op? k = some op ↔ op.kind = k ∧ op.tier = t := by
  constructor
  · intro h
    cases t
    case equality =>
      rw [op?, Parser.equalityOp?.eq_def] at h
      split at h <;> cases h <;> exact ⟨rfl, rfl⟩
    case comparison =>
      rw [op?, Parser.comparisonOp?.eq_def] at h
      split at h <;> cases h <;> exact ⟨rfl, rfl⟩
    case addition =>
      rw [op?, Parser.additionOp?.eq_def] at h
      split at h <;> cases h <;> exact ⟨rfl, rfl⟩
    case multiplication =>
      rw [op?, Parser.multiplicationOp?.eq_def] at h
      split at h <;> cases h <;> exact ⟨rfl, rfl⟩
  · rintro ⟨rfl, rfl⟩
    cases op <;> rfl

end Grammar

namespace Parser

variable {α β : Type} {p q r : Parser}

namespace Opening

def kind : Opening → Kind
  | .minus => .minus
  | .paren => .lparen
  | .brace => .lbrace
  | .cond => .kwIf

-- What starts with an opening token.
def nonterminal : Opening → Nonterminal
  | .minus => .unary
  | .paren | .brace => .primary
  | .cond => .expr

-- It opens a level.
theorem nesting_pos (o : Opening) {ws : List Word} {t : Outline}
    (h : Derives o.nonterminal (fixed o.kind :: ws) t) : 0 < t.nesting := by
  cases o with
  | minus =>
    cases h with
    | neg => exact Nat.succ_pos _
    | primary h => cases h
  | paren | brace =>
    cases h
    exact Nat.succ_pos _
  | cond =>
    cases h with
    | cond => exact Nat.succ_pos _
    | equality h => exact h.not_kwIf.elim

end Opening

-- What a parser comes back with has an outline that `D` relates to the words it took off.
def Sound (outline? : (Symbol → Option Text) → α → Option β) (D : List Word → β → Prop)
    (m : ParseM α) : Prop :=
  ∀ ⦃p a q⦄, Yields m p a q → p.Ready →
    ∃ ws t, Reads p ws q ∧ outline? q.interner.issued? a = some t ∧ D ws t

namespace Sound

variable {outline? : (Symbol → Option Text) → α → Option β} {D : List Word → β → Prop}
  {m m' : ParseM α} {k : Kind}

theorem failExpecting {what : String} : Sound outline? D (failExpecting what) := by
  intro p a q h
  simp at h

-- Behind a token of a kind, or else without it.
theorem eat (hk : k.isFixed) (h : Sound outline? (fun ws => D (fixed k :: ws)) m)
    (h' : Sound outline? D m') : Sound outline? D (do if ← eat k then m else m') := by
  intro p a r hy hr
  rw [yields_eat_ite] at hy
  cases hy
  case inl hy =>
    have ⟨he, q, hm, hy⟩ := hy
    have hq := hm.reads_fixed hr he hk
    have ⟨ws, t, hw, ht, hd⟩ := h hy hq.ready
    exact ⟨fixed k :: ws, t, hq.cons hw, ht, hd⟩
  case inr hy => exact h' hy.right hr

theorem literal {D : List Word → Outline → Prop} {v : Literal Empty} {t : Outline}
    (ht : v.outline? = some t) (hd : D [] t) :
    Sound Expr.outline? D (do return .literal (← prevSpan) v) := by
  intro p e q h hr
  simp only [yields_bind, yields_prevSpan, yields_pure] at h
  obtain ⟨_, _, ⟨-, rfl⟩, rfl, rfl⟩ := h
  exact ⟨[], t, .refl hr, ht, hd⟩

theorem number {n : Nat} {m : ParseM Program} (h : Sound Expr.outline? (DerivesWithin n .primary) m) :
    Sound Expr.outline? (DerivesWithin n .primary) (do if ← Parser.eat .number then number else m) := by
  intro p e r hy hr
  rw [yields_eat_ite] at hy
  cases hy
  case inl hy =>
    have ⟨hk, q, hm, hy⟩ := hy
    have ⟨ds, hn, hl, hw⟩ := hm.reads_number hr hk
    obtain ⟨hd, rfl, rfl⟩ := (yields_number hn hl).mp hy
    exact ⟨_, _, hw hd, rfl, .number, Nat.zero_le n⟩
  case inr hy => exact h hy.right hr

end Sound

-- A word stands for the symbol that it was given.
theorem sound_ident :
    Sound (· ·) (fun ws (x : Text) => ∃ y, ws = [Word.ident y] ∧ x = .ofAscii y) ident := by
  intro p s q h hr
  obtain ⟨hk, p', hm, h⟩ := yields_ident.mp h
  have ⟨x, hw, hl⟩ := hm.reads_ident hr hk
  have ⟨hw', hs⟩ := reads_internPrev h hw.ready hl
  exact ⟨_, _, hw.trans hw', hs, x, rfl, rfl⟩

theorem sound_annotation : Sound (fun name (s : Option Symbol) => s.mapM name) Annotation
    (do if ← eat .colon then some <$> ident else pure none) := by
  refine .eat rfl ?_ ?_
  · intro p s q h hr
    have ⟨s, hs, hy⟩ := yields_map.mp h
    subst hy
    obtain ⟨ws, x, hw, hx, y, rfl, rfl⟩ := sound_ident hs hr
    exact ⟨_, _, hw, by simpa using hx, .some⟩
  · intro p s q h hr
    obtain ⟨rfl, rfl⟩ := yields_pure.mp h
    exact ⟨[], none, .refl hr, rfl, .none⟩

-- The parsers for what follows an opening token are sound up to `n` levels.
def Inner.Sound (n : Nat) (inner : Inner) : Prop :=
  ∀ o, Parser.Sound Expr.outline? (fun ws => DerivesWithin n o.nonterminal (fixed o.kind :: ws))
    (inner o)

section

variable {inner : Inner} {n : Nat} (hi : inner.Sound n)
include hi

theorem sound_primary : Sound Expr.outline? (DerivesWithin n .primary) (primary inner) := by
  refine .number ?_
  refine .eat rfl (.literal rfl ⟨.yes, Nat.zero_le n⟩) ?_
  refine .eat rfl (.literal rfl ⟨.no, Nat.zero_le n⟩) ?_
  refine .eat rfl (hi .paren) ?_
  exact .eat rfl (hi .brace) .failExpecting

theorem sound_unary : Sound Expr.outline? (DerivesWithin n .unary) (unary inner) := by
  refine .eat rfl (hi .minus) ?_
  intro p e q h hr
  have ⟨ws, t, hw, ht, hd⟩ := sound_primary hi h hr
  exact ⟨ws, t, hw, ht, .primary hd.derives, hd.nesting⟩

end

-- Operators of a tier behind a left operand. The recursion is on the bound of their number.
theorem sound_chain {tier : Tier} {operand : ParseM Program} {n : Nat}
    (ho : Sound Expr.outline? (DerivesWithin n tier.operand) operand) :
    (k : Nat) → {left e : Program} → {l : Outline} → {p q : Parser} →
    Yields (chain tier.op? operand k left) p e q → p.Ready →
    left.outline? p.interner.issued? = some l → l.nesting ≤ n →
    ∃ ws t, Reads p ws q ∧ e.outline? q.interner.issued? = some t ∧ Links tier l ws t ∧ t.nesting ≤ n
  | 0, _, _, l, _, _, h, hr, hl, hn => by
    obtain ⟨rfl, rfl⟩ := yields_pure.mp h
    exact ⟨[], l, .refl hr, hl, .nil, hn⟩
  | k + 1, left, e, l, p, q, h, hr, hl, hn => by
    rw [chain, yields_bind] at h
    obtain ⟨_, _, ⟨rfl, rfl⟩, h⟩ := h
    split at h
    case h_1 =>
      obtain ⟨rfl, rfl⟩ := yields_pure.mp h
      exact ⟨[], l, .refl hr, hl, .nil, hn⟩
    case h_2 op hop =>
      have ⟨hk, hop⟩ := Tier.op?_eq_some_iff.mp hop
      have ⟨_, q₁, hm, h⟩ := yields_bind.mp h
      have ⟨right, q₂, hy, h⟩ := yields_bind.mp h
      have hw₁ := Moves.reads_fixed hm hr hk.symm op.isFixed_kind
      have ⟨ws, r, hw₂, hr, hd⟩ := ho hy hw₁.ready
      have hw := hw₁.cons hw₂
      have hl := left.outline?_mono hw.grows hl
      have ⟨vs, t, hw', ht, hc, hn⟩ := sound_chain ho k h hw₂.ready (l := .binary op l r)
        (by simp [Expr.outline?, hl, hr]) (Nat.max_le.mpr ⟨hn, hd.nesting⟩)
      exact ⟨_, t, hw.trans hw', ht, .cons hop hd.derives hc, hn⟩

theorem sound_tier {t : Tier} {operand : ParseM Program} {n : Nat}
    (ho : Sound Expr.outline? (DerivesWithin n t.operand) operand) :
    Sound Expr.outline? (DerivesWithin n (.tier t)) (tier t.op? operand) := by
  intro p e r h hr
  simp only [tier, yields_bind, yields_get] at h
  obtain ⟨left, q, hy, _, _, ⟨-, rfl⟩, h⟩ := h
  obtain ⟨ws, l, hw, hl, hd⟩ := ho hy hr
  obtain ⟨vs, t, hw', ht, hc, hn⟩ := sound_chain ho _ h hw.ready hl hd.nesting
  exact ⟨_, t, hw.trans hw', ht, .chain hd.derives hc, hn⟩

section

variable {inner : Inner} {n : Nat} (hi : inner.Sound n)
include hi

theorem sound_equality : Sound Expr.outline? (DerivesWithin n (.tier .equality)) (equality inner) :=
  have multiplication := sound_tier (t := .multiplication) (sound_unary hi)
  have addition := sound_tier (t := .addition) multiplication
  have comparison := sound_tier (t := .comparison) addition
  sound_tier (t := .equality) comparison

theorem sound_expr : Sound Expr.outline? (DerivesWithin n .expr) (expr inner) := by
  refine .eat rfl (hi .cond) ?_
  intro p e q h hr
  have ⟨ws, t, hw, ht, hd⟩ := sound_equality hi h hr
  exact ⟨ws, t, hw, ht, .equality hd.derives, hd.nesting⟩

theorem sound_bracedExpr : Sound Expr.outline?
    (fun ws t => ∃ vs, ws = fixed .lbrace :: (vs ++ [fixed .rbrace]) ∧ DerivesWithin n .expr vs t)
    (bracedExpr inner) := by
  intro p e q h hr
  have ⟨hk, q₁, hm, q₂, h, hk', hm'⟩ := yields_bracedExpr.mp h
  have hw₁ := hm.reads_fixed hr hk rfl
  have ⟨ws, t, hw₂, ht, hd⟩ := sound_expr hi h hw₁.ready
  have hw₃ := hm'.reads_fixed hw₂.ready hk' rfl
  exact ⟨_, t, hw₁.cons (hw₂.trans hw₃), e.outline?_mono hw₃.grows ht, ws, rfl, hd⟩

theorem sound_initial : Sound initOutline? (fun ws init => Initial ws init ∧ ∀ t ∈ init, t.nesting ≤ n)
    (do if ← eat .eq then some <$> expr inner else pure none) := by
  refine .eat rfl ?_ ?_
  · intro p e q h hr
    have ⟨e, he, hy⟩ := yields_map.mp h
    subst hy
    have ⟨ws, t, hw, ht, hd⟩ := sound_expr hi he hr
    refine ⟨ws, some t, hw, by simp [initOutline?, ht], .some hd.derives, ?_⟩
    rintro _ ⟨⟩
    exact hd.nesting
  · intro p e q h hr
    obtain ⟨rfl, rfl⟩ := yields_pure.mp h
    exact ⟨[], none, .refl hr, rfl, .none, by simp⟩

theorem sound_declaration :
    Sound Stmt.outline? (fun ws s => Statement (fixed .kwLet :: ws) s ∧ s.nesting ≤ n)
      (declaration inner) := by
  intro p s q h hr
  obtain ⟨name, q₁, h₁, type, q₂, h₂, init, q₃, h₃, hk, hm, rfl⟩ := yields_declaration.mp h
  obtain ⟨_, _, hw₁, hx, x, rfl, rfl⟩ := sound_ident h₁ hr
  have ⟨ts, type', hw₂, ht, ha⟩ := sound_annotation h₂ hw₁.ready
  have ⟨is, init', hw₃, hv, hd, hn⟩ := sound_initial hi h₃ hw₂.ready
  have hw₄ := hm.reads_fixed hw₃.ready hk rfl
  refine ⟨_, .declare (.ofAscii x) type' init', hw₁.trans (hw₂.trans (hw₃.trans hw₄)), ?_,
    .declare ha hd, ?_⟩
  · have hx := (hw₂.grows.trans (hw₃.grows.trans hw₄.grows)) hx
    have ht := mapM_mono (hw₃.grows.trans hw₄.grows) type ht
    have hv := initOutline?_mono hw₄.grows init hv
    simp [Stmt.outline?, hx, ht, hv]
  · cases init' with
    | none => exact Nat.zero_le n
    | some t => exact hn t rfl

theorem sound_assignment {s : Stmt Empty} (hm : Moves p q) (hk : p.token.kind = .ident) (hr : p.Ready)
    (h : Yields (assignment inner) q s r) :
    ∃ ws t, Reads p ws r ∧ s.outline? r.interner.issued? = some t ∧ Statement ws t ∧
      t.nesting ≤ n := by
  obtain ⟨name, q₁, h₁, hk₁, q₂, hm₁, e, q₃, h₃, hk₃, hm₃, rfl⟩ := yields_assignment.mp h
  have ⟨x, hw₀, hl⟩ := hm.reads_ident hr hk
  have ⟨hw₁, hs⟩ := reads_internPrev h₁ hw₀.ready hl
  have hw₂ := hm₁.reads_fixed hw₁.ready hk₁ rfl
  have ⟨ws, t, hw₃, ht, hd⟩ := sound_expr hi h₃ hw₂.ready
  have hw₄ := hm₃.reads_fixed hw₃.ready hk₃ rfl
  have hs := (hw₂.grows.trans (hw₃.grows.trans hw₄.grows)) hs
  have ht := e.outline?_mono hw₄.grows ht
  refine ⟨_, .assign (.ofAscii x) t, hw₀.trans (hw₁.trans (hw₂.trans (hw₃.trans hw₄))), ?_,
    .assign hd.derives, hd.nesting⟩
  simp [Stmt.outline?, hs, ht]

theorem sound_stmt : Sound Stmt.outline?
    (fun ws s => (Statement ws s ∨ ∃ t, s = .result t ∧ Derives .expr ws t) ∧ s.nesting ≤ n)
    (stmt inner) := by
  intro p s q h hr
  obtain ⟨hk, p', hm, h⟩ | ⟨hk, p', hm, h⟩ | ⟨-, e, q₁, he, h⟩ := yields_stmt.mp h
  · have hw₁ := hm.reads_fixed hr hk rfl
    have ⟨ws, t, hw₂, ht, hd, hn⟩ := sound_declaration hi h hw₁.ready
    exact ⟨_, t, hw₁.cons hw₂, ht, .inl hd, hn⟩
  · have ⟨ws, t, hw, ht, hd, hn⟩ := sound_assignment hi hm hk hr h
    exact ⟨ws, t, hw, ht, .inl hd, hn⟩
  · have ⟨ws, t, hw, ht, hd⟩ := sound_expr hi he hr
    obtain ⟨hk, hm, rfl⟩ | ⟨-, rfl, rfl⟩ := h
    · have hw' := hm.reads_fixed hw.ready hk rfl
      have ht := e.outline?_mono hw'.grows ht
      refine ⟨_, .discard t, hw.trans hw', ?_, .inl (.discard hd.derives), hd.nesting⟩
      simp [Stmt.outline?, ht]
    · exact ⟨ws, .result t, hw, by simp [Stmt.outline?, ht], .inr ⟨t, rfl, hd.derives⟩, hd.nesting⟩

-- Statements up to the closing brace. The induction is on the bound of their number.
theorem sound_stmtsWithin (k : Nat) :
    Sound outlines? (fun ws ss => Body ws ss ∧ Outline.nestings ss ≤ n) (stmtsWithin inner k) := by
  induction k with
  | zero => exact .failExpecting
  | succ k ih =>
    intro p ss q h hr
    obtain ⟨hk, hm, rfl⟩ | ⟨-, s, q₁, hs, h⟩ := yields_stmtsWithin.mp h
    · exact ⟨_, [], hm.reads_fixed hr hk rfl, rfl, .close, Nat.zero_le n⟩
    have ⟨ws, t, hw, ht, hd, hn⟩ := sound_stmt hi hs hr
    obtain ⟨span, e, rfl, hk, hm, rfl⟩ | ⟨hne, ss', hss, rfl⟩ := h
    · have hw' := hm.reads_fixed hw.ready hk rfl
      have ht := Stmt.outline?_mono hw'.grows _ ht
      obtain ⟨u, rfl⟩ := Stmt.outline?_result ht
      obtain ⟨⟨⟩⟩ | ⟨_, ⟨⟩, hd⟩ := hd
      exact ⟨_, [.result u], hw.trans hw', by simp [outlines?, ht], .result hd,
        Nat.max_le.mpr ⟨hn, Nat.zero_le n⟩⟩
    · have ⟨vs, ts, hw', hts, hb, hn'⟩ := ih hss hw.ready
      have ht := s.outline?_mono hw'.grows ht
      have hd : Statement ws t := by
        refine hd.resolve_right ?_
        rintro ⟨u, rfl, -⟩
        have ⟨_, _, hs⟩ := Stmt.eq_result_of_outline? ht
        exact hne _ _ hs
      exact ⟨_, t :: ts, hw.trans hw', by simp [outlines?, ht, hts], .item hd hb,
        Nat.max_le.mpr ⟨hn, hn'⟩⟩

-- One level adds one to the levels of what is inside.
theorem sound_enclosed : Inner.Sound (n + 1) (enclosed inner) := by
  intro o p e q h hr
  cases o with
  | minus =>
    obtain ⟨e, he, rfl⟩ := yields_enclosed_minus.mp h
    have ⟨ws, t, hw, ht, hd⟩ := sound_primary hi he hr
    exact ⟨ws, .neg t, hw, by simp [Expr.outline?, ht], .neg hd.derives, Nat.succ_le_succ hd.nesting⟩
  | paren =>
    obtain ⟨e, q₁, he, hk, hm, rfl⟩ := yields_enclosed_paren.mp h
    have ⟨ws, t, hw, ht, hd⟩ := sound_expr hi he hr
    have hw' := hm.reads_fixed hw.ready hk rfl
    have ht := e.outline?_mono hw'.grows ht
    exact ⟨_, .grouping t, hw.trans hw', by simp [Expr.outline?, ht], .grouping hd.derives,
      Nat.succ_le_succ hd.nesting⟩
  | brace =>
    obtain ⟨ss, hs, rfl⟩ := yields_enclosed_brace.mp h
    have ⟨ws, ts, hw, ht, hb, hn⟩ := sound_stmtsWithin hi _ hs hr
    exact ⟨ws, .block ts, hw, by simp [Expr.outline?, ht], .block hb, Nat.succ_le_succ hn⟩
  | cond =>
    obtain ⟨c, q₁, h₁, t, q₂, h₂, hk, q₃, hm, e, h₃, rfl⟩ := yields_enclosed_cond.mp h
    have ⟨cs, c', hw₁, hc, hdc⟩ := sound_expr hi h₁ hr
    obtain ⟨_, t', hw₂, ht, ts, rfl, hdt⟩ := sound_bracedExpr hi h₂ hw₁.ready
    have hw₃ := hm.reads_fixed hw₂.ready hk rfl
    obtain ⟨_, e', hw₄, he, es, rfl, hde⟩ := sound_bracedExpr hi h₃ hw₃.ready
    have hw := hw₁.trans (hw₂.trans (hw₃.trans hw₄))
    have hc := c.outline?_mono (hw₂.grows.trans (hw₃.grows.trans hw₄.grows)) hc
    have ht := t.outline?_mono (hw₃.grows.trans hw₄.grows) ht
    refine ⟨_, .cond c' t' e', hw, by simp [Expr.outline?, hc, ht, he], ?_, ?_⟩
    · have hd := Derives.cond hdc.derives hdt.derives hde.derives
      simpa [Opening.nonterminal, Opening.kind] using hd
    · have hn := Nat.max_le.mpr ⟨hdt.nesting, hde.nesting⟩
      exact Nat.succ_le_succ (Nat.max_le.mpr ⟨hdc.nesting, hn⟩)

end

theorem Reads.deepen {ws : List Word} {d d' : Nat} (h : Reads { p with depth := d } ws q) :
    Reads p ws { q with depth := d' } :=
  ⟨⟨h.ready.interner, h.ready.words⟩, h.words, h.range, h.fault, h.grows⟩

theorem sound_nested : (n : Nat) → Inner.Sound n (nested n)
  | 0, o => by
    intro p e q h
    simp [nested] at h
  | n + 1, o => by
    intro p e q h hr
    obtain ⟨q', he, rfl⟩ := yields_deeper.mp h
    have ⟨ws, t, hw, ht, hd⟩ := sound_enclosed (sound_nested n) o he ⟨hr.interner, hr.words⟩
    exact ⟨ws, t, hw.deepen, ht, hd⟩

end Parser
end ExprLang
