import ExprLang.Proofs.Grammar.Located
import ExprLang.Proofs.Parser.Soundness
import ExprLang.Proofs.Parser.Trace

/-!
Spans of what is parsed. Each parser comes back with a tree over the tokens that it took off, or over
these and the one before them if it goes on from there.
-/
namespace ExprLang

open Token Grammar Word

namespace Parser

variable {α β : Type} {p q r : Parser} {source : Array UInt8} {ts us : List Token} {k : Kind}

-- A parser somewhere in a source.
structure At (source : Array UInt8) (p : Parser) : Prop where
  ready : p.Ready
  source : p.lexer.source = source

-- Getting from `p` to `q` takes the tokens `ts` off a source, and the interner loses nothing.
structure Passes (source : Array UInt8) (p : Parser) (ts : List Token) (q : Parser) : Prop where
  stop : At source q
  takes : Takes p ts q
  grows : p.interner.Extends q.interner

namespace Passes

theorem refl (h : At source p) : Passes source p [] p :=
  ⟨h, .refl p, .refl _⟩

theorem trans (h : Passes source p ts q) (h' : Passes source q us r) :
    Passes source p (ts ++ us) r :=
  ⟨h'.stop, h.takes.trans h'.takes, h.grows.trans h'.grows⟩

theorem of_reads {ws : List Word} (hp : At source p) (ht : Takes p ts q) (hr : Reads p ws q) :
    Passes source p ts q :=
  ⟨⟨hr.ready, ht.source.trans hp.source⟩, ht, hr.grows⟩

theorem deepen {d d' : Nat} (h : Passes source { p with depth := d } ts q) :
    Passes source p ts { q with depth := d' } :=
  ⟨⟨⟨h.stop.ready.interner, h.stop.ready.words⟩, h.stop.source⟩, h.takes.deepen, h.grows⟩

-- The last token that was taken off is the one that was consumed last.
theorem prev_eq {t : Token} (h : Passes source p ts q) (ht : ts.getLast? = some t) : q.prev = t := by
  rw [h.takes.prev, ht]
  rfl

end Passes

theorem At.word_eq {w : Word} {ws : List Word} (hp : At source p) (h : p.words = w :: ws) :
    p.token.word source = w :=
  hp.source ▸ word_of_words h

theorem Moves.passes_fixed (h : Moves p q) (hp : At source p) (hk : p.token.kind = k)
    (hf : k.isFixed) : Passes source p [p.token] q ∧ p.token.word source = fixed k := by
  have hr := h.reads_fixed hp.ready hk hf
  have ⟨_, _, he⟩ := Kind.isFixed_iff.mp hf
  exact ⟨.of_reads hp (h.takes (hk ▸ he)) hr, hp.word_eq hr.words⟩

theorem Moves.passes_ident (h : Moves p q) (hp : At source p) (hk : p.token.kind = .ident) :
    ∃ y, Passes source p [p.token] q ∧ p.token.word source = .ident y ∧
      q.lexeme = .ok (.ofAscii y) := by
  have ⟨y, hr, hl⟩ := h.reads_ident hp.ready hk
  exact ⟨y, .of_reads hp (h.takes (by simp [hk])) hr, hp.word_eq hr.words, hl⟩

-- Texts for symbols that contain those of a parser.
def Named (p : Parser) (name : Symbol → Option Text) : Prop :=
  ∀ ⦃s x⦄, p.interner.issued? s = some x → name s = some x

theorem Passes.named {name : Symbol → Option Text} (h : Passes source p ts q) (hn : q.Named name) :
    p.Named name :=
  fun _ _ hs => hn (h.grows hs)

-- What a parser comes back with stands over the tokens that it took off, in the way that `L` tells.
-- The token that was consumed last before may belong to it.
def Locates (source : Array UInt8)
    (L : Token → (Symbol → Option Text) → List Token → α → β → Prop) (m : ParseM α) : Prop :=
  ∀ ⦃p a q⦄, Yields m p a q → At source p →
    ∃ ts u, Passes source p ts q ∧ ∀ name, q.Named name → L p.prev name ts a u

namespace Locates

variable {L : (Symbol → Option Text) → List Token → α → β → Prop} {m m' : ParseM α}

theorem failExpecting {L : Token → (Symbol → Option Text) → List Token → α → β → Prop}
    {what : String} : Locates source L (failExpecting what) := by
  intro p a q h
  simp at h

theorem mono {L L' : Token → (Symbol → Option Text) → List Token → α → β → Prop}
    (hl : ∀ t name ts a u, L t name ts a u → L' t name ts a u) (h : Locates source L m) :
    Locates source L' m := by
  intro p a q hy hp
  have ⟨ts, u, ht, hu⟩ := h hy hp
  exact ⟨ts, u, ht, fun name hn => hl _ _ _ _ _ (hu name hn)⟩

theorem eat (hk : k.isFixed)
    (h : Locates source (fun t name ts a u => t.word source = fixed k → L name (t :: ts) a u) m)
    (h' : Locates source (fun _ => L) m') :
    Locates source (fun _ => L) (do if ← eat k then m else m') := by
  intro p a r hy hp
  cases yields_eat_ite.mp hy
  case inr hy => exact h' hy.right hp
  case inl hy =>
    have ⟨he, q, hm, hy⟩ := hy
    have ⟨hq, hw⟩ := hm.passes_fixed hp he hk
    have ⟨ts, u, ht, hu⟩ := h hy hq.stop
    have hprev : q.prev = p.token := hq.takes.prev
    rw [hprev] at hu
    exact ⟨_, u, hq.trans ht, fun name hn => hu name hn hw⟩

theorem literal {L : (Symbol → Option Text) → List Token → Program → Outline → Prop}
    {v : Literal Empty} {u : Outline}
    (h : ∀ t name, t.word source = fixed k → L name [t] (.literal t.span v) u) :
    Locates source (fun t name ts a u => t.word source = fixed k → L name (t :: ts) a u)
      (do return .literal (← prevSpan) v) := by
  intro p e q hy hp
  simp only [yields_bind, yields_prevSpan, yields_pure] at hy
  obtain ⟨_, _, ⟨rfl, rfl⟩, rfl, rfl⟩ := hy
  exact ⟨[], u, .refl hp, fun name _ => h _ name⟩

theorem number {c : Nonterminal} {m : ParseM Program}
    (h : Locates source (fun _ name => Located (·.word source) name c) m) :
    Locates source (fun _ name => Located (·.word source) name c)
      (do if ← Parser.eat .number then number else m) := by
  intro p e r hy hp
  cases yields_eat_ite.mp hy
  case inr hy => exact h hy.right hp
  case inl hy =>
    have ⟨hk, q, hm, hy⟩ := hy
    have ⟨ds, hn, hl, hr⟩ := hm.reads_number hp.ready hk
    obtain ⟨hd, rfl, rfl⟩ := (yields_number hn hl).mp hy
    have ht := hm.takes (by simp [hk])
    have hprev : q.prev = p.token := ht.prev
    refine ⟨[p.token], .num (decimal ds), .of_reads hp ht (hr hd), fun name _ => ?_⟩
    rw [hprev]
    exact .number (hp.word_eq (hr hd).words) rfl

end Locates

theorem passes_internPrev {s : Symbol} {y : Bytes} (h : Yields internPrev p s q) (hp : At source p)
    (hl : p.lexeme = .ok (.ofAscii y)) :
    Passes source p [] q ∧ q.interner.issued? s = some (.ofAscii y) := by
  have ⟨hr, hs⟩ := reads_internPrev h hp.ready hl
  obtain ⟨_, _, -, -, rfl⟩ := yields_internPrev.mp h
  exact ⟨.of_reads hp (.of_eq rfl rfl rfl rfl) hr, hs⟩

-- A word stands for the symbol that it was given.
theorem locates_ident : Locates source (fun _ name ts s (x : Text) =>
    ∃ t y, ts = [t] ∧ t.word source = .ident y ∧ name s = some x ∧ x = .ofAscii y) ident := by
  intro p s r h hp
  have ⟨hk, q, hm, h⟩ := yields_ident.mp h
  have ⟨y, hq, hw, hl⟩ := hm.passes_ident hp hk
  have ⟨hr, hs⟩ := passes_internPrev h hq.stop hl
  exact ⟨_, .ofAscii y, hq.trans hr, fun name hn => ⟨_, y, rfl, hw, hn hs, rfl⟩⟩

theorem locates_annotation :
    Locates source (fun _ name => LocatedType (·.word source) name)
      (do if ← eat .colon then some <$> ident else pure none) := by
  refine .eat rfl ?_ ?_
  · intro p s q h hp
    have ⟨s, hs, he⟩ := yields_map.mp h
    subst he
    have ⟨ts, x, ht, hx⟩ := locates_ident hs hp
    refine ⟨ts, some x, ht, fun name hn hk => ?_⟩
    obtain ⟨t, y, rfl, hw, hs, hx⟩ := hx name hn
    exact .some hk hw hs hx
  · intro p s q h hp
    obtain ⟨rfl, rfl⟩ := yields_pure.mp h
    exact ⟨[], none, .refl hp, fun _ _ => .none⟩

-- The parsers for what follows an opening token come back with trees that start with it.
def Inner.Locates (source : Array UInt8) (inner : Inner) : Prop :=
  ∀ o, Parser.Locates source (fun t name ts e u => t.word source = fixed o.kind →
    Located (·.word source) name o.nonterminal (t :: ts) e u) (inner o)

section

variable {inner : Inner} (hi : inner.Locates source)
include hi

theorem locates_primary :
    Locates source (fun _ name => Located (·.word source) name .primary) (primary inner) := by
  refine .number ?_
  refine .eat rfl (.literal fun _ _ => .yes) ?_
  refine .eat rfl (.literal fun _ _ => .no) ?_
  refine .eat rfl (hi .paren) ?_
  exact .eat rfl (hi .brace) .failExpecting

theorem locates_unary :
    Locates source (fun _ name => Located (·.word source) name .unary) (unary inner) := by
  refine .eat rfl (hi .minus) ?_
  exact (locates_primary hi).mono fun _ _ _ _ _ h => h.loosen (Nat.le_refl _) (by simp)

end

theorem precedence_tier (op : BinOp) : (Nonterminal.tier op.tier).precedence = op.precedence := by
  cases op <;> rfl

-- Operators of a tier behind a left operand. The recursion is on the bound of their number.
theorem locates_chain {τ : Tier} {operand : ParseM Program}
    (ho : Locates source (fun _ name => Located (·.word source) name τ.operand) operand) :
    (n : Nat) → {left e : Program} → {l : Outline} → {ls : List Token} → {p q : Parser} →
    Yields (chain τ.op? operand n left) p e q → At source p →
    (∀ name, p.Named name → Located (·.word source) name (.tier τ) ls left l) →
    ∃ ts t, Passes source p ts q ∧
      ∀ name, q.Named name → Located (·.word source) name (.tier τ) (ls ++ ts) e t
  | 0, _, _, l, ls, p, _, h, hp, hl => by
    obtain ⟨rfl, rfl⟩ := yields_pure.mp h
    exact ⟨[], l, .refl hp, by simpa using hl⟩
  | n + 1, left, e, l, ls, p, q, h, hp, hl => by
    rw [chain, yields_bind] at h
    obtain ⟨_, _, ⟨rfl, rfl⟩, h⟩ := h
    split at h
    case h_1 =>
      obtain ⟨rfl, rfl⟩ := yields_pure.mp h
      exact ⟨[], l, .refl hp, by simpa using hl⟩
    case h_2 op hop =>
      obtain ⟨hk, hop⟩ := Tier.op?_eq_some_iff.mp hop
      obtain ⟨_, q₁, hm, h⟩ := yields_bind.mp h
      obtain ⟨right, q₂, hy, h⟩ := yields_bind.mp h
      obtain ⟨h₁, hw⟩ := Moves.passes_fixed hm hp hk.symm op.isFixed_kind
      obtain ⟨rs, r, h₂, hr⟩ := ho hy h₁.stop
      subst hop
      obtain ⟨ts, t, h₃, ht⟩ := locates_chain ho n (l := .binary op l r) h h₂.stop fun name hn =>
        .binary (precedence_tier op).le (hl name (h₁.named (h₂.named hn))) hw (hr name hn)
      refine ⟨_, t, h₁.trans (h₂.trans h₃), fun name hn => ?_⟩
      simpa using ht name hn

theorem precedence_operand_ge (τ : Tier) : (Nonterminal.tier τ).precedence ≤ τ.operand.precedence := by
  cases τ <;> decide

theorem locates_tier {τ : Tier} {operand : ParseM Program}
    (ho : Locates source (fun _ name => Located (·.word source) name τ.operand) operand) :
    Locates source (fun _ name => Located (·.word source) name (.tier τ)) (tier τ.op? operand) := by
  intro p e r h hp
  simp only [tier, yields_bind, yields_get] at h
  obtain ⟨left, q, hy, _, _, ⟨-, rfl⟩, h⟩ := h
  obtain ⟨ls, l, hq, hl⟩ := ho hy hp
  obtain ⟨ts, t, hr, ht⟩ := locates_chain ho _ h hq.stop fun name hn =>
    (hl name hn).loosen (precedence_operand_ge τ) (by simp)
  exact ⟨_, t, hq.trans hr, ht⟩

section

variable {inner : Inner} (hi : inner.Locates source)
include hi

theorem locates_expr :
    Locates source (fun _ name => Located (·.word source) name .expr) (expr inner) := by
  refine .eat rfl (hi .cond) ?_
  have multiplication := locates_tier (τ := .multiplication) (locates_unary hi)
  have addition := locates_tier (τ := .addition) multiplication
  have comparison := locates_tier (τ := .comparison) addition
  have equality := locates_tier (τ := .equality) comparison
  exact equality.mono fun _ _ _ _ _ h => h.expr

theorem locates_bracedExpr :
    Locates source (fun _ name ts e u => ∃ o us k, ts = o :: (us ++ [k]) ∧
      o.word source = fixed .lbrace ∧ Located (·.word source) name .expr us e u ∧
      k.word source = fixed .rbrace) (bracedExpr inner) := by
  intro p e r h hp
  have ⟨hk, q₁, hm, q₂, h, hk', hm'⟩ := yields_bracedExpr.mp h
  have ⟨h₁, ho⟩ := hm.passes_fixed hp hk rfl
  have ⟨us, u, h₂, hu⟩ := locates_expr hi h h₁.stop
  have ⟨h₃, hc⟩ := hm'.passes_fixed h₂.stop hk' rfl
  refine ⟨_, u, h₁.trans (h₂.trans h₃), fun name hn => ?_⟩
  exact ⟨_, us, _, rfl, ho, hu name (h₃.named hn), hc⟩

theorem locates_initial :
    Locates source (fun _ name => LocatedInit (·.word source) name)
      (do if ← eat .eq then some <$> expr inner else pure none) := by
  refine .eat rfl ?_ ?_
  · intro p e q h hp
    have ⟨e, he, hy⟩ := yields_map.mp h
    subst hy
    have ⟨ts, u, ht, hu⟩ := locates_expr hi he hp
    exact ⟨ts, some u, ht, fun name hn hw => .some hw (hu name hn)⟩
  · intro p e q h hp
    obtain ⟨rfl, rfl⟩ := yields_pure.mp h
    exact ⟨[], none, .refl hp, fun _ _ => .none⟩

theorem locates_declaration :
    Locates source (fun t name ts s u => t.word source = fixed .kwLet →
      LocatedStmt (·.word source) name (t :: ts) s u) (declaration inner) := by
  intro p s r h hp
  obtain ⟨x, q₁, h₁, type, q₂, h₂, init, q₃, h₃, hk, hm, rfl⟩ := yields_declaration.mp h
  have ⟨xs, x', hp₁, hx⟩ := locates_ident h₁ hp
  have ⟨ts, type', hp₂, ht⟩ := locates_annotation h₂ hp₁.stop
  have ⟨is, init', hp₃, hv⟩ := locates_initial hi h₃ hp₂.stop
  have ⟨hp₄, hw⟩ := hm.passes_fixed hp₃.stop hk rfl
  refine ⟨_, .declare x' type' init', hp₁.trans (hp₂.trans (hp₃.trans hp₄)), fun name hn hl => ?_⟩
  have hn₃ := hp₄.named hn
  have hn₂ := hp₃.named hn₃
  obtain ⟨t, y, rfl, hy, hs, hx⟩ := hx name (hp₂.named hn₂)
  rw [hp₄.prev_eq rfl]
  exact .declare hl hy hs hx (ht name hn₂) (hv name hn₃) hw

theorem locates_assignment {s : Stmt Empty} (hm : Moves p q) (hk : p.token.kind = .ident)
    (hp : At source p) (h : Yields (assignment inner) q s r) :
    ∃ ts u, Passes source p ts r ∧
      ∀ name, r.Named name → LocatedStmt (·.word source) name ts s u := by
  obtain ⟨x, q₁, h₁, hk₁, q₂, hm₁, e, q₃, h₃, hk₃, hm₃, rfl⟩ := yields_assignment.mp h
  have ⟨y, hp₀, hy, hl⟩ := hm.passes_ident hp hk
  have ⟨hp₁, hs⟩ := passes_internPrev h₁ hp₀.stop hl
  have ⟨hp₂, ho⟩ := hm₁.passes_fixed hp₁.stop hk₁ rfl
  have ⟨ts, u, hp₃, hu⟩ := locates_expr hi h₃ hp₂.stop
  have ⟨hp₄, hw⟩ := hm₃.passes_fixed hp₃.stop hk₃ rfl
  refine ⟨_, .assign (.ofAscii y) u, hp₀.trans (hp₁.trans (hp₂.trans (hp₃.trans hp₄))),
    fun name hn => ?_⟩
  have hn₃ := hp₄.named hn
  have hn₁ := hp₂.named (hp₃.named hn₃)
  rw [hp₄.prev_eq rfl, hp₀.prev_eq rfl]
  exact .assign hy (hn₁ hs) rfl ho (hu name hn₃) hw

theorem locates_stmt :
    Locates source (fun _ name => LocatedStmt (·.word source) name) (stmt inner) := by
  intro p s r h hp
  obtain ⟨hk, q, hm, h⟩ | ⟨hk, q, hm, h⟩ | ⟨-, e, q, he, h⟩ := yields_stmt.mp h
  · have ⟨hq, hw⟩ := hm.passes_fixed hp hk rfl
    have ⟨ts, u, hr, hu⟩ := locates_declaration hi h hq.stop
    rw [hq.prev_eq rfl] at hu
    exact ⟨_, u, hq.trans hr, fun name hn => hu name hn hw⟩
  · exact locates_assignment hi hm hk hp h
  · have ⟨ts, u, hq, hu⟩ := locates_expr hi he hp
    obtain ⟨hk, hm, rfl⟩ | ⟨-, rfl, rfl⟩ := h
    · have ⟨hr, hw⟩ := hm.passes_fixed hq.stop hk rfl
      refine ⟨_, .discard u, hq.trans hr, fun name hn => ?_⟩
      rw [hr.prev_eq rfl]
      exact .discard (hu name (hr.named hn)) hw
    · exact ⟨ts, .result u, hq, fun name hn => .result (hu name hn)⟩

-- Statements up to the closing brace. The induction is on the bound of their number.
theorem locates_stmtsWithin (n : Nat) :
    Locates source (fun _ name ts ss us => ∃ bs k, ts = bs ++ [k] ∧
      LocatedBody (·.word source) name bs ss us ∧ k.word source = fixed .rbrace)
      (stmtsWithin inner n) := by
  induction n
  case zero => exact .failExpecting
  case succ n ih =>
    intro p ss r h hp
    obtain ⟨hk, hm, rfl⟩ | ⟨-, s, q, hs, h⟩ := yields_stmtsWithin.mp h
    · have ⟨hr, hw⟩ := hm.passes_fixed hp hk rfl
      exact ⟨_, [], hr, fun _ _ => ⟨[], _, rfl, .nil, hw⟩⟩
    have ⟨ts, u, hq, hu⟩ := locates_stmt hi hs hp
    obtain ⟨span, e, rfl, hk, hm, rfl⟩ | ⟨hne, ss', hss, rfl⟩ := h
    · have ⟨hr, hw⟩ := hm.passes_fixed hq.stop hk rfl
      refine ⟨_, [u], hq.trans hr, fun name hn => ?_⟩
      have hb := LocatedBody.cons (hu name (hr.named hn)) (fun _ => rfl) .nil
      exact ⟨_, _, by rw [List.append_nil], hb, hw⟩
    · have ⟨us, vs, hr, hv⟩ := ih hss hq.stop
      refine ⟨_, u :: vs, hq.trans hr, fun name hn => ?_⟩
      obtain ⟨bs, k, rfl, hb, hw⟩ := hv name hn
      have hs := hu name (hr.named hn)
      refine ⟨ts ++ bs, k, (List.append_assoc ..).symm, .cons hs (fun hr => ?_) hb, hw⟩
      have ⟨span, e, he⟩ := hs.eq_result hr
      exact absurd he (hne span e)

theorem locates_enclosed : Inner.Locates source (enclosed inner) := by
  intro o p e r h hp
  cases o with
  | minus =>
    obtain ⟨e, he, rfl⟩ := yields_enclosed_minus.mp h
    have ⟨ts, u, hr, hu⟩ := locates_primary hi he hp
    exact ⟨ts, .neg u, hr, fun name hn hw => .neg nofun hw (hu name hn)⟩
  | paren =>
    obtain ⟨e, q, he, hk, hm, rfl⟩ := yields_enclosed_paren.mp h
    have ⟨ts, u, hq, hu⟩ := locates_expr hi he hp
    have ⟨hr, hc⟩ := hm.passes_fixed hq.stop hk rfl
    refine ⟨_, .grouping u, hq.trans hr, fun name hn hw => ?_⟩
    rw [hr.prev_eq rfl]
    exact .grouping hw (hu name (hr.named hn)) hc
  | brace =>
    obtain ⟨ss, hs, rfl⟩ := yields_enclosed_brace.mp h
    have ⟨ts, us, hr, hu⟩ := locates_stmtsWithin hi _ hs hp
    refine ⟨_, .block us, hr, fun name hn hw => ?_⟩
    obtain ⟨bs, k, rfl, hb, hk⟩ := hu name hn
    rw [hr.prev_eq List.getLast?_concat]
    exact .block hw hb hk
  | cond =>
    obtain ⟨c, q₁, h₁, t, q₂, h₂, hk, q₃, hm, e, h₃, rfl⟩ := yields_enclosed_cond.mp h
    have ⟨cs, c', hp₁, hc⟩ := locates_expr hi h₁ hp
    have ⟨ts, t', hp₂, ht⟩ := locates_bracedExpr hi h₂ hp₁.stop
    have ⟨hp₃, hl⟩ := hm.passes_fixed hp₂.stop hk rfl
    have ⟨es, e', hp₄, he⟩ := locates_bracedExpr hi h₃ hp₃.stop
    refine ⟨_, .cond c' t' e', hp₁.trans (hp₂.trans (hp₃.trans hp₄)), fun name hn hw => ?_⟩
    have hn₂ := hp₃.named (hp₄.named hn)
    obtain ⟨o, ts, k, rfl, ho, ht, hk⟩ := ht name hn₂
    obtain ⟨o', es, k', rfl, ho', he, hk'⟩ := he name hn
    rw [hp₄.prev_eq (t := k') (by simp [List.getLast?_cons])]
    have hd := Located.cond hw (hc name (hp₂.named hn₂)) ho ht hk hl ho' he hk'
    simpa [Opening.nonterminal] using hd

end

theorem locates_nested : (n : Nat) → Inner.Locates source (nested n)
  | 0, o => by
    intro p e q h
    simp [nested] at h
  | n + 1, o => by
    intro p e r h hp
    obtain ⟨q, hy, rfl⟩ := yields_deeper.mp h
    have hq : At source { p with depth := p.depth + 1 } :=
      ⟨⟨hp.ready.interner, hp.ready.words⟩, hp.source⟩
    obtain ⟨ts, u, hr, hu⟩ := locates_enclosed (locates_nested n) o hy hq
    exact ⟨ts, u, hr.deepen, hu⟩

end Parser
end ExprLang
