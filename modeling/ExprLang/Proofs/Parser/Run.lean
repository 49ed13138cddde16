import ExprLang.Parser.Grammar
import ExprLang.Proofs.Symbol.Interner
import ExprLang.Proofs.Token.Scan

/-!
Successful runs of parsers. `Yields` tells what a parser comes back with and in which state, one lemma
for each way to put parsers together, and `Reads` tells what such a run does to the words that are
left and to the interner.
-/
namespace ExprLang.Parser

variable {α β : Type} {p q r : Parser}

-- From the state `p`, a parser gets to `q` with the result `a`.
def Yields (m : ParseM α) (p : Parser) (a : α) (q : Parser) : Prop :=
  @Eq (Except Failure α × Parser) (m.run p) (.ok a, q)

-- The next token is consumed.
def Moves (p q : Parser) : Prop :=
  Yields advance p () q

section

variable {a : α} {b : β} {k : Token.Kind} {what : String}

theorem run_bind (m : ParseM α) (f : α → ParseM β) (p : Parser) :
    @Eq (Except Failure β × Parser) ((m >>= f).run p) (match m.run p with
      | (.ok a, q) => (f a).run q
      | (.error e, q) => (.error e, q)) := by
  show ExceptT.bindCont f (m.run p).fst (m.run p).snd = _
  cases m.run p with
  | mk x q => cases x <;> rfl

@[simp]
theorem yields_pure {a' : α} : Yields (pure a) p a' q ↔ a = a' ∧ p = q := by
  show ((.ok a, p) : Except Failure α × Parser) = (.ok a', q) ↔ _
  simp

@[simp]
theorem yields_bind {m : ParseM α} {f : α → ParseM β} :
    Yields (m >>= f) p b r ↔ ∃ a q, Yields m p a q ∧ Yields (f a) q b r := by
  simp only [Yields, run_bind]
  rcases m.run p with ⟨e | a, q⟩
  · simp
  · constructor
    · exact fun h => ⟨a, q, rfl, h⟩
    · rintro ⟨_, _, ⟨⟩, h⟩
      exact h

@[simp]
theorem yields_map {m : ParseM α} {f : α → β} :
    Yields (f <$> m) p b q ↔ ∃ a, Yields m p a q ∧ f a = b := by
  rw [map_eq_pure_bind]
  simp only [yields_bind, yields_pure]
  grind

@[simp]
theorem yields_get {a : Parser} : Yields get p a q ↔ p = a ∧ p = q :=
  yields_pure

@[simp]
theorem yields_set {u : Unit} : Yields (set q) p u r ↔ q = r := by
  show ((.ok (), q) : Except Failure Unit × Parser) = (.ok u, r) ↔ _
  simp

@[simp]
theorem not_yields_throw {e : Failure} : ¬Yields (throw e) p a q := by
  intro h
  replace h : ((.error e, p) : Except Failure α × Parser) = (.ok a, q) := h
  simp at h

@[simp]
theorem not_yields_fail {e : SyntaxError} : ¬Yields (fail e) p a q :=
  not_yields_throw

@[simp]
theorem not_yields_failExpecting : ¬Yields (failExpecting what) p a q := by
  simp [failExpecting]

@[simp]
theorem not_yields_failTooDeep : ¬Yields failTooDeep p a q := by
  simp [failTooDeep]

@[simp]
theorem yields_prevSpan {s : Span} : Yields prevSpan p s q ↔ p.prev.span = s ∧ p = q := by
  simp only [prevSpan, yields_bind, yields_get, yields_pure]
  grind

@[simp]
theorem yields_peek {k : Token.Kind} : Yields peek p k q ↔ p.token.kind = k ∧ p = q := by
  simp only [peek, yields_bind, yields_get, yields_pure]
  grind

theorem moves_iff : Moves p q ↔
    ∃ t l, p.lexer.next = (.ok t, l) ∧ { p with lexer := l, token := t, prev := p.token } = q := by
  simp only [Moves, advance, yields_bind, yields_get]
  constructor
  · rintro ⟨_, _, ⟨rfl, rfl⟩, h⟩
    split at h
    case h_1 t l hn => exact ⟨t, l, hn, yields_set.mp h⟩
    case h_2 => simp at h
  · rintro ⟨t, l, hn, rfl⟩
    exact ⟨p, p, ⟨rfl, rfl⟩, by simp [hn]⟩

theorem yields_check {b : Bool} :
    Yields (check k) p b q ↔ decide (p.token.kind = k) = b ∧ p = q := by
  simp only [check, yields_bind, yields_peek, yields_pure]
  constructor
  · rintro ⟨_, _, ⟨rfl, rfl⟩, h⟩
    exact h
  · exact fun h => ⟨_, _, ⟨rfl, rfl⟩, h⟩

-- A token is only eaten if it is of the right kind.
theorem yields_eat {b : Bool} :
    Yields (eat k) p b q ↔
      (p.token.kind = k ∧ b = true ∧ Moves p q) ∨ (p.token.kind ≠ k ∧ b = false ∧ p = q) := by
  simp only [eat, yields_bind, yields_check]
  constructor
  · rintro ⟨_, _, ⟨rfl, rfl⟩, h⟩
    by_cases hk : p.token.kind = k
    · simp only [hk, decide_true, if_true, yields_bind, yields_pure] at h
      obtain ⟨_, _, hm, rfl, rfl⟩ := h
      exact .inl ⟨hk, rfl, hm⟩
    · simp only [hk, decide_false, Bool.false_eq_true, if_false, yields_pure] at h
      exact .inr ⟨hk, h.left.symm, h.right⟩
  · rintro (⟨hk, rfl, hm⟩ | ⟨hk, rfl, rfl⟩)
    · refine ⟨_, _, ⟨rfl, rfl⟩, ?_⟩
      simp only [hk, decide_true, if_true, yields_bind, yields_pure]
      exact ⟨(), q, hm, trivial, rfl⟩
    · exact ⟨_, _, ⟨rfl, rfl⟩, by simp [hk]⟩

theorem yields_eat_ite {m m' : ParseM α} :
    Yields (do if ← eat k then m else m') p a r ↔
      (p.token.kind = k ∧ ∃ q, Moves p q ∧ Yields m q a r) ∨
      (p.token.kind ≠ k ∧ Yields m' p a r) := by
  simp only [yields_bind, yields_eat]
  constructor
  · rintro ⟨_, q, ⟨hk, rfl, hm⟩ | ⟨hk, rfl, rfl⟩, h⟩
    · exact .inl ⟨hk, q, hm, h⟩
    · exact .inr ⟨hk, h⟩
  · rintro (⟨hk, q, hm, h⟩ | ⟨hk, h⟩)
    · exact ⟨true, q, .inl ⟨hk, rfl, hm⟩, h⟩
    · exact ⟨false, p, .inr ⟨hk, rfl, rfl⟩, h⟩

-- What follows both branches can be taken out of them.
theorem yields_eat_ite_bind {m m' : ParseM α} {f : α → ParseM β} :
    Yields (do if ← eat k then m >>= f else m' >>= f) p b r ↔
      ∃ a q, Yields (do if ← eat k then m else m') p a q ∧ Yields (f a) q b r := by
  simp only [yields_eat_ite]
  simp only [yields_bind]
  constructor
  · rintro (⟨hk, q, hm, a, q', h, h'⟩ | ⟨hk, a, q', h, h'⟩)
    · exact ⟨a, q', .inl ⟨hk, q, hm, h⟩, h'⟩
    · exact ⟨a, q', .inr ⟨hk, h⟩, h'⟩
  · rintro ⟨a, q', ⟨hk, q, hm, h⟩ | ⟨hk, h⟩, h'⟩
    · exact .inl ⟨hk, q, hm, a, q', h, h'⟩
    · exact .inr ⟨hk, a, q', h, h'⟩

theorem yields_check_ite {m m' : ParseM α} :
    Yields (do if ← check k then m else m') p a r ↔
      (p.token.kind = k ∧ Yields m p a r) ∨ (p.token.kind ≠ k ∧ Yields m' p a r) := by
  simp only [yields_bind, yields_check]
  by_cases hk : p.token.kind = k
  · simp [hk]
  · simp [hk]

theorem yields_expect {t : Token} :
    Yields (expect k what) p t q ↔ p.token.kind = k ∧ Moves p q ∧ q.prev = t := by
  rw [expect, yields_eat_ite]
  constructor
  · rintro (⟨hk, q, hm, h⟩ | ⟨_, h⟩)
    · simp only [yields_bind, yields_get, yields_pure] at h
      obtain ⟨_, _, ⟨rfl, rfl⟩, ht, rfl⟩ := h
      exact ⟨hk, hm, ht⟩
    · simp at h
  · rintro ⟨hk, hm, rfl⟩
    refine .inl ⟨hk, q, hm, ?_⟩
    simp only [yields_bind, yields_get, yields_pure]
    exact ⟨q, q, ⟨rfl, rfl⟩, rfl, rfl⟩

theorem yields_prevText {t : Text} : Yields prevText p t q ↔ p.lexeme = .ok t ∧ p = q := by
  simp only [prevText, yields_bind, yields_get]
  constructor
  · rintro ⟨_, _, ⟨rfl, rfl⟩, h⟩
    split at h
    case h_1 hl =>
      obtain ⟨rfl, rfl⟩ := yields_pure.mp h
      exact ⟨hl, rfl⟩
    case h_2 => simp at h
  · rintro ⟨hl, rfl⟩
    exact ⟨p, p, ⟨rfl, rfl⟩, by simp [hl]⟩

theorem yields_internPrev {s : Symbol} :
    Yields internPrev p s q ↔ ∃ t i, p.lexeme = .ok t ∧ p.interner.intern t = (.ok s, i) ∧
      { p with interner := i } = q := by
  simp only [internPrev, yields_bind, yields_prevText, yields_get, yields_set]
  constructor
  · rintro ⟨t, _, ⟨hl, rfl⟩, _, _, ⟨rfl, rfl⟩, _, _, rfl, h⟩
    split at h
    case h_1 hs =>
      obtain ⟨rfl, rfl⟩ := yields_pure.mp h
      exact ⟨t, _, hl, Prod.ext hs rfl, rfl⟩
    case h_2 => simp at h
  · rintro ⟨t, i, hl, hi, rfl⟩
    refine ⟨t, p, ⟨hl, rfl⟩, p, p, ⟨rfl, rfl⟩, ?_⟩
    simp [hi]

theorem yields_ident {s : Symbol} :
    Yields ident p s r ↔ p.token.kind = .ident ∧ ∃ q, Moves p q ∧ Yields internPrev q s r := by
  simp only [ident, yields_bind, yields_expect]
  constructor
  · rintro ⟨_, q, ⟨hk, hm, _⟩, h⟩
    exact ⟨hk, q, hm, h⟩
  · rintro ⟨hk, q, hm, h⟩
    exact ⟨_, q, ⟨hk, hm, rfl⟩, h⟩

theorem yields_deeper {m : ParseM α} :
    Yields (deeper m) p a r ↔
      ∃ q, Yields m { p with depth := p.depth + 1 } a q ∧ { q with depth := q.depth - 1 } = r := by
  simp only [Yields]
  let run := m.run { p with depth := p.depth + 1 }
  show (run.fst, { run.snd with depth := run.snd.depth - 1 }) =
    ((.ok a, r) : Except Failure α × Parser) ↔ ∃ q, run = (.ok a, q) ∧ _
  rcases run with ⟨x, q⟩
  constructor
  · rintro ⟨⟩
    exact ⟨q, rfl, rfl⟩
  · rintro ⟨_, ⟨⟩, rfl⟩
    rfl

end

variable {inner : Inner}

theorem yields_bracedExpr {e : Program} :
    Yields (bracedExpr inner) p e r ↔
      p.token.kind = .lbrace ∧ ∃ q, Moves p q ∧ ∃ q', Yields (expr inner) q e q' ∧
        q'.token.kind = .rbrace ∧ Moves q' r := by
  simp only [bracedExpr, yields_bind, yields_expect, yields_pure]
  constructor
  · rintro ⟨_, q, ⟨hk, hm, -⟩, e, q', h, _, r, ⟨hk', hm', -⟩, rfl, rfl⟩
    exact ⟨hk, q, hm, q', h, hk', hm'⟩
  · rintro ⟨hk, q, hm, q', h, hk', hm'⟩
    exact ⟨_, q, ⟨hk, hm, rfl⟩, e, q', h, _, r, ⟨hk', hm', rfl⟩, rfl, rfl⟩

-- The optional parts of a declaration as parsers of their own.
theorem yields_declaration {s : Stmt Empty} :
    Yields (declaration inner) p s r ↔
      ∃ name q₁, Yields ident p name q₁ ∧
      ∃ type q₂, Yields (do if ← eat .colon then some <$> ident else pure none) q₁ type q₂ ∧
      ∃ init q₃, Yields (do if ← eat .eq then some <$> expr inner else pure none) q₂ init q₃ ∧
        q₃.token.kind = .semi ∧ Moves q₃ r ∧
        .declare (p.prev.span.merge r.prev.span) name type init = s := by
  simp only [declaration, yields_bind (m := prevSpan), yields_bind (m := ident), yields_prevSpan,
    yields_eat_ite_bind]
  constructor
  · rintro ⟨_, _, ⟨rfl, rfl⟩, name, q₁, h₁, type, q₂, h₂, init, q₃, h₃, h⟩
    simp only [yields_bind, yields_expect, yields_prevSpan, yields_pure] at h
    obtain ⟨_, _, ⟨hk, hm, -⟩, _, _, ⟨rfl, rfl⟩, rfl, rfl⟩ := h
    exact ⟨name, q₁, h₁, type, q₂, h₂, init, q₃, h₃, hk, hm, rfl⟩
  · rintro ⟨name, q₁, h₁, type, q₂, h₂, init, q₃, h₃, hk, hm, rfl⟩
    refine ⟨_, p, ⟨rfl, rfl⟩, name, q₁, h₁, type, q₂, h₂, init, q₃, h₃, ?_⟩
    simp only [yields_bind, yields_expect, yields_prevSpan, yields_pure]
    exact ⟨_, r, ⟨hk, hm, rfl⟩, _, r, ⟨rfl, rfl⟩, rfl, rfl⟩

theorem yields_assignment {s : Stmt Empty} :
    Yields (assignment inner) p s r ↔
      ∃ name q₁, Yields internPrev p name q₁ ∧ q₁.token.kind = .eq ∧ ∃ q₂, Moves q₁ q₂ ∧
      ∃ e q₃, Yields (expr inner) q₂ e q₃ ∧ q₃.token.kind = .semi ∧ Moves q₃ r ∧
        .assign (p.prev.span.merge r.prev.span) name e = s := by
  simp only [assignment, yields_bind, yields_prevSpan, yields_expect, yields_pure]
  constructor
  · rintro ⟨_, _, ⟨rfl, rfl⟩, name, q₁, h₁, _, q₂, ⟨hk, hm, -⟩, e, q₃, h, _, _, ⟨hk', hm', -⟩, _, _,
      ⟨rfl, rfl⟩, rfl, rfl⟩
    exact ⟨name, q₁, h₁, hk, q₂, hm, e, q₃, h, hk', hm', rfl⟩
  · rintro ⟨name, q₁, h₁, hk, q₂, hm, e, q₃, h, hk', hm', rfl⟩
    exact ⟨_, p, ⟨rfl, rfl⟩, name, q₁, h₁, _, q₂, ⟨hk, hm, rfl⟩, e, q₃, h, _, r, ⟨hk', hm', rfl⟩, _, r,
      ⟨rfl, rfl⟩, rfl, rfl⟩

-- What is no declaration and no assignment is an expression, and goes on as the token behind it
-- tells.
theorem yields_stmt {s : Stmt Empty} :
    Yields (stmt inner) p s r ↔
      (p.token.kind = .kwLet ∧ ∃ q, Moves p q ∧ Yields (declaration inner) q s r) ∨
      (p.token.kind = .ident ∧ ∃ q, Moves p q ∧ Yields (assignment inner) q s r) ∨
      (p.token.kind ∉ [.kwLet, .ident, .kwFn, .kwReturn] ∧ ∃ e q, Yields (expr inner) p e q ∧
        ((q.token.kind = .semi ∧ Moves q r ∧ .discard (e.span.merge r.prev.span) e = s) ∨
          (q.token.kind = .rbrace ∧ .result e.span e = s ∧ q = r))) := by
  rw [stmt, yields_eat_ite, yields_eat_ite]
  simp only [yields_bind (m := get), yields_get]
  constructor
  · rintro (h | ⟨h₁, h | ⟨h₂, _, _, ⟨rfl, rfl⟩, h⟩⟩)
    · exact .inl h
    · exact .inr (.inl h)
    split at h
    case isTrue => simp at h
    case isFalse h₃ =>
      simp only [Bool.or_eq_true, decide_eq_true_eq, not_or] at h₃
      have ⟨e, q, he, hs⟩ := yields_bind.mp h
      refine .inr (.inr ⟨by simp [h₁, h₂, h₃], e, q, he, ?_⟩)
      rw [yields_eat_ite, yields_check_ite] at hs
      obtain ⟨hk, q', hm, hs⟩ | ⟨-, ⟨hk, hs⟩ | ⟨-, hs⟩⟩ := hs
      · simp only [yields_bind, yields_prevSpan, yields_pure] at hs
        obtain ⟨_, _, ⟨rfl, rfl⟩, hs, rfl⟩ := hs
        exact .inl ⟨hk, hm, hs⟩
      · exact .inr ⟨hk, yields_pure.mp hs⟩
      · simp at hs
  · rintro (h | h | ⟨hk, e, q, he, h⟩)
    · exact .inl h
    · exact .inr ⟨by simp [h.left], .inl h⟩
    simp only [List.mem_cons, List.not_mem_nil, or_false, not_or] at hk
    refine .inr ⟨hk.left, .inr ⟨hk.right.left, p, p, ⟨rfl, rfl⟩, ?_⟩⟩
    simp only [hk, decide_false, Bool.or_self, Bool.false_eq_true, if_false]
    refine yields_bind.mpr ⟨e, q, he, ?_⟩
    rw [yields_eat_ite, yields_check_ite]
    obtain ⟨hk, hm, h⟩ | ⟨hk, h⟩ := h
    · refine .inl ⟨hk, r, hm, ?_⟩
      simp only [yields_bind, yields_prevSpan, yields_pure]
      exact ⟨_, r, ⟨rfl, rfl⟩, h, rfl⟩
    · exact .inr ⟨by simp [hk], .inl ⟨hk, yields_pure.mpr h⟩⟩

theorem yields_stmtsWithin {k : Nat} {ss : List (Stmt Empty)} :
    Yields (stmtsWithin inner (k + 1)) p ss r ↔
      (p.token.kind = .rbrace ∧ Moves p r ∧ [] = ss) ∨
      (p.token.kind ∉ [.rbrace, .eof] ∧ ∃ s q, Yields (stmt inner) p s q ∧
        ((∃ span e, s = .result span e ∧ q.token.kind = .rbrace ∧ Moves q r ∧ [s] = ss) ∨
          ((∀ span e, s ≠ .result span e) ∧
            ∃ ss', Yields (stmtsWithin inner k) q ss' r ∧ s :: ss' = ss))) := by
  rw [stmtsWithin, yields_eat_ite, yields_check_ite]
  constructor
  · rintro (⟨hk, q, hm, h⟩ | ⟨h₁, ⟨-, h⟩ | ⟨h₂, h⟩⟩)
    · obtain ⟨rfl, rfl⟩ := yields_pure.mp h
      exact .inl ⟨hk, hm, rfl⟩
    · simp at h
    have ⟨s, q, hs, hy⟩ := yields_bind.mp h
    refine .inr ⟨by simp [h₁, h₂], s, q, hs, ?_⟩
    split at hy
    case h_1 span e =>
      simp only [yields_bind, yields_expect, yields_pure] at hy
      obtain ⟨_, _, ⟨hk, hm, -⟩, hy, rfl⟩ := hy
      exact .inl ⟨span, e, rfl, hk, hm, hy⟩
    case h_2 hne =>
      simp only [yields_bind, yields_pure] at hy
      obtain ⟨ss', _, hss, hy, rfl⟩ := hy
      exact .inr ⟨hne, ss', hss, hy⟩
  · rintro (⟨hk, hm, rfl⟩ | ⟨hk, s, q, hs, h⟩)
    · exact .inl ⟨hk, r, hm, yields_pure.mpr ⟨rfl, rfl⟩⟩
    simp only [List.mem_cons, List.not_mem_nil, or_false, not_or] at hk
    refine .inr ⟨hk.left, .inr ⟨hk.right, yields_bind.mpr ⟨s, q, hs, ?_⟩⟩⟩
    obtain ⟨span, e, rfl, hk, hm, h⟩ | ⟨hne, ss', hss, h⟩ := h
    · simp only [yields_bind, yields_expect, yields_pure]
      exact ⟨_, r, ⟨hk, hm, rfl⟩, h, rfl⟩
    · split
      case h_1 => exact absurd rfl (hne _ _)
      case h_2 =>
        simp only [yields_bind, yields_pure]
        exact ⟨ss', r, hss, h, rfl⟩

section

variable {e : Program}

theorem yields_enclosed_minus :
    Yields (enclosed inner .minus) p e r ↔
      ∃ e', Yields (primary inner) p e' r ∧ .unary (p.prev.span.merge e'.span) .neg e' = e := by
  simp only [enclosed, yields_bind, yields_prevSpan, yields_pure]
  constructor
  · rintro ⟨_, _, ⟨rfl, rfl⟩, e', _, h, he, rfl⟩
    exact ⟨e', h, he⟩
  · rintro ⟨e', h, he⟩
    exact ⟨_, p, ⟨rfl, rfl⟩, e', r, h, he, rfl⟩

theorem yields_enclosed_paren :
    Yields (enclosed inner .paren) p e r ↔
      ∃ e' q, Yields (expr inner) p e' q ∧ q.token.kind = .rparen ∧ Moves q r ∧
        .grouping (p.prev.span.merge r.prev.span) e' = e := by
  simp only [enclosed, yields_bind, yields_prevSpan, yields_expect, yields_pure]
  constructor
  · rintro ⟨_, _, ⟨rfl, rfl⟩, e', q, h, _, _, ⟨hk, hm, -⟩, _, _, ⟨rfl, rfl⟩, he, rfl⟩
    exact ⟨e', q, h, hk, hm, he⟩
  · rintro ⟨e', q, h, hk, hm, he⟩
    exact ⟨_, p, ⟨rfl, rfl⟩, e', q, h, _, r, ⟨hk, hm, rfl⟩, _, r, ⟨rfl, rfl⟩, he, rfl⟩

theorem yields_enclosed_brace :
    Yields (enclosed inner .brace) p e r ↔
      ∃ ss, Yields (stmtsWithin inner p.unread) p ss r ∧
        .block (p.prev.span.merge r.prev.span) (.mk (p.prev.span.merge r.prev.span) ss) = e := by
  simp only [enclosed, stmts, yields_bind, yields_prevSpan, yields_get, yields_pure]
  constructor
  · rintro ⟨_, _, ⟨rfl, rfl⟩, ss, _, ⟨_, _, ⟨rfl, rfl⟩, h⟩, _, _, ⟨rfl, rfl⟩, he, rfl⟩
    exact ⟨ss, h, he⟩
  · rintro ⟨ss, h, he⟩
    exact ⟨_, p, ⟨rfl, rfl⟩, ss, r, ⟨p, p, ⟨rfl, rfl⟩, h⟩, _, r, ⟨rfl, rfl⟩, he, rfl⟩

theorem yields_enclosed_cond :
    Yields (enclosed inner .cond) p e r ↔
      ∃ test q₁, Yields (expr inner) p test q₁ ∧ ∃ yes q₂, Yields (bracedExpr inner) q₁ yes q₂ ∧
        q₂.token.kind = .kwElse ∧ ∃ q₃, Moves q₂ q₃ ∧ ∃ no, Yields (bracedExpr inner) q₃ no r ∧
        .cond (p.prev.span.merge r.prev.span) test yes no = e := by
  simp only [enclosed, yields_bind, yields_prevSpan, yields_expect, yields_pure]
  constructor
  · rintro ⟨_, _, ⟨rfl, rfl⟩, test, q₁, h₁, yes, q₂, h₂, _, q₃, ⟨hk, hm, -⟩, no, _, h₃, _, _, ⟨rfl, rfl⟩,
      he, rfl⟩
    exact ⟨test, q₁, h₁, yes, q₂, h₂, hk, q₃, hm, no, h₃, he⟩
  · rintro ⟨test, q₁, h₁, yes, q₂, h₂, hk, q₃, hm, no, h₃, he⟩
    exact ⟨_, p, ⟨rfl, rfl⟩, test, q₁, h₁, yes, q₂, h₂, _, q₃, ⟨hk, hm, rfl⟩, no, r, h₃, _, r, ⟨rfl, rfl⟩,
      he, rfl⟩

end

end ExprLang.Parser
