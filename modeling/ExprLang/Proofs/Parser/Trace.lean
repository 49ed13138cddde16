import ExprLang.Proofs.Parser.Reading
import ExprLang.Proofs.Parser.Refusal

/-!
What every run of a parser does, whether it comes back or fails: it takes tokens off, one after
another, and the state that it stops in tells the reason.
-/
namespace ExprLang

open Token

namespace Lexer

variable {l l' : Lexer} {t : Token}

theorem tokens_eq (h : l.next = (.ok t, l')) :
    l.scan.tokens = t :: if t.kind = .eof then [] else l'.scan.tokens := by
  split
  case isTrue ht => rw [scan_eof h ht]
  case isFalse ht => rw [scan_next h ht]

theorem unread_next_le (h : l.next = (.ok t, l')) : l'.unread ≤ l.unread := by
  obtain ⟨-, -, rfl⟩ | ⟨k, n, -, -, rfl⟩ := next_cases h
  all_goals
    rw [unread_skip]
    exact Nat.le_trans (Nat.sub_le _ _) l.unread_skipBlanks_le

end Lexer

namespace Parser

variable {α β : Type} {p q r : Parser}

-- The tokens that are left, up to the end of the input or the first stray byte.
def tokens (p : Parser) : List Token :=
  p.token :: if p.token.kind = .eof then [] else p.lexer.scan.tokens

theorem words_eq_map (p : Parser) : p.words = p.tokens.map (·.word p.lexer.source) := by
  simp only [words, tokens, List.map_cons]
  split <;> rfl

-- Getting from `p` to `q` takes the tokens `ts` off.
structure Takes (p : Parser) (ts : List Token) (q : Parser) : Prop where
  tokens : p.tokens = ts ++ q.tokens
  source : q.lexer.source = p.lexer.source
  prev : q.prev = ts.getLast?.getD p.prev
  unread : q.unread + ts.length ≤ p.unread
  maxDepth : q.maxDepth = p.maxDepth

namespace Takes

variable {ts us : List Token}

theorem refl (p : Parser) : Takes p [] p :=
  ⟨rfl, rfl, rfl, Nat.le_refl _, rfl⟩

theorem trans (h₁ : Takes p ts q) (h₂ : Takes q us r) : Takes p (ts ++ us) r where
  tokens := by rw [h₁.tokens, h₂.tokens, List.append_assoc]
  source := h₂.source.trans h₁.source
  prev := by
    rw [h₂.prev, h₁.prev, List.getLast?_append]
    cases us.getLast? <;> rfl
  unread := by
    have := h₁.unread
    have := h₂.unread
    rw [List.length_append]
    omega
  maxDepth := h₂.maxDepth.trans h₁.maxDepth

-- What else may change does not count.
theorem of_eq (hl : q.lexer = p.lexer) (ht : q.token = p.token) (hp : q.prev = p.prev)
    (hd : q.maxDepth = p.maxDepth) : Takes p [] q where
  tokens := by simp [Parser.tokens, hl, ht]
  source := by rw [hl]
  prev := hp
  unread := by simp [Parser.unread, hl, ht]
  maxDepth := hd

theorem deepen {d d' : Nat} (h : Takes { p with depth := d } ts q) :
    Takes p ts { q with depth := d' } :=
  ⟨h.tokens, h.source, h.prev, h.unread, h.maxDepth⟩

theorem words_eq (h : Takes p ts q) : p.words = ts.map (·.word p.lexer.source) ++ q.words := by
  rw [words_eq_map, words_eq_map, h.tokens, List.map_append, h.source]

-- The token that was consumed last is the one from before or was taken off.
theorem prev_cases (h : Takes p ts q) : q.prev = p.prev ∨ q.prev ∈ ts := by
  rw [h.prev]
  cases hl : ts.getLast?
  case none => exact .inl rfl
  case some t => exact .inr (List.mem_of_getLast? hl)

end Takes

theorem Moves.takes (h : Moves p q) (hk : p.token.kind ≠ .eof) : Takes p [p.token] q := by
  have ⟨t, l, hn, hq⟩ := moves_iff.mp h
  subst hq
  refine ⟨?tokens, Lexer.source_next hn, rfl, ?unread, rfl⟩
  case tokens => simp [tokens, hk, Lexer.tokens_eq hn]
  case unread =>
    have hu := Lexer.unread_next_le hn
    simp only [unread, hk, if_false, List.length_singleton]
    split
    case isTrue => omega
    case isFalse ht =>
      have := Lexer.unread_next_lt hn ht
      omega

-- For what reason a parser stops where: the tokens are as in `q`, and `r` is the state after it.
inductive Fails : Failure → (q r : Parser) → Prop
  | unexpected : Fails (.fault (s.unexpected what)) s s
  | unimplemented (hk : s.token.kind = .kwFn ∨ s.token.kind = .kwReturn) :
    Fails (.fault ⟨s.token.span, .unimplemented s.token.kind⟩) s s
  | tooDeep (hf : .ofFault ⟨s.prev.span, .tooDeep s.maxDepth⟩ = f) : Fails f s s
  | stray (h : s.lexer.next = (.error e, l)) : Fails (.fault e) s { s with lexer := l }
  | tooLarge (hk : s.prev.kind = .number) : Fails (.fault ⟨s.prev.span, .tooLarge t⟩) s s
  | numeral (hk : s.prev.kind = .number) (hl : s.lexeme = .ok t) (hn : t.numeral? = .error f) :
    Fails (.numeral f t) s s
  | undecodable (hk : s.prev.kind ≠ .eof) (hl : s.lexeme = .error f) : Fails (.undecodable f) s s
  | unencodable (hk : s.prev.kind ≠ .eof) (hl : s.lexeme = .ok t)
    (hi : s.interner.intern t = (.error f, s.interner)) : Fails (.unencodable f) s s

-- The depth has no part in it.
theorem Fails.deepen {f : Failure} (d : Nat) : Fails f q r →
    Fails f { q with depth := d } { r with depth := d }
  | .unexpected => .unexpected (s := { q with depth := d })
  | .unimplemented hk => .unimplemented (s := { q with depth := d }) hk
  | .tooDeep hf => .tooDeep (s := { q with depth := d }) hf
  | .stray h => .stray (s := { q with depth := d }) h
  | .tooLarge hk => .tooLarge (s := { q with depth := d }) hk
  | .numeral hk hl hn => .numeral (s := { q with depth := d }) hk hl hn
  | .undecodable hk hl => .undecodable (s := { q with depth := d }) hk hl
  | .unencodable hk hl hi => .unencodable (s := { q with depth := d }) hk hl hi

theorem eq_of_yields_number {e : Program} (h : Yields number p e q) : p = q := by
  simp only [number, yields_bind, yields_prevSpan, yields_prevText] at h
  obtain ⟨_, _, ⟨rfl, rfl⟩, _, _, ⟨-, rfl⟩, h⟩ := h
  split at h
  case h_1 => simp at h
  case h_2 =>
    split at h
    case isTrue => simp at h
    case isFalse => exact (yields_pure.mp h).right

-- A parser takes tokens off until it comes back or fails.
structure Traced (m : ParseM α) (p : Parser) : Prop where
  yields {a : α} {q : Parser} : Yields m p a q → ∃ ts, Takes p ts q
  refuses {f : Failure} {r : Parser} : Refuses m p f r → ∃ ts q, Takes p ts q ∧ Fails f q r

namespace Traced

variable {m m' : ParseM α} {k : Kind} {what : String}

-- A parser that changes nothing and always comes back.
theorem of_yields {a : α} (h : Yields m p a p) : Traced m p where
  yields h' := by
    cases h.symm.trans h'
    exact ⟨[], .refl p⟩
  refuses h' := absurd h' (not_refuses_of_yields h)

theorem pure (a : α) (p : Parser) : Traced (pure a) p :=
  .of_yields (yields_pure.mpr ⟨rfl, rfl⟩)

theorem bind {g : α → ParseM β} (h : Traced m p) (hg : ∀ a q, Yields m p a q → Traced (g a) q) :
    Traced (m >>= g) p where
  yields hy := by
    have ⟨a, q, hm, hy⟩ := yields_bind.mp hy
    have ⟨ts, ht⟩ := h.yields hm
    have ⟨us, hu⟩ := (hg a q hm).yields hy
    exact ⟨_, ht.trans hu⟩
  refuses hr := by
    cases refuses_bind.mp hr
    case inl hr => exact h.refuses hr
    case inr hr =>
      have ⟨a, q, hm, hr⟩ := hr
      have ⟨ts, ht⟩ := h.yields hm
      have ⟨us, q', hu, hf⟩ := (hg a q hm).refuses hr
      exact ⟨_, q', ht.trans hu, hf⟩

theorem map {g : α → β} (h : Traced m p) : Traced (g <$> m) p := by
  rw [map_eq_pure_bind]
  exact h.bind fun a q _ => .pure (g a) q

theorem get : Traced get p :=
  .of_yields (yields_get.mpr ⟨rfl, rfl⟩)

theorem prevSpan : Traced prevSpan p :=
  .of_yields (yields_prevSpan.mpr ⟨rfl, rfl⟩)

theorem throw {f : Failure} (h : Fails f p p) : Traced (α := α) (throw f) p where
  yields h := absurd h not_yields_throw
  refuses hr := by
    obtain ⟨rfl, rfl⟩ := refuses_throw.mp hr
    exact ⟨[], p, .refl p, h⟩

theorem fail {e : SyntaxError} (h : Fails (.fault e) p p) : Traced (α := α) (fail e) p :=
  .throw h

theorem failExpecting (p : Parser) : Traced (α := α) (failExpecting what) p := by
  refine .bind .get fun _ q hq => ?_
  obtain ⟨rfl, rfl⟩ := yields_get.mp hq
  exact .fail .unexpected

theorem failTooDeep (p : Parser) : Traced (α := α) failTooDeep p := by
  refine .bind .get fun _ q hq => ?_
  obtain ⟨rfl, rfl⟩ := yields_get.mp hq
  exact .throw (.tooDeep rfl)

theorem advance (hk : p.token.kind ≠ .eof) : Traced advance p where
  yields h := ⟨_, Moves.takes h hk⟩
  refuses h := by
    have ⟨e, l, hn, hf, hr⟩ := refuses_advance.mp h
    subst hf hr
    exact ⟨[], p, .refl p, .stray hn⟩

theorem eat (hk : k ≠ .eof) (h : ∀ q, q.prev.kind = k → Traced m q) (h' : Traced m' p) :
    Traced (do if ← eat k then m else m') p where
  yields hy := by
    cases yields_eat_ite.mp hy
    case inl hy =>
      have ⟨he, q, hm, hy⟩ := hy
      have ht := hm.takes (he ▸ hk)
      have ⟨us, hu⟩ := (h q (ht.prev ▸ he)).yields hy
      exact ⟨_, ht.trans hu⟩
    case inr hy => exact h'.yields hy.right
  refuses hr := by
    cases refuses_eat_ite.mp hr
    case inr hr => exact h'.refuses hr.right
    case inl hr =>
      have ⟨he, hr⟩ := hr
      cases hr
      case inl hr => exact (advance (he ▸ hk)).refuses hr
      case inr hr =>
        have ⟨q, hm, hr⟩ := hr
        have ht := hm.takes (he ▸ hk)
        have ⟨us, q', hu, hf⟩ := (h q (ht.prev ▸ he)).refuses hr
        exact ⟨_, q', ht.trans hu, hf⟩

-- What follows both branches is in each of them.
theorem eat_bind {g : α → ParseM β} (hk : k ≠ .eof) (h : ∀ q, q.prev.kind = k → Traced m q)
    (h' : Traced m' p) (hg : ∀ a q, Traced (g a) q) :
    Traced (do if ← Parser.eat k then m >>= g else m' >>= g) p :=
  .eat hk (fun q hq => (h q hq).bind fun a r _ => hg a r) (h'.bind fun a r _ => hg a r)

theorem check (h : Traced m p) (h' : Traced m' p) : Traced (do if ← check k then m else m') p where
  yields hy := by
    cases yields_check_ite.mp hy
    case inl hy => exact h.yields hy.right
    case inr hy => exact h'.yields hy.right
  refuses hr := by
    cases refuses_check_ite.mp hr
    case inl hr => exact h.refuses hr.right
    case inr hr => exact h'.refuses hr.right

theorem expect (hk : k ≠ .eof) (p : Parser) : Traced (expect k what) p :=
  .eat hk (fun _ _ => .of_yields (by simp; rfl)) (.failExpecting p)

theorem number (hk : p.prev.kind = .number) : Traced number p where
  yields h := ⟨[], eq_of_yields_number h ▸ .refl p⟩
  refuses h := by
    obtain ⟨rfl, ⟨g, hl, rfl⟩ | ⟨t, g, hl, hn, rfl⟩ | ⟨t, n, -, -, -, rfl⟩⟩ := refuses_number.mp h
    · exact ⟨[], p, .refl p, .undecodable (by simp [hk]) hl⟩
    · exact ⟨[], p, .refl p, .numeral hk hl hn⟩
    · exact ⟨[], p, .refl p, .tooLarge hk⟩

theorem internPrev (hk : p.prev.kind = .ident) : Traced internPrev p where
  yields h := by
    obtain ⟨t, i, -, -, rfl⟩ := yields_internPrev.mp h
    exact ⟨[], .of_eq rfl rfl rfl rfl⟩
  refuses h := by
    obtain ⟨rfl, ⟨g, hl, rfl⟩ | ⟨t, g, hl, hi, rfl⟩⟩ := refuses_internPrev.mp h
    · exact ⟨[], p, .refl p, .undecodable (by simp [hk]) hl⟩
    · exact ⟨[], p, .refl p, .unencodable (by simp [hk]) hl hi⟩

theorem ident (p : Parser) : Traced ident p := by
  refine .bind (.expect (by decide) p) fun t q h => .internPrev ?_
  have ⟨hk, hm, _⟩ := yields_expect.mp h
  exact (hm.takes (by simp [hk])).prev ▸ hk

theorem deeper (h : Traced m { p with depth := p.depth + 1 }) : Traced (deeper m) p where
  yields hy := by
    obtain ⟨q, hq, rfl⟩ := yields_deeper.mp hy
    have ⟨ts, ht⟩ := h.yields hq
    exact ⟨ts, ht.deepen⟩
  refuses hr := by
    obtain ⟨q, hq, rfl⟩ := refuses_deeper.mp hr
    have ⟨ts, q', ht, hf⟩ := h.refuses hq
    exact ⟨ts, _, ht.deepen, hf.deepen _⟩

end Traced

section

variable {op? : Kind → Option BinOp} {operand : ParseM Program}

-- A chain ends where no operator comes next.
theorem yields_chain_of_none {left : Program} (h : op? p.token.kind = none) (n : Nat) :
    Yields (chain op? operand n left) p left p := by
  cases n
  case zero => exact yields_pure.mpr ⟨rfl, rfl⟩
  case succ =>
    rw [chain, yields_bind]
    exact ⟨_, p, yields_peek.mpr ⟨rfl, rfl⟩, by simp [h]⟩

theorem traced_chain (ho : op? .eof = none) (h : ∀ p, Traced operand p) (k : Nat) (left : Program)
    (p : Parser) : Traced (chain op? operand k left) p := by
  induction k generalizing left p
  case zero => exact .pure left p
  case succ k hi =>
    refine .bind (.of_yields (yields_peek.mpr ⟨rfl, rfl⟩)) fun kind q hq => ?_
    obtain ⟨rfl, rfl⟩ := yields_peek.mp hq
    split
    case h_1 => exact .pure left _
    case h_2 op hop =>
      refine .bind (.advance fun he => ?_) fun _ q _ => .bind (h q) fun right q _ => hi _ q
      rw [he, ho] at hop
      contradiction

theorem traced_tier (ho : op? .eof = none) (h : ∀ p, Traced operand p) (p : Parser) :
    Traced (tier op? operand) p := by
  refine .bind (h p) fun left q _ => .bind (.of_yields (yields_get.mpr ⟨rfl, rfl⟩)) fun _ r _ => ?_
  exact traced_chain ho h _ left r

end

section

variable {inner : Inner} (hi : ∀ o p, Traced (inner o) p)
include hi

theorem traced_primary (p : Parser) : Traced (primary inner) p := by
  have literal (v : Literal Empty) (q : Parser) :
      Traced (do return .literal (← prevSpan) v : ParseM Program) q :=
    .bind (.of_yields (yields_prevSpan.mpr ⟨rfl, rfl⟩)) fun _ _ _ => .pure _ _
  refine .eat (by decide) (fun q hq => .number hq) ?_
  refine .eat (by decide) (fun q _ => literal _ q) ?_
  refine .eat (by decide) (fun q _ => literal _ q) ?_
  refine .eat (by decide) (fun q _ => hi .paren q) ?_
  exact .eat (by decide) (fun q _ => hi .brace q) (.failExpecting p)

theorem traced_unary (p : Parser) : Traced (unary inner) p :=
  .eat (by decide) (fun q _ => hi .minus q) (traced_primary hi p)

theorem traced_expr (p : Parser) : Traced (expr inner) p := by
  refine .eat (by decide) (fun q _ => hi .cond q) ?_
  refine traced_tier rfl (fun p => ?_) p
  refine traced_tier rfl (fun p => ?_) p
  refine traced_tier rfl (fun p => ?_) p
  exact traced_tier rfl (traced_unary hi) p

theorem traced_bracedExpr (p : Parser) : Traced (bracedExpr inner) p := by
  refine .bind (.expect (by decide) p) fun _ q _ => ?_
  refine .bind (traced_expr hi q) fun _ q _ => ?_
  exact .bind (.expect (by decide) q) fun _ q _ => .pure _ q

theorem traced_declaration (p : Parser) : Traced (declaration inner) p := by
  refine .bind .prevSpan fun _ q _ => .bind (.ident q) fun name q _ => ?_
  refine .eat_bind (by decide) (fun q _ => (Traced.ident q).map) (.pure _ q) fun type q => ?_
  refine .eat_bind (by decide) (fun q _ => (traced_expr hi q).map) (.pure _ q) fun init q => ?_
  refine .bind (.expect (by decide) q) fun _ q _ => ?_
  exact .bind .prevSpan fun _ q _ => .pure _ q

theorem traced_assignment (hk : p.prev.kind = .ident) : Traced (assignment inner) p := by
  refine .bind .prevSpan fun _ q hq => ?_
  obtain ⟨-, rfl⟩ := yields_prevSpan.mp hq
  refine .bind (.internPrev hk) fun _ q _ => .bind (.expect (by decide) q) fun _ q _ => ?_
  refine .bind (traced_expr hi q) fun _ q _ => .bind (.expect (by decide) q) fun _ q _ => ?_
  exact .bind .prevSpan fun _ q _ => .pure _ q

theorem traced_stmt (p : Parser) : Traced (stmt inner) p := by
  refine .eat (by decide) (fun q _ => traced_declaration hi q) ?_
  refine .eat (by decide) (fun q hq => traced_assignment hi hq) ?_
  refine .bind .get fun _ q hq => ?_
  obtain ⟨rfl, rfl⟩ := yields_get.mp hq
  dsimp only
  split
  case isTrue hk =>
    refine .fail (.unimplemented ?_)
    simpa using hk
  case isFalse =>
    refine .bind (traced_expr hi p) fun e q _ => ?_
    refine .eat (by decide) (fun q _ => .bind .prevSpan fun _ q _ => .pure _ q) ?_
    exact .check (.pure _ q) (.failExpecting q)

theorem traced_stmtsWithin (k : Nat) (p : Parser) : Traced (stmtsWithin inner k) p := by
  induction k generalizing p
  case zero => exact .failExpecting p
  case succ k ih =>
    refine .eat (by decide) (fun q _ => .pure _ q) ?_
    refine .check (.failExpecting p) ?_
    refine .bind (traced_stmt hi p) fun s q _ => ?_
    split
    case h_1 => exact .bind (.expect (by decide) q) fun _ q _ => .pure _ q
    case h_2 => exact .bind (ih q) fun _ q _ => .pure _ q

theorem traced_enclosed (o : Opening) (p : Parser) : Traced (enclosed inner o) p := by
  cases o
  all_goals refine .bind .prevSpan fun _ q _ => ?_
  case minus => exact .bind (traced_primary hi q) fun _ q _ => .pure _ q
  case paren =>
    refine .bind (traced_expr hi q) fun _ q _ => .bind (.expect (by decide) q) fun _ q _ => ?_
    exact .bind .prevSpan fun _ q _ => .pure _ q
  case brace =>
    refine .bind (.bind .get fun _ q _ => traced_stmtsWithin hi _ q) fun _ q _ => ?_
    exact .bind .prevSpan fun _ q _ => .pure _ q
  case cond =>
    refine .bind (traced_expr hi q) fun _ q _ => .bind (traced_bracedExpr hi q) fun _ q _ => ?_
    refine .bind (.expect (by decide) q) fun _ q _ => .bind (traced_bracedExpr hi q) fun _ q _ => ?_
    exact .bind .prevSpan fun _ q _ => .pure _ q

end

theorem traced_nested (n : Nat) (o : Opening) (p : Parser) : Traced (nested n o) p := by
  induction n generalizing o p
  case zero => exact .failTooDeep p
  case succ n hi => exact .deeper (traced_enclosed hi o _)

theorem traced_whole (p : Parser) : Traced whole p := by
  refine .bind .get fun _ q _ => .bind (traced_expr (traced_nested _) q) fun e q _ => ?_
  exact .check (.pure e q) (.failExpecting q)

end Parser
end ExprLang
