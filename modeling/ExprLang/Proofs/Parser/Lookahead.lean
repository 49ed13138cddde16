import ExprLang.Proofs.Parser.Viable

/-!
Parsers go by the kinds of tokens only. Two runs whose next tokens are of the same kinds up to some
point take the same way up to there, so where one of them stops at a token that cannot stand there, the
other does not get through either.
-/
namespace ExprLang

open Token

namespace Parser

variable {α α' β β' : Type} {p p' q q' r r' : Parser} {K : Nat}

-- The next tokens of two parsers are of the same kinds, down to the last `K` tokens of the first one
-- and including the first of these.
structure Agree (K : Nat) (p p' : Parser) : Prop where
  le : K ≤ p.tokens.length
  kinds : (p.tokens.map (·.kind)).take (p.tokens.length + 1 - K) <+: p'.tokens.map (·.kind)

theorem Takes.length_le {ts : List Token} (h : Takes p ts q) :
    q.tokens.length ≤ p.tokens.length := by
  rw [h.tokens, List.length_append]
  exact Nat.le_add_left _ _

namespace Agree

theorem of_takes {ts : List Token} (h : Takes p ts q)
    (hk : (ts ++ [q.token]).map (·.kind) <+: p'.tokens.map (·.kind)) :
    Agree q.tokens.length p p' where
  le := h.length_le
  kinds := by
    have ht : (ts ++ [q.token]).map (·.kind) <+: p.tokens.map (·.kind) := by
      have hq : [q.token] <+: q.tokens := ⟨_, rfl⟩
      rw [h.tokens]
      exact ((List.prefix_append_right_inj ts).mpr hq).map _
    have hl : p.tokens.length + 1 - q.tokens.length = ((ts ++ [q.token]).map (·.kind)).length := by
      simp only [h.tokens, List.length_append, List.length_map, List.length_singleton]
      omega
    rw [hl, ←List.prefix_iff_eq_take.mp ht]
    exact hk

theorem of_tokens (h : Agree K p p') (hq : q.tokens = p.tokens) (hq' : q'.tokens = p'.tokens) :
    Agree K q q' where
  le := hq ▸ h.le
  kinds := by
    rw [hq, hq']
    exact h.kinds

theorem cons {t t' : Token} (ht : p.tokens = t :: q.tokens) (ht' : p'.tokens = t' :: q'.tokens)
    (h : Agree K p p') (hq : K ≤ q.tokens.length) : Agree K q q' := by
  have hk := h.kinds
  rw [ht, ht', List.length_cons, Nat.succ_add, Nat.succ_sub (Nat.le_succ_of_le hq)] at hk
  exact ⟨hq, (List.cons_prefix_cons.mp hk).right⟩

theorem kind_eq (h : Agree K p p') : p.token.kind = p'.token.kind := by
  have hk := h.kinds
  have hl := h.le
  rw [Nat.succ_sub hl] at hk
  exact (List.cons_prefix_cons.mp hk).left

theorem moves (h : Agree K p p') (hm : Moves p q) (hm' : Moves p' q') (hk : p.token.kind ≠ .eof)
    (hq : K ≤ q.tokens.length) : Agree K q q' :=
  h.cons (hm.takes hk).tokens (hm'.takes (h.kind_eq ▸ hk)).tokens hq

end Agree

theorem Fails.eq_of_isMisplaced {e : SyntaxError} (h : Fails (.fault e) q r) (hm : e.isMisplaced) :
    r = q := by
  cases h
  case unexpected | unimplemented => rfl
  case tooLarge => contradiction
  case tooDeep hf => exact absurd hm (Failure.not_isMisplaced_of_tooDeep hf)
  case stray l hn =>
    have hr := refuses_advance.mpr ⟨e, l, hn, rfl, rfl⟩
    exact absurd hm (not_isMisplaced_of_refuses_advance hr)

-- Two runs that go the same way as long as the first one has at least `K` tokens left.
structure Alike (K : Nat) (R : α → α' → Prop) (m : ParseM α) (m' : ParseM α') (p p' : Parser) :
    Prop where
  yields {a : α} {a' : α'} {q q' : Parser} : Yields m p a q → Yields m' p' a' q' →
    K ≤ q.tokens.length → Agree K q q' ∧ R a a'
  refuses {e : SyntaxError} {a' : α'} {q q' : Parser} : Refuses m p (.fault e) q → e.isMisplaced →
    K ≤ q.tokens.length → ¬Yields m' p' a' q'

-- What two runs come back with may differ.
def Any (_ : α) (_ : α') : Prop :=
  True

namespace Traced

variable {m : ParseM α}

theorem length_le_of_yields {a : α} (h : Traced m p) (hy : Yields m p a q) :
    q.tokens.length ≤ p.tokens.length := by
  have ⟨_, ht⟩ := h.yields hy
  exact ht.length_le

theorem length_le_of_refuses {e : SyntaxError} (h : Traced m p) (hr : Refuses m p (.fault e) q)
    (hm : e.isMisplaced) : q.tokens.length ≤ p.tokens.length := by
  have ⟨_, _, ht, hf⟩ := h.refuses hr
  rw [hf.eq_of_isMisplaced hm]
  exact ht.length_le

end Traced

namespace Alike

variable {R : α → α' → Prop} {S : β → β' → Prop} {m n : ParseM α} {m' n' : ParseM α'} {k : Kind}
  {what : String}

theorem of_not_yields (h : ∀ a' q', ¬Yields m' p' a' q') : Alike K R m m' p p' where
  yields _ hy' := absurd hy' (h _ _)
  refuses _ _ _ := h _ _

theorem of_yields {a : α} {a' : α'} (hy : Yields m p a q) (hy' : Yields m' p' a' q')
    (ha : Agree K q q') (hr : R a a') : Alike K R m m' p p' where
  yields h h' _ := by
    cases hy.symm.trans h
    cases hy'.symm.trans h'
    exact ⟨ha, hr⟩
  refuses h := absurd h (not_refuses_of_yields hy)

theorem pure {a : α} {a' : α'} (ha : Agree K p p') (hr : R a a') :
    Alike K R (pure a) (pure a') p p' :=
  .of_yields (yields_pure.mpr ⟨rfl, rfl⟩) (yields_pure.mpr ⟨rfl, rfl⟩) ha hr

theorem bind {g : α → ParseM β} {g' : α' → ParseM β'} (h : Alike K R m m' p p')
    (ht : ∀ a q, Yields m p a q → Traced (g a) q)
    (hg : ∀ a a' q q', Yields m p a q → Yields m' p' a' q' → Agree K q q' → R a a' →
      Alike K S (g a) (g' a') q q') : Alike K S (m >>= g) (m' >>= g') p p' where
  yields hy hy' hr := by
    have ⟨a, q, hm, hy⟩ := yields_bind.mp hy
    have ⟨a', q', hm', hy'⟩ := yields_bind.mp hy'
    have hq := Nat.le_trans hr ((ht a q hm).length_le_of_yields hy)
    have ⟨ha, hR⟩ := h.yields hm hm' hq
    exact (hg a a' q q' hm hm' ha hR).yields hy hy' hr
  refuses {e b' r r'} hr he hle hy' := by
    have ⟨a', q', hm', hy'⟩ := yields_bind.mp hy'
    cases refuses_bind.mp hr
    case inl hr => exact h.refuses hr he hle hm'
    case inr hr =>
      have ⟨a, q, hm, hr⟩ := hr
      have hq := Nat.le_trans hle ((ht a q hm).length_le_of_refuses hr he)
      have ⟨ha, hR⟩ := h.yields hm hm' hq
      exact (hg a a' q q' hm hm' ha hR).refuses hr he hle hy'

theorem map {f : α → β} {f' : α' → β'} (h : Alike K R m m' p p')
    (hf : ∀ a a', R a a' → S (f a) (f' a')) : Alike K S (f <$> m) (f' <$> m') p p' where
  yields hy hy' hq := by
    have ⟨a, hm, he⟩ := yields_map.mp hy
    have ⟨a', hm', he'⟩ := yields_map.mp hy'
    have ⟨ha, hR⟩ := h.yields hm hm' hq
    exact ⟨ha, he ▸ he' ▸ hf a a' hR⟩
  refuses hr he hq hy' := by
    have ⟨a', hm', _⟩ := yields_map.mp hy'
    exact h.refuses (refuses_map.mp hr) he hq hm'

theorem advance (ha : Agree K p p') (hk : p.token.kind ≠ .eof) :
    Alike K Any advance advance p p' where
  yields hm hm' hq := ⟨ha.moves hm hm' hk hq, trivial⟩
  refuses hr he := absurd he (not_isMisplaced_of_refuses_advance hr)

theorem congr {l m : ParseM α} {l' n : ParseM α'} (hm : l.run p = m.run p)
    (hn : l'.run p' = n.run p') (h : Alike K R m n p p') : Alike K R l l' p p' where
  yields hy hy' := h.yields (hm.symm.trans hy) (hn.symm.trans hy')
  refuses hr he hq hy' := h.refuses (hm.symm.trans hr) he hq (hn.symm.trans hy')

-- Which branch is taken depends on the kind of the next token only.
theorem check (ha : Agree K p p') (h : p.token.kind = k → Alike K R m m' p p')
    (h' : p.token.kind ≠ k → Alike K R n n' p p') :
    Alike K R (do if ← check k then m else n) (do if ← check k then m' else n') p p' := by
  by_cases he : p.token.kind = k
  case pos => exact (h he).congr (run_check_of_kind he) (run_check_of_kind (ha.kind_eq ▸ he))
  case neg => exact (h' he).congr (run_check_of_ne he) (run_check_of_ne (ha.kind_eq ▸ he))

theorem eat (hk : k ≠ .eof) (ha : Agree K p p') (ht : ∀ q, q.prev.kind = k → Traced m q)
    (h : ∀ q q', q.prev.kind = k → Agree K q q' → Alike K R m m' q q') (h' : Alike K R n n' p p') :
    Alike K R (do if ← eat k then m else n) (do if ← eat k then m' else n') p p' := by
  by_cases he : p.token.kind = k
  case neg => exact h'.congr (run_eat_of_ne he) (run_eat_of_ne (ha.kind_eq ▸ he))
  case pos =>
    refine .congr (run_eat_of_kind he) (run_eat_of_kind (ha.kind_eq ▸ he)) ?_
    have prev {q : Parser} (hm : Moves p q) : q.prev.kind = k := (hm.takes (he ▸ hk)).prev ▸ he
    refine .bind (.advance ha (he ▸ hk)) (fun _ q hm => ht q (prev hm)) ?_
    exact fun _ _ q q' hm _ hq _ => h q q' (prev hm) hq

theorem get (ha : Agree K p p') : Alike K Any get get p p' :=
  .of_yields (yields_get.mpr ⟨rfl, rfl⟩) (yields_get.mpr ⟨rfl, rfl⟩) ha trivial

theorem prevSpan (ha : Agree K p p') : Alike K Any prevSpan prevSpan p p' :=
  .of_yields (yields_prevSpan.mpr ⟨rfl, rfl⟩) (yields_prevSpan.mpr ⟨rfl, rfl⟩) ha trivial

theorem failExpecting : Alike K R m (failExpecting what) p p' :=
  .of_not_yields fun _ _ => not_yields_failExpecting

theorem expect (hk : k ≠ .eof) (ha : Agree K p p') :
    Alike K Any (expect k what) (expect k what) p p' := by
  refine .eat hk ha (fun q _ => ?_) (fun q q' _ hq => ?_) .failExpecting
  · exact .bind .get fun _ q _ => .pure _ q
  · exact .bind (.get hq) (fun _ q _ => .pure _ q) fun _ _ _ _ _ _ hq _ => .pure hq trivial

theorem number (ha : Agree K p p') : Alike K Any number number p p' where
  yields hy hy' _ := ⟨eq_of_yields_number hy ▸ eq_of_yields_number hy' ▸ ha, trivial⟩
  refuses hr he := by
    obtain ⟨-, ⟨g, -, hf⟩ | ⟨t, g, -, -, hf⟩ | ⟨t, v, -, -, -, hf⟩⟩ := refuses_number.mp hr
    all_goals cases hf
    contradiction

theorem internPrev (ha : Agree K p p') : Alike K Any internPrev internPrev p p' where
  yields hy hy' _ := by
    obtain ⟨_, _, -, -, rfl⟩ := yields_internPrev.mp hy
    obtain ⟨_, _, -, -, rfl⟩ := yields_internPrev.mp hy'
    exact ⟨ha.of_tokens rfl rfl, trivial⟩
  refuses hr := by
    obtain ⟨-, ⟨g, -, hf⟩ | ⟨t, g, -, -, hf⟩⟩ := refuses_internPrev.mp hr
    all_goals cases hf

theorem ident (ha : Agree K p p') : Alike K Any ident ident p p' := by
  refine .bind (.expect (by decide) ha) (fun t q h => .internPrev ?_) fun _ _ q q' _ _ hq _ =>
    .internPrev hq
  have ⟨hk, hm, _⟩ := yields_expect.mp h
  exact (hm.takes (by simp [hk])).prev ▸ hk

theorem deeper (h : Alike K R m m' { p with depth := p.depth + 1 } { p' with depth := p'.depth + 1 }) :
    Alike K R (deeper m) (deeper m') p p' where
  yields hy hy' hq := by
    obtain ⟨q, hm, rfl⟩ := yields_deeper.mp hy
    obtain ⟨q', hm', rfl⟩ := yields_deeper.mp hy'
    have ⟨ha, hR⟩ := h.yields hm hm' hq
    exact ⟨ha.of_tokens rfl rfl, hR⟩
  refuses hr he hq hy' := by
    obtain ⟨q, hm, rfl⟩ := refuses_deeper.mp hr
    obtain ⟨q', hm', rfl⟩ := yields_deeper.mp hy'
    exact h.refuses hm he hq hm'

end Alike

section

variable {op? : Kind → Option BinOp} {operand operand' : ParseM Program} {left left' : Program}

theorem run_chain_of_some {op : BinOp} (h : op? p.token.kind = some op) (n : Nat) :
    (chain op? operand (n + 1) left).run p = (do
      advance
      let right ← operand
      chain op? operand n (.binary (left.span.merge right.span) op left right)).run p := by
  have hp : peek.run p = (.ok p.token.kind, p) := rfl
  rw [chain, run_bind]
  simp only [hp, h]

theorem kind_eq_eof_of_unread (h : p.unread ≤ 0) : p.token.kind = .eof := by
  by_contra he
  simp [unread, he] at h

-- The numbers of operators that are left to read may differ, as long as both are enough.
theorem alike_chain (ho : op? .eof = none)
    (h : ∀ q q', Agree K q q' → Alike K Any operand operand' q q') (ht : ∀ q, Traced operand q)
    (ht' : ∀ q, Traced operand' q) {n n' : Nat} (ha : Agree K p p') (hn : p.unread ≤ n)
    (hn' : p'.unread ≤ n') :
    Alike K Any (chain op? operand n left) (chain op? operand' n' left') p p' := by
  induction n generalizing n' left left' p p'
  all_goals cases hop : op? p.token.kind
  case zero.none | succ.none =>
    have hop' : op? p'.token.kind = none := ha.kind_eq ▸ hop
    exact .of_yields (yields_chain_of_none hop _) (yields_chain_of_none hop' _) ha trivial
  case zero.some => simp [kind_eq_eof_of_unread hn, ho] at hop
  case succ.some n ih op =>
    have hop' : op? p'.token.kind = some op := ha.kind_eq ▸ hop
    cases n'
    case zero => simp [kind_eq_eof_of_unread hn', ho] at hop'
    case succ n' =>
      have he : p.token.kind ≠ .eof := by
        intro he
        simp [he, ho] at hop
      refine .congr (run_chain_of_some hop n) (run_chain_of_some hop' n') ?_
      refine .bind (.advance ha he) (fun _ q _ => ?_) fun _ _ q q' hm hm' hq _ => ?_
      · exact .bind (ht q) fun right r _ => traced_chain ho ht n _ r
      refine .bind (h q q' hq) (fun right r _ => traced_chain ho ht n _ r) ?_
      intro right right' r r' hy hy' hr _
      have ⟨_, hts⟩ := (ht q).yields hy
      have ⟨_, hts'⟩ := (ht' q').yields hy'
      have hu := (Moves.takes hm he).unread
      have hu' := (Moves.takes hm' (ha.kind_eq ▸ he)).unread
      simp only [List.length_singleton] at hu hu'
      refine ih hr ?_ ?_
      · have := hts.unread
        omega
      · have := hts'.unread
        omega

end

-- Two parsers that go the same way wherever their next tokens are of the same kinds.
structure Follows (K : Nat) (R : α → α → Prop) (m m' : ParseM α) : Prop where
  left : ∀ p, Traced m p
  right : ∀ p, Traced m' p
  alike : ∀ p p', Agree K p p' → Alike K R m m' p p'

namespace Follows

variable {R : α → α → Prop} {S : β → β → Prop} {m m' n n' : ParseM α} {k : Kind} {what : String}

theorem pure {a a' : α} (hr : R a a') : Follows K R (pure a) (pure a') where
  left := .pure a
  right := .pure a'
  alike _ _ ha := .pure ha hr

theorem failExpecting (what : String) : Follows (α := α) K R (failExpecting what) (failExpecting what) where
  left := .failExpecting
  right := .failExpecting
  alike _ _ _ := .failExpecting

theorem bind {g g' : α → ParseM β} (h : Follows K R m m')
    (hg : ∀ a a', R a a' → Follows K S (g a) (g' a')) (hr : ∀ a, R a a := by exact fun _ => trivial) :
    Follows K S (m >>= g) (m' >>= g') where
  left p := (h.left p).bind fun a q _ => (hg a a (hr a)).left q
  right p := (h.right p).bind fun a q _ => (hg a a (hr a)).right q
  alike p p' ha := (h.alike p p' ha).bind (fun a q _ => (hg a a (hr a)).left q)
    fun a a' q q' _ _ hq hR => (hg a a' hR).alike q q' hq

theorem map {f f' : α → β} (h : Follows K R m m') (hf : ∀ a a', R a a' → S (f a) (f' a')) :
    Follows K S (f <$> m) (f' <$> m') where
  left p := (h.left p).map
  right p := (h.right p).map
  alike p p' ha := (h.alike p p' ha).map hf

theorem eat (hk : k ≠ .eof) (h : Follows K R m m') (h' : Follows K R n n') :
    Follows K R (do if ← eat k then m else n) (do if ← eat k then m' else n') where
  left p := .eat hk (fun q _ => h.left q) (h'.left p)
  right p := .eat hk (fun q _ => h.right q) (h'.right p)
  alike p p' ha := .eat hk ha (fun q _ => h.left q) (fun q q' _ => h.alike q q') (h'.alike p p' ha)

theorem eat_bind {g g' : α → ParseM β} (hk : k ≠ .eof) (h : Follows K R m m') (h' : Follows K R n n')
    (hg : ∀ a a', R a a' → Follows K S (g a) (g' a')) (hr : ∀ a, R a a := by exact fun _ => trivial) :
    Follows K S (do if ← Parser.eat k then m >>= g else n >>= g)
      (do if ← Parser.eat k then m' >>= g' else n' >>= g') :=
  .eat hk (h.bind hg hr) (h'.bind hg hr)

theorem check (h : Follows K R m m') (h' : Follows K R n n') :
    Follows K R (do if ← check k then m else n) (do if ← check k then m' else n') where
  left p := .check (h.left p) (h'.left p)
  right p := .check (h.right p) (h'.right p)
  alike p p' ha := .check ha (fun _ => h.alike p p' ha) fun _ => h'.alike p p' ha

theorem expect (hk : k ≠ .eof) : Follows K Any (expect k what) (expect k what) where
  left := .expect hk
  right := .expect hk
  alike _ _ := .expect hk

theorem prevSpan : Follows K Any prevSpan prevSpan where
  left _ := .prevSpan
  right _ := .prevSpan
  alike _ _ := .prevSpan

theorem ident : Follows K Any ident ident where
  left := .ident
  right := .ident
  alike _ _ := .ident

theorem deeper (h : Follows K R m m') : Follows K R (deeper m) (deeper m') where
  left _ := .deeper (h.left _)
  right _ := .deeper (h.right _)
  alike _ _ ha := .deeper (h.alike _ _ (ha.of_tokens rfl rfl))

theorem tier {op? : Kind → Option BinOp} {operand operand' : ParseM Program} (ho : op? .eof = none)
    (h : Follows K Any operand operand') : Follows K Any (tier op? operand) (tier op? operand') where
  left := traced_tier ho h.left
  right := traced_tier ho h.right
  alike p p' ha := by
    refine .bind (h.alike p p' ha) (fun left q _ => ?_) fun left left' q q' _ _ hq _ => ?_
    · exact .bind .get fun _ r _ => traced_chain ho h.left _ left r
    refine .bind (.get hq) (fun _ r _ => traced_chain ho h.left _ left r) fun _ _ r r' hr hr' hq _ => ?_
    obtain ⟨rfl, rfl⟩ := yields_get.mp hr
    obtain ⟨rfl, rfl⟩ := yields_get.mp hr'
    exact alike_chain ho h.alike h.left h.right hq (Nat.le_refl _) (Nat.le_refl _)

end Follows

-- Statements that are both the result of a block or both not.
def SameRole (s s' : Stmt Empty) : Prop :=
  (∃ span e, s = .result span e) ↔ ∃ span e, s' = .result span e

section

variable {inner inner' : Inner} (hi : ∀ o, Follows K Any (inner o) (inner' o))
include hi

theorem follows_primary : Follows K Any (primary inner) (primary inner') := by
  have literal (v : Literal Empty) : Follows K Any (do return .literal (← prevSpan) v : ParseM Program)
      (do return .literal (← prevSpan) v : ParseM Program) :=
    .bind .prevSpan fun _ _ _ => .pure trivial
  have others := Follows.eat (k := .kwTrue) (by decide) (literal (.bool true)) <|
    .eat (k := .kwFalse) (by decide) (literal (.bool false)) <|
    .eat (k := .lparen) (by decide) (hi .paren) <|
    .eat (k := .lbrace) (by decide) (hi .brace) (.failExpecting "expression")
  constructor
  case left => exact fun p => .eat (by decide) (fun q hq => .number hq) (others.left p)
  case right => exact fun p => .eat (by decide) (fun q hq => .number hq) (others.right p)
  case alike =>
    intro p p' ha
    refine .eat (by decide) ha (fun q hq => .number hq) (fun q q' _ hq => .number hq) ?_
    exact others.alike p p' ha

theorem follows_unary : Follows K Any (unary inner) (unary inner') :=
  .eat (by decide) (hi .minus) (follows_primary hi)

theorem follows_expr : Follows K Any (expr inner) (expr inner') := by
  refine .eat (by decide) (hi .cond) ?_
  exact .tier rfl (.tier rfl (.tier rfl (.tier rfl (follows_unary hi))))

theorem follows_bracedExpr : Follows K Any (bracedExpr inner) (bracedExpr inner') := by
  refine .bind (.expect (by decide)) fun _ _ _ => .bind (follows_expr hi) fun _ _ _ => ?_
  exact .bind (.expect (by decide)) fun _ _ _ => .pure trivial

theorem follows_declaration : Follows K SameRole (declaration inner) (declaration inner') := by
  refine .bind .prevSpan fun _ _ _ => .bind .ident fun _ _ _ => ?_
  refine .eat_bind (R := Any) (by decide) (.map .ident fun _ _ _ => trivial) (.pure trivial) fun _ _ _ => ?_
  refine .eat_bind (R := Any) (by decide) (.map (follows_expr hi) fun _ _ _ => trivial) (.pure trivial)
    fun _ _ _ => ?_
  refine .bind (.expect (by decide)) fun _ _ _ => .bind .prevSpan fun _ _ _ => .pure ?_
  simp [SameRole]

theorem alike_assignment (hk : p.prev.kind = .ident) (ha : Agree K p p') :
    Alike K SameRole (assignment inner) (assignment inner') p p' := by
  have rest (lo lo' : Span) (x x' : Symbol) : Follows K SameRole
      (do
        let _ ← expect .eq "'='"
        let value ← expr inner
        let _ ← expect .semi "';'"
        return .assign (lo.merge (← prevSpan)) x value)
      (do
        let _ ← expect .eq "'='"
        let value ← expr inner'
        let _ ← expect .semi "';'"
        return .assign (lo'.merge (← prevSpan)) x' value) := by
    refine .bind (.expect (by decide)) fun _ _ _ => .bind (follows_expr hi) fun _ _ _ => ?_
    refine .bind (.expect (by decide)) fun _ _ _ => .bind .prevSpan fun _ _ _ => .pure ?_
    simp [SameRole]
  refine .bind (.prevSpan ha) (fun lo q hq => ?_) fun lo lo' q q' _ _ hq _ => ?_
  · obtain ⟨-, rfl⟩ := yields_prevSpan.mp hq
    exact .bind (.internPrev hk) fun x r _ => (rest lo lo x x).left r
  refine .bind (.internPrev hq) (fun x r _ => (rest lo lo x x).left r) fun x x' r r' _ _ hr _ => ?_
  exact (rest lo lo' x x').alike r r' hr

theorem follows_stmt : Follows K SameRole (stmt inner) (stmt inner') where
  left := traced_stmt fun o => (hi o).left
  right := traced_stmt fun o => (hi o).right
  alike p p' ha := by
    have declaration := follows_declaration hi
    refine .eat (by decide) ha (fun q _ => declaration.left q) (fun q q' _ => declaration.alike q q') ?_
    refine .eat (by decide) ha (fun q hq => traced_assignment (fun o => (hi o).left) hq)
      (fun q q' hk hq => alike_assignment hi hk hq) ?_
    -- The next token is looked at once more, for a keyword that is not implemented.
    refine .congr (m := if p.token.kind = .kwFn || p.token.kind = .kwReturn then _ else _)
      (n := if p'.token.kind = .kwFn || p'.token.kind = .kwReturn then _ else _) rfl rfl ?_
    rw [←ha.kind_eq]
    split
    case isTrue => exact .of_not_yields fun _ _ => not_yields_fail
    case isFalse =>
      refine Follows.alike ?_ p p' ha
      refine .bind (follows_expr hi) fun _ _ _ => ?_
      refine .eat (by decide) (.bind .prevSpan fun _ _ _ => .pure ?_) (.check (.pure ?_) (.failExpecting _))
      · simp [SameRole]
      · simp [SameRole]

end

section

variable {inner : Inner}

-- No statements end without a closing brace.
theorem not_yields_stmtsWithin {n : Nat} {ss : List (Stmt Empty)} (hk : p.token.kind = .eof) :
    ¬Yields (stmtsWithin inner n) p ss q := by
  cases n
  case zero => exact not_yields_failExpecting
  case succ => simp [yields_stmtsWithin, hk]

-- A statement other than a result takes a token off for sure.
theorem unread_lt_of_yields_stmt {s : Stmt Empty} (hi : ∀ o p, Traced (inner o) p)
    (hs : ∀ span e, s ≠ .result span e) (h : Yields (stmt inner) p s r) : r.unread < p.unread := by
  have moves {p q : Parser} {k : Kind} (hm : Moves p q) (hk : p.token.kind = k) (hne : k ≠ .eof) :
      q.unread < p.unread :=
    (hm.takes (hk ▸ hne)).unread
  obtain ⟨hk, q, hm, h⟩ | ⟨hk, q, hm, h⟩ | ⟨-, e, q, he, h⟩ := yields_stmt.mp h
  · have ⟨_, ht⟩ := (traced_declaration hi q).yields h
    have := moves hm hk (by decide)
    have := ht.unread
    omega
  · have ⟨_, ht⟩ := (traced_assignment hi ((hm.takes (by simp [hk])).prev ▸ hk)).yields h
    have := moves hm hk (by decide)
    have := ht.unread
    omega
  · have ⟨_, ht⟩ := (traced_expr hi p).yields he
    obtain ⟨hk, hm, -⟩ | ⟨-, rfl, -⟩ := h
    · have := moves hm hk (by decide)
      have := ht.unread
      omega
    · exact absurd rfl (hs _ _)

end

section

variable {inner inner' : Inner} (hi : ∀ o, Follows K Any (inner o) (inner' o))
include hi

-- As for operators, the bounds on the number of statements may differ.
theorem alike_stmtsWithin {n n' : Nat} (ha : Agree K p p') (hn : p.unread ≤ n)
    (hn' : p'.unread ≤ n') : Alike K Any (stmtsWithin inner n) (stmtsWithin inner' n') p p' := by
  have traced := fun o => (hi o).left
  have traced' := fun o => (hi o).right
  induction n generalizing n' p p'
  case zero =>
    have hk : p'.token.kind = .eof := ha.kind_eq ▸ kind_eq_eof_of_unread hn
    exact .of_not_yields fun _ _ => not_yields_stmtsWithin hk
  case succ n ih =>
    cases n'
    case zero => exact .of_not_yields fun _ _ => not_yields_stmtsWithin (kind_eq_eof_of_unread hn')
    case succ n' =>
      refine .eat (by decide) ha (fun q _ => .pure [] q) (fun q q' _ hq => .pure hq trivial) ?_
      refine .check ha (fun _ => .failExpecting) fun _ => ?_
      refine .bind ((follows_stmt hi).alike p p' ha) (fun s q hs => ?_) fun s s' q q' hs hs' hq hr => ?_
      · split
        case h_1 => exact .bind (.expect (by decide) q) fun _ q _ => .pure _ q
        case h_2 => exact .bind (traced_stmtsWithin traced n q) fun _ q _ => .pure _ q
      split
      case h_1 =>
        have ⟨_, _, hs'⟩ := hr.mp ⟨_, _, rfl⟩
        subst hs'
        refine .bind (.expect (by decide) hq) (fun _ q _ => .pure _ q) ?_
        exact fun _ _ _ _ _ _ hq _ => .pure hq trivial
      case h_2 hne =>
        have hne' (span : Span) (e : Program) : s' ≠ .result span e := by
          intro he
          have ⟨_, _, hs⟩ := hr.mpr ⟨span, e, he⟩
          exact hne _ _ hs
        split
        case h_1 => exact absurd rfl (hne' _ _)
        case h_2 =>
          have := unread_lt_of_yields_stmt traced hne hs
          have := unread_lt_of_yields_stmt traced' hne' hs'
          refine .bind (ih hq (by omega) (by omega)) (fun _ q _ => .pure _ q) ?_
          exact fun _ _ _ _ _ _ hq _ => .pure hq trivial

theorem follows_stmts : Follows K Any (stmts inner) (stmts inner') where
  left _ := .bind .get fun _ q _ => traced_stmtsWithin (fun o => (hi o).left) _ q
  right _ := .bind .get fun _ q _ => traced_stmtsWithin (fun o => (hi o).right) _ q
  alike p p' ha := by
    refine .bind (.get ha) (fun _ q _ => traced_stmtsWithin (fun o => (hi o).left) _ q) ?_
    intro _ _ q q' hq hq' ha _
    obtain ⟨rfl, rfl⟩ := yields_get.mp hq
    obtain ⟨rfl, rfl⟩ := yields_get.mp hq'
    exact alike_stmtsWithin hi ha (Nat.le_refl _) (Nat.le_refl _)

theorem follows_enclosed (o : Opening) : Follows K Any (enclosed inner o) (enclosed inner' o) := by
  cases o
  all_goals refine .bind .prevSpan fun _ _ _ => ?_
  case minus => exact .bind (follows_primary hi) fun _ _ _ => .pure trivial
  case paren =>
    refine .bind (follows_expr hi) fun _ _ _ => .bind (.expect (by decide)) fun _ _ _ => ?_
    exact .bind .prevSpan fun _ _ _ => .pure trivial
  case brace =>
    exact .bind (follows_stmts hi) fun _ _ _ => .bind .prevSpan fun _ _ _ => .pure trivial
  case cond =>
    refine .bind (follows_expr hi) fun _ _ _ => .bind (follows_bracedExpr hi) fun _ _ _ => ?_
    refine .bind (.expect (by decide)) fun _ _ _ => .bind (follows_bracedExpr hi) fun _ _ _ => ?_
    exact .bind .prevSpan fun _ _ _ => .pure trivial

end

-- Fewer levels only make a parser stop for that reason.
theorem follows_nested {n n' : Nat} (hn : n ≤ n') (o : Opening) :
    Follows K Any (nested n o) (nested n' o) := by
  induction n generalizing n' o
  case zero =>
    refine ⟨traced_nested 0 o, traced_nested n' o, fun p p' _ => ⟨?_, ?_⟩⟩
    · exact fun hy => absurd hy not_yields_failTooDeep
    · intro e a' q q' hr hm
      exact absurd hm (Failure.not_isMisplaced_of_tooDeep (refuses_failTooDeep.mp hr).left)
  case succ n ih =>
    cases n'
    case zero => contradiction
    case succ n' => exact .deeper (follows_enclosed (ih (Nat.le_of_succ_le_succ hn)) o)

-- Where a parser stops at a token that cannot stand there, none that has found the same kinds of
-- tokens so far gets through.
theorem not_yields_whole {e : SyntaxError} {e' : Program} (ha : Agree K p p')
    (hl : p.levels ≤ p'.levels) (h : Refuses whole p (.fault e) q) (hm : e.isMisplaced)
    (hq : K ≤ q.tokens.length) : ¬Yields whole p' e' q' := by
  have goOn (e e' : Program) : Follows K Any
      (do if ← check .eof then return e else failExpecting "end of input")
      (do if ← check .eof then return e' else failExpecting "end of input") :=
    .check (.pure trivial) (.failExpecting _)
  have follows := Follows.bind (follows_expr (follows_nested hl)) fun e e' _ => goOn e e'
  have alike := (follows.alike p p' ha).congr (run_whole p) (run_whole p')
  exact alike.refuses h hm hq

end Parser
end ExprLang
