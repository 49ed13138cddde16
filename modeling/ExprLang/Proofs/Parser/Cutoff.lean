import ExprLang.Proofs.Grammar.Levels
import ExprLang.Proofs.Parser.Respacing

/-!
The limit on the nesting cuts off and does nothing else. Two parsers go through a source with different
limits: the one with the other limit follows the first until it would have to open a level beyond its
limit, and stops at the token that opens this level.
-/
namespace ExprLang

open Token Grammar

namespace Parser

variable {α β : Type} {d : Int} {p q r : Parser} {ts us : List Token} {k : Kind} {what : String}

-- The same parser with another limit.
def under (d : Int) (p : Parser) : Parser :=
  { p with maxDepth := d }

-- The tokens stand one behind the other, from the one that was consumed last on.
def Lined (p : Parser) : Prop :=
  Ordered (p.prev :: p.tokens)

-- What is left of the tokens was there before.
theorem Takes.sublist (h : Takes p ts q) : (q.prev :: q.tokens).Sublist (p.prev :: p.tokens) := by
  rw [h.tokens, h.prev]
  cases List.eq_nil_or_concat ts with
  | inl hn =>
    subst hn
    exact List.Sublist.refl _
  | inr hc =>
    obtain ⟨us, t, rfl⟩ := hc
    rw [List.concat_eq_append, List.getLast?_concat, List.append_assoc]
    exact (List.sublist_append_right us _).cons _

theorem Takes.lined (h : Takes p ts q) (hp : p.Lined) : q.Lined :=
  hp.sublist h.sublist

-- The token that was consumed last does not stand before the one from before.
theorem Takes.prev_lo (h : Takes p ts q) (hp : p.Lined) : p.prev.span.lo ≤ q.prev.span.lo := by
  cases h.prev_cases with
  | inl he => rw [he]
  | inr hm =>
    have hq : q.prev ∈ p.tokens := h.tokens ▸ List.mem_append_left _ hm
    exact Nat.le_trans p.prev.span.le ((List.pairwise_cons.mp hp).left _ hq)

theorem Moves.under (h : Moves p q) (d : Int) : Moves (p.under d) (q.under d) := by
  obtain ⟨t, l, hn, rfl⟩ := moves_iff.mp h
  exact moves_iff.mpr ⟨t, l, hn, rfl⟩

-- How a parser under the limit `d` follows a run from `p` to `q` that came back with `a` and opened the
-- levels `cs` on its way.
inductive Keeps (d : Int) (m : ParseM α) (p : Parser) (a : α) (q : Parser) (cs : List Construct) :
    Prop
  | on (hc : ∀ c ∈ cs, c.level ≤ d.toNat) (hy : Yields m (p.under d) a (q.under d))
  | off {before after : List Construct} {c : Construct} {t : Token} {r : Parser}
      (hc : cs = before ++ c :: after) (hb : ∀ c ∈ before, c.level ≤ d.toNat)
      (hl : c.level = d.toNat + 1) (ho : c.StartsAt t) (ht : t ∈ p.prev :: p.tokens)
      (hr : Refuses m (p.under d) (.ofFault ⟨t.span, .tooDeep d⟩) r)

-- As long as `m` comes back, `m'` follows it under the limit `d`. Once it is through, all levels of what
-- came back, which `f` lists, have been opened, while those in `done` were open before.
def Cuts (d : Int) (f : α → List Construct) (done : List Construct) (m m' : ParseM α) (p : Parser) :
    Prop :=
  p.Lined → ∀ ⦃a q⦄, Yields m p a q →
    ∃ ts cs, Takes p ts q ∧ f a = done ++ cs ∧ Keeps d m' p a q cs

namespace Cuts

variable {f : α → List Construct} {g : β → List Construct} {done : List Construct}
  {m m' n n' : ParseM α}

theorem pure {a : α} (h : f a = done) : Cuts d f done (pure a) (pure a) p := by
  intro _ b q hy
  obtain ⟨rfl, rfl⟩ := yields_pure.mp hy
  exact ⟨[], [], .refl p, by simpa using h, .on nofun (yields_pure.mpr ⟨rfl, rfl⟩)⟩

-- A parser that does not come back.
theorem never (h : ∀ a q, ¬Yields m p a q) : Cuts d f done m m' p :=
  fun _ a q hy => absurd hy (h a q)

theorem failExpecting : Cuts d f done (failExpecting what) m' p :=
  .never fun _ _ => not_yields_failExpecting

-- A parser that opens no level and does not know the limit.
theorem plain (h : ∀ a q, Yields m p a q → ∃ ts, Takes p ts q ∧ Yields m (p.under d) a (q.under d)) :
    Cuts d (fun _ => []) [] m m p := by
  intro _ a q hy
  have ⟨ts, ht, hy⟩ := h a q hy
  exact ⟨ts, [], ht, rfl, .on nofun hy⟩

theorem bind {k k' : α → ParseM β} (h : Cuts d f [] m m' p)
    (hk : ∀ a q, Yields m p a q → Cuts d g (done ++ f a) (k a) (k' a) q) :
    Cuts d g done (m >>= k) (m' >>= k') p := by
  intro hp b r hy
  have ⟨a, q, hm, hy⟩ := yields_bind.mp hy
  have ⟨ts, cs, ht, hf, h⟩ := h hp hm
  have ⟨us, ds, hu, hg, h'⟩ := hk a q hm (ht.lined hp) hy
  rw [List.nil_append] at hf
  refine ⟨_, cs ++ ds, ht.trans hu, by rw [hg, hf, List.append_assoc], ?_⟩
  cases h with
  | @off before after c t _ hc hb hl ho hm hr =>
    have hc : cs ++ ds = before ++ c :: (after ++ ds) := by
      rw [hc, List.append_assoc, List.cons_append]
    exact .off hc hb hl ho hm (refuses_bind.mpr (.inl hr))
  | on hc hy =>
    cases h' with
    | on hd hy' => exact .on (List.forall_mem_append.mpr ⟨hc, hd⟩) (yields_bind.mpr ⟨a, _, hy, hy'⟩)
    | @off before after c t _ hd hb hl ho hm hr =>
      have hd : cs ++ ds = cs ++ before ++ c :: after := by rw [hd, ←List.append_assoc]
      have hr := refuses_bind.mpr (.inr ⟨a, _, hy, hr⟩)
      exact .off hd (List.forall_mem_append.mpr ⟨hc, hb⟩) hl ho (ht.sublist.subset hm) hr

-- A step that opens no level.
theorem step {k k' : α → ParseM β} (h : Cuts d (fun _ => []) [] m m' p)
    (hk : ∀ a q, Yields m p a q → Cuts d g done (k a) (k' a) q) :
    Cuts d g done (m >>= k) (m' >>= k') p :=
  h.bind fun a q hy => by simpa using hk a q hy

theorem map {k : α → β} (h : Cuts d f done m m' p) (hg : ∀ a, g (k a) = f a) :
    Cuts d g done (k <$> m) (k <$> m') p := by
  intro hp b q hy
  obtain ⟨a, hm, rfl⟩ := yields_map.mp hy
  have ⟨ts, cs, ht, hf, h⟩ := h hp hm
  refine ⟨ts, cs, ht, by rw [hg, hf], ?_⟩
  cases h with
  | on hc hy => exact .on hc (yields_map.mpr ⟨a, hy, rfl⟩)
  | off hc hb hl ho hm hr => exact .off hc hb hl ho hm (refuses_map.mpr hr)

-- Only the runs from these states count.
theorem congr (h : m.run p = n.run p) (h' : m'.run (p.under d) = n'.run (p.under d))
    (hn : Cuts d f done n n' p) : Cuts d f done m m' p := by
  intro hp a q hy
  have ⟨ts, cs, ht, hf, hc⟩ := hn hp (h.symm.trans hy)
  refine ⟨ts, cs, ht, hf, ?_⟩
  cases hc with
  | on hc hy => exact .on hc (h'.trans hy)
  | off hc hb hl ho hm hr => exact .off hc hb hl ho hm (h'.trans hr)

-- The limit is the only difference that can be seen in the state.
theorem get {k k' : Parser → ParseM α} (h : Cuts d f done (k p) (k' (p.under d)) p) :
    Cuts d f done (get >>= k) (get >>= k') p :=
  .congr (run_bind ..) (run_bind ..) h

theorem prevSpan : Cuts d (fun _ => []) [] prevSpan prevSpan p := by
  refine .plain fun s q hy => ?_
  obtain ⟨rfl, rfl⟩ := yields_prevSpan.mp hy
  exact ⟨[], .refl p, yields_prevSpan.mpr ⟨rfl, rfl⟩⟩

theorem advance (hk : p.token.kind ≠ .eof) : Cuts d (fun _ => []) [] advance advance p :=
  .plain fun _ _ hy => ⟨_, Moves.takes hy hk, Moves.under hy d⟩

theorem ite {c : Prop} [Decidable c] (h : Cuts d f done m m' p) (h' : Cuts d f done n n' p) :
    Cuts d f done (if c then m else n) (if c then m' else n') p := by
  split
  · exact h
  · exact h'

theorem check (h : Cuts d f done m m' p) (h' : Cuts d f done n n' p) :
    Cuts d f done (do if ← check k then m else n) (do if ← check k then m' else n') p := by
  by_cases hk : p.token.kind = k
  case pos => exact .congr (run_check_of_kind hk) (run_check_of_kind hk) h
  case neg => exact .congr (run_check_of_ne hk) (run_check_of_ne hk) h'

theorem eat (hk : k ≠ .eof) (h : ∀ q, q.prev.kind = k → Cuts d f done m m' q)
    (h' : Cuts d f done n n' p) :
    Cuts d f done (do if ← eat k then m else n) (do if ← eat k then m' else n') p := by
  by_cases he : p.token.kind = k
  case neg => exact .congr (run_eat_of_ne he) (run_eat_of_ne he) h'
  case pos =>
    refine .congr (run_eat_of_kind he) (run_eat_of_kind he) ?_
    refine .step (.advance (he ▸ hk)) fun _ q hm => h q ?_
    exact (Moves.takes hm (he ▸ hk)).prev ▸ he

-- What follows both branches is in each of them.
theorem eat_bind {k' k'' : α → ParseM β} (hk : k ≠ .eof) (h : ∀ q, q.prev.kind = k → Cuts d f [] m m' q)
    (h' : Cuts d f [] n n' p) (hg : ∀ a q, Cuts d g (done ++ f a) (k' a) (k'' a) q) :
    Cuts d g done (do if ← Parser.eat k then m >>= k' else n >>= k')
      (do if ← Parser.eat k then m' >>= k'' else n' >>= k'') p :=
  .eat hk (fun q hq => (h q hq).bind fun a r _ => hg a r) (h'.bind fun a r _ => hg a r)

theorem expect (hk : k ≠ .eof) : Cuts d (fun _ => []) [] (expect k what) (expect k what) p := by
  refine .eat hk (fun q _ => .get (.pure rfl)) .failExpecting

theorem prevText : Cuts d (fun _ => []) [] prevText prevText p := by
  refine .plain fun s q hy => ?_
  obtain ⟨hl, rfl⟩ := yields_prevText.mp hy
  exact ⟨[], .refl p, yields_prevText.mpr ⟨hl, rfl⟩⟩

theorem number {n : Nat} : Cuts d (Expr.constructs n) [] number number p := by
  refine .step .prevSpan fun _ q _ => .step .prevText fun _ q _ => ?_
  split
  case h_1 => exact .never fun _ _ => not_yields_throw
  case h_2 =>
    split
    case isTrue => exact .never fun _ _ => not_yields_fail
    case isFalse => exact .pure rfl

theorem internPrev : Cuts d (fun _ => []) [] internPrev internPrev p := by
  refine .plain fun s q hy => ?_
  obtain ⟨t, i, hl, hi, rfl⟩ := yields_internPrev.mp hy
  exact ⟨[], .of_eq rfl rfl rfl rfl, yields_internPrev.mpr ⟨t, i, hl, hi, rfl⟩⟩

theorem ident : Cuts d (fun _ => []) [] ident ident p :=
  .step (.expect (by decide)) fun _ _ _ => .internPrev

theorem deeper (h : Cuts d f done m m' { p with depth := p.depth + 1 }) :
    Cuts d f done (deeper m) (deeper m') p := by
  intro hp a r hy
  obtain ⟨q, hm, rfl⟩ := yields_deeper.mp hy
  have ⟨ts, cs, ht, hf, h⟩ := h hp hm
  refine ⟨ts, cs, ht.deepen, hf, ?_⟩
  cases h with
  | on hc hy => exact .on hc (yields_deeper.mpr ⟨_, hy, rfl⟩)
  | off hc hb hl ho hm hr => exact .off hc hb hl ho hm (refuses_deeper.mpr ⟨_, hr, rfl⟩)

end Cuts

section

variable {op? : Kind → Option BinOp} {operand operand' : ParseM Program} {n : Nat}

-- Operators behind a left operand, whose levels have been opened. The induction is on the bound of
-- their number.
theorem cuts_chain (ho : op? .eof = none)
    (h : ∀ p, Cuts d (Expr.constructs n) [] operand operand' p) (k : Nat) (left : Program)
    (p : Parser) :
    Cuts d (Expr.constructs n) (left.constructs n) (chain op? operand k left)
      (chain op? operand' k left) p := by
  induction k generalizing left p
  case zero => exact .pure rfl
  case succ k ih =>
    refine .step (.plain fun kind q hq => ?_) fun kind q hq => ?_
    · obtain ⟨rfl, rfl⟩ := yields_peek.mp hq
      exact ⟨[], .refl p, yields_peek.mpr ⟨rfl, rfl⟩⟩
    obtain ⟨rfl, rfl⟩ := yields_peek.mp hq
    split
    case h_1 => exact .pure rfl
    case h_2 op hop =>
      refine .step (.advance fun he => ?_) fun _ q _ => .bind (h q) fun right q _ => ih _ q
      rw [he, ho] at hop
      contradiction

theorem cuts_tier (ho : op? .eof = none)
    (h : ∀ p, Cuts d (Expr.constructs n) [] operand operand' p) (p : Parser) :
    Cuts d (Expr.constructs n) [] (tier op? operand) (tier op? operand') p :=
  .bind (h p) fun left q _ => .get (cuts_chain ho h q.unread left q)

end

-- The parsers for what follows an opening token, with `n` levels around it.
def Inner.Cuts (d : Int) (n : Nat) (inner inner' : Inner) : Prop :=
  ∀ o p, p.prev.kind = o.kind → Parser.Cuts d (Expr.constructs n) [] (inner o) (inner' o) p

section

variable {inner inner' : Inner} {n : Nat} (hi : inner.Cuts d n inner')
include hi

theorem cuts_primary (p : Parser) :
    Cuts d (Expr.constructs n) [] (primary inner) (primary inner') p := by
  refine .eat (by decide) (fun q _ => .number) ?_
  refine .eat (by decide) (fun q _ => .step .prevSpan fun _ _ _ => .pure rfl) ?_
  refine .eat (by decide) (fun q _ => .step .prevSpan fun _ _ _ => .pure rfl) ?_
  refine .eat (by decide) (fun q hq => hi .paren q hq) ?_
  exact .eat (by decide) (fun q hq => hi .brace q hq) .failExpecting

theorem cuts_unary (p : Parser) : Cuts d (Expr.constructs n) [] (unary inner) (unary inner') p :=
  .eat (by decide) (fun q hq => hi .minus q hq) (cuts_primary hi p)

theorem cuts_expr (p : Parser) : Cuts d (Expr.constructs n) [] (expr inner) (expr inner') p := by
  refine .eat (by decide) (fun q hq => hi .cond q hq) ?_
  refine cuts_tier rfl (fun p => ?_) p
  refine cuts_tier rfl (fun p => ?_) p
  refine cuts_tier rfl (fun p => ?_) p
  exact cuts_tier rfl (cuts_unary hi) p

theorem cuts_bracedExpr (p : Parser) :
    Cuts d (Expr.constructs n) [] (bracedExpr inner) (bracedExpr inner') p := by
  refine .step (.expect (by decide)) fun _ q _ => ?_
  refine .bind (cuts_expr hi q) fun e q _ => ?_
  exact .step (.expect (by decide)) fun _ q _ => .pure rfl

theorem cuts_declaration (p : Parser) :
    Cuts d (Stmt.constructs n) [] (declaration inner) (declaration inner') p := by
  refine .step .prevSpan fun _ q _ => .step .ident fun name q _ => ?_
  refine .eat_bind (f := fun _ => []) (by decide) (fun q _ => Cuts.ident.map fun _ => rfl) (.pure rfl)
    fun type q => ?_
  refine .eat_bind (f := initConstructs n) (by decide) (fun q _ => (cuts_expr hi q).map fun _ => rfl)
    (.pure rfl) fun init q => ?_
  refine .step (.expect (by decide)) fun _ q _ => ?_
  exact .step .prevSpan fun _ q _ => .pure rfl

theorem cuts_assignment (p : Parser) :
    Cuts d (Stmt.constructs n) [] (assignment inner) (assignment inner') p := by
  refine .step .prevSpan fun _ q _ => .step .internPrev fun name q _ => ?_
  refine .step (.expect (by decide)) fun _ q _ => .bind (cuts_expr hi q) fun e q _ => ?_
  refine .step (.expect (by decide)) fun _ q _ => ?_
  exact .step .prevSpan fun _ q _ => .pure rfl

theorem cuts_stmt (p : Parser) : Cuts d (Stmt.constructs n) [] (stmt inner) (stmt inner') p := by
  refine .eat (by decide) (fun q _ => cuts_declaration hi q) ?_
  refine .eat (by decide) (fun q _ => cuts_assignment hi q) ?_
  refine .get (.ite (.never fun _ _ => not_yields_fail) ?_)
  refine .bind (cuts_expr hi p) fun e q _ => ?_
  refine .eat (by decide) (fun q _ => .step .prevSpan fun _ _ _ => .pure rfl) ?_
  exact .check (.pure rfl) .failExpecting

theorem cuts_stmtsWithin (k : Nat) (p : Parser) :
    Cuts d (stmtsConstructs n) [] (stmtsWithin inner k) (stmtsWithin inner' k) p := by
  induction k generalizing p
  case zero => exact .failExpecting
  case succ k ih =>
    refine .eat (by decide) (fun q _ => .pure rfl) ?_
    refine .check .failExpecting ?_
    refine .bind (cuts_stmt hi p) fun s q _ => ?_
    split
    case h_1 => exact .step (.expect (by decide)) fun _ q _ => .pure (List.append_nil _)
    case h_2 => exact .bind (ih q) fun _ q _ => .pure rfl

end

-- All but the level that the opening token itself opens.
theorem cuts_enclosed {inner inner' : Inner} {n : Nat} (hi : inner.Cuts d (n + 1) inner')
    (o : Opening) (p : Parser) :
    Cuts d (fun e => (e.constructs n).tail) [] (enclosed inner o) (enclosed inner' o) p := by
  cases o
  all_goals refine .step .prevSpan fun _ q _ => ?_
  case minus => exact .bind (cuts_primary hi q) fun _ q _ => .pure rfl
  case paren =>
    refine .bind (cuts_expr hi q) fun _ q _ => .step (.expect (by decide)) fun _ q _ => ?_
    exact .step .prevSpan fun _ q _ => .pure rfl
  case brace =>
    refine .bind (.get (cuts_stmtsWithin hi q.unread q)) fun _ q _ => ?_
    exact .step .prevSpan fun _ q _ => .pure rfl
  case cond =>
    refine .bind (cuts_expr hi q) fun _ q _ => .bind (cuts_bracedExpr hi q) fun _ q _ => ?_
    refine .step (.expect (by decide)) fun _ q _ => .bind (cuts_bracedExpr hi q) fun _ q _ => ?_
    refine .step .prevSpan fun _ q _ => .pure ?_
    simp [Expr.constructs]

theorem span_of_yields_number {e : Program} (h : Yields number p e q) : e.span = p.prev.span := by
  simp only [number, yields_bind, yields_prevSpan, yields_prevText] at h
  obtain ⟨_, _, ⟨rfl, rfl⟩, _, _, ⟨-, rfl⟩, h⟩ := h
  split at h
  case h_1 => simp at h
  case h_2 =>
    split at h
    case isTrue => simp at h
    case isFalse => exact (yields_pure.mp h).left ▸ rfl

theorem Moves.prev_eq (h : Moves p q) : q.prev = p.token := by
  obtain ⟨_, _, -, rfl⟩ := moves_iff.mp h
  rfl

-- What an opening token starts opens a level of its own first, and starts where the token does.
structure Opened (e : Program) (o : Opening) (t : Token) : Prop where
  head (n : Nat) : (e.constructs n).head? = some ⟨o, e.span, n + 1⟩
  lo : e.span.lo = t.span.lo

def Inner.Opens (inner : Inner) : Prop :=
  ∀ ⦃o p e q⦄, Yields (inner o) p e q → p.Lined → Opened e o p.prev

section

variable {inner : Inner} {e : Program} {o : Opening} (hi : inner.Opens)
include hi

theorem lo_primary (h : Yields (primary inner) p e q) (hp : p.Lined) :
    e.span.lo = p.token.span.lo := by
  have literal (v : Literal Empty) (r : Parser) (hm : Moves p r)
      (h : Yields (do return .literal (← prevSpan) v) r e q) : e.span.lo = p.token.span.lo := by
    simp only [yields_bind, yields_prevSpan, yields_pure] at h
    obtain ⟨_, _, ⟨rfl, rfl⟩, rfl, rfl⟩ := h
    rw [Expr.span, hm.prev_eq]
  have inside (o : Opening) (r : Parser) (hk : p.token.kind ≠ .eof) (hm : Moves p r)
      (h : Yields (inner o) r e q) : e.span.lo = p.token.span.lo :=
    hm.prev_eq ▸ (hi h ((hm.takes hk).lined hp)).lo
  simp only [primary, yields_eat_ite] at h
  obtain ⟨hk, r, hm, h⟩ | ⟨-, ⟨hk, r, hm, h⟩ | ⟨-, ⟨hk, r, hm, h⟩ | ⟨-, ⟨hk, r, hm, h⟩ |
    ⟨-, ⟨hk, r, hm, h⟩ | ⟨-, h⟩⟩⟩⟩⟩ := h
  · rw [span_of_yields_number h, hm.prev_eq]
  · exact literal _ r hm h
  · exact literal _ r hm h
  · exact inside _ r (by simp [hk]) hm h
  · exact inside _ r (by simp [hk]) hm h
  · simp at h

theorem opened_enclosed (ht : ∀ o p, Traced (inner o) p) (h : Yields (enclosed inner o) p e q)
    (hp : p.Lined) : Opened e o p.prev := by
  have ⟨ts, hts⟩ := (traced_enclosed ht o p).yields h
  have hlo := hts.prev_lo hp
  cases o with
  | minus =>
    obtain ⟨e, he, rfl⟩ := yields_enclosed_minus.mp h
    have hlo := lo_primary hi he hp
    have := (List.pairwise_cons.mp hp).left p.token (.head _)
    have := p.prev.span.le
    exact ⟨fun _ => rfl, by simp [Expr.span]; omega⟩
  | paren =>
    obtain ⟨e, r, he, hk, hm, rfl⟩ := yields_enclosed_paren.mp h
    exact ⟨fun _ => rfl, Nat.min_eq_left hlo⟩
  | brace =>
    obtain ⟨ss, hs, rfl⟩ := yields_enclosed_brace.mp h
    exact ⟨fun _ => rfl, Nat.min_eq_left hlo⟩
  | cond =>
    obtain ⟨c, q₁, -, t, q₂, -, -, q₃, -, e, -, rfl⟩ := yields_enclosed_cond.mp h
    exact ⟨fun _ => rfl, Nat.min_eq_left hlo⟩

end

theorem opens_nested (n : Nat) : (nested n).Opens := by
  induction n with
  | zero =>
    intro o p e q h
    simp [nested] at h
  | succ n ih =>
    intro o p e q h hp
    obtain ⟨q, hy, rfl⟩ := yields_deeper.mp h
    have ho := opened_enclosed ih (traced_nested n) hy hp
    exact ho

-- With `k` levels open, the limit leaves the rest of its levels. The induction is on the levels of the
-- run that is followed.
theorem cuts_nested (n : Nat) {k : Nat} (hk : k ≤ d.toNat) :
    (nested n).Cuts d k (nested (d.toNat - k)) := by
  induction n generalizing k with
  | zero =>
    intro o p _
    exact .never fun _ _ => not_yields_failTooDeep
  | succ n ih =>
    intro o p ho hp e q hy
    have ⟨hhead, hlo⟩ := opens_nested (n + 1) hy hp
    have ⟨cs, hcs⟩ := List.head?_eq_some_iff.mp (hhead k)
    cases Nat.eq_or_lt_of_le hk with
    | inl he =>
      have ⟨ts, ht⟩ := (traced_nested (n + 1) o p).yields hy
      have hr : Refuses (nested (d.toNat - k) o) (p.under d)
          (.ofFault ⟨p.prev.span, .tooDeep d⟩) (p.under d) := by
        rw [he, Nat.sub_self]
        exact refuses_failTooDeep.mpr ⟨rfl, rfl⟩
      have hl : k + 1 = d.toNat + 1 := congrArg (· + 1) he
      rw [←List.nil_append (_ :: cs)] at hcs
      exact ⟨ts, _, ht, rfl, .off hcs nofun hl ⟨ho, hlo.symm⟩ (.head _) hr⟩
    | inr hlt =>
      have hd : d.toNat - k = d.toNat - (k + 1) + 1 := by omega
      have ⟨ts, ds, ht, hds, h⟩ := Cuts.deeper (cuts_enclosed (ih hlt) o _) hp hy
      rw [hd]
      refine ⟨ts, _, ht, rfl, ?_⟩
      simp only [hcs, List.tail_cons, List.nil_append] at hds
      subst hds
      rw [hcs]
      cases h with
      | on hc hy => exact .on (List.forall_mem_cons.mpr ⟨hlt, hc⟩) hy
      | @off before after c t _ hc hb hl ho hm hr =>
        have hb : ∀ c ∈ ⟨o, e.span, k + 1⟩ :: before, c.level ≤ d.toNat :=
          List.forall_mem_cons.mpr ⟨hlt, hb⟩
        exact .off (congrArg _ hc) hb hl ho hm hr

theorem cuts_whole (hl : (p.under d).levels = d.toNat) :
    Cuts d (Expr.constructs 0) [] whole whole p := by
  have hi : (nested p.levels).Cuts d 0 (nested (p.under d).levels) :=
    hl ▸ cuts_nested p.levels (Nat.zero_le _)
  refine .get (.bind (cuts_expr hi p) fun e q _ => ?_)
  exact .check (.pure rfl) .failExpecting

section

variable {src : Text} {i j : Interner} {D : Int}

theorem start_under (h : start src i D = .ok p) (d : Int) : start src i d = .ok (p.under d) := by
  simp only [start] at h ⊢
  cases hn : (Lexer.ofText src).next.fst with
  | error => simp [hn, Except.map] at h
  | ok token =>
    simp only [hn, Except.map, Except.ok.injEq] at h ⊢
    subst h
    rfl

-- A parser starts before all tokens, which are in order.
theorem lined_of_start {ts : List Token} (h : start src i D = .ok p) (ht : tokenize src = .ok ts) :
    p.Lined := by
  have ⟨htokens, _, hprev⟩ := start_takes h
  rw [Lined, hprev, htokens, (tokenize_eq_ok_iff.mp ht).right]
  exact .cons (fun _ _ => Nat.zero_le _) (Lexer.ordered_tokenize ht)

-- An opening token is one of the source.
theorem mem_tokens_of_start {t : Token} {o : Opening} (h : start src i D = .ok p)
    (hk : t.kind = o.kind) (ht : t ∈ p.prev :: p.tokens) : t ∈ (Lexer.ofText src).scan.tokens := by
  have ⟨htokens, _, hprev⟩ := start_takes h
  rw [hprev, htokens] at ht
  cases ht with
  | head => cases o <;> cases hk
  | tail _ ht => exact ht

end

end Parser

-- Every token takes a byte, so that the next one starts behind it.
theorem Places.starts_lt {pos : Nat} {bs r : Bytes} {ts : List Token} (h : Places pos bs ts r) :
    (ts.map (·.span.lo)).Pairwise (· < ·) := by
  induction h
  case done => exact .nil
  case token k blanks text bs pos ts r hb ha hk he h ih =>
    refine List.pairwise_cons.mpr ⟨fun n hn => ?_, ih⟩
    obtain ⟨t, ht, rfl⟩ := List.mem_map.mp hn
    have hlo := (h.within t ht).left
    have hpos : text ≠ [] := by
      rintro rfl
      have := Item.first_lexeme (Kind.lexeme_iff_allows.mpr ⟨ha, hk⟩)
      cases this
    have := List.length_pos_iff.mpr hpos
    simp only [Token.placed]
    omega

variable {src : Text} {i j : Interner} {e : Program} {D : Int}

-- What opens levels in a tree is listed in the order of the source.
theorem constructs_ordered (hi : i.Reachable) (h : parse src i D = (.ok e, j)) :
    (e.constructs 0).Pairwise fun c c' => c.span.lo < c'.span.lo := by
  have ⟨ts, u, r, _, hp, _, _, hl⟩ := Parser.located_of_parse hi.valid h
  exact List.pairwise_map.mp (hp.starts_lt.sublist (hl.starts 0 hp.ordered))

-- What comes first of all that is too deep stands before the rest of it.
theorem Construct.first_beyond {before after : List Construct} {c c' : Construct} {n : Nat}
    (ho : (before ++ c :: after).Pairwise fun c c' => c.span.lo < c'.span.lo)
    (hb : ∀ c ∈ before, c.level ≤ n) (hm : c' ∈ before ++ c :: after) (hl : n < c'.level) :
    c' = c ∨ c.span.lo < c'.span.lo := by
  obtain hm | hm := List.mem_append.mp hm
  · exact absurd (hb c' hm) (Nat.not_le_of_lt hl)
  · cases hm with
    | head => exact .inl rfl
    | tail _ hm =>
      have ⟨_, ho, _⟩ := List.pairwise_append.mp ho
      exact .inr ((List.pairwise_cons.mp ho).left c' hm)

end ExprLang
