import ExprLang.Parser.Method
import ExprLang.Proofs.Parser.Refusal
import ExprLang.Proofs.Symbol.Growth
import ExprLang.Proofs.Token.Cover

/-!
What holds of a parser at all times, whichever methods are called in whichever order and whether they
come back or fail. Every step goes forward in the source and leaves the depth as it was, so that a level
is open only while what opened it is being parsed.
-/
namespace ExprLang

open Token

namespace Lexer

variable {l l' : Lexer} {t : Token}

theorem pos_le_next (l : Lexer) : l.pos ≤ l.next.snd.pos := by
  have hs (n : Nat) : l.pos ≤ (l.skipBlanks.skip n).pos := by
    refine Nat.le_trans l.pos_le_skipBlanks (Nat.le_min.mpr ⟨Nat.le_add_right _ _, ?_⟩)
    exact l.skipBlanks.pos_le
  simp only [next]
  split <;> exact hs _

-- A token stands behind all that was read before, and everything up to its end has been read.
theorem span_next (h : l.next = (.ok t, l')) : l.pos ≤ t.span.lo ∧ t.span.hi = l'.pos := by
  obtain ⟨-, rfl, rfl⟩ | ⟨k, n, -, rfl, rfl⟩ := next_cases h
  all_goals exact ⟨l.pos_le_skipBlanks, rfl⟩

end Lexer

namespace Parser

variable {α β : Type} {p q r : Parser} {n : Nat} {k : Kind} {what : String}

-- The token that was consumed last stands before the next one, and the lexer behind it.
structure InOrder (p : Parser) : Prop where
  prev_le : p.prev.span.hi ≤ p.token.span.lo
  token_le : p.token.span.hi ≤ p.lexer.pos

-- What can be said of a state `q` that a parser gets to from `p`.
structure Proceeds (p q : Parser) : Prop where
  depth : q.depth = p.depth
  maxDepth : q.maxDepth = p.maxDepth
  source : q.lexer.source = p.lexer.source
  pos_le : p.lexer.pos ≤ q.lexer.pos
  inOrder : p.InOrder → q.InOrder
  valid : p.interner.Valid → q.interner.Valid
  grows : p.interner.Valid → p.interner.Extends q.interner

namespace Proceeds

theorem refl (p : Parser) : Proceeds p p :=
  ⟨rfl, rfl, rfl, Nat.le_refl _, id, id, fun _ => .refl _⟩

theorem trans (h : Proceeds p q) (h' : Proceeds q r) : Proceeds p r where
  depth := h'.depth.trans h.depth
  maxDepth := h'.maxDepth.trans h.maxDepth
  source := h'.source.trans h.source
  pos_le := Nat.le_trans h.pos_le h'.pos_le
  inOrder hp := h'.inOrder (h.inOrder hp)
  valid hp := h'.valid (h.valid hp)
  grows hp := (h.grows hp).trans (h'.grows (h.valid hp))

-- Opening a level and closing it again.
theorem deepen (h : Proceeds { p with depth := p.depth + 1 } q) :
    Proceeds p { q with depth := q.depth - 1 } where
  depth := by rw [h.depth, Nat.add_sub_cancel]
  maxDepth := h.maxDepth
  source := h.source
  pos_le := h.pos_le
  inOrder hp := have ⟨h₁, h₂⟩ := h.inOrder ⟨hp.prev_le, hp.token_le⟩; ⟨h₁, h₂⟩
  valid := h.valid
  grows := h.grows

end Proceeds

-- From a state at the depth `n`, both parsers come back with the same or fail in the same way, and go
-- forward.
def Steady (n : Nat) (m m' : ParseM α) : Prop :=
  ∀ ⦃p⦄, p.depth = n → m'.run p = m.run p ∧ Proceeds p (m.run p).snd

namespace Steady

variable {m m' : ParseM α}

-- A parser that stays where it is.
theorem still (h : ∀ p, (m.run p).snd = p) : Steady n m m := by
  intro p _
  exact ⟨rfl, (h p).symm ▸ .refl p⟩

theorem of_runs (hy : ∀ ⦃p a q⦄, Yields m p a q → Proceeds p q)
    (hr : ∀ ⦃p f q⦄, Refuses m p f q → Proceeds p q) : Steady n m m := by
  intro p _
  refine ⟨rfl, ?_⟩
  cases h : m.run p with
  | mk x q =>
    cases x with
    | ok a => exact hy h
    | error f => exact hr h

theorem pure (a : α) : Steady n (pure a) (pure a) :=
  .still fun _ => rfl

theorem throw (f : Failure) : Steady (α := α) n (throw f) (throw f) :=
  .still fun _ => rfl

theorem get : Steady n get get :=
  .still fun _ => rfl

theorem bind {f f' : α → ParseM β} (h : Steady n m m') (hf : ∀ a, Steady n (f a) (f' a)) :
    Steady n (m >>= f) (m' >>= f') := by
  intro p hp
  have ⟨he, hm⟩ := h hp
  rw [run_bind, run_bind, he]
  cases hr : m.run p with
  | mk x q =>
    rw [hr] at hm
    cases x with
    | error => exact ⟨rfl, hm⟩
    | ok a =>
      have ⟨he, hq⟩ := hf a (hm.depth.trans hp)
      exact ⟨he, hm.trans hq⟩

theorem map {f : α → β} (h : Steady n m m') : Steady n (f <$> m) (f <$> m') := by
  rw [map_eq_pure_bind, map_eq_pure_bind]
  exact h.bind fun a => .pure (f a)

theorem ite {c : Prop} [Decidable c] {k k' : ParseM α} (h : Steady n m m') (h' : Steady n k k') :
    Steady n (if c then m else k) (if c then m' else k') := by
  split
  · exact h
  · exact h'

theorem prevSpan : Steady n prevSpan prevSpan :=
  .bind .get fun p => .pure p.prev.span

theorem peek : Steady n peek peek :=
  .bind .get fun p => .pure p.token.kind

theorem prevText : Steady n prevText prevText := by
  refine .bind .get fun p => ?_
  split
  · exact .pure _
  · exact .throw _

theorem fail (e : SyntaxError) : Steady (α := α) n (fail e) (fail e) :=
  .throw _

theorem failExpecting : Steady (α := α) n (failExpecting what) (failExpecting what) :=
  .bind .get fun _ => .fail _

theorem failTooDeep : Steady (α := α) n failTooDeep failTooDeep :=
  .bind .get fun _ => .throw _

theorem check : Steady n (check k) (check k) :=
  .bind .peek fun _ => .pure _

-- A token that is read comes behind all others. If there is none, only the lexer has moved.
theorem advance : Steady n advance advance := by
  refine .of_runs ?_ ?_
  · intro p _ q h
    obtain ⟨t, l, hn, rfl⟩ := moves_iff.mp h
    have hp := p.lexer.pos_le_next
    have ⟨hlo, hhi⟩ := Lexer.span_next hn
    rw [hn] at hp
    refine ⟨rfl, rfl, Lexer.source_next hn, hp, fun ho => ⟨?_, hhi.le⟩, id, fun _ => .refl _⟩
    exact Nat.le_trans ho.token_le hlo
  · intro p f q h
    obtain ⟨e, l, hn, rfl, rfl⟩ := refuses_advance.mp h
    have hp := p.lexer.pos_le_next
    have hs := p.lexer.source_next_snd
    rw [hn] at hp hs
    refine ⟨rfl, rfl, hs, hp, fun ho => ⟨ho.prev_le, ?_⟩, id, fun _ => .refl _⟩
    exact Nat.le_trans ho.token_le hp

theorem eat : Steady n (eat k) (eat k) :=
  .bind .check fun _ => .ite (.bind .advance fun _ => .pure _) (.pure _)

-- What follows both branches is in each of them.
theorem eat_bind {c c' : ParseM α} {f f' : α → ParseM β} (h : Steady n m m') (h' : Steady n c c')
    (hf : ∀ a, Steady n (f a) (f' a)) :
    Steady n (do if ← Parser.eat k then m >>= f else c >>= f)
      (do if ← Parser.eat k then m' >>= f' else c' >>= f') :=
  .bind .eat fun _ => .ite (h.bind hf) (h'.bind hf)

theorem expect : Steady n (expect k what) (expect k what) :=
  .bind .eat fun _ => .ite (.bind .get fun _ => .pure _) .failExpecting

theorem internPrev : Steady n internPrev internPrev := by
  refine .of_runs ?_ ?_
  · intro p s q h
    obtain ⟨t, i, -, hi, rfl⟩ := yields_internPrev.mp h
    have hi := (Interner.intern_eq_ok_iff.mp hi).right
    exact ⟨rfl, rfl, rfl, Nat.le_refl _, fun ho => ⟨ho.prev_le, ho.token_le⟩, fun hv => hv.insert hi,
      fun hv => hv.extends_insert hi⟩
  · intro p f q h
    exact (refuses_internPrev.mp h).left ▸ .refl p

theorem ident : Steady n ident ident :=
  .bind .expect fun _ => .internPrev

theorem number : Steady n number number := by
  refine .bind .prevSpan fun _ => .bind .prevText fun _ => ?_
  split
  · exact .throw _
  · exact .ite (.fail _) (.pure _)

theorem deeper (h : Steady (n + 1) m m') : Steady n (deeper m) (deeper m') := by
  intro p hp
  have ⟨he, hm⟩ := h (p := { p with depth := p.depth + 1 }) (congrArg (· + 1) hp)
  let close (x : Except Failure α × Parser) := (x.fst, { x.snd with depth := x.snd.depth - 1 })
  exact ⟨congrArg close he, hm.deepen⟩

-- A check that passes can be made or not.
theorem checked {check : ParseM Unit} (hc : ∀ p, p.depth = n → check.run p = (.ok (), p))
    (h : Steady n m m') : Steady n m (check >>= fun _ => m') := by
  intro p hp
  have ⟨he, hm⟩ := h hp
  rw [run_bind, hc p hp]
  exact ⟨he, hm⟩

end Steady

section

variable {op? : Kind → Option BinOp} {operand operand' : ParseM Program}

theorem steady_chain (h : Steady n operand operand') (k : Nat) (left : Program) :
    Steady n (chain op? operand k left) (chain op? operand' k left) := by
  induction k generalizing left
  case zero => exact .pure left
  case succ k ih =>
    refine .bind .peek fun kind => ?_
    split
    case h_1 => exact .pure left
    case h_2 op _ => exact .bind .advance fun _ => .bind h fun right => ih _

theorem steady_tier (h : Steady n operand operand') :
    Steady n (tier op? operand) (tier op? operand') :=
  .bind h fun left => .bind .get fun p => steady_chain h p.unread left

end

section

variable {inner inner' : Inner} (hi : ∀ o, Steady n (inner o) (inner' o))
include hi

theorem steady_primary : Steady n (primary inner) (primary inner') := by
  refine .bind .eat fun _ => .ite .number ?_
  refine .bind .eat fun _ => .ite (.bind .prevSpan fun _ => .pure _) ?_
  refine .bind .eat fun _ => .ite (.bind .prevSpan fun _ => .pure _) ?_
  refine .bind .eat fun _ => .ite (hi .paren) ?_
  exact .bind .eat fun _ => .ite (hi .brace) .failExpecting

theorem steady_unary : Steady n (unary inner) (unary inner') :=
  .bind .eat fun _ => .ite (hi .minus) (steady_primary hi)

theorem steady_multiplication : Steady n (multiplication inner) (multiplication inner') :=
  steady_tier (steady_unary hi)

theorem steady_addition : Steady n (addition inner) (addition inner') :=
  steady_tier (steady_multiplication hi)

theorem steady_comparison : Steady n (comparison inner) (comparison inner') :=
  steady_tier (steady_addition hi)

theorem steady_equality : Steady n (equality inner) (equality inner') :=
  steady_tier (steady_comparison hi)

theorem steady_expr : Steady n (expr inner) (expr inner') :=
  .bind .eat fun _ => .ite (hi .cond) (steady_equality hi)

theorem steady_bracedExpr : Steady n (bracedExpr inner) (bracedExpr inner') :=
  .bind .expect fun _ => .bind (steady_expr hi) fun _ => .bind .expect fun _ => .pure _

theorem steady_declaration : Steady n (declaration inner) (declaration inner') := by
  refine .bind .prevSpan fun lo => .bind .ident fun name => ?_
  refine .eat_bind Steady.ident.map (.pure _) fun type => ?_
  refine .eat_bind (steady_expr hi).map (.pure _) fun init => ?_
  exact .bind .expect fun _ => .bind .prevSpan fun _ => .pure _

theorem steady_assignment : Steady n (assignment inner) (assignment inner') := by
  refine .bind .prevSpan fun _ => .bind .internPrev fun _ => .bind .expect fun _ => ?_
  refine .bind (steady_expr hi) fun _ => .bind .expect fun _ => ?_
  exact .bind .prevSpan fun _ => .pure _

theorem steady_stmt : Steady n (stmt inner) (stmt inner') := by
  refine .bind .eat fun _ => .ite (steady_declaration hi) ?_
  refine .bind .eat fun _ => .ite (steady_assignment hi) ?_
  refine .bind .get fun _ => .ite (.fail _) ?_
  refine .bind (steady_expr hi) fun e => ?_
  refine .bind .eat fun _ => .ite (.bind .prevSpan fun _ => .pure _) ?_
  exact .bind .check fun _ => .ite (.pure _) .failExpecting

theorem steady_stmtsWithin (k : Nat) : Steady n (stmtsWithin inner k) (stmtsWithin inner' k) := by
  induction k
  case zero => exact .failExpecting
  case succ k ih =>
    refine .bind .eat fun _ => .ite (.pure _) ?_
    refine .bind .check fun _ => .ite .failExpecting ?_
    refine .bind (steady_stmt hi) fun s => ?_
    split
    case h_1 => exact .bind .expect fun _ => .pure _
    case h_2 => exact .bind ih fun _ => .pure _

theorem steady_stmts : Steady n (stmts inner) (stmts inner') :=
  .bind .get fun p => steady_stmtsWithin hi p.unread

theorem steady_enclosed (o : Opening) : Steady n (enclosed inner o) (enclosed inner' o) := by
  cases o
  all_goals refine .bind .prevSpan fun _ => ?_
  case minus => exact .bind (steady_primary hi) fun _ => .pure _
  case paren =>
    refine .bind (steady_expr hi) fun _ => .bind .expect fun _ => ?_
    exact .bind .prevSpan fun _ => .pure _
  case brace => exact .bind (steady_stmts hi) fun _ => .bind .prevSpan fun _ => .pure _
  case cond =>
    refine .bind (steady_expr hi) fun _ => .bind (steady_bracedExpr hi) fun _ => ?_
    refine .bind .expect fun _ => .bind (steady_bracedExpr hi) fun _ => ?_
    exact .bind .prevSpan fun _ => .pure _

theorem steady_entire : Steady n (entire inner) (entire inner') :=
  .bind (steady_expr hi) fun _ => .bind .check fun _ => .ite (.pure _) .failExpecting

theorem steady_method (m : Method) : Steady n (m.runWith inner) (m.runWith inner') := by
  cases m with
  | whole => exact (steady_entire hi).map
  | expr => exact (steady_expr hi).map
  | conditional => exact (hi .cond).map
  | bracedExpr => exact (steady_bracedExpr hi).map
  | equality => exact (steady_equality hi).map
  | comparison => exact (steady_comparison hi).map
  | addition => exact (steady_addition hi).map
  | multiplication => exact (steady_multiplication hi).map
  | unary => exact (steady_unary hi).map
  | primary => exact (steady_primary hi).map
  | number => exact Steady.number.map
  | stmts => exact (steady_stmts hi).map
  | stmt => exact (steady_stmt hi).map
  | declaration => exact (steady_declaration hi).map
  | assignment => exact (steady_assignment hi).map
  | ident => exact Steady.ident.map
  | eat k => exact Steady.eat.map
  | check k => exact Steady.check.map
  | expect k what => exact Steady.expect.map
  | unexpected what => exact .bind .get fun _ => .pure _
  | advance => exact .bind .advance fun _ => .pure _

end

-- The levels that an opening token may start, with a check made whenever one has been opened.
def nestedChecked (check : ParseM Unit) : (n : Nat) → Inner
  | 0, _ => failTooDeep
  | n + 1, o => deeper (check >>= fun _ => enclosed (nestedChecked check n) o)

-- A method that makes a check whenever it has opened a level.
def Method.runChecked (check : ParseM Unit) (m : Method) : ParseM Answer := do
  m.runWith (nestedChecked check (← get).levels)

-- Checks that pass up to the depth `d`.
def PassesUpTo (check : ParseM Unit) (d : Nat) : Prop :=
  ∀ p : Parser, p.depth ≤ d → check.run p = (.ok (), p)

-- With `n` levels open and `k` to go, no level beyond the depth `d` is opened. The induction is on the
-- levels to go.
theorem steady_nested {check : ParseM Unit} {d : Nat} (hc : PassesUpTo check d) (k : Nat)
    (h : n + k ≤ d) (o : Opening) : Steady n (nested k o) (nestedChecked check k o) := by
  induction k generalizing n o with
  | zero => exact .failTooDeep
  | succ k ih =>
    refine .deeper (.checked (fun p hp => hc p (by omega)) (steady_enclosed (fun o => ?_) o))
    exact ih (by omega) o

theorem run_eq (m : Method) (p : Parser) : m.run.run p = (m.runWith (nested p.levels)).run p :=
  run_bind ..

theorem runChecked_eq (check : ParseM Unit) (m : Method) (p : Parser) :
    (m.runChecked check).run p = (m.runWith (nestedChecked check p.levels)).run p :=
  run_bind ..

-- What one call of a method does.
theorem steady_run (m : Method) (hp : p.depth = 0) {check : ParseM Unit}
    (hc : PassesUpTo check p.maxDepth.toNat) :
    (m.runChecked check).run p = m.run.run p ∧ Proceeds p (p.step m) := by
  have hl : 0 + p.levels ≤ p.maxDepth.toNat := by simp [levels, hp]
  have ⟨he, hs⟩ := steady_method (steady_nested hc p.levels hl) m hp
  rw [runChecked_eq, step, run_eq]
  exact ⟨he, hs⟩

theorem proceeds_step (m : Method) (hp : p.depth = 0) : Proceeds p (p.step m) := by
  have hc : PassesUpTo (pure ()) p.maxDepth.toNat := fun _ _ => rfl
  exact (steady_run m hp hc).right

-- By induction on the calls, each of which leaves the depth at zero.
theorem proceeds_steps (ms : List Method) (hp : p.depth = 0) : Proceeds p (ms.foldl step p) := by
  induction ms generalizing p with
  | nil => exact .refl p
  | cons m ms ih =>
    have h := proceeds_step m hp
    exact h.trans (ih (h.depth.trans hp))

section

variable {src : Text} {i : Interner} {d : Int}

-- A parser starts in order.
theorem state_of_start (h : start src i d = .ok p) :
    p.depth = 0 ∧ p.maxDepth = d ∧ p.interner = i ∧ p.lexer.source = src.encode.toArray ∧
      p.InOrder := by
  simp only [start] at h
  cases hn : (Lexer.ofText src).next with
  | mk x l =>
    cases x with
    | error => simp [hn, Except.map] at h
    | ok token =>
      simp only [hn, Except.map, Except.ok.injEq] at h
      subst h
      have hs := Lexer.source_next hn
      exact ⟨rfl, rfl, rfl, hs, Nat.zero_le _, (Lexer.span_next hn).right.le⟩

-- Whatever has been called before and however it ended, one more call leaves the parser at the depth
-- zero and in order, with the lexer no further back than before, and opens no level beyond the limit on
-- the way. Where no token can be read, the tokens stay, and all texts keep their handles.
theorem calls_keep_order (hi : i.Reachable) (h : start src i d = .ok p) (ms : List Method)
    (m : Method) :
    let q := ms.foldl step p
    let r := q.step m
    (r.depth = 0 ∧
      ∀ check, PassesUpTo check d.toNat → (m.runChecked check).run q = m.run.run q) ∧
    (r.prev.span.hi ≤ r.token.span.lo ∧ r.token.span.lo ≤ r.token.span.hi ∧
      r.token.span.hi ≤ r.lexer.pos ∧ r.lexer.pos ≤ src.encode.length) ∧
    q.lexer.pos ≤ r.lexer.pos ∧
    (∀ s f s', Refuses advance s f s' → s'.prev = s.prev ∧ s'.token = s.token) ∧
    q.interner.Extends r.interner := by
  intro q r
  have ⟨hd, hm, hpi, hsource, ho⟩ := state_of_start h
  have hq : Proceeds p q := proceeds_steps ms hd
  have hq₀ : q.depth = 0 := hq.depth.trans hd
  have hr : Proceeds q r := proceeds_step m hq₀
  have hpr := hq.trans hr
  have ⟨hprev, htoken⟩ := hpr.inOrder ho
  have hpos : r.lexer.pos ≤ src.encode.length := by
    have hle := r.lexer.pos_le
    rwa [hpr.source, hsource, List.size_toArray] at hle
  refine ⟨⟨hr.depth.trans hq₀, fun check hc => ?_⟩, ⟨hprev, r.token.span.le, htoken, hpos⟩, hr.pos_le,
    fun s f s' hf => ?_, hr.grows (hq.valid (hpi ▸ hi.valid))⟩
  · rw [←hm, ←hq.maxDepth] at hc
    exact (steady_run m hq₀ hc).left
  · obtain ⟨_, _, _, _, rfl⟩ := refuses_advance.mp hf
    exact ⟨rfl, rfl⟩

end

-- A number before the first token, and then a stray byte in a group.
theorem calls_keep_order_stray :
    let src : Text := "(1$ x"
    ∃ p, start src .empty 1 = .ok p ∧
      let q := [Method.number].foldl step p
      let r := q.step .whole
      (r.prev.kind, r.token.kind, r.lexer.pos) = (.lparen, .number, 3) ∧
      (r.depth = 0 ∧ ∀ check, PassesUpTo check 1 →
        (Method.whole.runChecked check).run q = Method.whole.run.run q) ∧
      (r.prev.span.hi ≤ r.token.span.lo ∧ r.token.span.lo ≤ r.token.span.hi ∧
        r.token.span.hi ≤ r.lexer.pos ∧ r.lexer.pos ≤ src.encode.length) ∧
      q.lexer.pos ≤ r.lexer.pos ∧
      (∀ s f s', Refuses advance s f s' → s'.prev = s.prev ∧ s'.token = s.token) ∧
      q.interner.Extends r.interner := by
  intro src
  have hs : ∃ p, start "(1$ x" .empty 1 = .ok p ∧
      (let r := (p.step .number).step .whole; (r.prev.kind, r.token.kind, r.lexer.pos)) =
        (.lparen, .number, 3) := by
    cbv
    exact ⟨_, rfl, rfl⟩
  obtain ⟨p, hp, hk⟩ := hs
  exact ⟨p, hp, hk, calls_keep_order .empty hp [.number] .whole⟩

end Parser
end ExprLang
