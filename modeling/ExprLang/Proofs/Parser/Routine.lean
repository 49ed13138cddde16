import ExprLang.Proofs.Parser.Soundness
import ExprLang.Proofs.Parser.Trace

/-!
The methods of the parser as they call each other, with no bound on the number of calls. What a method
does is given by what the methods that it calls do, and these are called with fewer tokens left, or with as
many and from a place further down in the grammar. So there is one way only in which they all can act.
-/
namespace ExprLang.Parser

open Token Grammar

variable {α β : Type} {p q : Parser}

-- The methods that call each other. Each loop is a method of its own, which calls itself to go on: `chain`
-- after the operand `left`, and `block` after each statement. What an opening token starts is `opened`.
inductive Routine
  | whole
  | expr
  | opened (o : Opening)
  | bracedExpr
  | tier (t : Tier)
  | chain (t : Tier) (left : Program)
  | unary
  | primary
  | block
  | stmt
  | declaration
  | assignment

namespace Routine

abbrev Answer : Routine → Type
  | .block => List (Stmt Empty)
  | .stmt | .declaration | .assignment => Stmt Empty
  | .whole | .expr | .opened _ | .bracedExpr | .tier _ | .chain .. | .unary | .primary => Program

-- A way in which all methods act.
abbrev Acts :=
  (r : Routine) → ParseM r.Answer

section

variable (call : Acts)

def operand : Tier → ParseM Program
  | .equality => call (.tier .comparison)
  | .comparison => call (.tier .addition)
  | .addition => call (.tier .multiplication)
  | .multiplication => call .unary

-- What is read one level further in.
def enclosed : Opening → ParseM Program
  | .minus => do
    let lo ← prevSpan
    let e ← call .primary
    return .unary (lo.merge e.span) .neg e
  | .paren => do
    let lo ← prevSpan
    let e ← call .expr
    let _ ← expect .rparen "')'"
    return .grouping (lo.merge (← prevSpan)) e
  | .brace => do
    let lo ← prevSpan
    let ss ← call .block
    let span := lo.merge (← prevSpan)
    return .block span (.mk span ss)
  | .cond => do
    let lo ← prevSpan
    let test ← call .expr
    let yes ← call .bracedExpr
    let _ ← expect .kwElse "'else'"
    let no ← call .bracedExpr
    return .cond (lo.merge (← prevSpan)) test yes no

-- What a method does if `call` is what is done on each call of a method. The limit on the depth can be
-- left out.
def body (limited : Bool) : Acts
  | .whole => do
    let e ← call .expr
    if ← check .eof then return e
    else failExpecting "end of input"
  | .expr => do
    if ← eat .kwIf then call (.opened .cond)
    else call (.tier .equality)
  | .opened o => do
    let p ← get
    if limited ∧ p.maxDepth ≤ p.depth then failTooDeep
    else deeper (enclosed call o)
  | .bracedExpr => do
    let _ ← expect .lbrace "'\x7b'"
    let e ← call .expr
    let _ ← expect .rbrace "'\x7d'"
    return e
  | .tier t => do
    let left ← operand call t
    call (.chain t left)
  | .chain t left => do
    match t.op? (← peek) with
    | none => return left
    | some op =>
      advance
      let right ← operand call t
      call (.chain t (.binary (left.span.merge right.span) op left right))
  | .unary => do
    if ← eat .minus then call (.opened .minus)
    else call .primary
  | .primary => do
    if ← eat .number then number
    else if ← eat .kwTrue then return .literal (← prevSpan) (.bool true)
    else if ← eat .kwFalse then return .literal (← prevSpan) (.bool false)
    else if ← eat .lparen then call (.opened .paren)
    else if ← eat .lbrace then call (.opened .brace)
    else failExpecting "expression"
  | .block => do
    if ← eat .rbrace then return []
    else if ← check .eof then failExpecting "'\x7d'"
    else
      match ← call .stmt with
      | .result span e =>
        let _ ← expect .rbrace "'\x7d'"
        return [.result span e]
      | s => return s :: (← call .block)
  | .stmt => do
    if ← eat .kwLet then call .declaration
    else if ← eat .ident then call .assignment
    else
      let token := (← get).token
      if token.kind = .kwFn || token.kind = .kwReturn then
        fail ⟨token.span, .unimplemented token.kind⟩
      else
        let e ← call .expr
        if ← eat .semi then return .discard (e.span.merge (← prevSpan)) e
        else if ← check .rbrace then return .result e.span e
        else failExpecting "';' or '\x7d'"
  | .declaration => do
    let lo ← prevSpan
    let name ← ident
    let type ← if ← eat .colon then some <$> ident else pure none
    let init ← if ← eat .eq then some <$> call .expr else pure none
    let _ ← expect .semi "';'"
    return .declare (lo.merge (← prevSpan)) name type init
  | .assignment => do
    let lo ← prevSpan
    let name ← internPrev
    let _ ← expect .eq "'='"
    let value ← call .expr
    let _ ← expect .semi "';'"
    return .assign (lo.merge (← prevSpan)) name value

end

-- The place of a method in the grammar. From a place further up, methods are called before a token is
-- consumed.
def rank : Routine → Nat
  | .whole => 10
  | .opened _ => 9
  | .block => 8
  | .stmt => 7
  | .expr => 6
  | .tier t => 6 - t.level
  | .unary => 1
  | .primary | .chain .. | .bracedExpr | .declaration | .assignment => 0

theorem rank_le (r : Routine) : r.rank ≤ 10 := by
  cases r <;> simp [rank]
  omega

-- The number of tokens that a method takes at least if it comes back.
def least : Routine → Nat
  | .chain .. => 0
  | _ => 1

-- A call with fewer tokens left, or with as many and from further down.
def Before (s : Routine) (q : Parser) (r : Routine) (p : Parser) : Prop :=
  q.tokens.length < p.tokens.length ∨ q.tokens.length = p.tokens.length ∧ s.rank < r.rank

-- A bound on the number of calls that can be open one inside the other.
def height (r : Routine) (p : Parser) : Nat :=
  11 * p.tokens.length + r.rank + 1

theorem Before.height_lt {r s : Routine} (h : Before s q r p) : s.height q < r.height p := by
  have := s.rank_le
  have := r.rank_le
  rw [height, height]
  cases h with
  | inl h => omega
  | inr h => omega

end Routine

theorem Takes.length_add_le {ts : List Token} (h : Takes p ts q) :
    q.tokens.length + ts.length ≤ p.tokens.length := by
  rw [h.tokens, List.length_append, Nat.add_comm]

-- Two parsers do the same, and if they come back they have taken `k` tokens at least.
structure Same (k : Nat) (m m' : ParseM α) (p : Parser) : Prop where
  run : m.run p = m'.run p
  takes {a : α} {q : Parser} : Yields m p a q → q.tokens.length + k ≤ p.tokens.length

namespace Same

variable {k l : Nat} {m m' n n' : ParseM α} {kind : Kind} {what : String}

theorem of_yields {a : α} (h : Yields m p a q) (ht : q.tokens.length + k ≤ p.tokens.length) :
    Same k m m p where
  run := rfl
  takes h' := by
    cases h.symm.trans h'
    exact ht

theorem of_not_yields (h : ∀ a q, ¬Yields m p a q) : Same k m m p where
  run := rfl
  takes hy := absurd hy (h _ _)

theorem mono (h : Same k m m' p) (hl : l ≤ k) : Same l m m' p where
  run := h.run
  takes hy := by
    have := h.takes hy
    omega

theorem zero (h : Same k m m' p) : Same 0 m m' p :=
  h.mono (Nat.zero_le k)

theorem congr {c c' : ParseM α} (hm : c.run p = m.run p) (hm' : c'.run p = m'.run p)
    (h : Same k m m' p) : Same k c c' p where
  run := hm.trans (h.run.trans hm'.symm)
  takes hy := h.takes (hm.symm.trans hy)

theorem pure (a : α) : Same 0 (pure a) (pure a) p :=
  .of_yields (yields_pure.mpr ⟨rfl, rfl⟩) (Nat.le_refl _)

theorem bind {f f' : α → ParseM β} (h : Same k m m' p)
    (hf : ∀ a q, q.tokens.length + k ≤ p.tokens.length → Same l (f a) (f' a) q) :
    Same (k + l) (m >>= f) (m' >>= f') p where
  run := by
    rw [run_bind, run_bind, ←h.run]
    cases hm : m.run p with
    | mk x q =>
      cases x with
      | error => rfl
      | ok a => exact (hf a q (h.takes hm)).run
  takes hy := by
    have ⟨a, q, hm, hy⟩ := yields_bind.mp hy
    have hq := h.takes hm
    have := (hf a q hq).takes hy
    omega

-- Something that is read off the state.
theorem reading {a : α} {f f' : α → ParseM β} (hm : Yields m p a p) (h : Same k (f a) (f' a) p) :
    Same k (m >>= f) (m >>= f') p := by
  have run (f : α → ParseM β) : (m >>= f).run p = (f a).run p := by
    rw [run_bind, hm]
  exact h.congr (run f) (run f')

-- Nothing need be taken first.
theorem after {f f' : α → ParseM β} (h : Same 0 m m' p)
    (hf : ∀ a q, q.tokens.length ≤ p.tokens.length → Same k (f a) (f' a) q) :
    Same k (m >>= f) (m' >>= f') p :=
  Nat.zero_add k ▸ h.bind hf

-- Once a token is taken, no other need be taken.
theorem taking {f f' : α → ParseM β} (h : Same 1 m m' p)
    (hf : ∀ a q, q.tokens.length < p.tokens.length → Same 0 (f a) (f' a) q) :
    Same 1 (m >>= f) (m' >>= f') p :=
  h.bind hf

theorem map {f : α → β} (h : Same k m m' p) : Same k (f <$> m) (f <$> m') p := by
  rw [map_eq_pure_bind, map_eq_pure_bind]
  exact h.bind fun a _ _ => .pure (f a)

theorem get : Same 0 get get p :=
  .of_yields (yields_get.mpr ⟨rfl, rfl⟩) (Nat.le_refl _)

theorem prevSpan : Same 0 prevSpan prevSpan p :=
  .of_yields (yields_prevSpan.mpr ⟨rfl, rfl⟩) (Nat.le_refl _)

theorem fail (e : SyntaxError) : Same (α := α) k (fail e) (fail e) p :=
  .of_not_yields fun _ _ => not_yields_fail

theorem failExpecting : Same (α := α) k (failExpecting what) (failExpecting what) p :=
  .of_not_yields fun _ _ => not_yields_failExpecting

theorem failTooDeep : Same (α := α) k failTooDeep failTooDeep p :=
  .of_not_yields fun _ _ => not_yields_failTooDeep

theorem advance (hk : p.token.kind ≠ .eof) : Same 1 advance advance p where
  run := rfl
  takes hy := (Moves.takes hy hk).length_add_le

theorem number : Same 0 number number p where
  run := rfl
  takes hy := by rw [eq_of_yields_number hy]; rfl

theorem internPrev : Same 0 internPrev internPrev p where
  run := rfl
  takes hy := by
    obtain ⟨_, _, -, -, rfl⟩ := yields_internPrev.mp hy
    exact Nat.le_refl _

theorem ite {c : Prop} [Decidable c] (h : Same k m m' p) (h' : Same k n n' p) :
    Same k (if c then m else n) (if c then m' else n') p := by
  split
  · exact h
  · exact h'

theorem check (h : Same k m m' p) (h' : Same k n n' p) :
    Same k (do if ← check kind then m else n) (do if ← check kind then m' else n') p := by
  by_cases hk : p.token.kind = kind
  case pos => exact h.congr (run_check_of_kind hk) (run_check_of_kind hk)
  case neg => exact h'.congr (run_check_of_ne hk) (run_check_of_ne hk)

theorem eat (hk : kind ≠ .eof) (h : ∀ q, q.tokens.length < p.tokens.length → Same (k - 1) m m' q)
    (h' : Same k n n' p) :
    Same k (do if ← eat kind then m else n) (do if ← eat kind then m' else n') p := by
  by_cases he : p.token.kind = kind
  case neg => exact h'.congr (run_eat_of_ne he) (run_eat_of_ne he)
  case pos =>
    refine .congr (run_eat_of_kind he) (run_eat_of_kind he) (.mono (k := 1 + (k - 1)) ?_ (by omega))
    exact (advance (he ▸ hk)).bind fun _ q hq => h q hq

theorem eat_bind {f f' : α → ParseM β} (hk : kind ≠ .eof)
    (h : ∀ q, q.tokens.length < p.tokens.length → Same 0 m m' q) (h' : Same 0 n n' p)
    (hf : ∀ a q, q.tokens.length ≤ p.tokens.length → Same 0 (f a) (f' a) q) :
    Same 0 (do if ← Parser.eat kind then m >>= f else n >>= f)
      (do if ← Parser.eat kind then m' >>= f' else n' >>= f') p :=
  .eat hk (fun q hq => (h q hq).after fun a r hr => hf a r (hr.trans hq.le)) (h'.after hf)

theorem expect (hk : kind ≠ .eof) : Same 1 (expect kind what) (expect kind what) p :=
  .eat hk (fun _ _ => .after .get fun _ _ _ => .pure _) .failExpecting

theorem ident : Same 1 ident ident p :=
  .taking (.expect (by decide)) fun _ _ _ => .internPrev

theorem deeper (h : Same k m m' { p with depth := p.depth + 1 }) :
    Same k (deeper m) (deeper m') p where
  run := by
    let close (x : Except Failure α × Parser) := (x.fst, { x.snd with depth := x.snd.depth - 1 })
    exact congrArg close h.run
  takes hy := by
    obtain ⟨q, hq, rfl⟩ := yields_deeper.mp hy
    have ht := h.takes hq
    exact ht

end Same

namespace Routine

-- Two ways to act that come to the same in a call.
abbrev Agrees (call call' : Acts) (r : Routine) (p : Parser) : Prop :=
  Same r.least (call r) (call' r) p

section

variable {call call' : Acts} {r : Routine}

-- Two ways to act that come to the same in all calls that come before one.
abbrev AgreesBefore (call call' : Acts) (r : Routine) (p : Parser) : Prop :=
  ∀ s q, Before s q r p → Agrees call call' s q

theorem same_operand (t : Tier) (h : ∀ s, s.rank < (tier t).rank → Agrees call call' s p) :
    Same 1 (operand call t) (operand call' t) p := by
  cases t with
  | equality => exact h (.tier .comparison) (by decide)
  | comparison => exact h (.tier .addition) (by decide)
  | addition => exact h (.tier .multiplication) (by decide)
  | multiplication => exact h .unary (by decide)

theorem same_enclosed (o : Opening) (below : ∀ s, s.rank < (opened o).rank → Agrees call call' s p)
    (later : ∀ s q, q.tokens.length < p.tokens.length → Agrees call call' s q) :
    Same 1 (enclosed call o) (enclosed call' o) p := by
  cases o with
  | minus =>
    refine .reading (yields_prevSpan.mpr ⟨rfl, rfl⟩) ?_
    exact .taking (below .primary (by decide)) fun _ _ _ => .pure _
  | paren =>
    refine .reading (yields_prevSpan.mpr ⟨rfl, rfl⟩) ?_
    refine .taking (below .expr (by decide)) fun _ _ _ => ?_
    exact .after (Same.expect (by decide)).zero fun _ _ _ => .after .prevSpan fun _ _ _ => .pure _
  | brace =>
    refine .reading (yields_prevSpan.mpr ⟨rfl, rfl⟩) ?_
    exact .taking (below .block (by decide)) fun _ _ _ => .after .prevSpan fun _ _ _ => .pure _
  | cond =>
    refine .reading (yields_prevSpan.mpr ⟨rfl, rfl⟩) ?_
    refine .taking (below .expr (by decide)) fun _ q hq => ?_
    refine .after (later .bracedExpr q hq).zero fun _ q' hq' => ?_
    refine .after (Same.expect (by decide)).zero fun _ q'' hq'' => ?_
    refine .after (later .bracedExpr q'' (by omega)).zero fun _ _ _ => ?_
    exact .after .prevSpan fun _ _ _ => .pure _

-- All that a method calls comes before it.
theorem same_body (limited : Bool) (h : AgreesBefore call call' r p) :
    Agrees (body call limited) (body call' limited) r p := by
  -- A call after a token.
  have later (s : Routine) (q : Parser) (hq : q.tokens.length < p.tokens.length) :
      Agrees call call' s q := h s q (.inl hq)
  -- A call from further down.
  have below (s : Routine) (hs : s.rank < r.rank) : Agrees call call' s p := h s p (.inr ⟨rfl, hs⟩)
  cases r with
  | whole => exact .taking (below .expr (by decide)) fun e q _ => .check (.pure e) .failExpecting
  | expr =>
    refine .eat (by decide) (fun q hq => ?_) (below (.tier .equality) (by decide))
    exact (later (.opened .cond) q hq).zero
  | opened o =>
    refine .reading (yields_get.mpr ⟨rfl, rfl⟩) (.ite .failTooDeep (.deeper ?_))
    exact same_enclosed o (fun s hs => h s _ (.inr ⟨rfl, hs⟩)) fun s q hq => later s q hq
  | bracedExpr =>
    refine .taking (.expect (by decide)) fun _ q hq => .after (later .expr q hq).zero fun e q _ => ?_
    exact .after (Same.expect (by decide)).zero fun _ _ _ => .pure e
  | tier t => exact .taking (same_operand t below) fun left q hq => (later (.chain t left) q hq).zero
  | chain t left =>
    refine .reading (yields_peek.mpr ⟨rfl, rfl⟩) ?_
    split
    case h_1 => exact .pure left
    case h_2 op hop =>
      have hk : p.token.kind ≠ .eof := by
        intro hk
        rw [hk] at hop
        cases t <;> cases hop
      refine Same.zero (.taking (.advance hk) fun _ q hq => ?_)
      refine .after (same_operand t fun s _ => later s q hq).zero fun right q' hq' => ?_
      exact (later (.chain t _) q' (by omega)).zero
  | unary =>
    refine .eat (by decide) (fun q hq => ?_) (below .primary (by decide))
    exact (later (.opened .minus) q hq).zero
  | primary =>
    have literal (v : Literal Empty) (q : Parser) :
        Same 0 (do return .literal (← prevSpan) v : ParseM Program)
          (do return .literal (← prevSpan) v) q := .after .prevSpan fun _ _ _ => .pure _
    refine .eat (by decide) (fun q _ => .number) ?_
    refine .eat (by decide) (fun q _ => literal _ q) (.eat (by decide) (fun q _ => literal _ q) ?_)
    refine .eat (by decide) (fun q hq => (later (.opened .paren) q hq).zero) ?_
    exact .eat (by decide) (fun q hq => (later (.opened .brace) q hq).zero) .failExpecting
  | block =>
    refine .eat (by decide) (fun q _ => .pure _) (.check .failExpecting ?_)
    refine .taking (below .stmt (by decide)) fun s q hq => ?_
    split
    case h_1 => exact .after (Same.expect (by decide)).zero fun _ _ _ => .pure _
    case h_2 => exact .after (later .block q hq).zero fun _ _ _ => .pure _
  | stmt =>
    refine .eat (by decide) (fun q hq => (later .declaration q hq).zero) ?_
    refine .eat (by decide) (fun q hq => (later .assignment q hq).zero) ?_
    refine .reading (yields_get.mpr ⟨rfl, rfl⟩) (.ite (.fail _) ?_)
    refine .taking (below .expr (by decide)) fun e q _ => ?_
    refine .eat (by decide) (fun q _ => .after .prevSpan fun _ _ _ => .pure _) ?_
    exact .check (.pure _) .failExpecting
  | declaration =>
    refine .reading (yields_prevSpan.mpr ⟨rfl, rfl⟩) (.taking .ident fun name q hq => ?_)
    refine .eat_bind (by decide) (fun _ _ => Same.ident.map.zero) (.pure _) fun type q' hq' => ?_
    have hq' := hq'.trans_lt hq
    refine .eat_bind (by decide) (fun s hs => (later .expr s (hs.trans hq')).map.zero) (.pure _) ?_
    intro init q'' _
    refine .after (Same.expect (by decide)).zero fun _ _ _ => ?_
    exact .after .prevSpan fun _ _ _ => .pure _
  | assignment =>
    refine .after .prevSpan fun _ q hq => .after .internPrev fun name q' hq' => ?_
    refine .taking (.expect (by decide)) fun _ r hr => ?_
    refine .after (later .expr r (by omega)).zero fun _ _ _ => ?_
    refine .after (Same.expect (by decide)).zero fun _ _ _ => ?_
    exact .after .prevSpan fun _ _ _ => .pure _

end

end Routine

end ExprLang.Parser
