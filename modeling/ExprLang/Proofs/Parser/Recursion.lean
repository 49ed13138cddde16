import ExprLang.Proofs.Parser.Abreast
import ExprLang.Proofs.Parser.Routine
import ExprLang.Proofs.Parser.Steady

/-!
The methods of the parser end in every state, with or without the limit on the depth. There is one way only
in which they all can act, it is come to with a bounded number of calls one inside the other, and with the
limit it is the way of the parser.
-/
namespace ExprLang.Parser

open Token Grammar

variable {α β : Type} {p q : Parser}

namespace Routine

variable {limited : Bool} {call call' out out' : Acts}

-- There are no two ways to act.
theorem agrees_of_eq_body (h : ∀ r, call r = body call limited r)
    (h' : ∀ r, call' r = body call' limited r) (r : Routine) (p : Parser) : Agrees call call' r p := by
  induction hn : r.height p using Nat.strongRecOn generalizing r p with
  | ind n ih =>
    subst hn
    rw [Agrees, h r, h' r]
    exact same_body limited fun s q hb => ih _ hb.height_lt s q rfl

-- What comes of it if at most `n` calls are open one inside the other, and `out` is what is done instead of
-- any further one.
def within (limited : Bool) (out : Acts) : Nat → Acts
  | 0 => out
  | n + 1 => body (within limited out n) limited

-- With as many calls as the height no further one is made.
theorem within_agrees (r : Routine) (p : Parser) {n n' : Nat} (hn : r.height p ≤ n)
    (hn' : r.height p ≤ n') : Agrees (within limited out n) (within limited out' n') r p := by
  induction n generalizing r p n' with
  | zero => exact absurd hn (Nat.not_succ_le_zero _)
  | succ n ih =>
    cases n' with
    | zero => exact absurd hn' (Nat.not_succ_le_zero _)
    | succ n' =>
      refine same_body limited fun s q hb => ih s q ?_ ?_
      · exact Nat.le_of_lt_succ (hb.height_lt.trans_le hn)
      · exact Nat.le_of_lt_succ (hb.height_lt.trans_le hn')

-- The way in which the methods act.
def acts (limited : Bool) : Acts :=
  fun r p => (within limited (fun _ => failTooDeep) (r.height p) r).run p

theorem acts_agrees (r : Routine) (p : Parser) {n : Nat} (hn : r.height p ≤ n) :
    Agrees (acts limited) (within limited out n) r p := by
  have h : Agrees (within limited (fun _ => failTooDeep) (r.height p)) (within limited out n) r p :=
    within_agrees r p (Nat.le_refl _) hn
  exact ⟨h.run, h.takes⟩

theorem acts_eq_body (limited : Bool) (r : Routine) :
    acts limited r = body (acts limited) limited r := by
  funext p
  have h : AgreesBefore (acts limited) (within limited (fun _ => failTooDeep) (r.height p - 1)) r p :=
    fun s q hb => acts_agrees s q (Nat.le_of_lt_succ hb.height_lt)
  exact (same_body limited h).run.symm

theorem eq_acts_of_eq_body (h : ∀ r, call r = body call limited r) : call = acts limited := by
  funext r p
  exact (agrees_of_eq_body h (acts_eq_body limited) r p).run

end Routine

section

variable {op? : Kind → Option BinOp} {operand : ParseM Program}

theorem run_bind_congr {m : ParseM α} {f g : α → ParseM β}
    (h : ∀ a q, Yields m p a q → (f a).run q = (g a).run q) : (m >>= f).run p = (m >>= g).run p := by
  rw [run_bind, run_bind]
  cases hm : m.run p with
  | mk x q =>
    cases x with
    | error => rfl
    | ok a => exact h a q hm

-- One round of the loop of a chain, with `rest` for what follows it.
def chainRound (op? : Kind → Option BinOp) (operand : ParseM Program) (rest : Program → ParseM Program)
    (left : Program) : ParseM Program := do
  match op? (← peek) with
  | none => return left
  | some op =>
    advance
    let right ← operand
    rest (.binary (left.span.merge right.span) op left right)

-- A round takes a token before the next one.
theorem run_chainRound_congr (ho : op? .eof = none) (ht : ∀ q, Traced operand q)
    {rest rest' : Program → ParseM Program} (left : Program)
    (h : ∀ left q, q.unread < p.unread → (rest left).run q = (rest' left).run q) :
    (chainRound op? operand rest left).run p = (chainRound op? operand rest' left).run p := by
  refine run_bind_congr fun kind q hq => ?_
  obtain ⟨rfl, rfl⟩ := yields_peek.mp hq
  cases hop : op? p.token.kind with
  | none => rfl
  | some op =>
    have he : p.token.kind ≠ .eof := by
      intro he
      simp [he, ho] at hop
    refine run_bind_congr fun _ q hm => run_bind_congr fun right r hr => h _ r ?_
    have hu := (Moves.takes hm he).unread
    have ⟨_, hts⟩ := (ht q).yields hr
    have := hts.unread
    rw [List.length_singleton] at hu
    omega

-- Whatever the bound on a chain is, it does not matter if it is not below the number of tokens left.
theorem run_chain_eq (ho : op? .eof = none) (ht : ∀ q, Traced operand q) {n n' : Nat} (left : Program)
    (hn : p.unread ≤ n) (hn' : p.unread ≤ n') :
    (chain op? operand n left).run p = (chain op? operand n' left).run p := by
  have ended {n n' : Nat} {left : Program} {q : Parser} (hq : q.unread ≤ 0) :
      (chain op? operand n left).run q = (chain op? operand n' left).run q := by
    have hop : op? q.token.kind = none := kind_eq_eof_of_unread hq ▸ ho
    exact (yields_chain_of_none hop _).trans (yields_chain_of_none hop _).symm
  induction n generalizing n' left p with
  | zero => exact ended hn
  | succ n ih =>
    cases n' with
    | zero => exact ended hn'
    | succ n' =>
      refine run_chainRound_congr ho ht left fun left q hq => ih left ?_ ?_
      all_goals omega

-- A chain of as many operators as there may be.
def fullChain (op? : Kind → Option BinOp) (operand : ParseM Program) (left : Program) :
    ParseM Program := do
  chain op? operand (← get).unread left

-- It goes from round to round.
theorem fullChain_eq (ho : op? .eof = none) (ht : ∀ q, Traced operand q) (left : Program) :
    fullChain op? operand left = chainRound op? operand (fullChain op? operand) left := by
  funext p
  have hp : (chain op? operand p.unread left).run p = (chain op? operand (p.unread + 1) left).run p :=
    run_chain_eq ho ht left (Nat.le_refl _) (Nat.le_succ _)
  exact hp.trans $ run_chainRound_congr ho ht left fun left q hq =>
    run_chain_eq ho ht left (Nat.le_of_lt hq) (Nat.le_refl _)

section

variable {inner : Inner} (hi : ∀ o p, Traced (inner o) p)

-- One round of the loop of a block, with `rest` for what follows it.
def blockRound (inner : Inner) (rest : ParseM (List (Stmt Empty))) : ParseM (List (Stmt Empty)) := do
  if ← eat .rbrace then return []
  else if ← check .eof then failExpecting "'\x7d'"
  else
    match ← stmt inner with
    | .result span e =>
      let _ ← expect .rbrace "'\x7d'"
      return [.result span e]
    | s => return s :: (← rest)

include hi

-- A round takes a token before the next one.
theorem run_blockRound_congr {rest rest' : ParseM (List (Stmt Empty))}
    (h : ∀ q, q.unread < p.unread → rest.run q = rest'.run q) :
    (blockRound inner rest).run p = (blockRound inner rest').run p := by
  by_cases hk : p.token.kind = .rbrace
  case pos => rw [blockRound, blockRound, run_eat_of_kind hk, run_eat_of_kind hk]
  case neg =>
    rw [blockRound, blockRound, run_eat_of_ne hk, run_eat_of_ne hk]
    by_cases hk : p.token.kind = .eof
    case pos => rw [run_check_of_kind hk, run_check_of_kind hk]
    case neg =>
      rw [run_check_of_ne hk, run_check_of_ne hk]
      refine run_bind_congr fun s q hs => ?_
      split
      case h_1 => rfl
      case h_2 hne => rw [run_bind, run_bind, h q (unread_lt_of_yields_stmt hi hne hs)]

-- The same for the bound on a block.
theorem run_stmtsWithin_eq {n n' : Nat} (hn : p.unread ≤ n) (hn' : p.unread ≤ n') :
    (stmtsWithin inner n).run p = (stmtsWithin inner n').run p := by
  induction n generalizing n' p with
  | zero =>
    have hk := kind_eq_eof_of_unread hn
    rw [run_stmtsWithin_of_eof _ hk, run_stmtsWithin_of_eof _ hk]
  | succ n ih =>
    cases n' with
    | zero =>
      have hk := kind_eq_eof_of_unread hn'
      rw [run_stmtsWithin_of_eof _ hk, run_stmtsWithin_of_eof _ hk]
    | succ n' => exact run_blockRound_congr hi fun q hq => ih (by omega) (by omega)

-- It goes from round to round.
theorem stmts_eq : stmts inner = blockRound inner (stmts inner) := by
  funext p
  have hp : (stmtsWithin inner p.unread).run p = (stmtsWithin inner (p.unread + 1)).run p :=
    run_stmtsWithin_eq hi (Nat.le_refl _) (Nat.le_succ _)
  exact hp.trans $ run_blockRound_congr hi fun q hq =>
    run_stmtsWithin_eq hi (Nat.le_of_lt_succ (Nat.lt_succ_of_lt hq)) (Nat.le_refl _)

end
end

-- In states in which `n` levels may still be opened, two parsers do the same, and they leave the depth as it
-- was.
def OnLevels (n : Nat) (m m' : ParseM α) : Prop :=
  ∀ p, p.levels = n → m.run p = m'.run p ∧
    ∀ a q, Yields m p a q → q.depth = p.depth ∧ q.maxDepth = p.maxDepth

namespace OnLevels

variable {n : Nat} {m m' k k' : ParseM α} {kind : Kind} {what : String}

theorem of_steady (h : ∀ n, Steady n m m) : OnLevels n m m := by
  intro p _
  refine ⟨rfl, fun a q hy => ?_⟩
  have hs := (h p.depth rfl).right
  rw [hy] at hs
  exact ⟨hs.depth, hs.maxDepth⟩

theorem bind {f f' : α → ParseM β} (h : OnLevels n m m') (hf : ∀ a, OnLevels n (f a) (f' a)) :
    OnLevels n (m >>= f) (m' >>= f') := by
  intro p hp
  obtain ⟨he, hm⟩ := h p hp
  have hq {a : α} {q : Parser} (hy : Yields m p a q) : q.levels = n := by
    obtain ⟨hd, hx⟩ := hm a q hy
    rw [←hp, levels, levels, hd, hx]
  constructor
  · rw [run_bind, run_bind, ←he]
    cases hy : m.run p with
    | mk x q =>
      cases x with
      | error => rfl
      | ok a => exact (hf a q (hq hy)).left
  · intro b r hy
    obtain ⟨a, q, hm', hy⟩ := yields_bind.mp hy
    obtain ⟨hd, hx⟩ := hm a q hm'
    obtain ⟨hd', hx'⟩ := (hf a q (hq hm')).right b r hy
    exact ⟨hd'.trans hd, hx'.trans hx⟩

theorem map {f : α → β} (h : OnLevels n m m') : OnLevels n (f <$> m) (f <$> m') := by
  rw [map_eq_pure_bind, map_eq_pure_bind]
  exact h.bind fun a => .of_steady fun _ => .pure (f a)

theorem ite {c : Prop} [Decidable c] (h : OnLevels n m m') (h' : OnLevels n k k') :
    OnLevels n (if c then m else k) (if c then m' else k') := by
  split
  · exact h
  · exact h'

theorem pure (a : α) : OnLevels n (pure a) (pure a) :=
  .of_steady fun _ => .pure a

theorem prevSpan : OnLevels n prevSpan prevSpan :=
  .of_steady fun _ => .prevSpan

theorem eat : OnLevels n (eat kind) (eat kind) :=
  .of_steady fun _ => .eat

-- What follows both branches is in each of them.
theorem eat_bind {f f' : α → ParseM β} (h : OnLevels n m m') (h' : OnLevels n k k')
    (hf : ∀ a, OnLevels n (f a) (f' a)) :
    OnLevels n (do if ← Parser.eat kind then m >>= f else k >>= f)
      (do if ← Parser.eat kind then m' >>= f' else k' >>= f') :=
  .bind .eat fun _ => .ite (h.bind hf) (h'.bind hf)

theorem expect : OnLevels n (expect kind what) (expect kind what) :=
  .of_steady fun _ => .expect

theorem failExpecting : OnLevels (α := α) n (failExpecting what) (failExpecting what) :=
  .of_steady fun _ => .failExpecting

theorem check : OnLevels n (check kind) (check kind) :=
  .of_steady fun _ => .check

theorem deeper (h : OnLevels n m m') : OnLevels (n + 1) (deeper m) (deeper m') := by
  intro p hp
  have hl : ({ p with depth := p.depth + 1 } : Parser).levels = n := by
    simp only [levels] at hp ⊢
    omega
  obtain ⟨he, hm⟩ := h _ hl
  let close (x : Except Failure α × Parser) := (x.fst, { x.snd with depth := x.snd.depth - 1 })
  refine ⟨congrArg close he, fun a r hy => ?_⟩
  obtain ⟨q, hq, rfl⟩ := yields_deeper.mp hy
  obtain ⟨hd, hx⟩ := hm a q hq
  exact ⟨by simp [hd], hx⟩

end OnLevels

namespace Routine

-- What a tier's operators join, with `inner` for what follows an opening token.
def operandWith (inner : Inner) : Tier → ParseM Program
  | .equality => Parser.comparison inner
  | .comparison => Parser.addition inner
  | .addition => Parser.multiplication inner
  | .multiplication => Parser.unary inner

-- What a method does, with `inner` for what follows an opening token.
def runWith (inner : Inner) : Acts
  | .whole => entire inner
  | .expr => Parser.expr inner
  | .opened o => inner o
  | .bracedExpr => Parser.bracedExpr inner
  | .tier t => Parser.tier t.op? (operandWith inner t)
  | .chain t left => fullChain t.op? (operandWith inner t) left
  | .unary => Parser.unary inner
  | .primary => Parser.primary inner
  | .block => stmts inner
  | .stmt => Parser.stmt inner
  | .declaration => Parser.declaration inner
  | .assignment => Parser.assignment inner

-- What a method of the parser does.
def parserActs : Acts :=
  fun r => leveled (runWith · r)

section

variable {inner : Inner} {n : Nat}

theorem steady_operandWith (hi : ∀ o, Steady n (inner o) (inner o)) (t : Tier) :
    Steady n (operandWith inner t) (operandWith inner t) := by
  cases t with
  | equality => exact steady_comparison hi
  | comparison => exact steady_addition hi
  | addition => exact steady_multiplication hi
  | multiplication => exact steady_unary hi

theorem steady_runWith (hi : ∀ o, Steady n (inner o) (inner o)) (r : Routine) :
    Steady n (runWith inner r) (runWith inner r) := by
  cases r with
  | whole => exact steady_entire hi
  | expr => exact steady_expr hi
  | opened o => exact hi o
  | bracedExpr => exact steady_bracedExpr hi
  | tier t => exact steady_tier (steady_operandWith hi t)
  | chain t left => exact .bind .get fun p => steady_chain (steady_operandWith hi t) p.unread left
  | unary => exact steady_unary hi
  | primary => exact steady_primary hi
  | block => exact steady_stmts hi
  | stmt => exact steady_stmt hi
  | declaration => exact steady_declaration hi
  | assignment => exact steady_assignment hi

theorem steady_nested_self (k : Nat) (o : Opening) : Steady n (nested k o) (nested k o) := by
  have hc : PassesUpTo (pure ()) (n + k) := fun _ _ => rfl
  exact fun p hp => ⟨rfl, (steady_nested hc k (Nat.le_refl _) o hp).right⟩

-- A method of the parser gives what follows an opening token as many levels as there are.
theorem onLevels_parserActs (n : Nat) (r : Routine) :
    OnLevels n (parserActs r) (runWith (nested n) r) := by
  intro p hp
  have hr : (parserActs r).run p = (runWith (nested n) r).run p := by
    rw [parserActs, leveled, run_bind, ←hp]
    rfl
  have hs (k : Nat) : Steady k (runWith (nested n) r) (runWith (nested n) r) :=
    steady_runWith (steady_nested_self n) r
  exact ⟨hr, fun a q hy => (OnLevels.of_steady hs p hp).right a q (hr.symm.trans hy)⟩

theorem traced_operandWith (hi : ∀ o p, Traced (inner o) p) (t : Tier) (p : Parser) :
    Traced (operandWith inner t) p := by
  have multiplication (p : Parser) : Traced (Parser.multiplication inner) p :=
    traced_tier rfl (traced_unary hi) p
  have addition (p : Parser) : Traced (Parser.addition inner) p := traced_tier rfl multiplication p
  cases t with
  | equality => exact traced_tier rfl addition p
  | comparison => exact addition p
  | addition => exact multiplication p
  | multiplication => exact traced_unary hi p

theorem onLevels_operand (n : Nat) (t : Tier) :
    OnLevels n (operand parserActs t) (operandWith (nested n) t) := by
  cases t with
  | equality => exact onLevels_parserActs n (.tier .comparison)
  | comparison => exact onLevels_parserActs n (.tier .addition)
  | addition => exact onLevels_parserActs n (.tier .multiplication)
  | multiplication => exact onLevels_parserActs n .unary

theorem onLevels_enclosed (n : Nat) (o : Opening) :
    OnLevels n (enclosed parserActs o) (Parser.enclosed (nested n) o) := by
  have call := onLevels_parserActs n
  cases o
  all_goals refine .bind .prevSpan fun _ => ?_
  case minus => exact .bind (call .primary) fun _ => .pure _
  case paren =>
    refine .bind (call .expr) fun _ => .bind .expect fun _ => ?_
    exact .bind .prevSpan fun _ => .pure _
  case brace => exact .bind (call .block) fun _ => .bind .prevSpan fun _ => .pure _
  case cond =>
    refine .bind (call .expr) fun _ => .bind (call .bracedExpr) fun _ => .bind .expect fun _ => ?_
    exact .bind (call .bracedExpr) fun _ => .bind .prevSpan fun _ => .pure _

theorem onLevels_opened (n : Nat) (o : Opening) :
    OnLevels n (body parserActs true (.opened o)) (nested n o) := by
  intro p hp
  have hb : (body parserActs true (.opened o)).run p =
      (if true ∧ p.maxDepth ≤ p.depth then failTooDeep else deeper (enclosed parserActs o)).run p := rfl
  cases n with
  | zero =>
    have hd : p.maxDepth ≤ p.depth := by
      simp only [levels] at hp
      omega
    rw [if_pos ⟨rfl, hd⟩] at hb
    exact ⟨hb, fun a q hy => absurd (hb.symm.trans hy) not_yields_failTooDeep⟩
  | succ n =>
    have hd : ¬(true ∧ p.maxDepth ≤ p.depth) := by
      simp only [levels] at hp
      omega
    rw [if_neg hd] at hb
    obtain ⟨he, hm⟩ := (onLevels_enclosed n o).deeper p hp
    exact ⟨hb.trans he, fun a q hy => hm a q (hb.symm.trans hy)⟩

theorem onLevels_body (n : Nat) (r : Routine) :
    OnLevels n (body parserActs true r) (runWith (nested n) r) := by
  have call := onLevels_parserActs n
  cases r with
  | whole => exact .bind (call .expr) fun e => .bind .check fun _ => .ite (.pure e) .failExpecting
  | expr => exact .bind .eat fun _ => .ite (call (.opened .cond)) (call (.tier .equality))
  | opened o => exact onLevels_opened n o
  | bracedExpr =>
    exact .bind .expect fun _ => .bind (call .expr) fun e => .bind .expect fun _ => .pure e
  | tier t => exact .bind (onLevels_operand n t) fun left => call (.chain t left)
  | chain t left =>
    rw [runWith, fullChain_eq]
    · refine .bind (.of_steady fun _ => .peek) fun kind => ?_
      cases t.op? kind with
      | none => exact .pure left
      | some op =>
        refine .bind (.of_steady fun _ => .advance) fun _ => .bind (onLevels_operand n t) fun right => ?_
        exact call (.chain t _)
    · cases t <;> rfl
    · exact traced_operandWith (traced_nested n) t
  | unary => exact .bind .eat fun _ => .ite (call (.opened .minus)) (call .primary)
  | primary =>
    refine .bind .eat fun _ => .ite (.of_steady fun _ => .number) ?_
    refine .bind .eat fun _ => .ite (.bind .prevSpan fun _ => .pure _) ?_
    refine .bind .eat fun _ => .ite (.bind .prevSpan fun _ => .pure _) ?_
    refine .bind .eat fun _ => .ite (call (.opened .paren)) ?_
    exact .bind .eat fun _ => .ite (call (.opened .brace)) .failExpecting
  | block =>
    rw [runWith, stmts_eq (traced_nested n)]
    refine .bind .eat fun _ => .ite (.pure []) (.bind .check fun _ => .ite .failExpecting ?_)
    refine .bind (call .stmt) fun s => ?_
    cases s with
    | result => exact .bind .expect fun _ => .pure _
    | _ => exact .bind (call .block) fun _ => .pure _
  | stmt =>
    refine .bind .eat fun _ => .ite (call .declaration) ?_
    refine .bind .eat fun _ => .ite (call .assignment) ?_
    refine .bind (.of_steady fun _ => .get) fun _ => .ite (.of_steady fun _ => .fail _) ?_
    refine .bind (call .expr) fun e => ?_
    refine .bind .eat fun _ => .ite (.bind .prevSpan fun _ => .pure _) ?_
    exact .bind .check fun _ => .ite (.pure _) .failExpecting
  | declaration =>
    have ident : OnLevels n ident ident := .of_steady fun _ => .ident
    refine .bind .prevSpan fun _ => .bind ident fun _ => ?_
    refine .eat_bind ident.map (.pure _) fun _ => .eat_bind (call .expr).map (.pure _) fun _ => ?_
    exact .bind .expect fun _ => .bind .prevSpan fun _ => .pure _
  | assignment =>
    refine .bind .prevSpan fun _ => .bind (.of_steady fun _ => .internPrev) fun _ => ?_
    refine .bind .expect fun _ => .bind (call .expr) fun _ => .bind .expect fun _ => ?_
    exact .bind .prevSpan fun _ => .pure _

end

-- The methods of the parser call each other with the limit on the depth, so that their way to act is the
-- only one.
theorem acts_true : acts true = parserActs := by
  refine (eq_acts_of_eq_body fun r => ?_).symm
  funext p
  exact (onLevels_parserActs p.levels r p rfl).left.trans (onLevels_body p.levels r p rfl).left.symm

theorem Before.trans {r s t : Routine} {p q u : Parser} (h : Before r p s q) (h' : Before s q t u) :
    Before r p t u := by
  simp only [Before] at *
  omega

-- From a call to one of the same method, or of one further up in the grammar, a token is taken.
theorem tokens_lt_of_transGen {x y : Routine × Parser}
    (h : Relation.TransGen (fun x y => Before x.fst x.snd y.fst y.snd) x y)
    (hr : y.fst.rank ≤ x.fst.rank) : x.snd.tokens.length < y.snd.tokens.length := by
  have hb : Before x.fst x.snd y.fst y.snd := by
    clear hr
    induction h with
    | single h => exact h
    | tail _ h ih => exact ih.trans h
  cases hb with
  | inl h => exact h
  | inr h => exact absurd h.right (Nat.not_lt.mpr hr)

theorem wellFounded_before :
    WellFounded fun x y : Routine × Parser => Before x.fst x.snd y.fst y.snd :=
  Subrelation.wf (fun h => h.height_lt) (measure fun x : Routine × Parser => x.fst.height x.snd).wf

-- A method that comes back has taken tokens.
theorem length_add_least_le {r : Routine} {a : r.Answer} (h : Yields (acts limited r) p a q) :
    q.tokens.length + r.least ≤ p.tokens.length :=
  (agrees_of_eq_body (acts_eq_body limited) (acts_eq_body limited) r p).takes h

-- A call depends on no other ones than those before it.
theorem run_body_eq_acts {r : Routine}
    (h : ∀ s q, Before s q r p → (call s).run q = (acts limited s).run q) :
    (body call limited r).run p = (acts limited r).run p := by
  have hs : AgreesBefore (acts limited) call r p := fun s q hb =>
    { run := (h s q hb).symm, takes := length_add_least_le }
  rw [acts_eq_body]
  exact (same_body limited hs).run.symm

end Routine

end Parser

namespace Lexer

theorem length_scan_le (l : Lexer) : l.scan.tokens.length ≤ l.unread + 1 := by
  fun_induction Lexer.scan l
  case case1 => exact Nat.zero_le _
  case case2 => exact Nat.le_add_left ..
  case case3 hn ht s ih =>
    have hl := unread_next_lt hn ht
    exact Nat.succ_le_succ (ih.trans hl)

end Lexer

namespace Parser

theorem length_tokens_of_start {src : Text} {i : Interner} {d : Int} (h : start src i d = .ok p) :
    p.tokens.length ≤ src.encode.length + 1 := by
  have ⟨ht, _⟩ := start_takes h
  rw [ht]
  exact (Lexer.ofText src).length_scan_le

open Routine in
-- A bound on the calls that may be open, which can be told from the length of the source.
theorem run_within_whole {src : Text} {i : Interner} {d : Int} {out : Acts} {n : Nat}
    (hs : start src i d = .ok p) (hn : 11 * src.encode.length + 22 ≤ n) :
    (within true out n .whole).run p = whole.run p := by
  have hp := length_tokens_of_start hs
  have hh : height .whole p ≤ n := by
    simp only [height, rank]
    omega
  have ha : acts true .whole = whole := by
    rw [acts_true]
    rfl
  rw [←ha]
  exact (acts_agrees .whole p hh).run.symm

open Routine in
-- The methods end by themselves. They can act in one way only, with the limit on the depth and without it: a
-- call depends only on calls with fewer tokens left, or with as many and from further down in the grammar. So
-- on every path of calls that comes back to a method a token is taken, and from some number on it does not
-- matter how many calls may be open, or what is done instead of any further one. With the limit it is the
-- way of the parser, and the number can be told from the length of the source.
theorem parse_ends :
    (∀ limited,
      (∀ call : Acts, (∀ r, call r = body call limited r) ↔ call = acts limited) ∧
      (∀ r p a q, Yields (acts limited r) p a q → q.tokens.length + r.least ≤ p.tokens.length) ∧
      (∀ call r p, (∀ s q, Before s q r p → (call s).run q = (acts limited s).run q) →
        (body call limited r).run p = (acts limited r).run p) ∧
      ∀ out r p n, r.height p ≤ n → (within limited out n r).run p = (acts limited r).run p) ∧
    WellFounded (fun x y : Routine × Parser => Before x.fst x.snd y.fst y.snd) ∧
    (∀ r s p q, r.rank ≤ s.rank →
      Relation.TransGen (fun x y => Before x.fst x.snd y.fst y.snd) (s, q) (r, p) →
      q.tokens.length < p.tokens.length) ∧
    ∀ src i d out n, 11 * src.encode.length + 22 ≤ n →
      parse src i d =
        match start src i d with
        | .error e => (.error (.fault e), i)
        | .ok p =>
          let (r, q) := (within true out n .whole).run p
          (r, q.interner) := by
  refine ⟨fun limited => ⟨fun call => ⟨eq_acts_of_eq_body, ?_⟩, ?_, ?_, ?_⟩, wellFounded_before, ?_, ?_⟩
  · rintro rfl
    exact acts_eq_body limited
  · exact fun r p a q => length_add_least_le
  · exact fun call r p => run_body_eq_acts
  · exact fun out r p n hn => (acts_agrees r p hn).run.symm
  · exact fun r s p q hr h => tokens_lt_of_transGen h hr
  · intro src i d out n hn
    rw [parse]
    cases hs : start src i d with
    | error => rfl
    | ok p => exact congrArg (fun x => (x.fst, x.snd.interner)) (run_within_whole hs hn).symm

end Parser

end ExprLang
