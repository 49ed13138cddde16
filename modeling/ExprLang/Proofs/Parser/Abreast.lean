import ExprLang.Proofs.Parser.Failures
import ExprLang.Proofs.Parser.Pair

/-!
The grammar with two parsers side by side. Sources with the same words are parsed alike, whatever the
interners hold: both parsers come back with trees that differ in their places and handles only, or both
stop for the same reason, and each interner has been presented with the names that were passed.
-/
namespace ExprLang

open Token Grammar

namespace Parser

variable {p p' : Parser}

-- Statements that end with the input cannot come to an end.
theorem run_stmtsWithin_of_eof {inner : Inner} (n : Nat) (hk : p.token.kind = .eof) :
    (stmtsWithin inner n).run p = (failExpecting "'\x7d'").run p := by
  cases n with
  | zero => rfl
  | succ n => rw [stmtsWithin, run_eat_of_ne (by simp [hk]), run_check_of_kind hk]

-- There is a first token unless a stray byte is before it.
theorem start_cases (src : Text) (i : Interner) (d : Int) :
    (∃ p, start src i d = .ok p ∧ p.maxDepth = d) ∨
    ∃ e, start src i d = .error e ∧ (Lexer.ofText src).scan.tokens = [] ∧
      (Lexer.ofText src).scan.fault = some e := by
  cases hn : (Lexer.ofText src).next with
  | mk x l =>
    cases x with
    | ok t => exact .inl ⟨⟨l, i, d, 0, .dummy, t⟩, by simp [start, hn, Except.map], rfl⟩
    | error e =>
      exact .inr ⟨e, by simp [start, hn, Except.map], by rw [Lexer.scan_error hn],
        by rw [Lexer.scan_error hn]⟩

namespace Pair

variable (c : Pair)

-- Trees that say the same.
def SameTree : Program → Program → Prop :=
  Expr.Alike c.spans c.SameName

def SameStmt : Stmt Empty → Stmt Empty → Prop :=
  Stmt.Alike c.spans c.SameName

def SameStmts : List (Stmt Empty) → List (Stmt Empty) → Prop :=
  Stmts.Alike c.spans c.SameName

-- Both parsers can run it wherever they are, unless a name waits for its symbol.
def Keeps {α : Type} (R : α → α → Prop) (m : ParseM α) : Prop :=
  ∀ ⦃s⦄, s ≠ .naming → c.Leads s s R m m

variable {c} {s : Stage}

theorem SameTree.span {e e' : Program} (h : c.SameTree e e') : c.spans e.span e'.span :=
  Expr.Alike.span h

theorem SameStmt.sameRole {t t' : Stmt Empty} (h : c.SameStmt t t') : SameRole t t' := by
  cases h <;> simp [SameRole]

-- What is read of the token that was consumed last is the same on both sides.
theorem leads_number : c.Leads .going .going c.SameTree number number := by
  intro p p' h
  have ⟨hl, hl'⟩ := h.lexeme (by decide)
  rw [hl] at hl'
  generalize Text.ofAscii (p.prev.word c.src.encode.toArray).text = text at hl hl'
  cases hn : text.numeral? with
  | error f =>
    refine .refuses (refuses_number.mpr ⟨rfl, .inr (.inl ⟨text, f, hl, hn, rfl⟩)⟩)
      (refuses_number.mpr ⟨rfl, .inr (.inl ⟨text, f, hl', hn, rfl⟩)⟩) (h.stopped .numeral)
  | ok n =>
    by_cases hm : SyntaxError.maxLiteral < n
    case pos =>
      refine .refuses (refuses_number.mpr ⟨rfl, .inr (.inr ⟨text, n, hl, hn, hm, rfl⟩)⟩)
        (refuses_number.mpr ⟨rfl, .inr (.inr ⟨text, n, hl', hn, hm, rfl⟩)⟩) (h.stopped ?_)
      exact .ofWritable (h.prev (by decide)) _ nofun rfl
    case neg =>
      have yields {p : Parser} (hl : p.lexeme = .ok text) :
          Yields number p (.literal p.prev.span (.num n)) p := by
        simp only [number, yields_bind, yields_prevSpan, yields_prevText]
        exact ⟨_, p, ⟨rfl, rfl⟩, text, p, ⟨hl, rfl⟩, by simp [hn, hm]⟩
      exact .yields (yields hl) (yields hl') h (.literal (h.span (by decide)))

section

variable {op? : Kind → Option BinOp} {operand : ParseM Program}

-- Operators with their operands. The recursion is on one of the bounds of their number, which differ
-- with what the sources have left, but are both large enough.
theorem coupled_chain (hi : op? .ident = none) (ho : op? .eof = none) (h : c.Keeps c.SameTree operand)
    (ht : ∀ q, Traced operand q) {n n' : Nat} {left left' : Program} (hl : c.SameTree left left')
    (hs : s ≠ .naming) (ha : c.Abreast s p p') (hn : p.unread ≤ n) (hn' : p'.unread ≤ n') :
    c.Coupled s c.SameTree (chain op? operand n left) (chain op? operand n' left') p p' := by
  induction n generalizing s n' left left' p p'
  all_goals cases hop : op? p.token.kind
  case zero.none | succ.none =>
    have hop' : op? p'.token.kind = none := ha.kind_eq ▸ hop
    exact .yields (yields_chain_of_none hop _) (yields_chain_of_none hop' _) ha hl
  case zero.some => simp [kind_eq_eof_of_unread hn, ho] at hop
  case succ.some n ih op =>
    have hop' : op? p'.token.kind = some op := ha.kind_eq ▸ hop
    cases n' with
    | zero => simp [kind_eq_eof_of_unread hn', ho] at hop'
    | succ n' =>
      have hk : p.token.kind ≠ .eof := by
        intro hk
        simp [hk, ho] at hop
      have hg : Stage.after p.token.kind = .going := by
        refine if_neg fun hk => ?_
        simp [hk, hi] at hop
      refine .congr ?_ (run_chain_of_some hop n) (run_chain_of_some hop' n')
      refine (ha.advance hs hk).bind fun _ _ q q' hm hm' hq _ => ?_
      rw [hg] at hq
      refine (h (by decide) hq).bind fun right right' r r' hy hy' hr har => ?_
      have ⟨_, hts⟩ := (ht q).yields hy
      have ⟨_, hts'⟩ := (ht q').yields hy'
      have hu := (Moves.takes hm hk).unread
      have hu' := (Moves.takes hm' (ha.kind_eq ▸ hk)).unread
      have := hts.unread
      have := hts'.unread
      simp only [List.length_singleton] at hu hu'
      have hb : c.SameTree (.binary (left.span.merge right.span) op left right)
          (.binary (left'.span.merge right'.span) op left' right') :=
        .binary (c.merge hl.span har.span) hl har
      exact (ih hb (by decide) hr (by omega) (by omega)).weaken hs

theorem keeps_tier (hi : op? .ident = none) (ho : op? .eof = none) (h : c.Keeps c.SameTree operand)
    (ht : ∀ q, Traced operand q) : c.Keeps c.SameTree (tier op? operand) := by
  intro s hs p p' ha
  refine (h hs ha).bind fun left left' q q' _ _ hq hl => ?_
  refine .bind (.yields (R := Any) (yields_get.mpr ⟨rfl, rfl⟩) (yields_get.mpr ⟨rfl, rfl⟩) hq trivial) ?_
  intro _ _ r r' hr hr' hq _
  obtain ⟨rfl, rfl⟩ := yields_get.mp hr
  obtain ⟨rfl, rfl⟩ := yields_get.mp hr'
  exact coupled_chain hi ho h ht hl hs hq (Nat.le_refl _) (Nat.le_refl _)

end

section

variable {inner : Inner} (hi : ∀ o, c.Leads .going .going c.SameTree (inner o) (inner o))
  (ht : ∀ o p, Traced (inner o) p)
include hi

theorem keeps_primary : c.Keeps c.SameTree (primary inner) := by
  intro s hs
  have literal (v : Literal Empty) : c.Leads .going s c.SameTree
      (do return .literal (← prevSpan) v) (do return .literal (← prevSpan) v) :=
    .weaken (.bind (.prevSpan (by decide)) fun _ _ hr => .pure (.literal hr)) hs
  refine .eat hs (by decide) (leads_number.weaken hs) ?_
  refine .eat hs (by decide) (literal (.bool true)) ?_
  refine .eat hs (by decide) (literal (.bool false)) ?_
  refine .eat hs (by decide) ((hi .paren).weaken hs) ?_
  exact .eat hs (by decide) ((hi .brace).weaken hs) .failExpecting

theorem keeps_unary : c.Keeps c.SameTree (unary inner) :=
  fun _ hs => .eat hs (by decide) ((hi .minus).weaken hs) (keeps_primary hi hs)

include ht

theorem keeps_expr : c.Keeps c.SameTree (expr inner) := by
  have traced₁ : ∀ q, Traced (multiplication inner) q := traced_tier rfl (traced_unary ht)
  have traced₂ : ∀ q, Traced (addition inner) q := traced_tier rfl traced₁
  have traced₃ : ∀ q, Traced (comparison inner) q := traced_tier rfl traced₂
  have h₁ : c.Keeps c.SameTree (multiplication inner) :=
    keeps_tier rfl rfl (keeps_unary hi) (traced_unary ht)
  have h₂ : c.Keeps c.SameTree (addition inner) := keeps_tier rfl rfl h₁ traced₁
  have h₃ : c.Keeps c.SameTree (comparison inner) := keeps_tier rfl rfl h₂ traced₂
  have h₄ : c.Keeps c.SameTree (equality inner) := keeps_tier rfl rfl h₃ traced₃
  exact fun _ hs => .eat hs (by decide) ((hi .cond).weaken hs) (h₄ hs)

theorem leads_expr : c.Leads .going .going c.SameTree (expr inner) (expr inner) :=
  keeps_expr hi ht (by decide)

theorem leads_bracedExpr : c.Leads .going .going c.SameTree (bracedExpr inner) (bracedExpr inner) := by
  refine .bind (.expect (by decide) (by decide)) fun _ _ _ => ?_
  refine .bind (leads_expr hi ht) fun _ _ he => ?_
  exact .bind (.expect (by decide) (by decide)) fun _ _ _ => .pure he

theorem leads_declaration :
    c.Leads .going .going c.SameStmt (declaration inner) (declaration inner) := by
  refine .bind (.prevSpan (by decide)) fun _ _ hlo => .bind (.ident (by decide)) fun _ _ hx => ?_
  refine .eat_bind (R := Option.Rel c.SameName) (by decide) (by decide)
    (.map (.ident (by decide)) fun _ _ hx => .some hx) (.pure .none) fun _ _ htype => ?_
  refine .eat_bind (R := Init.Alike c.spans c.SameName) (by decide) (by decide)
    (.map (leads_expr hi ht) fun _ _ he => .some he) (.pure .none) fun _ _ hinit => ?_
  refine .bind (.expect (by decide) (by decide)) fun _ _ _ => ?_
  exact .bind (.prevSpan (by decide)) fun _ _ hhi => .pure (.declare (c.merge hlo hhi) hx htype hinit)

theorem leads_assignment :
    c.Leads .naming .going c.SameStmt (assignment inner) (assignment inner) := by
  refine .bind (.prevSpan (by decide)) fun _ _ hlo => .bind .internPrev fun _ _ hx => ?_
  refine .bind (.expect (by decide) (by decide)) fun _ _ _ => .bind (leads_expr hi ht) fun _ _ he => ?_
  refine .bind (.expect (by decide) (by decide)) fun _ _ _ => ?_
  exact .bind (.prevSpan (by decide)) fun _ _ hhi => .pure (.assign (c.merge hlo hhi) hx he)

theorem leads_stmt : c.Leads .going .going c.SameStmt (stmt inner) (stmt inner) := by
  refine .eat (by decide) (by decide) (leads_declaration hi ht) ?_
  refine .eat (by decide) (by decide) (leads_assignment hi ht) ?_
  intro p p' ha
  -- The next token is looked at once more, for a keyword that is not implemented.
  refine Coupled.congr (?_ : c.Coupled _ _
    (if p.token.kind = .kwFn || p.token.kind = .kwReturn then _ else _)
    (if p'.token.kind = .kwFn || p'.token.kind = .kwReturn then _ else _) p p') rfl rfl
  rw [←ha.kind_eq]
  split
  case isTrue =>
    refine .refuses (refuses_fail.mpr ⟨rfl, rfl⟩) (refuses_fail.mpr ⟨rfl, rfl⟩) (ha.stopped ?_)
    exact .ofWritable ha.token _ nofun rfl
  case isFalse =>
    refine Leads.bind (leads_expr hi ht) (fun _ _ he => ?_) ha
    refine .eat (by decide) (by decide) (.bind (.prevSpan (by decide)) fun _ _ hhi => ?_) ?_
    · exact .pure (.discard (c.merge he.span hhi) he)
    · exact .check (.pure (.result he.span he)) .failExpecting

-- Statements up to the closing brace, again with two bounds on their number.
theorem coupled_stmtsWithin {n n' : Nat} (ha : c.Abreast .going p p') (hn : p.unread ≤ n)
    (hn' : p'.unread ≤ n') :
    c.Coupled .going c.SameStmts (stmtsWithin inner n) (stmtsWithin inner n') p p' := by
  have ended {n n' : Nat} {p p' : Parser} (ha : c.Abreast .going p p') (hk : p.token.kind = .eof) :
      c.Coupled .going c.SameStmts (stmtsWithin inner n) (stmtsWithin inner n') p p' :=
    (Leads.failExpecting ha).congr (run_stmtsWithin_of_eof n hk)
      (run_stmtsWithin_of_eof n' (ha.kind_eq ▸ hk))
  induction n generalizing n' p p' with
  | zero => exact ended ha (kind_eq_eof_of_unread hn)
  | succ n ih =>
    cases n' with
    | zero => exact ended ha (ha.kind_eq.trans (kind_eq_eof_of_unread hn'))
    | succ n' =>
      refine .eat ha (by decide) (by decide) (fun _ _ hq => Leads.pure .nil hq) ?_
      refine .check ha (Leads.failExpecting ha) ?_
      refine (leads_stmt hi ht ha).bind fun t t' q q' hy hy' hq hs => ?_
      have hr := hs.sameRole
      split
      case h_1 =>
        cases hs with
        | result hs he =>
          refine Leads.bind (.expect (by decide) (by decide)) (fun _ _ _ => ?_) hq
          exact .pure (.cons (.result hs he) .nil)
      case h_2 hne =>
        have hne' (span : Span) (e : Program) : t' ≠ .result span e := by
          intro he
          have ⟨_, _, ht⟩ := hr.mpr ⟨span, e, he⟩
          exact hne _ _ ht
        split
        case h_1 => exact absurd rfl (hne' _ _)
        case h_2 =>
          have := unread_lt_of_yields_stmt ht hne hy
          have := unread_lt_of_yields_stmt ht hne' hy'
          refine (ih hq (by omega) (by omega)).bind fun _ _ _ _ _ _ hq hss => ?_
          exact Leads.pure (.cons hs hss) hq

theorem leads_stmts : c.Leads .going .going c.SameStmts (stmts inner) (stmts inner) := by
  intro p p' ha
  refine .bind (.yields (R := Any) (yields_get.mpr ⟨rfl, rfl⟩) (yields_get.mpr ⟨rfl, rfl⟩) ha trivial) ?_
  intro _ _ q q' hq hq' ha _
  obtain ⟨rfl, rfl⟩ := yields_get.mp hq
  obtain ⟨rfl, rfl⟩ := yields_get.mp hq'
  exact coupled_stmtsWithin hi ht ha (Nat.le_refl _) (Nat.le_refl _)

theorem leads_enclosed (o : Opening) :
    c.Leads .going .going c.SameTree (enclosed inner o) (enclosed inner o) := by
  cases o
  all_goals refine .bind (.prevSpan (by decide)) fun _ _ hlo => ?_
  case minus =>
    refine .bind (keeps_primary hi (by decide)) fun _ _ he => .pure ?_
    exact .unary (c.merge hlo he.span) he
  case paren =>
    refine .bind (leads_expr hi ht) fun _ _ he => .bind (.expect (by decide) (by decide)) fun _ _ _ => ?_
    exact .bind (.prevSpan (by decide)) fun _ _ hhi => .pure (.grouping (c.merge hlo hhi) he)
  case brace =>
    refine .bind (leads_stmts hi ht) fun _ _ hss => .bind (.prevSpan (by decide)) fun _ _ hhi => ?_
    exact .pure (.block (c.merge hlo hhi) (c.merge hlo hhi) hss)
  case cond =>
    refine .bind (leads_expr hi ht) fun _ _ hc => .bind (leads_bracedExpr hi ht) fun _ _ ht => ?_
    refine .bind (.expect (by decide) (by decide)) fun _ _ _ => ?_
    refine .bind (leads_bracedExpr hi ‹_›) fun _ _ he => .bind (.prevSpan (by decide)) fun _ _ hhi => ?_
    exact .pure (.cond (c.merge hlo hhi) hc ht he)

end

theorem leads_nested (n : Nat) (o : Opening) :
    c.Leads .going .going c.SameTree (nested n o) (nested n o) := by
  induction n generalizing o with
  | zero => exact .failTooDeep (by decide)
  | succ n ih => exact .deeper (leads_enclosed ih (traced_nested n) o)

theorem coupled_whole (ha : c.Abreast .fresh p p') (hl : p.levels = p'.levels) :
    c.Coupled .fresh c.SameTree whole whole p p' := by
  have hf : c.Leads .fresh .fresh c.SameTree (failExpecting "end of input")
      (failExpecting "end of input") :=
    .failExpecting
  have h := Leads.bind (keeps_expr (leads_nested p.levels) (traced_nested p.levels) (by decide))
    (fun _ _ he => .check (k := .eof) (.pure he) hf) ha
  refine h.congr (run_whole p) ?_
  rw [hl]
  exact run_whole p'

theorem abreast_of_start {d : Int} (hp : start c.src c.interner d = .ok p)
    (hp' : start c.src' c.interner' d = .ok p') (hd : p.maxDepth = p'.maxDepth) :
    c.Abreast .fresh p p' := by
  have ⟨hw, hf, hi, _⟩ := start_eq_ok hp
  have ⟨_, hf', hi', _⟩ := start_eq_ok hp'
  have ⟨ht, hs, _⟩ := start_takes hp
  have ⟨ht', hs', _⟩ := start_takes hp'
  constructor
  case source => exact hs
  case source' => exact hs'
  case tokens => exact ht ▸ ht' ▸ c.scan
  case fault => exact hf
  case fault' => exact hf'.trans c.fault.symm
  case limit => exact hd
  case prev | unended => exact fun h => absurd rfl h
  case names => exact ⟨[], ⟨hi, hi'⟩, by rw [hw]; rfl⟩

-- With nothing left, both interners have been presented with all names.
theorem Abreast.presented_all (h : c.Abreast .fresh p p') (hk : p.token.kind = .eof) :
    c.Presented (identifiers c.src) p p' := by
  have ⟨xs, hi, hn⟩ := h.names
  have hw : Word.names p.words = [] := by
    have hw : p.word.kind ≠ .ident := by
      show p.token.kind ≠ .ident
      simp [hk]
    simp [words, hk, Word.names, hw]
  rw [hw] at hn
  rw [hn]
  simpa [Stage.pending] using hi

variable (c) in
-- Both sources are parsed, or neither of them.
theorem parse_both (d : Int) :
    (∃ e e', parse c.src c.interner d = (.ok e, c.interner.present (identifiers c.src)) ∧
      parse c.src' c.interner' d = (.ok e', c.interner'.present (identifiers c.src)) ∧
      c.SameTree e e') ∨
    ∃ f f' xs, xs <+: identifiers c.src ∧
      parse c.src c.interner d = (.error f, c.interner.present xs) ∧
      parse c.src' c.interner' d = (.error f', c.interner'.present xs) ∧ c.SameFailure f f' := by
  have hlen := c.scan.length_eq
  cases start_cases c.src c.interner d with
  | inr h =>
    obtain ⟨e, hp, ht, hf⟩ := h
    cases start_cases c.src' c.interner' d with
    | inl h' =>
      obtain ⟨p', hp', _⟩ := h'
      rw [ht, ←(start_takes hp').left, Parser.tokens] at hlen
      simp at hlen
    | inr h' =>
      obtain ⟨e', hp', _, hf'⟩ := h'
      have he : e = e' := Option.some.inj ((hf.symm.trans c.fault).trans hf')
      subst he
      refine .inr ⟨_, _, [], List.nil_prefix, ?_, ?_, .stray hf⟩
      · exact parse_eq_error_iff.mpr (.inl ⟨e, hp, rfl, rfl⟩)
      · exact parse_eq_error_iff.mpr (.inl ⟨e, hp', rfl, rfl⟩)
  | inl h =>
    obtain ⟨p, hp, hd⟩ := h
    cases start_cases c.src' c.interner' d with
    | inr h' =>
      obtain ⟨_, _, ht', _⟩ := h'
      rw [ht', ←(start_takes hp).left, Parser.tokens] at hlen
      simp at hlen
    | inl h' =>
      obtain ⟨p', hp', hd'⟩ := h'
      have ha := abreast_of_start hp hp' (hd.trans hd'.symm)
      have hl : p.levels = p'.levels :=
        (start_eq_ok hp).right.right.right.trans (start_eq_ok hp').right.right.right.symm
      cases coupled_whole ha hl with
      | yields hy hy' hq hr =>
        obtain ⟨hi, hi'⟩ := hq.presented_all (yields_whole.mp hy).right
        refine .inl ⟨_, _, ?_, ?_, hr⟩
        · exact parse_eq_ok_iff.mpr ⟨p, _, hp, hy, hi⟩
        · exact parse_eq_ok_iff.mpr ⟨p', _, hp', hy', hi'⟩
      | refuses hy hy' hs =>
        obtain ⟨xs, ⟨hi, hi'⟩, hx⟩ := hs.names
        refine .inr ⟨_, _, xs, hx, ?_, ?_, hs.failure⟩
        · exact parse_eq_error_iff.mpr (.inr ⟨p, _, hp, hy, hi⟩)
        · exact parse_eq_error_iff.mpr (.inr ⟨p', _, hp', hy', hi'⟩)

-- A source beside itself, with two interners.
def same (src : Text) {i i' : Interner} (hi : i.Reachable) (hi' : i'.Reachable) : Pair where
  src := src
  src' := src
  interner := i
  interner' := i'
  tokens t t' := t = t' ∧ t ∈ (Lexer.ofText src).scan.tokens
  spans := Eq
  reachable := hi
  reachable' := hi'
  scan := List.forall₂_same.mpr fun _ ht => ⟨rfl, ht⟩
  fault := rfl
  word h := by rw [h.left]
  allows h := Lexer.allows_words (Lexer.ofText src) (List.mem_map_of_mem h.right)
  span h _ := by rw [h.left]
  merge hs hu := by rw [hs, hu]

theorem SameFailure.eq {src : Text} {i i' : Interner} {hi : i.Reachable} {hi' : i'.Reachable}
    {f f' : Failure} (h : (same src hi hi').SameFailure f f') : f = f' := by
  cases h with
  | fault h => rw [h.left]
  | stray | numeral => rfl

end Pair

-- One source with two interners. The trees differ in their handles only, and failures do not differ.
theorem parse_same (src : Text) {i i' : Interner} (hi : i.Reachable) (hi' : i'.Reachable) (d : Int) :
    (∃ e e', parse src i d = (.ok e, i.present (identifiers src)) ∧
      parse src i' d = (.ok e', i'.present (identifiers src)) ∧
      Expr.Alike Eq (SameText (i.present (identifiers src)).issued?
        (i'.present (identifiers src)).issued?) e e') ∨
    ∃ f xs, xs <+: identifiers src ∧ parse src i d = (.error f, i.present xs) ∧
      parse src i' d = (.error f, i'.present xs) := by
  cases (Pair.same src hi hi').parse_both d with
  | inl h => exact .inl h
  | inr h =>
    have ⟨f, f', xs, hx, h, h', hf⟩ := h
    have hf := hf.eq
    subst hf
    exact .inr ⟨f, xs, hx, h, h'⟩

end Parser
end ExprLang
