import ExprLang.Proofs.Grammar.Relocated
import ExprLang.Proofs.Tree.Lines

/-!
Trees that are told by their listings. What is below a part stands one level further in, up to the next
part that does not.
-/
namespace ExprLang

variable {names names' : Names}

theorem Expr.preorder_cons (k : Nat) : (e : Program) → ∃ ps, e.preorder k = ⟨.expr e, k⟩ :: ps
  | .literal .. | .unary .. | .binary .. | .grouping .. | .cond .. | .block .. => ⟨_, rfl⟩

theorem Stmt.preorder_cons (k : Nat) : (s : Stmt Empty) → ∃ ps, s.preorder k = ⟨.stmt s, k⟩ :: ps
  | .declare _ _ _ none | .declare _ _ _ (some _) | .assign .. | .discard .. | .result .. => ⟨_, rfl⟩

namespace Pending

-- What does not start below the level `k`.
def Shallow (k : Nat) (ps : List (Pending Empty)) : Prop :=
  ∀ p ∈ ps.head?, p.indent ≤ k

variable {k : Nat} {r r' : List (Pending Empty)}

theorem Shallow.succ (h : Shallow k r) : Shallow (k + 1) r :=
  fun p hp => Nat.le_succ_of_le (h p hp)

theorem shallow_expr (e : Program) : Shallow k (e.preorder k ++ r) := by
  have ⟨ps, h⟩ := e.preorder_cons k
  rw [h]
  rintro p ⟨⟩
  exact Nat.le_refl k

theorem Shallow.stmts (ss : List (Stmt Empty)) (h : Shallow k r) :
    Shallow k (stmtsPreorder k ss ++ r) := by
  cases ss with
  | nil => exact h
  | cons s ss =>
    have ⟨ps, h⟩ := s.preorder_cons k
    rw [stmtsPreorder, h]
    rintro p ⟨⟩
    exact Nat.le_refl k

-- What starts below a level is not told like what does not.
theorem Shallow.not_told {p : Pending Empty} {ps : List (Pending Empty)} (hr : Shallow k r)
    (hp : p.indent = k + 1) :
    ¬List.Forall₂ (Told names names') r (p :: ps) ∧ ¬List.Forall₂ (Told names names') (p :: ps) r := by
  constructor
  all_goals
    intro h
    cases h with
    | cons h _ =>
      have hi := h.row.indent
      have hk := hr _ rfl
      omega

end Pending

open Pending

section

variable {k : Nat} {r r' : List (Pending Empty)}

theorem Expr.told_head {e e' : Program}
    (h : List.Forall₂ (Told names names') (e.preorder k ++ r) (e'.preorder k ++ r')) :
    Expr.Agree e e' := by
  have ⟨ps, he⟩ := e.preorder_cons k
  have ⟨ps', he'⟩ := e'.preorder_cons k
  rw [he, he'] at h
  cases h with
  | cons h _ => exact agree_of_told h

theorem Stmt.told_head {s s' : Stmt Empty}
    (h : List.Forall₂ (Told names names') (s.preorder k ++ r) (s'.preorder k ++ r')) :
    Stmt.Agree names names' s s' := by
  have ⟨ps, hs⟩ := s.preorder_cons k
  have ⟨ps', hs'⟩ := s'.preorder_cons k
  rw [hs, hs'] at h
  cases h with
  | cons h _ => exact agree_of_told h

end

-- The rows tell where a part ends and what it is. The induction is on the first of two trees, and what
-- comes behind them does not start below them.
mutual

theorem Expr.alike_of_told : (e e' : Program) → {k : Nat} → {r r' : List (Pending Empty)} →
    List.Forall₂ (Told names names') (e.preorder k ++ r) (e'.preorder k ++ r') →
    Shallow k r → Shallow k r' →
    Expr.Alike Eq (names.WriteAlike names') e e' ∧ List.Forall₂ (Told names names') r r'
  | .literal s v, e', k, r, r', h, hr, hr' => by
    cases Expr.told_head h
    cases h with
    | cons _ h => exact ⟨.literal rfl, h⟩
  | .unary s op e, e', k, r, r', h, hr, hr' => by
    cases Expr.told_head h
    cases h with
    | cons _ h =>
      have ⟨he, h⟩ := e.alike_of_told _ h hr.succ hr'.succ
      exact ⟨.unary rfl he, h⟩
  | .binary s op l₁ r₁, e', k, r, r', h, hr, hr' => by
    cases Expr.told_head h
    cases h with
    | cons _ h =>
      simp only [List.append_eq, List.append_assoc] at h
      have ⟨hl, h⟩ := l₁.alike_of_told _ h (shallow_expr _) (shallow_expr _)
      have ⟨hr, h⟩ := r₁.alike_of_told _ h hr.succ hr'.succ
      exact ⟨.binary rfl hl hr, h⟩
  | .grouping s e, e', k, r, r', h, hr, hr' => by
    cases Expr.told_head h
    cases h with
    | cons _ h =>
      have ⟨he, h⟩ := e.alike_of_told _ h hr.succ hr'.succ
      exact ⟨.grouping rfl he, h⟩
  | .cond s c t e, e', k, r, r', h, hr, hr' => by
    cases Expr.told_head h
    cases h with
    | cons _ h =>
      simp only [List.append_eq, List.append_assoc] at h
      have ⟨hc, h⟩ := c.alike_of_told _ h (shallow_expr _) (shallow_expr _)
      have ⟨ht, h⟩ := t.alike_of_told _ h (shallow_expr _) (shallow_expr _)
      have ⟨he, h⟩ := e.alike_of_told _ h hr.succ hr'.succ
      exact ⟨.cond rfl hc ht he, h⟩
  | .block s (.mk _ ss), e', k, r, r', h, hr, hr' => by
    cases Expr.told_head h
    cases h with
    | cons _ h =>
      have ⟨hs, h⟩ := alike_of_told_stmts ss _ h hr hr'
      exact ⟨.block rfl rfl hs, h⟩

theorem alike_of_told_stmts : (ss ss' : List (Stmt Empty)) → {k : Nat} → {r r' : List (Pending Empty)} →
    List.Forall₂ (Told names names') (stmtsPreorder (k + 1) ss ++ r) (stmtsPreorder (k + 1) ss' ++ r') →
    Shallow k r → Shallow k r' →
    Stmts.Alike Eq (names.WriteAlike names') ss ss' ∧ List.Forall₂ (Told names names') r r'
  | [], [], k, r, r', h, _, _ => ⟨.nil, h⟩
  | [], s' :: ss', k, r, r', h, hr, _ => by
    have ⟨ps, hs⟩ := s'.preorder_cons (k + 1)
    rw [stmtsPreorder, stmtsPreorder, hs] at h
    exact absurd h (hr.not_told rfl).left
  | s :: ss, [], k, r, r', h, _, hr' => by
    have ⟨ps, hs⟩ := s.preorder_cons (k + 1)
    rw [stmtsPreorder, stmtsPreorder, hs] at h
    exact absurd h (hr'.not_told rfl).right
  | s :: ss, s' :: ss', k, r, r', h, hr, hr' => by
    rw [stmtsPreorder, stmtsPreorder, List.append_assoc, List.append_assoc] at h
    have ⟨hs, h⟩ := s.alike_of_told _ h (hr.succ.stmts ss) (hr'.succ.stmts ss')
    have ⟨hss, h⟩ := alike_of_told_stmts ss ss' h hr hr'
    exact ⟨.cons hs hss, h⟩

theorem Stmt.alike_of_told : (s s' : Stmt Empty) → {k : Nat} → {r r' : List (Pending Empty)} →
    List.Forall₂ (Told names names') (s.preorder k ++ r) (s'.preorder k ++ r') →
    Shallow k r → Shallow k r' →
    Stmt.Alike Eq (names.WriteAlike names') s s' ∧ List.Forall₂ (Told names names') r r'
  | .declare s x type none, s', k, r, r', h, hr, hr' => by
    obtain @⟨_, _, _, _, _, _, init', hx, ht⟩ := Stmt.told_head h
    cases init' with
    | none =>
      cases h with
      | cons _ h => exact ⟨.declare rfl hx ht .none, h⟩
    | some e' =>
      have ⟨ps, he⟩ := e'.preorder_cons (k + 1)
      rw [Stmt.preorder, Stmt.preorder, he] at h
      cases h with
      | cons _ h => exact absurd h (hr.not_told rfl).left
  | .declare s x type (some e), s', k, r, r', h, hr, hr' => by
    obtain @⟨_, _, _, _, _, _, init', hx, ht⟩ := Stmt.told_head h
    cases init' with
    | none =>
      have ⟨ps, he⟩ := e.preorder_cons (k + 1)
      rw [Stmt.preorder, Stmt.preorder, he] at h
      cases h with
      | cons _ h => exact absurd h (hr'.not_told rfl).right
    | some e' =>
      cases h with
      | cons _ h =>
        have ⟨he, h⟩ := e.alike_of_told e' h hr.succ hr'.succ
        exact ⟨.declare rfl hx ht (.some he), h⟩
  | .assign s x e, s', k, r, r', h, hr, hr' => by
    cases Stmt.told_head h with
    | assign hx =>
    cases h with
    | cons _ h =>
      have ⟨he, h⟩ := e.alike_of_told _ h hr.succ hr'.succ
      exact ⟨.assign rfl hx he, h⟩
  | .discard s e, s', k, r, r', h, hr, hr' => by
    cases Stmt.told_head h
    cases h with
    | cons _ h =>
      have ⟨he, h⟩ := e.alike_of_told _ h hr.succ hr'.succ
      exact ⟨.discard rfl he, h⟩
  | .result s e, s', k, r, r', h, hr, hr' => by
    cases Stmt.told_head h
    cases h with
    | cons _ h =>
      have ⟨he, h⟩ := e.alike_of_told _ h hr.succ hr'.succ
      exact ⟨.result rfl he, h⟩

end

namespace Pending

theorem told_of_sameRows {ps ps' : List (Pending Empty)} (hc : ∀ p ∈ ps, p.node.Clear names)
    (hc' : ∀ p ∈ ps', p.node.Clear names') (h : List.Forall₂ (SameRow names names') ps ps') :
    List.Forall₂ (Told names names') ps ps' := by
  induction h with
  | nil => exact .nil
  | cons hp _ ih =>
    have ⟨hn, hc⟩ := List.forall_mem_cons.mp hc
    have ⟨hn', hc'⟩ := List.forall_mem_cons.mp hc'
    exact .cons ⟨hp, hn, hn'⟩ (ih hc hc')

end Pending

theorem Node.Clear.titled {n : Node Empty} (h : n.Clear names) : n.Titled names := by
  have ⟨t, hl, ht, _⟩ := h.line
  exact ⟨t, hl, ht⟩

theorem Expr.rows_of_dump {e : Program} {t : Text} (h : e.dump names = .ok t) :
    ∃ ts, Rows names (e.preorder 0) ts ∧ t = Text.join "\n" ts := by
  rw [dump, lines_eq_rows] at h
  cases hr : (e.preorder 0).mapM (·.row names) with
  | error =>
    rw [hr] at h
    cases h
  | ok ts =>
    rw [hr] at h
    cases h
    exact ⟨ts, rows_of_mapM hr, rfl⟩

-- Trees of clear parts that have the same listing are alike.
theorem Expr.alike_of_dump {e e' : Program} {t : Text} (hc : ∀ p ∈ e.preorder 0, p.node.Clear names)
    (hc' : ∀ p ∈ e'.preorder 0, p.node.Clear names') (h : e.dump names = .ok t)
    (h' : e'.dump names' = .ok t) : Expr.Alike Eq (names.WriteAlike names') e e' := by
  have ⟨ts, hr, ht⟩ := rows_of_dump h
  have ⟨us, hr', hu⟩ := rows_of_dump h'
  have ne (e : Program) : e.preorder 0 ≠ [] := by
    have ⟨ps, he⟩ := e.preorder_cons 0
    exact he ▸ List.cons_ne_nil _ _
  have hrows := sameRows_of_join (fun p hp => (hc p hp).titled) (fun p hp => (hc' p hp).titled)
    (ne e) (ne e') hr hr' (ht.symm.trans hu)
  have htold := told_of_sameRows hc hc' hrows
  rw [←List.append_nil (e.preorder 0), ←List.append_nil (e'.preorder 0)] at htold
  exact (e.alike_of_told e' htold nofun nofun).left

end ExprLang
