import Mathlib
import ExprLang.Tree.Dump

/-!
Trees in preorder. A listing has one line for each part of a tree, and its parts come one before the other
as in the plain recursive walk.
-/
namespace ExprLang

variable {δ : Type} {names : Names}

-- The line of a part, behind two blanks for each level and before its span.
def Pending.row [Provenance δ] (names : Names) (p : Pending δ) : Except RenderError Text := do
  let line ← p.node.line names
  let place ← p.node.place
  return .replicate (2 * p.indent) 0x20 ++ line ++ s!" @{place}"

-- The parts of a tree whose root is on the level `k`. Each part comes before what is below it, and what is
-- below it comes from left to right, one level further in. A block has its statements below it. Where
-- something else is in the place of an expression or a statement, it comes as what it is.
mutual

def Expr.preorder (k : Nat) : Expr δ → List (Pending δ)
  | .literal s v => [⟨.expr (.literal s v), k⟩]
  | .unary s op e => ⟨.expr (.unary s op e), k⟩ :: e.preorder (k + 1)
  | .binary s op l r => ⟨.expr (.binary s op l r), k⟩ :: (l.preorder (k + 1) ++ r.preorder (k + 1))
  | .grouping s e => ⟨.expr (.grouping s e), k⟩ :: e.preorder (k + 1)
  | .cond s c t e =>
    ⟨.expr (.cond s c t e), k⟩ ::
      (c.preorder (k + 1) ++ (t.preorder (k + 1) ++ e.preorder (k + 1)))
  | .block s b => ⟨.expr (.block s b), k⟩ :: b.preorder (k + 1)
  | .strayBody ok s body => [⟨.expr (.strayBody ok s body), k⟩]
  | .strayStmt _ s => s.preorder k
  | .strayBlock _ b => [⟨.block b, k⟩]
  | .strayAtom ok a => [⟨.expr (.strayAtom ok a), k⟩]

def Stmt.preorder (k : Nat) : Stmt δ → List (Pending δ)
  | .declare s x type none => [⟨.stmt (.declare s x type none), k⟩]
  | .declare s x type (some e) => ⟨.stmt (.declare s x type (some e)), k⟩ :: e.preorder (k + 1)
  | .assign s x e => ⟨.stmt (.assign s x e), k⟩ :: e.preorder (k + 1)
  | .discard s e => ⟨.stmt (.discard s e), k⟩ :: e.preorder (k + 1)
  | .result s e => ⟨.stmt (.result s e), k⟩ :: e.preorder (k + 1)
  | .strayExpr _ e => e.preorder k
  | .strayBlock _ b => [⟨.block b, k⟩]
  | .strayAtom ok a => [⟨.stmt (.strayAtom ok a), k⟩]

def Block.preorder (k : Nat) : Block δ → List (Pending δ)
  | .mk _ ss => stmtsPreorder k ss

def stmtsPreorder (k : Nat) : List (Stmt δ) → List (Pending δ)
  | [] => []
  | s :: ss => s.preorder k ++ stmtsPreorder k ss

end

def Node.preorder (k : Nat) : Node δ → List (Pending δ)
  | .expr e => e.preorder k
  | .stmt s => s.preorder k
  | .block b => [⟨.block b, k⟩]

-- All that waits, with what is below it.
def preorders (stack : List (Pending δ)) : List (Pending δ) :=
  stack.flatMap fun p => p.node.preorder p.indent

theorem stmtsPreorder_eq (k : Nat) (ss : List (Stmt δ)) :
    stmtsPreorder k ss = preorders (ss.map (⟨.stmt ·, k⟩)) := by
  induction ss with
  | nil => rfl
  | cons s ss ih => simp [stmtsPreorder, preorders, ih, Node.preorder]

variable [Provenance δ]

-- The rows of a part and of what is below it.
mutual

theorem Expr.rows_eq (names : Names) (k : Nat) : (e : Expr δ) →
    (e.preorder k).mapM (·.row names) =
      (⟨.expr e, k⟩ :: preorders (e.children.map (⟨·, k + 1⟩))).mapM (·.row names)
  | .literal .. | .strayBody .. | .strayAtom .. => rfl
  | .unary .. | .grouping .. | .binary .. | .cond .. => by
    simp [Expr.preorder, Expr.children, preorders, Node.preorder]
  | .block _ (.mk _ ss) => by
    simp [Expr.preorder, Expr.children, Block.preorder, Block.stmts, stmtsPreorder_eq,
      Function.comp_def]
  | .strayStmt _ s => s.rows_eq names k
  | .strayBlock .. => rfl

theorem Stmt.rows_eq (names : Names) (k : Nat) : (s : Stmt δ) →
    (s.preorder k).mapM (·.row names) =
      (⟨.stmt s, k⟩ :: preorders (s.children.map (⟨·, k + 1⟩))).mapM (·.row names)
  | .declare _ _ _ none | .strayAtom .. => rfl
  | .declare _ _ _ (some _) | .assign .. | .discard .. | .result .. => by
    simp [Stmt.preorder, Stmt.children, preorders, Node.preorder]
  | .strayExpr _ e => e.rows_eq names k
  | .strayBlock .. => rfl

end

theorem Node.rows_eq (names : Names) (k : Nat) : (n : Node δ) →
    (n.preorder k).mapM (·.row names) =
      (⟨n, k⟩ :: preorders (n.children.map (⟨·, k + 1⟩))).mapM (·.row names)
  | .expr e => e.rows_eq names k
  | .stmt s => s.rows_eq names k
  | .block _ => rfl

-- The stack holds what a recursive walk has still to come to.
theorem dumpPending_eq_rows (names : Names) (stack : List (Pending δ)) :
    dumpPending names stack = (preorders stack).mapM (·.row names) := by
  fun_induction dumpPending names stack with
  | case1 => rfl
  | case2 n indent stack ih =>
    have hs : preorders (⟨n, indent⟩ :: stack) = n.preorder indent ++ preorders stack :=
      List.flatMap_cons
    have hc : preorders (n.children.map (⟨·, indent + 1⟩) ++ stack) =
        preorders (n.children.map (⟨·, indent + 1⟩)) ++ preorders stack :=
      List.flatMap_append
    rw [hs, List.mapM_append, n.rows_eq, List.mapM_cons, ih, hc, List.mapM_append]
    simp [Pending.row]

theorem Expr.lines_eq_rows (names : Names) (e : Expr δ) :
    e.lines names = (e.preorder 0).mapM (·.row names) := by
  rw [lines, dumpPending_eq_rows]
  simp [preorders, Node.preorder]

example :
    (Expr.grouping ⟨0, 6, by decide⟩ (.literal ⟨1, 5, by decide⟩ (.bool true)) : Program).lines none =
      .ok ["Grouping @0..6", "  Literal true @1..5"] := by
  cbv

end ExprLang
