import ExprLang.Tree.Format

namespace ExprLang

variable {δ : Type}

-- The line of a part of a tree, without its indentation and its span.
mutual

def Expr.line (names : Names) : Expr δ → Except RenderError Text
  | .literal _ value => return "Literal " ++ (← value.format)
  | .unary _ op _ => .ok ("Unary " ++ op.spelling)
  | .binary _ op _ _ => .ok ("Binary " ++ op.spelling)
  | .grouping .. => .ok "Grouping"
  | .cond .. => .ok "If"
  | .block .. => .ok "Block"
  | .strayBody _ _ body => .error (.bodiless body.category)
  | .strayStmt _ s => s.line names
  | .strayBlock .. => .error (.misplaced ⟨.tree, .block⟩)
  | .strayAtom _ a => .error (.misplaced ⟨.tree, .atom a⟩)

def Stmt.line (names : Names) : Stmt δ → Except RenderError Text
  | .declare _ ident type _ => do
    let name ← names.name ident
    match type with
    | none => return "Let " ++ name
    | some type => return "Let " ++ name ++ ": " ++ (← names.name type)
  | .assign _ ident _ => do
    return "Assign " ++ (← names.name ident)
  | .discard .. => .ok "ExprStmt"
  | .result .. => .ok "ExprWithoutSemi"
  | .strayExpr _ e => e.line names
  | .strayBlock .. => .error (.misplaced ⟨.tree, .block⟩)
  | .strayAtom _ a => .error (.misplaced ⟨.tree, .atom a⟩)

end

-- The parts that a dump lists below a part. The statements of a block stand for the block.
mutual

def Expr.children : Expr δ → List (Node δ)
  | .literal .. => []
  | .unary _ _ e => [.expr e]
  | .binary _ _ l r => [.expr l, .expr r]
  | .grouping _ e => [.expr e]
  | .cond _ c t e => [.expr c, .expr t, .expr e]
  | .block _ b => b.stmts.map .stmt
  | .strayStmt _ s => s.children
  | .strayBody .. | .strayBlock .. | .strayAtom .. => []

def Stmt.children : Stmt δ → List (Node δ)
  | .declare _ _ _ init => init.toList.map .expr
  | .assign _ _ value => [.expr value]
  | .discard _ e => [.expr e]
  | .result _ e => [.expr e]
  | .strayExpr _ e => e.children
  | .strayBlock .. | .strayAtom .. => []

end

-- The number of parts that a tree is made of.
mutual

def Expr.size : Expr δ → Nat
  | .literal .. => 1
  | .unary _ _ e => e.size + 1
  | .binary _ _ l r => l.size + r.size + 1
  | .grouping _ e => e.size + 1
  | .cond _ c t e => c.size + t.size + e.size + 1
  | .block _ b => b.size + 1
  | .strayBody _ _ body => body.size + 1
  | .strayStmt _ s => s.size
  | .strayBlock _ b => b.size
  | .strayAtom .. => 1

def Stmt.size : Stmt δ → Nat
  | .declare _ _ _ none => 1
  | .declare _ _ _ (some e) => e.size + 1
  | .assign _ _ value => value.size + 1
  | .discard _ e => e.size + 1
  | .result _ e => e.size + 1
  | .strayExpr _ e => e.size
  | .strayBlock _ b => b.size
  | .strayAtom .. => 1

def Block.size : Block δ → Nat
  | .mk _ ss => stmtsSize ss + 1

def stmtsSize : List (Stmt δ) → Nat
  | [] => 0
  | s :: ss => s.size + stmtsSize ss

end

namespace Node

def line (names : Names) : Node δ → Except RenderError Text
  | .expr e => e.line names
  | .stmt s => s.line names
  | .block _ => .error (.misplaced ⟨.tree, .block⟩)

def children : Node δ → List (Node δ)
  | .expr e => e.children
  | .stmt s => s.children
  | .block _ => []

def size : Node δ → Nat
  | .expr e => e.size
  | .stmt s => s.size
  | .block b => b.size

end Node

theorem stmtsSize_eq_total (ss : List (Stmt δ)) : stmtsSize ss = total Stmt.size ss := by
  induction ss with
  | nil => rfl
  | cons s ss ih => simp [stmtsSize, ih]

mutual

theorem Expr.size_children_lt : (e : Expr δ) → total Node.size e.children < e.size
  | .literal .. => Nat.one_pos
  | .unary _ _ e => by simp [Expr.children, Node.size, Expr.size]
  | .binary _ _ l r => by simp [Expr.children, Node.size, Expr.size]
  | .grouping _ e => by simp [Expr.children, Node.size, Expr.size]
  | .cond _ c t e => by simp [Expr.children, Node.size, Expr.size]; omega
  | .block _ (.mk _ ss) => by
    have h : total (Node.size ∘ Node.stmt) ss = stmtsSize ss := (stmtsSize_eq_total ss).symm
    simp only [Expr.children, Block.stmts, Expr.size, Block.size, total_map, h]
    omega
  | .strayBody .. => by simp [Expr.children, Expr.size]
  | .strayStmt _ s => by simpa [Expr.children, Expr.size] using s.size_children_lt
  | .strayBlock _ (.mk ..) => by simp [Expr.children, Expr.size, Block.size]
  | .strayAtom .. => Nat.one_pos

theorem Stmt.size_children_lt : (s : Stmt δ) → total Node.size s.children < s.size
  | .declare _ _ _ none => Nat.one_pos
  | .declare _ _ _ (some e) => by simp [Stmt.children, Node.size, Stmt.size]
  | .assign _ _ e => by simp [Stmt.children, Node.size, Stmt.size]
  | .discard _ e => by simp [Stmt.children, Node.size, Stmt.size]
  | .result _ e => by simp [Stmt.children, Node.size, Stmt.size]
  | .strayExpr _ e => by simpa [Stmt.children, Stmt.size] using e.size_children_lt
  | .strayBlock _ (.mk ..) => by simp [Stmt.children, Stmt.size, Block.size]
  | .strayAtom .. => Nat.one_pos

end

theorem Node.size_children_lt : (n : Node δ) → total Node.size n.children < n.size
  | .expr e => e.size_children_lt
  | .stmt s => s.size_children_lt
  | .block (.mk ..) => Nat.succ_pos _

-- The span of a part as it is listed.
def Node.place [Provenance δ] (n : Node δ) : Except RenderError String :=
  match (Provenance.byHand? : Option δ) with
  | none => .ok n.span.format
  | some _ => if n.span.isWritable then .ok n.span.format else .error .unwritable

@[simp]
theorem Node.place_program (n : Node Empty) : n.place = .ok n.span.format :=
  rfl

-- A part of a tree that waits for its line, with its level of indentation.
structure Pending (δ : Type) where
  node : Node δ
  indent : Nat

-- The lines of all that waits. What is below a part comes right behind it.
def dumpPending [Provenance δ] (names : Names) : List (Pending δ) → Except RenderError (List Text)
  | [] => .ok []
  | ⟨n, indent⟩ :: stack => do
    let line ← n.line names
    let place ← n.place
    let lines ← dumpPending names (n.children.map (⟨·, indent + 1⟩) ++ stack)
    return (.replicate (2 * indent) 0x20 ++ line ++ s!" @{place}") :: lines
termination_by stack => total (fun p => p.node.size) stack
decreasing_by
  have h := n.size_children_lt
  simp only [total_append, total_map, total_cons]
  exact Nat.add_lt_add_right h _

-- The lines for all parts of a tree. A name may break a line.
def Expr.lines [Provenance δ] (names : Names) (e : Expr δ) : Except RenderError (List Text) :=
  dumpPending names [⟨.expr e, 0⟩]

-- A listing of a tree.
def Expr.dump [Provenance δ] (names : Names) (e : Expr δ) : Except RenderError Text :=
  Text.join "\n" <$> e.lines names

end ExprLang
