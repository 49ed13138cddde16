import ExprLang.Json
import ExprLang.Tree.Category

namespace ExprLang

variable {δ : Type}

def Atom.toJson : Atom → Json
  | .null => .null
  | .bool b => .bool b
  | .int n => .int n
  | .str s => .str s

def Literal.label : Literal δ → Text
  | .num _ => "num"
  | .bool _ => "bool"
  | .loose _ label _ => label

def Literal.toJson : Literal δ → Json
  | .num n => .int n
  | .bool b => .bool b
  | .loose _ _ (.inl n) => .int n
  | .loose _ _ (.inr b) => .bool b

-- A step on the way from a tree to its encoding. The last two make one value of several that were
-- encoded before.
inductive Task (δ : Type)
  | node (n : Node δ)
  | stmts (ss : List (Stmt δ))
  | symbol (s : Symbol)
  | value (j : Json)
  | object (head : List (String × Json)) (keys : List String)
  | array (length : Nat)

-- What a part of a tree is encoded as: either a value, or an object with fields that are still to
-- be encoded.
inductive Shape (δ : Type)
  | value (j : Json)
  | object (category : Category) (span : Span) (fields : List (String × Task δ))

mutual

def Expr.shape : Expr δ → Shape δ
  | .literal span v =>
    .object .literal span [("kind", .value (.str v.label)), ("value", .value v.toJson)]
  | .unary span op e =>
    .object .unary span [("op", .value (.str op.spelling)), ("operand", .node (.expr e))]
  | .binary span op l r =>
    .object .binary span
      [("op", .value (.str op.spelling)), ("left", .node (.expr l)), ("right", .node (.expr r))]
  | .grouping span e => .object .grouping span [("expr", .node (.expr e))]
  | .cond span c t e =>
    .object .cond span
      [("cond", .node (.expr c)), ("then", .node (.expr t)), ("else_", .node (.expr e))]
  | .block span b => .object .blockExpr span [("block", .node (.block b))]
  | .strayBody _ span body => .object .blockExpr span [("block", .node (.expr body))]
  | .strayStmt _ s => s.shape
  | .strayBlock _ b => .object .block b.span [("stmts", .stmts b.stmts)]
  | .strayAtom _ a => .value a.toJson

def Stmt.shape : Stmt δ → Shape δ
  | .declare span ident type init =>
    .object .declare span
      [("ident", .symbol ident),
        ("type", type.elim (.value .null) .symbol),
        ("init", init.elim (.value .null) fun e => .node (.expr e))]
  | .assign span ident value =>
    .object .assign span [("ident", .symbol ident), ("value", .node (.expr value))]
  | .discard span e => .object .discard span [("expr", .node (.expr e))]
  | .result span e => .object .result span [("expr", .node (.expr e))]
  | .strayExpr _ e => e.shape
  | .strayBlock _ b => .object .block b.span [("stmts", .stmts b.stmts)]
  | .strayAtom _ a => .value a.toJson

end

def Node.shape : Node δ → Shape δ
  | .expr e => e.shape
  | .stmt s => s.shape
  | .block b => .object .block b.span [("stmts", .stmts b.stmts)]

-- The number of steps that it takes to encode a tree.
mutual

def Expr.steps : Expr δ → Nat
  | .literal .. => 4
  | .unary _ _ e => e.steps + 3
  | .binary _ _ l r => l.steps + r.steps + 3
  | .grouping _ e => e.steps + 2
  | .cond _ c t e => c.steps + t.steps + e.steps + 2
  | .block _ b => b.steps + 2
  | .strayBody _ _ body => body.steps + 2
  | .strayStmt _ s => s.steps
  | .strayBlock _ b => b.steps
  | .strayAtom .. => 2

def Stmt.steps : Stmt δ → Nat
  | .declare _ _ _ none => 5
  | .declare _ _ _ (some e) => e.steps + 4
  | .assign _ _ value => value.steps + 3
  | .discard _ e => e.steps + 2
  | .result _ e => e.steps + 2
  | .strayExpr _ e => e.steps
  | .strayBlock _ b => b.steps
  | .strayAtom .. => 2

def Block.steps : Block δ → Nat
  | .mk _ ss => stmtsSteps ss + 4

def stmtsSteps : List (Stmt δ) → Nat
  | [] => 0
  | s :: ss => s.steps + stmtsSteps ss

end

def Node.steps : Node δ → Nat
  | .expr e => e.steps
  | .stmt s => s.steps
  | .block b => b.steps

def Task.steps : Task δ → Nat
  | .node n => n.steps
  | .stmts ss => stmtsSteps ss + 2
  | .symbol _ | .value _ | .object .. | .array _ => 1

def Shape.steps : Shape δ → Nat
  | .value _ => 2
  | .object _ _ fields => total (fun f => f.snd.steps) fields + 2

theorem stmtsSteps_eq_total (ss : List (Stmt δ)) : stmtsSteps ss = total Stmt.steps ss := by
  induction ss with
  | nil => rfl
  | cons s ss ih => simp [stmtsSteps, ih]

theorem Block.steps_shape (b : Block δ) :
    (Shape.object .block b.span [("stmts", Task.stmts b.stmts)]).steps = b.steps := by
  cases b
  simp [Shape.steps, Task.steps, Block.steps, Block.stmts]

mutual

theorem Expr.steps_shape : (e : Expr δ) → e.shape.steps = e.steps
  | .literal .. => rfl
  | .unary .. => by simp +arith [Expr.shape, Shape.steps, Task.steps, Node.steps, Expr.steps]
  | .binary .. => by simp +arith [Expr.shape, Shape.steps, Task.steps, Node.steps, Expr.steps]
  | .grouping .. => by simp [Expr.shape, Shape.steps, Task.steps, Node.steps, Expr.steps]
  | .cond .. => by simp +arith [Expr.shape, Shape.steps, Task.steps, Node.steps, Expr.steps]
  | .block .. => by simp [Expr.shape, Shape.steps, Task.steps, Node.steps, Expr.steps]
  | .strayBody .. => by simp [Expr.shape, Shape.steps, Task.steps, Node.steps, Expr.steps]
  | .strayStmt _ s => by simpa [Expr.shape, Expr.steps] using s.steps_shape
  | .strayBlock _ b => by simpa [Expr.shape, Expr.steps] using b.steps_shape
  | .strayAtom .. => rfl

theorem Stmt.steps_shape : (s : Stmt δ) → s.shape.steps = s.steps
  | .declare _ _ none none | .declare _ _ (some _) none => rfl
  | .declare _ _ none (some _) | .declare _ _ (some _) (some _) => by
    simp +arith [Stmt.shape, Shape.steps, Task.steps, Node.steps, Stmt.steps]
  | .assign .. => by simp +arith [Stmt.shape, Shape.steps, Task.steps, Node.steps, Stmt.steps]
  | .discard .. => by simp [Stmt.shape, Shape.steps, Task.steps, Node.steps, Stmt.steps]
  | .result .. => by simp [Stmt.shape, Shape.steps, Task.steps, Node.steps, Stmt.steps]
  | .strayExpr _ e => by simpa [Stmt.shape, Stmt.steps] using e.steps_shape
  | .strayBlock _ b => by simpa [Stmt.shape, Stmt.steps] using b.steps_shape
  | .strayAtom .. => rfl

end

theorem Node.steps_shape : (n : Node δ) → n.shape.steps = n.steps
  | .expr e => e.steps_shape
  | .stmt s => s.steps_shape
  | .block b => b.steps_shape

structure Encoding where
  names : Names
  spans : Bool

namespace Encoding

-- The fields that every part has.
def head (c : Encoding) (category : Category) (span : Span) : List (String × Json) :=
  let node := ("node", .str category.name)
  if c.spans then [node, ("span", .arr [.int span.lo, .int span.hi])] else [node]

-- Works off tasks, the last one of a part first, and collects the values that they lead to.
def run (c : Encoding) : List (Task δ) → List Json → Except RenderError (List Json)
  | [], done => .ok done
  | .value j :: tasks, done => c.run tasks (j :: done)
  | .symbol s :: tasks, done => do
    let name ← c.names.name s
    c.run tasks (.str name :: done)
  | .object head keys :: tasks, done =>
    c.run tasks (.obj (head ++ keys.zip done) :: done.drop keys.length)
  | .array length :: tasks, done =>
    c.run tasks (.arr (done.take length) :: done.drop length)
  | .stmts ss :: tasks, done =>
    c.run ((ss.map fun s => .node (.stmt s)).reverse ++ .array ss.length :: tasks) done
  | .node n :: tasks, done =>
    match _h : n.shape with
    | .value j => c.run tasks (j :: done)
    | .object category span fields =>
      let object := .object (c.head category span) (fields.map (·.fst))
      c.run ((fields.map (·.snd)).reverse ++ object :: tasks) done
termination_by tasks => total Task.steps tasks
decreasing_by
  · simp [Task.steps]
  · simp [Task.steps]
  · simp [Task.steps]
  · simp [Task.steps]
  · have h : total (Task.steps ∘ fun s => .node (.stmt s)) ss = stmtsSteps ss :=
      (stmtsSteps_eq_total ss).symm
    simp [Task.steps, h]
    omega
  · have h := n.steps_shape
    rw [_h, Shape.steps] at h
    simp [Task.steps, ←h]
  · have h := n.steps_shape
    rw [_h, Shape.steps] at h
    simp [Task.steps, ←h, Function.comp_def]
    omega

end Encoding

-- The encoding of a tree: an object for each part, an array for each sequence of statements.
def Node.encode (c : Encoding) (n : Node δ) : Except RenderError Json := do
  return (← c.run [.node n] []).headD .null

def Expr.encode (c : Encoding) (e : Expr δ) : Except RenderError Json :=
  (Node.expr e).encode c

def Stmt.encode (c : Encoding) (s : Stmt δ) : Except RenderError Json :=
  (Node.stmt s).encode c

end ExprLang
