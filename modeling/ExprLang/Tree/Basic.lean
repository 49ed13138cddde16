import ExprLang.Span
import ExprLang.Symbol.Interner

namespace ExprLang

inductive UnOp
  | neg
  deriving DecidableEq

inductive BinOp
  | add
  | sub
  | mul
  | div
  | eq
  | ne
  | gt
  | ge
  | lt
  | le
  deriving DecidableEq

def UnOp.spelling : UnOp → String
  | .neg => "-"

def BinOp.spelling : BinOp → String
  | .add => "+"
  | .sub => "-"
  | .mul => "*"
  | .div => "/"
  | .eq => "=="
  | .ne => "!="
  | .gt => ">"
  | .ge => ">="
  | .lt => "<"
  | .le => "<="

def BinOp.all : List BinOp :=
  [.add, .sub, .mul, .div, .eq, .ne, .gt, .ge, .lt, .le]

-- Something that is no part of a program at all.
inductive Atom
  | null
  | bool (b : Bool)
  | int (n : Int)
  | str (s : Text)
  deriving DecidableEq

-- In the types below, `δ` tells whether a tree may be a mere draft, in which anything can stand
-- anywhere: only if `δ` is inhabited, the constructors that take one of it can be used.

inductive Literal (δ : Type)
  | num (n : Int)
  | bool (b : Bool)
  -- A number or a truth value under a label that need not fit it.
  | loose (ok : δ) (label : Text) (value : Int ⊕ Bool)

mutual

inductive Expr (δ : Type)
  | literal (span : Span) (value : Literal δ)
  | unary (span : Span) (op : UnOp) (operand : Expr δ)
  | binary (span : Span) (op : BinOp) (left right : Expr δ)
  | grouping (span : Span) (inner : Expr δ)
  | cond (span : Span) (test yes no : Expr δ)
  | block (span : Span) (body : Block δ)
  -- A block expression with something else in place of its block.
  | strayBody (ok : δ) (span : Span) (body : Expr δ)
  | strayStmt (ok : δ) (s : Stmt δ)
  | strayBlock (ok : δ) (b : Block δ)
  | strayAtom (ok : δ) (a : Atom)

inductive Stmt (δ : Type)
  | declare (span : Span) (ident : Symbol) (type : Option Symbol) (init : Option (Expr δ))
  | assign (span : Span) (ident : Symbol) (value : Expr δ)
  | discard (span : Span) (expr : Expr δ)
  | result (span : Span) (expr : Expr δ)
  | strayExpr (ok : δ) (e : Expr δ)
  | strayBlock (ok : δ) (b : Block δ)
  | strayAtom (ok : δ) (a : Atom)

inductive Block (δ : Type)
  | mk (span : Span) (stmts : List (Stmt δ))

end

-- The tree of a program.
abbrev Program := Expr Empty

-- A tree that was put together by hand.
abbrev Draft := Expr Unit

-- Where trees over `δ` come from. The spans of a program are those of a source that was read, whose
-- length is short to write, while those of a draft are any that someone has thought of.
class Provenance (δ : Type) where
  byHand? : Option δ

instance : Provenance Empty := ⟨none⟩

instance : Provenance Unit := ⟨some ()⟩

variable {δ : Type}

def Block.span : Block δ → Span
  | .mk span _ => span

def Block.stmts : Block δ → List (Stmt δ)
  | .mk _ stmts => stmts

mutual

def Expr.span : Expr δ → Span
  | .literal span _ | .unary span _ _ | .binary span _ _ _ | .grouping span _
  | .cond span _ _ _ | .block span _ | .strayBody _ span _ => span
  | .strayStmt _ s => s.span
  | .strayBlock _ b => b.span
  | .strayAtom _ _ => .dummy

def Stmt.span : Stmt δ → Span
  | .declare span _ _ _ | .assign span _ _ | .discard span _ | .result span _ => span
  | .strayExpr _ e => e.span
  | .strayBlock _ b => b.span
  | .strayAtom _ _ => .dummy

end

-- A part of a tree.
inductive Node (δ : Type)
  | expr (e : Expr δ)
  | stmt (s : Stmt δ)
  | block (b : Block δ)

def Node.span : Node δ → Span
  | .expr e => e.span
  | .stmt s => s.span
  | .block b => b.span

section

variable {α β : Type} (f : α → Nat)

-- The sum of a measure over a list, by which walks along lists of parts are seen to end.
def total : List α → Nat
  | [] => 0
  | x :: xs => f x + total xs

@[simp]
theorem total_nil : total f [] = 0 :=
  rfl

@[simp]
theorem total_cons (x : α) (xs : List α) : total f (x :: xs) = f x + total f xs :=
  rfl

@[simp]
theorem total_append (xs ys : List α) : total f (xs ++ ys) = total f xs + total f ys := by
  induction xs with
  | nil => simp
  | cons x xs ih => simp [ih, Nat.add_assoc]

@[simp]
theorem total_map (g : β → α) (ys : List β) : total f (ys.map g) = total (f ∘ g) ys := by
  induction ys with
  | nil => rfl
  | cons y ys ih => simp [ih]

@[simp]
theorem total_reverse (xs : List α) : total f xs.reverse = total f xs := by
  induction xs with
  | nil => rfl
  | cons x xs ih => simp [ih, Nat.add_comm]

end

end ExprLang
