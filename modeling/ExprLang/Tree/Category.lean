import ExprLang.Tree.Basic

namespace ExprLang

-- The kinds of things that can be found in a tree.
inductive Category
  | literal
  | unary
  | binary
  | grouping
  | cond
  | blockExpr
  | block
  | declare
  | assign
  | discard
  | result
  | atom (a : Atom)
  deriving DecidableEq

namespace Category

def name : Category → String
  | .literal => "Literal"
  | .unary => "Unary"
  | .binary => "Binary"
  | .grouping => "Grouping"
  | .cond => "If"
  | .blockExpr => "BlockExpr"
  | .block => "Block"
  | .declare => "Let"
  | .assign => "Assign"
  | .discard => "ExprStmt"
  | .result => "ExprWithoutSemi"
  | .atom .null => "NoneType"
  | .atom (.bool _) => "bool"
  | .atom (.int _) => "int"
  | .atom (.str _) => "str"

-- The name by which a complaint about a misplaced part refers to it.
def qualifiedName : Category → String
  | .atom a => (atom a).name
  | c => "pyret.ast." ++ c.name

end Category

variable {δ : Type}

mutual

def Expr.category : Expr δ → Category
  | .literal .. => .literal
  | .unary .. => .unary
  | .binary .. => .binary
  | .grouping .. => .grouping
  | .cond .. => .cond
  | .block .. | .strayBody .. => .blockExpr
  | .strayStmt _ s => s.category
  | .strayBlock .. => .block
  | .strayAtom _ a => .atom a

def Stmt.category : Stmt δ → Category
  | .declare .. => .declare
  | .assign .. => .assign
  | .discard .. => .discard
  | .result .. => .result
  | .strayExpr _ e => e.category
  | .strayBlock .. => .block
  | .strayAtom _ a => .atom a

end

-- What was wanted where something else was found.
inductive Place
  | expression
  | statement
  | tree
  deriving DecidableEq

-- A part of a tree that cannot stand where it was found.
structure Misplaced where
  place : Place
  found : Category
  deriving DecidableEq

def Misplaced.message (m : Misplaced) : String :=
  let wanted := match m.place with
    | .expression => "an expression node"
    | .statement => "a statement node"
    | .tree => "an AST node"
  s!"not {wanted}: <class '{m.found.qualifiedName}'>"

-- Why a tree cannot be written.
inductive RenderError
  | unknown (s : Symbol)
  | misplaced (m : Misplaced)
  -- A block expression holds something that is no block.
  | bodiless (found : Category)
  -- A number is too long.
  | unwritable
  deriving DecidableEq

def RenderError.message : RenderError → String
  | .unknown s => s!"{s.format} was not produced by this interner"
  | .misplaced m => m.message
  | .bodiless found => s!"not a block: {found.name}"
  | .unwritable => Text.unwritable

-- A number as text.
def Text.decimal (n : Int) : Except RenderError Text :=
  if isWritable n then .ok (toString n) else .error .unwritable

-- How symbols are written: as the texts of an interner, or by their handles.
abbrev Names := Option Interner

def Names.name (names : Names) (s : Symbol) : Except RenderError Text :=
  match names with
  | none => return "<" ++ (← Text.decimal s.id) ++ ">"
  | some interner =>
    match interner.lookup? s with
    | some text => .ok text
    -- The complaint names the handle.
    | none => do
      let _ ← Text.decimal s.id
      .error (.unknown s)

end ExprLang
