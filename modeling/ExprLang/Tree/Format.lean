import ExprLang.Tree.Category

namespace ExprLang

variable {δ : Type}

-- How tightly operators bind.
def BinOp.precedence : BinOp → Nat
  | .eq | .ne => 1
  | .gt | .ge | .lt | .le => 2
  | .add | .sub => 3
  | .mul | .div => 4

namespace Expr

-- The precedence of what binds as tightly as can be.
def atomic : Nat := 5

def precedence : Expr δ → Nat
  | .binary _ op _ _ => op.precedence
  | .cond .. => 0
  | _ => atomic

def isUnary : Expr δ → Bool
  | .unary .. => true
  | _ => false

end Expr

def Literal.format : Literal δ → Except RenderError Text
  | .num n => Text.decimal n
  | .bool b => .ok (toString b)
  | .loose _ label value =>
    if label = ("bool" : Text) then
      match value with
      | .inl n => .ok (toString (n != 0))
      | .inr b => .ok (toString b)
    else
      match value with
      | .inl n => Text.decimal n
      | .inr true => .ok "True"
      | .inr false => .ok "False"

namespace Text

def parenthesized (t : Text) : Text :=
  "(" ++ t ++ ")"

def parenthesizedIf (c : Bool) (t : Text) : Text :=
  if c then t.parenthesized else t

-- Statements between braces.
def braced (ts : List Text) : Text :=
  if ts.isEmpty then "\x7b\x7d" else "\x7b " ++ join " " ts ++ " \x7d"

end Text

-- Text of an expression together with its precedence. It is kept in pieces, the last one first,
-- before which parentheses are opened.
structure Phrase where
  opened : Nat
  pieces : List Text
  precedence : Nat

-- An operator and its right operand, whose text is made when it is needed.
structure Phrase.Link where
  op : BinOp
  precedence : Nat
  right : Unit → Except RenderError Text

namespace Phrase

def ofText (t : Text) (precedence : Nat) : Phrase where
  opened := 0
  pieces := [t]
  precedence := precedence

def text (p : Phrase) : Text :=
  .replicate p.opened 0x28 ++ p.pieces.reverse.flatten

-- Puts a phrase into parentheses.
def wrap (p : Phrase) : Phrase :=
  { p with
    opened := p.opened + 1
    pieces := ")" :: p.pieces }

def wrapIf (c : Bool) (p : Phrase) : Phrase :=
  if c then p.wrap else p

@[simp]
theorem text_ofText (t : Text) (n : Nat) : (ofText t n).text = t := by
  simp [ofText, text]

theorem text_wrap (p : Phrase) : p.wrap.text = p.text.parenthesized := by
  have h : Text.ofString "(" = [0x28] := by decide
  simp [wrap, text, Text.parenthesized, List.replicate_succ, h]

@[simp]
theorem text_wrapIf (c : Bool) (p : Phrase) : (p.wrapIf c).text = p.text.parenthesizedIf c := by
  cases c
  · rfl
  · exact p.text_wrap

-- Puts text behind a phrase.
def append (p : Phrase) (t : Text) (precedence : Nat) : Phrase :=
  { p with
    pieces := t :: p.pieces
    precedence := precedence }

@[simp]
theorem text_append (p : Phrase) (t : Text) (n : Nat) : (p.append t n).text = p.text ++ t := by
  simp [append, text]

-- Puts an operator and its right operand behind a phrase.
def extend (p : Phrase) (k : Link) : Except RenderError Phrase := do
  let own := k.op.precedence
  let left := p.wrapIf (p.precedence < own)
  let right := (← k.right ()).parenthesizedIf (k.precedence ≤ own)
  return left.append (s!" {k.op.spelling} " ++ right) own

def extendAll (p : Phrase) (links : List Link) : Except RenderError Text :=
  return (← links.foldlM extend p).text

end Phrase

mutual

-- The text of an expression behind which `links` follow. Chains of operators are walked down to
-- their first operand, and their text is put together on the way back.
def Expr.formatWith (names : Names) : Expr δ → List Phrase.Link → Except RenderError Text
  | .literal _ value, links => do
    (Phrase.ofText (← value.format) Expr.atomic).extendAll links
  | .unary _ op e, links => do
    let operand ← e.formatWith names []
    let parens := e.precedence < Expr.atomic || e.isUnary
    (Phrase.ofText (op.spelling ++ operand.parenthesizedIf parens) Expr.atomic).extendAll links
  | .binary _ op l r, links =>
    l.formatWith names (⟨op, r.precedence, fun _ => r.formatWith names []⟩ :: links)
  | .grouping _ e, links => do
    let inner ← e.formatWith names []
    (Phrase.ofText inner.parenthesized Expr.atomic).extendAll links
  | .cond _ c t e, links => do
    let test ← c.formatWith names []
    let yes ← t.formatWith names []
    let no ← e.formatWith names []
    let text := "if " ++ test ++ " \x7b " ++ yes ++ " \x7d else \x7b " ++ no ++ " \x7d"
    (Phrase.ofText text 0).extendAll links
  | .block _ (.mk _ ss), links => do
    let body ← formatStmts names ss
    (Phrase.ofText (Text.braced body) Expr.atomic).extendAll links
  | .strayBody _ _ body, _ => .error (.bodiless body.category)
  | .strayStmt _ s, _ => .error (.misplaced ⟨.expression, s.category⟩)
  | .strayBlock .., _ => .error (.misplaced ⟨.expression, .block⟩)
  | .strayAtom _ a, _ => .error (.misplaced ⟨.expression, .atom a⟩)

def Stmt.format (names : Names) : Stmt δ → Except RenderError Text
  | .declare _ ident type init => do
    let name ← names.name ident
    let type : Text ← match type with
      | none => .ok []
      | some type => (": " ++ ·) <$> names.name type
    let init : Text ← match init with
      | none => .ok []
      | some e => (" = " ++ ·) <$> e.formatWith names []
    return "let " ++ name ++ type ++ init ++ ";"
  | .assign _ ident value => do
    return (← names.name ident) ++ " = " ++ (← value.formatWith names []) ++ ";"
  | .discard _ e => do
    return (← e.formatWith names []) ++ ";"
  | .result _ e => e.formatWith names []
  | .strayExpr _ e => .error (.misplaced ⟨.statement, e.category⟩)
  | .strayBlock .. => .error (.misplaced ⟨.statement, .block⟩)
  | .strayAtom _ a => .error (.misplaced ⟨.statement, .atom a⟩)

def formatStmts (names : Names) : List (Stmt δ) → Except RenderError (List Text)
  | [] => .ok []
  | s :: ss => do
    return (← s.format names) :: (← formatStmts names ss)

end

-- The text of an expression, with parentheses of its own and where the tree needs them.
def Expr.format (names : Names) (e : Expr δ) : Except RenderError Text :=
  e.formatWith names []

end ExprLang
