import ExprLang.Proofs.Tree.Rendering
import ExprLang.Proofs.Tree.Writing

/-!
Texts that are assembled from the texts of the parts, one operator after the other. Walking down a chain of
operators and back comes to the same, also where a part of the tree cannot be written.
-/
namespace ExprLang

variable {δ : Type} {names : Names}

-- How tightly an operator binds.
def BinOp.tightness (op : BinOp) : WithBot ℕ∞ :=
  (op.precedence : ℕ∞)

-- How tightly an expression binds: a conditional less than any operator between operands, and what is
-- neither of these more.
def Expr.tightness : Expr δ → WithBot ℕ∞
  | .binary _ op _ _ => op.tightness
  | .cond .. => ⊥
  | _ => ⊤

-- The type of a declaration, if it has one.
def Names.annotation (names : Names) : Option Symbol → Except RenderError Text
  | none => .ok []
  | some type => do
    let name ← names.name type
    return ": " ++ name

mutual

-- The text of an expression. The left operand of an operator is in parentheses if it binds less tightly
-- than the operator, and the right one if it does not bind more tightly.
def Expr.assemble (names : Names) : Expr δ → Except RenderError Text
  | .literal _ value => value.format
  | .unary _ op e => do
    let operand ← e.assemble names
    return op.spelling ++ operand.parenthesizedIf (e.tightness < ⊤ || e.isUnary)
  | .binary _ op l r => do
    let left ← l.assemble names
    let right ← r.assemble names
    return left.parenthesizedIf (l.tightness < op.tightness) ++ s!" {op.spelling} " ++
      right.parenthesizedIf (r.tightness ≤ op.tightness)
  | .grouping _ e => do
    let inner ← e.assemble names
    return inner.parenthesized
  | .cond _ c t e => do
    let test ← c.assemble names
    let yes ← t.assemble names
    let no ← e.assemble names
    return "if " ++ test ++ " \x7b " ++ yes ++ " \x7d else \x7b " ++ no ++ " \x7d"
  | .block _ (.mk _ ss) => do
    let body ← assembleStmts names ss
    return Text.braced body
  | .strayBody _ _ body => .error (.bodiless body.category)
  | .strayStmt _ s => .error (.misplaced ⟨.expression, s.category⟩)
  | .strayBlock .. => .error (.misplaced ⟨.expression, .block⟩)
  | .strayAtom _ a => .error (.misplaced ⟨.expression, .atom a⟩)

def Stmt.assemble (names : Names) : Stmt δ → Except RenderError Text
  | .declare _ ident type init => do
    let name ← names.name ident
    let type ← names.annotation type
    let init ← assembleInit names init
    return "let " ++ name ++ type ++ init ++ ";"
  | .assign _ ident value => do
    let name ← names.name ident
    let value ← value.assemble names
    return name ++ " = " ++ value ++ ";"
  | .discard _ e => do
    let value ← e.assemble names
    return value ++ ";"
  | .result _ e => e.assemble names
  | .strayExpr _ e => .error (.misplaced ⟨.statement, e.category⟩)
  | .strayBlock .. => .error (.misplaced ⟨.statement, .block⟩)
  | .strayAtom _ a => .error (.misplaced ⟨.statement, .atom a⟩)

def assembleInit (names : Names) : Option (Expr δ) → Except RenderError Text
  | none => .ok []
  | some e => do
    let value ← e.assemble names
    return " = " ++ value

def assembleStmts (names : Names) : List (Stmt δ) → Except RenderError (List Text)
  | [] => .ok []
  | s :: ss => do
    let first ← s.assemble names
    let others ← assembleStmts names ss
    return first :: others

end

namespace BinOp

variable (op op' : BinOp)

theorem precedence_pos : 0 < op.precedence := by
  cases op <;> decide

theorem precedence_lt_atomic : op.precedence < Expr.atomic := by
  cases op <;> decide

theorem tightness_lt_top : op.tightness < ⊤ :=
  WithBot.coe_lt_coe.mpr (ENat.natCast_lt_top _)

theorem bot_lt_tightness : ⊥ < op.tightness :=
  WithBot.bot_lt_coe _

theorem tightness_lt_iff : op.tightness < op'.tightness ↔ op.precedence < op'.precedence := by
  simp [tightness]

end BinOp

namespace Expr

variable (e : Expr δ) (op : BinOp)

-- Precedences are numbers that have conditionals below all operators and the operators below all else.
theorem tightness_lt_iff : e.tightness < op.tightness ↔ e.precedence < op.precedence := by
  cases e with
  | binary _ op' => exact op'.tightness_lt_iff op
  | cond => exact iff_of_true op.bot_lt_tightness op.precedence_pos
  | _ => exact iff_of_false op.tightness_lt_top.le.not_gt op.precedence_lt_atomic.le.not_gt

theorem tightness_le_iff : e.tightness ≤ op.tightness ↔ e.precedence ≤ op.precedence := by
  cases e with
  | binary _ op' => exact le_iff_le_iff_lt_iff_lt.mpr (op.tightness_lt_iff op')
  | cond => exact iff_of_true op.bot_lt_tightness.le op.precedence_pos.le
  | _ => exact iff_of_false op.tightness_lt_top.not_ge op.precedence_lt_atomic.not_ge

theorem tightness_lt_top_iff : e.tightness < ⊤ ↔ e.precedence < atomic := by
  cases e with
  | binary _ op => exact iff_of_true op.tightness_lt_top op.precedence_lt_atomic
  | cond => exact iff_of_true (WithBot.bot_lt_coe _) (Nat.succ_pos 4)
  | _ => exact iff_of_false (lt_irrefl _) (lt_irrefl _)

end Expr

namespace Phrase

-- Only the text and the precedence of what comes before matter to the rest of a chain.
theorem extendAll_congr {p q : Phrase} (ht : p.text = q.text) (hp : p.precedence = q.precedence)
    (links : List Link) : p.extendAll links = q.extendAll links := by
  induction links generalizing p q with
  | nil => exact congrArg Except.ok ht
  | cons k links ih =>
    rw [extendAll_link, extendAll_link]
    refine bind_congr fun right => ih ?_ rfl
    rw [text_append, text_append, text_wrapIf, text_wrapIf, ht, hp]

-- What `f` writes in front of the rest of a chain is `x`, which binds with precedence `n`.
def Continues (f : List Link → Except RenderError Text) (x : Except RenderError Text) (n : Nat) : Prop :=
  ∀ links, f links = x >>= fun t => (ofText t n).extendAll links

theorem Continues.nil {f : List Link → Except RenderError Text} {x : Except RenderError Text} {n : Nat}
    (h : Continues f x n) : f [] = x := by
  rw [h]
  simp [extendAll]

end Phrase

mutual

-- By induction on the tree, for all that can follow it: the links that pile up on the way down a chain are
-- those that follow its left operand.
theorem Expr.formatWith_continues : (e : Expr δ) →
    Phrase.Continues (e.formatWith names) (e.assemble names) e.precedence
  | .literal .. => fun _ => by
    rw [Expr.formatWith, Expr.assemble]
    rfl
  | .unary _ op e => fun _ => by
    rw [Expr.formatWith, Expr.assemble, e.formatWith_continues.nil, bind_assoc]
    refine bind_congr fun operand => ?_
    simp only [e.tightness_lt_top_iff]
    rfl
  | .binary _ op l r => fun links => by
    rw [Expr.formatWith, l.formatWith_continues, Expr.assemble, bind_assoc]
    refine bind_congr fun left => ?_
    rw [Phrase.extendAll_link, r.formatWith_continues.nil, bind_assoc]
    refine bind_congr fun right => ?_
    rw [pure_bind]
    refine Phrase.extendAll_congr ?_ ?_ links
    case refine_2 => rfl
    simp only [Phrase.text_append, Phrase.text_wrapIf, Phrase.text_ofText, l.tightness_lt_iff,
      r.tightness_le_iff, List.append_assoc]
    rfl
  | .grouping _ e => fun _ => by
    rw [Expr.formatWith, Expr.assemble, e.formatWith_continues.nil, bind_assoc]
    rfl
  | .cond _ c t e => fun _ => by
    rw [Expr.formatWith, Expr.assemble, c.formatWith_continues.nil, t.formatWith_continues.nil,
      e.formatWith_continues.nil]
    simp only [bind_assoc]
    rfl
  | .block _ (.mk _ ss) => fun _ => by
    rw [Expr.formatWith, Expr.assemble, formatStmts_assemble ss, bind_assoc]
    rfl
  | .strayBody .. | .strayStmt .. | .strayBlock .. | .strayAtom .. => fun _ => by
    rw [Expr.formatWith, Expr.assemble]
    rfl

theorem Stmt.format_assemble : (s : Stmt δ) → s.format names = s.assemble names
  | .declare _ _ type none => by
    rw [Stmt.format, Stmt.assemble]
    cases type <;> rfl
  | .declare _ _ type (some e) => by
    rw [Stmt.format, Stmt.assemble, assembleInit, ←e.formatWith_continues.nil]
    cases type <;> rfl
  | .assign _ _ e | .discard _ e | .result _ e => by
    rw [Stmt.format, Stmt.assemble, e.formatWith_continues.nil]
  | .strayExpr .. | .strayBlock .. | .strayAtom .. => by rw [Stmt.format, Stmt.assemble]

theorem formatStmts_assemble : (ss : List (Stmt δ)) → formatStmts names ss = assembleStmts names ss
  | [] => rfl
  | s :: ss => by rw [formatStmts, assembleStmts, s.format_assemble, formatStmts_assemble ss]

end

theorem Expr.format_eq_assemble (e : Expr δ) : e.format names = e.assemble names :=
  e.formatWith_continues.nil

section

variable {ε α β : Type} {x : Except ε α} {b c : Bool}

theorem isOk_bind {f : α → Except ε β} (hx : x.isOk = b) (hf : ∀ a, (f a).isOk = c) :
    (x >>= f).isOk = (b && c) := by
  cases x with
  | error =>
    cases hx
    rfl
  | ok a =>
    cases hx
    exact (hf a).trans c.true_and.symm

theorem isOk_map {f : α → β} (hx : x.isOk = b) : (x >>= fun a => pure (f a)).isOk = b := by
  rw [isOk_bind hx (c := true) fun _ => rfl, Bool.and_true]

theorem isOk_iff : x.isOk ↔ ∃ a, x = .ok a := by
  cases x <;> simp [Except.isOk, Except.toBool]

end

namespace Names

-- Whether a symbol can be written.
def hasName (names : Names) (x : Symbol) : Bool :=
  (names.name x).isOk

theorem isOk_annotation (names : Names) (type : Option Symbol) :
    (names.annotation type).isOk = type.toList.all names.hasName := by
  cases type with
  | none => rfl
  | some x => exact (isOk_map rfl).trans (Bool.and_true _).symm

end Names

theorem Text.isOk_decimal (n : Int) : (decimal n).isOk = isWritable n := by
  rw [decimal]
  split
  case isTrue h => exact h.symm
  case isFalse h => exact (Bool.eq_false_iff.mpr h).symm

theorem Literal.isOk_format (v : Literal Empty) : v.format.isOk = v.numbers.all Text.isWritable := by
  cases v with
  | loose ok => cases ok
  | bool => rfl
  | num n => exact (Text.isOk_decimal n).trans (Bool.and_true _).symm

mutual

-- A program can be written if all numbers and all symbols in it can.
theorem Expr.isOk_assemble : (e : Program) →
    (e.assemble names).isOk = (e.numbers.all Text.isWritable && e.symbols.all names.hasName)
  | .literal _ v => by
    rw [Expr.assemble]
    exact v.isOk_format.trans (Bool.and_true _).symm
  | .unary _ _ e | .grouping _ e => by
    rw [Expr.assemble]
    exact isOk_map e.isOk_assemble
  | .binary _ _ l r => by
    rw [Expr.assemble, isOk_bind l.isOk_assemble fun _ => isOk_map r.isOk_assemble, Expr.numbers,
      Expr.symbols, List.all_append, List.all_append]
    ac_rfl
  | .cond _ c t e => by
    rw [Expr.assemble, isOk_bind c.isOk_assemble fun _ => isOk_bind t.isOk_assemble fun _ =>
      isOk_map e.isOk_assemble, Expr.numbers, Expr.symbols]
    simp only [List.all_append]
    ac_rfl
  | .block _ (.mk _ ss) => by
    rw [Expr.assemble]
    exact isOk_map (isOk_assembleStmts ss)

theorem Stmt.isOk_assemble : (s : Stmt Empty) →
    (s.assemble names).isOk = (s.numbers.all Text.isWritable && s.symbols.all names.hasName)
  | .declare _ x type init => by
    rw [Stmt.assemble, isOk_bind (b := names.hasName x) rfl fun _ =>
      isOk_bind (names.isOk_annotation type) fun _ => isOk_map (isOk_assembleInit init), Stmt.numbers,
      Stmt.symbols, List.all_cons, List.all_append]
    ac_rfl
  | .assign _ x e => by
    rw [Stmt.assemble, isOk_bind (b := names.hasName x) rfl fun _ => isOk_map e.isOk_assemble,
      Stmt.numbers, Stmt.symbols, List.all_cons]
    ac_rfl
  | .discard _ e => by
    rw [Stmt.assemble]
    exact isOk_map e.isOk_assemble
  | .result _ e => by
    rw [Stmt.assemble]
    exact e.isOk_assemble

theorem isOk_assembleInit : (init : Option Program) → (assembleInit names init).isOk =
    ((initNumbers init).all Text.isWritable && (initSymbols init).all names.hasName)
  | none => rfl
  | some e => by
    rw [assembleInit]
    exact isOk_map e.isOk_assemble

theorem isOk_assembleStmts : (ss : List (Stmt Empty)) → (assembleStmts names ss).isOk =
    ((stmtsNumbers ss).all Text.isWritable && (stmtsSymbols ss).all names.hasName)
  | [] => rfl
  | s :: ss => by
    rw [assembleStmts, isOk_bind s.isOk_assemble fun _ => isOk_map (isOk_assembleStmts ss),
      stmtsNumbers, stmtsSymbols, List.all_append, List.all_append]
    ac_rfl

end

theorem Expr.format_ok_iff {e : Program} : (∃ t, e.format names = .ok t) ↔
    (∀ n ∈ e.numbers, Text.isWritable n) ∧ ∀ x ∈ e.symbols, ∃ t, names.name x = .ok t := by
  simp only [←isOk_iff, format_eq_assemble, isOk_assemble, Bool.and_eq_true, List.all_eq_true,
    Names.hasName]

-- A handle can be written if its number can.
theorem Names.handle_ok_iff {x : Symbol} : (∃ t, name none x = .ok t) ↔ Text.isWritable x.id := by
  rw [←isOk_iff, ←Text.isOk_decimal, name, isOk_map rfl]

-- What is written for a tree is assembled from its parts, and what cannot be written cannot be assembled
-- for the same reason. A program can be written if and only if all numbers in it are short enough and
-- all symbols have names, or handles that are short enough if they are written by their handles.
theorem format_assembles :
    (∀ (δ : Type) (names : Names) (e : Expr δ), e.format names = e.assemble names) ∧
    (∀ (names : Names) (e : Program), (∃ t, e.format names = .ok t) ↔
      (∀ n ∈ e.numbers, Text.isWritable n) ∧ ∀ x ∈ e.symbols, ∃ t, names.name x = .ok t) ∧
    ∀ e : Program, (∃ t, e.format none = .ok t) ↔
      (∀ n ∈ e.numbers, Text.isWritable n) ∧ ∀ x ∈ e.symbols, Text.isWritable x.id := by
  refine ⟨fun δ names e => e.format_eq_assemble, fun names e => Expr.format_ok_iff, fun e => ?_⟩
  rw [Expr.format_ok_iff]
  simp only [Names.handle_ok_iff]

-- A chain through three tiers: the sum and the conditional need parentheses, the comparison does not.
example :
    let one : Program := .literal .dummy (.num 1)
    let sum : Program := .binary .dummy .add one one
    let product : Program := .binary .dummy .mul sum (.cond .dummy one one one)
    let e : Program := .binary .dummy .eq product (.binary .dummy .lt one one)
    e.assemble none = .ok "(1 + 1) * (if 1 \x7b 1 \x7d else \x7b 1 \x7d) == 1 < 1" := by
  decide +kernel

end ExprLang
