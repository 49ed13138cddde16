import ExprLang.Proofs.Token.Word
import ExprLang.Proofs.Tree.Outline
import ExprLang.Text.Numeral

/-!
The grammar of the language as derivations of words, each with the outline that it describes. No
other words follow the ones of a derivation: `Stops` tells what can come behind it.
-/
namespace ExprLang

def Word.fixed (k : Token.Kind) : Word where
  kind := k
  text := k.bytes

def Word.number (digits : Bytes) : Word where
  kind := .number
  text := digits

def Word.ident (name : Bytes) : Word where
  kind := .ident
  text := name

@[simp]
theorem Word.fixed_inj {k k' : Token.Kind} : fixed k = fixed k' ↔ k = k' :=
  ⟨congrArg kind, congrArg fixed⟩

@[simp]
theorem Word.ident_inj {x y : Bytes} : ident x = ident y ↔ x = y :=
  ⟨congrArg text, congrArg ident⟩

-- The number that digits stand for.
def Word.decimal (digits : Bytes) : Nat :=
  Text.ofDigits (digits.map fun b => b.toNat - 0x30)

namespace Grammar

-- The tiers of operators, from the loosest to the tightest.
inductive Tier
  | equality
  | comparison
  | addition
  | multiplication
  deriving DecidableEq

-- What an expression can be derived from.
inductive Nonterminal
  | expr
  | tier (t : Tier)
  | unary
  | primary
  deriving DecidableEq

def Tier.level : Tier → Nat
  | .equality => 1
  | .comparison => 2
  | .addition => 3
  | .multiplication => 4

-- What the operators of a tier join.
def Tier.operand : Tier → Nonterminal
  | .equality => .tier .comparison
  | .comparison => .tier .addition
  | .addition => .tier .multiplication
  | .multiplication => .unary

end Grammar

open Grammar

def BinOp.tier : BinOp → Tier
  | .eq | .ne => .equality
  | .gt | .ge | .lt | .le => .comparison
  | .add | .sub => .addition
  | .mul | .div => .multiplication

-- The token that an operator is written as.
def BinOp.kind : BinOp → Token.Kind
  | .add => .plus
  | .sub => .minus
  | .mul => .star
  | .div => .slash
  | .eq => .eqEq
  | .ne => .bangEq
  | .gt => .gt
  | .ge => .gtEq
  | .lt => .lt
  | .le => .ltEq

theorem BinOp.isFixed_kind (op : BinOp) : op.kind.isFixed := by
  cases op <;> rfl

theorem BinOp.kind_injective {op op' : BinOp} (h : op.kind = op'.kind) : op = op' := by
  cases op <;> cases op' <;> trivial

namespace Grammar

open Word Outline

-- The type of a declaration.
inductive Annotation : List Word → Option Text → Prop
  | none : Annotation [] none
  | some : Annotation [fixed .colon, ident x] (some (.ofAscii x))

mutual

inductive Derives : Nonterminal → List Word → Outline → Prop
  | cond (hc : Derives .expr cs c) (ht : Derives .expr ts t) (he : Derives .expr es e) :
    Derives .expr
      (fixed .kwIf :: (cs ++ fixed .lbrace :: (ts ++ fixed .rbrace :: fixed .kwElse ::
        fixed .lbrace :: (es ++ [fixed .rbrace]))))
      (.cond c t e)
  | equality (h : Derives (.tier .equality) ws e) : Derives .expr ws e
  | chain (h : Derives tier.operand ws l) (hl : Links tier l ls e) : Derives (.tier tier) (ws ++ ls) e
  | neg (h : Derives .primary ws e) : Derives .unary (fixed .minus :: ws) (.neg e)
  | primary (h : Derives .primary ws e) : Derives .unary ws e
  | number : Derives .primary [number ds] (.num (decimal ds))
  | yes : Derives .primary [fixed .kwTrue] (.bool true)
  | no : Derives .primary [fixed .kwFalse] (.bool false)
  | grouping (h : Derives .expr ws e) :
    Derives .primary (fixed .lparen :: (ws ++ [fixed .rparen])) (.grouping e)
  | block (h : Body ws ss) : Derives .primary (fixed .lbrace :: ws) (.block ss)

-- Operators of a tier, each with its right operand, that follow a left operand.
inductive Links : Tier → (left : Outline) → List Word → Outline → Prop
  | nil : Links tier l [] l
  | cons (ho : op.tier = tier) (hr : Derives tier.operand ws r)
      (hl : Links tier (.binary op l r) ls e) : Links tier l (fixed op.kind :: (ws ++ ls)) e

-- The statements of a block with the brace that closes it. An expression without a semicolon stands
-- right before that brace.
inductive Body : List Word → List Item → Prop
  | close : Body [fixed .rbrace] []
  | item (hs : Statement ws s) (h : Body bs ss) : Body (ws ++ bs) (s :: ss)
  | result (h : Derives .expr ws e) : Body (ws ++ [fixed .rbrace]) [.result e]

inductive Statement : List Word → Item → Prop
  | declare (ht : Annotation ts type) (hi : Initial is init) :
    Statement (fixed .kwLet :: ident x :: (ts ++ (is ++ [fixed .semi])))
      (.declare (.ofAscii x) type init)
  | assign (h : Derives .expr ws e) :
    Statement (ident x :: fixed .eq :: (ws ++ [fixed .semi])) (.assign (.ofAscii x) e)
  | discard (h : Derives .expr ws e) : Statement (ws ++ [fixed .semi]) (.discard e)

-- The first value of a declaration.
inductive Initial : List Word → Option Outline → Prop
  | none : Initial [] none
  | some (h : Derives .expr ws e) : Initial (fixed .eq :: ws) (some e)

end

namespace Nonterminal

-- The kinds of words that what is derived can start with.
def starts : Nonterminal → List Token.Kind
  | .primary => [.number, .kwTrue, .kwFalse, .lparen, .lbrace]
  | .expr => [.kwIf, .minus, .number, .kwTrue, .kwFalse, .lparen, .lbrace]
  | .tier _ | .unary => [.minus, .number, .kwTrue, .kwFalse, .lparen, .lbrace]

-- Whether what is derived can go on with an operator.
def admits : Nonterminal → BinOp → Bool
  | .expr, _ => true
  | .tier t, op => t.level ≤ op.tier.level
  | .unary, _ | .primary, _ => false

theorem admits_of_operand (t : Tier) (op : BinOp) (h : t.operand.admits op) :
    (tier t).admits op := by
  cases t <;> cases op <;> trivial

theorem starts_operand (t : Tier) : t.operand.starts = (tier t).starts := by
  cases t <;> rfl

-- No expression starts with a word that starts another statement.
theorem not_mem_of_starts : ∀ k ∈ expr.starts, k ∉ [.kwLet, .ident, .kwFn, .kwReturn] := by
  decide

-- No statement starts with a word that ends a block.
theorem not_mem_of_statement : ∀ k ∈ .kwLet :: .ident :: expr.starts, k ∉ [.rbrace, .eof] := by
  decide

end Nonterminal

-- Nothing that could be a part of what was derived comes next.
def Stops (c : Nonterminal) (ws : List Word) : Prop :=
  ∀ w ∈ ws.head?, ∀ op : BinOp, w.kind = op.kind → c.admits op = false

namespace Stops

theorem unary (ws : List Word) : Stops .unary ws :=
  fun _ _ _ _ => rfl

theorem primary (ws : List Word) : Stops .primary ws :=
  fun _ _ _ _ => rfl

theorem of_kind {c : Nonterminal} {w : Word} {ws : List Word} (h : ∀ op : BinOp, w.kind ≠ op.kind) :
    Stops c (w :: ws) := by
  intro w' hw op ho
  cases hw
  exact absurd ho (h op)

theorem tier (h : Stops .expr ws) (t : Tier) : Stops (.tier t) ws := by
  intro w hw op ho
  have := h w hw op ho
  contradiction

theorem operand (h : Stops (.tier t) ws) : Stops t.operand ws := by
  intro w hw op ho
  have hl := h w hw op ho
  rw [Bool.eq_false_iff] at hl ⊢
  exact mt (Nonterminal.admits_of_operand t op) hl

theorem operand_fixed {op : BinOp} (h : op.tier = t) (ws : List Word) :
    Stops t.operand (fixed op.kind :: ws) := by
  intro w hw op' ho
  cases hw
  rw [←BinOp.kind_injective ho]
  subst h
  cases op <;> rfl

theorem not_fixed {op : BinOp} (h : op.tier = t) : ¬Stops (.tier t) (fixed op.kind :: ws) := by
  intro hs
  have ha := hs _ rfl op rfl
  subst h
  simp [Nonterminal.admits] at ha

-- The words behind a derivation that can never belong to it.
theorem close {c : Nonterminal} {k : Token.Kind} {ws : List Word}
    (h : k ∈ [.rparen, .lbrace, .rbrace, .semi, .kwElse, .eof]) : Stops c (fixed k :: ws) := by
  refine .of_kind fun op ho => ?_
  replace ho : k = op.kind := ho
  subst ho
  cases op <;> simp [BinOp.kind] at h

end Stops

theorem Links.nesting_le : Links t l ls e → l.nesting ≤ e.nesting
  | .nil => Nat.le_refl _
  | .cons _ _ h => Nat.le_trans (Nat.le_max_left ..) h.nesting_le

theorem Links.stops (h : Links t l ls e) (hr : Stops (.tier t) r) : Stops t.operand (ls ++ r) := by
  cases h with
  | nil => exact hr.operand
  | cons ho => exact .operand_fixed ho _

theorem Derives.starts (h : Derives c ws e) : ∃ w ws', ws = w :: ws' ∧ w.kind ∈ c.starts := by
  match h with
  | .cond .. | .neg _ | .yes | .no | .grouping .. | .block .. => exact ⟨_, _, rfl, by decide⟩
  | .number => exact ⟨_, _, rfl, .head _⟩
  | .equality h | .primary h =>
    have ⟨w, ws', hw, hk⟩ := h.starts
    exact ⟨w, ws', hw, .tail _ hk⟩
  | .chain h _ =>
    have ⟨w, ws', hw, hk⟩ := h.starts
    rw [Nonterminal.starts_operand] at hk
    exact ⟨w, _, by rw [hw, List.cons_append], hk⟩

theorem Derives.head_mem (h : Derives c ws e) (hw : w :: vs = ws ++ r) : w.kind ∈ c.starts := by
  have ⟨w', ws', hws, hk⟩ := h.starts
  rw [hws, List.cons_append, List.cons.injEq] at hw
  exact hw.left ▸ hk

-- Only a conditional starts with its keyword.
theorem Derives.not_kwIf (h : Derives (.tier t) (fixed .kwIf :: ws) e) : False := by
  have := h.head_mem (List.append_nil _).symm
  contradiction

theorem Statement.head_mem (h : Statement ws s) (hw : w :: vs = ws ++ r) :
    w.kind ∈ .kwLet :: .ident :: Nonterminal.expr.starts := by
  cases h with
  | declare =>
    cases hw
    exact .head _
  | assign =>
    cases hw
    exact .tail _ (.head _)
  | discard h =>
    rw [List.append_assoc] at hw
    exact .tail _ (.tail _ (h.head_mem hw))

theorem Initial.head_ne_colon (h : Initial is i) :
    ∀ w ∈ (is ++ fixed .semi :: r).head?, w.kind ≠ .colon := by
  cases h <;> simp [fixed]

end Grammar
end ExprLang
