import ExprLang.Proofs.Grammar.Located
import ExprLang.Proofs.Parser.Soundness

/-!
Levels of trees. The parts of a tree that open a level are listed in the order of the source, each with
the number of levels that are open inside it. They start where tokens of the tree start, one behind the
other.
-/
namespace ExprLang

open Token

-- A part of a tree that starts with an opening token, at a level.
structure Construct where
  opening : Parser.Opening
  span : Span
  level : Nat

-- The token that a part starts with.
structure Construct.StartsAt (c : Construct) (t : Token) : Prop where
  kind : t.kind = c.opening.kind
  lo : t.span.lo = c.span.lo

mutual

-- What opens a level in a tree that has `n` levels around it.
def Expr.constructs (n : Nat) : Program → List Construct
  | .literal .. => []
  | .unary span _ e => ⟨.minus, span, n + 1⟩ :: e.constructs (n + 1)
  | .binary _ _ l r => l.constructs n ++ r.constructs n
  | .grouping span e => ⟨.paren, span, n + 1⟩ :: e.constructs (n + 1)
  | .cond span c t e =>
    ⟨.cond, span, n + 1⟩ ::
      (c.constructs (n + 1) ++ (t.constructs (n + 1) ++ e.constructs (n + 1)))
  | .block span (.mk _ ss) => ⟨.brace, span, n + 1⟩ :: stmtsConstructs (n + 1) ss

def Stmt.constructs (n : Nat) : Stmt Empty → List Construct
  | .declare _ _ _ init => initConstructs n init
  | .assign _ _ e | .discard _ e | .result _ e => e.constructs n

def initConstructs (n : Nat) : Option Program → List Construct
  | none => []
  | some e => e.constructs n

def stmtsConstructs (n : Nat) : List (Stmt Empty) → List Construct
  | [] => []
  | s :: ss => s.constructs n ++ stmtsConstructs n ss

end

mutual

-- The number of levels that a tree opens one inside the other.
def Expr.nesting : Program → Nat
  | .literal .. => 0
  | .unary _ _ e | .grouping _ e => e.nesting + 1
  | .binary _ _ l r => max l.nesting r.nesting
  | .cond _ c t e => max c.nesting (max t.nesting e.nesting) + 1
  | .block _ (.mk _ ss) => stmtsNesting ss + 1

def Stmt.nesting : Stmt Empty → Nat
  | .declare _ _ _ init => initNesting init
  | .assign _ _ e | .discard _ e | .result _ e => e.nesting

def initNesting : Option Program → Nat
  | none => 0
  | some e => e.nesting

def stmtsNesting : List (Stmt Empty) → Nat
  | [] => 0
  | s :: ss => max s.nesting (stmtsNesting ss)

end

-- One more level around what opens `m` levels.
theorem Construct.opened_le_iff {o : Parser.Opening} {span : Span} {m n k : Nat}
    {cs : List Construct} (h : ∀ k, m ≤ k ↔ ∀ c ∈ cs, c.level ≤ n + 1 + k) :
    m + 1 ≤ k ↔ ∀ c ∈ ⟨o, span, n + 1⟩ :: cs, c.level ≤ n + k := by
  rw [List.forall_mem_cons]
  cases k with
  | zero => simp
  | succ k =>
    rw [Nat.add_le_add_iff_right, h k, Nat.add_right_comm n 1 k, Nat.add_assoc n k 1]
    simp

mutual

-- A tree opens as many levels as the deepest of its parts.
theorem Expr.nesting_le_iff (n k : Nat) :
    (e : Program) → (e.nesting ≤ k ↔ ∀ c ∈ e.constructs n, c.level ≤ n + k)
  | .literal .. => by simp [Expr.nesting, Expr.constructs]
  | .unary _ _ e | .grouping _ e => Construct.opened_le_iff fun k => e.nesting_le_iff (n + 1) k
  | .binary _ _ l r => by
    simp only [Expr.nesting, Expr.constructs, List.forall_mem_append, Nat.max_le]
    rw [l.nesting_le_iff n k, r.nesting_le_iff n k]
  | .cond _ c t e => by
    refine Construct.opened_le_iff fun k => ?_
    simp only [List.forall_mem_append, Nat.max_le]
    rw [c.nesting_le_iff (n + 1) k, t.nesting_le_iff (n + 1) k, e.nesting_le_iff (n + 1) k]
  | .block _ (.mk _ ss) => Construct.opened_le_iff fun k => stmtsNesting_le_iff (n + 1) k ss

theorem Stmt.nesting_le_iff (n k : Nat) :
    (s : Stmt Empty) → (s.nesting ≤ k ↔ ∀ c ∈ s.constructs n, c.level ≤ n + k)
  | .declare _ _ _ init => initNesting_le_iff n k init
  | .assign _ _ e | .discard _ e | .result _ e => e.nesting_le_iff n k

theorem initNesting_le_iff (n k : Nat) :
    (init : Option Program) → (initNesting init ≤ k ↔ ∀ c ∈ initConstructs n init, c.level ≤ n + k)
  | none => by simp [initNesting, initConstructs]
  | some e => e.nesting_le_iff n k

theorem stmtsNesting_le_iff (n k : Nat) :
    (ss : List (Stmt Empty)) →
      (stmtsNesting ss ≤ k ↔ ∀ c ∈ stmtsConstructs n ss, c.level ≤ n + k)
  | [] => by simp [stmtsNesting, stmtsConstructs]
  | s :: ss => by
    simp only [stmtsNesting, stmtsConstructs, List.forall_mem_append, Nat.max_le]
    rw [s.nesting_le_iff n k, stmtsNesting_le_iff n k ss]

end

namespace Grammar

variable {word : Token → Word} {name : Symbol → Option Text}

-- What opens levels starts with some of the tokens, in their order.
def Starts (cs : List Construct) (ts : List Token) : Prop :=
  Ordered ts → (cs.map (·.span.lo)).Sublist (ts.map (·.span.lo))

namespace Starts

variable {cs ds : List Construct} {ts us : List Token} {t : Token}

theorem nil (ts : List Token) : Starts [] ts :=
  fun _ => List.nil_sublist _

theorem append (h : Starts cs ts) (h' : Starts ds us) : Starts (cs ++ ds) (ts ++ us) := by
  intro ho
  have ⟨ht, hu, _⟩ := List.pairwise_append.mp ho
  rw [List.map_append, List.map_append]
  exact (h ht).append (h' hu)

-- A token that opens nothing.
theorem skip (h : Starts cs ts) : Starts cs (t :: ts) :=
  fun ho => (h (List.pairwise_cons.mp ho).right).cons _

theorem close (h : Starts cs ts) : Starts cs (ts ++ [t]) := by
  rw [←List.append_nil cs]
  exact h.append (.nil _)

theorem opened {o : Parser.Opening} {s : Span} {n : Nat} (hs : Ordered (t :: ts) → Hull (t :: ts) s)
    (h : Starts cs ts) : Starts (⟨o, s, n⟩ :: cs) (t :: ts) := by
  intro ho
  have ⟨_, ht, hlo⟩ := (hs ho).lo
  cases ht
  rw [List.map_cons, List.map_cons, hlo]
  exact (h (List.pairwise_cons.mp ho).right).cons_cons _

end Starts

mutual

theorem Located.starts (n : Nat) : (h : Located word name c ts e u) → Starts (e.constructs n) ts
  | .number _ _ | .yes _ | .no _ => .nil _
  | .neg hc ho h => .opened (Located.neg hc ho h).hull (h.starts (n + 1))
  | .binary _ hl _ hr => (hl.starts n).append (hr.starts n).skip
  | .grouping ho h hk =>
    .opened (Located.grouping (c := .expr) ho h hk).hull (h.starts (n + 1)).close
  | .cond hi hc ho ht hk hl ho' he hk' => by
    refine .opened (Located.cond hi hc ho ht hk hl ho' he hk').hull ?_
    refine (hc.starts (n + 1)).append (.skip ?_)
    exact (ht.starts (n + 1)).append (he.starts (n + 1)).close.skip.skip.skip
  | .block ho h hk => .opened (Located.block (c := .expr) ho h hk).hull (h.starts (n + 1)).close

theorem LocatedBody.starts (n : Nat) :
    LocatedBody word name ts ss us → Starts (stmtsConstructs n ss) ts
  | .nil => .nil _
  | .cons hs _ h => (hs.starts n).append (h.starts n)

theorem LocatedStmt.starts (n : Nat) : LocatedStmt word name ts s u → Starts (s.constructs n) ts
  | .declare _ _ _ _ ht hi _ => ((Starts.nil _).append (hi.starts n).close).skip.skip
  | .assign _ _ _ _ h _ => (h.starts n).close.skip.skip
  | .discard h _ => (h.starts n).close
  | .result h => h.starts n

theorem LocatedInit.starts (n : Nat) :
    LocatedInit word name ts init init' → Starts (initConstructs n init) ts
  | .none => .nil _
  | .some _ h => (h.starts n).skip

end

end Grammar
end ExprLang
