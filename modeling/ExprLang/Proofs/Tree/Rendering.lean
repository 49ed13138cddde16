import ExprLang.Proofs.Grammar.Relocated
import ExprLang.Tree.Encode

/-!
Trees that are alike are written alike. If their spans are the same and their symbols stand for the same
texts, then their canonical texts, their listings and their encodings are the same.
-/
namespace ExprLang

section

variable {R R' : Span → Span → Prop} {S S' : Symbol → Symbol → Prop}

mutual

theorem Expr.Alike.mono (hR : ∀ ⦃s s'⦄, R s s' → R' s s') (hS : ∀ ⦃x x'⦄, S x x' → S' x x') :
    Expr.Alike R S e e' → Expr.Alike R' S' e e'
  | .literal hs => .literal (hR hs)
  | .unary hs h => .unary (hR hs) (h.mono hR hS)
  | .binary hs hl hr => .binary (hR hs) (hl.mono hR hS) (hr.mono hR hS)
  | .grouping hs h => .grouping (hR hs) (h.mono hR hS)
  | .cond hs hc ht he => .cond (hR hs) (hc.mono hR hS) (ht.mono hR hS) (he.mono hR hS)
  | .block hs hb h => .block (hR hs) (hR hb) (h.mono hR hS)

theorem Stmts.Alike.mono (hR : ∀ ⦃s s'⦄, R s s' → R' s s') (hS : ∀ ⦃x x'⦄, S x x' → S' x x') :
    Stmts.Alike R S ss ss' → Stmts.Alike R' S' ss ss'
  | .nil => .nil
  | .cons hs h => .cons (hs.mono hR hS) (h.mono hR hS)

theorem Stmt.Alike.mono (hR : ∀ ⦃s s'⦄, R s s' → R' s s') (hS : ∀ ⦃x x'⦄, S x x' → S' x x') :
    Stmt.Alike R S s s' → Stmt.Alike R' S' s s'
  | .declare hs hx .none hi => .declare (hR hs) (hS hx) .none (hi.mono hR hS)
  | .declare hs hx (.some ht) hi => .declare (hR hs) (hS hx) (.some (hS ht)) (hi.mono hR hS)
  | .assign hs hx h => .assign (hR hs) (hS hx) (h.mono hR hS)
  | .discard hs h => .discard (hR hs) (h.mono hR hS)
  | .result hs h => .result (hR hs) (h.mono hR hS)

theorem Init.Alike.mono (hR : ∀ ⦃s s'⦄, R s s' → R' s s') (hS : ∀ ⦃x x'⦄, S x x' → S' x x') :
    Init.Alike R S init init' → Init.Alike R' S' init init'
  | .none => .none
  | .some h => .some (h.mono hR hS)

end
end

mutual

-- The symbols of a tree in the order in which they are written.
def Expr.symbols : Program → List Symbol
  | .literal .. => []
  | .unary _ _ e | .grouping _ e => e.symbols
  | .binary _ _ l r => l.symbols ++ r.symbols
  | .cond _ c t e => c.symbols ++ (t.symbols ++ e.symbols)
  | .block _ (.mk _ ss) => stmtsSymbols ss

def Stmt.symbols : Stmt Empty → List Symbol
  | .declare _ x type init => x :: (type.toList ++ initSymbols init)
  | .assign _ x e => x :: e.symbols
  | .discard _ e | .result _ e => e.symbols

def initSymbols : Option Program → List Symbol
  | none => []
  | some e => e.symbols

def stmtsSymbols : List (Stmt Empty) → List Symbol
  | [] => []
  | s :: ss => s.symbols ++ stmtsSymbols ss

end

def Literal.numbers : Literal Empty → List Int
  | .num n => [n]
  | .bool _ => []

mutual

-- The numbers of a tree in the order in which they are written.
def Expr.numbers : Program → List Int
  | .literal _ v => v.numbers
  | .unary _ _ e | .grouping _ e => e.numbers
  | .binary _ _ l r => l.numbers ++ r.numbers
  | .cond _ c t e => c.numbers ++ (t.numbers ++ e.numbers)
  | .block _ (.mk _ ss) => stmtsNumbers ss

def Stmt.numbers : Stmt Empty → List Int
  | .declare _ _ _ init => initNumbers init
  | .assign _ _ e | .discard _ e | .result _ e => e.numbers

def initNumbers : Option Program → List Int
  | none => []
  | some e => e.numbers

def stmtsNumbers : List (Stmt Empty) → List Int
  | [] => []
  | s :: ss => s.numbers ++ stmtsNumbers ss

end

section

variable {R : Span → Span → Prop} {S : Symbol → Symbol → Prop}

mutual

-- Alike trees have symbols in the same places.
theorem Expr.Alike.symbols : Expr.Alike R S e e' → List.Forall₂ S e.symbols e'.symbols
  | .literal _ => .nil
  | .unary _ h | .grouping _ h => h.symbols
  | .binary _ hl hr => List.rel_append hl.symbols hr.symbols
  | .cond _ hc ht he => List.rel_append hc.symbols (List.rel_append ht.symbols he.symbols)
  | .block _ _ h => h.symbols

theorem Stmts.Alike.symbols : Stmts.Alike R S ss ss' →
    List.Forall₂ S (stmtsSymbols ss) (stmtsSymbols ss')
  | .nil => .nil
  | .cons hs h => List.rel_append hs.symbols h.symbols

theorem Stmt.Alike.symbols : Stmt.Alike R S s s' → List.Forall₂ S s.symbols s'.symbols
  | .declare _ hx .none hi => .cons hx hi.symbols
  | .declare _ hx (.some ht) hi => .cons hx (.cons ht hi.symbols)
  | .assign _ hx h => .cons hx h.symbols
  | .discard _ h | .result _ h => h.symbols

theorem Init.Alike.symbols : Init.Alike R S init init' →
    List.Forall₂ S (initSymbols init) (initSymbols init')
  | .none => .nil
  | .some h => h.symbols

end
end

-- Symbols that are written alike.
def Names.SameName (names names' : Names) (x x' : Symbol) : Prop :=
  names.name x = names'.name x'

section

variable {R : Span → Span → Prop} {names names' : Names}

theorem Expr.Alike.precedence_eq {S : Symbol → Symbol → Prop} {e e' : Program}
    (h : Expr.Alike R S e e') : e.precedence = e'.precedence := by
  cases h <;> rfl

theorem Expr.Alike.isUnary_eq {S : Symbol → Symbol → Prop} {e e' : Program}
    (h : Expr.Alike R S e e') : e.isUnary = e'.isUnary := by
  cases h <;> rfl

mutual

-- The canonical text does not tell the spans.
theorem Expr.Alike.formatWith_eq : Expr.Alike R (names.SameName names') e e' →
    ∀ links, e.formatWith names links = e'.formatWith names' links
  | .literal _, links => by rw [Expr.formatWith, Expr.formatWith]
  | .unary _ h, links => by
    rw [Expr.formatWith, Expr.formatWith, h.formatWith_eq, h.precedence_eq, h.isUnary_eq]
  | .binary _ hl hr, links => by
    rw [Expr.formatWith, Expr.formatWith, hr.precedence_eq, hr.formatWith_eq, hl.formatWith_eq]
  | .grouping _ h, links => by rw [Expr.formatWith, Expr.formatWith, h.formatWith_eq]
  | .cond _ hc ht he, links => by
    rw [Expr.formatWith, Expr.formatWith, hc.formatWith_eq, ht.formatWith_eq, he.formatWith_eq]
  | .block _ _ h, links => by rw [Expr.formatWith, Expr.formatWith, h.format_eq]

theorem Stmts.Alike.format_eq : Stmts.Alike R (names.SameName names') ss ss' →
    formatStmts names ss = formatStmts names' ss'
  | .nil => rfl
  | .cons hs h => by rw [formatStmts, formatStmts, hs.format_eq, h.format_eq]

theorem Stmt.Alike.format_eq : Stmt.Alike R (names.SameName names') s s' →
    s.format names = s'.format names'
  | .declare _ hx ht hi => by
    have hx : names.name _ = names'.name _ := hx
    cases ht
    case none =>
      cases hi
      case none => simp only [Stmt.format, hx]
      case some h => simp only [Stmt.format, hx, h.formatWith_eq]
    case some ht =>
      have ht : names.name _ = names'.name _ := ht
      cases hi
      case none => simp only [Stmt.format, hx, ht]
      case some h => simp only [Stmt.format, hx, ht, h.formatWith_eq]
  | .assign _ hx h => by
    have hx : names.name _ = names'.name _ := hx
    rw [Stmt.format, Stmt.format, hx, h.formatWith_eq]
  | .discard _ h | .result _ h => by rw [Stmt.format, Stmt.format, h.formatWith_eq]

end

theorem Expr.Alike.format_eq {e e' : Program} (h : Expr.Alike R (names.SameName names') e e') :
    e.format names = e'.format names' :=
  h.formatWith_eq []

end

-- Parts of trees that are alike.
inductive Node.Alike (R : Span → Span → Prop) (S : Symbol → Symbol → Prop) :
    Node Empty → Node Empty → Prop
  | expr (h : Expr.Alike R S e e') : Node.Alike R S (.expr e) (.expr e')
  | stmt (h : Stmt.Alike R S s s') : Node.Alike R S (.stmt s) (.stmt s')
  | block (hs : R s s') (h : Stmts.Alike R S ss ss') :
    Node.Alike R S (.block (.mk s ss)) (.block (.mk s' ss'))

section

variable {R : Span → Span → Prop} {S : Symbol → Symbol → Prop}

theorem Stmts.Alike.forall₂ {ss ss' : List (Stmt Empty)} (h : Stmts.Alike R S ss ss') :
    List.Forall₂ (Stmt.Alike R S) ss ss' := by
  induction ss generalizing ss' with
  | nil =>
    cases h
    exact .nil
  | cons s ss ih =>
    cases h with
    | cons hs h => exact .cons hs (ih h)

theorem Stmts.Alike.nodes {ss ss' : List (Stmt Empty)} (h : Stmts.Alike R S ss ss') :
    List.Forall₂ (Node.Alike R S) (ss.map .stmt) (ss'.map .stmt) := by
  rw [List.forall₂_map_left_iff, List.forall₂_map_right_iff]
  exact h.forall₂.imp fun _ _ => .stmt

namespace Node.Alike

variable {n n' : Node Empty} (h : Node.Alike R S n n')
include h

theorem span : R n.span n'.span := by
  cases h with
  | expr h => exact h.span
  | stmt h => cases h <;> assumption
  | block hs => exact hs

theorem children : List.Forall₂ (Node.Alike R S) n.children n'.children := by
  cases h with
  | block => exact .nil
  | expr h =>
    cases h with
    | literal => exact .nil
    | unary _ h | grouping _ h => exact .cons (.expr h) .nil
    | binary _ hl hr => exact .cons (.expr hl) (.cons (.expr hr) .nil)
    | cond _ hc ht he => exact .cons (.expr hc) (.cons (.expr ht) (.cons (.expr he) .nil))
    | block _ _ h => exact h.nodes
  | stmt h =>
    cases h with
    | declare _ _ _ hi =>
      cases hi with
      | none => exact .nil
      | some h => exact .cons (.expr h) .nil
    | assign _ _ h | discard _ h | result _ h => exact .cons (.expr h) .nil

end Node.Alike

end

section

variable {names names' : Names}

theorem Node.Alike.line_eq {R : Span → Span → Prop} {n n' : Node Empty}
    (h : Node.Alike R (names.SameName names') n n') : n.line names = n'.line names' := by
  cases h with
  | block => rfl
  | expr h => cases h <;> rfl
  | stmt h =>
    cases h with
    | declare _ hx ht _ =>
      have hx : names.name _ = names'.name _ := hx
      cases ht with
      | none => simp only [Node.line, Stmt.line, hx]
      | some ht =>
        have ht : names.name _ = names'.name _ := ht
        simp only [Node.line, Stmt.line, hx, ht]
    | assign _ hx _ =>
      have hx : names.name _ = names'.name _ := hx
      simp only [Node.line, Stmt.line, hx]
    | discard | result => rfl

-- Parts that are alike and wait on the same level.
structure Pending.Alike (names names' : Names) (p p' : Pending Empty) : Prop where
  node : Node.Alike Eq (names.SameName names') p.node p'.node
  indent : p.indent = p'.indent

theorem Node.Alike.pending {n n' : Node Empty} (h : Node.Alike Eq (names.SameName names') n n')
    (indent : Nat) : List.Forall₂ (Pending.Alike names names') (n.children.map (⟨·, indent⟩))
      (n'.children.map (⟨·, indent⟩)) := by
  rw [List.forall₂_map_left_iff, List.forall₂_map_right_iff]
  exact h.children.imp fun _ _ hm => ⟨hm, rfl⟩

theorem dumpPending_eq {stack stack' : List (Pending Empty)}
    (h : List.Forall₂ (Pending.Alike names names') stack stack') :
    dumpPending names stack = dumpPending names' stack' := by
  fun_induction dumpPending names stack generalizing stack' with
  | case1 =>
    cases h
    rw [dumpPending]
  | case2 n indent stack ih =>
    cases h with
    | @cons _ p' _ stack' hp h =>
      obtain ⟨n', indent'⟩ := p'
      obtain ⟨hn, hi⟩ := hp
      dsimp only at hn hi
      subst hi
      rw [dumpPending, hn.line_eq, n.place_program, hn.span, ←n'.place_program,
        ih (List.rel_append (hn.pending _) h)]

theorem Expr.Alike.dump_eq {e e' : Program} (h : Expr.Alike Eq (names.SameName names') e e') :
    e.dump names = e'.dump names' := by
  have hl : e.lines names = e'.lines names' := dumpPending_eq (.cons ⟨.expr h, rfl⟩ .nil)
  rw [Expr.dump, Expr.dump, hl]

-- Steps of encoding alike trees.
inductive Task.Alike (S : Symbol → Symbol → Prop) : Task Empty → Task Empty → Prop
  | node (h : Node.Alike Eq S n n') : Task.Alike S (.node n) (.node n')
  | stmts (h : Stmts.Alike Eq S ss ss') : Task.Alike S (.stmts ss) (.stmts ss')
  | symbol (h : S x x') : Task.Alike S (.symbol x) (.symbol x')
  | value : Task.Alike S (.value j) (.value j)
  | object (hk : keys = keys') : Task.Alike S (.object head keys) (.object head keys')
  | array : Task.Alike S (.array length) (.array length)

-- Objects of the same category, over the same span and with the same keys, whose fields are alike.
inductive Shape.Alike (S : Symbol → Symbol → Prop) : Shape Empty → Shape Empty → Prop
  | object (hs : span = span') (hk : fields.map Prod.fst = fields'.map Prod.fst)
      (h : List.Forall₂ (Task.Alike S) (fields.map Prod.snd) (fields'.map Prod.snd)) :
    Shape.Alike S (.object category span fields) (.object category span' fields')

theorem Node.Alike.shape {S : Symbol → Symbol → Prop} {n n' : Node Empty}
    (h : Node.Alike Eq S n n') : Shape.Alike S n.shape n'.shape := by
  have node {e e' : Program} (h : Expr.Alike Eq S e e') :
      Task.Alike S (.node (.expr e)) (.node (.expr e')) := .node (.expr h)
  cases h with
  | block hs h => exact .object hs rfl (.cons (.stmts h) .nil)
  | expr h =>
    cases h with
    | literal hs => exact .object hs rfl (.cons .value (.cons .value .nil))
    | unary hs h => exact .object hs rfl (.cons .value (.cons (node h) .nil))
    | binary hs hl hr => exact .object hs rfl (.cons .value (.cons (node hl) (.cons (node hr) .nil)))
    | grouping hs h => exact .object hs rfl (.cons (node h) .nil)
    | cond hs hc ht he =>
      exact .object hs rfl (.cons (node hc) (.cons (node ht) (.cons (node he) .nil)))
    | block hs hb h => exact .object hs rfl (.cons (.node (.block hb h)) .nil)
  | stmt h =>
    cases h with
    | assign hs hx h => exact .object hs rfl (.cons (.symbol hx) (.cons (node h) .nil))
    | discard hs h | result hs h => exact .object hs rfl (.cons (node h) .nil)
    | declare hs hx ht hi =>
      refine .object hs rfl (.cons (.symbol hx) (.cons ?_ (.cons ?_ .nil)))
      · cases ht with
        | none => exact .value
        | some ht => exact .symbol ht
      · cases hi with
        | none => exact .value
        | some h => exact node h

theorem Stmts.Alike.tasks {S : Symbol → Symbol → Prop} {ss ss' : List (Stmt Empty)}
    (h : Stmts.Alike Eq S ss ss') :
    List.Forall₂ (Task.Alike S) (ss.map fun s => .node (.stmt s)) (ss'.map fun s => .node (.stmt s)) := by
  rw [List.forall₂_map_left_iff, List.forall₂_map_right_iff]
  exact h.forall₂.imp fun _ _ hs => .node (.stmt hs)

theorem Encoding.run_eq {spans : Bool} {tasks tasks' : List (Task Empty)} {done : List Json}
    (h : List.Forall₂ (Task.Alike (names.SameName names')) tasks tasks') :
    run ⟨names, spans⟩ tasks done = run ⟨names', spans⟩ tasks' done := by
  fun_induction run ⟨names, spans⟩ tasks done generalizing tasks'
  case case1 done =>
    cases h
    rw [run]
  case case2 j tasks done ih =>
    cases h with
    | cons ht h =>
      cases ht
      rw [run, ih h]
  case case3 x tasks done ih =>
    cases h with
    | cons ht h =>
      cases ht with
      | symbol hx =>
        have hx : names.name _ = names'.name _ := hx
        rw [run, hx]
        simp only [ih _ h]
  case case4 head keys tasks done ih =>
    cases h with
    | cons ht h =>
      cases ht with
      | object hk => rw [run, ih h, hk]
  case case5 length tasks done ih =>
    cases h with
    | cons ht h =>
      cases ht
      rw [run, ih h]
  case case6 ss tasks done ih =>
    rw [List.map_attach_eq_pmap, List.pmap_eq_map] at ih
    cases h with
    | cons ht h =>
      cases ht with
      | stmts hss =>
        have hl := hss.forall₂.length_eq
        rw [run, ih (List.rel_append (List.rel_reverse hss.tasks) (.cons .array h)), hl]
  case case7 n tasks done j hn ih =>
    cases h with
    | cons ht h =>
      cases ht with
      | node hm =>
        have hs := hm.shape
        rw [hn] at hs
        cases hs
  case case8 n tasks done category span fields hn object ih =>
    cases h with
    | @cons _ _ _ tasks' ht h =>
      cases ht with
      | node hm =>
        have hs := hm.shape
        rw [hn] at hs
        rw [run]
        split
        case h_1 hn' =>
          rw [hn'] at hs
          cases hs
        case h_2 hn' =>
          rw [hn'] at hs
          cases hs with
          | object hs hk hf =>
            subst hs
            exact ih (List.rel_append (List.rel_reverse hf) (.cons (.object hk) h))

theorem Expr.Alike.encode_eq {spans : Bool} {e e' : Program}
    (h : Expr.Alike Eq (names.SameName names') e e') :
    e.encode ⟨names, spans⟩ = e'.encode ⟨names', spans⟩ := by
  have ht : Task.Alike (names.SameName names') (.node (.expr e)) (.node (.expr e')) := .node (.expr h)
  rw [Expr.encode, Expr.encode, Node.encode, Node.encode, Encoding.run_eq (.cons ht .nil)]

end

end ExprLang
