import ExprLang.Proofs.Tree.Rows

/-!
What the row of a part tells. Lines of different categories start with different words, and the rest of a
line is the literal, the operator or the names of the part. So a row leaves nothing open but what is below
it, if numbers, names and blocks are as they are in the trees of sources.
-/
namespace ExprLang

open Word

-- A text with nothing in it by which a listing or a line is divided.
def Text.isUndivided (t : Text) : Bool :=
  t.all fun c => c != 0x0A && c != 0x3A && c != 0x40

-- The first word of a line.
def Text.firstWord (t : Text) : Text :=
  t.takeWhile (· ≠ 0x20)

-- What a declaration tells of its type.
def Text.typeSuffix : Option Text → Text
  | none => []
  | some t => ": " ++ t

-- A symbol that is written as an undivided text.
structure Names.Writes (names : Names) (x : Symbol) (t : Text) : Prop where
  name : names.name x = .ok t
  undivided : t.isUndivided

-- Symbols that are written as the same undivided text.
def Names.WriteAlike (names names' : Names) (x x' : Symbol) : Prop :=
  ∃ t, names.Writes x t ∧ names'.Writes x' t

-- A literal as it is read from a source.
def Literal.Natural : Literal Empty → Prop
  | .num n => 0 ≤ n ∧ Text.isWritable n
  | .bool _ => True

namespace Category

-- What the lines of a category start with.
def title : Category → Text
  | .literal => "Literal"
  | .unary => "Unary"
  | .binary => "Binary"
  | .grouping => "Grouping"
  | .cond => "If"
  | .blockExpr => "Block"
  | .declare => "Let"
  | .assign => "Assign"
  | .discard => "ExprStmt"
  | .result => "ExprWithoutSemi"
  | .block | .atom _ => ""

-- The categories for which there are lines.
def listed : List Category :=
  [.literal, .unary, .binary, .grouping, .cond, .blockExpr, .declare, .assign, .discard, .result]

theorem title_inj {c c' : Category} (h : c ∈ listed) (h' : c' ∈ listed) (ht : c.title = c'.title) :
    c = c' := by
  have table : ∀ c ∈ listed, ∀ c' ∈ listed, c.title = c'.title → c = c' := by decide
  exact table c h c' h' ht

end Category

namespace Node

def category : Node Empty → Category
  | .expr e => e.category
  | .stmt s => s.category
  | .block _ => .block

-- How a part has to be for its row to tell all of it.
def Clear (names : Names) : Node Empty → Prop
  | .expr (.literal _ v) => v.Natural
  | .expr (.block s b) => b.span = s
  | .expr _ => True
  | .stmt (.declare _ x type _) => ∃ t u, names.Writes x t ∧ Option.Rel names.Writes type u
  | .stmt (.assign _ x _) => ∃ t, names.Writes x t
  | .stmt _ => True
  | .block _ => False

end Node

variable {names names' : Names}

theorem Literal.format_num {n : Int} (h : (Literal.num n).Natural) :
    (Literal.num n : Literal Empty).format = .ok (Text.ofAscii (digits n.toNat)) := by
  rw [ofAscii_digits, Int.toNat_of_nonneg h.left]
  exact if_pos h.right

theorem Literal.Natural.exists_format {v : Literal Empty} (h : v.Natural) :
    ∃ t, v.format = .ok t ∧ t.isUndivided := by
  cases v with
  | loose ok => cases ok
  | bool b => cases b <;> exact ⟨_, rfl, rfl⟩
  | num n =>
    refine ⟨_, Literal.format_num h, ?_⟩
    rw [Text.isUndivided, List.all_eq_true]
    intro c hc
    have hd := digit_bounds hc
    simp only [Bool.and_eq_true, bne_iff_ne]
    refine ⟨⟨?_, ?_⟩, ?_⟩ <;> rintro rfl <;> exact absurd hd (by decide)

theorem Literal.Natural.format_inj {v v' : Literal Empty} (h : v.Natural) (h' : v'.Natural)
    (hf : v.format = v'.format) : v = v' := by
  -- A number starts with a digit, a truth value does not.
  have apart (n : Int) (hn : (num n).Natural) (b : Bool) :
      (Literal.num n : Literal Empty).format ≠ (Literal.bool b : Literal Empty).format := by
    rw [Literal.format_num hn]
    intro hb
    have hb : Text.ofAscii (digits n.toNat) = toString b := Except.ok.inj hb
    have hd (c : CodePoint) (hc : c ∈ (toString b : Text)) : 0x30 ≤ c.val ∧ c.val ≤ 0x39 :=
      digit_bounds (hb ▸ hc)
    cases b
    case false => exact absurd (hd 0x66 (.head _)) (by decide)
    case true => exact absurd (hd 0x74 (.head _)) (by decide)
  cases v with
  | loose ok => cases ok
  | num n =>
    cases v' with
    | loose ok => cases ok
    | bool b => exact absurd hf (apart n h b)
    | num n' =>
      rw [Literal.format_num h, Literal.format_num h'] at hf
      have hn := ofAscii_digits_inj (Except.ok.inj hf)
      have h : 0 ≤ n := h.left
      have h' : 0 ≤ n' := h'.left
      exact congrArg _ (by omega)
  | bool b =>
    cases v' with
    | loose ok => cases ok
    | num n => exact absurd hf.symm (apart n h' b)
    | bool b' =>
      cases b <;> cases b' <;> first | rfl | cases hf

-- A literal has a line, if it can be written.
theorem Expr.line_literal {s : Span} {v : Literal Empty} {t : Text} (h : v.format = .ok t) :
    (Expr.literal s v).line names = .ok ("Literal " ++ t) := by
  simp [Expr.line, h]

theorem BinOp.spelling_inj {op op' : BinOp} (h : (op.spelling : Text) = op'.spelling) : op = op' := by
  have table : ∀ op ∈ BinOp.all, ∀ op' ∈ BinOp.all, (op.spelling : Text) = op'.spelling → op = op' := by
    decide
  have mem (op : BinOp) : op ∈ BinOp.all := by cases op <;> decide
  exact table op (mem op) op' (mem op') h

namespace Text

variable {t t' : Text} {type type' : Option Text}

theorem all_of_isUndivided (h : t.isUndivided) : t.all fun c => c != 0x0A && c != 0x40 := by
  simp only [isUndivided, List.all_eq_true, Bool.and_eq_true] at h ⊢
  exact fun c hc => ⟨(h c hc).left.left, (h c hc).right⟩

theorem colon_not_mem (h : t.isUndivided) : 0x3A ∉ t := by
  simp only [isUndivided, List.all_eq_true, Bool.and_eq_true, bne_iff_ne] at h
  exact fun hc => (h _ hc).left.right rfl

-- An undivided name ends where its type begins.
theorem typeSuffix_inj (h : t.isUndivided) (h' : t'.isUndivided)
    (he : t ++ typeSuffix type = t' ++ typeSuffix type') : t = t' ∧ type = type' := by
  cases type with
  | none =>
    rw [typeSuffix, List.append_nil] at he
    subst he
    cases type' with
    | none => exact ⟨List.append_nil _, rfl⟩
    | some u' => exact absurd (List.mem_append_right _ (.head _)) (colon_not_mem h)
  | some u =>
    cases type' with
    | none =>
      have he : t ++ typeSuffix (some u) = t' := he.trans (List.append_nil t')
      subst he
      exact absurd (List.mem_append_right _ (.head _)) (colon_not_mem h')
    | some u' =>
      obtain ⟨ht, hu⟩ := append_cons_inj (colon_not_mem h) (colon_not_mem h') he
      exact ⟨ht, congrArg some (List.append_cancel_left hu)⟩

end Text

theorem Stmt.line_declare {s : Span} {x : Symbol} {type : Option Symbol} {init : Option Program}
    {t : Text} {u : Option Text} (hx : names.Writes x t) (ht : Option.Rel names.Writes type u) :
    (Stmt.declare s x type init).line names = .ok ("Let " ++ (t ++ Text.typeSuffix u)) := by
  cases ht with
  | none => simp [Stmt.line, hx.name, Text.typeSuffix]
  | some ht =>
    simp only [Stmt.line, hx.name, ht.name, List.append_assoc]
    rfl

theorem Stmt.line_assign {s : Span} {x : Symbol} {e : Program} {t : Text} (hx : names.Writes x t) :
    (Stmt.assign s x e).line names = .ok ("Assign " ++ t) := by
  simp [Stmt.line, hx.name]

namespace Node.Clear

variable {n : Node Empty}

theorem listed (h : n.Clear names) : n.category ∈ Category.listed := by
  cases n with
  | block => cases h
  | expr e =>
    cases e with
    | strayBody ok | strayStmt ok | strayBlock ok | strayAtom ok => cases ok
    | _ => simp [category, Expr.category, Category.listed]
  | stmt s =>
    cases s with
    | strayExpr ok | strayBlock ok | strayAtom ok => cases ok
    | _ => simp [category, Stmt.category, Category.listed]

-- A clear part has a line, which starts with the title of its category.
theorem line (h : n.Clear names) :
    ∃ t, n.line names = .ok t ∧ t.isHeading ∧ t.firstWord = n.category.title := by
  cases n with
  | block => cases h
  | expr e =>
    cases e with
    | strayBody ok | strayStmt ok | strayBlock ok | strayAtom ok => cases ok
    | literal s v =>
      have ⟨t, hf, ht⟩ := Literal.Natural.exists_format h
      have hl : (Expr.literal s v).line names = .ok ("Literal " ++ t) := Expr.line_literal hf
      exact ⟨_, hl, Text.isHeading_append rfl (Text.all_of_isUndivided ht), rfl⟩
    | unary _ op => exact ⟨_, rfl, by cases op; decide, rfl⟩
    | binary _ op => exact ⟨_, rfl, by cases op <;> decide, rfl⟩
    | grouping | cond | block => exact ⟨_, rfl, rfl, rfl⟩
  | stmt s =>
    cases s with
    | strayExpr ok | strayBlock ok | strayAtom ok => cases ok
    | discard | result => exact ⟨_, rfl, rfl, rfl⟩
    | assign s x e =>
      have ⟨t, hx⟩ := h
      have hl : (Stmt.assign s x e).line names = .ok ("Assign " ++ t) := Stmt.line_assign hx
      exact ⟨_, hl, Text.isHeading_append rfl (Text.all_of_isUndivided hx.undivided), rfl⟩
    | declare s x type init =>
      have ⟨t, u, hx, ht⟩ := h
      have hl : (Stmt.declare s x type init).line names = _ := Stmt.line_declare hx ht
      refine ⟨_, hl, Text.isHeading_append rfl ?_, rfl⟩
      rw [List.all_append, Text.all_of_isUndivided hx.undivided, Bool.true_and]
      cases ht with
      | none => rfl
      | some ht => exact List.all_append.trans (Text.all_of_isUndivided ht.undivided)

end Node.Clear

-- Parts that are clear and that stand on one level, with the same lines and spans.
structure Pending.Told (names names' : Names) (p p' : Pending Empty) : Prop where
  row : SameRow names names' p p'
  left : p.node.Clear names
  right : p'.node.Clear names'

theorem Pending.Told.category {p p' : Pending Empty} (h : Told names names' p p') :
    p.node.category = p'.node.category := by
  have ⟨t, hl, _, ht⟩ := h.left.line
  have ⟨t', hl', _, ht'⟩ := h.right.line
  obtain rfl := Except.ok.inj (hl.symm.trans (h.row.line.trans hl'))
  exact Category.title_inj h.left.listed h.right.listed (ht.symm.trans ht')

-- Expressions that differ by what is below them only.
inductive Expr.Agree : Program → Program → Prop
  | literal : Agree (.literal s v) (.literal s v)
  | unary : Agree (.unary s op e) (.unary s op e')
  | binary : Agree (.binary s op l r) (.binary s op l' r')
  | grouping : Agree (.grouping s e) (.grouping s e')
  | cond : Agree (.cond s c t e) (.cond s c' t' e')
  | block : Agree (.block s (.mk s ss)) (.block s (.mk s ss'))

-- Statements that differ by what is below them only.
inductive Stmt.Agree (names names' : Names) : Stmt Empty → Stmt Empty → Prop
  | declare (hx : names.WriteAlike names' x x') (ht : Option.Rel (names.WriteAlike names') type type') :
    Agree names names' (.declare s x type init) (.declare s x' type' init')
  | assign (hx : names.WriteAlike names' x x') : Agree names names' (.assign s x e) (.assign s x' e')
  | discard : Agree names names' (.discard s e) (.discard s e')
  | result : Agree names names' (.result s e) (.result s e')

section

variable {k k' : Nat}

-- The row of an expression tells all of it but what is below it.
theorem Expr.agree_of_told {e e' : Program}
    (h : Pending.Told names names' ⟨.expr e, k⟩ ⟨.expr e', k'⟩) : Expr.Agree e e' := by
  have hc : e.category = e'.category := h.category
  have hs : e.span = e'.span := h.row.span
  have hl : e.line names = e'.line names' := h.row.line
  cases e with
  | strayBody ok | strayStmt ok | strayBlock ok | strayAtom ok => cases ok
  | literal s v =>
    cases e' with
    | strayBody ok | strayStmt ok | strayBlock ok | strayAtom ok => cases ok
    | literal s' v' =>
      obtain rfl : s = s' := hs
      have ⟨t, hf, _⟩ := h.left.exists_format
      have ⟨t', hf', _⟩ := h.right.exists_format
      rw [Expr.line_literal hf, Expr.line_literal hf'] at hl
      obtain rfl := List.append_cancel_left (Except.ok.inj hl)
      obtain rfl := h.left.format_inj h.right (hf.trans hf'.symm)
      exact .literal
    | _ => cases hc
  | unary s op e =>
    cases e' with
    | strayBody ok | strayStmt ok | strayBlock ok | strayAtom ok => cases ok
    | unary s' op' e' =>
      obtain rfl : s = s' := hs
      cases op
      cases op'
      exact .unary
    | _ => cases hc
  | binary s op l r =>
    cases e' with
    | strayBody ok | strayStmt ok | strayBlock ok | strayAtom ok => cases ok
    | binary s' op' l' r' =>
      obtain rfl : s = s' := hs
      obtain rfl := BinOp.spelling_inj (List.append_cancel_left (Except.ok.inj hl))
      exact .binary
    | _ => cases hc
  | grouping s e =>
    cases e' with
    | strayBody ok | strayStmt ok | strayBlock ok | strayAtom ok => cases ok
    | grouping s' e' =>
      obtain rfl : s = s' := hs
      exact .grouping
    | _ => cases hc
  | cond s c t e =>
    cases e' with
    | strayBody ok | strayStmt ok | strayBlock ok | strayAtom ok => cases ok
    | cond s' c' t' e' =>
      obtain rfl : s = s' := hs
      exact .cond
    | _ => cases hc
  | block s b =>
    cases e' with
    | strayBody ok | strayStmt ok | strayBlock ok | strayAtom ok => cases ok
    | block s' b' =>
      obtain rfl : s = s' := hs
      obtain ⟨s₁, ss⟩ := b
      obtain ⟨s₂, ss'⟩ := b'
      obtain rfl : s₁ = s := h.left
      obtain rfl : s₂ = s₁ := h.right
      exact .block
    | _ => cases hc

-- The row of a statement tells all of it but what is below it.
theorem Stmt.agree_of_told {s s' : Stmt Empty}
    (h : Pending.Told names names' ⟨.stmt s, k⟩ ⟨.stmt s', k'⟩) : Stmt.Agree names names' s s' := by
  have hc : s.category = s'.category := h.category
  have hs : s.span = s'.span := h.row.span
  have hl : s.line names = s'.line names' := h.row.line
  cases s with
  | strayExpr ok | strayBlock ok | strayAtom ok => cases ok
  | declare s x type init =>
    cases s' with
    | strayExpr ok | strayBlock ok | strayAtom ok => cases ok
    | declare s' x' type' init' =>
      obtain rfl : s = s' := hs
      have ⟨t, u, hx, ht⟩ := h.left
      have ⟨t', u', hx', ht'⟩ := h.right
      rw [Stmt.line_declare hx ht, Stmt.line_declare hx' ht'] at hl
      obtain ⟨rfl, rfl⟩ := Text.typeSuffix_inj hx.undivided hx'.undivided
        (List.append_cancel_left (Except.ok.inj hl))
      refine .declare ⟨_, hx, hx'⟩ ?_
      cases ht with
      | none =>
        cases ht'
        exact .none
      | some ht =>
        cases ht' with
        | some ht' => exact .some ⟨_, ht, ht'⟩
    | _ => cases hc
  | assign s x e =>
    cases s' with
    | strayExpr ok | strayBlock ok | strayAtom ok => cases ok
    | assign s' x' e' =>
      obtain rfl : s = s' := hs
      have ⟨t, hx⟩ := h.left
      have ⟨t', hx'⟩ := h.right
      rw [Stmt.line_assign hx, Stmt.line_assign hx'] at hl
      obtain rfl := List.append_cancel_left (Except.ok.inj hl)
      exact .assign ⟨_, hx, hx'⟩
    | _ => cases hc
  | discard s e =>
    cases s' with
    | strayExpr ok | strayBlock ok | strayAtom ok => cases ok
    | discard s' e' =>
      obtain rfl : s = s' := hs
      exact .discard
    | _ => cases hc
  | result s e =>
    cases s' with
    | strayExpr ok | strayBlock ok | strayAtom ok => cases ok
    | result s' e' =>
      obtain rfl : s = s' := hs
      exact .result
    | _ => cases hc

end

end ExprLang
