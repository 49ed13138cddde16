import ExprLang.Proofs.Tree.Words

/-!
The grammar and the text of outlines. The words of an outline are derived with its groups, and an
outline that was derived has all its groups already.
-/
namespace ExprLang

open Token Grammar Word Outline

namespace Grammar

-- What binds at least as tightly as a precedence.
def Nonterminal.ofPrecedence : Nat → Nonterminal
  | 0 => .expr
  | 1 => .tier .equality
  | 2 => .tier .comparison
  | 3 => .tier .addition
  | 4 => .tier .multiplication
  | _ => .unary

open Nonterminal

theorem ofPrecedence_op (op : BinOp) : ofPrecedence op.precedence = .tier op.tier := by
  cases op <;> rfl

theorem ofPrecedence_operand (op : BinOp) : ofPrecedence (op.precedence + 1) = op.tier.operand := by
  cases op <;> rfl

variable {ws ls rs vs : List Word} {e l r t : Outline} {n m : Nat}

-- An operand is a chain without operators.
theorem Derives.tier {τ : Tier} (h : Derives τ.operand ws e) : Derives (.tier τ) ws e := by
  have h := Derives.chain h .nil
  rwa [List.append_nil] at h

theorem Derives.loosen_succ : (n : Nat) → Derives (ofPrecedence (n + 1)) ws e →
    Derives (ofPrecedence n) ws e
  | 0, h => .equality h
  | 1, h => .tier (τ := .equality) h
  | 2, h => .tier (τ := .comparison) h
  | 3, h => .tier (τ := .addition) h
  | 4, h => .tier (τ := .multiplication) h
  | _ + 5, h => h

theorem Derives.loosen (hn : n ≤ m) (h : Derives (ofPrecedence m) ws e) :
    Derives (ofPrecedence n) ws e := by
  induction hn with
  | refl => exact h
  | step _ ih => exact ih h.loosen_succ

theorem Derives.ofPrecedence (h : Derives .primary ws e) (n : Nat) :
    Derives (ofPrecedence n) ws e :=
  have h : Derives (.ofPrecedence (n + 5)) ws e := .primary h
  h.loosen (Nat.le_add_right n 5)

theorem Links.snoc {τ : Tier} {op : BinOp} (ho : op.tier = τ) (hr : Derives τ.operand rs r) :
    {l e : Outline} → {ls : List Word} → Links τ l ls e →
    Links τ l (ls ++ fixed op.kind :: rs) (.binary op e r)
  | l, _, _, .nil => by
    have h := Links.cons (l := l) ho hr .nil
    rwa [List.append_nil] at h
  | _, _, _, .cons ho' hr' hl => by
    rw [List.cons_append, List.append_assoc]
    exact .cons ho' hr' (hl.snoc ho hr)

theorem Derives.binary {op : BinOp} (hl : Derives (.tier op.tier) ls l)
    (hr : Derives op.tier.operand rs r) :
    Derives (.tier op.tier) (ls ++ fixed op.kind :: rs) (.binary op l r) := by
  cases hl with
  | chain h hl =>
    rw [List.append_assoc]
    exact .chain h (hl.snoc rfl hr)

end Grammar

namespace Outline

open Nonterminal

-- What an outline is derived from.
def nonterminal : Outline → Nonterminal
  | .num _ | .bool _ | .grouping _ | .block _ => .primary
  | .neg _ => .unary
  | .binary op _ _ => .tier op.tier
  | .cond .. => .expr

variable {e : Outline}

theorem derives_precedence {ws : List Word} {t : Outline} (h : Derives e.nonterminal ws t) :
    Derives (ofPrecedence e.precedence) ws t := by
  cases e with
  | num | bool | grouping | block => exact .primary h
  | neg | cond => exact h
  | binary op => exact ofPrecedence_op op ▸ h

theorem derives_expr {ws : List Word} {t : Outline} (h : Derives e.nonterminal ws t) :
    Derives .expr ws t :=
  (derives_precedence h).loosen (Nat.zero_le _)

theorem derives_operand (n : Nat) (h : Derives e.nonterminal e.words e.grouped) :
    Derives (ofPrecedence n) (bracketedIf (e.precedence < n) e.words)
      (groupedIf (e.precedence < n) e.grouped) := by
  by_cases hn : e.precedence < n
  · simp only [hn, decide_true, bracketedIf, groupedIf, if_true]
    exact (Derives.grouping (derives_expr h)).ofPrecedence n
  · simp only [hn, decide_false, bracketedIf, groupedIf, Bool.false_eq_true, if_false]
    exact (derives_precedence h).loosen (Nat.not_lt.mp hn)

theorem derives_negated (h : Derives e.nonterminal e.words e.grouped) :
    Derives .primary (bracketedIf (e.precedence < Expr.atomic || e.isNeg) e.words)
      (groupedIf (e.precedence < Expr.atomic || e.isNeg) e.grouped) := by
  cases e with
  | num | bool | grouping | block => exact h
  | neg | cond => exact .grouping (derives_expr h)
  | binary op l r =>
    have ho : decide (op.precedence < Expr.atomic) = true := by cases op <;> rfl
    rw [precedence, ho]
    exact .grouping (derives_expr h)

theorem derives_left {l : Outline} (op : BinOp) (h : Derives l.nonterminal l.words l.grouped) :
    Derives (.tier op.tier) (bracketedIf (l.precedence < op.precedence) l.words)
      (groupedIf (l.precedence < op.precedence) l.grouped) :=
  ofPrecedence_op op ▸ derives_operand op.precedence h

theorem derives_right {r : Outline} (op : BinOp) (h : Derives r.nonterminal r.words r.grouped) :
    Derives op.tier.operand (bracketedIf (r.precedence ≤ op.precedence) r.words)
      (groupedIf (r.precedence ≤ op.precedence) r.grouped) := by
  have hr := derives_operand (op.precedence + 1) h
  simp only [Nat.lt_succ_iff] at hr
  exact ofPrecedence_operand op ▸ hr

theorem ofAscii_name {x : Text} (h : x.isName) : Text.ofAscii x.encode = x := by
  simp only [Text.isName, Bool.and_eq_true] at h
  exact Text.ofAscii_encode h.left

theorem annotated {type : Option Text} (h : type.all Text.isName) :
    Annotation (typeWords type) type := by
  cases type with
  | none => exact .none
  | some type =>
    have ht := Annotation.some (x := type.encode)
    rwa [ofAscii_name h] at ht

mutual

-- The words of an outline are derived with its groups.
theorem derives : (e : Outline) → e.isWritable → Derives e.nonterminal e.words e.grouped
  | .num n, h => by
    simp only [isWritable, Bool.and_eq_true, decide_eq_true_eq] at h
    have hd := @Derives.number (digits n.toNat)
    rwa [decimal_digits, Int.toNat_of_nonneg h.left] at hd
  | .bool true, _ => .yes
  | .bool false, _ => .no
  | .neg e, h => .neg (derives_negated (e.derives h))
  | .binary op l r, h => by
    simp only [isWritable, Bool.and_eq_true] at h
    exact (derives_left op (l.derives h.left)).binary (derives_right op (r.derives h.right))
  | .grouping e, h => .grouping (derives_expr (e.derives h))
  | .cond c t e, h => by
    simp only [isWritable, Bool.and_eq_true] at h
    have hc := derives_expr (c.derives h.left.left)
    have ht := derives_expr (t.derives h.left.right)
    have he := derives_expr (e.derives h.right)
    exact .cond hc ht he
  | .block ss, h => .block (body ss h)

theorem Item.statement : (s : Item) → s.isWritable → s.isResult = false → Statement s.words s.grouped
  | .declare name type none, h, _ => by
    simp only [Item.isWritable, Bool.and_eq_true] at h
    have hs := Statement.declare (x := name.encode) (annotated h.right) .none
    rwa [ofAscii_name h.left] at hs
  | .declare name type (some e), h, _ => by
    simp only [Item.isWritable, Bool.and_eq_true] at h
    have he := derives_expr (e.derives h.right)
    have hs := Statement.declare (x := name.encode) (annotated h.left.right) (.some he)
    rwa [ofAscii_name h.left.left] at hs
  | .assign name e, h, _ => by
    simp only [Item.isWritable, Bool.and_eq_true] at h
    have hs := Statement.assign (x := name.encode) (derives_expr (e.derives h.right))
    rwa [ofAscii_name h.left] at hs
  | .discard e, h, _ => .discard (derives_expr (e.derives h))

theorem Item.closing : (s : Item) → s.isWritable → s.isResult →
    Body (s.words ++ [fixed .rbrace]) [s.grouped]
  | .result e, h, _ => .result (derives_expr (e.derives h))

theorem body : (ss : List Item) → areWritable ss → Body (wordss ss ++ [fixed .rbrace]) (groupeds ss)
  | [], _ => .close
  | s :: ss, h => by
    simp only [areWritable, Bool.and_eq_true] at h
    have hb := body ss h.right
    cases hs : s.isResult with
    | false =>
      rw [wordss, List.append_assoc]
      exact .item (s.statement h.left.left hs) hb
    | true =>
      -- Nothing stands behind an expression without a semicolon.
      have hss : ss = [] := by simpa [hs] using h.left.right
      subst hss
      rw [wordss, wordss, List.append_nil]
      exact s.closing h.left.left hs

end

end Outline

namespace Grammar

def Nonterminal.precedence : Nonterminal → Nat
  | .expr => 0
  | .tier τ => τ.level
  | .unary | .primary => Expr.atomic

theorem precedence_operand (τ : Tier) : τ.operand.precedence = τ.level + 1 := by
  cases τ <;> rfl

-- A word as it can come from a source.
def Legal (w : Word) : Prop :=
  w.kind.allows w.text ∧ w.InRange

-- An outline that can be read back, stands where it can without parentheses, and needs none for its
-- parts.
structure Fits (c : Nonterminal) (e : Outline) : Prop where
  grouped_eq : e.grouped = e
  writable : e.isWritable
  binds : c.precedence ≤ e.precedence
  primary : c = .primary → e.isNeg = false

namespace Fits

variable {c e l r t : Outline} {op : BinOp} {τ : Tier}

theorem loosen {a b : Nonterminal} (h : Fits a e) (ha : b.precedence ≤ a.precedence)
    (hb : b ≠ .primary) : Fits b e where
  grouped_eq := h.grouped_eq
  writable := h.writable
  binds := Nat.le_trans ha h.binds
  primary h' := absurd h' hb

theorem neg (h : Fits .primary e) : Fits .unary (.neg e) where
  grouped_eq := by
    have hp : decide (e.precedence < Expr.atomic) = false := decide_eq_false (Nat.not_lt.mpr h.binds)
    rw [grouped, hp, h.primary rfl, h.grouped_eq]
    rfl
  writable := h.writable
  binds := Nat.le_refl _
  primary h' := nomatch h'

theorem binary (ho : op.tier = τ) (hl : Fits (.tier τ) l) (hr : Fits τ.operand r) :
    Fits (.tier τ) (.binary op l r) where
  grouped_eq := by
    have hp : op.precedence = τ.level := by subst ho; cases op <;> rfl
    have hbl : ¬l.precedence < op.precedence := Nat.not_lt.mpr (hp ▸ hl.binds)
    have hbr : ¬r.precedence ≤ op.precedence := by
      rw [hp, Nat.not_le, ←Nat.succ_le_iff, Nat.succ_eq_add_one, ←precedence_operand]
      exact hr.binds
    simp [grouped, hbl, hbr, groupedIf, hl.grouped_eq, hr.grouped_eq]
  writable := by simp [isWritable, hl.writable, hr.writable]
  binds := by subst ho; cases op <;> exact Nat.le_refl _
  primary h' := nomatch h'

theorem grouping (h : Fits .expr e) : Fits .primary (.grouping e) where
  grouped_eq := by simp only [grouped, h.grouped_eq]
  writable := h.writable
  binds := Nat.le_refl _
  primary _ := rfl

theorem cond (hc : Fits .expr c) (ht : Fits .expr t) (he : Fits .expr e) :
    Fits .expr (.cond c t e) where
  grouped_eq := by simp only [grouped, hc.grouped_eq, ht.grouped_eq, he.grouped_eq]
  writable := by simp [isWritable, hc.writable, ht.writable, he.writable]
  binds := Nat.zero_le _
  primary h' := nomatch h'

end Fits

-- A name that stands in a source is one that can be written.
theorem isName_of_legal {x : Bytes} (h : Legal (.ident x)) : (Text.ofAscii x).isName := by
  have ha : Kind.isName x := by
    have := h.left
    simp only [Word.ident, Kind.allows, Bool.and_eq_true] at this
    exact this.left
  have hx : ∀ b ∈ x, b < 0x80 := fun b => Kind.isName_ascii ha
  simp only [Text.isName, Text.isAscii_ofAscii hx, Text.encode_ofAscii hx, Bool.true_and]
  exact h.left

theorem Annotation.isName {ts : List Word} {type : Option Text} (h : Annotation ts type)
    (hw : ∀ w ∈ ts, Legal w) : type.all Text.isName := by
  cases h with
  | none => rfl
  | some => exact isName_of_legal (hw _ (.tail _ (.head _)))

-- The same of a statement with a semicolon.
structure FitsItem (s : Outline.Item) : Prop where
  grouped_eq : s.grouped = s
  writable : s.isWritable
  not_result : s.isResult = false

theorem FitsItem.declare {x : Text} {type : Option Text} {init : Option Outline} (hx : x.isName)
    (ht : type.all Text.isName) (hi : ∀ e ∈ init, Fits .expr e) :
    FitsItem (.declare x type init) := by
  cases init with
  | none => exact ⟨rfl, by simp [Item.isWritable, hx, ht], rfl⟩
  | some e =>
    have he := hi e rfl
    exact ⟨by rw [Item.grouped, he.grouped_eq], by simp [Item.isWritable, hx, ht, he.writable], rfl⟩

mutual

theorem Derives.fits : Derives c ws e → (∀ w ∈ ws, Legal w) → Fits c e
  | .cond hc ht he, h => by
    have ⟨hcs, h⟩ := List.forall_mem_append.mp (List.forall_mem_cons.mp h).right
    have ⟨hts, h⟩ := List.forall_mem_append.mp (List.forall_mem_cons.mp h).right
    simp only [List.forall_mem_cons] at h
    have ⟨hes, _⟩ := List.forall_mem_append.mp h.right.right.right
    exact .cond (hc.fits hcs) (ht.fits hts) (he.fits hes)
  | .equality hd, h => (hd.fits h).loosen (Nat.zero_le _) nofun
  | .chain hd hl, h => by
    have ⟨hws, hls⟩ := List.forall_mem_append.mp h
    refine hl.fits hls ((hd.fits hws).loosen ?_ nofun)
    rw [precedence_operand]
    exact Nat.le_succ _
  | .neg hd, h => .neg (hd.fits (List.forall_mem_cons.mp h).right)
  | .primary hd, h => (hd.fits h).loosen (Nat.le_refl _) nofun
  | .number, h => by
    have ⟨_, hr⟩ := h _ (.head _)
    refine ⟨rfl, ?_, Nat.le_refl _, fun _ => rfl⟩
    have hm := (hr rfl).right
    simp only [number] at hm
    simp [isWritable, hm]
  | .yes, _ => ⟨rfl, rfl, Nat.le_refl _, fun _ => rfl⟩
  | .no, _ => ⟨rfl, rfl, Nat.le_refl _, fun _ => rfl⟩
  | .grouping hd, h => by
    have ⟨hws, _⟩ := List.forall_mem_append.mp (List.forall_mem_cons.mp h).right
    exact .grouping (hd.fits hws)
  | .block hb, h => by
    have ⟨hg, hw⟩ := hb.fits (List.forall_mem_cons.mp h).right
    exact ⟨by rw [grouped, hg], hw, Nat.le_refl _, fun _ => rfl⟩

theorem Links.fits : Links τ l ls e → (∀ w ∈ ls, Legal w) → Fits (.tier τ) l → Fits (.tier τ) e
  | .nil, _, hl => hl
  | .cons ho hr hls, h, hl => by
    have ⟨hws, hvs⟩ := List.forall_mem_append.mp (List.forall_mem_cons.mp h).right
    exact hls.fits hvs (.binary ho hl (hr.fits hws))

theorem Body.fits : Body ws ss → (∀ w ∈ ws, Legal w) → groupeds ss = ss ∧ areWritable ss
  | .close, _ => ⟨rfl, rfl⟩
  | .item hs hb, h => by
    have ⟨hws, hbs⟩ := List.forall_mem_append.mp h
    have hs := hs.fits hws
    have ⟨hgs, hws⟩ := hb.fits hbs
    simp [groupeds, hs.grouped_eq, hgs, areWritable, hs.writable, hs.not_result, hws]
  | .result hd, h => by
    have he := hd.fits (List.forall_mem_append.mp h).left
    simp [groupeds, Item.grouped, he.grouped_eq, areWritable, Item.isWritable, he.writable]

theorem Statement.fits : Statement ws s → (∀ w ∈ ws, Legal w) → FitsItem s
  | .declare ht hi, h => by
    simp only [List.forall_mem_cons] at h
    have hn := isName_of_legal h.right.left
    have ⟨hts, h⟩ := List.forall_mem_append.mp h.right.right
    exact .declare hn (ht.isName hts) (hi.fits (List.forall_mem_append.mp h).left)
  | .assign hd, h => by
    simp only [List.forall_mem_cons] at h
    have hn := isName_of_legal h.left
    have he := hd.fits (List.forall_mem_append.mp h.right.right).left
    exact ⟨by rw [Item.grouped, he.grouped_eq], by simp [Item.isWritable, hn, he.writable], rfl⟩
  | .discard hd, h => by
    have he := hd.fits (List.forall_mem_append.mp h).left
    exact ⟨by rw [Item.grouped, he.grouped_eq], he.writable, rfl⟩

theorem Initial.fits : Initial ws init → (∀ w ∈ ws, Legal w) → ∀ e ∈ init, Fits .expr e
  | .none, _ => nofun
  | .some hd, h => by
    intro e he
    cases he
    exact hd.fits (List.forall_mem_cons.mp h).right

end

end Grammar
end ExprLang
