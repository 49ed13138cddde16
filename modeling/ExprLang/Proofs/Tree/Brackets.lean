import ExprLang.Proofs.Tree.Words

/-!
The pairs of parentheses in the text of an outline, and where they come from: each is a group of the
outline or was added around a part.
-/
namespace ExprLang

open Token Word

def CodePoint.lparen : CodePoint := .ofChar '('

def CodePoint.rparen : CodePoint := .ofChar ')'

namespace Text

-- How many parentheses are open behind a text if `d` are open in front of it, unless it closes one
-- that is not open.
def balance (d : Nat) : Text → Option Nat
  | [] => some d
  | c :: t =>
    if c = .lparen then balance (d + 1) t
    else if c = .rparen then if d = 0 then none else balance (d - 1) t
    else balance d t

-- Each parenthesis of the text has its other one in the text.
def isBalanced (t : Text) : Bool :=
  t.balance 0 == some 0

-- A text without parentheses.
def isPlain (t : Text) : Bool :=
  t.all fun c => c ≠ .lparen && c ≠ .rparen

variable {t u : Text} {d e : Nat}

theorem balance_append (d : Nat) (t u : Text) :
    balance d (t ++ u) = (balance d t).bind (balance · u) := by
  fun_induction balance d t <;> simp_all [balance]

theorem balance_add (h : balance d t = some e) (k : Nat) : balance (d + k) t = some (e + k) := by
  fun_induction balance d t
  case case1 =>
    cases h
    rfl
  case case2 d t ih =>
    rw [balance, if_pos rfl, Nat.add_right_comm, ih h]
  case case3 => cases h
  case case4 d t _ hd ih =>
    have hk : d + k - 1 = d - 1 + k := by omega
    rw [balance, if_neg (by decide), if_pos rfl, if_neg (by omega), hk, ih h]
  case case5 hl hr ih => rw [balance, if_neg hl, if_neg hr, ih h]

theorem balance_of_isBalanced (h : t.isBalanced) (d : Nat) : balance d t = some d := by
  simpa using balance_add (beq_iff_eq.mp h) d

theorem isBalanced_append (ht : t.isBalanced) (hu : u.isBalanced) : (t ++ u).isBalanced := by
  simp only [isBalanced, balance_append, balance_of_isBalanced ht, Option.bind_some]
  exact hu

theorem parenthesized_eq (t : Text) : t.parenthesized = .lparen :: (t ++ [.rparen]) :=
  rfl

theorem isBalanced_parenthesized (h : t.isBalanced) : t.parenthesized.isBalanced := by
  rw [isBalanced, parenthesized_eq, balance, if_pos rfl, balance_append, balance_of_isBalanced h]
  rfl

theorem isBalanced_of_isPlain (h : t.isPlain) : t.isBalanced := by
  induction t with
  | nil => rfl
  | cons c t ih =>
    simp only [isPlain, List.all_cons, Bool.and_eq_true, decide_eq_true_eq] at h
    simp only [isBalanced, balance, if_neg h.left.left, if_neg h.left.right]
    exact ih h.right

-- A text that closes its parentheses does so still if more follows, up to the next that is closed.
theorem eq_nil_of_isBalanced {v w x : Text} (ht : t.isBalanced) (hx : (t ++ x).isBalanced)
    (h : .rparen :: v = x ++ .rparen :: w) : x = [] := by
  cases x with
  | nil => rfl
  | cons c x =>
    obtain ⟨rfl, _⟩ := List.cons.inj h
    rw [isBalanced, balance_append, balance_of_isBalanced ht] at hx
    cases hx

-- A parenthesis is closed in one place only.
theorem isBalanced_unique {v w : Text} (ht : t.isBalanced) (hu : u.isBalanced)
    (h : t ++ .rparen :: v = u ++ .rparen :: w) : t = u ∧ v = w := by
  rcases List.append_eq_append_iff.mp h with ⟨x, rfl, hx⟩ | ⟨x, rfl, hx⟩
  · obtain rfl := eq_nil_of_isBalanced ht hu hx
    exact ⟨(List.append_nil t).symm, (List.cons.inj hx).right⟩
  · obtain rfl := eq_nil_of_isBalanced hu ht hx
    exact ⟨List.append_nil u, (List.cons.inj hx).right.symm⟩

theorem isPlain_append (ht : t.isPlain) (hu : u.isPlain) : (t ++ u).isPlain := by
  rw [isPlain, List.all_append, Bool.and_eq_true]
  exact ⟨ht, hu⟩

theorem isPlain_ofAscii {bs : Bytes} (h : ∀ b ∈ bs, isWord b) : (ofAscii bs).isPlain := by
  have table : ∀ b : UInt8, isWord b →
      CodePoint.ofByte b ≠ .lparen ∧ CodePoint.ofByte b ≠ .rparen :=
    forall_byte (by decide +kernel)
  simp only [isPlain, ofAscii, List.all_map, List.all_eq_true, Function.comp_apply, Bool.and_eq_true,
    decide_eq_true_eq]
  exact fun b hb => table b (h b hb)

theorem isPlain_of_isName (h : t.isName) : t.isPlain := by
  simp only [isName, Kind.allows, Bool.and_eq_true] at h
  rw [←ofAscii_encode h.left]
  exact isPlain_ofAscii (Kind.isWord_of_isName h.right.left)

theorem isPlain_numeral (n : Nat) : isPlain (toString (n : Int)) := by
  have hd := isNumeral_digits n
  simp only [Kind.isNumeral, Bool.and_eq_true, List.all_eq_true] at hd
  rw [←ofAscii_digits]
  exact isPlain_ofAscii fun b hb => by simp [isWord, hd.right b hb]

end Text

-- A pair of parentheses in a text.
structure Brackets where
  before : Text
  inside : Text
  after : Text
  deriving DecidableEq

namespace Brackets

-- Where a pair of parentheses comes from.
inductive Origin
  | group
  | added
  deriving DecidableEq

-- The text with the pair.
def text (p : Brackets) : Text :=
  p.before ++ p.inside.parenthesized ++ p.after

-- The text without the pair.
def removed (p : Brackets) : Text :=
  p.before ++ p.inside ++ p.after

-- The pair in a longer text.
def between (p : Brackets) (before after : Text) : Brackets where
  before := before ++ p.before
  inside := p.inside
  after := p.after ++ after

theorem text_eq (p : Brackets) :
    p.text = p.before ++ .lparen :: (p.inside ++ .rparen :: p.after) := by
  simp [text, Text.parenthesized_eq]

theorem text_between (p : Brackets) (v w : Text) : (p.between v w).text = v ++ p.text ++ w := by
  simp [between, text]

theorem removed_between (p : Brackets) (v w : Text) :
    (p.between v w).removed = v ++ p.removed ++ w := by
  simp [between, removed]

end Brackets

-- A text with the pairs of parentheses in it.
structure Writing where
  text : Text
  brackets : Brackets.Origin → List Brackets

namespace Writing

open Brackets

def plain (t : Text) : Writing where
  text := t
  brackets _ := []

def append (v w : Writing) : Writing where
  text := v.text ++ w.text
  brackets o := (v.brackets o).map (·.between [] w.text) ++ (w.brackets o).map (·.between v.text [])

instance : Append Writing where
  append := append

def parenthesized (o : Origin) (w : Writing) : Writing where
  text := w.text.parenthesized
  brackets o' := (if o = o' then [⟨[], w.text, []⟩] else []) ++ (w.brackets o').map (·.between "(" ")")

def parenthesizedIf (c : Bool) (w : Writing) : Writing :=
  if c then w.parenthesized .added else w

def join : List Writing → Writing
  | [] => plain []
  | [w] => w
  | w :: ws => w ++ (plain " " ++ join ws)

def braced (ws : List Writing) : Writing :=
  if ws.isEmpty then plain "\x7b\x7d" else plain "\x7b " ++ join ws ++ plain " \x7d"

variable {v w : Writing} {ws : List Writing} {o : Origin}

theorem text_parenthesizedIf (c : Bool) (w : Writing) :
    (w.parenthesizedIf c).text = w.text.parenthesizedIf c := by
  cases c <;> rfl

theorem text_join : (ws : List Writing) → (join ws).text = Text.join " " (ws.map text)
  | [] | [_] => by simp [join, plain, Text.join]
  | w :: w' :: ws => by
    show w.text ++ (" " ++ (join (w' :: ws)).text) = _
    simp [text_join (w' :: ws), Text.join]

theorem text_braced (ws : List Writing) : (braced ws).text = Text.braced (ws.map text) := by
  cases ws with
  | nil => rfl
  | cons w ws =>
    show "\x7b " ++ (join (w :: ws)).text ++ " \x7d" = _
    rw [text_join]
    rfl

-- The pairs are those of the text, and all of them.
structure Faithful (w : Writing) : Prop where
  balanced : w.text.isBalanced
  sound : ∀ o, ∀ p ∈ w.brackets o, p.text = w.text ∧ p.inside.isBalanced
  complete : ∀ v u, w.text = v ++ .lparen :: u → ∃ o, ∃ p ∈ w.brackets o, p.before = v

namespace Faithful

theorem plain {t : Text} (h : t.isPlain) : Faithful (plain t) where
  balanced := Text.isBalanced_of_isPlain h
  sound := nofun
  complete v u ht := by
    simp only [Text.isPlain, List.all_eq_true] at h
    have := h .lparen (by simp [show t = _ from ht])
    simp at this

theorem append (hv : v.Faithful) (hw : w.Faithful) : (v ++ w).Faithful where
  balanced := Text.isBalanced_append hv.balanced hw.balanced
  sound o p hp := by
    cases List.mem_append.mp hp
    case inl hp =>
      have ⟨q, hq, hp⟩ := List.mem_map.mp hp
      have ⟨ht, hb⟩ := hv.sound o q hq
      rw [←hp, text_between, ht]
      exact ⟨rfl, hb⟩
    case inr hp =>
      have ⟨q, hq, hp⟩ := List.mem_map.mp hp
      have ⟨ht, hb⟩ := hw.sound o q hq
      rw [←hp, text_between, ht]
      exact ⟨List.append_nil _, hb⟩
  complete t u h := by
    rcases List.append_eq_append_iff.mp h with ⟨x, rfl, hx⟩ | ⟨x, hx, h⟩
    · have ⟨o, p, hp, hb⟩ := hw.complete x u hx
      refine ⟨o, _, List.mem_append_right _ (List.mem_map_of_mem hp), ?_⟩
      simp [between, hb]
    · cases x with
      | nil =>
        have ⟨o, p, hp, hb⟩ := hw.complete [] u h.symm
        refine ⟨o, _, List.mem_append_right _ (List.mem_map_of_mem hp), ?_⟩
        simp_all [between]
      | cons c x =>
        obtain ⟨rfl, _⟩ := List.cons.inj h
        have ⟨o, p, hp, hb⟩ := hv.complete t x hx
        refine ⟨o, _, List.mem_append_left _ (List.mem_map_of_mem hp), hb⟩

theorem after {t : Text} (hw : w.Faithful) (h : t.isPlain) : (Writing.plain t ++ w).Faithful :=
  (plain h).append hw

theorem parenthesized (h : w.Faithful) (o : Origin) : (w.parenthesized o).Faithful where
  balanced := Text.isBalanced_parenthesized h.balanced
  sound o' p hp := by
    cases List.mem_append.mp hp
    case inl hp =>
      split at hp
      · obtain rfl := List.mem_singleton.mp hp
        exact ⟨List.append_nil _, h.balanced⟩
      · cases hp
    case inr hp =>
      have ⟨q, hq, hp⟩ := List.mem_map.mp hp
      have ⟨ht, hb⟩ := h.sound o' q hq
      rw [←hp, text_between, ht]
      exact ⟨rfl, hb⟩
  complete t u ht := by
    cases t with
    | nil => exact ⟨o, _, List.mem_append_left _ (by rw [if_pos rfl]; exact .head _), rfl⟩
    | cons c t =>
      have ⟨hc, ht⟩ := List.cons.inj ((Text.parenthesized_eq _).symm.trans ht)
      rcases List.append_eq_append_iff.mp ht with ⟨x, _, hx⟩ | ⟨x, hw, hx⟩
      · cases x with
        | nil => exact absurd (List.cons.inj hx).left (by decide)
        | cons => simp at hx
      · cases x with
        | nil => cases hx
        | cons c x =>
          obtain ⟨rfl, _⟩ := List.cons.inj hx
          have ⟨o', p, hp, hb⟩ := h.complete t x hw
          refine ⟨o', _, List.mem_append_right _ (List.mem_map_of_mem hp), ?_⟩
          rw [between, hb, ←hc]
          rfl

theorem parenthesizedIf (h : w.Faithful) (c : Bool) : (w.parenthesizedIf c).Faithful := by
  cases c with
  | false => exact h
  | true => exact h.parenthesized .added

theorem join : {ws : List Writing} → (∀ w ∈ ws, w.Faithful) → (join ws).Faithful
  | [], _ => .plain rfl
  | [w], h => h w (.head _)
  | w :: w' :: ws, h =>
    (h w (.head _)).append ((join fun w hw => h w (.tail _ hw)).after (by decide))

theorem braced (h : ∀ w ∈ ws, w.Faithful) : (braced ws).Faithful := by
  cases ws with
  | nil => exact .plain (by decide)
  | cons w ws =>
    exact ((join h).after (by decide)).append (.plain (by decide))

-- Each pair of parentheses in the text is among the pairs.
theorem exists_origin (h : w.Faithful) {p : Brackets} (ht : p.text = w.text)
    (hp : p.inside.isBalanced) : ∃ o, p ∈ w.brackets o := by
  rw [text_eq] at ht
  have ⟨o, q, hq, hb⟩ := h.complete _ _ ht.symm
  have ⟨htq, hqb⟩ := h.sound o q hq
  rw [text_eq, ←ht, hb] at htq
  have ⟨hi, ha⟩ := Text.isBalanced_unique hqb hp (List.cons.inj (List.append_cancel_left htq)).right
  have hpq : q = p := by
    cases p
    cases q
    simp_all
  exact ⟨o, hpq ▸ hq⟩

end Faithful
end Writing

namespace Outline

mutual

-- The text of an outline with the parentheses in it.
def writing : Outline → Writing
  | .num n => .plain (toString n)
  | .bool b => .plain (toString b)
  | .neg e => .plain "-" ++ e.writing.parenthesizedIf (e.precedence < Expr.atomic || e.isNeg)
  | .binary op l r =>
    l.writing.parenthesizedIf (l.precedence < op.precedence) ++
      (.plain s!" {op.spelling} " ++ r.writing.parenthesizedIf (r.precedence ≤ op.precedence))
  | .grouping e => e.writing.parenthesized .group
  | .cond c t e =>
    .plain "if " ++ c.writing ++ .plain " \x7b " ++ t.writing ++ .plain " \x7d else \x7b " ++
      e.writing ++ .plain " \x7d"
  | .block ss => .braced (writings ss)

def Item.writing : Item → Writing
  | .declare name type init =>
    .plain ("let " ++ name ++ typeText type) ++ initWriting init ++ .plain ";"
  | .assign name e => .plain (name ++ " = ") ++ e.writing ++ .plain ";"
  | .discard e => e.writing ++ .plain ";"
  | .result e => e.writing

def writings : List Item → List Writing
  | [] => []
  | s :: ss => s.writing :: writings ss

def initWriting : Option Outline → Writing
  | none => .plain []
  | some e => .plain " = " ++ e.writing

end

mutual

theorem text_writing : (e : Outline) → e.writing.text = e.text
  | .num _ | .bool _ => rfl
  | .neg e => by
    show "-" ++ (Writing.parenthesizedIf _ e.writing).text = _
    rw [Writing.text_parenthesizedIf, e.text_writing]
    rfl
  | .binary op l r => by
    show (Writing.parenthesizedIf _ l.writing).text ++
      (s!" {op.spelling} " ++ (Writing.parenthesizedIf _ r.writing).text) = _
    rw [Writing.text_parenthesizedIf, Writing.text_parenthesizedIf, l.text_writing, r.text_writing]
    rfl
  | .grouping e => congrArg Text.parenthesized e.text_writing
  | .cond c t e => by
    show "if " ++ c.writing.text ++ " \x7b " ++ t.writing.text ++ " \x7d else \x7b " ++
      e.writing.text ++ " \x7d" = _
    rw [c.text_writing, t.text_writing, e.text_writing]
    rfl
  | .block ss => by
    show (Writing.braced (writings ss)).text = Text.braced (texts ss)
    rw [Writing.text_braced, texts_writings ss]

theorem Item.text_writing : (s : Item) → s.writing.text = s.text
  | .declare name type none => rfl
  | .declare name type (some e) => by
    show "let " ++ name ++ typeText type ++ (" = " ++ e.writing.text) ++ ";" = _
    rw [e.text_writing]
    rfl
  | .assign name e => by
    show name ++ " = " ++ e.writing.text ++ ";" = _
    rw [e.text_writing]
    rfl
  | .discard e => congrArg (· ++ (";" : Text)) e.text_writing
  | .result e => e.text_writing

theorem texts_writings : (ss : List Item) → (writings ss).map Writing.text = texts ss
  | [] => rfl
  | s :: ss => by rw [writings, List.map_cons, s.text_writing, texts_writings ss, texts]

end

theorem isPlain_declare {name : Text} {type : Option Text} (hn : name.isName)
    (ht : type.all Text.isName) : Text.isPlain ("let " ++ name ++ typeText type) := by
  have hl : Text.isPlain ("let " ++ name) := Text.isPlain_append (by decide) (Text.isPlain_of_isName hn)
  refine Text.isPlain_append hl ?_
  cases type with
  | none => rfl
  | some type => exact Text.isPlain_append (by decide) (Text.isPlain_of_isName ht)

mutual

-- The pairs of parentheses in the text of an outline are all of them.
theorem faithful_writing : (e : Outline) → e.isWritable → e.writing.Faithful
  | .num n, h => by
    simp only [isWritable, Bool.and_eq_true, decide_eq_true_eq] at h
    have hn := Text.isPlain_numeral n.toNat
    rw [Int.toNat_of_nonneg h.left] at hn
    exact .plain hn
  | .bool b, _ => .plain (by cases b <;> decide)
  | .neg e, h => ((e.faithful_writing h).parenthesizedIf _).after (by decide)
  | .binary op l r, h => by
    simp only [isWritable, Bool.and_eq_true] at h
    have ho : Text.isPlain (s!" {op.spelling} " : String) := by cases op <;> decide
    have hl := l.faithful_writing h.left
    have hr := r.faithful_writing h.right
    exact (hl.parenthesizedIf _).append ((hr.parenthesizedIf _).after ho)
  | .grouping e, h => (e.faithful_writing h).parenthesized .group
  | .cond c t e, h => by
    simp only [isWritable, Bool.and_eq_true] at h
    have plain (s : String) (h : Text.isPlain s := by decide) := Writing.Faithful.plain h
    have hc := (c.faithful_writing h.left.left).after (t := "if ") (by decide)
    have ht := (hc.append (plain " \x7b ")).append (t.faithful_writing h.left.right)
    have he := (ht.append (plain " \x7d else \x7b ")).append (e.faithful_writing h.right)
    exact he.append (plain " \x7d")
  | .block ss, h => .braced (faithful_writings ss h)

theorem Item.faithful_writing : (s : Item) → s.isWritable → s.writing.Faithful
  | .declare name type none, h => by
    simp only [Item.isWritable, Bool.and_eq_true] at h
    have hi : (initWriting none).Faithful := .plain rfl
    exact (hi.after (isPlain_declare h.left h.right)).append (.plain (by decide))
  | .declare name type (some e), h => by
    simp only [Item.isWritable, Bool.and_eq_true] at h
    have hi := (e.faithful_writing h.right).after (t := " = ") (by decide)
    exact (hi.after (isPlain_declare h.left.left h.left.right)).append (.plain (by decide))
  | .assign name e, h => by
    simp only [Item.isWritable, Bool.and_eq_true] at h
    have hn := Text.isPlain_append (Text.isPlain_of_isName h.left) (u := " = ") (by decide)
    exact ((e.faithful_writing h.right).after hn).append (.plain (by decide))
  | .discard e, h => (e.faithful_writing h).append (.plain (by decide))
  | .result e, h => e.faithful_writing h

theorem faithful_writings : (ss : List Item) → areWritable ss → ∀ w ∈ writings ss, w.Faithful
  | [], _ => nofun
  | s :: ss, h => by
    rw [areWritable, Bool.and_eq_true, Bool.and_eq_true] at h
    exact List.forall_mem_cons.mpr ⟨s.faithful_writing h.left.left, faithful_writings ss h.right⟩

end

end Outline

end ExprLang
