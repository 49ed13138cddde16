import ExprLang.Proofs.Tree.Groups

/-!
How deep in parentheses the words of a text stand. An outline can be told from these depths once it is
known apart from its groups, since a group that is missing leaves some word less deep.
-/
namespace ExprLang

open Token Word

namespace Word

-- How many parentheses are open at each of the words that are none, if there are `d` at first.
def depths (d : Nat) : List Word → List Nat
  | [] => []
  | w :: ws =>
    if w.kind = .lparen then depths (d + 1) ws
    else if w.kind = .rparen then depths (d - 1) ws
    else d :: depths d ws

-- Words that close all parentheses which they open, with the depths of those that are none.
def HasDepths (ws : List Word) (f : Nat → List Nat) : Prop :=
  ∀ d vs, depths d (ws ++ vs) = f d ++ depths d vs

namespace HasDepths

variable {ws vs : List Word} {f g : Nat → List Nat}

theorem nil : HasDepths [] fun _ => [] :=
  fun _ _ => rfl

theorem append (h : HasDepths ws f) (h' : HasDepths vs g) :
    HasDepths (ws ++ vs) fun d => f d ++ g d := by
  intro d us
  rw [List.append_assoc, h, h', List.append_assoc]

theorem word {w : Word} (hl : w.kind ≠ .lparen) (hr : w.kind ≠ .rparen) :
    HasDepths [w] fun d => [d] := by
  intro d vs
  simp [depths, hl, hr]

theorem bracketed (h : HasDepths ws f) : HasDepths (Outline.bracketed ws) fun d => f (d + 1) := by
  intro d vs
  show depths (d + 1) (ws ++ [fixed .rparen] ++ vs) = _
  rw [List.append_assoc, h]
  rfl

end HasDepths
end Word

namespace Text

-- A text that is read as words with certain depths where no token goes on behind it.
def Reads (t : Text) (f : Nat → List Nat) : Prop :=
  ∃ ws, Spells t ws ∧ HasDepths ws f

-- The same in front of any bytes.
def Leads (t : Text) (f : Nat → List Nat) : Prop :=
  ∃ ws, Opens t ws ∧ HasDepths ws f

variable {t u : Text} {f g : Nat → List Nat} {k : Kind}

theorem Reads.append (h : Reads t f) (h' : Reads u g) (hu : u.closes) :
    Reads (t ++ u) fun d => f d ++ g d :=
  have ⟨_, hs, hd⟩ := h
  have ⟨_, hs', hd'⟩ := h'
  ⟨_, hs.append hs' hu, hd.append hd'⟩

theorem Reads.leads (h : Reads t f) (h' : Leads u g) (hu : u.closes) :
    Leads (t ++ u) fun d => f d ++ g d :=
  have ⟨_, hs, hd⟩ := h
  have ⟨_, hs', hd'⟩ := h'
  ⟨_, hs.opens hs' hu, hd.append hd'⟩

theorem Leads.append (h : Leads t f) (h' : Reads u g) : Reads (t ++ u) fun d => f d ++ g d :=
  have ⟨_, hs, hd⟩ := h
  have ⟨_, hs', hd'⟩ := h'
  ⟨_, hs.append hs', hd.append hd'⟩

-- The same behind any text, unless there is nothing to read.
def Follows (t : Text) (f : Nat → List Nat) : Prop :=
  t = [] ∧ f = (fun _ => []) ∨ Reads t f ∧ t.closes

theorem Reads.follow (h : Reads t f) (h' : Follows u g) : Reads (t ++ u) fun d => f d ++ g d := by
  cases h'
  case inl h' =>
    obtain ⟨rfl, rfl⟩ := h'
    simpa only [List.append_nil] using h
  case inr h' => exact h.append h'.left h'.right

theorem Leads.blank : Leads " " fun _ => [] :=
  ⟨_, .blank, .nil⟩

-- A token with a blank behind it.
theorem Leads.spaced (hk : k.isFixed) {s : String} (hs : s = k.spelling ++ " ")
    (hl : k ≠ .lparen := by decide) (hr : k ≠ .rparen := by decide) : Leads s fun d => [d] :=
  ⟨_, .spaced hk hs, .word hl hr⟩

-- A token with blanks around it.
theorem Leads.between (hk : k.isFixed) {s : String} (hs : s = " " ++ k.spelling ++ " ")
    (hl : k ≠ .lparen := by decide) (hr : k ≠ .rparen := by decide) : Leads s fun d => [d] :=
  ⟨_, .between hk hs, .word hl hr⟩

theorem Reads.ident (h : t.isName) : Reads t fun d => [d] :=
  ⟨_, .ident h, .word (by simp [Word.ident]) (by simp [Word.ident])⟩

theorem Reads.semicolon (h : Reads t f) : Reads (t ++ (";" : Text)) fun d => f d ++ [d] :=
  have ⟨_, hs, hd⟩ := h
  ⟨_, hs.semicolon, hd.append (.word (by decide) (by decide))⟩

theorem Reads.brace (h : Reads t f) : Reads (t ++ (" \x7d" : Text)) fun d => f d ++ [d] :=
  have ⟨_, hs, hd⟩ := h
  ⟨_, hs.brace, hd.append (.word (by decide) (by decide))⟩

theorem Reads.parenthesized (h : Reads t f) : Reads t.parenthesized fun d => f (d + 1) :=
  have ⟨_, hs, hd⟩ := h
  ⟨_, hs.parenthesized, hd.bracketed⟩

end Text

namespace Outline

def typeDepths (d : Nat) : Option Text → List Nat
  | none => []
  | some _ => [d, d]

mutual

-- The depths of the words of an outline, in which only groups count.
def depths (d : Nat) : Outline → List Nat
  | .num _ | .bool _ => [d]
  | .neg e => [d] ++ e.depths d
  | .binary _ l r => l.depths d ++ ([d] ++ r.depths d)
  | .grouping e => e.depths (d + 1)
  | .cond c t e =>
    [d] ++ c.depths d ++ [d] ++ t.depths d ++ [d, d, d] ++ e.depths d ++ [d]
  | .block ss => [d] ++ depthss d ss ++ [d]

def Item.depths (d : Nat) : Item → List Nat
  | .declare _ type init => [d] ++ [d] ++ typeDepths d type ++ initDepths d init ++ [d]
  | .assign _ e => [d] ++ [d] ++ e.depths d ++ [d]
  | .discard e => e.depths d ++ [d]
  | .result e => e.depths d

def initDepths (d : Nat) : Option Outline → List Nat
  | none => []
  | some e => [d] ++ e.depths d

def depthss (d : Nat) : List Item → List Nat
  | [] => []
  | s :: ss => s.depths d ++ depthss d ss

end

open Text

-- A text that is written for an outline, with parentheses for its groups and no others. It can stand
-- behind a minus.
structure Written (v : Text) (e : Outline) : Prop where
  reads : v.Reads (e.depths ·)
  starts : Kind.minus.endsBefore v.encode

-- Only the first byte tells where a token ends.
theorem endsBefore_append {k : Kind} {v w : Text} (h : k.endsBefore v.encode)
    (h' : v.encode = [] → k.endsBefore w.encode) : k.endsBefore (v ++ w).encode := by
  rw [encode_append]
  cases hv : v.encode with
  | nil => exact h' hv
  | cons b bs =>
    rw [hv] at h
    exact h

theorem follows_type {type : Option Text} (h : type.all isName) :
    (typeText type).Follows (typeDepths · type) := by
  cases type with
  | none => exact .inl ⟨rfl, rfl⟩
  | some type =>
    refine .inr ⟨?_, closes_append (by decide) _⟩
    exact (Leads.spaced (k := .colon) (s := ": ") rfl rfl).append (.ident h)

namespace Written

variable {u v w : Text} {c e l r t : Outline} {s : Item} {ss : List Item}

-- Many texts start with a byte that no token goes on with.
theorem of_closes (h : v.Reads (e.depths ·)) (hv : v.closes) : Written v e :=
  ⟨h, endsBefore_of_closes hv _⟩

theorem num {n : Int} (h : (Outline.num n).isWritable) : Written (Outline.num n).text (.num n) :=
  ⟨⟨_, Outline.spells _ h, .word (by simp [Word.number]) (by simp [Word.number])⟩, endsBefore_minus h⟩

theorem bool (b : Bool) : Written (Outline.bool b).text (.bool b) := by
  refine ⟨⟨_, Outline.spells (.bool b) rfl, ?_⟩, endsBefore_minus (e := .bool b) rfl⟩
  cases b <;> exact .word (by decide) (by decide)

theorem neg (h : Written v e) : Written ("-" ++ v) (.neg e) := by
  have ⟨_, hs, hd⟩ := h.reads
  refine .of_closes ⟨_, hs.minus h.starts, ?_⟩ (closes_append (by decide) _)
  exact HasDepths.append (.word (w := fixed .minus) (by decide) (by decide)) hd

theorem binary (op : BinOp) (hl : Written u l) (hr : Written v r) :
    Written (u ++ (s!" {op.spelling} " ++ v)) (.binary op l r) where
  reads := by
    have ho : HasDepths [fixed op.kind] fun d => [d] := by
      cases op <;> exact .word (by decide) (by decide)
    have hr := Leads.append ⟨_, opens_op op, ho⟩ hr.reads
    exact hl.reads.append hr (closes_append (closes_op op) _)
  starts := endsBefore_append hl.starts fun _ => endsBefore_of_closes (closes_append (closes_op op) v) _

theorem grouping (h : Written v e) : Written v.parenthesized (.grouping e) := by
  refine .of_closes ?_ (closes_append (closes_append (by decide) _) _)
  exact h.reads.parenthesized

theorem cond (hc : Written u c) (ht : Written v t) (he : Written w e) :
    Written ("if " ++ u ++ " \x7b " ++ v ++ " \x7d else \x7b " ++ w ++ " \x7d") (.cond c t e) where
  reads := by
    have word (k : Kind) (hl : k ≠ .lparen) (hr : k ≠ .rparen) := HasDepths.word (w := fixed k) hl hr
    have hor : Leads " \x7d else \x7b " fun d => [d] ++ ([d] ++ [d]) := by
      refine ⟨_, opens_else, .append (word .rbrace ?_ ?_) ?_⟩
      · decide
      · decide
      · exact .append (word .kwElse (by decide) (by decide)) (word .lbrace (by decide) (by decide))
    have hc := (Leads.spaced (k := .kwIf) (s := "if ") rfl rfl).append hc.reads
    have ht := (hc.leads (.between (k := .lbrace) rfl rfl) (by decide)).append ht.reads
    exact ((ht.leads hor (by decide)).append he.reads).brace
  starts := by
    simp only [List.append_assoc]
    exact endsBefore_append (by decide) fun h => absurd h (by decide)

theorem emptyBlock : Written "\x7b\x7d" (.block []) := by
  refine .of_closes ⟨_, Outline.spells (.block []) rfl, ?_⟩ (by decide)
  exact .append (.word (w := fixed .lbrace) (by decide) (by decide))
    (.word (w := fixed .rbrace) (by decide) (by decide))

theorem block (h : v.Reads (depthss · ss)) : Written ("\x7b " ++ v ++ " \x7d") (.block ss) := by
  refine .of_closes ?_ (closes_append (closes_append (by decide) _) _)
  exact ((Leads.spaced (k := .lbrace) (s := "\x7b ") rfl rfl).append h).brace

-- A part with parentheses around it is a group.
theorem parenthesizedIf (h : Written v e) (c : Bool) :
    Written (v.parenthesizedIf c) (groupedIf c e) := by
  cases c with
  | false => exact h
  | true => exact h.grouping

theorem init (h : Written v e) : Follows (" = " ++ v) (initDepths · (some e)) := by
  refine .inr ⟨?_, closes_append (by decide) _⟩
  exact (Leads.between (k := .eq) (s := " = ") rfl rfl).append h.reads

end Written

section

variable {v : Text} {e : Outline} {x : Text}

theorem reads_assign (hx : x.isName) (h : Written v e) :
    (x ++ " = " ++ v ++ ";").Reads ((Item.assign x e).depths ·) := by
  have ho := (Reads.ident hx).leads (.between (k := .eq) (s := " = ") rfl rfl) (by decide)
  exact (ho.append h.reads).semicolon

theorem reads_declare {type : Option Text} {init : Option Outline} (hx : x.isName)
    (ht : type.all isName) (h : v.Follows (initDepths · init)) :
    ("let " ++ x ++ typeText type ++ v ++ ";").Reads ((Item.declare x type init).depths ·) := by
  have hn := (Leads.spaced (k := .kwLet) (s := "let ") rfl rfl).append (.ident hx)
  exact ((hn.follow (follows_type ht)).follow h).semicolon

end

-- The statements of a block, with a blank between each two.
theorem reads_body {v w : Text} {s : Item} {ss : List Item} (hs : v.Reads (s.depths ·))
    (hss : w.Reads (depthss · ss)) : (v ++ (" " ++ w)).Reads (depthss · (s :: ss)) :=
  hs.append (Leads.blank.append hss) (closes_append (by decide) _)

mutual

-- The text of an outline is written for the outline with its groups.
theorem written_text : (e : Outline) → e.isWritable → Written e.text e.grouped
  | .num _, h => .num h
  | .bool b, _ => .bool b
  | .neg e, h => ((e.written_text h).parenthesizedIf _).neg
  | .binary op l r, h => by
    simp only [isWritable, Bool.and_eq_true] at h
    have hl := (l.written_text h.left).parenthesizedIf (l.precedence < op.precedence)
    exact hl.binary op ((r.written_text h.right).parenthesizedIf _)
  | .grouping e, h => (e.written_text h).grouping
  | .cond c t e, h => by
    simp only [isWritable, Bool.and_eq_true] at h
    exact .cond (c.written_text h.left.left) (t.written_text h.left.right) (e.written_text h.right)
  | .block ss, h => by
    have hss := reads_texts ss h
    cases ss with
    | nil => exact .emptyBlock
    | cons s ss => exact .block hss

theorem Item.reads_text : (s : Item) → s.isWritable → s.text.Reads (s.grouped.depths ·)
  | .declare name type none, h => by
    simp only [Item.isWritable, Bool.and_eq_true] at h
    exact reads_declare h.left h.right (.inl ⟨rfl, rfl⟩)
  | .declare name type (some e), h => by
    simp only [Item.isWritable, Bool.and_eq_true] at h
    exact reads_declare h.left.left h.left.right (e.written_text h.right).init
  | .assign name e, h => by
    simp only [Item.isWritable, Bool.and_eq_true] at h
    exact reads_assign h.left (e.written_text h.right)
  | .discard e, h => (e.written_text h).reads.semicolon
  | .result e, h => (e.written_text h).reads

theorem reads_texts : (ss : List Item) → areWritable ss →
    (Text.join " " (texts ss)).Reads (depthss · (groupeds ss))
  | [], _ => ⟨[], ⟨fun _ => .done, by simp⟩, .nil⟩
  | [s], h => by
    simp only [areWritable, Bool.and_eq_true] at h
    simpa [texts, groupeds, depthss, Text.join] using s.reads_text h.left.left
  | s :: s' :: ss, h => by
    rw [areWritable, Bool.and_eq_true, Bool.and_eq_true] at h
    have hb := reads_body (s.reads_text h.left.left) (reads_texts (s' :: ss) h.right)
    simpa [texts, groupeds, Text.join] using hb

end

mutual

-- Groups make no words.
theorem length_depths (d d' : Nat) : (e : Outline) →
    (e.depths d).length = (e.ungrouped.depths d').length
  | .num _ | .bool _ => rfl
  | .neg e => by simp [depths, ungrouped, e.length_depths d d']
  | .binary _ l r => by simp [depths, ungrouped, l.length_depths d d', r.length_depths d d']
  | .grouping e => e.length_depths (d + 1) d'
  | .cond c t e => by
    simp [depths, ungrouped, c.length_depths d d', t.length_depths d d', e.length_depths d d']
  | .block ss => by simp [depths, ungrouped, length_depthss d d' ss]

theorem Item.length_depths (d d' : Nat) : (s : Item) →
    (s.depths d).length = (s.ungrouped.depths d').length
  | .declare _ none none | .declare _ (some _) none => rfl
  | .declare _ none (some e) | .declare _ (some _) (some e) | .assign _ e | .discard e | .result e => by
    simp [Item.depths, initDepths, typeDepths, Item.ungrouped, e.length_depths d d']

theorem length_depthss (d d' : Nat) : (ss : List Item) →
    (depthss d ss).length = (depthss d' (ungroupeds ss)).length
  | [] => rfl
  | s :: ss => by simp [depthss, ungroupeds, s.length_depths d d', length_depthss d d' ss]

end

mutual

-- No word is less deep than the outline it belongs to.
theorem le_depths {d : Nat} : (e : Outline) → ∀ n ∈ e.depths d, d ≤ n
  | .num _ | .bool _ => by simp [depths]
  | .neg e => by simpa [depths] using e.le_depths
  | .binary _ l r => by
    have hl := l.le_depths (d := d)
    have hr := r.le_depths (d := d)
    simp only [depths, List.forall_mem_append, List.forall_mem_singleton]
    exact ⟨hl, Nat.le_refl d, hr⟩
  | .grouping e => fun n h => Nat.le_of_succ_le (e.le_depths n h)
  | .cond c t e => by
    have hc := c.le_depths (d := d)
    have ht := t.le_depths (d := d)
    have he := e.le_depths (d := d)
    simpa [depths, or_imp, forall_and] using And.intro hc ⟨ht, he⟩
  | .block ss => by
    have hss := le_depthss (d := d) ss
    simpa [depths, or_imp, forall_and] using hss

theorem Item.le_depths {d : Nat} : (s : Item) → ∀ n ∈ s.depths d, d ≤ n
  | .declare _ none none | .declare _ (some _) none => by simp [Item.depths, initDepths, typeDepths]
  | .declare _ none (some e) | .declare _ (some _) (some e) | .assign _ e | .discard e | .result e => by
    have he := e.le_depths (d := d)
    simpa [Item.depths, initDepths, typeDepths, or_imp, forall_and] using he

theorem le_depthss {d : Nat} : (ss : List Item) → ∀ n ∈ depthss d ss, d ≤ n
  | [] => by simp [depthss]
  | s :: ss => List.forall_mem_append.mpr ⟨s.le_depths, le_depthss ss⟩

end

-- What a group holds is deeper than what is no group.
theorem depths_grouping_ne {d : Nat} {e t : Outline} (ht : ∀ u, t ≠ .grouping u) :
    (grouping e).depths d ≠ t.depths d := by
  have hm : d ∈ t.depths d := by
    cases t with
    | grouping u => exact absurd rfl (ht u)
    | num | bool | neg | binary | cond | block => simp [depths]
  intro h
  have := e.le_depths d (h ▸ hm)
  omega

section

variable {d : Nat} {e t : Outline} {s s' : Item} {xs ys : List Nat}

-- Where two outlines are the same apart from groups, so is the place where their depths end.
theorem depths_append_inj (hu : e.ungrouped = t.ungrouped) (h : e.depths d ++ xs = t.depths d ++ ys) :
    e.depths d = t.depths d ∧ xs = ys :=
  List.append_inj h (by rw [e.length_depths d d, t.length_depths d d, hu])

theorem Item.depths_append_inj (hu : s.ungrouped = s'.ungrouped)
    (h : s.depths d ++ xs = s'.depths d ++ ys) : s.depths d = s'.depths d ∧ xs = ys :=
  List.append_inj h (by rw [s.length_depths d d, s'.length_depths d d, hu])

end

mutual

-- The depths of its words tell the groups of an outline.
theorem eq_of_depths {d : Nat} : (e t : Outline) → e.ungrouped = t.ungrouped →
    e.depths d = t.depths d → e = t
  | .grouping e, t, hu, h => by
    cases t with
    | grouping t => rw [eq_of_depths e t hu h]
    | num | bool | neg | binary | cond | block => exact absurd h (depths_grouping_ne nofun)
  | .num n, t, hu, h => by
    cases t with
    | num =>
      cases hu
      rfl
    | grouping t => exact absurd h.symm (depths_grouping_ne nofun)
    | bool | neg | binary | cond | block => cases hu
  | .bool b, t, hu, h => by
    cases t with
    | bool =>
      cases hu
      rfl
    | grouping t => exact absurd h.symm (depths_grouping_ne nofun)
    | num | neg | binary | cond | block => cases hu
  | .neg e, t, hu, h => by
    cases t with
    | neg t => rw [eq_of_depths e t (Outline.neg.inj hu) (List.cons.inj h).right]
    | grouping t => exact absurd h.symm (depths_grouping_ne nofun)
    | num | bool | binary | cond | block => cases hu
  | .binary op l r, t, hu, h => by
    cases t with
    | binary op' l' r' =>
      have ⟨ho, hul, hur⟩ := Outline.binary.inj hu
      have ⟨hl, h⟩ := depths_append_inj hul h
      rw [ho, eq_of_depths l l' hul hl, eq_of_depths r r' hur (List.cons.inj h).right]
    | grouping t => exact absurd h.symm (depths_grouping_ne nofun)
    | num | bool | neg | cond | block => cases hu
  | .cond c t e, t', hu, h => by
    cases t' with
    | cond c' t' e' =>
      have ⟨huc, hut, hue⟩ := Outline.cond.inj hu
      simp only [depths, List.append_assoc, List.cons_append, List.cons.injEq, true_and] at h
      have ⟨hc, h⟩ := depths_append_inj huc h
      have ⟨ht, h⟩ := depths_append_inj hut (List.cons.inj h).right
      simp only [List.cons.injEq, true_and] at h
      have ⟨he, _⟩ := depths_append_inj hue h
      rw [eq_of_depths c c' huc hc, eq_of_depths t t' hut ht, eq_of_depths e e' hue he]
    | grouping t => exact absurd h.symm (depths_grouping_ne nofun)
    | num | bool | neg | binary | block => cases hu
  | .block ss, t, hu, h => by
    cases t with
    | block ss' =>
      have h := List.cons.inj (List.append_cancel_right h)
      rw [eq_of_depthss ss ss' (Outline.block.inj hu) h.right]
    | grouping t => exact absurd h.symm (depths_grouping_ne nofun)
    | num | bool | neg | binary | cond => cases hu

theorem Item.eq_of_depths {d : Nat} : (s s' : Item) → s.ungrouped = s'.ungrouped →
    s.depths d = s'.depths d → s = s'
  | .declare x type none, s', hu, h => by
    cases s' with
    | declare x' type' init' =>
      cases init' with
      | none =>
        cases hu
        rfl
      | some => cases hu
    | assign | discard | result => cases hu
  | .declare x type (some e), s', hu, h => by
    cases s' with
    | declare x' type' init' =>
      cases init' with
      | none => cases hu
      | some e' =>
        have ⟨hx, ht, he⟩ := Item.declare.inj hu
        simp only [Item.depths, initDepths, ht, List.append_assoc, List.append_cancel_left_eq,
          List.append_cancel_right_eq] at h
        rw [hx, ht, Outline.eq_of_depths e e' (Option.some.inj he) h]
    | assign | discard | result => cases hu
  | .assign x e, s', hu, h => by
    cases s' with
    | assign x' e' =>
      have ⟨hx, he⟩ := Item.assign.inj hu
      simp only [Item.depths, List.append_assoc, List.append_cancel_left_eq,
        List.append_cancel_right_eq] at h
      rw [hx, Outline.eq_of_depths e e' he h]
    | declare _ _ init => cases init <;> cases hu
    | discard | result => cases hu
  | .discard e, s', hu, h => by
    cases s' with
    | discard e' =>
      rw [Outline.eq_of_depths e e' (Item.discard.inj hu) (List.append_cancel_right h)]
    | declare _ _ init => cases init <;> cases hu
    | assign | result => cases hu
  | .result e, s', hu, h => by
    cases s' with
    | result e' => rw [Outline.eq_of_depths e e' (Item.result.inj hu) h]
    | declare _ _ init => cases init <;> cases hu
    | assign | discard => cases hu

theorem eq_of_depthss {d : Nat} : (ss ss' : List Item) → ungroupeds ss = ungroupeds ss' →
    depthss d ss = depthss d ss' → ss = ss'
  | [], [], _, _ => rfl
  | [], _ :: _, hu, _ | _ :: _, [], hu, _ => by cases hu
  | s :: ss, s' :: ss', hu, h => by
    have ⟨hs, hss⟩ := List.cons.inj hu
    have ⟨h, h'⟩ := Item.depths_append_inj hs h
    rw [s.eq_of_depths s' hs h, eq_of_depthss ss ss' hss h']

end

end Outline

end ExprLang
