import ExprLang.Proofs.Parser.RoundTrip
import ExprLang.Proofs.Tree.Groups

/-!
Writing a tree that was parsed changes the layout of its source only: the tokens stay the same and in
their order, and numbers lose the zeros in front of them.
-/
namespace ExprLang

open Token Grammar Word Outline

-- The word with the digits of its value, if it is a number.
def Word.canonical (w : Word) : Word :=
  match w.kind with
  | .number => .number (digits (decimal w.text))
  | _ => w

@[simp]
theorem Word.canonical_number (ds : Bytes) :
    (Word.number ds).canonical = .number (digits (decimal ds)) :=
  rfl

@[simp]
theorem Word.canonical_ident (x : Bytes) : (Word.ident x).canonical = .ident x :=
  rfl

@[simp]
theorem Word.canonical_fixed (k : Kind) (hk : k ≠ .number) : (fixed k).canonical = fixed k := by
  cases k <;> trivial

theorem Word.kind_canonical (w : Word) : w.canonical.kind = w.kind := by
  obtain ⟨k, text⟩ := w
  cases k <;> rfl

theorem BinOp.kind_ne_number (op : BinOp) : op.kind ≠ .number :=
  (Kind.isFixed_iff.mp op.isFixed_kind).right.left

-- The words for the first value of a declaration.
def Outline.initWords : Option Outline → List Word
  | none => []
  | some e => fixed .eq :: e.words

theorem Outline.Item.words_declare (name : Text) (type : Option Text) (init : Option Outline) :
    (Item.declare name type init).words =
      fixed .kwLet :: .ident name.encode :: (typeWords type ++ (initWords init ++ [fixed .semi])) := by
  cases init <;> rfl

namespace Grammar

theorem encode_ofAscii_ident {x : Bytes} (h : Legal (.ident x)) : (Text.ofAscii x).encode = x := by
  have ha := h.left
  simp only [Word.ident, Kind.allows, Bool.and_eq_true] at ha
  exact Text.encode_ofAscii fun _ => Kind.isName_ascii ha.left

theorem Fits.tier {τ : Tier} {e : Outline} (h : Fits τ.operand e) : Fits (.tier τ) e := by
  refine h.loosen ?_ (by simp)
  rw [precedence_operand]
  exact Nat.le_succ _

theorem Annotation.words_eq {ts : List Word} {type : Option Text} (h : Annotation ts type)
    (hl : ∀ w ∈ ts, Legal w) : typeWords type = ts.map canonical := by
  cases h
  case none => rfl
  case some x =>
    have hx := encode_ofAscii_ident (hl _ (.tail _ (.head _)))
    simp [typeWords, hx]

mutual

-- The words of an outline are those that it was derived from.
theorem Derives.words_eq : Derives c ws e → (∀ w ∈ ws, Legal w) → e.words = ws.map canonical
  | .cond hc ht he, h => by
    have ⟨hcs, h⟩ := List.forall_mem_append.mp (List.forall_mem_cons.mp h).right
    have ⟨hts, h⟩ := List.forall_mem_append.mp (List.forall_mem_cons.mp h).right
    simp only [List.forall_mem_cons] at h
    have ⟨hes, _⟩ := List.forall_mem_append.mp h.right.right.right
    simp [words, hc.words_eq hcs, ht.words_eq hts, he.words_eq hes]
  | .equality hd, h | .primary hd, h => hd.words_eq h
  | .chain hd hl, h => by
    have ⟨hws, hls⟩ := List.forall_mem_append.mp h
    rw [hl.words_eq hls (hd.fits hws).tier, hd.words_eq hws, List.map_append]
  | .neg hd, h => by
    have ⟨_, hws⟩ := List.forall_mem_cons.mp h
    have hg : (Outline.neg _).HasGroups := (Fits.neg (hd.fits hws)).grouped_eq
    simp [hg.words_neg, hd.words_eq hws]
  | .number, _ => rfl
  | .yes, _ => rfl
  | .no, _ => rfl
  | .grouping hd, h => by
    have ⟨hws, _⟩ := List.forall_mem_append.mp (List.forall_mem_cons.mp h).right
    simp [words, bracketed, hd.words_eq hws]
  | .block hb, h => by
    have hws := hb.words_eq (List.forall_mem_cons.mp h).right
    simp [words, hws]

theorem Links.words_eq : Links τ l ls e → (∀ w ∈ ls, Legal w) → Fits (.tier τ) l →
    e.words = l.words ++ ls.map canonical
  | .nil, _, _ => by simp
  | .cons ho hr hls, h, hl => by
    have ⟨hws, hvs⟩ := List.forall_mem_append.mp (List.forall_mem_cons.mp h).right
    have hf := Fits.binary ho hl (hr.fits hws)
    have hg : (Outline.binary _ _ _).HasGroups := hf.grouped_eq
    rw [hls.words_eq hvs hf, hg.words_binary, hr.words_eq hws]
    simp [BinOp.kind_ne_number]

theorem Body.words_eq {ss : List Outline.Item} : Body ws ss → (∀ w ∈ ws, Legal w) →
    wordss ss ++ [fixed .rbrace] = ws.map canonical
  | .close, _ => rfl
  | .item hs hb, h => by
    have ⟨hws, hbs⟩ := List.forall_mem_append.mp h
    rw [wordss, List.append_assoc, hs.words_eq hws, hb.words_eq hbs, List.map_append]
  | .result hd, h => by
    have ⟨hws, _⟩ := List.forall_mem_append.mp h
    simp [wordss, Item.words, hd.words_eq hws]

theorem Statement.words_eq {s : Outline.Item} : Statement ws s → (∀ w ∈ ws, Legal w) →
    s.words = ws.map canonical
  | .declare ht hi, h => by
    simp only [List.forall_mem_cons] at h
    have hx := encode_ofAscii_ident h.right.left
    have ⟨hts, h⟩ := List.forall_mem_append.mp h.right.right
    have ⟨his, _⟩ := List.forall_mem_append.mp h
    simp [Item.words_declare, hx, ht.words_eq hts, hi.words_eq his]
  | .assign hd, h => by
    simp only [List.forall_mem_cons] at h
    have ⟨hws, _⟩ := List.forall_mem_append.mp h.right.right
    simp [Item.words, encode_ofAscii_ident h.left, hd.words_eq hws]
  | .discard hd, h => by
    have ⟨hws, _⟩ := List.forall_mem_append.mp h
    simp [Item.words, hd.words_eq hws]

theorem Initial.words_eq {init : Option Outline} : Initial ws init → (∀ w ∈ ws, Legal w) →
    initWords init = ws.map canonical
  | .none, _ => rfl
  | .some hd, h => by
    simp [initWords, hd.words_eq (List.forall_mem_cons.mp h).right]

end

end Grammar

variable {src : Text} {i j : Interner} {d : Int}

-- What is written for a tree that was parsed consists of the tokens of its source. Their words are
-- the same, too, except that numbers are written without zeros in front.
theorem tokenize_format {e : Program} (hi : i.Reachable) (h : parse src i d = (.ok e, j)) :
    ∃ (u : Text) (ts us : List Token),
      e.format (some j) = .ok u ∧ tokenize src = .ok ts ∧ tokenize u = .ok us ∧
      us.map (·.kind) = ts.map (·.kind) ∧
      us.map (·.word u.encode.toArray) = ts.map fun t => (t.word src.encode.toArray).canonical := by
  have ⟨ws, t, hf, hws, hr, hd, ht⟩ := Parser.sound_parse hi.valid h
  have hl : ∀ w ∈ ws, Legal w := by
    intro w hw
    refine ⟨Lexer.allows_words (Lexer.ofText src) ?_, hr w hw⟩
    rw [hws]
    exact List.mem_append_left _ hw
  have hwritable := (hd.derives.fits hl).writable
  have ⟨hus, hg⟩ := Outline.words_text hwritable
  have hw : (Lexer.ofText t.text).words = (Lexer.ofText src).words.map canonical := by
    rw [hus, hws, hd.derives.words_eq hl, List.map_append]
    rfl
  have ht := e.outline?_mono j.lookup?_of_issued? ht
  refine ⟨t.text, _, _, Expr.format_eq ht hwritable, tokenize_eq_ok_iff.mpr ⟨hf, rfl⟩,
    tokenize_eq_ok_iff.mpr ⟨hg, rfl⟩, ?kinds, ?words⟩
  case words =>
    rw [Lexer.words, Lexer.words, List.map_map] at hw
    exact hw
  case kinds =>
    have hk := congrArg (List.map Word.kind) hw
    simp only [Lexer.words, List.map_map, Function.comp_def, kind_canonical] at hk
    exact hk

-- Blanks are put in and a zero goes, and all else stays.
theorem tokenize_format_block :
    ∃ e j, parse "\x7bx=-07;2\x7d" .empty 2 = (.ok e, j) ∧
      ∃ (u : Text) (ts us : List Token),
        e.format (some j) = .ok u ∧ tokenize "\x7bx=-07;2\x7d" = .ok ts ∧
        tokenize u = .ok us ∧ us.map (·.kind) = ts.map (·.kind) ∧
        us.map (·.word u.encode.toArray) = ts.map fun t =>
          (t.word (Text.encode "\x7bx=-07;2\x7d").toArray).canonical := by
  have hp : outlineOf? "\x7bx=-07;2\x7d" .empty 2 =
      some (.block [.assign "x" (.neg (.num 7)), .result (.num 2)]) := by
    cbv
  obtain ⟨e, j, hp, _⟩ := outlineOf?_eq_some_iff.mp hp
  exact ⟨e, j, hp, tokenize_format .empty hp⟩

end ExprLang
