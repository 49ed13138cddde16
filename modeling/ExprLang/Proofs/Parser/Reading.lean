import ExprLang.Proofs.Grammar.Numeral
import ExprLang.Proofs.Parser.Run

/-!
Parsers as readers of words. The words that are left depend on the lexer and the next token only, and
`Reads` tells which of them a run takes off and that the interner keeps what it holds.
-/
namespace ExprLang

open Token

namespace Lexer

variable {l l' : Lexer} {t : Token}

theorem words_eq (h : l.next = (.ok t, l')) :
    l.words = t.word l.source :: if t.kind = .eof then [] else l'.words := by
  split
  case isTrue ht => rw [words_eof h ht, word_next_eof h ht]
  case isFalse ht => exact words_next h ht

theorem fault_eq (h : l.next = (.ok t, l')) :
    l.scan.fault = if t.kind = .eof then none else l'.scan.fault := by
  split
  case isTrue ht => rw [scan_eof h ht]
  case isFalse ht => rw [scan_next h ht]

-- Each word but the last takes a byte.
theorem length_words_le (l : Lexer) : l.words.length ≤ l.unread + 1 := by
  fun_induction scan l
  case case1 hn => simp [words, scan_error hn]
  case case2 hn ht => simp [words_eof hn ht]
  case case3 hn ht _ ih =>
    have hu := unread_next_lt hn ht
    rw [words_next hn ht, List.length_cons]
    omega

end Lexer

namespace Parser

variable {p q r : Parser} {w : Word} {ws vs : List Word} {k : Kind}

-- The next token as a word.
def word (p : Parser) : Word :=
  p.token.word p.lexer.source

-- The words that are left, up to the end of the input or the first stray byte.
def words (p : Parser) : List Word :=
  p.word :: if p.token.kind = .eof then [] else p.lexer.words

-- The fault at the first stray byte.
def fault (p : Parser) : Option SyntaxError :=
  if p.token.kind = .eof then none else p.lexer.scan.fault

theorem word_of_words (h : p.words = w :: ws) : p.word = w :=
  (List.cons.inj h).left

theorem kind_of_words (h : p.words = w :: ws) : p.token.kind = w.kind :=
  congrArg Word.kind (word_of_words h)

theorem length_words_le (p : Parser) : p.words.length ≤ p.unread + 1 := by
  have hl := p.lexer.length_words_le
  simp only [words, unread]
  split
  · simp
  · simp only [List.length_cons]
    omega

-- What can be said of a parser at any time.
structure Ready (p : Parser) : Prop where
  interner : p.interner.Valid
  words : ∀ w ∈ p.words, w.kind.allows w.text

-- Nothing is left at the end of the input.
theorem Ready.words_eof (h : p.Ready) (hk : p.token.kind = .eof) : p.words = [.eof] := by
  have ha := h.words p.word (.head _)
  simp only [word, Token.word, hk, Kind.allows, List.isEmpty_iff] at ha
  simp [Parser.words, word, Token.word, Word.eof, hk, ha]

-- Getting from `p` to `q` takes the words `ws` off, and the interner loses nothing.
structure Reads (p : Parser) (ws : List Word) (q : Parser) : Prop where
  ready : q.Ready
  words : p.words = ws ++ q.words
  range : ∀ w ∈ ws, w.InRange
  fault : q.fault = p.fault
  grows : p.interner.Extends q.interner

namespace Reads

theorem refl (h : p.Ready) : Reads p [] p where
  ready := h
  words := rfl
  range := by simp
  fault := rfl
  grows := .refl _

theorem trans (h₁ : Reads p ws q) (h₂ : Reads q vs r) : Reads p (ws ++ vs) r where
  ready := h₂.ready
  words := by rw [h₁.words, h₂.words, List.append_assoc]
  range w hw := (List.mem_append.mp hw).elim (h₁.range w) (h₂.range w)
  fault := h₂.fault.trans h₁.fault
  grows := h₁.grows.trans h₂.grows

theorem cons (h₁ : Reads p [w] q) (h₂ : Reads q vs r) : Reads p (w :: vs) r :=
  h₁.trans h₂

-- What is left behind the words that were taken off.
theorem words_eq (h : Reads p ws q) (hw : p.words = ws ++ vs) : q.words = vs :=
  List.append_cancel_left (h.words.symm.trans hw)

end Reads

namespace Moves

variable (h : Moves p q)
include h

theorem lexeme_eq (hr : p.Ready) : q.lexeme = .ok (.ofAscii p.word.text) := by
  have ha := Kind.allows_ascii (hr.words p.word (.head _))
  obtain ⟨t, l, hn, rfl⟩ := moves_iff.mp h
  rw [lexeme, Lexer.lexeme, Lexer.slice_eq, Lexer.source_next hn]
  exact Text.decode_ascii ha

theorem reads (hr : p.Ready) (hk : p.token.kind ≠ .eof) (hi : p.word.InRange) :
    Reads p [p.word] q := by
  obtain ⟨t, l, hn, rfl⟩ := moves_iff.mp h
  have hw : p.words = [p.word] ++ words { p with lexer := l, token := t, prev := p.token } := by
    simp [words, word, hk, Lexer.words_eq hn, Lexer.source_next hn]
  constructor
  case words => exact hw
  case range => exact fun w hm => List.mem_singleton.mp hm ▸ hi
  case fault => simp [fault, hk, Lexer.fault_eq hn]
  case grows => exact .refl _
  case ready =>
    refine ⟨hr.interner, fun w hm => hr.words w ?_⟩
    rw [hw]
    exact List.mem_append_right _ hm

theorem reads_fixed (hr : p.Ready) (hk : p.token.kind = k) (hf : k.isFixed) :
    Reads p [.fixed k] q := by
  have ha := hr.words p.word (.head _)
  subst hk
  have ⟨_, hn, he⟩ := Kind.isFixed_iff.mp hf
  have hw : p.word = .fixed p.token.kind := Word.ext rfl ((Kind.allows_fixed hf).mp ha)
  exact hw ▸ h.reads hr he (.of_kind hn)

-- A number is only read as long as it is in range.
theorem reads_number (hr : p.Ready) (hk : p.token.kind = .number) :
    ∃ ds, Kind.isNumeral ds ∧ q.lexeme = .ok (.ofAscii ds) ∧
      ((Word.number ds).InRange → Reads p [.number ds] q) := by
  have ha := hr.words p.word (.head _)
  have hw : p.word = .number p.word.text := Word.ext hk rfl
  rw [hw] at ha
  exact ⟨p.word.text, ha, h.lexeme_eq hr, fun hi => hw ▸ h.reads hr (by simp [hk]) (hw ▸ hi)⟩

theorem reads_ident (hr : p.Ready) (hk : p.token.kind = .ident) :
    ∃ x, Reads p [.ident x] q ∧ q.lexeme = .ok (.ofAscii x) := by
  have hw : p.word = .ident p.word.text := Word.ext hk rfl
  have hw' := h.reads hr (by simp [hk]) (.of_kind (by simp [word, Token.word, hk]))
  exact ⟨p.word.text, hw ▸ hw', h.lexeme_eq hr⟩

end Moves

-- Without a stray byte ahead, every token but the last can be consumed.
theorem exists_moves (hf : p.fault = none) (hk : p.token.kind ≠ .eof) : ∃ q, Moves p q := by
  cases hn : p.lexer.next with
  | mk x l =>
    cases x with
    | ok t => exact ⟨_, moves_iff.mpr ⟨t, l, hn, rfl⟩⟩
    | error e => simp [fault, hk, Lexer.scan_error hn] at hf

theorem exists_reads (hr : p.Ready) (hf : p.fault = none) (hw : p.words = w :: ws)
    (hk : w.kind ≠ .eof) (hi : w.InRange) : ∃ q, Moves p q ∧ Reads p [w] q := by
  rw [←kind_of_words hw] at hk
  have ⟨q, hm⟩ := exists_moves hf hk
  have hw := word_of_words hw
  exact ⟨q, hm, hw ▸ hm.reads hr hk (hw.symm ▸ hi)⟩

-- A numeral that was consumed is a number if it is in range.
theorem yields_number {ds : Bytes} (hn : Kind.isNumeral ds) (hl : p.lexeme = .ok (.ofAscii ds))
    {e : Program} :
    Yields number p e q ↔
      (Word.number ds).InRange ∧ .literal p.prev.span (.num (Word.decimal ds)) = e ∧ p = q := by
  have hi : (Word.number ds).InRange ↔
      ds.length ≤ Text.maxDigits ∧ Word.decimal ds ≤ SyntaxError.maxLiteral :=
    ⟨fun h => h rfl, fun h _ => h⟩
  simp only [number, yields_bind, yields_prevSpan, yields_prevText]
  constructor
  · rintro ⟨_, _, ⟨rfl, rfl⟩, _, _, ⟨ht, rfl⟩, h⟩
    cases hl.symm.trans ht
    rw [Text.numeral?_ofAscii hn] at h
    by_cases hd : ds.length ≤ Text.maxDigits
    · by_cases hm : SyntaxError.maxLiteral < Word.decimal ds
      · simp [hd, hm] at h
      · simp only [hd, hm, if_true, if_false, yields_pure] at h
        exact ⟨hi.mpr ⟨hd, Nat.not_lt.mp hm⟩, h⟩
    · simp [hd] at h
  · rintro ⟨h, rfl, rfl⟩
    obtain ⟨hd, hm⟩ := hi.mp h
    refine ⟨_, p, ⟨rfl, rfl⟩, _, p, ⟨hl, rfl⟩, ?_⟩
    simp [Text.numeral?_ofAscii hn, hd, Nat.not_lt.mpr hm]

-- A word that was consumed is found behind its handle.
theorem reads_internPrev {s : Symbol} (h : Yields internPrev p s q) (hr : p.Ready)
    {x : Bytes} (hl : p.lexeme = .ok (.ofAscii x)) :
    Reads p [] q ∧ q.interner.issued? s = some (.ofAscii x) := by
  obtain ⟨t, i, ht, hi, rfl⟩ := yields_internPrev.mp h
  cases hl.symm.trans ht
  obtain ⟨he, hi⟩ := Interner.intern_eq_ok_iff.mp hi
  refine ⟨?_, hr.interner.issued?_insert hi he⟩
  exact ⟨⟨hr.interner.insert hi, hr.words⟩, rfl, by simp, rfl, hr.interner.extends_insert hi⟩

end Parser
end ExprLang
