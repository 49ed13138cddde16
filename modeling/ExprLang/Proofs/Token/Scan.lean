import ExprLang.Proofs.Token.Word

/-!
The words that a scanner reads. They depend on the bytes before it only, and any bytes that are
words with enough blanks between them are read as just these words.
-/
namespace ExprLang

def Token.word (source : Array UInt8) (t : Token) : Word where
  kind := t.kind
  text := t.span.slice source.toList

-- The word at the end of every source.
def Word.eof : Word where
  kind := .eof
  text := []

namespace Lexer

open Token

-- What comes after the blanks before a scanner.
def ahead (l : Lexer) : Bytes :=
  l.rest.dropWhile isBlank

theorem rest_skipBlanks (l : Lexer) : l.skipBlanks.rest = l.ahead := by
  have h : l.rest.takeWhile isBlank ++ l.rest.dropWhile isBlank = l.rest :=
    List.takeWhile_append_dropWhile
  calc l.rest.drop (l.rest.takeWhile isBlank).length
    _ = (l.rest.takeWhile isBlank ++ l.rest.dropWhile isBlank).drop _ := by rw [h]
    _ = l.ahead := List.drop_left

-- The token over the `n` bytes that come after the blanks.
def tokenAhead (l : Lexer) (k : Kind) (n : Nat) : Token :=
  (l.skipBlanks.skip n).token k

theorem word_tokenAhead (l : Lexer) (k : Kind) (n : Nat) :
    (l.tokenAhead k n).word l.source = ⟨k, l.ahead.take n⟩ := by
  have hl := l.skipBlanks.rest_eq
  have hp := l.skipBlanks.pos_le
  rw [rest_skipBlanks] at hl
  simp only [word, Word.mk.injEq, tokenAhead, token, Span.slice, true_and]
  show List.take (min (l.skipBlanks.pos + n) l.source.size - l.skipBlanks.pos)
    (List.drop l.skipBlanks.pos l.source.toList) = _
  have hs : l.skipBlanks.source = l.source := rfl
  rw [hl, hs, List.take_eq_take_iff, List.length_drop, Array.length_toList]
  omega

section

variable {l l' : Lexer} {t : Token} {k : Kind} {n : Nat}

theorem next_token (h : Item.first l.ahead = .token k n) :
    l.next = (.ok (l.tokenAhead k n), l.skipBlanks.skip n) := by
  simp [next, rest_skipBlanks, h, Item.width, tokenAhead]

theorem next_finish (h : l.ahead = []) :
    l.next = (.ok (l.tokenAhead .eof 0), l.skipBlanks.skip 0) := by
  simp [next, rest_skipBlanks, h, Item.first, Item.width, tokenAhead]

theorem next_stray {b : UInt8} (h : Item.first l.ahead = .stray b) :
    l.next = (.error ⟨(l.skipBlanks.skip 1).span, .strayByte b⟩, l.skipBlanks.skip 1) := by
  simp [next, rest_skipBlanks, h, Item.width]

theorem ahead_of_first_finish (h : Item.first l.ahead = .finish) : l.ahead = [] := by
  cases hl : l.ahead with
  | nil => rfl
  | cons b bs =>
    have hw := Item.width_first_pos (hl ▸ List.cons_ne_nil b bs : l.ahead ≠ [])
    simp [h, Item.width] at hw

-- Everything that a successful step can do.
theorem next_cases (h : l.next = (.ok t, l')) :
    (l.ahead = [] ∧ t = l.tokenAhead .eof 0 ∧ l' = l.skipBlanks.skip 0) ∨
    (∃ k n, Item.first l.ahead = .token k n ∧ t = l.tokenAhead k n ∧ l' = l.skipBlanks.skip n) := by
  cases hi : Item.first l.ahead with
  | token k n =>
    simp only [next_token hi, Prod.mk.injEq, Except.ok.injEq] at h
    exact .inr ⟨k, n, rfl, h.left.symm, h.right.symm⟩
  | stray b => simp [next_stray hi] at h
  | finish =>
    have ha := ahead_of_first_finish hi
    simp only [next_finish ha, Prod.mk.injEq, Except.ok.injEq] at h
    exact .inl ⟨ha, h.left.symm, h.right.symm⟩

theorem source_next (h : l.next = (.ok t, l')) : l'.source = l.source := by
  obtain ⟨-, -, rfl⟩ | ⟨k, n, -, -, rfl⟩ := next_cases h <;> rfl

theorem allows_next (h : l.next = (.ok t, l')) :
    (t.word l.source).kind.allows (t.word l.source).text := by
  obtain ⟨-, rfl, -⟩ | ⟨k, n, hi, rfl, -⟩ := next_cases h
  · simp [word_tokenAhead, Kind.allows]
  · simpa [word_tokenAhead] using (Item.allows_of_first hi).left

-- The end of the input has no bytes.
theorem word_next_eof (h : l.next = (.ok t, l')) (ht : t.kind = .eof) : t.word l.source = .eof := by
  have ha := allows_next h
  simp only [word, ht, Kind.allows, List.isEmpty_iff] at ha
  simp [word, Word.eof, ht, ha]

theorem scan_next (h : l.next = (.ok t, l')) (ht : t.kind ≠ .eof) :
    l.scan = { l'.scan with tokens := t :: l'.scan.tokens } := by
  rw [scan]
  split
  case h_1 he => simp [h] at he
  case h_2 he =>
    simp only [h, Prod.mk.injEq, Except.ok.injEq] at he
    obtain ⟨rfl, rfl⟩ := he
    simp [ht]

theorem scan_eof (h : l.next = (.ok t, l')) (ht : t.kind = .eof) : l.scan = ⟨[t], none, l'⟩ := by
  rw [scan]
  split
  case h_1 he => simp [h] at he
  case h_2 he =>
    simp only [h, Prod.mk.injEq, Except.ok.injEq] at he
    obtain ⟨rfl, rfl⟩ := he
    simp [ht]

theorem scan_error {e : SyntaxError} (h : l.next = (.error e, l')) : l.scan = ⟨[], some e, l'⟩ := by
  rw [scan]
  split
  case h_1 he =>
    simp only [h, Prod.mk.injEq, Except.error.injEq] at he
    obtain ⟨rfl, rfl⟩ := he
    rfl
  case h_2 he => simp [h] at he

end

-- The words before a scanner, up to the end of the input or the first stray byte.
def words (l : Lexer) : List Word :=
  l.scan.tokens.map (·.word l.source)

theorem words_next {l l' : Lexer} {t : Token} (h : l.next = (.ok t, l')) (ht : t.kind ≠ .eof) :
    l.words = t.word l.source :: l'.words := by
  simp [words, scan_next h ht, source_next h]

theorem words_eof {l l' : Lexer} {t : Token} (h : l.next = (.ok t, l')) (ht : t.kind = .eof) :
    l.words = [.eof] := by
  simp [words, scan_eof h ht, word_next_eof h ht]

-- Every word is written as its kind allows.
theorem allows_words (l : Lexer) {w : Word} (h : w ∈ l.words) : w.kind.allows w.text := by
  fun_induction scan l
  case case1 hn => simp [words, scan_error hn] at h
  case case2 hn ht =>
    simp only [words, scan_eof hn ht, List.map_cons, List.map_nil, List.mem_singleton] at h
    exact h ▸ allows_next hn
  case case3 hn ht _ ih =>
    rw [words_next hn ht, List.mem_cons] at h
    cases h
    case inl h => exact h ▸ allows_next hn
    case inr h => exact ih h

end Lexer

open Token

-- Bytes that consist of words and of blanks, up to `rest`. Each word ends where the next bytes
-- begin.
inductive Scans : (bytes : Bytes) → List Word → (rest : Bytes) → Prop
  | done : Scans bs [] bs
  | blank (hb : isBlank b) (h : Scans bs ws r) : Scans (b :: bs) ws r
  | word {w : Word} (ha : w.kind.allows w.text) (hk : w.kind ≠ .eof) (he : w.kind.endsBefore bs)
      (h : Scans bs ws r) : Scans (w.text ++ bs) (w :: ws) r

namespace Scans

theorem append (h₁ : Scans bs ws₁ bs') (h₂ : Scans bs' ws₂ r) : Scans bs (ws₁ ++ ws₂) r := by
  induction h₁ with
  | done => exact h₂
  | blank hb _ ih => exact .blank hb (ih h₂)
  | word ha hk he _ ih => exact .word ha hk he (ih h₂)

theorem single {w : Word} (ha : w.kind.allows w.text) (hk : w.kind ≠ .eof)
    (he : w.kind.endsBefore r) : Scans (w.text ++ r) [w] r :=
  .word ha hk he .done

-- A scanner reads the words that bytes consist of, whatever blanks it skips first.
theorem words_eq (h : Scans bs ws []) {l : Lexer} (hl : l.ahead = bs.dropWhile isBlank) :
    l.words = ws ++ [.eof] ∧ l.scan.fault = none := by
  generalize hr : ([] : Bytes) = r at h
  induction h generalizing l with
  | done =>
    subst hr
    have hn := Lexer.next_finish hl
    exact ⟨Lexer.words_eof hn rfl, by rw [Lexer.scan_eof hn rfl]⟩
  | blank hb _ ih => exact ih (by simpa [hb] using hl) hr
  | @word bs ws r w ha hk he _ ih =>
    have hf := Item.first_append ha hk he
    have hd : (w.text ++ bs).dropWhile isBlank = w.text ++ bs := by
      cases hw : w.text ++ bs with
      | nil => rfl
      | cons b bs' =>
        refine List.dropWhile_cons_of_neg fun hb => ?_
        rw [hw, Item.first_blank hb] at hf
        contradiction
    rw [hd] at hl
    have hn := Lexer.next_token (hl ▸ hf)
    have hl' : (l.skipBlanks.skip w.text.length).ahead = bs.dropWhile isBlank := by
      show (l.skipBlanks.rest.drop w.text.length).dropWhile isBlank = _
      rw [Lexer.rest_skipBlanks, hl, List.drop_left]
    have ⟨hws, hfault⟩ := ih hl' hr
    refine ⟨?_, by rw [Lexer.scan_next hn hk, hfault]⟩
    rw [Lexer.words_next hn hk, hws, Lexer.word_tokenAhead, hl, List.take_left]
    rfl

end Scans
end ExprLang
