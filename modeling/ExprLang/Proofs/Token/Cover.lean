import ExprLang.Proofs.Token.Lexeme
import ExprLang.Proofs.Token.Scan

/-!
The answers of a scanner that is asked again and again, also behind a fault. Together with blanks, the
tokens and stray bytes before the end of the input make up the whole source.
-/
namespace ExprLang

open Token

namespace Lexer

-- What a scanner says when it is asked once.
abbrev Answer := Except SyntaxError Token

def Answer.span : Answer → Span
  | .ok t => t.span
  | .error e => e.span

-- The scanner after a number of questions.
def after (l : Lexer) : Nat → Lexer
  | 0 => l
  | n + 1 => l.next.snd.after n

-- What a scanner says after a number of other answers.
def answer (l : Lexer) (n : Nat) : Answer :=
  (l.after n).next.fst

-- What an answer means for the bytes of a source: a token is the longest lexeme where it starts, and
-- no lexeme starts with a stray byte.
def Answer.Fits (bs : Bytes) : Answer → Prop
  | .ok t => LongestLexeme t.kind (t.span.slice bs) (bs.drop t.span.lo)
  | .error e =>
    ∃ b, e.cause = .strayByte b ∧ e.span.slice bs = [b] ∧ isBlank b = false ∧
      ∀ k r, r <+: bs.drop e.span.lo → ¬Lexeme k r

-- Answers that account for every byte of a source from `start` on.
structure Covers (bs : Bytes) (start : Nat) (answers : List Answer) : Prop where
  nonempty : ∀ a ∈ answers, a.span.lo < a.span.hi
  within : ∀ a ∈ answers, start ≤ a.span.lo ∧ a.span.hi ≤ bs.length
  ordered : answers.Pairwise fun a a' => a.span.hi ≤ a'.span.lo
  blank {p : Nat} {b : UInt8} : start ≤ p → bs[p]? = some b →
    (∀ a ∈ answers, ¬(a.span.lo ≤ p ∧ p < a.span.hi)) → isBlank b
  fits : ∀ a ∈ answers, a.Fits bs

-- The token at the end of a source.
def finish (bs : Bytes) : Token where
  kind := .eof
  span := ⟨bs.length, bs.length, Nat.le_refl _⟩

variable {l l' : Lexer} {a : Answer} {answers : List Answer} {n p : Nat} {b : UInt8}

theorem source_next_snd (l : Lexer) : l.next.snd.source = l.source := by
  simp only [next]
  split <;> rfl

-- The span of the `n` bytes that come after the blanks.
def spanAhead (l : Lexer) (n : Nat) : Span :=
  (l.skipBlanks.skip n).span

theorem drop_skipBlanks (l : Lexer) : l.source.toList.drop l.skipBlanks.pos = l.ahead := by
  rw [←rest_skipBlanks]
  exact l.skipBlanks.rest_eq.symm

theorem hi_spanAhead (h : n ≤ l.ahead.length) : (l.spanAhead n).hi = l.skipBlanks.pos + n := by
  have hp := l.skipBlanks.pos_le
  rw [←drop_skipBlanks, List.length_drop, Array.length_toList] at h
  apply Nat.min_eq_left
  show _ ≤ l.source.size
  have hs : l.skipBlanks.source = l.source := rfl
  rw [hs] at hp
  omega

theorem slice_spanAhead (l : Lexer) (n : Nat) :
    (l.spanAhead n).slice l.source.toList = l.ahead.take n :=
  congrArg Word.text (l.word_tokenAhead .eof n)

theorem pos_le_skipBlanks (l : Lexer) : l.pos ≤ l.skipBlanks.pos := by
  apply Nat.le_min.mpr
  exact ⟨Nat.le_add_right _ _, l.pos_le⟩

-- Only blanks are skipped.
theorem isBlank_of_lt_skipBlanks (h : l.pos ≤ p) (hp : p < l.skipBlanks.pos)
    (hb : l.source.toList[p]? = some b) : isBlank b := by
  have hr : l.rest[p - l.pos]? = some b := by
    rw [l.rest_eq, List.getElem?_drop, Nat.add_sub_cancel' h, hb]
  have hl : p - l.pos < (l.rest.takeWhile isBlank).length := by
    have : l.skipBlanks.pos ≤ l.pos + (l.rest.takeWhile isBlank).length := Nat.min_le_left _ _
    omega
  rw [←List.takeWhile_append_dropWhile (p := isBlank) (l := l.rest),
    List.getElem?_append_left hl] at hr
  exact List.mem_takeWhile_imp (List.mem_of_getElem? hr)

theorem not_isBlank_ahead (h : l.ahead.head? = some b) : isBlank b = false := by
  have := List.head?_dropWhile_not isBlank l.rest
  simp only [ahead] at h
  simpa [h] using this

-- Getting from `l` to `l'` by an answer that is not the end of the input.
structure Step (l : Lexer) (a : Answer) (l' : Lexer) : Prop where
  source : l'.source = l.source
  start : a.span.lo = l.skipBlanks.pos
  stop : a.span.hi = l'.pos
  nonempty : a.span.lo < a.span.hi
  fits : a.Fits l.source.toList

theorem step_next (h : l.ahead ≠ []) : Step l l.next.fst l.next.snd := by
  have hw := Item.width_first_pos h
  have hl := Item.width_first_le l.ahead
  cases hf : Item.first l.ahead
  case token k n =>
    rw [hf, Item.width] at hw hl
    have hh := hi_spanAhead hl
    rw [next_token hf]
    refine ⟨rfl, rfl, rfl, ?nonempty, ?fits⟩
    case nonempty =>
      show l.skipBlanks.pos < (l.spanAhead n).hi
      omega
    case fits =>
      show LongestLexeme k ((l.spanAhead n).slice _) (List.drop l.skipBlanks.pos _)
      rw [slice_spanAhead, drop_skipBlanks]
      exact Item.longestLexeme_of_first hf
  case stray b =>
    rw [hf, Item.width] at hl
    have hh := hi_spanAhead hl
    have hb := Item.head_of_first hf
    rw [next_stray hf]
    refine ⟨rfl, rfl, rfl, ?nonempty, b, rfl, ?slice, not_isBlank_ahead hb, ?none⟩
    case nonempty =>
      show l.skipBlanks.pos < (l.spanAhead 1).hi
      omega
    case slice =>
      show (l.spanAhead 1).slice _ = _
      rw [slice_spanAhead, List.take_one, hb]
      rfl
    case none =>
      intro k r hr
      apply Item.not_lexeme_of_first hf
      rw [←drop_skipBlanks]
      exact hr
  case finish => exact absurd (ahead_of_first_finish hf) h

theorem Step.unread_lt (h : Step l a l') : l'.unread < l.unread := by
  have := h.start
  have := h.stop
  have := h.nonempty
  have := l.pos_le_skipBlanks
  have := l'.pos_le
  simp only [unread, h.source] at *
  omega

theorem size_of_ahead (h : l.ahead = []) : l.skipBlanks.pos = l.source.size := by
  apply Nat.le_antisymm l.skipBlanks.pos_le
  rw [←drop_skipBlanks, List.drop_eq_nil_iff, Array.length_toList] at h
  exact h

-- At the end of the input, the scanner says so and stays there.
theorem next_of_ahead (h : l.ahead = []) :
    l.next.fst = .ok (finish l.source.toList) ∧ l.next.snd.ahead = [] := by
  rw [next_finish h]
  constructor
  case left =>
    have hs := size_of_ahead h
    have hh : (l.spanAhead 0).hi = l.skipBlanks.pos + 0 := hi_spanAhead (Nat.zero_le _)
    refine congrArg Except.ok (congrArg (Token.mk .eof) (Span.ext ?lo ?hi))
    case lo => exact hs
    case hi => exact hh.trans hs
  case right =>
    show (l.skipBlanks.rest.drop 0).dropWhile isBlank = []
    rw [rest_skipBlanks, h]
    rfl

theorem answer_of_ahead (h : l.ahead = []) (n : Nat) : l.answer n = .ok (finish l.source.toList) := by
  induction n generalizing l
  case zero => exact (next_of_ahead h).left
  case succ n ih =>
    have hn := ih (next_of_ahead h).right
    rw [source_next_snd] at hn
    exact hn

-- Only blanks are left at the end of the input.
theorem Covers.nil (h : l.ahead = []) : Covers l.source.toList l.pos [] where
  nonempty := nofun
  within := nofun
  ordered := .nil
  fits := nofun
  blank hp hb _ := by
    refine isBlank_of_lt_skipBlanks hp ?_ hb
    rw [size_of_ahead h]
    simpa using (List.getElem?_eq_some_iff.mp hb).choose

theorem Covers.cons (h : Step l a l') (hc : Covers l.source.toList l'.pos answers) :
    Covers l.source.toList l.pos (a :: answers) where
  nonempty := List.forall_mem_cons.mpr ⟨h.nonempty, hc.nonempty⟩
  fits := List.forall_mem_cons.mpr ⟨h.fits, hc.fits⟩
  within := by
    have hb := l.pos_le_skipBlanks
    have he := l'.pos_le
    rw [h.source] at he
    refine List.forall_mem_cons.mpr ⟨⟨?_, ?_⟩, fun a' ha => ?_⟩
    · exact h.start ▸ hb
    · exact h.stop ▸ he
    · have ⟨hlo, hhi⟩ := hc.within a' ha
      have := h.start
      have := h.stop
      have := h.nonempty
      exact ⟨by omega, hhi⟩
  ordered := by
    refine .cons (fun a' ha => ?_) hc.ordered
    rw [h.stop]
    exact (hc.within a' ha).left
  blank {p b} hp hb hn := by
    have ⟨ha, hn⟩ := List.forall_mem_cons.mp hn
    rw [h.start, h.stop] at ha
    by_cases hs : p < l.skipBlanks.pos
    case pos => exact isBlank_of_lt_skipBlanks hp hs hb
    case neg => exact hc.blank (by omega) hb hn

-- By induction on what is left to read: each answer but the end of the input takes at least one byte.
theorem exists_covers (l : Lexer) :
    ∃ answers : List Answer, (∀ n a, answers[n]? = some a → l.answer n = a) ∧
      (∀ n ≥ answers.length, l.answer n = .ok (finish l.source.toList)) ∧
      Covers l.source.toList l.pos answers := by
  by_cases h : l.ahead = []
  case pos => exact ⟨[], nofun, fun n _ => answer_of_ahead h n, .nil h⟩
  case neg =>
    have hs := step_next h
    have ⟨answers, ha, he, hc⟩ := exists_covers l.next.snd
    rw [source_next_snd] at he hc
    refine ⟨l.next.fst :: answers, fun n a hn => ?_, fun n hn => ?_, .cons hs hc⟩
    · cases n with
      | zero => exact Option.some.inj hn
      | succ n => exact ha n a hn
    · cases n with
      | zero => contradiction
      | succ n => exact he n (Nat.le_of_succ_le_succ hn)
termination_by l.unread
decreasing_by exact hs.unread_lt

end Lexer

-- However often a scanner is asked, it comes to the end of the source and stays there. Its answers
-- before that are spans of one token or one stray byte each, one behind the other, with only blanks
-- between them. A token is the longest lexeme where it starts, and a stray byte starts none.
theorem answers_cover (src : Text) :
    ∃ answers : List Lexer.Answer,
      (∀ n a, answers[n]? = some a → (Lexer.ofText src).answer n = a) ∧
      (∀ n ≥ answers.length, (Lexer.ofText src).answer n = .ok (Lexer.finish src.encode)) ∧
      Lexer.Covers src.encode 0 answers :=
  (Lexer.ofText src).exists_covers

end ExprLang
