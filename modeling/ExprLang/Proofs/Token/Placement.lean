import ExprLang.Proofs.Text.Ascii
import ExprLang.Proofs.Token.Cover

/-!
Where tokens stand. Bytes are laid out as certain tokens from an offset on, with blanks before each of
them, and this is just what a scanner finds there. A layout can be cut before and behind any token and
moved to another offset.
-/
namespace ExprLang

open Token

-- The same bytes of a source with `k` more bytes in front.
def Span.shift (k : Nat) (s : Span) : Span where
  lo := s.lo + k
  hi := s.hi + k
  le := Nat.add_le_add_right s.le k

theorem Span.shift_merge (k : Nat) (s t : Span) :
    (s.merge t).shift k = (s.shift k).merge (t.shift k) := by
  refine Span.ext ?_ ?_
  · exact Nat.add_min_add_right ..  |>.symm
  · exact Nat.add_max_add_right .. |>.symm

-- A span depends on the bytes that it covers only.
theorem Span.slice_append_left {s : Span} {bs : Bytes} (h : s.hi ≤ bs.length) (cs : Bytes) :
    s.slice (bs ++ cs) = s.slice bs := by
  have := s.le
  rw [slice, slice, List.drop_append_of_le_length (by omega), List.take_append_of_le_length]
  rw [List.length_drop]
  omega

theorem Span.slice_shift (s : Span) (bs cs : Bytes) :
    (s.shift bs.length).slice (bs ++ cs) = s.slice cs := by
  simp only [slice, shift, Nat.add_sub_add_right]
  rw [Nat.add_comm, ←List.drop_drop, List.drop_left]

namespace Token

def shift (k : Nat) (t : Token) : Token where
  kind := t.kind
  span := t.span.shift k

-- The token over the `n` bytes from an offset on.
def placed (k : Kind) (lo n : Nat) : Token where
  kind := k
  span := ⟨lo, lo + n, Nat.le_add_right ..⟩

theorem shift_placed (m : Nat) (k : Kind) (lo n : Nat) :
    (placed k lo n).shift m = placed k (lo + m) n := by
  simp only [shift, placed, Span.shift, Token.mk.injEq, Span.mk.injEq, true_and]
  omega

theorem word_placed (k : Kind) (bs text cs : Bytes) :
    (placed k bs.length text.length).word (bs ++ (text ++ cs)).toArray = ⟨k, text⟩ := by
  refine Word.ext rfl ?_
  simp [word, placed, Span.slice]

theorem isBlank_ascii {b : UInt8} (h : isBlank b) : b < 0x80 := by
  have table : ∀ b : UInt8, isBlank b → b < 0x80 := forall_byte (by decide +kernel)
  exact table b h

theorem Item.length_le_of_first {bs : Bytes} {k : Kind} {n : Nat} (h : first bs = .token k n) :
    n ≤ bs.length := by
  have hn := width_first_le bs
  rwa [h] at hn

-- A token ends where no byte makes a longer one of it.
theorem Item.endsBefore_of_first {bs : Bytes} {k : Kind} {n : Nat} (h : first bs = .token k n) :
    k.endsBefore (bs.drop n) := by
  have hl := longestLexeme_of_first h
  cases hd : bs.drop n with
  | nil => exact Kind.endsBefore_nil k
  | cons b r =>
    rw [Kind.endsBefore_cons, Bool.eq_false_iff]
    intro hb
    have ⟨k', hk⟩ := Kind.exists_lexeme_snoc hl.isLexeme hb
    have hr : bs.take n ++ [b] <+: bs := by
      refine ⟨r, ?_⟩
      rw [List.append_assoc, List.singleton_append, ←hd, List.take_append_drop]
    have := hl.longest k' _ hr hk
    rw [List.length_append, List.length_singleton] at this
    omega

-- Nothing that is a token starts with a blank.
theorem Item.head_of_first_token {bs : Bytes} {k : Kind} {n : Nat} (h : first bs = .token k n) :
    ∀ b ∈ bs.head?, isBlank b = false := by
  intro b hb
  cases bs with
  | nil => cases hb
  | cons c bs =>
    cases hb
    rw [Bool.eq_false_iff]
    intro hb
    rw [first_blank hb] at h
    cases h

end Token

-- The bytes from the offset `pos` on are the tokens `ts`, with blanks before each of them, and the
-- bytes `rest` behind them. Each token ends where the next bytes begin.
inductive Places : (pos : Nat) → (bytes : Bytes) → List Token → (rest : Bytes) → Prop
  | done : Places pos bs [] bs
  | token {k : Kind} {blanks text bs : Bytes} {pos : Nat} {ts : List Token} {r : Bytes}
      (hb : ∀ b ∈ blanks, isBlank b) (ha : k.allows text) (hk : k ≠ .eof) (he : k.endsBefore bs)
      (h : Places (pos + blanks.length + text.length) bs ts r) :
      Places pos (blanks ++ (text ++ bs)) (.placed k (pos + blanks.length) text.length :: ts) r

namespace Lexer

variable {l : Lexer} {blanks bs : Bytes} {k : Kind} {n : Nat}

theorem word_finish (bs : Bytes) : (finish bs).word bs.toArray = .eof := by
  simp [finish, Token.word, Word.eof, Span.slice]

theorem pos_skip (h : n ≤ l.rest.length) : (l.skip n).pos = l.pos + n := by
  rw [length_rest] at h
  have := l.pos_le
  show min (l.pos + n) l.source.size = _
  omega

theorem pos_skipBlanks (l : Lexer) :
    l.skipBlanks.pos = l.pos + (l.rest.takeWhile isBlank).length :=
  pos_skip (List.takeWhile_sublist isBlank).length_le

-- Blanks before something else are all skipped.
theorem skipBlanks_of_rest (hr : l.rest = blanks ++ bs) (hb : ∀ b ∈ blanks, isBlank b)
    (hn : ∀ b ∈ bs.head?, isBlank b = false) :
    l.ahead = bs ∧ l.skipBlanks.pos = l.pos + blanks.length := by
  have ht : bs.takeWhile isBlank = [] := by
    cases bs with
    | nil => rfl
    | cons b bs => exact List.takeWhile_cons_of_neg (by simp [hn b rfl])
  have hd : bs.dropWhile isBlank = bs := by
    cases bs with
    | nil => rfl
    | cons b bs => exact List.dropWhile_cons_of_neg (by simp [hn b rfl])
  constructor
  case left => rw [ahead, hr, List.dropWhile_append_of_pos hb, hd]
  case right => rw [pos_skipBlanks, hr, List.takeWhile_append_of_pos hb, ht, List.append_nil]

theorem tokenAhead_eq (h : n ≤ l.ahead.length) : l.tokenAhead k n = .placed k l.skipBlanks.pos n := by
  refine congrArg (Token.mk k) (Span.ext rfl ?_)
  exact hi_spanAhead h

-- One step of a scanner takes off the blanks, the token and no more.
theorem rest_of_first (h : Item.first l.ahead = .token k n) :
    l.rest = l.rest.takeWhile isBlank ++ (l.ahead.take n ++ (l.skipBlanks.skip n).rest) ∧
      (l.ahead.take n).length = n ∧
      (l.skipBlanks.skip n).pos = l.pos + (l.rest.takeWhile isBlank).length + n := by
  have hn := Item.length_le_of_first h
  refine ⟨?_, List.length_take_of_le hn, ?_⟩
  · have hr : (l.skipBlanks.skip n).rest = l.ahead.drop n := congrArg (List.drop n) l.rest_skipBlanks
    rw [hr, List.take_append_drop, ahead, List.takeWhile_append_dropWhile]
  · rw [pos_skip (l.rest_skipBlanks ▸ hn), pos_skipBlanks]

-- What is laid out behind a token is laid out behind the blanks and the token before a scanner.
theorem places_cons {ts : List Token} {r : Bytes} (h : Item.first l.ahead = .token k n)
    (hp : Places (l.skipBlanks.skip n).pos (l.skipBlanks.skip n).rest ts r) :
    Places l.pos l.rest (l.tokenAhead k n :: ts) r := by
  have ⟨ha, hk⟩ := Item.allows_of_first h
  have ⟨hr, hlen, hpos⟩ := rest_of_first h
  have he : k.endsBefore (l.skipBlanks.skip n).rest := by
    show k.endsBefore (l.skipBlanks.rest.drop n)
    rw [rest_skipBlanks]
    exact Item.endsBefore_of_first h
  have hb : ∀ b ∈ l.rest.takeWhile isBlank, isBlank b := fun _ => List.mem_takeWhile_imp
  have hp : Places (l.pos + (l.rest.takeWhile isBlank).length + (l.ahead.take n).length)
      (l.skipBlanks.skip n).rest ts r := by
    rwa [hlen, ←hpos]
  have hp := Places.token hb ha hk he hp
  rwa [hlen, ←hr, ←pos_skipBlanks, ←tokenAhead_eq (Item.length_le_of_first h)] at hp

-- What a scanner finds up to the end of the input is laid out before it. By recursion along the
-- scan: each token takes at least one byte.
theorem places_scan {l : Lexer} (hf : l.scan.fault = none) :
    ∃ ts rest, l.scan.tokens = ts ++ [finish l.source.toList] ∧ Places l.pos l.rest ts rest ∧
      ∀ b ∈ rest, isBlank b := by
  cases hi : Item.first l.ahead with
  | stray b => simp [scan_error (next_stray hi)] at hf
  | finish =>
    have ha := ahead_of_first_finish hi
    have hn := next_finish ha
    have hfin := (next_of_ahead ha).left
    rw [hn] at hfin
    refine ⟨[], l.rest, ?_, .done, ?_⟩
    · rw [scan_eof hn rfl, Except.ok.inj hfin]
      rfl
    · exact List.dropWhile_eq_nil_iff.mp ha
  | token k n =>
    have hn := next_token hi
    have ⟨_, hk⟩ := Item.allows_of_first hi
    rw [scan_next hn hk] at hf
    have ⟨ts, rest, hts, hp, hb⟩ := places_scan hf
    refine ⟨l.tokenAhead k n :: ts, rest, ?_, places_cons hi hp, hb⟩
    rw [scan_next hn hk, hts]
    rfl
termination_by l.unread
decreasing_by exact unread_next_lt hn hk

-- What a scanner finds before the first stray byte is laid out before it, and the stray byte comes behind
-- blanks. By recursion along the scan, as for a scan without a fault.
theorem places_fault {l : Lexer} {e : SyntaxError} (hf : l.scan.fault = some e) :
    ∃ blanks b bs, Places l.pos l.rest l.scan.tokens (blanks ++ b :: bs) ∧
      (∀ c ∈ blanks, isBlank c) ∧ isBlank b = false ∧ Item.first (b :: bs) = .stray b ∧
      e.cause = .strayByte b ∧ e.span.lo + (bs.length + 1) = l.source.size ∧
      e.span.hi = e.span.lo + 1 := by
  cases hi : Item.first l.ahead with
  | finish => simp [scan_eof (next_finish (ahead_of_first_finish hi)) rfl] at hf
  | token k n =>
    have hn := next_token hi
    have ⟨_, hk⟩ := Item.allows_of_first hi
    rw [scan_next hn hk] at hf
    have ⟨blanks, b, bs, hp, h⟩ := places_fault hf
    refine ⟨blanks, b, bs, ?_, h⟩
    rw [scan_next hn hk]
    exact places_cons hi hp
  | stray b =>
    have hn := next_stray hi
    rw [scan_error hn] at hf ⊢
    cases hf
    obtain ⟨bs, hb⟩ : ∃ bs, l.ahead = b :: bs := List.head?_eq_some_iff.mp (Item.head_of_first hi)
    have hsize := congrArg List.length l.drop_skipBlanks
    have hle := l.skipBlanks.pos_le
    have hhi : (l.spanAhead 1).hi = l.skipBlanks.pos + 1 := hi_spanAhead (by simp [hb])
    have hs : l.skipBlanks.source = l.source := rfl
    rw [List.length_drop, Array.length_toList, hb, List.length_cons] at hsize
    refine ⟨l.rest.takeWhile isBlank, b, bs, ?_, fun _ => List.mem_takeWhile_imp, ?_, hb ▸ hi, rfl, ?_, hhi⟩
    · rw [←hb, ahead, List.takeWhile_append_dropWhile]
      exact .done
    · exact not_isBlank_ahead (congrArg List.head? hb)
    · show l.skipBlanks.pos + (bs.length + 1) = _
      rw [hs] at hle
      omega
termination_by l.unread
decreasing_by exact unread_next_lt hn hk

-- The tokens that are found before another one are laid out, whatever comes of the scan behind it.
theorem places_of_tokens {ts us : List Token} {t : Token} (h : l.scan.tokens = ts ++ t :: us) :
    ∃ rest, Places l.pos l.rest ts rest := by
  induction ts generalizing l
  case nil => exact ⟨l.rest, .done⟩
  case cons u ts ih =>
    cases hi : Item.first l.ahead with
    | stray b => simp [scan_error (next_stray hi)] at h
    | finish => simp [scan_eof (next_finish (ahead_of_first_finish hi)) rfl] at h
    | token k n =>
      have hn := next_token hi
      have ⟨_, hk⟩ := Item.allows_of_first hi
      rw [scan_next hn hk] at h
      have ⟨hu, h⟩ := List.cons.inj h
      have ⟨rest, hp⟩ := ih h
      exact ⟨rest, hu ▸ places_cons hi hp⟩

end Lexer

namespace Places

variable {pos k : Nat} {bs r : Bytes} {ts us : List Token} {t : Token}

-- A scanner finds what is laid out before it.
theorem scan_eq (h : Places pos bs ts r) (hr : ∀ b ∈ r, isBlank b) {l : Lexer} (hp : l.pos = pos)
    (hl : l.rest = bs) :
    l.scan.tokens = ts ++ [Lexer.finish l.source.toList] ∧ l.scan.fault = none := by
  induction h generalizing l
  case done =>
    have ha : l.ahead = [] := by
      rw [Lexer.ahead, hl]
      exact List.dropWhile_eq_nil_iff.mpr hr
    have hn := Lexer.next_finish ha
    have hfin := (Lexer.next_of_ahead ha).left
    rw [hn] at hfin
    rw [Lexer.scan_eof hn rfl, Except.ok.inj hfin]
    exact ⟨rfl, rfl⟩
  case token k blanks text bs pos ts r hb ha hk he _ ih =>
    have hf := Item.first_append ha hk he
    obtain ⟨hah, hpos⟩ := Lexer.skipBlanks_of_rest hl hb (Item.head_of_first_token hf)
    rw [←hah] at hf
    have hn := Lexer.next_token hf
    have hle := Item.length_le_of_first hf
    have hp' : (l.skipBlanks.skip text.length).pos = pos + blanks.length + text.length := by
      rw [Lexer.pos_skip (l.rest_skipBlanks ▸ hle), hpos, hp]
    have hl' : (l.skipBlanks.skip text.length).rest = bs := by
      show l.skipBlanks.rest.drop text.length = bs
      rw [l.rest_skipBlanks, hah, List.drop_left]
    obtain ⟨hts, hfault⟩ := ih hr hp' hl'
    rw [Lexer.scan_next hn hk, hts, Lexer.tokenAhead_eq hle, hpos, hp]
    exact ⟨rfl, hfault⟩

-- Any two neighbours can be taken apart.
theorem split (h : Places pos bs (ts ++ us) r) :
    ∃ pre mid, bs = pre ++ mid ∧ Places pos pre ts [] ∧ Places (pos + pre.length) mid us r := by
  induction ts generalizing pos bs
  case nil => exact ⟨[], bs, rfl, .done, h⟩
  case cons t ts ih =>
    cases h with
    | @token k blanks text bs _ _ _ hb ha hk he h =>
    have ⟨pre, mid, hbs, hp, hm⟩ := ih h
    refine ⟨blanks ++ (text ++ pre), mid, by simp [hbs], .token hb ha hk ?_ hp, ?_⟩
    · subst hbs
      cases pre with
      | nil => exact Kind.endsBefore_nil k
      | cons b pre => exact he
    · simpa [Nat.add_assoc] using hm

-- Another layout can follow where no token goes on.
theorem append {cs : Bytes} (h : Places pos bs ts []) (hc : ∀ k : Kind, k.endsBefore cs)
    (h' : Places (pos + bs.length) cs us r) : Places pos (bs ++ cs) (ts ++ us) r := by
  generalize hr : ([] : Bytes) = r' at h
  induction h
  case done =>
    subst hr
    exact h'
  case token k blanks text bs pos ts r' hb ha hk he _ ih =>
    simp only [List.append_assoc, List.cons_append]
    refine .token hb ha hk ?_ (ih ?_ hr)
    · cases bs with
      | nil => exact hc k
      | cons b bs => exact he
    · simpa [Nat.add_assoc] using h'

-- The blanks before the first token can be left out.
theorem trim (h : Places pos bs (t :: ts) r) :
    ∃ blanks bs', bs = blanks ++ bs' ∧ t.span.lo = pos + blanks.length ∧
      Places t.span.lo bs' (t :: ts) r := by
  cases h with
  | @token k blanks text bs _ _ _ hb ha hk he h =>
  refine ⟨blanks, text ++ bs, rfl, rfl, ?_⟩
  have hn : ∀ b ∈ ([] : Bytes), isBlank b := nofun
  exact .token hn ha hk he h

-- A layout without a rest ends with its last token.
theorem hi_getLast (h : Places pos bs ts []) (ht : t ∈ ts.getLast?) :
    t.span.hi = pos + bs.length := by
  generalize hr : ([] : Bytes) = r at h
  induction h
  case done => cases ht
  case token k blanks text bs pos ts r hb ha hk he h ih =>
    rw [List.length_append, List.length_append, ←Nat.add_assoc, ←Nat.add_assoc]
    cases ts with
    | nil =>
      cases h
      subst hr
      cases ht
      rfl
    | cons u ts => exact ih ht hr

theorem within (h : Places pos bs ts r) : ∀ t ∈ ts, pos ≤ t.span.lo ∧ t.span.hi ≤ pos + bs.length := by
  induction h
  case done => simp
  case token k blanks text bs pos ts r hb ha hk he _ ih =>
    simp only [List.forall_mem_cons, List.length_append]
    refine ⟨⟨Nat.le_add_right _ _, ?_⟩, fun t ht => ?_⟩
    · simp only [placed]
      omega
    · have := ih t ht
      omega

-- The words of a layout do not depend on what follows it.
theorem words_append (h : Places 0 bs ts r) (cs : Bytes) :
    ts.map (·.word (bs ++ cs).toArray) = ts.map (·.word bs.toArray) := by
  refine List.map_congr_left fun t ht => ?_
  have ⟨_, hi⟩ := h.within t ht
  exact Word.ext rfl (Span.slice_append_left (by omega) cs)

-- The same tokens as if fewer bytes were before them.
theorem unshift (h : Places (pos + k) bs ts r) :
    ∃ us, ts = us.map (shift k) ∧ Places pos bs us r := by
  generalize hp : pos + k = pos' at h
  induction h generalizing pos
  case done => exact ⟨[], rfl, .done⟩
  case token kind blanks text bs pos' ts r hb ha hk he h ih =>
    have hp' : pos + blanks.length + text.length + k = pos' + blanks.length + text.length := by omega
    have ⟨us, hus, hu⟩ := ih hp'
    refine ⟨.placed kind (pos + blanks.length) text.length :: us, ?_, .token hb ha hk he hu⟩
    rw [List.map_cons, shift_placed, hus, ←hp, Nat.add_right_comm]

theorem ascii (h : Places pos bs ts r) (hr : ∀ b ∈ r, b < 0x80) : ∀ b ∈ bs, b < 0x80 := by
  induction h
  case done => exact hr
  case token kind blanks text bs pos ts r hb ha hk he h ih =>
    simp only [List.forall_mem_append]
    exact ⟨fun b hm => isBlank_ascii (hb b hm), Kind.allows_ascii ha, ih hr⟩

-- A text that consists of tokens and blanks is scanned as these tokens.
theorem scan_ofAscii (h : Places 0 bs ts []) :
    (Lexer.ofText (.ofAscii bs)).scan.tokens = ts ++ [Lexer.finish bs] ∧
      (Lexer.ofText (.ofAscii bs)).scan.fault = none ∧
      (Lexer.ofText (.ofAscii bs)).words = ts.map (·.word bs.toArray) ++ [.eof] := by
  rw [Lexer.ofText, Text.encode_ofAscii (h.ascii (by simp))]
  have ⟨hts, hf⟩ := h.scan_eq (l := .ofBytes bs) (by simp) rfl (by simp [Lexer.ofBytes])
  refine ⟨hts, hf, ?_⟩
  rw [Lexer.words, hts, List.map_append, List.map_singleton]
  exact congrArg (_ ++ [·]) (Lexer.word_finish bs)

end Places
end ExprLang
