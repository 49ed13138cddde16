import ExprLang.SyntaxError

namespace ExprLang

namespace Token

def isBlank (b : UInt8) : Bool :=
  b = 0x20 || b = 0x09 || b = 0x0A || b = 0x0D || b = 0x0C

def isDigit (b : UInt8) : Bool :=
  '0'.toUInt8 ≤ b && b ≤ '9'.toUInt8

def isLetter (b : UInt8) : Bool :=
  ('a'.toUInt8 ≤ b && b ≤ 'z'.toUInt8) || ('A'.toUInt8 ≤ b && b ≤ 'Z'.toUInt8)

-- What a word may hold after its first letter.
def isWord (b : UInt8) : Bool :=
  isLetter b || isDigit b || b = '_'.toUInt8

-- The tokens of one byte that no other token starts with.
def Kind.ofByte? (b : UInt8) : Option Kind :=
  match Char.ofUInt8 b with
  | '+' => some .plus
  | '*' => some .star
  | '/' => some .slash
  | '(' => some .lparen
  | ')' => some .rparen
  | '{' => some .lbrace
  | '}' => some .rbrace
  | ':' => some .colon
  | ';' => some .semi
  | _ => none

-- A token of one byte together with the byte that makes a longer one of it.
structure Pair where
  second : UInt8
  long : Kind
  short : Kind

def Pair.ofByte? (b : UInt8) : Option Pair :=
  match Char.ofUInt8 b with
  | '-' => some ⟨'>'.toUInt8, .arrow, .minus⟩
  | '=' => some ⟨'='.toUInt8, .eqEq, .eq⟩
  | '!' => some ⟨'='.toUInt8, .bangEq, .bang⟩
  | '>' => some ⟨'='.toUInt8, .gtEq, .gt⟩
  | '<' => some ⟨'='.toUInt8, .ltEq, .lt⟩
  | '&' => some ⟨'&'.toUInt8, .ampAmp, .amp⟩
  | '|' => some ⟨'|'.toUInt8, .pipePipe, .pipe⟩
  | _ => none

-- What input starts with once the blanks before it are gone.
inductive Item
  | token (kind : Kind) (width : Nat)
  | stray (byte : UInt8)
  | finish
  deriving DecidableEq

namespace Item

def width : Item → Nat
  | .token _ width => width
  | .stray _ => 1
  | .finish => 0

def first : Bytes → Item
  | [] => .finish
  | b :: bs =>
    if let some kind := Kind.ofByte? b then
      .token kind 1
    else if let some pair := Pair.ofByte? b then
      if bs.head? = some pair.second then .token pair.long 2 else .token pair.short 1
    else if isLetter b then
      let word := b :: bs.takeWhile isWord
      .token (.ofWord word) word.length
    else if isDigit b then
      .token .number (b :: bs.takeWhile isDigit).length
    else
      .stray b

theorem width_first_pos {bs : Bytes} (h : bs ≠ []) : 0 < (first bs).width := by
  cases bs with
  | nil => exact absurd rfl h
  | cons b bs =>
    simp only [first]
    split
    · exact Nat.one_pos
    · split
      · split <;> simp [width]
      · split
        · exact Nat.succ_pos _
        · split
          · exact Nat.succ_pos _
          · exact Nat.one_pos

theorem width_first_le (bs : Bytes) : (first bs).width ≤ bs.length := by
  have run (p : UInt8 → Bool) (bs : Bytes) : (bs.takeWhile p).length ≤ bs.length :=
    (List.takeWhile_sublist p).length_le
  cases bs with
  | nil => exact Nat.le_refl 0
  | cons b bs =>
    simp only [first]
    split
    · simp [width]
    · split
      · split
        · cases bs <;> simp_all [width]
        · simp [width]
      · split
        · exact Nat.succ_le_succ (run isWord bs)
        · split
          · exact Nat.succ_le_succ (run isDigit bs)
          · simp [width]

end Item
end Token

-- A scanner over the bytes of a source. It stands at `pos` with `rest` before it, and the token that
-- it last worked on starts at `start`.
structure Lexer where
  source : Array UInt8
  start : Nat
  pos : Nat
  rest : Bytes
  start_le : start ≤ pos
  pos_le : pos ≤ source.size
  rest_eq : rest = source.toList.drop pos

namespace Lexer

open Token

def ofBytes (bs : Bytes) : Lexer where
  source := bs.toArray
  start := 0
  pos := 0
  rest := bs
  start_le := Span.dummy.le
  pos_le := Nat.zero_le _
  rest_eq := rfl

def ofText (src : Text) : Lexer :=
  ofBytes src.encode

theorem length_rest (l : Lexer) : l.rest.length = l.source.size - l.pos := by
  simp [l.rest_eq]

def span (l : Lexer) : Span where
  lo := l.start
  hi := l.pos
  le := l.start_le

def token (l : Lexer) (kind : Kind) : Token where
  kind := kind
  span := l.span

def atEnd (l : Lexer) : Bool :=
  l.rest.isEmpty

-- The next byte, or zero at the end of the source.
def peek (l : Lexer) : UInt8 :=
  l.rest.head?.getD 0

-- Moves over at most `n` bytes.
def skip (l : Lexer) (n : Nat) : Lexer :=
  { l with
    pos := min (l.pos + n) l.source.size
    rest := l.rest.drop n
    start_le := by have := l.start_le; have := l.pos_le; omega
    pos_le := Nat.min_le_right _ _
    rest_eq := by
      rw [l.rest_eq, List.drop_drop]
      rcases Nat.le_total (l.pos + n) l.source.size with h | h
      · rw [Nat.min_eq_left h]
      · simp [Nat.min_eq_right h] }

def advance (l : Lexer) : Lexer :=
  l.skip 1

def eatWhile (l : Lexer) (accept : UInt8 → Bool) : Lexer :=
  l.skip (l.rest.takeWhile accept).length

-- The bytes of a span.
def slice (l : Lexer) (s : Span) : Bytes :=
  (l.source.extract s.lo s.hi).toList

theorem slice_eq (l : Lexer) (s : Span) : l.slice s = s.slice l.source.toList := by
  simp [slice, Span.slice]

def lexeme (l : Lexer) (s : Span) : Except DecodeFault Text :=
  Utf8.decode .allowed (l.slice s)

-- Goes on with a word up to its end and reads all of it from `start`. The part before `pos` can
-- be anything.
def ident (l : Lexer) : Except DecodeFault Token × Lexer :=
  let l := l.eatWhile isWord
  ((fun _ => l.token (.ofWord (l.slice l.span))) <$> l.lexeme l.span, l)

-- Goes on with a number up to its end.
def number (l : Lexer) : Token × Lexer :=
  let l := l.eatWhile isDigit
  (l.token .number, l)

-- Starts a token after the blanks that come next.
def skipBlanks (l : Lexer) : Lexer :=
  let l := l.eatWhile isBlank
  { l with start := l.pos, start_le := Nat.le_refl _ }

-- The next token. A byte that starts none is passed over, and at the end of the source there is an
-- end-of-input token as often as one is asked for.
def next (l : Lexer) : Except SyntaxError Token × Lexer :=
  let l := l.skipBlanks
  let item := Item.first l.rest
  let l := l.skip item.width
  match item with
  | .token kind _ => (.ok (l.token kind), l)
  | .stray b => (.error ⟨l.span, .strayByte b⟩, l)
  | .finish => (.ok (l.token .eof), l)

def unread (l : Lexer) : Nat :=
  l.source.size - l.pos

theorem unread_skip (l : Lexer) (n : Nat) : (l.skip n).unread = l.unread - n := by
  have := l.pos_le
  simp only [unread, skip]
  omega

theorem unread_skipBlanks_le (l : Lexer) : l.skipBlanks.unread ≤ l.unread :=
  l.unread_skip _ ▸ Nat.sub_le _ _

theorem unread_pos_of_rest {l : Lexer} (h : l.rest ≠ []) : 0 < l.unread :=
  Nat.lt_of_lt_of_eq (List.length_pos_iff.mpr h) l.length_rest

-- Every token but the end of the input takes at least one byte.
theorem unread_next_lt {l l' : Lexer} {t : Token} (h : l.next = (.ok t, l')) (ht : t.kind ≠ .eof) :
    l'.unread < l.unread := by
  have hb := l.unread_skipBlanks_le
  simp only [next] at h
  split at h
  case h_1 hi =>
    simp only [Prod.mk.injEq] at h
    have hr : l.skipBlanks.rest ≠ [] := by
      intro hr
      simp [hr, Item.first] at hi
    have hw := Item.width_first_pos hr
    have hu := unread_pos_of_rest hr
    rw [←h.right, unread_skip]
    omega
  case h_2 => simp at h
  case h_3 =>
    simp only [Prod.mk.injEq, Except.ok.injEq] at h
    exact absurd (h.left ▸ rfl) ht

-- Tokens that were read, and the fault that no token could be read behind them for.
structure Scan where
  tokens : List Token
  fault : Option SyntaxError
  lexer : Lexer

-- All tokens up to and including the end of the input, or up to the first fault.
def scan (l : Lexer) : Scan :=
  match _h : l.next with
  | (.error e, l) => ⟨[], some e, l⟩
  | (.ok t, l) =>
    if _ht : t.kind = .eof then
      ⟨[t], none, l⟩
    else
      let s := l.scan
      { s with tokens := t :: s.tokens }
termination_by l.unread
decreasing_by exact unread_next_lt _h _ht

-- All tokens up to and including the end of the input, unless there is a fault.
def drain (l : Lexer) : Except SyntaxError (List Token) × Lexer :=
  let s := l.scan
  (s.fault.elim (.ok s.tokens) .error, s.lexer)

end Lexer

def tokenize (src : Text) : Except SyntaxError (List Token) :=
  (Lexer.ofText src).drain.fst

end ExprLang
