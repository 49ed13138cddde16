import ExprLang.Proofs.Token.Placement

/-!
Tokens written out with blanks between them. Any lexemes in any order are read back one by one, with their
kinds and in their places, if there is at least one blank between neighbours.
-/
namespace ExprLang

open Token

-- A lexeme with the blanks before it.
structure Spaced where
  blanks : Bytes
  word : Word
  blank : ∀ b ∈ blanks, isBlank b
  lexeme : Lexeme word.kind word.text

namespace Spaced

def bytes : List Spaced → Bytes
  | [] => []
  | x :: xs => x.blanks ++ (x.word.text ++ bytes xs)

-- The tokens over the lexemes, the blanks before the first of which start at `pos`.
def tokens (pos : Nat) : List Spaced → List Token
  | [] => []
  | x :: xs =>
    let lo := pos + x.blanks.length
    .placed x.word.kind lo x.word.text.length :: tokens (lo + x.word.text.length) xs

-- Whether there are blanks between all neighbours.
def Apart (xs : List Spaced) : Prop :=
  ∀ x ∈ xs.tail, x.blanks ≠ []

variable {xs : List Spaced} {x : Spaced} {bs last : Bytes} {b : UInt8} {k : Kind}

theorem Apart.tail (h : Apart (x :: xs)) : Apart xs :=
  fun _ hx => h _ (List.mem_of_mem_tail hx)

-- No token goes on with a blank.
theorem endsBefore_of_blank (h : ∀ b ∈ bs.head?, isBlank b) : k.endsBefore bs := by
  have table : ∀ b : UInt8, isBlank b → ∀ k ∈ Kind.all, k.extendedBy b = false :=
    forall_byte (by decide +kernel)
  cases bs with
  | nil => exact Kind.endsBefore_nil k
  | cons b bs => exact (Kind.endsBefore_cons ..).mpr (table b (h b rfl) k k.mem_all)

theorem isBlank_head (h : Apart (x :: xs)) (hl : ∀ b ∈ last, isBlank b) :
    ∀ b ∈ (bytes xs ++ last).head?, isBlank b := by
  cases xs with
  | nil => exact fun b hb => hl b (List.mem_of_mem_head? hb)
  | cons y ys =>
    obtain ⟨c, cs, hc⟩ := List.exists_cons_of_ne_nil (h y (.head _))
    intro b hb
    simp only [bytes, hc, List.cons_append, List.head?_cons, Option.mem_def, Option.some.injEq] at hb
    exact hb ▸ y.blank c (hc ▸ .head _)

-- What is written out is laid out as the tokens over it.
theorem places (h : Apart xs) (hl : ∀ b ∈ last, isBlank b) (pos : Nat) :
    Places pos (bytes xs ++ last) (tokens pos xs) last := by
  induction xs generalizing pos with
  | nil => exact .done
  | cons x xs ih =>
    have ⟨ha, hk⟩ := Kind.lexeme_iff_allows.mp x.lexeme
    rw [bytes, List.append_assoc, List.append_assoc]
    exact .token x.blank ha hk (endsBefore_of_blank (isBlank_head h hl)) (ih h.tail _)

-- The tokens stand where the lexemes are.
theorem words_tokens (before : Bytes) :
    (tokens before.length xs).map (·.word (before ++ (bytes xs ++ last)).toArray) =
      xs.map (·.word) := by
  induction xs generalizing before with
  | nil => rfl
  | cons x xs ih =>
    have ih := ih (before ++ (x.blanks ++ x.word.text))
    have hw := word_placed x.word.kind (before ++ x.blanks) x.word.text (bytes xs ++ last)
    simp only [List.length_append, List.append_assoc, ←Nat.add_assoc] at ih hw
    simp only [tokens, bytes, List.map_cons, List.append_assoc, ih, hw]

end Spaced

variable {xs : List Spaced} {last : Bytes}

-- Lexemes that are written out with blanks between them are read back in order, each as a token of its
-- kind in its place, and then there is the end of the input.
theorem tokenize_spaced (h : Spaced.Apart xs) (hl : ∀ b ∈ last, isBlank b) :
    let bs := Spaced.bytes xs ++ last
    (Text.ofAscii bs).encode = bs ∧
      tokenize (.ofAscii bs) = .ok (Spaced.tokens 0 xs ++ [Lexer.finish bs]) ∧
      (Spaced.tokens 0 xs).map (·.word bs.toArray) = xs.map (·.word) := by
  intro bs
  have hp : Places 0 bs (Spaced.tokens 0 xs) last := Spaced.places h hl 0
  have hb : (Text.ofAscii bs).encode = bs :=
    Text.encode_ofAscii (hp.ascii fun b hb => isBlank_ascii (hl b hb))
  have ⟨hts, hf⟩ := hp.scan_eq (l := .ofBytes bs) hl rfl rfl
  refine ⟨hb, ?_, Spaced.words_tokens []⟩
  rw [tokenize, Lexer.drain, Lexer.ofText, hb, hf, hts]
  rfl

-- Words that would be one word without the blanks, with blanks at both ends.
theorem tokenize_spaced_words :
    let x : Spaced := ⟨[0x20], ⟨.ident, [0x78, 0x31]⟩, List.all_eq_true.mp rfl,
      Kind.lexeme_iff_allows.mpr (by decide)⟩
    let y : Spaced := ⟨[0x09, 0x0A], ⟨.number, [0x30, 0x37]⟩, List.all_eq_true.mp rfl,
      Kind.lexeme_iff_allows.mpr (by decide)⟩
    let z : Spaced := ⟨[0x0C], ⟨.kwIf, Kind.kwIf.bytes⟩, List.all_eq_true.mp rfl, .fixed rfl⟩
    let bs := Spaced.bytes [x, y, z] ++ [0x0D]
    Spaced.Apart [x, y, z] ∧ (∀ b ∈ ([0x0D] : Bytes), isBlank b) ∧ (Text.ofAscii bs).encode = bs ∧
      tokenize (.ofAscii bs) = .ok (Spaced.tokens 0 [x, y, z] ++ [Lexer.finish bs]) ∧
      (Spaced.tokens 0 [x, y, z]).map (·.word bs.toArray) = [x.word, y.word, z.word] := by
  intro x y z bs
  have h : Spaced.Apart [x, y, z] := by simp [Spaced.Apart, y, z]
  have hl : ∀ b ∈ ([0x0D] : Bytes), isBlank b := List.all_eq_true.mp rfl
  exact ⟨h, hl, tokenize_spaced h hl⟩

end ExprLang
