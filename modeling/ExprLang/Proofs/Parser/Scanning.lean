import ExprLang.Proofs.Parser.Abreast
import ExprLang.Proofs.Parser.Acceptance

/-!
Parsing beside scanning. A parser asks for one token after the other and may stop before the scanner comes
to a stray byte. So it stops at this byte, too, or at a token before it, and it stops at no other stray
byte. It comes back only with the tree of a source without one.
-/
namespace ExprLang

open Token

-- No more digits in a row than are read as a number.
def ShortRuns (bs : Bytes) : Prop :=
  ∀ ds, ds <:+: bs → (∀ b ∈ ds, isDigit b) → ds.length ≤ Text.maxDigits

theorem Span.slice_infix (s : Span) (bs : Bytes) : s.slice bs <:+: bs :=
  (List.take_prefix ..).isInfix.trans (List.drop_suffix ..).isInfix

-- All tokens that are found before a stray byte end before it.
theorem Lexer.hi_le_fault {l : Lexer} {e : SyntaxError} (hf : l.scan.fault = some e) :
    ∀ t ∈ l.scan.tokens, t.span.hi ≤ e.span.lo := by
  obtain ⟨blanks, b, bs, hp, -, -, -, -, hlo, -⟩ := places_fault hf
  obtain ⟨pre, mid, hr, hp, hm⟩ := (l.scan.tokens.append_nil.symm ▸ hp :
    Places l.pos l.rest (l.scan.tokens ++ []) (blanks ++ b :: bs)).split
  cases hm
  have hlen := congrArg List.length hr
  rw [length_rest, List.length_append, List.length_append, List.length_cons] at hlen
  intro t ht
  have ⟨_, hhi⟩ := hp.within t ht
  omega

theorem tokenize_eq_error {src : Text} {e : SyntaxError} :
    tokenize src = .error e ↔ (Lexer.ofText src).scan.fault = some e := by
  simp only [tokenize, Lexer.drain]
  cases (Lexer.ofText src).scan.fault <;> simp

namespace Parser

variable {src : Text} {i j : Interner} {d : Int} {e : SyntaxError}

-- The fault that the scanner finds, or one that is told at a token before it.
theorem fault_cases (hi : i.Reachable) (h : parse src i d = (.error (.ofFault e), j)) :
    (Lexer.ofText src).scan.fault = some e ∨
      (∀ b, e.cause ≠ .strayByte b) ∧ ∃ t ∈ (Lexer.ofText src).scan.tokens, e.span = t.span := by
  cases (Pair.same src hi hi).parse_both d with
  | inl hp =>
    obtain ⟨_, _, hp, _⟩ := hp
    cases h.symm.trans hp
  | inr hp =>
    obtain ⟨f, _, _, _, hp, _, hs⟩ := hp
    have hf : .ofFault e = f := Except.error.inj (congrArg Prod.fst (h.symm.trans hp))
    cases hs with
    | fault ht _ hc =>
      obtain rfl := Failure.ofFault_inj.mp hf
      exact .inr ⟨hc, _, ht.right, rfl⟩
    | stray hs =>
      obtain ⟨-, rfl⟩ := Failure.ofFault_eq_fault.mp hf
      exact .inl hs
    | numeral => exact absurd hf Failure.ofFault_ne_numeral

-- Without long rows of digits, all numerals are read.
theorem exists_fault (hd : ShortRuns src.encode) {f : Failure}
    (h : parse src i d = (.error f, j)) : ∃ e, f = .ofFault e := by
  cases of_parse h with
  | fault he => exact ⟨_, (Failure.ofFault_of_isWritable he).symm⟩
  | @unwritten span hd =>
    have hw : (⟨span, .tooDeep d⟩ : SyntaxError).isWritable = false := hd
    exact ⟨_, (Failure.ofFault_of_isWritable_eq_false hw).symm⟩
  | @tooLong t text ht hk hs hl =>
    have ha : t.kind.allows (t.span.slice src.encode) :=
      Lexer.allows_words (Lexer.ofText src) (List.mem_map_of_mem ht)
    cases hs.symm.trans (Text.decode_ascii (Kind.allows_ascii ha))
    simp only [hk, Kind.allows, Kind.isNumeral, Bool.and_eq_true, List.all_eq_true] at ha
    have hlen := hd _ (t.span.slice_infix _) ha.right
    have hlen' : (Text.ofAscii (t.span.slice src.encode)).length = _ := List.length_map _
    omega

theorem tokenize_of_parse {t : Program} (hi : i.Reachable) (h : parse src i d = (.ok t, j)) :
    tokenize src = .ok (Lexer.ofText src).scan.tokens := by
  have ⟨_, _, hf, _⟩ := sound_parse hi.valid h
  exact tokenize_eq_ok_iff.mpr ⟨hf, rfl⟩

end Parser

variable {src : Text} {i : Interner}

end ExprLang
