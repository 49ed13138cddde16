import ExprLang.Proofs.Eval.Chain
import ExprLang.Proofs.Eval.Nesting
import ExprLang.Proofs.Parser.Abreast
import ExprLang.Proofs.Parser.Slices
import ExprLang.Proofs.Tree.Rendering

/-!
A source matters through its tokens only. If blanks are put in or left out between the tokens of a
source, it is parsed as the same tree over the tokens, or refused at the same token for the same reason,
and its value stays the same.
-/
namespace ExprLang

open Token Grammar

-- Sources that are scanned as the same words.
structure Respacing (src src' : Text) (ts ts' : List Token) : Prop where
  scans : tokenize src = .ok ts
  scans' : tokenize src' = .ok ts'
  kinds : ts.map (·.kind) = ts'.map (·.kind)
  texts : ts.map (·.span.text src) = ts'.map (·.span.text src')

-- The span from the start of a token to the end of another.
def Span.Covers (s : Span) (ts : List Token) (m n : Nat) : Prop :=
  ∃ t u, ts[m]? = some t ∧ ts[n]? = some u ∧ s.lo = t.span.lo ∧ s.hi = u.span.hi

-- Spans over the same tokens. The end of the input is none of them.
def Respaced (ts ts' : List Token) (s s' : Span) : Prop :=
  ∃ m n, m ≤ n ∧ n + 1 < ts.length ∧ s.Covers ts m n ∧ s'.Covers ts' m n

section

variable {ts : List Token} {t u : Token} {m n m' n' : Nat} {s s' : Span}

-- Tokens that stand further behind in a list stand further behind in the source.
theorem Grammar.Ordered.le (h : Ordered ts) (ht : ts[m]? = some t) (hu : ts[n]? = some u)
    (hmn : m ≤ n) : t.span.lo ≤ u.span.lo ∧ t.span.hi ≤ u.span.hi := by
  obtain ⟨hm, rfl⟩ := List.getElem?_eq_some_iff.mp ht
  obtain ⟨hn, rfl⟩ := List.getElem?_eq_some_iff.mp hu
  cases Nat.eq_or_lt_of_le hmn with
  | inl he =>
    subst he
    exact ⟨Nat.le_refl _, Nat.le_refl _⟩
  | inr hlt =>
    have := List.pairwise_iff_getElem.mp h m n hm hn hlt
    have := ts[m].span.le
    have := ts[n].span.le
    omega

theorem Span.Covers.merge (ho : Ordered ts) (h : s.Covers ts m n) (h' : s'.Covers ts m' n') :
    (s.merge s').Covers ts (min m m') (max n n') := by
  have ⟨t, u, ht, hu, hlo, hhi⟩ := h
  have ⟨t', u', ht', hu', hlo', hhi'⟩ := h'
  have ⟨v, hv, hlo⟩ : ∃ v, ts[min m m']? = some v ∧ (s.merge s').lo = v.span.lo := by
    cases Nat.le_total m m' with
    | inl hm =>
      have := ho.le ht ht' hm
      exact ⟨t, by rwa [Nat.min_eq_left hm], by rw [lo_merge]; omega⟩
    | inr hm =>
      have := ho.le ht' ht hm
      exact ⟨t', by rwa [Nat.min_eq_right hm], by rw [lo_merge]; omega⟩
  have ⟨w, hw, hhi⟩ : ∃ w, ts[max n n']? = some w ∧ (s.merge s').hi = w.span.hi := by
    cases Nat.le_total n n' with
    | inl hn =>
      have := ho.le hu hu' hn
      exact ⟨u', by rwa [Nat.max_eq_right hn], by rw [hi_merge]; omega⟩
    | inr hn =>
      have := ho.le hu' hu hn
      exact ⟨u, by rwa [Nat.max_eq_left hn], by rw [hi_merge]; omega⟩
  exact ⟨v, w, hv, hw, hlo, hhi⟩

end

namespace Lexer

variable {src : Text} {ts : List Token} {t : Token} {n : Nat}

-- All tokens of a source and the end of the input are in order.
theorem ordered_tokenize (h : tokenize src = .ok ts) : Ordered ts := by
  have ⟨hf, hts⟩ := tokenize_eq_ok_iff.mp h
  have ⟨us, _, hus, hp, _⟩ := places_scan hf
  rw [←hts, hus]
  refine List.pairwise_append.mpr ⟨hp.ordered, List.pairwise_singleton _ _, fun t ht u hu => ?_⟩
  have ⟨_, hhi⟩ := hp.within t ht
  rw [List.mem_singleton.mp hu]
  simpa [ofText, ofBytes, finish] using hhi

-- Only the last token is the end of the input.
theorem lt_of_tokenize (h : tokenize src = .ok ts) (ht : ts[n]? = some t) (hk : t.kind ≠ .eof) :
    n + 1 < ts.length := by
  have ⟨hf, hts⟩ := tokenize_eq_ok_iff.mp h
  have ⟨us, _, hus, _⟩ := places_scan hf
  obtain ⟨hn, rfl⟩ := List.getElem?_eq_some_iff.mp ht
  by_contra hl
  have hlen : ts.length = us.length + 1 := by simp [←hts, hus]
  have hn' : n = us.length := by omega
  subst hn'
  refine hk ?_
  simp [←hts, hus, finish]

end Lexer

namespace Respacing

variable {src src' : Text} {ts ts' : List Token} {t t' : Token} {n : Nat} (h : Respacing src src' ts ts')
include h

theorem scan_eq : (Lexer.ofText src).scan.tokens = ts ∧ (Lexer.ofText src').scan.tokens = ts' :=
  ⟨(tokenize_eq_ok_iff.mp h.scans).right, (tokenize_eq_ok_iff.mp h.scans').right⟩

theorem length_eq : ts.length = ts'.length := by
  simpa using congrArg List.length h.kinds

-- Tokens in the same place are the same word, since the texts of tokens are ASCII.
theorem word_eq (ht : ts[n]? = some t) (ht' : ts'[n]? = some t') :
    t.word src.encode.toArray = t'.word src'.encode.toArray := by
  have text {src : Text} {ts : List Token} {t : Token} (hs : tokenize src = .ok ts)
      (ht : ts[n]? = some t) : ∃ bs : Bytes, (t.word src.encode.toArray).text = bs ∧
        (∀ b ∈ bs, b < 0x80) ∧ t.span.text src = .ok (.ofAscii bs) := by
    have hm : t ∈ (Lexer.ofText src).scan.tokens :=
      (tokenize_eq_ok_iff.mp hs).right ▸ List.mem_of_getElem? ht
    have ha := Kind.allows_ascii (Lexer.allows_words _ (List.mem_map_of_mem hm))
    exact ⟨_, rfl, ha, Text.decode_ascii ha⟩
  have ⟨bs, hb, ha, hx⟩ := text h.scans ht
  have ⟨bs', hb', ha', hx'⟩ := text h.scans' ht'
  have hk : t.kind = t'.kind := by
    have hk := congrArg (·[n]?) h.kinds
    simpa [ht, ht'] using hk
  have htext : t.span.text src = t'.span.text src' := by
    have hx := congrArg (·[n]?) h.texts
    simpa [ht, ht'] using hx
  have he : Text.ofAscii bs = .ofAscii bs' := Except.ok.inj (hx.symm.trans (htext.trans hx'))
  have he := congrArg Text.encode he
  rw [Text.encode_ofAscii ha, Text.encode_ofAscii ha'] at he
  exact Word.ext hk (hb.trans (he.trans hb'.symm))

end Respacing

namespace Parser

variable {src src' : Text} {ts ts' : List Token} {i : Interner}

-- Sources with the same words side by side, with one interner.
def Pair.respaced (h : Respacing src src' ts ts') (hi : i.Reachable) : Pair where
  src := src
  src' := src'
  interner := i
  interner' := i
  tokens t t' := ∃ n : Nat, ts[n]? = some t ∧ ts'[n]? = some t'
  spans := Respaced ts ts'
  reachable := hi
  reachable' := hi
  scan := by
    have ⟨hts, hts'⟩ := h.scan_eq
    rw [hts, hts']
    refine List.forall₂_iff_get.mpr ⟨h.length_eq, fun n hn hn' => ⟨n, ?_, ?_⟩⟩
    · exact List.getElem?_eq_getElem hn
    · exact List.getElem?_eq_getElem hn'
  fault := by
    rw [(tokenize_eq_ok_iff.mp h.scans).left, (tokenize_eq_ok_iff.mp h.scans').left]
  word ht := by
    have ⟨n, ht, ht'⟩ := ht
    exact h.word_eq ht ht'
  allows ht := by
    have ⟨n, ht, _⟩ := ht
    refine Lexer.allows_words (Lexer.ofText src) (List.mem_map_of_mem ?_)
    exact h.scan_eq.left ▸ List.mem_of_getElem? ht
  span ht hk := by
    have ⟨n, ht, ht'⟩ := ht
    refine ⟨n, n, Nat.le_refl n, Lexer.lt_of_tokenize h.scans ht hk, ?_, ?_⟩
    · exact ⟨_, _, ht, ht, rfl, rfl⟩
    · exact ⟨_, _, ht', ht', rfl, rfl⟩
  merge hs hu := by
    have ⟨m, n, hmn, hn, hs, hs'⟩ := hs
    have ⟨k, l, hkl, hl, hu, hu'⟩ := hu
    refine ⟨min m k, max n l, by omega, by omega, ?_, ?_⟩
    · exact hs.merge (Lexer.ordered_tokenize h.scans) hu
    · exact hs'.merge (Lexer.ordered_tokenize h.scans') hu'

end Parser

-- What is said of a fault does not depend on its place.
theorem SyntaxError.diagnostic_moved (s s' : Span) (cause : Cause) :
    (mk s' cause).diagnostic = { (mk s cause).diagnostic with span := s' } := by
  cases cause <;> rfl

-- The report on a source that has no value, unless there is a numeral in it that is not read.
def RunFailure.diagnostic? : RunFailure → Option Diagnostic
  | .parsing (.fault e) => some e.diagnostic
  | .evaluation (.fault e) => some e.diagnostic
  | _ => none

-- Whether there is no report because the message of a fault cannot be written.
def RunFailure.isUnwritten : RunFailure → Bool
  | .parsing (.unwritten _) | .evaluation (.unwritten _) => true
  | _ => false

-- The same value, or reports that say the same of different places, or none because of a number that is
-- too long.
inductive SameAnswer : Except RunFailure Value → Except RunFailure Value → Prop
  | value (v : Value) : SameAnswer (.ok v) (.ok v)
  | report (h : f.diagnostic? = some r) (h' : f'.diagnostic? = some { r with span := s }) :
    SameAnswer (.error f) (.error f')
  | unwritten (h : f.isUnwritten) (h' : f'.isUnwritten) : SameAnswer (.error f) (.error f')

namespace SameAnswer

variable {s s' : Span}

theorem parsing (cause : SyntaxError.Cause) : SameAnswer (.error (.parsing (.ofFault ⟨s, cause⟩)))
    (.error (.parsing (.ofFault ⟨s', cause⟩))) := by
  cases hw : (⟨s, cause⟩ : SyntaxError).isWritable with
  | true =>
    have hw' : (⟨s', cause⟩ : SyntaxError).isWritable := hw
    rw [Parser.Failure.ofFault_of_isWritable hw, Parser.Failure.ofFault_of_isWritable hw']
    exact .report rfl (congrArg some (SyntaxError.diagnostic_moved _ _ cause))
  | false =>
    have hw' : (⟨s', cause⟩ : SyntaxError).isWritable = false := hw
    rw [Parser.Failure.ofFault_of_isWritable_eq_false hw,
      Parser.Failure.ofFault_of_isWritable_eq_false hw']
    exact .unwritten rfl rfl

theorem evaluation (cause : EvalError.Cause) : SameAnswer (.error (.evaluation (.ofFault ⟨s, cause⟩)))
    (.error (.evaluation (.ofFault ⟨s', cause⟩))) := by
  cases hw : (⟨s, cause⟩ : EvalError).isWritable with
  | true =>
    have hw' : (⟨s', cause⟩ : EvalError).isWritable := hw
    rw [EvalFailure.ofFault_of_isWritable hw, EvalFailure.ofFault_of_isWritable hw']
    exact .report rfl (congrArg some (EvalError.diagnostic_moved _ _ cause))
  | false =>
    have hw' : (⟨s', cause⟩ : EvalError).isWritable = false := hw
    rw [EvalFailure.ofFault_of_isWritable_eq_false hw, EvalFailure.ofFault_of_isWritable_eq_false hw']
    exact .unwritten rfl rfl

end SameAnswer

section

variable {src src' : Text} {ts ts' : List Token} {i : Interner} {d : Int}

namespace Respacing

variable (h : Respacing src src' ts ts')
  (hn : ∀ t ∈ ts, t.kind = .number →
    ∀ text, t.span.text src = .ok text → text.length ≤ Text.maxDigits)
include h hn

-- Both sources are parsed over the same tokens, or both are refused at one token for one reason.
theorem parse_either (hi : i.Reachable) (d : Int) :
    (∃ e e' j, parse src i d = (.ok e, j) ∧ parse src' i d = (.ok e', j) ∧
      Expr.Alike (Respaced ts ts') Eq e e') ∨
    ∃ (n : Nat) (t t' : Token) (cause : SyntaxError.Cause) (j : Interner),
      ts[n]? = some t ∧ ts'[n]? = some t' ∧
      parse src i d = (.error (.ofFault ⟨t.span, cause⟩), j) ∧
      parse src' i d = (.error (.ofFault ⟨t'.span, cause⟩), j) := by
  cases (Parser.Pair.respaced h hi).parse_both d with
  | inl hp =>
    have ⟨e, e', hp, hp', ha⟩ := hp
    refine .inl ⟨e, e', _, hp, hp', ha.mono (fun _ _ hs => hs) fun x x' hx => ?_⟩
    have ⟨_, hx, hx'⟩ := hx
    exact (hi.present _).issued?_inj hx hx'
  | inr hp =>
    have ⟨f, f', xs, _, hp, hp', hf⟩ := hp
    have hof := Parser.of_parse hp
    cases hf with
    | fault ht cause _ =>
      have ⟨n, ht, ht'⟩ := ht
      exact .inr ⟨n, _, _, cause, _, ht, ht', hp, hp'⟩
    | stray hs => cases (tokenize_eq_ok_iff.mp h.scans).left.symm.trans hs
    | numeral =>
      cases hof with
      | tooLong ht hk hs hl =>
        have := hn _ (h.scan_eq.left ▸ ht) hk _ hs
        omega

-- Values depend on the tokens only, too.
theorem sameAnswer (d m : Int) : SameAnswer (runWithin src d m) (runWithin src' d m) := by
  cases h.parse_either hn .empty d with
  | inl hp =>
    have ⟨e, e', j, hp, hp', ha⟩ := hp
    rw [runWithin_of_parse hp, runWithin_of_parse hp']
    have hv := ha.evaluate m
    generalize evaluate e m = x, evaluate e' m = x' at hv
    cases hv with
    | ok v => exact .value v
    | fail hs cause => exact .evaluation cause
    | unlogged ok => cases ok
  | inr hp =>
    have ⟨n, t, t', cause, j, _, _, hp, hp'⟩ := hp
    have refused {src : Text} {e : SyntaxError} (hp : parse src .empty d = (.error (.ofFault e), j)) :
        runWithin src d m = .error (.parsing (.ofFault e)) := by
      rw [runWithin, hp]
      rfl
    rw [refused hp, refused hp']
    exact .parsing cause

end Respacing

end

end ExprLang
