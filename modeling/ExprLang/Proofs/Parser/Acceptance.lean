import ExprLang.Proofs.Grammar.Unambiguous
import ExprLang.Proofs.Parser.Completeness

/-!
The parser accepts exactly its grammar: a source has a tree if and only if its tokens are derived, with
no number out of range and no more levels than the limit leaves, and the tree is the one that they
are derived with.
-/
namespace ExprLang

open Token Grammar

theorem tokenize_eq_ok_iff {src : Text} {ts : List Token} :
    tokenize src = .ok ts ↔
      (Lexer.ofText src).scan.fault = none ∧ (Lexer.ofText src).scan.tokens = ts := by
  simp only [tokenize, Lexer.drain]
  cases (Lexer.ofText src).scan.fault <;> simp

namespace Parser

variable {src : Text} {i j : Interner} {d : Int} {p q : Parser} {e : Program} {t : Outline}

-- A parser starts with all words of the source.
theorem start_eq_ok (h : start src i d = .ok p) :
    p.words = (Lexer.ofText src).words ∧ p.fault = (Lexer.ofText src).scan.fault ∧
      p.interner = i ∧ p.levels = d.toNat := by
  simp only [start] at h
  cases hn : (Lexer.ofText src).next with
  | mk x l =>
    cases x with
    | error => simp [hn, Except.map] at h
    | ok token =>
      simp only [hn, Except.map, Except.ok.injEq] at h
      subst h
      refine ⟨?_, (Lexer.fault_eq hn).symm, rfl, by simp [levels]⟩
      rw [Lexer.words_eq hn]
      simp [words, word, Lexer.source_next hn]

theorem exists_start (h : (Lexer.ofText src).scan.fault = none) : ∃ p, start src i d = .ok p := by
  cases hn : (Lexer.ofText src).next with
  | mk x l =>
    cases x with
    | error => simp [Lexer.scan_error hn] at h
    | ok token => exact ⟨_, by simp [start, hn, Except.map]; rfl⟩

theorem yields_whole :
    Yields whole p e q ↔ Yields (expr (nested p.levels)) p e q ∧ q.token.kind = .eof := by
  simp only [whole, leveled, entire, yields_bind (m := get), yields_bind (m := expr _), yields_check_ite,
    yields_get, yields_pure, not_yields_failExpecting, and_false, or_false]
  constructor
  · rintro ⟨_, _, ⟨rfl, rfl⟩, _, _, h, hk, rfl, rfl⟩
    exact ⟨h, hk⟩
  · rintro ⟨h, hk⟩
    exact ⟨p, p, ⟨rfl, rfl⟩, e, q, h, hk, rfl, rfl⟩

theorem parse_eq_ok_iff :
    parse src i d = (.ok e, j) ↔
      ∃ p q, start src i d = .ok p ∧ Yields whole p e q ∧ q.interner = j := by
  simp only [parse, Yields]
  cases start src i d with
  | error => simp
  | ok p =>
    show ((whole.run p).fst, (whole.run p).snd.interner) = (.ok e, j) ↔ _
    rw [Prod.mk.injEq]
    constructor
    · rintro ⟨he, hj⟩
      exact ⟨p, _, rfl, Prod.ext he rfl, hj⟩
    · rintro ⟨_, q, ⟨⟩, h, rfl⟩
      exact ⟨congrArg Prod.fst h, congrArg (·.snd.interner) h⟩

-- What comes back is derived from the words of the source.
theorem sound_parse (hi : i.Valid) (h : parse src i d = (.ok e, j)) :
    ∃ ws t, (Lexer.ofText src).scan.fault = none ∧ (Lexer.ofText src).words = ws ++ [.eof] ∧
      (∀ w ∈ ws, w.InRange) ∧ DerivesWithin d.toNat .expr ws t ∧
      e.outline? j.issued? = some t := by
  obtain ⟨p, q, hp, hy, rfl⟩ := parse_eq_ok_iff.mp h
  have ⟨hws, hf, hpi, hl⟩ := start_eq_ok hp
  have ⟨hy, hk⟩ := yields_whole.mp hy
  have hr : p.Ready := ⟨hpi ▸ hi, fun w hw => Lexer.allows_words _ (hws ▸ hw)⟩
  have ⟨ws, t, hw, ht, hd⟩ := sound_expr (sound_nested p.levels) hy hr
  refine ⟨ws, t, ?_, ?_, hw.range, hl ▸ hd, ht⟩
  · rw [←hf, ←hw.fault]
    simp [fault, hk]
  · rw [←hws, hw.words, hw.ready.words_eof hk]

-- What is derived from the words of the source comes back.
theorem complete_parse (hi : i.Valid) {ws : List Word}
    (hf : (Lexer.ofText src).scan.fault = none) (hws : (Lexer.ofText src).words = ws ++ [.eof])
    (hr : ∀ w ∈ ws, w.InRange) (hd : DerivesWithin d.toNat .expr ws t) :
    ∃ e j, parse src i d = (.ok e, j) ∧ e.outline? j.issued? = some t := by
  obtain ⟨p, hp⟩ := exists_start (i := i) (d := d) hf
  obtain ⟨hpw, hpf, hpi, hl⟩ := start_eq_ok hp
  have ha : Ahead p ws [.eof] := by
    refine ⟨⟨hpi ▸ hi, fun w hw => Lexer.allows_words _ (hpw ▸ hw)⟩, hpf.trans hf, hpw.trans hws, hr, ?_⟩
    exact List.cons_ne_nil _ _
  have hs : Stops .expr [.eof] := .of_kind fun op => by cases op <;> simp [Word.eof, BinOp.kind]
  obtain ⟨e, q, hy, hw, ht⟩ := complete_expr (complete_nested p.levels) (hl ▸ hd) ha hs
  have hk := kind_of_words (hw.words_eq ha.words)
  exact ⟨e, q.interner, parse_eq_ok_iff.mpr ⟨p, q, hp, yields_whole.mpr ⟨hy, hk⟩, rfl⟩, ht⟩

end Parser

variable {src : Text} {i j : Interner} {d : Int}

-- The token at the end of the input has no bytes.
theorem word_eof {ts : List Token} {eof : Token} (h : tokenize src = .ok (ts ++ [eof]))
    (hk : eof.kind = .eof) : eof.word src.encode.toArray = .eof := by
  have hw : eof.word src.encode.toArray ∈ (Lexer.ofText src).words := by
    rw [Lexer.words, (tokenize_eq_ok_iff.mp h).right]
    exact List.mem_map_of_mem (by simp)
  have ha := Lexer.allows_words _ hw
  simp only [Token.word, hk, Kind.allows, List.isEmpty_iff] at ha
  simp [Token.word, Word.eof, hk, ha]

-- No word is longer than its source.
theorem length_word_le (source : Array UInt8) (t : Token) :
    (t.word source).text.length ≤ source.size := by
  simp only [Token.word, Span.length_slice, Array.length_toList]
  omega

-- The outline of the tree that a source is parsed as.
def outlineOf? (src : Text) (i : Interner) (d : Int) : Option Outline :=
  match parse src i d with
  | (.ok e, j) => e.outline? j.lookup?
  | (.error _, _) => none

theorem outlineOf?_eq_some_iff {t : Outline} :
    outlineOf? src i d = some t ↔
      ∃ e j, parse src i d = (.ok e, j) ∧ e.outline? j.lookup? = some t := by
  simp only [outlineOf?]
  cases hp : parse src i d with
  | mk x k =>
    cases x with
    | error => simp
    | ok e =>
      constructor
      · intro ht
        exact ⟨e, k, rfl, ht⟩
      · intro ⟨_, _, he, ht⟩
        cases he
        exact ht

-- A tree is parsed from a source if and only if the tokens before its end are derived with it, no
-- number is too large and the limit leaves enough levels. Each source has at most one such tree.
theorem parse_iff_derives (hi : i.Reachable) (d : Int)
    (hn : ∀ ts, tokenize src = .ok ts → ∀ t ∈ ts, t.kind = .number →
      (t.word src.encode.toArray).text.length ≤ Text.maxDigits) :
    (∀ t : Outline, (∃ e j, parse src i d = (.ok e, j) ∧ e.outline? j.lookup? = some t) ↔
      ∃ ts eof, tokenize src = .ok (ts ++ [eof]) ∧ eof.kind = .eof ∧
        Derives .expr (ts.map (Token.word src.encode.toArray)) t ∧
        (∀ t ∈ ts, t.kind = .number →
          Word.decimal (t.word src.encode.toArray).text ≤ SyntaxError.maxLiteral) ∧
        t.nesting ≤ d.toNat) ∧
    (∀ e j, parse src i d = (.ok e, j) → ∃ t, e.outline? j.lookup? = some t) ∧
    (∀ ws t t', Derives .expr ws t → Derives .expr ws t' → t = t') := by
  refine ⟨fun t => ⟨?_, ?_⟩, ?_, fun ws t t' => Derives.outline_unique⟩
  · rintro ⟨e, j, hp, ht⟩
    obtain ⟨ws, t', hf, hws, hr, hd, ht'⟩ := Parser.sound_parse hi.valid hp
    cases ht.symm.trans (e.outline?_mono j.lookup?_of_issued? ht')
    obtain ⟨ts, es, hts, hws, hes⟩ := List.map_eq_append_iff.mp hws
    obtain ⟨eof, rfl, he⟩ := List.map_eq_singleton_iff.mp hes
    subst hws
    refine ⟨ts, eof, tokenize_eq_ok_iff.mpr ⟨hf, hts⟩, congrArg Word.kind he, hd.derives, ?_, hd.nesting⟩
    exact fun t ht hk => (hr _ (List.mem_map_of_mem ht) hk).right
  · rintro ⟨ts, eof, hts, hk, hd, hm, hnest⟩
    obtain ⟨hf, htokens⟩ := tokenize_eq_ok_iff.mp hts
    have hws : (Lexer.ofText src).words = ts.map (Token.word src.encode.toArray) ++ [.eof] := by
      rw [←word_eof hts hk, Lexer.words, htokens, List.map_append]
      rfl
    have hr : ∀ w ∈ ts.map (Token.word src.encode.toArray), w.InRange := by
      intro w hw hk
      obtain ⟨t, ht, hw⟩ := List.mem_map.mp hw
      subst hw
      exact ⟨hn _ hts t (List.mem_append_left _ ht) hk, hm t ht hk⟩
    obtain ⟨e, j, hp, ht⟩ := Parser.complete_parse hi.valid hf hws hr ⟨hd, hnest⟩
    exact ⟨e, j, hp, e.outline?_mono j.lookup?_of_issued? ht⟩
  · intro e j hp
    obtain ⟨_, t, _, _, _, _, ht⟩ := Parser.sound_parse hi.valid hp
    exact ⟨t, e.outline?_mono j.lookup?_of_issued? ht⟩

theorem derives_of_parse_block :
    let src : Text := "\x7b let x: t = -1; 2 \x7d"
    ∃ ts eof, tokenize src = .ok (ts ++ [eof]) ∧ eof.kind = .eof ∧
      Derives .expr (ts.map (Token.word src.encode.toArray))
        (.block [.declare "x" (some "t") (some (.neg (.num 1))), .result (.num 2)]) ∧
      (∀ t ∈ ts, t.kind = .number →
        Word.decimal (t.word src.encode.toArray).text ≤ SyntaxError.maxLiteral) := by
  intro src
  have hn (t : Token) : (t.word src.encode.toArray).text.length ≤ Text.maxDigits :=
    Nat.le_trans (length_word_le _ t) (by decide)
  have hp : outlineOf? "\x7b let x: t = -1; 2 \x7d" .empty 2 =
      some (.block [.declare "x" (some "t") (some (.neg (.num 1))), .result (.num 2)]) := by
    cbv
  obtain ⟨h, _⟩ := parse_iff_derives .empty 2 fun _ _ t _ _ => hn t
  obtain ⟨ts, eof, hts, hk, hd, hm, _⟩ := (h _).mp (outlineOf?_eq_some_iff.mp hp)
  exact ⟨ts, eof, hts, hk, hd, hm⟩

end ExprLang
