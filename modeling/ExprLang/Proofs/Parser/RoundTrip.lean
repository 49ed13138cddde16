import ExprLang.Proofs.Grammar.Writing
import ExprLang.Proofs.Parser.Acceptance

/-!
Writing a tree and parsing the text. A tree that was parsed comes back as it is, and one that was put
together by other means comes back with a group for each pair of parentheses.
-/
namespace ExprLang

open Token Grammar Outline

variable {δ : Type} {src : Text} {i j : Interner} {d : Int} {t : Outline}

theorem Outline.words_text (h : t.isWritable) :
    (Lexer.ofText t.text).words = t.words ++ [.eof] ∧ (Lexer.ofText t.text).scan.fault = none := by
  have hs := (t.spells h).scans .nil
  rw [List.append_nil] at hs
  exact hs.words_eq rfl

-- Words that a source is read as are such as can be written.
theorem Lexer.legal_words {ws vs : List Word} (h : (ofText src).words = ws ++ vs)
    (hr : ∀ w ∈ ws, w.InRange) : ∀ w ∈ ws, Legal w := by
  intro w hw
  refine ⟨allows_words (ofText src) ?_, hr w hw⟩
  rw [h]
  exact List.mem_append_left _ hw

-- The outline of a tree that was parsed has all its groups, and can be written.
theorem exists_outline_of_parse {e : Program} (hi : i.Valid) (h : parse src i d = (.ok e, j)) :
    ∃ t, e.outline? j.lookup? = some t ∧ t.nesting ≤ d.toNat ∧ Fits .expr t := by
  have ⟨ws, t, _, hws, hr, hd, ht⟩ := Parser.sound_parse hi h
  have hf := hd.derives.fits (Lexer.legal_words hws hr)
  exact ⟨t, e.outline?_mono j.lookup?_of_issued? ht, hd.nesting, hf⟩

-- The text of an outline is parsed as the outline with its groups, and written again as it was.
theorem Outline.parse_text (h : t.isWritable) (hd : t.grouped.nesting ≤ d.toNat) :
    ∃ (e : Program) (j : Interner), parse t.text .empty d = (.ok e, j) ∧
      e.outline? j.lookup? = some t.grouped ∧ e.format (some j) = .ok t.text := by
  have ⟨hws, hf⟩ := words_text h
  have hw : DerivesWithin d.toNat .expr t.words t.grouped := ⟨derives_expr (t.derives h), hd⟩
  have ⟨e, j, hp, ht⟩ := Parser.complete_parse .empty hf hws (t.spells h).range hw
  have ht := e.outline?_mono j.lookup?_of_issued? ht
  refine ⟨e, j, hp, ht, ?_⟩
  have ⟨_, ht', _, hf⟩ := exists_outline_of_parse .empty hp
  cases ht.symm.trans ht'
  rw [Expr.format_eq ht hf.writable, text_grouped]

-- What is written for a tree that was parsed is parsed within the same limit, as a tree that says the
-- same and is written alike.
theorem parse_format {e : Program} (hi : i.Reachable) (h : parse src i d = (.ok e, j)) :
    ∃ (u : Text) (e' : Program) (k : Interner) (t : Outline),
      e.format (some j) = .ok u ∧ parse u .empty d = (.ok e', k) ∧
      e.outline? j.lookup? = some t ∧ e'.outline? k.lookup? = some t ∧
      e'.format (some k) = .ok u := by
  have ⟨t, ht, hn, hf⟩ := exists_outline_of_parse hi.valid h
  have hg := hf.grouped_eq
  have ⟨e', k, hp, ht', hu⟩ := parse_text hf.writable (hg.symm ▸ hn)
  exact ⟨t.text, e', k, t, Expr.format_eq ht hf.writable, hp, ht, hg ▸ ht', hu⟩

theorem parse_format_block :
    ∃ e j, parse "\x7blet x:t=-1;2\x7d" .empty 2 = (.ok e, j) ∧
      ∃ (u : Text) (e' : Program) (k : Interner) (t : Outline),
        e.format (some j) = .ok u ∧ parse u .empty 2 = (.ok e', k) ∧
        e.outline? j.lookup? = some t ∧ e'.outline? k.lookup? = some t ∧
        e'.format (some k) = .ok u := by
  have hp : outlineOf? "\x7blet x:t=-1;2\x7d" .empty 2 =
      some (.block [.declare "x" (some "t") (some (.neg (.num 1))), .result (.num 2)]) := by
    cbv
  obtain ⟨e, j, hp, _⟩ := outlineOf?_eq_some_iff.mp hp
  exact ⟨e, j, hp, parse_format .empty hp⟩

-- What is written for any tree that can be written is parsed, if the limit is large enough, as a tree
-- that says the same apart from groups and is written alike.
theorem parse_format_of_isWritable {e : Expr δ} (ht : e.outline? i.lookup? = some t)
    (hw : t.isWritable) :
    ∃ (u : Text) (d₀ : Int), e.format (some i) = .ok u ∧ ∀ d ≥ d₀,
      ∃ (e' : Program) (j : Interner) (t' : Outline), parse u .empty d = (.ok e', j) ∧
        e'.outline? j.lookup? = some t' ∧ t'.ungrouped = t.ungrouped ∧
        e'.format (some j) = .ok u := by
  refine ⟨t.text, t.grouped.nesting, Expr.format_eq ht hw, fun d hd => ?_⟩
  have hn : t.grouped.nesting ≤ d.toNat := by omega
  have ⟨e', j, hp, ht', hu⟩ := parse_text hw hn
  exact ⟨e', j, t.grouped, hp, ht', t.ungrouped_grouped, hu⟩

-- A product of a sum and an assignment of a double negation, built without groups.
theorem parse_format_of_isWritable_block :
    let one : Program := .literal .dummy (.num 1)
    let sum : Program := .binary .dummy .add one one
    let product : Program := .binary .dummy .mul sum (.binary .dummy .mul one one)
    let negated : Program := .unary .dummy .neg (.unary .dummy .neg one)
    let e : Program := .block .dummy (.mk .dummy [.assign .dummy ⟨0⟩ negated, .result .dummy product])
    let i := (Interner.empty.insert "x").snd
    ∃ (t : Outline) (u : Text) (d₀ : Int), e.outline? i.lookup? = some t ∧ t.isWritable ∧
      e.format (some i) = .ok u ∧ ∀ d ≥ d₀, ∃ (e' : Program) (j : Interner) (t' : Outline),
        parse u .empty d = (.ok e', j) ∧ e'.outline? j.lookup? = some t' ∧
        t'.ungrouped = t.ungrouped ∧ e'.format (some j) = .ok u := by
  intro one sum product negated e i
  have ht : e.outline? i.lookup? = some (.block [.assign "x" (.neg (.neg (.num 1))),
      .result (.binary .mul (.binary .add (.num 1) (.num 1)) (.binary .mul (.num 1) (.num 1)))]) := by
    cbv
  obtain ⟨u, d₀, hu, h⟩ := parse_format_of_isWritable ht (by decide)
  exact ⟨_, u, d₀, ht, by decide, hu, h⟩

end ExprLang
