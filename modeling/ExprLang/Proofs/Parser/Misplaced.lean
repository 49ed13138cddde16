import ExprLang.Proofs.Parser.Failures
import ExprLang.Proofs.Parser.Lookahead

/-!
A token that is reported as misplaced is the first one that no source can go on with: the tokens before
it are the first ones of a source that is parsed, and together with it they are not.
-/
namespace ExprLang

open Token Grammar

-- Words with a blank before each of them.
def Word.spaced (ws : List Word) : Bytes :=
  ws.flatMap fun w => 0x20 :: w.text

theorem Word.delimited_spaced (ws : List Word) : Delimited (spaced ws) := by
  intro k
  cases ws
  case nil => exact Kind.endsBefore_nil k
  case cons =>
    refine (Kind.endsBefore_cons ..).mpr ?_
    cases k <;> decide

-- Usable words can be laid out behind any bytes.
theorem Grammar.Usable.exists_places {ws : List Word} (h : Usable ws) (bs : Bytes) :
    ∃ us, Places bs.length (Word.spaced ws) us [] ∧
      us.map (·.word (bs ++ Word.spaced ws).toArray) = ws := by
  induction ws generalizing bs
  case nil => exact ⟨[], .done, rfl⟩
  case cons w ws ih =>
    have ⟨⟨hl, hk⟩, h⟩ := List.forall_mem_cons.mp h
    have ⟨us, hp, hw⟩ := ih h (bs ++ [0x20] ++ w.text)
    have hb : ∀ b ∈ ([0x20] : Bytes), isBlank b := List.forall_mem_singleton.mpr (by decide)
    have hs : bs ++ Word.spaced (w :: ws) = bs ++ [0x20] ++ (w.text ++ Word.spaced ws) := by
      simp [Word.spaced]
    rw [List.length_append, List.length_append] at hp
    refine ⟨_, .token hb hl.left hk (Word.delimited_spaced ws w.kind) hp, ?_⟩
    rw [hs, List.map_cons]
    refine List.cons_eq_cons.mpr ⟨?_, ?_⟩
    · rw [←List.length_append, word_placed]
    · rwa [List.append_assoc] at hw

namespace Parser

variable {src : Text} {i j : Interner} {d : Int} {p q r : Parser} {ts us : List Token} {t : Token}

theorem not_isMisplaced_of_start {e : SyntaxError} (h : start src i d = .error e) :
    ¬e.isMisplaced := by
  simp only [start] at h
  cases hn : (Lexer.ofText src).next with
  | mk x l =>
    cases x with
    | ok token => simp [hn, Except.map] at h
    | error e' =>
      simp only [hn, Except.map, Except.error.injEq] at h
      exact h ▸ Lexer.not_isMisplaced hn

theorem Fails.span_eq_of_isMisplaced {e : SyntaxError} (h : Fails (.fault e) q r)
    (hm : e.isMisplaced) : e.span = q.token.span := by
  cases h
  case unexpected | unimplemented => rfl
  case tooLarge => contradiction
  case tooDeep hf => exact absurd hm (Failure.not_isMisplaced_of_tooDeep hf)
  case stray hn => exact absurd hm (Lexer.not_isMisplaced hn)

-- The tokens of a source can be followed by any usable words instead of those that do.
theorem exists_text_of_tokens (h : (Lexer.ofText src).scan.tokens = ts ++ t :: us) {vs : List Word}
    (hv : Usable vs) :
    ∃ src' : Text, ts <+: (Lexer.ofText src').scan.tokens ∧ (Lexer.ofText src').scan.fault = none ∧
      (Lexer.ofText src').words = ts.map (·.word src.encode.toArray) ++ vs ++ [.eof] := by
  obtain ⟨rest, hp⟩ := Lexer.places_of_tokens h
  obtain ⟨bs, cs, hsrc, hp, _⟩ := (ts.append_nil.symm ▸ hp : Places 0 _ (ts ++ []) rest).split
  obtain ⟨vts, hq, hw⟩ := hv.exists_places bs
  have hall := hp.append (Word.delimited_spaced vs) (by rwa [Nat.zero_add])
  have hsrc : src.encode = bs ++ cs := by
    simpa [Lexer.ofText, Lexer.ofBytes] using hsrc
  obtain ⟨hts, hf, hws⟩ := hall.scan_ofAscii
  refine ⟨_, ?_, hf, ?_⟩
  · rw [hts, List.append_assoc]
    exact List.prefix_append _ _
  · rw [hws, List.map_append, hw, hp.words_append, hsrc, hp.words_append]

-- A larger limit does no harm.
theorem exists_parse_of_le {d' : Int} {e : Program} (hi : i.Valid) (h : parse src i d = (.ok e, j))
    (hd : d ≤ d') : ∃ e' j', parse src i d' = (.ok e', j') := by
  have ⟨ws, t, hf, hws, hr, ht, _⟩ := sound_parse hi h
  have ht' : DerivesWithin d'.toNat .expr ws t :=
    ⟨ht.derives, Nat.le_trans ht.nesting (Int.toNat_le_toNat hd)⟩
  have ⟨e', j', h', _⟩ := complete_parse hi hf hws hr ht'
  exact ⟨e', j', h'⟩

-- The words in front of a misplaced token can be completed within the same limit.
theorem exists_parse_of_refuses {e : SyntaxError} (hi : i.Valid) (hs : start src i d = .ok p)
    (h : Refuses whole p (.fault e) q) (hm : e.isMisplaced) (ht : Takes p ts q) :
    ∃ src' e' j', parse src' i d = (.ok e', j') ∧ ts <+: (Lexer.ofText src').scan.tokens ∧
      ts.map (·.word src.encode.toArray) <+: (Lexer.ofText src').words := by
  have ⟨htokens, hsource, _⟩ := start_takes hs
  have ⟨_, _, _, hl⟩ := start_eq_ok hs
  have ⟨ws, hr, vs, hv, t, hd⟩ := stuck_whole h hm (ready_of_start hi hs)
  have hws : ts.map (·.word src.encode.toArray) = ws := by
    rw [←hsource]
    exact List.append_cancel_right (ht.words_eq.symm.trans hr.words)
  have ⟨src', hts, hf, hw⟩ := exists_text_of_tokens (htokens.symm.trans ht.tokens) hv
  rw [hws] at hw
  have hrange : ∀ w ∈ ws ++ vs, w.InRange :=
    List.forall_mem_append.mpr ⟨hr.range, fun w hw => (hv w hw).left.right⟩
  have ⟨e', j', hp, _⟩ := complete_parse hi hf hw hrange (hl ▸ hd)
  refine ⟨src', e', j', hp, hts, ?_⟩
  rw [hws, hw, List.append_assoc]
  exact List.prefix_append _ _

-- No source is parsed that starts with the same kinds of tokens up to and including a misplaced one.
theorem not_parse_of_refuses {e : SyntaxError} {e' : Program} {src' : Text} {i' j' : Interner}
    {d' : Int} (hs : start src i d = .ok p) (h : Refuses whole p (.fault e) q) (hm : e.isMisplaced)
    (ht : Takes p ts q) (hi : i'.Valid) (hp : parse src' i' d' = (.ok e', j')) :
    ¬(ts ++ [q.token]).map (·.kind) <+: (Lexer.ofText src').scan.tokens.map (·.kind) := by
  intro hk
  have ⟨e'', j'', hp⟩ := exists_parse_of_le hi hp (Int.le_max_right d d')
  have ⟨p', q', hs', hy, _⟩ := parse_eq_ok_iff.mp hp
  have ⟨_, _, _, hl⟩ := start_eq_ok hs
  have ⟨_, _, _, hl'⟩ := start_eq_ok hs'
  have hle : p.levels ≤ p'.levels := hl ▸ hl' ▸ Int.toNat_le_toNat (Int.le_max_left d d')
  rw [←(start_takes hs').left] at hk
  exact not_yields_whole (.of_takes ht hk) hle h hm (Nat.le_refl _) hy

end Parser

variable {src : Text} {i j : Interner} {d : Int} {e : SyntaxError}

-- What is reported as misplaced is a token of the source. The tokens before it are the first ones of a
-- source that is parsed within the same limit. Within no limit is a source parsed that goes on with a
-- token of this kind, or ends where this is the end of the input, after tokens of the same kinds.
theorem parse_misplaced (hi : i.Reachable) (h : parse src i d = (.error (.fault e), j))
    (hm : e.isMisplaced) :
    ∃ ts t us, (Lexer.ofText src).scan.tokens = ts ++ t :: us ∧ e.span = t.span ∧
      (∃ src' e' j', parse src' i d = (.ok e', j') ∧ ts <+: (Lexer.ofText src').scan.tokens ∧
        ts.map (·.word src.encode.toArray) <+: (Lexer.ofText src').words) ∧
      ∀ src' i' d' e' j', i'.Reachable → parse src' i' d' = (.ok e', j') →
        ¬(ts ++ [t]).map (·.kind) <+: (Lexer.ofText src').scan.tokens.map (·.kind) := by
  cases Parser.parse_eq_error_iff.mp h
  case inl h =>
    have ⟨e', hs, hf, _⟩ := h
    cases hf
    exact absurd hm (Parser.not_isMisplaced_of_start hs)
  case inr h =>
    have ⟨p, r, hs, hr, _⟩ := h
    have ⟨ts, q, ht, hf⟩ := (Parser.traced_whole p).refuses hr
    obtain rfl := hf.eq_of_isMisplaced hm
    have htokens := (Parser.start_takes hs).left.symm.trans ht.tokens
    refine ⟨ts, r.token, _, htokens, hf.span_eq_of_isMisplaced hm, ?_, ?_⟩
    · exact Parser.exists_parse_of_refuses hi.valid hs hr hm ht
    · exact fun _ _ _ _ _ hi' => Parser.not_parse_of_refuses hs hr hm ht hi'.valid

theorem parse_misplaced_paren :
    let src : Text := "(1 + ) * 2"
    let e : SyntaxError := ⟨⟨5, 6, by decide⟩, .unexpected "expression" .rparen⟩
    ∃ ts t us, (Lexer.ofText src).scan.tokens = ts ++ t :: us ∧ e.span = t.span ∧
      (∃ src' e' j', parse src' .empty 1 = (.ok e', j') ∧ ts <+: (Lexer.ofText src').scan.tokens ∧
        ts.map (·.word src.encode.toArray) <+: (Lexer.ofText src').words) ∧
      ∀ src' i' d' e' j', i'.Reachable → parse src' i' d' = (.ok e', j') →
        ¬(ts ++ [t]).map (·.kind) <+: (Lexer.ofText src').scan.tokens.map (·.kind) := by
  intro src e
  have hf : (parse "(1 + ) * 2" .empty 1).fst =
      .error (.fault ⟨⟨5, 6, by decide⟩, .unexpected "expression" .rparen⟩) := by
    cbv
  obtain ⟨j, hp⟩ := Parser.exists_parse_eq hf
  exact parse_misplaced .empty hp rfl

end ExprLang
