import ExprLang.Proofs.Parser.Acceptance
import ExprLang.Proofs.Parser.Trace
import ExprLang.Proofs.Token.Placement

/-!
The failures that parsing can come to: faults of the source, numerals that are too long to be read,
and limits that are too long to be written. For sources that are a numeral and nothing else, it is said which comes when.
-/
namespace ExprLang

open Token

theorem Token.Kind.isNumeral_zeros (n : Nat) : isNumeral (List.replicate (n + 1) 0x30) := by
  have hd : isDigit 0x30 := by decide
  simp [isNumeral, hd]

-- A scanner stops at nothing but a stray byte.
theorem Lexer.isWritable_of_scan {l : Lexer} {e : SyntaxError} (h : l.scan.fault = some e) :
    e.isWritable := by
  have ⟨_, _, _, _, _, _, _, hc, _⟩ := places_fault h
  rw [SyntaxError.isWritable, hc]

namespace Parser

variable {src : Text} {i j : Interner} {d : Int} {p q r : Parser} {e : Program} {f : Failure}

-- A parser starts with all tokens of the source.
theorem start_takes (h : start src i d = .ok p) :
    p.tokens = (Lexer.ofText src).scan.tokens ∧ p.lexer.source = src.encode.toArray ∧
      p.prev = .dummy := by
  simp only [start] at h
  cases hn : (Lexer.ofText src).next with
  | mk x l =>
    cases x with
    | error => simp [hn, Except.map] at h
    | ok token =>
      simp only [hn, Except.map, Except.ok.injEq] at h
      subst h
      exact ⟨(Lexer.tokens_eq hn).symm, Lexer.source_next hn, rfl⟩

theorem maxDepth_of_start (h : start src i d = .ok p) : p.maxDepth = d := by
  simp only [start] at h
  cases hn : (Lexer.ofText src).next.fst with
  | error => simp [hn, Except.map] at h
  | ok token =>
    simp only [hn, Except.map, Except.ok.injEq] at h
    subst h
    rfl

theorem fault_of_start {err : SyntaxError} (h : start src i d = .error err) :
    (Lexer.ofText src).scan.fault = some err := by
  simp only [start] at h
  cases hn : (Lexer.ofText src).next with
  | mk x l =>
    cases x with
    | ok => simp [hn, Except.map] at h
    | error err' =>
      simp only [hn, Except.map, Except.error.injEq] at h
      subst h
      rw [Lexer.scan_error hn]

-- A parser starts ready.
theorem ready_of_start (hi : i.Valid) (h : start src i d = .ok p) : p.Ready := by
  have ⟨hws, _, hpi, _⟩ := start_eq_ok h
  exact ⟨hpi ▸ hi, fun w hw => Lexer.allows_words _ (hws ▸ hw)⟩

theorem exists_parse_eq {x : Except Failure Program} (h : (parse src i d).fst = x) :
    ∃ j, parse src i d = (x, j) :=
  ⟨_, Prod.ext h rfl⟩

theorem parse_eq_error_iff :
    parse src i d = (.error f, j) ↔
      (∃ e, start src i d = .error e ∧ .fault e = f ∧ i = j) ∨
      (∃ p q, start src i d = .ok p ∧ Refuses whole p f q ∧ q.interner = j) := by
  simp only [parse, Refuses]
  cases start src i d with
  | error => simp
  | ok p =>
    show ((whole.run p).fst, (whole.run p).snd.interner) = (.error f, j) ↔ _
    rw [Prod.mk.injEq]
    constructor
    · rintro ⟨hf, hj⟩
      exact .inr ⟨p, _, rfl, Prod.ext hf rfl, hj⟩
    · rintro (⟨_, ⟨⟩, _⟩ | ⟨_, q, ⟨⟩, h, rfl⟩)
      exact ⟨congrArg Prod.fst h, congrArg (·.snd.interner) h⟩

theorem lexeme_of_takes {ts : List Token} (hs : start src i d = .ok p) (ht : Takes p ts q) :
    q.lexeme = q.prev.span.text src := by
  have ⟨_, hb, _⟩ := start_takes hs
  rw [lexeme, Lexer.lexeme, Lexer.slice_eq, ht.source, hb]
  rfl

-- The token that was consumed last is one of the source, and its text is one that its kind allows.
theorem prev_of_takes {ts : List Token} (hs : start src i d = .ok p) (ht : Takes p ts q)
    (hk : q.prev.kind ≠ .eof) :
    q.prev ∈ (Lexer.ofText src).scan.tokens ∧ ∃ bs, q.prev.kind.allows bs ∧
      q.prev.span.text src = .ok (.ofAscii bs) ∧ q.lexeme = .ok (.ofAscii bs) := by
  have ⟨hp, _, hd⟩ := start_takes hs
  have hm : q.prev ∈ (Lexer.ofText src).scan.tokens := by
    cases ht.prev_cases
    case inl h => exact absurd (h.trans hd ▸ rfl) hk
    case inr h =>
      rw [←hp, ht.tokens]
      exact List.mem_append_left _ h
  have ha := Lexer.allows_words (Lexer.ofText src) (List.mem_map_of_mem hm)
  have htext : q.prev.span.text src = .ok _ := Text.decode_ascii (Kind.allows_ascii ha)
  exact ⟨hm, _, ha, htext, (lexeme_of_takes hs ht).trans htext⟩

-- The failures of a source under a limit. A limit that is too long to be written is in the way of a
-- report.
inductive Failure.Of (src : Text) (d : Int) : Failure → Prop
  | fault {e : SyntaxError} (he : e.isWritable) : Of src d (.fault e)
  | unwritten {span : Span} (hd : Text.isWritable d = false) :
    Of src d (.unwritten ⟨span, .tooDeep d⟩)
  | tooLong (ht : t ∈ (Lexer.ofText src).scan.tokens) (hk : t.kind = .number)
    (hs : t.span.text src = .ok text) (hl : Text.maxDigits < text.length) :
    Of src d (.numeral (.tooLong text.length) text)

theorem Failure.Of.tooDeep {span : Span} : Of src d (.ofFault ⟨span, .tooDeep d⟩) := by
  rw [ofFault]
  split
  case isTrue hd => exact .fault hd
  case isFalse hd => exact .unwritten (Bool.eq_false_iff.mpr hd)

-- The texts of tokens are ASCII, so they can all be decoded and stored.
theorem Fails.of_takes {ts : List Token} (hs : start src i d = .ok p) (ht : Takes p ts q) :
    Fails f q r → f.Of src d
  | .unexpected | .unimplemented _ | .tooLarge _ => .fault rfl
  | .stray h => .fault (Lexer.isWritable_of_scan (by rw [Lexer.scan_error h]))
  | .tooDeep hf => by
    rw [ht.maxDepth, maxDepth_of_start hs] at hf
    exact hf ▸ .tooDeep
  | .numeral hk hl hn => by
    have ⟨hm, bs, ha, htext, hl'⟩ := prev_of_takes hs ht (by simp [hk])
    cases hl'.symm.trans hl
    rw [hk] at ha
    rw [Text.numeral?_ofAscii ha] at hn
    split at hn
    case isTrue => simp at hn
    case isFalse hlen =>
      cases hn
      have hlen' : (Text.ofAscii bs).length = bs.length := List.length_map _
      rw [←hlen'] at hlen ⊢
      exact .tooLong hm hk htext (Nat.lt_of_not_le hlen)
  | .undecodable hk hl => by
    have ⟨_, bs, _, _, hl'⟩ := prev_of_takes hs ht hk
    rw [hl'] at hl
    contradiction
  | .unencodable hk hl hi => by
    have ⟨_, bs, ha, _, hl'⟩ := prev_of_takes hs ht hk
    cases hl'.symm.trans hl
    have he := Text.isEncodable_of_isAscii (Text.isAscii_ofAscii (Kind.allows_ascii ha))
    have hf := (Interner.intern_eq_error_iff.mp hi).left
    rw [Text.surrogatesFrom_eq_none_iff.mpr he] at hf
    contradiction

theorem of_parse (h : parse src i d = (.error f, j)) : f.Of src d := by
  cases parse_eq_error_iff.mp h
  case inl h =>
    have ⟨_, hs, hf, _⟩ := h
    exact hf ▸ .fault (Lexer.isWritable_of_scan (fault_of_start hs))
  case inr h =>
    have ⟨p, r, hs, hr, _⟩ := h
    have ⟨ts, q, ht, hf⟩ := (traced_whole p).refuses hr
    exact hf.of_takes hs ht

theorem ofFault_of_parse {e : SyntaxError} (h : parse src i d = (.error (.fault e), j)) :
    Failure.ofFault e = .fault e := by
  cases of_parse h with
  | fault he => exact Failure.ofFault_of_isWritable he

-- Within a limit that can be written, all faults are reported.
theorem fault_of_parse {e : SyntaxError} (h : parse src i d = (.error (.ofFault e), j))
    (hd : Text.isWritable d) : parse src i d = (.error (.fault e), j) := by
  cases hw : e.isWritable with
  | true => rwa [Failure.ofFault_of_isWritable hw] at h
  | false =>
    rw [Failure.ofFault_of_isWritable_eq_false hw] at h
    cases of_parse h with
    | unwritten hd' => exact absurd hd (Bool.eq_false_iff.mp hd')

-- A source with a tree is written in ASCII, since its bytes are those of tokens and blanks.
theorem isAscii_of_parse {e : Program} (hi : i.Valid) (h : parse src i d = (.ok e, j)) :
    src.isAscii := by
  have ⟨_, _, hf, _⟩ := sound_parse hi h
  have ⟨_, _, _, hp, hb⟩ := Lexer.places_scan hf
  have ha : ∀ b ∈ src.encode, b < 0x80 := hp.ascii fun b hm => isBlank_ascii (hb b hm)
  have hd : Utf8.decode .allowed src.encode = .ok src := Utf8.decode_encode fun _ _ => .inl rfl
  rw [Except.ok.inj (hd.symm.trans (Text.decode_ascii ha))]
  exact Text.isAscii_ofAscii ha

section

variable {op? : Kind → Option BinOp} {operand : ParseM Program}

theorem yields_tier_of_none (h : Yields operand p e q) (hn : op? q.token.kind = none) :
    Yields (tier op? operand) p e q := by
  simp only [tier, yields_bind, yields_get]
  exact ⟨e, q, h, q, q, ⟨rfl, rfl⟩, yields_chain_of_none hn _⟩

theorem refuses_tier (h : Refuses operand p f r) : Refuses (tier op? operand) p f r :=
  refuses_bind.mpr (.inl h)

end

-- A number that makes up the whole input is all that is read.
theorem yields_whole_number (hk : p.token.kind = .number) (hm : Moves p q) (he : q.token.kind = .eof)
    (h : Yields number q e q) : Yields whole p e q := by
  refine yields_whole.mpr ⟨?_, he⟩
  refine yields_eat_ite.mpr (.inr ⟨by simp [hk], ?_⟩)
  have hu : Yields (unary (nested p.levels)) p e q := by
    refine yields_eat_ite.mpr (.inr ⟨by simp [hk], ?_⟩)
    exact yields_eat_ite.mpr (.inl ⟨hk, q, hm, h⟩)
  refine yields_tier_of_none (yields_tier_of_none (yields_tier_of_none (yields_tier_of_none hu ?_)
    ?_) ?_) ?_
  all_goals rw [he]; rfl

theorem refuses_whole_number (hk : p.token.kind = .number) (hm : Moves p q)
    (h : Refuses number q f r) : Refuses whole p f r := by
  refine refuses_bind.mpr (.inr ⟨p, p, yields_get.mpr ⟨rfl, rfl⟩, refuses_bind.mpr (.inl ?_)⟩)
  refine refuses_eat_ite.mpr (.inr ⟨by simp [hk], ?_⟩)
  refine refuses_tier (refuses_tier (refuses_tier (refuses_tier ?_)))
  refine refuses_eat_ite.mpr (.inr ⟨by simp [hk], ?_⟩)
  exact refuses_eat_ite.mpr (.inl ⟨hk, .inr ⟨q, hm, h⟩⟩)

theorem scan_numeral {ds : Bytes} (h : Kind.isNumeral ds) :
    (Lexer.ofText (.ofAscii ds)).scan.tokens = [.placed .number 0 ds.length, Lexer.finish ds] ∧
      (Lexer.ofText (.ofAscii ds)).scan.fault = none := by
  have hn : ∀ b ∈ ([] : Bytes), isBlank b := nofun
  have hp : Places 0 ([] ++ (ds ++ [])) [.placed .number 0 ds.length] [] :=
    .token hn h (by decide) rfl .done
  have ⟨hts, hf, _⟩ := hp.scan_ofAscii
  simp only [List.nil_append, List.append_nil] at hts hf
  exact ⟨hts, hf⟩

-- A parser at the end of an input that is a numeral, which was just consumed.
structure AfterNumeral (ds : Bytes) (i : Interner) (q : Parser) : Prop where
  prev : q.prev.span = ⟨0, ds.length, Nat.zero_le _⟩
  lexeme : q.lexeme = .ok (.ofAscii ds)
  interner : q.interner = i

theorem exists_afterNumeral {ds : Bytes} (h : Kind.isNumeral ds) (i : Interner) (d : Int) :
    ∃ p q, start (.ofAscii ds) i d = .ok p ∧ p.token.kind = .number ∧ Moves p q ∧
      q.token.kind = .eof ∧ AfterNumeral ds i q := by
  obtain ⟨hts, hf⟩ := scan_numeral h
  obtain ⟨p, hp⟩ := exists_start (i := i) (d := d) hf
  obtain ⟨_, hpf, hi, _⟩ := start_eq_ok hp
  obtain ⟨htokens, _, _⟩ := start_takes hp
  rw [hts, tokens] at htokens
  have ht := (List.cons.inj htokens).left
  have hk : p.token.kind = .number := ht ▸ rfl
  obtain ⟨q, hm⟩ := exists_moves (hpf.trans hf) (by simp [hk])
  have hq := hm.takes (by simp [hk])
  have hprev : q.prev = .placed .number 0 ds.length := hq.prev.trans ht
  refine ⟨p, q, hp, hk, hm, ?_, ?_, ?_, ?_⟩
  · rw [←tokens, hq.tokens] at htokens
    have hfin := (List.cons.inj (List.cons.inj htokens).right).left
    exact hfin ▸ rfl
  · rw [hprev, placed]
    exact Span.ext rfl (Nat.zero_add _)
  · have ha : ∀ b ∈ ds, b < 0x80 := fun _ => Kind.isNumeral_ascii h
    have hs : (Token.placed .number 0 ds.length).span.slice (Text.ofAscii ds).encode = ds := by
      simp [Text.encode_ofAscii ha, placed, Span.slice]
    rw [lexeme_of_takes hp hq, hprev, Span.text, hs]
    exact Text.decode_ascii ha
  · obtain ⟨_, _, _, rfl⟩ := moves_iff.mp hm
    exact hi

-- A source that is a numeral is a number if it is in range.
theorem parse_numeral {ds : Bytes} (h : Kind.isNumeral ds) (i : Interner) (d : Int) :
    parse (.ofAscii ds) i d =
      (if Text.maxDigits < ds.length then .error (.numeral (.tooLong ds.length) (.ofAscii ds))
        else if SyntaxError.maxLiteral < Word.decimal ds then
          .error (.fault ⟨⟨0, ds.length, Nat.zero_le _⟩, .tooLarge (.ofAscii ds)⟩)
        else .ok (.literal ⟨0, ds.length, Nat.zero_le _⟩ (.num (Word.decimal ds))), i) := by
  have ⟨p, q, hp, hk, hm, he, hq⟩ := exists_afterNumeral h i d
  have hn := Text.numeral?_ofAscii h
  by_cases hl : ds.length ≤ Text.maxDigits
  case neg =>
    rw [if_neg hl] at hn
    rw [if_pos (Nat.lt_of_not_le hl)]
    have hr := refuses_number.mpr ⟨rfl, .inr (.inl ⟨_, _, hq.lexeme, hn, rfl⟩)⟩
    exact parse_eq_error_iff.mpr (.inr ⟨p, q, hp, refuses_whole_number hk hm hr, hq.interner⟩)
  rw [if_pos hl] at hn
  rw [if_neg (Nat.not_lt.mpr hl)]
  by_cases hv : SyntaxError.maxLiteral < Word.decimal ds
  case pos =>
    rw [if_pos hv]
    have hr := refuses_number.mpr ⟨rfl, .inr (.inr ⟨_, _, hq.lexeme, hn, hv, rfl⟩)⟩
    rw [hq.prev] at hr
    exact parse_eq_error_iff.mpr (.inr ⟨p, q, hp, refuses_whole_number hk hm hr, hq.interner⟩)
  case neg =>
    rw [if_neg hv]
    have hy := (yields_number h hq.lexeme).mpr ⟨fun _ => ⟨hl, Nat.not_lt.mp hv⟩, rfl, rfl⟩
    rw [hq.prev] at hy
    exact parse_eq_ok_iff.mpr ⟨p, q, hp, yields_whole_number hk hm he hy, hq.interner⟩

end Parser

-- Parsing comes to a tree, to a fault of the source or to a numeral that is too long to be read, and
-- to nothing else, except that a fault is not reported if the limit is too long to be written into the
-- report. For a source that is a numeral, its length and its value tell which.
theorem parse_cases (src : Text) (i : Interner) (d : Int) :
    ((∃ e, (parse src i d).fst = .ok e) ∨ ∃ f, (parse src i d).fst = .error f ∧ f.Of src d) ∧
    ∀ ds, src = .ofAscii ds → Kind.isNumeral ds →
      parse src i d =
        (if Text.maxDigits < ds.length then .error (.numeral (.tooLong ds.length) src)
          else if SyntaxError.maxLiteral < Word.decimal ds then
            .error (.fault ⟨⟨0, ds.length, Nat.zero_le _⟩, .tooLarge src⟩)
          else .ok (.literal ⟨0, ds.length, Nat.zero_le _⟩ (.num (Word.decimal ds))), i) := by
  constructor
  case left =>
    cases hp : parse src i d with
    | mk x j =>
      cases x with
      | ok e => exact .inl ⟨e, rfl⟩
      | error f => exact .inr ⟨f, rfl, Parser.of_parse hp⟩
  case right =>
    intro ds hs hd
    subst hs
    exact Parser.parse_numeral hd i d

-- A zero that is written with more digits than are read is no number and no fault of the source.
theorem parse_zeros_tooLong :
    (parse (.ofAscii (List.replicate 4301 0x30)) .empty defaultParseDepth).fst =
      .error (.numeral (.tooLong 4301) (.ofAscii (List.replicate 4301 0x30))) := by
  rw [Parser.parse_numeral (Kind.isNumeral_zeros 4300), List.length_replicate, if_pos (by decide)]

end ExprLang
