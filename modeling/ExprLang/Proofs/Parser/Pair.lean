import ExprLang.Proofs.Grammar.Relocated
import ExprLang.Proofs.Parser.Lookahead
import ExprLang.Proofs.Symbol.Growth

/-!
Two parsers side by side. Their sources have the same words, perhaps in different places, and their
interners can hold anything at first. `Leads` tells of a parser that both of them run: from states that
belong together they get to such states again, or both stop for the same reason.
-/
namespace ExprLang

open Token Grammar

-- The names among some words, in order.
def Word.names (ws : List Word) : List Text :=
  ws.filterMap fun w => if w.kind = .ident then some (.ofAscii w.text) else none

-- The names of a source, up to the first stray byte.
def identifiers (src : Text) : List Text :=
  Word.names (Lexer.ofText src).words

theorem Word.names_cons (w : Word) (ws : List Word) :
    names (w :: ws) = (if w.kind = .ident then [.ofAscii w.text] else []) ++ names ws := by
  by_cases h : w.kind = .ident <;> simp [names, h]

namespace Parser

section

variable {p q : Parser}

theorem lexeme_of_ascii {source : Array UInt8} (hs : p.lexer.source = source)
    (ha : ∀ b ∈ (p.prev.word source).text, b < 0x80) :
    p.lexeme = .ok (.ofAscii (p.prev.word source).text) := by
  rw [lexeme, Lexer.lexeme, Lexer.slice_eq, hs]
  exact Text.decode_ascii ha

-- All that consuming a token does.
structure Consumes (p q : Parser) : Prop where
  takes : Takes p [p.token] q
  fault : q.fault = p.fault
  interner : q.interner = p.interner
  limit : q.maxDepth = p.maxDepth

theorem Moves.consumes (h : Moves p q) (hk : p.token.kind ≠ .eof) : Consumes p q := by
  have ht := h.takes hk
  have ⟨t, l, hn, hq⟩ := moves_iff.mp h
  subst hq
  exact ⟨ht, by simp [fault, hk, Lexer.fault_eq hn], rfl, rfl⟩

-- A token is consumed unless it is the last one before a stray byte.
theorem advance_cases (hk : p.token.kind ≠ .eof) :
    (∃ q, Moves p q) ∨
    ∃ e l, Refuses advance p (.fault e) { p with lexer := l } ∧ p.tokens = [p.token] ∧
      p.fault = some e := by
  cases hn : p.lexer.next with
  | mk x l =>
    cases x with
    | ok t => exact .inl ⟨_, moves_iff.mpr ⟨t, l, hn, rfl⟩⟩
    | error e =>
      refine .inr ⟨e, l, refuses_advance.mpr ⟨e, l, hn, rfl, rfl⟩, ?_, ?_⟩
      · simp [tokens, hk, Lexer.scan_error hn]
      · simp [fault, hk, Lexer.scan_error hn]

end

-- Two sources whose tokens are the same words one by one, and an interner for each of them. Which
-- tokens and which spans belong together is up to the pair. The end of the input has no part in spans.
structure Pair where
  src : Text
  src' : Text
  interner : Interner
  interner' : Interner
  tokens : Token → Token → Prop
  spans : Span → Span → Prop
  reachable : interner.Reachable
  reachable' : interner'.Reachable
  scan : List.Forall₂ tokens (Lexer.ofText src).scan.tokens (Lexer.ofText src').scan.tokens
  fault : (Lexer.ofText src).scan.fault = (Lexer.ofText src').scan.fault
  word {t t' : Token} : tokens t t' → t.word src.encode.toArray = t'.word src'.encode.toArray
  allows {t t' : Token} : tokens t t' → t.kind.allows (t.word src.encode.toArray).text
  span {t t' : Token} : tokens t t' → t.kind ≠ .eof → spans t.span t'.span
  merge {s s' u u' : Span} : spans s s' → spans u u' → spans (s.merge u) (s'.merge u')

-- How far a parser has got: nothing was consumed so far, something was, or the token that was consumed
-- last is a name that waits for its symbol.
inductive Stage
  | fresh
  | going
  | naming
  deriving DecidableEq

-- Where consuming a token of a kind leads to.
def Stage.after (k : Kind) : Stage :=
  if k = .ident then .naming else .going

-- What waits for a symbol if `w` was consumed last.
def Stage.pending (s : Stage) (w : Word) : List Text :=
  if s = .naming then [.ofAscii w.text] else []

theorem Stage.pending_of_ne {s : Stage} (h : s ≠ .naming) (w : Word) : s.pending w = [] :=
  if_neg h

theorem Stage.names_cons (w : Word) (ws : List Word) :
    Word.names (w :: ws) = (after w.kind).pending w ++ Word.names ws := by
  rw [Word.names_cons, pending, after]
  by_cases h : w.kind = .ident <;> simp [h]

namespace Pair

variable (c : Pair)

-- Symbols that the two interners have for the same name in the end.
def SameName : Symbol → Symbol → Prop :=
  SameText (c.interner.present (identifiers c.src)).issued?
    (c.interner'.present (identifiers c.src)).issued?

-- The names that both interners have been presented with.
def Presented (xs : List Text) (p p' : Parser) : Prop :=
  p.interner = c.interner.present xs ∧ p'.interner = c.interner'.present xs

-- States that belong together.
structure Abreast (s : Stage) (p p' : Parser) : Prop where
  source : p.lexer.source = c.src.encode.toArray
  source' : p'.lexer.source = c.src'.encode.toArray
  tokens : List.Forall₂ c.tokens p.tokens p'.tokens
  fault : p.fault = (Lexer.ofText c.src).scan.fault
  fault' : p'.fault = (Lexer.ofText c.src).scan.fault
  limit : p.maxDepth = p'.maxDepth
  prev : s ≠ .fresh → c.tokens p.prev p'.prev
  unended : s ≠ .fresh → p.prev.kind ≠ .eof
  names : ∃ xs, c.Presented xs p p' ∧
    identifiers c.src = xs ++ (s.pending (p.prev.word c.src.encode.toArray) ++ Word.names p.words)

-- Failures for the same reason, in places that belong together. Nothing is a stray byte but the fault
-- that the scanner finds.
inductive SameFailure : Failure → Failure → Prop
  | fault (h : c.tokens t t') (cause : SyntaxError.Cause) (hc : ∀ b, cause ≠ .strayByte b) :
    SameFailure (.ofFault ⟨t.span, cause⟩) (.ofFault ⟨t'.span, cause⟩)
  | stray (h : (Lexer.ofText c.src).scan.fault = some e) : SameFailure (.fault e) (.fault e)
  | numeral : SameFailure (.numeral f t) (.numeral f t)

-- Both parsers stop.
structure Stopped (f f' : Failure) (r r' : Parser) : Prop where
  failure : c.SameFailure f f'
  names : ∃ xs, c.Presented xs r r' ∧ xs <+: identifiers c.src

variable {α α' β β' : Type}

-- Two runs that come back in states that belong together, with results that are related by `R`, or
-- that both stop.
inductive Coupled (s : Stage) (R : α → α' → Prop) (m : ParseM α) (m' : ParseM α') (p p' : Parser) :
    Prop
  | yields (h : Yields m p a q) (h' : Yields m' p' a' q') (hq : c.Abreast s q q') (hr : R a a')
  | refuses (h : Refuses m p f r) (h' : Refuses m' p' f' r') (hs : c.Stopped f f' r r')

variable {c} {s s' u : Stage} {p p' : Parser} {R : α → α' → Prop} {S : β → β' → Prop}
  {m n : ParseM α} {m' n' : ParseM α'} {k : Kind} {what : String}

theorem SameFailure.ofWritable {t t' : Token} (h : c.tokens t t') (cause : SyntaxError.Cause)
    (hc : ∀ b, cause ≠ .strayByte b) (hw : (⟨t.span, cause⟩ : SyntaxError).isWritable) :
    c.SameFailure (.fault ⟨t.span, cause⟩) (.fault ⟨t'.span, cause⟩) := by
  have hf (s : Span) : Failure.ofFault ⟨s, cause⟩ = .fault ⟨s, cause⟩ :=
    Failure.ofFault_of_isWritable hw
  rw [←hf, ←hf]
  exact .fault h cause hc

namespace Abreast

variable (h : c.Abreast s p p')
include h

theorem token : c.tokens p.token p'.token :=
  (List.forall₂_cons.mp h.tokens).left

theorem kind_eq : p.token.kind = p'.token.kind :=
  congrArg Word.kind (c.word h.token)

theorem span (hs : s ≠ .fresh) : c.spans p.prev.span p'.prev.span :=
  c.span (h.prev hs) (h.unended hs)

-- That a token was consumed may be forgotten.
theorem weaken (hs : s = .going) (hu : u ≠ .naming) : c.Abreast u p p' :=
  { h with
    prev _ := h.prev (by simp [hs])
    unended _ := h.unended (by simp [hs])
    names := by
      have ⟨xs, hi, hn⟩ := h.names
      rw [hs] at hn
      rw [Stage.pending_of_ne hu]
      exact ⟨xs, hi, hn⟩ }

theorem deepen (d d' : Nat) : c.Abreast s { p with depth := d } { p' with depth := d' } :=
  { h with }

theorem stopped {f f' : Failure} (hf : c.SameFailure f f') : c.Stopped f f' p p' := by
  have ⟨xs, hi, hn⟩ := h.names
  exact ⟨hf, xs, hi, _, hn.symm⟩

-- The text of the token that was consumed last.
theorem lexeme (hs : s ≠ .fresh) :
    p.lexeme = .ok (.ofAscii (p.prev.word c.src.encode.toArray).text) ∧ p'.lexeme = p.lexeme := by
  have ha := Kind.allows_ascii (c.allows (h.prev hs))
  have hw := congrArg Word.text (c.word (h.prev hs))
  have hl := lexeme_of_ascii h.source ha
  rw [hw] at ha
  exact ⟨hl, by rw [hl, hw, lexeme_of_ascii h.source' ha]⟩

theorem consumes {q q' : Parser} (hs : s ≠ .naming) (hk : p.token.kind ≠ .eof) (hq : Consumes p q)
    (hq' : Consumes p' q') : c.Abreast (.after p.token.kind) q q' where
  source := hq.takes.source.trans h.source
  source' := hq'.takes.source.trans h.source'
  tokens := by
    have ht := h.tokens
    rw [hq.takes.tokens, hq'.takes.tokens] at ht
    exact (List.forall₂_cons.mp ht).right
  fault := hq.fault.trans h.fault
  fault' := hq'.fault.trans h.fault'
  limit := by rw [hq.limit, hq'.limit, h.limit]
  prev _ := by
    rw [hq.takes.prev, hq'.takes.prev]
    exact h.token
  unended _ := by
    rw [hq.takes.prev]
    exact hk
  names := by
    have ⟨xs, hi, hn⟩ := h.names
    refine ⟨xs, ⟨hq.interner.trans hi.left, hq'.interner.trans hi.right⟩, ?_⟩
    rw [Stage.pending_of_ne hs, hq.takes.words_eq, h.source] at hn
    rw [hq.takes.prev]
    exact hn.trans (congrArg (xs ++ ·) (Stage.names_cons _ _))

-- Both parsers consume a token, or a stray byte keeps both from it.
theorem advance (hs : s ≠ .naming) (hk : p.token.kind ≠ .eof) :
    c.Coupled (.after p.token.kind) Any advance advance p p' := by
  have hk' := h.kind_eq ▸ hk
  have hl := h.tokens.length_eq
  have more {p q : Parser} (hm : Moves p q) (hk : p.token.kind ≠ .eof) (t : Token) :
      p.tokens ≠ [t] := by
    rw [(hm.takes hk).tokens, Parser.tokens]
    simp
  cases advance_cases hk with
  | inl hm =>
    obtain ⟨q, hm⟩ := hm
    cases advance_cases hk' with
    | inl hm' =>
      obtain ⟨q', hm'⟩ := hm'
      exact .yields hm hm' (h.consumes hs hk (hm.consumes hk) (hm'.consumes hk')) trivial
    | inr hr =>
      obtain ⟨_, _, _, ht, _⟩ := hr
      rw [ht, List.length_singleton, List.length_eq_one_iff] at hl
      obtain ⟨t, hl⟩ := hl
      exact absurd hl (more hm hk t)
  | inr hr =>
    obtain ⟨e, l, hr, ht, hf⟩ := hr
    cases advance_cases hk' with
    | inl hm' =>
      obtain ⟨q', hm'⟩ := hm'
      rw [ht, List.length_singleton, eq_comm, List.length_eq_one_iff] at hl
      obtain ⟨t, hl⟩ := hl
      exact absurd hl (more hm' hk' t)
    | inr hr' =>
      obtain ⟨e', l', hr', _, hf'⟩ := hr'
      have he : e = e' := Option.some.inj ((hf.symm.trans h.fault).trans (h.fault'.symm.trans hf'))
      subst he
      have hs := h.stopped (.stray (h.fault.symm.trans hf))
      exact .refuses hr hr' ⟨hs.failure, hs.names⟩

end Abreast

namespace Coupled

theorem weaken (h : c.Coupled .going R m m' p p') (hu : u ≠ .naming) : c.Coupled u R m m' p p' := by
  cases h with
  | yields h h' hq hr => exact .yields h h' (hq.weaken rfl hu) hr
  | refuses h h' hs => exact .refuses h h' hs

theorem congr (h : c.Coupled s R m m' p p') (hn : n.run p = m.run p) (hn' : n'.run p' = m'.run p') :
    c.Coupled s R n n' p p' := by
  cases h with
  | yields h h' hq hr => exact .yields (hn.trans h) (hn'.trans h') hq hr
  | refuses h h' hs => exact .refuses (hn.trans h) (hn'.trans h') hs

-- What follows starts where the two runs have come back.
theorem bind {g : α → ParseM β} {g' : α' → ParseM β'} (h : c.Coupled s R m m' p p')
    (hg : ∀ a a' q q', Yields m p a q → Yields m' p' a' q' → c.Abreast s q q' → R a a' →
      c.Coupled u S (g a) (g' a') q q') : c.Coupled u S (m >>= g) (m' >>= g') p p' := by
  cases h with
  | refuses h h' hs => exact .refuses (refuses_bind.mpr (.inl h)) (refuses_bind.mpr (.inl h')) hs
  | @yields a q a' q' h h' hq hr =>
    cases hg a a' q q' h h' hq hr with
    | yields hy hy' hq hr =>
      exact .yields (yields_bind.mpr ⟨a, q, h, hy⟩) (yields_bind.mpr ⟨a', q', h', hy'⟩) hq hr
    | refuses hf hf' hs =>
      exact .refuses (refuses_bind.mpr (.inr ⟨a, q, h, hf⟩))
        (refuses_bind.mpr (.inr ⟨a', q', h', hf'⟩)) hs

-- Which branch is taken depends on the kind of the next token only.
theorem check (ha : c.Abreast s p p') (h : c.Coupled u R m m' p p') (h' : c.Coupled u R n n' p p') :
    c.Coupled u R (do if ← check k then m else n) (do if ← check k then m' else n') p p' := by
  by_cases hk : p.token.kind = k
  case pos => exact h.congr (run_check_of_kind hk) (run_check_of_kind (ha.kind_eq ▸ hk))
  case neg => exact h'.congr (run_check_of_ne hk) (run_check_of_ne (ha.kind_eq ▸ hk))

theorem eat (ha : c.Abreast s p p') (hs : s ≠ .naming) (hk : k ≠ .eof)
    (h : ∀ q q', c.Abreast (.after k) q q' → c.Coupled u R m m' q q')
    (h' : c.Coupled u R n n' p p') :
    c.Coupled u R (do if ← eat k then m else n) (do if ← eat k then m' else n') p p' := by
  by_cases he : p.token.kind = k
  case neg => exact h'.congr (run_eat_of_ne he) (run_eat_of_ne (ha.kind_eq ▸ he))
  case pos =>
    refine .congr ?_ (run_eat_of_kind he) (run_eat_of_kind (ha.kind_eq ▸ he))
    exact (ha.advance hs (he ▸ hk)).bind fun _ _ q q' _ _ hq _ => h q q' (he ▸ hq)

end Coupled

variable (c) in
-- Two parsers that are coupled wherever they start in states that belong together.
def Leads (s s' : Stage) (R : α → α' → Prop) (m : ParseM α) (m' : ParseM α') : Prop :=
  ∀ ⦃p p'⦄, c.Abreast s p p' → c.Coupled s' R m m' p p'

namespace Leads

theorem pure {a : α} {a' : α'} (hr : R a a') : c.Leads s s R (pure a) (pure a') :=
  fun _ _ h => .yields (yields_pure.mpr ⟨rfl, rfl⟩) (yields_pure.mpr ⟨rfl, rfl⟩) h hr

theorem bind {g : α → ParseM β} {g' : α' → ParseM β'} (h : c.Leads s s' R m m')
    (hg : ∀ a a', R a a' → c.Leads s' u S (g a) (g' a')) : c.Leads s u S (m >>= g) (m' >>= g') :=
  fun _ _ ha => (h ha).bind fun a a' _ _ _ _ hq hr => hg a a' hr hq

theorem map {f : α → β} {f' : α' → β'} (h : c.Leads s s' R m m')
    (hf : ∀ a a', R a a' → S (f a) (f' a')) : c.Leads s s' S (f <$> m) (f' <$> m') := by
  rw [map_eq_pure_bind, map_eq_pure_bind]
  exact h.bind fun a a' hr => .pure (hf a a' hr)

theorem weaken (h : c.Leads s .going R m m') (hu : u ≠ .naming) : c.Leads s u R m m' :=
  fun _ _ ha => (h ha).weaken hu

theorem failExpecting : c.Leads s u R (failExpecting what) (failExpecting what) := by
  intro p p' h
  refine .refuses (refuses_failExpecting.mpr ⟨rfl, rfl⟩) (refuses_failExpecting.mpr ⟨rfl, rfl⟩)
    (h.stopped ?_)
  rw [unexpected, unexpected, ←h.kind_eq]
  exact .ofWritable h.token _ nofun rfl

theorem failTooDeep (hs : s ≠ .fresh) : c.Leads s u R failTooDeep failTooDeep := by
  intro p p' h
  refine .refuses (refuses_failTooDeep.mpr ⟨rfl, rfl⟩) (refuses_failTooDeep.mpr ⟨rfl, rfl⟩)
    (h.stopped ?_)
  rw [←h.limit]
  exact .fault (h.prev hs) _ nofun

theorem check (h : c.Leads s u R m m') (h' : c.Leads s u R n n') :
    c.Leads s u R (do if ← check k then m else n) (do if ← check k then m' else n') :=
  fun _ _ ha => .check ha (h ha) (h' ha)

theorem eat (hs : s ≠ .naming) (hk : k ≠ .eof) (h : c.Leads (.after k) u R m m')
    (h' : c.Leads s u R n n') :
    c.Leads s u R (do if ← eat k then m else n) (do if ← eat k then m' else n') :=
  fun _ _ ha => .eat ha hs hk (fun _ _ hq => h hq) (h' ha)

theorem eat_bind {g : α → ParseM β} {g' : α' → ParseM β'} (hs : s ≠ .naming) (hk : k ≠ .eof)
    (h : c.Leads (.after k) s' R m m') (h' : c.Leads s s' R n n')
    (hg : ∀ a a', R a a' → c.Leads s' u S (g a) (g' a')) :
    c.Leads s u S (do if ← Parser.eat k then m >>= g else n >>= g)
      (do if ← Parser.eat k then m' >>= g' else n' >>= g') :=
  .eat hs hk (h.bind hg) (h'.bind hg)

theorem expect (hs : s ≠ .naming) (hk : k ≠ .eof) :
    c.Leads s (.after k) Any (expect k what) (expect k what) := by
  refine .eat hs hk (.bind (R := Any) ?_ fun _ _ _ => .pure trivial) .failExpecting
  exact fun _ _ h => .yields (yields_get.mpr ⟨rfl, rfl⟩) (yields_get.mpr ⟨rfl, rfl⟩) h trivial

theorem prevSpan (hs : s ≠ .fresh) : c.Leads s s c.spans prevSpan prevSpan := fun _ _ h =>
  .yields (yields_prevSpan.mpr ⟨rfl, rfl⟩) (yields_prevSpan.mpr ⟨rfl, rfl⟩) h
    (h.span hs)

-- A name that waits is given a symbol by each interner.
theorem internPrev : c.Leads .naming .going c.SameName internPrev internPrev := by
  intro p p' h
  have ⟨xs, ⟨hi, hi'⟩, hn⟩ := h.names
  have ⟨hl, hl'⟩ := h.lexeme (by decide)
  rw [hl] at hl'
  have ha := Kind.allows_ascii (c.allows (h.prev (by decide)))
  have he := Text.isEncodable_of_isAscii (Text.isAscii_ofAscii ha)
  generalize hx : Text.ofAscii (p.prev.word c.src.encode.toArray).text = x at hl hl' he
  have ⟨y, hy⟩ := p.interner.intern_of_isEncodable he
  have ⟨y', hy'⟩ := p'.interner.intern_of_isEncodable he
  have hn : identifiers c.src = xs ++ [x] ++ Word.names p.words := by
    rw [hn, Stage.pending, if_pos rfl, hx, List.append_assoc]
  have presented {i j : Interner} (hj : i = j.present xs) :
      (i.intern x).snd = j.present (xs ++ [x]) := by
    rw [hj, Interner.present_append, Interner.present_singleton]
  have issued {i j : Interner} {y : Symbol} (hj : j.Reachable) (hi : i = j.present xs)
      (hy : i.intern x = (.ok y, (i.intern x).snd)) :
      (j.present (identifiers c.src)).issued? y = some x := by
    have hv := hi ▸ (hj.present xs).valid
    rw [hn, Interner.present_append, ←presented hi]
    refine (presented hi ▸ hj.present (xs ++ [x])).extends_present _ ?_
    exact hv.issued?_insert (Interner.intern_eq_ok_iff.mp hy).right he
  refine .yields (yields_internPrev.mpr ⟨x, _, hl, hy, rfl⟩) (yields_internPrev.mpr ⟨x, _, hl', hy', rfl⟩)
    ?_ ⟨x, issued c.reachable hi hy, issued c.reachable' hi' hy'⟩
  exact { h with
    prev := fun _ => h.prev (by decide)
    unended := fun _ => h.unended (by decide)
    names := ⟨xs ++ [x], ⟨presented hi, presented hi'⟩, hn⟩ }

theorem ident (hs : s ≠ .naming) : c.Leads s .going c.SameName ident ident :=
  .bind (.expect hs (by decide)) fun _ _ _ => internPrev

theorem deeper (h : c.Leads s u R m m') : c.Leads s u R (deeper m) (deeper m') := by
  intro p p' ha
  cases h (ha.deepen (p.depth + 1) (p'.depth + 1)) with
  | yields h h' hq hr =>
    exact .yields (yields_deeper.mpr ⟨_, h, rfl⟩) (yields_deeper.mpr ⟨_, h', rfl⟩) (hq.deepen _ _) hr
  | refuses h h' hs =>
    exact .refuses (refuses_deeper.mpr ⟨_, h, rfl⟩) (refuses_deeper.mpr ⟨_, h', rfl⟩)
      ⟨hs.failure, hs.names⟩

end Leads
end Pair
end Parser
end ExprLang
