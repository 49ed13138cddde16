import ExprLang.Proofs.Parser.Run

/-!
Runs of parsers that fail. `Refuses` tells for what reason a parser stops and in which state, one
lemma for each way to put parsers together.
-/
namespace ExprLang

open Token

namespace Parser

namespace Failure

variable {e e' : SyntaxError}

-- A fault whose message can be written is reported.
theorem ofFault_of_isWritable (h : e.isWritable) : ofFault e = .fault e :=
  if_pos h

theorem ofFault_of_isWritable_eq_false (h : e.isWritable = false) : ofFault e = .unwritten e :=
  if_neg (Bool.eq_false_iff.mp h)

theorem ofFault_eq_fault : ofFault e = .fault e' ↔ e.isWritable ∧ e = e' := by
  rw [ofFault]
  split <;> simp [*]

theorem ofFault_inj : ofFault e = ofFault e' ↔ e = e' := by
  constructor
  case mp =>
    rw [ofFault, ofFault]
    split <;> split <;> simp
  case mpr => exact congrArg ofFault

theorem ofFault_ne_numeral {f : Text.NumeralFault} {t : Text} : ofFault e ≠ .numeral f t := by
  rw [ofFault]
  split <;> nofun

end Failure

variable {α β : Type} {p q r : Parser}

-- From the state `p`, a parser stops in `q` for the reason `f`.
def Refuses (m : ParseM α) (p : Parser) (f : Failure) (q : Parser) : Prop :=
  @Eq (Except Failure α × Parser) (m.run p) (.error f, q)

section

variable {a : α} {f : Failure} {k : Kind} {what : String}

theorem not_refuses_of_yields {m : ParseM α} (h : Yields m p a q) : ¬Refuses m p f r := by
  intro hr
  rw [Refuses, h] at hr
  cases hr

@[simp]
theorem not_refuses_pure : ¬Refuses (pure a) p f q :=
  not_refuses_of_yields (yields_pure.mpr ⟨rfl, rfl⟩)

@[simp]
theorem not_refuses_get : ¬Refuses get p f q :=
  not_refuses_of_yields (yields_get.mpr ⟨rfl, rfl⟩)

@[simp]
theorem not_refuses_set : ¬Refuses (set q) p f r :=
  not_refuses_of_yields (a := ()) (yields_set.mpr rfl)

@[simp]
theorem refuses_throw {f' : Failure} : Refuses (α := α) (throw f') p f q ↔ f' = f ∧ p = q := by
  show ((.error f', p) : Except Failure α × Parser) = (.error f, q) ↔ _
  simp

@[simp]
theorem refuses_bind {m : ParseM α} {g : α → ParseM β} :
    Refuses (m >>= g) p f r ↔ Refuses m p f r ∨ ∃ a q, Yields m p a q ∧ Refuses (g a) q f r := by
  simp only [Refuses, Yields, run_bind]
  cases hm : m.run p with
  | mk x q =>
    cases x with
    | error e => simp
    | ok a =>
      constructor
      · exact fun h => .inr ⟨a, q, rfl, h⟩
      · rintro (⟨⟨⟩⟩ | ⟨_, _, ⟨⟩, h⟩)
        exact h

@[simp]
theorem refuses_map {m : ParseM α} {g : α → β} : Refuses (g <$> m) p f r ↔ Refuses m p f r := by
  simp only [map_eq_pure_bind, refuses_bind, not_refuses_pure, and_false, exists_false, or_false]

@[simp]
theorem refuses_fail {e : SyntaxError} : Refuses (α := α) (fail e) p f q ↔ .fault e = f ∧ p = q :=
  refuses_throw

@[simp]
theorem refuses_failExpecting :
    Refuses (α := α) (failExpecting what) p f q ↔ .fault (p.unexpected what) = f ∧ p = q := by
  simp only [failExpecting, refuses_bind, not_refuses_get, yields_get, refuses_fail, false_or]
  grind

@[simp]
theorem refuses_failTooDeep :
    Refuses (α := α) failTooDeep p f q ↔
      .ofFault ⟨p.prev.span, .tooDeep p.maxDepth⟩ = f ∧ p = q := by
  simp only [failTooDeep, refuses_bind, not_refuses_get, yields_get, refuses_throw, false_or]
  grind

@[simp]
theorem not_refuses_prevSpan : ¬Refuses prevSpan p f q := by
  simp [prevSpan]

@[simp]
theorem not_refuses_peek : ¬Refuses peek p f q := by
  simp [peek]

-- A token cannot be consumed if a stray byte is behind it.
theorem refuses_advance :
    Refuses advance p f r ↔
      ∃ e l, p.lexer.next = (.error e, l) ∧ .fault e = f ∧ { p with lexer := l } = r := by
  simp only [advance, refuses_bind, not_refuses_get, yields_get, false_or]
  constructor
  · rintro ⟨_, _, ⟨rfl, rfl⟩, h⟩
    split at h
    case h_1 => simp at h
    case h_2 e l hn =>
      simp only [refuses_bind, not_refuses_set, yields_set, refuses_fail, false_or] at h
      obtain ⟨_, _, rfl, rfl, rfl⟩ := h
      exact ⟨e, l, hn, rfl, rfl⟩
  · rintro ⟨e, l, hn, rfl, rfl⟩
    exact ⟨p, p, ⟨rfl, rfl⟩, by simp [hn]⟩

section

variable {m m' : ParseM α}

theorem run_check_of_kind (h : p.token.kind = k) :
    (do if ← check k then m else m').run p = m.run p := by
  show (do if ← (pure (decide (p.token.kind = k)) : ParseM Bool) then m else m').run p = _
  simp [h]

theorem run_check_of_ne (h : p.token.kind ≠ k) :
    (do if ← check k then m else m').run p = m'.run p := by
  show (do if ← (pure (decide (p.token.kind = k)) : ParseM Bool) then m else m').run p = _
  simp [h]

-- A token is checked before it is consumed.
theorem eat_ite_eq :
    (do if ← eat k then m else m') = (do if ← check k then advance >>= fun _ => m else m') := by
  rw [eat, bind_assoc]
  congr 1
  funext b
  cases b <;> simp

theorem run_eat_of_kind (h : p.token.kind = k) :
    (do if ← eat k then m else m').run p = (advance >>= fun _ => m).run p := by
  rw [eat_ite_eq, run_check_of_kind h]

theorem run_eat_of_ne (h : p.token.kind ≠ k) :
    (do if ← eat k then m else m').run p = m'.run p := by
  rw [eat_ite_eq, run_check_of_ne h]

theorem refuses_check_ite :
    Refuses (do if ← check k then m else m') p f r ↔
      (p.token.kind = k ∧ Refuses m p f r) ∨ (p.token.kind ≠ k ∧ Refuses m' p f r) := by
  by_cases hk : p.token.kind = k
  case pos => simp [Refuses, run_check_of_kind hk, hk]
  case neg => simp [Refuses, run_check_of_ne hk, hk]

theorem refuses_eat_ite :
    Refuses (do if ← eat k then m else m') p f r ↔
      (p.token.kind = k ∧ (Refuses advance p f r ∨ ∃ q, Moves p q ∧ Refuses m q f r)) ∨
      (p.token.kind ≠ k ∧ Refuses m' p f r) := by
  rw [eat_ite_eq, refuses_check_ite, refuses_bind]
  simp [Moves, Unique.exists_iff]

end

-- What follows both branches can be taken out of them.
theorem eat_ite_bind {m m' : ParseM α} {g : α → ParseM β} :
    (do if ← eat k then m >>= g else m' >>= g) = (do if ← eat k then m else m') >>= g := by
  rw [bind_assoc]
  congr 1
  funext b
  cases b <;> rfl

theorem refuses_expect :
    Refuses (expect k what) p f r ↔
      (p.token.kind = k ∧ Refuses advance p f r) ∨
      (p.token.kind ≠ k ∧ .fault (p.unexpected what) = f ∧ p = r) := by
  rw [expect, refuses_eat_ite]
  simp

theorem refuses_deeper {m : ParseM α} :
    Refuses (deeper m) p f r ↔
      ∃ q, Refuses m { p with depth := p.depth + 1 } f q ∧ { q with depth := q.depth - 1 } = r := by
  simp only [Refuses]
  let run := m.run { p with depth := p.depth + 1 }
  show (run.fst, { run.snd with depth := run.snd.depth - 1 }) =
    ((.error f, r) : Except Failure α × Parser) ↔ ∃ q, run = (.error f, q) ∧ _
  rcases run with ⟨x, q⟩
  constructor
  · rintro ⟨⟩
    exact ⟨q, rfl, rfl⟩
  · rintro ⟨_, ⟨⟩, rfl⟩
    rfl

theorem refuses_prevText :
    Refuses prevText p f r ↔ ∃ g, p.lexeme = .error g ∧ .undecodable g = f ∧ p = r := by
  simp only [prevText, refuses_bind, not_refuses_get, yields_get, false_or]
  constructor
  · rintro ⟨_, _, ⟨rfl, rfl⟩, h⟩
    split at h
    case h_1 => simp at h
    case h_2 g hl => exact ⟨g, hl, refuses_throw.mp h⟩
  · rintro ⟨g, hl, rfl, rfl⟩
    exact ⟨p, p, ⟨rfl, rfl⟩, by simp [hl]⟩

theorem refuses_number :
    Refuses number p f r ↔ p = r ∧
      ((∃ g, p.lexeme = .error g ∧ .undecodable g = f) ∨
        (∃ t g, p.lexeme = .ok t ∧ t.numeral? = .error g ∧ .numeral g t = f) ∨
        (∃ t n, p.lexeme = .ok t ∧ t.numeral? = .ok n ∧ SyntaxError.maxLiteral < n ∧
          .fault ⟨p.prev.span, .tooLarge t⟩ = f)) := by
  simp only [number, refuses_bind, not_refuses_prevSpan, yields_prevSpan, refuses_prevText,
    yields_prevText, false_or]
  constructor
  · rintro ⟨_, _, ⟨rfl, rfl⟩, ⟨g, hl, rfl, rfl⟩ | ⟨t, _, ⟨hl, rfl⟩, h⟩⟩
    · exact ⟨rfl, .inl ⟨g, hl, rfl⟩⟩
    split at h
    case h_1 g hn =>
      obtain ⟨rfl, rfl⟩ := refuses_throw.mp h
      exact ⟨rfl, .inr (.inl ⟨t, g, hl, hn, rfl⟩)⟩
    case h_2 n hn =>
      split at h
      case isTrue hm =>
        obtain ⟨rfl, rfl⟩ := refuses_fail.mp h
        exact ⟨rfl, .inr (.inr ⟨t, n, hl, hn, hm, rfl⟩)⟩
      case isFalse => simp at h
  · rintro ⟨rfl, ⟨g, hl, rfl⟩ | ⟨t, g, hl, hn, rfl⟩ | ⟨t, n, hl, hn, hm, rfl⟩⟩
    · exact ⟨_, p, ⟨rfl, rfl⟩, .inl ⟨g, hl, rfl, rfl⟩⟩
    · exact ⟨_, p, ⟨rfl, rfl⟩, .inr ⟨t, p, ⟨hl, rfl⟩, by simp [hn]⟩⟩
    · exact ⟨_, p, ⟨rfl, rfl⟩, .inr ⟨t, p, ⟨hl, rfl⟩, by simp [hn, hm]⟩⟩

theorem refuses_internPrev :
    Refuses internPrev p f r ↔ p = r ∧
      ((∃ g, p.lexeme = .error g ∧ .undecodable g = f) ∨
        (∃ t g, p.lexeme = .ok t ∧ p.interner.intern t = (.error g, p.interner) ∧ .unencodable g = f)) := by
  simp only [internPrev, refuses_bind, not_refuses_get, yields_get, refuses_prevText,
    yields_prevText, not_refuses_set, yields_set, false_or]
  constructor
  · rintro (⟨g, hl, rfl, rfl⟩ | ⟨t, _, ⟨hl, rfl⟩, _, _, ⟨rfl, rfl⟩, _, _, rfl, h⟩)
    · exact ⟨rfl, .inl ⟨g, hl, rfl⟩⟩
    split at h
    case h_1 => simp at h
    case h_2 g hg =>
      have hi : p.interner.intern t = (.error g, _) := Prod.ext hg rfl
      have hs := (Interner.intern_eq_error_iff.mp hi).right
      obtain ⟨rfl, rfl⟩ := refuses_throw.mp h
      refine ⟨congrArg (fun i => { p with interner := i }) hs, .inr ⟨t, g, hl, ?_, rfl⟩⟩
      rwa [←hs] at hi
  · rintro ⟨rfl, ⟨g, hl, rfl⟩ | ⟨t, g, hl, hi, rfl⟩⟩
    · exact .inl ⟨g, hl, rfl, rfl⟩
    · exact .inr ⟨t, p, ⟨hl, rfl⟩, p, p, ⟨rfl, rfl⟩, by simp [hi]⟩

end

-- The number of levels is known from the start.
theorem run_whole (p : Parser) : whole.run p = (do
    let e ← expr (nested p.levels)
    if ← check .eof then return e else failExpecting "end of input").run p := by
  rw [whole, leveled, run_bind]
  rfl

end Parser
end ExprLang
