import ExprLang.Proofs.Parser.Respacing
import ExprLang.Proofs.Parser.Scanning
import ExprLang.Proofs.Text.Position

/-!
Where faults are reported. Up to the token or the stray byte at which parsing stops, a source consists
of tokens and blanks, and if it does not stop, all of it does. So there are only ASCII characters before
any fault.
-/
namespace ExprLang

open Token

namespace Lexer

variable {l l' : Lexer}

-- The bytes behind a scanner.
def past (l : Lexer) : Bytes :=
  l.source.toList.take l.pos

theorem past_skip (l : Lexer) (n : Nat) : (l.skip n).past = l.past ++ l.rest.take n := by
  show l.source.toList.take (min (l.pos + n) l.source.size) = _
  rw [past, l.rest_eq, ←List.take_add, List.take_eq_take_iff, Array.length_toList]
  omega

theorem past_skipBlanks (l : Lexer) : l.skipBlanks.past = l.past ++ l.rest.takeWhile isBlank := by
  show (l.skip _).past = _
  rw [past_skip]
  exact congrArg (l.past ++ ·) (List.prefix_iff_eq_take.mp (List.takeWhile_prefix isBlank)).symm

-- Only ASCII was read so far.
def IsClear (l : Lexer) : Prop :=
  ∀ b ∈ l.past, b < 0x80

theorem IsClear.skipBlanks (h : l.IsClear) : l.skipBlanks.IsClear := by
  rw [IsClear, past_skipBlanks]
  refine List.forall_mem_append.mpr ⟨h, fun b hb => ?_⟩
  exact isBlank_ascii (List.mem_takeWhile_imp hb)

-- Whatever comes next, there is only ASCII before it.
theorem IsClear.span (h : l.IsClear) (n : Nat) :
    (l.skipBlanks.skip n).span.IsClear l.source.toList where
  within := by
    rw [Array.length_toList]
    exact (l.skipBlanks.skip n).pos_le
  ascii := h.skipBlanks

theorem IsClear.next {t : Token} (h : l.IsClear) (hn : l.next = (.ok t, l')) :
    t.span.IsClear l.source.toList ∧ l'.IsClear := by
  obtain ⟨_, rfl, rfl⟩ | ⟨k, n, hi, rfl, rfl⟩ := next_cases hn
  case inl =>
    refine ⟨h.span 0, ?_⟩
    rw [IsClear, past_skip, List.take_zero, List.append_nil]
    exact h.skipBlanks
  case inr =>
    refine ⟨h.span n, ?_⟩
    rw [IsClear, past_skip, rest_skipBlanks]
    exact List.forall_mem_append.mpr ⟨h.skipBlanks, Kind.allows_ascii (Item.allows_of_first hi).left⟩

theorem IsClear.next_error {e : SyntaxError} (h : l.IsClear) (hn : l.next = (.error e, l')) :
    e.span.IsClear l.source.toList := by
  cases hi : Item.first l.ahead with
  | token => simp [next_token hi] at hn
  | finish => simp [next_finish (ahead_of_first_finish hi)] at hn
  | stray b =>
    rw [next_stray hi] at hn
    cases hn
    exact h.span 1

-- There is only ASCII before each token and before the first stray byte.
theorem IsClear.scan (h : l.IsClear) :
    (∀ t ∈ l.scan.tokens, t.span.IsClear l.source.toList) ∧
      ∀ e ∈ l.scan.fault, e.span.IsClear l.source.toList := by
  fun_induction Lexer.scan l
  case case1 hn =>
    exact ⟨List.forall_mem_nil _, fun _ he => Option.some.inj he ▸ h.next_error hn⟩
  case case2 hn _ => exact ⟨List.forall_mem_singleton.mpr (h.next hn).left, by simp⟩
  case case3 hn _ _ ih =>
    obtain ⟨ht, hl⟩ := h.next hn
    obtain ⟨hts, hf⟩ := ih hl
    rw [source_next hn] at hts hf
    exact ⟨List.forall_mem_cons.mpr ⟨ht, hts⟩, hf⟩

theorem isClear_ofText (src : Text) : (ofText src).IsClear :=
  nofun

end Lexer

namespace Parser

-- A source beside itself, with spans that lie in it.
def Pair.within (src : Text) {i : Interner} (hi : i.Reachable) : Pair :=
  { same src hi hi with
    spans := fun s _ => s.hi ≤ src.encode.length
    span := fun h _ => ((Lexer.isClear_ofText src).scan.left _ h.right).within
    merge := fun hs hu => Nat.max_le.mpr ⟨hs, hu⟩ }

variable {src : Text} {i j : Interner} {d m : Int} {e : Program}

-- Parsing stops at a token or at a stray byte.
theorem isClear_of_parse {err : SyntaxError} (hi : i.Reachable)
    (h : parse src i d = (.error (.fault err), j)) : err.span.IsClear src.encode := by
  have ⟨htokens, hfault⟩ := (Lexer.isClear_ofText src).scan
  rw [←ofFault_of_parse h] at h
  cases fault_cases hi h with
  | inl hf => exact hfault _ hf
  | inr ht =>
    obtain ⟨_, t, ht, hs⟩ := ht
    exact hs ▸ htokens t ht

-- Evaluation stops at a part of the tree, and the source of a tree is ASCII as a whole.
theorem isClear_of_evaluate {err : EvalError} (hi : i.Reachable) (h : parse src i d = (.ok e, j))
    (he : evaluate e m = .error (.fault err)) : err.span.IsClear src.encode where
  within := by
    cases (Pair.within src hi).parse_both d with
    | inr hp =>
      have ⟨_, _, _, _, hp, _⟩ := hp
      cases h.symm.trans hp
    | inl hp =>
      have ⟨_, _, hp, hp', ha⟩ := hp
      cases h.symm.trans hp
      cases h.symm.trans hp'
      have ⟨_, hs⟩ := (Expr.Alike.evaluate ha m).exists_related he
      exact hs
  ascii := by
    have ⟨ts, _, _, hts, _⟩ := located_of_parse hi.valid h
    have hf : Lexer.finish src.encode ∈ (Lexer.ofText src).scan.tokens := by
      rw [hts]
      exact List.mem_append_right ts (List.mem_singleton_self _)
    -- The end of the input comes behind all bytes.
    have ha : ∀ b ∈ src.encode.take src.encode.length, b < 0x80 :=
      ((Lexer.isClear_ofText src).scan.left _ hf).ascii
    rw [List.take_length] at ha
    exact fun b hb => ha b (List.mem_of_mem_take hb)

end Parser

theorem SyntaxError.span_diagnostic (e : SyntaxError) : e.diagnostic.span = e.span :=
  congrArg Diagnostic.span (diagnostic_moved e.span e.span e.cause)

theorem EvalError.span_diagnostic (e : EvalError) : e.diagnostic.span = e.span :=
  congrArg Diagnostic.span (diagnostic_moved e.span e.span e.cause)

-- Every fault of a source, which parsing or evaluation stops at, is reported where it is seen.
theorem faults_are_seen {src : Text} {i : Interner} {d : Int} (hi : i.Reachable) :
    (∀ err j, parse src i d = (.error (.fault err), j) → err.diagnostic.IsSeen src) ∧
    ∀ e j m err, parse src i d = (.ok e, j) → evaluate e m = .error (.fault err) →
      err.diagnostic.IsSeen src := by
  constructor
  case left =>
    intro err j h
    refine Span.IsClear.isSeen ?_
    rw [err.span_diagnostic]
    exact Parser.isClear_of_parse hi h
  case right =>
    intro e j m err h he
    refine Span.IsClear.isSeen ?_
    rw [err.span_diagnostic]
    exact Parser.isClear_of_evaluate hi h he

-- A character that is not ASCII on the second line, and a division by zero that starts on the first.
theorem faults_are_seen_lines :
    (∃ err j, parse "1 +\n é" .empty 0 = (.error (.fault err), j) ∧ err.diagnostic.IsSeen "1 +\n é") ∧
    ∃ e j err, parse "1 /\n 0" .empty 0 = (.ok e, j) ∧ evaluate e 2 = .error (.fault err) ∧
      err.diagnostic.IsSeen "1 /\n 0" := by
  constructor
  case left =>
    have hf : (parse "1 +\n é" .empty 0).fst = .error (.fault ⟨⟨5, 6, by decide⟩, .strayByte 0xC3⟩) := by
      cbv
    obtain ⟨j, h⟩ := Parser.exists_parse_eq hf
    exact ⟨_, j, h, (faults_are_seen .empty).left _ j h⟩
  case right =>
    let quotient : Program := .binary ⟨0, 6, by decide⟩ .div
      (.literal ⟨0, 1, by decide⟩ (.num 1)) (.literal ⟨5, 6, by decide⟩ (.num 0))
    have he : (parse "1 /\n 0" .empty 0).fst = .ok quotient := by
      cbv
    obtain ⟨j, h⟩ := Parser.exists_parse_eq he
    have hv : evaluate quotient 2 = .error (.fault ⟨⟨0, 6, by decide⟩, .divisionByZero⟩) := rfl
    exact ⟨_, j, _, h, hv, (faults_are_seen .empty).right _ j 2 _ h hv⟩

end ExprLang
