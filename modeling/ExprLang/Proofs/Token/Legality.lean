import ExprLang.Proofs.Token.Placement

/-!
The bytes that can stand in a source. Blanks, letters, digits, and signs can stand anywhere, an underscore
can go on with a word, and nothing else can stand in a source at all. Scanning fails at the first byte that
cannot stand where it stands.
-/
namespace ExprLang

open Token

namespace Token

-- The bytes that operators and delimiters are made of.
def isSign (b : UInt8) : Bool :=
  b ∈ ("+-*/=!><&|()\x7b\x7d:;" : Text).encode

-- Whether there is a letter among the letters, digits and underscores that `bs` ends with.
def endsInWord (bs : Bytes) : Bool :=
  (bs.rtakeWhile isWord).any isLetter

-- Whether a byte can stand right behind others. Of all bytes, only an underscore depends on them.
def canFollow (before : Bytes) (b : UInt8) : Bool :=
  isBlank b || isLetter b || isDigit b || isSign b || (b = '_'.toUInt8 && endsInWord before)

-- Whether there is a byte at an offset that cannot stand there.
def isIllegalAt (bs : Bytes) (p : Nat) : Bool :=
  bs[p]?.any fun b => !canFollow (bs.take p) b

-- Whether all bytes can stand one behind the other.
def legalBehind (before : Bytes) : Bytes → Bool
  | [] => true
  | b :: bs => canFollow before b && legalBehind (before ++ [b]) bs

-- Where a word may go on, there is none of which it would be a part.
def Edge (before after : Bytes) : Prop :=
  ∀ b ∈ after.head?, isWord b → endsInWord before = false

variable {before bs cs : Bytes} {b : UInt8} {k : Kind}

theorem legalBehind_append :
    legalBehind before (bs ++ cs) = (legalBehind before bs && legalBehind (before ++ bs) cs) := by
  induction bs generalizing before with
  | nil => simp [legalBehind]
  | cons b bs ih => simp [legalBehind, ih, Bool.and_assoc]

theorem legalBehind_nil_iff : legalBehind [] bs ↔ ∀ p, isIllegalAt bs p = false := by
  induction bs using List.reverseRecOn with
  | nil => simp [legalBehind, isIllegalAt]
  | append_singleton bs b ih =>
    have left {p : Nat} (h : p < bs.length) : isIllegalAt (bs ++ [b]) p = isIllegalAt bs p := by
      simp only [isIllegalAt, List.getElem?_append_left h, List.take_append_of_le_length h.le]
    have right : isIllegalAt (bs ++ [b]) bs.length = !canFollow bs b := by
      simp [isIllegalAt]
    rw [legalBehind_append, Bool.and_eq_true, ih]
    constructor
    · rintro ⟨h, hb⟩ p
      rcases Nat.lt_trichotomy p bs.length with hp | rfl | hp
      · rw [left hp, h]
      · simpa [right, legalBehind] using hb
      · simp [isIllegalAt, List.getElem?_eq_none (show (bs ++ [b]).length ≤ p by simpa using hp)]
    · intro h
      refine ⟨fun p => ?_, by simpa [right, legalBehind] using h bs.length⟩
      by_cases hp : p < bs.length
      · rw [←left hp, h]
      · simp [isIllegalAt, List.getElem?_eq_none (Nat.le_of_not_lt hp)]

-- Words go on with letters, digits and underscores.
theorem endsInWord_append (h : ∀ b ∈ bs, isWord b) :
    endsInWord (before ++ bs) = (endsInWord before || bs.any isLetter) := by
  have hr : ∀ b ∈ bs.reverse, isWord b := by simpa using h
  simp [endsInWord, List.rtakeWhile, List.takeWhile_append_of_pos hr, Bool.or_comm]

-- They end with anything else.
theorem endsInWord_concat (h : isWord b = false) : endsInWord (before ++ [b]) = false := by
  simp [endsInWord, h]

theorem Kind.extendedBy_keyword (hk : k.isKeyword) (hb : isWord b) : k.extendedBy b := by
  cases k <;> simp_all [extendedBy, isKeyword, keywords]

-- What tokens are made of: digits, a word that takes in all bytes by which it can go on, or signs.
theorem Kind.allows_cases (h : k.allows bs) (hk : k ≠ .eof) :
    (k = .number ∧ isNumeral bs) ∨ (isName bs ∧ ∀ b, isWord b → k.extendedBy b) ∨
      (bs ≠ [] ∧ bs.all isSign) := by
  have table : ∀ k ∈ all, k.isFixed → (isName k.bytes ∧ k.isKeyword) ∨
      (k.bytes ≠ [] ∧ k.bytes.all isSign) := by
    decide
  by_cases hi : k = .ident
  case pos =>
    subst hi
    simp only [allows, Bool.and_eq_true] at h
    exact .inr (.inl ⟨h.left, fun b hb => by simpa [extendedBy] using hb⟩)
  by_cases hn : k = .number
  case pos =>
    subst hn
    exact .inl ⟨rfl, h⟩
  have hf : k.isFixed := isFixed_iff.mpr ⟨hi, hn, hk⟩
  obtain rfl := (allows_fixed hf).mp h
  cases table k k.mem_all hf with
  | inl hw => exact .inr (.inl ⟨hw.left, fun _ => extendedBy_keyword hw.right⟩)
  | inr hs => exact .inr (.inr hs)

theorem legalBehind_of_forall (h : ∀ b ∈ bs, ∀ before, canFollow before b) :
    legalBehind before bs := by
  induction bs generalizing before with
  | nil => rfl
  | cons b bs ih =>
    obtain ⟨hb, hbs⟩ := List.forall_mem_cons.mp h
    simp [legalBehind, hb before, ih hbs]

-- An underscore can go on with a word.
theorem legalBehind_of_endsInWord (he : endsInWord before) (h : ∀ b ∈ bs, isWord b) :
    legalBehind before bs := by
  induction bs generalizing before with
  | nil => rfl
  | cons b bs ih =>
    obtain ⟨hb, hbs⟩ := List.forall_mem_cons.mp h
    have hw : endsInWord (before ++ [b]) := by
      rw [endsInWord_append (List.forall_mem_singleton.mpr hb), he, Bool.true_or]
    rw [legalBehind, ih hw hbs, Bool.and_true]
    simp only [isWord, Bool.or_eq_true, decide_eq_true_eq] at hb
    rcases hb with (hb | hb) | hb <;> simp [canFollow, hb, he]

theorem legalBehind_blanks (h : ∀ b ∈ bs, isBlank b) : legalBehind before bs :=
  legalBehind_of_forall fun b hb _ => by simp [canFollow, h b hb]

theorem legalBehind_token (h : k.allows bs) (hk : k ≠ .eof) : legalBehind before bs := by
  rcases Kind.allows_cases h hk with ⟨-, hd⟩ | ⟨hn, -⟩ | ⟨-, hs⟩
  · simp only [Kind.isNumeral, Bool.and_eq_true, List.all_eq_true] at hd
    exact legalBehind_of_forall fun b hb _ => by simp [canFollow, hd.right b hb]
  · cases bs with
    | nil => rfl
    | cons b bs =>
      simp only [Kind.isName, Bool.and_eq_true, List.all_eq_true] at hn
      have hw : endsInWord (before ++ [b]) := by
        rw [endsInWord_append (by simp [isWord, hn.left])]
        simp [hn.left]
      rw [legalBehind, legalBehind_of_endsInWord hw hn.right]
      simp [canFollow, hn.left]
  · rw [List.all_eq_true] at hs
    exact legalBehind_of_forall fun b hb _ => by simp [canFollow, hs b hb]

theorem Edge.of_last {c : UInt8} (hl : bs.getLast? = some c) (hc : isWord c = false) :
    Edge (before ++ bs) cs := by
  obtain ⟨ds, rfl⟩ := List.getLast?_eq_some_iff.mp hl
  intro _ _ _
  rw [←List.append_assoc]
  exact endsInWord_concat hc

theorem Edge.blanks (h : Edge before (bs ++ cs)) (hb : ∀ b ∈ bs, isBlank b) :
    Edge (before ++ bs) cs := by
  have table : ∀ b : UInt8, isBlank b → isWord b = false := forall_byte (by decide +kernel)
  cases hl : bs.getLast? with
  | none =>
    rw [List.getLast?_eq_none_iff] at hl
    simpa [hl] using h
  | some c => exact .of_last hl (table c (hb c (List.mem_of_getLast? hl)))

-- No word can go on behind a token: a number goes on with what was before it, where there was none.
theorem Edge.token (h : Edge before (bs ++ cs)) (ha : k.allows bs) (hk : k ≠ .eof)
    (he : k.endsBefore cs) : Edge (before ++ bs) cs := by
  have digit : ∀ b : UInt8, isDigit b → isWord b ∧ isLetter b = false := forall_byte (by decide +kernel)
  have sign : ∀ b : UInt8, isSign b → isWord b = false := forall_byte (by decide +kernel)
  rcases Kind.allows_cases ha hk with ⟨-, hd⟩ | ⟨-, hx⟩ | ⟨hn, hs⟩
  · simp only [Kind.isNumeral, Bool.and_eq_true, Bool.not_eq_true', List.isEmpty_eq_false_iff,
      List.all_eq_true] at hd
    obtain ⟨b, ds, rfl⟩ := List.exists_cons_of_ne_nil hd.left
    intro _ _ _
    have hb := h b (by simp) (digit b (hd.right b (.head _))).left
    rw [endsInWord_append fun b hb => (digit b (hd.right b hb)).left, hb, Bool.false_or,
      List.any_eq_false]
    exact fun b hb => by simp [(digit b (hd.right b hb)).right]
  · intro b hb hw
    have := Option.all_eq_true .. |>.mp he b hb
    simp [hx b hw] at this
  · rw [List.all_eq_true] at hs
    cases hl : bs.getLast? with
    | none => exact absurd (List.getLast?_eq_none_iff.mp hl) hn
    | some c => exact .of_last hl (sign c (hs c (List.mem_of_getLast? hl)))

theorem Edge.start (bs : Bytes) : Edge [] bs :=
  fun _ _ _ => rfl

-- A stray byte cannot stand where no word goes on.
theorem not_canFollow_of_first (h : Item.first (b :: bs) = .stray b) (hb : isBlank b = false)
    (he : Edge before (b :: bs)) : canFollow before b = false := by
  have sign : ∀ b : UInt8, isSign b → (Kind.ofByte? b).isSome || (Pair.ofByte? b).isSome :=
    forall_byte (by decide +kernel)
  simp only [Item.first] at h
  split at h
  case h_1 => cases h
  case h_2 h₁ =>
  split at h
  case h_1 => split at h <;> cases h
  case h_2 h₂ =>
  split at h
  case isTrue => cases h
  case isFalse hl =>
  split at h
  case isTrue => cases h
  case isFalse hd =>
  have hs : isSign b = false := by
    rw [Bool.eq_false_iff]
    intro hs
    have hs := sign b hs
    rw [Option.eq_none_iff_forall_ne_some.mpr h₁, Option.eq_none_iff_forall_ne_some.mpr h₂] at hs
    cases hs
  simp only [canFollow, hb, hl, hd, hs, Bool.false_or, Bool.and_eq_false_iff]
  by_cases hu : b = '_'.toUInt8
  case neg => exact .inl (decide_eq_false hu)
  case pos => exact .inr (he b rfl (by simp [isWord, hu]))

end Token

namespace Places

-- All that tokens and the blanks before them are made of can stand where it stands.
theorem legal {pos : Nat} {before bs r : Bytes} {ts : List Token} (h : Places pos bs ts r)
    (he : Edge before bs) :
    ∃ pre, bs = pre ++ r ∧ legalBehind before pre ∧ Edge (before ++ pre) r := by
  induction h generalizing before
  case done => exact ⟨[], rfl, rfl, by simpa using he⟩
  case token k blanks text bs pos ts r hb ha hk hend _ ih =>
    have he := (he.blanks hb).token ha hk hend
    obtain ⟨pre, rfl, hl, he⟩ := ih he
    refine ⟨blanks ++ (text ++ pre), by simp, ?_, by simpa using he⟩
    rw [legalBehind_append, legalBehind_append, legalBehind_blanks hb, legalBehind_token ha hk, hl]
    rfl

end Places

namespace Lexer

variable {src : Text}

-- A source without a fault consists of bytes that can stand in it.
theorem legal_of_scan (h : (ofText src).scan.fault = none) (p : Nat) :
    isIllegalAt src.encode p = false := by
  obtain ⟨ts, rest, -, hp, hb⟩ := places_scan h
  obtain ⟨pre, hs, hl, -⟩ := hp.legal (.start _)
  have hs : src.encode = pre ++ rest := hs
  refine legalBehind_nil_iff.mp ?_ p
  rw [hs, legalBehind_append, hl, legalBehind_blanks hb]
  rfl

-- The fault of a source is the first byte that cannot stand in it.
theorem illegal_of_scan {e : SyntaxError} (h : (ofText src).scan.fault = some e) :
    ∃ p b, src.encode[p]? = some b ∧ isIllegalAt src.encode p ∧
      (∀ q < p, isIllegalAt src.encode q = false) ∧ e = ⟨⟨p, p + 1, Nat.le_succ p⟩, .strayByte b⟩ := by
  obtain ⟨blanks, b, bs, hp, hb, hn, hf, hc, hlo, hhi⟩ := places_fault h
  obtain ⟨pre, hs, hl, he⟩ := hp.legal (.start _)
  have hs : src.encode = (pre ++ blanks) ++ b :: bs := (List.append_assoc ..).symm ▸ hs
  have hlegal : legalBehind [] (pre ++ blanks) := by
    rw [legalBehind_append, hl, legalBehind_blanks hb]
    rfl
  have hlen : e.span.lo = (pre ++ blanks).length := by
    have hsize : src.encode.length = (ofText src).source.size := rfl
    rw [hs, List.length_append, List.length_cons] at hsize
    omega
  have hat : src.encode[(pre ++ blanks).length]? = some b := by simp [hs]
  refine ⟨_, b, hat, ?_, fun q hq => ?_, ?_⟩
  · have hn := not_canFollow_of_first hf hn (he.blanks hb)
    rw [isIllegalAt, hat, hs, List.take_left]
    simpa using hn
  · have hq' := legalBehind_nil_iff.mp hlegal q
    rwa [isIllegalAt, hs, List.getElem?_append_left hq, List.take_append_of_le_length hq.le]
  · exact congrArg₂ SyntaxError.mk (Span.ext hlen (hhi.trans (congrArg (· + 1) hlen))) hc

end Lexer

-- Scanning a source fails if and only if it has a byte that cannot stand where it stands, and reports the
-- first one.
theorem tokenize_eq_error_iff (src : Text) :
    ((∃ e, tokenize src = .error e) ↔ ∃ p, isIllegalAt src.encode p) ∧
    ∀ e, tokenize src = .error e ↔
      ∃ p b, src.encode[p]? = some b ∧ isIllegalAt src.encode p ∧
        (∀ q < p, isIllegalAt src.encode q = false) ∧
        e = ⟨⟨p, p + 1, Nat.le_succ p⟩, .strayByte b⟩ := by
  cases hf : (Lexer.ofText src).scan.fault with
  | none =>
    have hl := Lexer.legal_of_scan hf
    simp [tokenize, Lexer.drain, hf, hl]
  | some f =>
    have hi := Lexer.illegal_of_scan hf
    have ht : tokenize src = .error f := by rw [tokenize, Lexer.drain, hf]; rfl
    constructor
    case left =>
      obtain ⟨p, _, _, hp, _⟩ := hi
      exact ⟨fun _ => ⟨p, hp⟩, fun _ => ⟨f, ht⟩⟩
    case right =>
      intro e
      rw [ht, Except.error.injEq]
      constructor
      case mp => exact fun h => h ▸ hi
      case mpr =>
        rintro ⟨p, b, hb, hp, hmin, rfl⟩
        obtain ⟨p', b', hb', hp', hmin', rfl⟩ := hi
        -- Of two first ones, neither is before the other.
        obtain h | rfl | h := Nat.lt_trichotomy p p'
        · simp [hmin' p h] at hp
        · cases hb.symm.trans hb'
          rfl
        · simp [hmin p' h] at hp'

-- An underscore goes on with a word, but not with a number.
example : isIllegalAt (Text.encode "a1_") 2 = false ∧ isIllegalAt (Text.encode "1_") 1 = true := by
  decide

end ExprLang
