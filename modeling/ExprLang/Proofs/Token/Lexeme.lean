import ExprLang.Proofs.Token.Word

/-!
Lexemes: what tokens can be written as. An input starts with a token if and only if one of its
prefixes is a lexeme, and then the token takes the longest one.
-/
namespace ExprLang.Token

-- Operators, delimiters and keywords are always written alike. A number is any sequence of digits,
-- and an identifier any word that is no keyword.
inductive Lexeme : Kind → Bytes → Prop
  | fixed (hk : k.isFixed) : Lexeme k k.bytes
  | number (hn : ds ≠ []) (hd : ∀ b ∈ ds, isDigit b) : Lexeme .number ds
  | ident (hl : isLetter b) (hw : ∀ c ∈ bs, isWord c) (hk : ∀ k ∈ Kind.keywords, b :: bs ≠ k.bytes) :
    Lexeme .ident (b :: bs)

-- The prefix of an input that is a lexeme of one kind only, and at least as long as any other.
structure LongestLexeme (k : Kind) (lexeme bs : Bytes) : Prop where
  isPrefix : lexeme <+: bs
  isLexeme : Lexeme k lexeme
  kind_eq : ∀ k', Lexeme k' lexeme → k' = k
  longest : ∀ k' r, r <+: bs → Lexeme k' r → r.length ≤ lexeme.length

namespace Kind

variable {k : Kind} {b : UInt8} {bs : Bytes}

-- A word is an identifier unless it is spelled like a keyword.
theorem ofWord_eq_ident_iff : ofWord bs = .ident ↔ ∀ k ∈ keywords, bs ≠ k.bytes := by
  have table : ∀ k ∈ keywords, ofWord k.bytes = k ∧ k ≠ .ident := by decide
  constructor
  case mp =>
    intro h k hk hb
    have ⟨ho, hne⟩ := table k hk
    exact hne (ho.symm.trans (hb ▸ h))
  case mpr =>
    intro h
    cases ofWord_cases bs
    case inl hi => exact hi
    case inr hk => exact absurd hk.right (h _ hk.left)

theorem lexeme_iff_allows : Lexeme k bs ↔ k.allows bs ∧ k ≠ .eof := by
  constructor
  case mp =>
    intro h
    cases h
    case fixed hk => exact ⟨(allows_fixed hk).mpr rfl, (isFixed_iff.mp hk).right.right⟩
    case number hn hd => simp_all [allows, isNumeral]
    case ident hl hw hk => simp_all [allows, isName, ofWord_eq_ident_iff.mpr hk]
  case mpr =>
    rintro ⟨ha, he⟩
    by_cases hi : k = .ident
    case pos =>
      subst hi
      simp only [allows, Bool.and_eq_true, beq_iff_eq] at ha
      cases bs with
      | nil => simp [isName] at ha
      | cons b bs =>
        simp only [isName, Bool.and_eq_true, List.all_eq_true] at ha
        exact .ident ha.left.left ha.left.right (ofWord_eq_ident_iff.mp ha.right)
    by_cases hn : k = .number
    case pos =>
      subst hn
      simp only [allows, isNumeral, Bool.and_eq_true, Bool.not_eq_true', List.isEmpty_eq_false_iff,
        List.all_eq_true] at ha
      exact .number ha.left ha.right
    have hf : k.isFixed := isFixed_iff.mpr ⟨hi, hn, he⟩
    exact (allows_fixed hf).mp ha ▸ .fixed hf

theorem isName_snoc (h : isName bs) (hb : isWord b) : isName (bs ++ [b]) := by
  cases bs with
  | nil => simp [isName] at h
  | cons c bs => simp_all [isName]

theorem lexeme_of_isName (h : isName bs) : Lexeme (ofWord bs) bs := by
  refine lexeme_iff_allows.mpr ⟨allows_ofWord h, fun he => ?_⟩
  have ha := he ▸ allows_ofWord h
  simp only [allows, List.isEmpty_iff] at ha
  simp [ha, isName] at h

-- A byte that makes a longer token of a lexeme makes a longer lexeme of it.
theorem exists_lexeme_snoc (h : Lexeme k bs) (hb : k.extendedBy b) : ∃ k', Lexeme k' (bs ++ [b]) := by
  cases h
  case ident c cs hl hw hk =>
    have hn : isName (c :: cs) := by simp_all [isName]
    exact ⟨_, lexeme_of_isName (isName_snoc hn hb)⟩
  case number hn hd =>
    refine ⟨.number, .number (by simp) fun c hc => ?_⟩
    cases List.mem_append.mp hc
    case inl hc => exact hd c hc
    case inr hc => exact List.mem_singleton.mp hc ▸ hb
  case fixed hk =>
    cases k
    case minus => exact ⟨.arrow, eq_of_beq hb ▸ .fixed rfl⟩
    case eq => exact ⟨.eqEq, eq_of_beq hb ▸ .fixed rfl⟩
    case bang => exact ⟨.bangEq, eq_of_beq hb ▸ .fixed rfl⟩
    case gt => exact ⟨.gtEq, eq_of_beq hb ▸ .fixed rfl⟩
    case lt => exact ⟨.ltEq, eq_of_beq hb ▸ .fixed rfl⟩
    case amp => exact ⟨.ampAmp, eq_of_beq hb ▸ .fixed rfl⟩
    case pipe => exact ⟨.pipePipe, eq_of_beq hb ▸ .fixed rfl⟩
    case kwIf | kwElse | kwTrue | kwFalse | kwLet | kwFn | kwReturn =>
      exact ⟨_, lexeme_of_isName (isName_snoc (by decide) hb)⟩
    case ident | number | eof => contradiction
    all_goals simp [extendedBy, isKeyword, keywords] at hb

end Kind

namespace Item

variable {k : Kind} {b : UInt8} {bs lexeme rest : Bytes} {n : Nat}

theorem first_lexeme (h : Lexeme k lexeme) : first lexeme = .token k lexeme.length := by
  have ⟨ha, he⟩ := Kind.lexeme_iff_allows.mp h
  have hf := first_append ha he (Kind.endsBefore_nil k)
  rwa [List.append_nil] at hf

-- An input that starts with a lexeme starts with a token that is at least as long.
theorem first_lexeme_append (h : Lexeme k lexeme) :
    ∃ k' n, first (lexeme ++ rest) = .token k' n ∧ lexeme.length ≤ n := by
  induction rest generalizing k lexeme
  case nil =>
    rw [List.append_nil]
    exact ⟨k, _, first_lexeme h, Nat.le_refl _⟩
  case cons b rest ih =>
    have ⟨ha, he⟩ := Kind.lexeme_iff_allows.mp h
    cases hb : k.extendedBy b
    case false => exact ⟨k, _, first_append ha he ((Kind.endsBefore_cons ..).mpr hb), Nat.le_refl _⟩
    case true =>
      have ⟨k', h'⟩ := Kind.exists_lexeme_snoc h hb
      have ⟨k'', n, hf, hn⟩ := ih h'
      rw [List.append_assoc] at hf
      rw [List.length_append] at hn
      exact ⟨k'', n, hf, Nat.le_of_succ_le hn⟩

theorem first_of_lexeme_prefix {r : Bytes} (h : Lexeme k r) (hr : r <+: bs) :
    ∃ k' n, first bs = .token k' n ∧ r.length ≤ n := by
  have ⟨rest, hb⟩ := hr
  exact hb ▸ first_lexeme_append h

-- A token takes the longest lexeme.
theorem longestLexeme_of_first (h : first bs = .token k n) : LongestLexeme k (bs.take n) bs where
  isPrefix := List.take_prefix n bs
  isLexeme := Kind.lexeme_iff_allows.mpr (allows_of_first h)
  kind_eq k' hk := by
    have hf := first_lexeme (Kind.lexeme_iff_allows.mpr (allows_of_first h))
    cases hf.symm.trans (first_lexeme hk)
    rfl
  longest k' r hr hk := by
    have ⟨_, m, hf, hm⟩ := first_of_lexeme_prefix hk hr
    cases h.symm.trans hf
    rw [List.length_take]
    exact Nat.le_min.mpr ⟨hm, hr.length_le⟩

-- Nothing but a stray byte stands where there is no lexeme.
theorem not_lexeme_of_first (h : first bs = .stray b) {r : Bytes} (hr : r <+: bs) : ¬Lexeme k r := by
  intro hk
  have ⟨_, _, hf, _⟩ := first_of_lexeme_prefix hk hr
  exact nomatch h.symm.trans hf

theorem head_of_first (h : first bs = .stray b) : bs.head? = some b := by
  cases bs with
  | nil => cases h
  | cons c bs =>
    simp only [first] at h
    split at h
    · cases h
    split at h
    · split at h <;> cases h
    split at h
    · cases h
    split at h
    · cases h
    · cases h
      rfl

end Item
end ExprLang.Token
