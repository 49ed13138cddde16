import ExprLang.Proofs.Grammar.Numeral
import ExprLang.Proofs.Text.Ascii
import ExprLang.Proofs.Token.Scan
import ExprLang.Tree.Format

/-!
Texts that are read as certain words wherever they stand, as long as what follows does not make their
last word longer.
-/
namespace ExprLang

open Token Word

-- No token goes on with these bytes.
def Delimited (bs : Bytes) : Prop :=
  ∀ k : Kind, k.endsBefore bs

theorem Delimited.nil : Delimited [] :=
  fun _ => rfl

namespace Text

-- No token before a text goes on with its first byte.
def closes (t : Text) : Bool :=
  t.encode.head?.any fun b => Kind.all.all (!·.extendedBy b)

-- The words that a text is read as in front of any bytes.
structure Opens (t : Text) (ws : List Word) : Prop where
  scans (r : Bytes) : Scans (t.encode ++ r) ws r
  range : ∀ w ∈ ws, w.InRange

-- The words that a text is read as where no token goes on behind it.
structure Spells (t : Text) (ws : List Word) : Prop where
  scans {r : Bytes} (h : Delimited r) : Scans (t.encode ++ r) ws r
  range : ∀ w ∈ ws, w.InRange

variable {t u : Text} {ws vs : List Word} {k : Kind}

theorem delimited_of_closes (h : t.closes) (r : Bytes) : Delimited (t.encode ++ r) := by
  cases ht : t.encode with
  | nil => simp [closes, ht] at h
  | cons b bs =>
    simp only [closes, ht, List.head?_cons, Option.any_some, List.all_eq_true, Bool.not_eq_true'] at h
    intro k
    exact (Kind.endsBefore_cons ..).mpr (h k k.mem_all)

theorem endsBefore_of_closes (h : t.closes) (k : Kind) : k.endsBefore t.encode := by
  simpa using delimited_of_closes h [] k

theorem closes_append (h : t.closes) (u : Text) : (t ++ u).closes := by
  rw [closes, encode_append, List.head?_append]
  rw [closes] at h
  cases ht : t.encode.head? with
  | none => simp [ht] at h
  | some b => simpa [ht] using h

theorem Opens.spells (h : Opens t ws) : Spells t ws :=
  ⟨fun _ => h.scans _, h.range⟩

theorem Opens.append (h : Opens t ws) (h' : Spells u vs) : Spells (t ++ u) (ws ++ vs) where
  scans hr := by
    rw [encode_append, List.append_assoc]
    exact (h.scans _).append (h'.scans hr)
  range w hw := (List.mem_append.mp hw).elim (h.range w) (h'.range w)

theorem Spells.append (h : Spells t ws) (h' : Spells u vs) (hu : u.closes) :
    Spells (t ++ u) (ws ++ vs) where
  scans hr := by
    rw [encode_append, List.append_assoc]
    exact (h.scans (delimited_of_closes hu _)).append (h'.scans hr)
  range w hw := (List.mem_append.mp hw).elim (h.range w) (h'.range w)

theorem Spells.opens (h : Spells t ws) (h' : Opens u vs) (hu : u.closes) :
    Opens (t ++ u) (ws ++ vs) where
  scans r := by
    rw [encode_append, List.append_assoc]
    exact (h.scans (delimited_of_closes hu _)).append (h'.scans r)
  range w hw := (List.mem_append.mp hw).elim (h.range w) (h'.range w)

theorem Opens.opens (h : Opens t ws) (h' : Opens u vs) : Opens (t ++ u) (ws ++ vs) where
  scans r := by
    rw [encode_append, List.append_assoc]
    exact (h.scans _).append (h'.scans r)
  range w hw := (List.mem_append.mp hw).elim (h.range w) (h'.range w)

theorem Opens.blank : Opens " " [] where
  scans r := .blank (b := 0x20) (by decide) .done
  range := by simp

-- A word that is written as its kind allows.
theorem Spells.word {w : Word} (ha : w.kind.allows w.text) (hk : w.kind ≠ .eof) (hr : w.InRange)
    (ht : t.encode = w.text) : Spells t [w] where
  scans h := ht ▸ .single ha hk (h w.kind)
  range _ hw := List.mem_singleton.mp hw ▸ hr

theorem Spells.fixed (hk : k.isFixed) : Spells k.spelling [fixed k] := by
  have ⟨_, hn, he⟩ := Kind.isFixed_iff.mp hk
  exact .word ((Kind.allows_fixed hk).mpr rfl) he (.of_kind hn) rfl

-- A token that no byte makes longer.
theorem Opens.fixed (hk : k.isFixed) (h : ∀ b, k.extendedBy b = false) :
    Opens k.spelling [fixed k] where
  scans r := by
    have hr : k.endsBefore r := by
      cases r with
      | nil => rfl
      | cons b bs => exact (Kind.endsBefore_cons ..).mpr (h b)
    have ha : (Word.fixed k).kind.allows (Word.fixed k).text := (Kind.allows_fixed hk).mpr rfl
    have hs := Scans.single ha (Kind.isFixed_iff.mp hk).right.right hr
    exact hs
  range := (Spells.fixed hk).range

-- A token with a blank behind it.
theorem Opens.spaced (hk : k.isFixed) {s : String} (hs : s = k.spelling ++ " ") :
    Opens s [.fixed k] := by
  rw [hs, ofString_append]
  exact (Spells.fixed hk).opens .blank (by decide)

-- A token with blanks around it.
theorem Opens.between (hk : k.isFixed) {s : String} (hs : s = " " ++ k.spelling ++ " ") :
    Opens s [.fixed k] := by
  rw [hs, String.append_assoc, ofString_append]
  exact Opens.blank.opens (.spaced hk rfl)

theorem encode_toString (n : Nat) : (toString (n : Int) : Text).encode = digits n := by
  rw [←ofAscii_digits]
  exact encode_ofAscii fun _ => digits_ascii

theorem Spells.number {n : Nat} (h : n ≤ SyntaxError.maxLiteral) :
    Spells (toString (n : Int)) [.number (digits n)] := by
  exact .word (isNumeral_digits n) (by simp [Word.number]) (inRange_digits h) (encode_toString n)

-- A text that can be a name.
def isName (t : Text) : Bool :=
  t.isAscii && Kind.ident.allows t.encode

theorem Spells.ident (h : t.isName) : Spells t [.ident t.encode] := by
  simp only [isName, Bool.and_eq_true] at h
  exact .word h.right (by simp [Word.ident]) (.of_kind (by simp [Word.ident])) rfl

theorem Spells.of_eq (h : Spells t ws) (hw : ws = vs) : Spells t vs :=
  hw ▸ h

-- Something that may be left out.
theorem Spells.optional (h : Spells t ws) (h' : u = [] ∧ vs = [] ∨ Spells u vs ∧ u.closes) :
    Spells (t ++ u) (ws ++ vs) := by
  cases h'
  case inl h' => simpa [h'] using h
  case inr h' => exact h.append h'.left h'.right

theorem Spells.parenthesized (h : Spells t ws) :
    Spells t.parenthesized (.fixed .lparen :: (ws ++ [.fixed .rparen])) :=
  have opened := (Opens.fixed (k := .lparen) rfl fun _ => rfl).append h
  opened.append (.fixed (k := .rparen) rfl) (by decide)

theorem Spells.semicolon (h : Spells t ws) : Spells (t ++ (";" : Text)) (ws ++ [.fixed .semi]) :=
  h.append (.fixed (k := .semi) rfl) (by decide)

theorem Spells.brace (h : Spells t ws) : Spells (t ++ (" \x7d" : Text)) (ws ++ [.fixed .rbrace]) :=
  h.append (Opens.blank.append (.fixed (k := .rbrace) rfl)) (by decide)

-- A minus right before a text that does not make another token of it.
theorem Spells.minus (h : Spells t ws) (ht : Kind.minus.endsBefore t.encode) :
    Spells ("-" ++ t) (.fixed .minus :: ws) where
  scans {r} hr := by
    rw [encode_append, List.append_assoc]
    refine .word (w := .fixed .minus) rfl (by decide) ?_ (h.scans hr)
    cases hb : t.encode with
    | nil => exact hr .minus
    | cons b bs =>
      rw [hb, Kind.endsBefore_cons] at ht
      exact (Kind.endsBefore_cons ..).mpr ht
  range w hw := by
    cases hw with
    | head => exact (Spells.fixed (k := .minus) rfl).range _ (.head _)
    | tail _ hw => exact h.range w hw

end Text
end ExprLang
