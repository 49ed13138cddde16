import ExprLang.Proofs.Text.Utf8
import ExprLang.Symbol.Interner

/-!
The interner as a table that only grows: handles that were given out keep their texts, and a text
that was inserted is found behind its handle.
-/
namespace ExprLang

theorem Buffer.slice_write {b : Buffer} {data bs : Bytes} {start n : Nat}
    (h : b.used + data.length ≤ b.capacity) (hs : b.slice start n = bs) (hn : n = bs.length) :
    (b.write data h).slice start n = bs := by
  subst hs
  simp only [Buffer.slice, Buffer.write, Array.toList_extract, List.extract_eq_take_drop,
    List.length_take, List.length_drop, Array.toList_append] at hn ⊢
  rw [List.drop_append, List.take_append_of_le_length]
  rw [List.length_drop]
  omega

namespace Interner

-- The text behind a handle that was given out.
def issued? (i : Interner) (s : Symbol) : Option Text :=
  if i.contains s then i.lookup? s else none

theorem issued?_eq_some_iff {i : Interner} {s : Symbol} {t : Text} :
    i.issued? s = some t ↔ i.contains s ∧ i.lookup? s = some t := by
  simp [issued?]

theorem lookup?_of_issued? (i : Interner) ⦃s : Symbol⦄ ⦃t : Text⦄ (h : i.issued? s = some t) :
    i.lookup? s = some t :=
  (issued?_eq_some_iff.mp h).right

-- The bytes of every text are where its slice says.
structure Valid (i : Interner) : Prop where
  length_eq : i.slices.length = i.names.length
  stored {n : Nat} {name : Text} : i.names[n]? = some name →
    ∃ s, i.slices[n]? = some s ∧ s.length = name.encode.length ∧ i.bytes? s = some name.encode

-- No handle loses its text.
def Extends (i j : Interner) : Prop :=
  ∀ ⦃s t⦄, i.issued? s = some t → j.issued? s = some t

namespace Extends

theorem refl (i : Interner) : i.Extends i :=
  fun _ _ h => h

theorem trans {i j k : Interner} (h₁ : i.Extends j) (h₂ : j.Extends k) : i.Extends k :=
  fun _ _ h => h₂ (h₁ h)

end Extends

-- The handle with a number.
def handle (n : Nat) : Symbol where
  id := n

theorem issued?_handle {i : Interner} (hi : i.Valid) {n : Nat} {name : Text}
    (hn : i.names[n]? = some name) :
    i.issued? (handle n) = (Utf8.decode .refused name.encode).toOption := by
  have ⟨s, hs, _, hb⟩ := hi.stored hn
  have hlt : n < i.size := List.getElem?_eq_some_iff.mp hs |>.choose
  have h₀ : ¬((n : Int) < 0) := by omega
  simp [issued?, handle, contains, lookup?, guard, hlt, h₀, hs, hb]

theorem issued?_handle_encodable {i : Interner} (hi : i.Valid) {n : Nat} {name : Text}
    (hn : i.names[n]? = some name) (he : name.isEncodable) : i.issued? (handle n) = some name := by
  rw [issued?_handle hi hn, Text.decode_encode_strict he]
  rfl

theorem exists_handle_of_issued? {i : Interner} (hi : i.Valid) {s : Symbol} {t : Text}
    (h : i.issued? s = some t) : ∃ n name, s = handle n ∧ i.names[n]? = some name := by
  obtain ⟨id⟩ := s
  have hc := (issued?_eq_some_iff.mp h).left
  simp only [contains, Bool.and_eq_true, decide_eq_true_eq, size, hi.length_eq] at hc
  have hlt : id.toNat < i.names.length := by omega
  refine ⟨id.toNat, i.names[id.toNat], ?_, List.getElem?_eq_getElem hlt⟩
  simp only [handle, Symbol.mk.injEq]
  omega

theorem buffer?_reserve {i : Interner} {k : Nat} {b : Buffer} (n : Nat) (h : i.buffer? k = some b) :
    (i.reserve n).buffer? k = some b := by
  simp only [reserve]
  split
  · exact h
  · have hk := List.getElem?_eq_some_iff.mp h |>.choose
    simp only [buffer?] at h ⊢
    rw [List.getElem?_append_left hk, h]

-- Bytes that are found stay where they are when more are written.
theorem bytes?_store {i : Interner} {s : Slice} {bs : Bytes} (name : Text)
    (h : i.bytes? s = some bs) (hl : s.length = bs.length) :
    (i.store name).bytes? s = some bs := by
  simp only [bytes?, Option.map_eq_some_iff] at h
  have ⟨b, hb, hs⟩ := h
  have hr := buffer?_reserve name.encode.length hb
  simp only [bytes?, buffer?, store] at hr ⊢
  rw [List.getElem?_append] at hr ⊢
  split
  case isTrue hk =>
    rw [if_pos hk] at hr
    simp [hr, hs]
  case isFalse hk =>
    rw [if_neg hk, List.getElem?_singleton] at hr
    rw [List.getElem?_singleton]
    split at hr
    case isFalse => contradiction
    case isTrue hz =>
      cases hr
      simpa [hz] using Buffer.slice_write (i.reserve_room _) hs hl

theorem names_getElem?_store {i : Interner} {n : Nat} {name : Text} (new : Text)
    (h : i.names[n]? = some name) : (i.store new).names[n]? = some name := by
  rw [names_store, List.getElem?_append_left (List.getElem?_eq_some_iff.mp h).choose, h]

theorem Valid.empty : Valid .empty where
  length_eq := rfl
  stored h := by simp [Interner.empty] at h

theorem Valid.store {i : Interner} (h : i.Valid) (name : Text) : (i.store name).Valid where
  length_eq := by simp [Interner.store, h.length_eq]
  stored {n text} hn := by
    rw [names_store, List.getElem?_append] at hn
    split at hn
    case isTrue hlt =>
      obtain ⟨s, hs, hl, hb⟩ := h.stored hn
      refine ⟨s, ?_, hl, bytes?_store name hb hl⟩
      simp only [Interner.store, slices_reserve]
      rw [List.getElem?_append_left (h.length_eq ▸ hlt), hs]
    case isFalse hge =>
      rw [List.getElem?_singleton] at hn
      split at hn
      case isFalse => contradiction
      case isTrue hz =>
        cases hn
        have hn : n = i.slices.length := by have := h.length_eq; omega
        let r := i.reserve name.encode.length
        refine ⟨⟨r.archive.length, r.used, name.encode.length⟩, ?_, rfl, ?_⟩
        · simp [Interner.store, hn, r]
        · simp [bytes?, buffer?, Interner.store, Buffer.slice, Buffer.write, used, Buffer.used, r]

theorem Valid.extends_store {i : Interner} (h : i.Valid) (name : Text) :
    i.Extends (i.store name) := by
  intro s t hs
  have ⟨n, old, hn, ho⟩ := exists_handle_of_issued? h hs
  rw [hn, issued?_handle h ho] at hs
  rw [hn, issued?_handle (h.store name) (names_getElem?_store name ho), hs]

section

variable {i j : Interner} {name : Text} {s : Symbol}

theorem insert_cases (h : i.insert name = (s, j)) :
    (∃ n, i.names[n]? = some name ∧ s = handle n ∧ j = i) ∨
    (name ∉ i.names ∧ s = handle i.names.length ∧ j = i.store name) := by
  simp only [Interner.insert] at h
  split at h
  case h_1 n hn =>
    cases h
    have ⟨hlt, hname, _⟩ := List.findIdx?_eq_some_iff_getElem.mp hn
    exact .inl ⟨n, List.getElem?_eq_some_iff.mpr ⟨hlt, eq_of_beq hname⟩, rfl, rfl⟩
  case h_2 hn =>
    cases h
    exact .inr ⟨List.idxOf?_eq_none_iff.mp hn, rfl, rfl⟩

theorem Valid.insert (hi : i.Valid) (h : i.insert name = (s, j)) : j.Valid := by
  obtain ⟨n, -, -, rfl⟩ | ⟨-, -, rfl⟩ := insert_cases h
  · exact hi
  · exact hi.store name

theorem Valid.extends_insert (hi : i.Valid) (h : i.insert name = (s, j)) : i.Extends j := by
  obtain ⟨n, -, -, rfl⟩ | ⟨-, -, rfl⟩ := insert_cases h
  · exact .refl _
  · exact hi.extends_store name

-- A text is found behind the handle that it was given.
theorem Valid.issued?_insert (hi : i.Valid) (h : i.insert name = (s, j)) (he : name.isEncodable) :
    j.issued? s = some name := by
  have hj := hi.insert h
  obtain ⟨n, hn, rfl, rfl⟩ | ⟨-, rfl, rfl⟩ := insert_cases h
  · exact issued?_handle_encodable hj hn he
  · exact issued?_handle_encodable hj (by simp) he

-- Just the texts without surrogates are accepted.
theorem intern_eq_ok_iff :
    i.intern name = (.ok s, j) ↔ name.isEncodable ∧ i.insert name = (s, j) := by
  rw [←Text.surrogatesFrom_eq_none_iff (i := 0)]
  simp only [Interner.intern]
  cases name.surrogatesFrom 0 <;> simp [Prod.ext_iff]

-- A text that is refused changes nothing.
theorem intern_eq_error_iff {f : EncodeFault} :
    i.intern name = (.error f, j) ↔ name.surrogatesFrom 0 = some f ∧ i = j := by
  simp only [Interner.intern]
  cases name.surrogatesFrom 0 <;> simp

end

-- The interners that can come about.
inductive Reachable : Interner → Prop
  | empty : Reachable .empty
  | intern (name : Text) (hi : Reachable i) : Reachable (i.intern name).snd

theorem Reachable.valid {i : Interner} (h : i.Reachable) : i.Valid := by
  induction h with
  | empty => exact .empty
  | @intern i name _ ih =>
    cases h : i.intern name with
    | mk r j =>
      cases r with
      | ok s => exact ih.insert (intern_eq_ok_iff.mp h).right
      | error f => exact (intern_eq_error_iff.mp h).right ▸ ih

end Interner
end ExprLang
