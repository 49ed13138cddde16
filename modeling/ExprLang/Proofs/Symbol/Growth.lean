import ExprLang.Proofs.Symbol.History

/-!
Interners that are shared. Whatever is presented to an interner that is in use, it only grows: the
texts that it has keep their handles, and those that are new to it follow in the order of their first
time.
-/
namespace ExprLang.Interner

variable {i j : Interner} {names names' history : List Text} {name : Text} {s s' : Symbol}

-- What an interner becomes as more texts are presented to it one by one.
def present (i : Interner) (names : List Text) : Interner :=
  names.foldl (fun i name => (i.intern name).snd) i

theorem present_append (i : Interner) (names names' : List Text) :
    i.present (names ++ names') = (i.present names).present names' :=
  List.foldl_append

theorem present_singleton (i : Interner) (name : Text) : i.present [name] = (i.intern name).snd :=
  rfl

theorem after_append (history names : List Text) :
    after (history ++ names) = (after history).present names :=
  List.foldl_append

theorem Reachable.present (hi : i.Reachable) (names : List Text) : (i.present names).Reachable := by
  induction names generalizing i
  case nil => exact hi
  case cons name names ih => exact ih (hi.intern name)

-- Every interner that can come about has a history.
theorem Reachable.exists_history (hi : i.Reachable) : ∃ history, i = after history := by
  induction hi
  case empty => exists []
  case intern name _ ih =>
    have ⟨history, hh⟩ := ih
    exists history ++ [name]
    rw [after_concat, hh]

theorem Valid.extends_intern (hi : i.Valid) (name : Text) : i.Extends (i.intern name).snd := by
  cases h : i.intern name with
  | mk x j =>
    cases x with
    | ok s => exact hi.extends_insert (intern_eq_ok_iff.mp h).right
    | error f => exact (intern_eq_error_iff.mp h).right ▸ .refl i

theorem Reachable.extends_present (hi : i.Reachable) (names : List Text) :
    i.Extends (i.present names) := by
  induction names generalizing i
  case nil => exact .refl i
  case cons name names ih => exact (hi.valid.extends_intern name).trans (ih (hi.intern name))

theorem lookup?_after (history : List Text) (n : Nat) :
    (after history).lookup? ⟨n⟩ = (accepted history)[n]? := by
  cases h : (accepted history)[n]? with
  | some name => exact lookup?_accepted h
  | none =>
    have hn : (after history).slices.length ≤ n := by
      have hs := size_after history
      have hl := List.getElem?_eq_none_iff.mp h
      rwa [←hs] at hl
    have h₀ : ¬((n : Int) < 0) := by omega
    simp [lookup?, guard, h₀, List.getElem?_eq_none hn]

-- Every handle that was given out has a text.
theorem Reachable.exists_issued? (hi : i.Reachable) (h : i.contains s) :
    ∃ name, i.issued? s = some name := by
  have ⟨history, hh⟩ := hi.exists_history
  subst hh
  obtain ⟨id⟩ := s
  simp only [contains, Bool.and_eq_true, decide_eq_true_eq, size_after] at h
  have hn : id.toNat < (accepted history).length := by omega
  have hs : (⟨id⟩ : Symbol) = ⟨id.toNat⟩ := by
    rw [Symbol.mk.injEq]
    omega
  refine ⟨(accepted history)[id.toNat], issued?_eq_some_iff.mpr ⟨?_, ?_⟩⟩
  · simp [contains, size_after, h]
  · rw [hs, lookup?_after, List.getElem?_eq_getElem hn]

-- The texts of an interner are those that it accepted.
theorem texts_after (history : List Text) : (after history).texts = accepted history := by
  have hl : (List.range (accepted history).length).map ((accepted history)[·]?) =
      (accepted history).map some :=
    List.ext_getElem (by simp) (by simp)
  calc (after history).texts
    _ = (List.range (accepted history).length).filterMap ((accepted history)[·]?) := by
      simp only [texts, lookup?_after, size_after]
    _ = ((List.range (accepted history).length).map ((accepted history)[·]?)).filterMap id := by
      rw [List.filterMap_map]
      rfl
    _ = accepted history := by
      rw [hl]
      simp

-- What is new of the texts that are presented follows behind those that an interner has.
theorem texts_present (hi : i.Reachable) (hn : ∀ name ∈ names, name.isEncodable) :
    (i.present names).texts = i.texts ++ (names.filter (· ∉ i.texts)).eraseDups := by
  have ⟨history, hh⟩ := hi.exists_history
  subst hh
  have hf : names.filter Text.isEncodable = names := List.filter_eq_self.mpr hn
  rw [←after_append, texts_after, texts_after, accepted_append, hf, List.removeAll]
  congr 2
  apply List.filter_congr
  intro name hm
  simp [mem_accepted, hn name hm]

-- A text has one handle at most.
theorem Reachable.issued?_inj (hi : i.Reachable) (h : i.issued? s = some name)
    (h' : i.issued? s' = some name) : s = s' := by
  have ⟨history, hh⟩ := hi.exists_history
  subst hh
  have place {s : Symbol} (h : (after history).issued? s = some name) :
      ∃ n, s = handle n ∧ (accepted history)[n]? = some name := by
    have ⟨n, _, hs, _⟩ := exists_handle_of_issued? hi.valid h
    subst hs
    exact ⟨n, rfl, (lookup?_after history n).symm.trans (lookup?_of_issued? _ h)⟩
  have ⟨n, hs, hn⟩ := place h
  have ⟨m, hs', hm⟩ := place h'
  rw [hs, hs', accepted_getElem?_inj hn hm]

end ExprLang.Interner
