import ExprLang.Proofs.Symbol.Growth

/-!
The buffers behind an interner. They get larger and larger, each with room for the text that it was made
for, and the one in use holds the bytes of the texts that were stored since.
-/
namespace ExprLang

-- No power of two in between is left out.
theorem isLeast_nextPowerOfTwo (n : Nat) :
    IsLeast {c | c.isPowerOfTwo ∧ n ≤ c} (nextPowerOfTwo n) := by
  refine ⟨⟨?_, le_nextPowerOfTwo n⟩, fun c ⟨⟨l, hl⟩, hn⟩ => ?_⟩
  all_goals simp only [nextPowerOfTwo]; split
  · exact ⟨0, rfl⟩
  · exact ⟨_, rfl⟩
  · exact hl ▸ Nat.one_le_two_pow
  · subst hl
    refine Nat.pow_le_pow_right Nat.two_pos ?_
    have hm : (n - 1 : Int).toNat < 2 ^ l := by omega
    exact (Nat.log2_lt (by omega)).mpr hm

namespace Interner

-- The capacities of all buffers, the one in use being the last.
def sizes (i : Interner) : List Nat :=
  (i.archive ++ [i.current]).map (·.capacity)

-- The number of bytes that texts take.
def bytes (texts : List Text) : Nat :=
  (texts.map fun t => t.encode.length).sum

-- An interner whose buffer had no room for `n` bytes, and the one with a new buffer that holds them.
structure Replaced (i : Interner) (n : Nat) (j : Interner) : Prop where
  archive : j.archive = i.archive ++ [i.current]
  capacity : IsLeast {c | c.isPowerOfTwo ∧ max i.capacity n + 1 ≤ c} j.capacity
  used : j.used = n

-- A new text without surrogates for which the buffer has no room left.
structure Outgrows (history : List Text) (name : Text) : Prop where
  isEncodable : name.isEncodable
  new : name ∉ accepted history
  noRoom : (after history).capacity < (after history).used + name.encode.length

-- Where a history falls apart at the last replacement of the buffer: what comes later begins with the
-- text that the buffer in use was made for. If there was no replacement, all comes later.
inductive LastReplaced : (before later : List Text) → Prop
  | never (h : (after history).archive = []) : LastReplaced [] history
  | outgrown (h : Outgrows before name)
      (hl : (after (before ++ name :: rest)).archive = (after (before ++ [name])).archive) :
    LastReplaced before (name :: rest)

-- How the buffers of an interner are after the texts of a history, and what becomes of them with the next
-- text.
structure Stores (i : Interner) (history : List Text) : Prop where
  capacity : i.capacity = 0 ∨ i.capacity.isPowerOfTwo
  used_le : i.used ≤ i.capacity
  used_eq : ∃ before later, history = before ++ later ∧ LastReplaced before later ∧
    i.used = bytes ((accepted history).drop (accepted before).length)
  sizes : i.sizes.head? = some 0 ∧ i.sizes.Pairwise (· < ·)
  replaced_iff {name : Text} : (i.intern name).snd.archive ≠ i.archive ↔ Outgrows history name
  replaced {name : Text} : Outgrows history name →
    Replaced i name.encode.length (i.intern name).snd ∧
      name.encode.length ≤ (i.intern name).snd.capacity

variable {i j : Interner} {n : Nat} {history before later : List Text} {name : Text}

section

variable (i name)

theorem archive_store : (i.store name).archive = (i.reserve name.encode.length).archive :=
  rfl

theorem capacity_store : (i.store name).capacity = (i.reserve name.encode.length).capacity :=
  rfl

theorem used_store :
    (i.store name).used = (i.reserve name.encode.length).used + name.encode.length :=
  Buffer.used_write _ _ (i.reserve_room _)

theorem used_le_capacity : i.used ≤ i.capacity :=
  i.current.fits

end

theorem reserve_of_room (h : i.used + n ≤ i.capacity) : i.reserve n = i :=
  if_pos h

theorem replaced_reserve (h : i.capacity < i.used + n) :
    (i.reserve n).archive = i.archive ++ [i.current] ∧
      (i.reserve n).capacity = nextPowerOfTwo (max i.capacity n + 1 : Nat) ∧ (i.reserve n).used = 0 := by
  rw [reserve, if_neg (Nat.not_le_of_lt h)]
  exact ⟨rfl, rfl, rfl⟩

theorem replaced_store (h : i.capacity < i.used + name.encode.length) :
    Replaced i name.encode.length (i.store name) := by
  have ⟨ha, hc, hu⟩ := replaced_reserve h
  refine ⟨i.archive_store name ▸ ha, ?_, ?_⟩
  · rw [capacity_store, hc]
    exact isLeast_nextPowerOfTwo _
  · rw [used_store, hu, Nat.zero_add]

namespace Replaced

variable (h : Replaced i n j)
include h

theorem lt_capacity : max i.capacity n < j.capacity :=
  h.capacity.left.right

theorem sizes_eq : j.sizes = i.sizes ++ [j.capacity] := by
  rw [Interner.sizes, Interner.sizes, h.archive, List.map_append]
  rfl

theorem archive_ne : j.archive ≠ i.archive := by
  simp [h.archive]

end Replaced

-- Just the new texts without surrogates are stored.
theorem after_concat_of_stored (he : name.isEncodable) (hn : name ∉ accepted history) :
    after (history ++ [name]) = (after history).store name := by
  have ⟨s, hs⟩ := (after history).intern_of_isEncodable he
  rw [after_concat]
  cases insert_cases (intern_eq_ok_iff.mp hs).right
  case inl h =>
    have ⟨m, hm, _⟩ := h
    exact absurd (names_after history ▸ List.mem_of_getElem? hm) hn
  case inr h => exact h.right.right

theorem after_concat_of_not_stored (h : ¬(name.isEncodable ∧ name ∉ accepted history)) :
    after (history ++ [name]) = after history ∧ accepted (history ++ [name]) = accepted history := by
  rw [after_concat]
  by_cases he : name.isEncodable
  case neg =>
    have ⟨f, hf⟩ := (after history).intern_of_not_isEncodable he
    exact ⟨congrArg Prod.snd hf, accepted_concat_of_not_isEncodable he⟩
  case pos =>
    have hm : name ∈ accepted history := by simpa [he] using h
    have ⟨n, hn⟩ := List.mem_iff_getElem?.mp hm
    exact ⟨congrArg Prod.snd (intern_known hn), accepted_concat_of_mem hm⟩

theorem Outgrows.replaced (h : Outgrows history name) :
    Replaced (after history) name.encode.length (after (history ++ [name])) :=
  after_concat_of_stored h.isEncodable h.new ▸ replaced_store h.noRoom

-- The texts that come next, by what they do to the buffers.
theorem concat_cases (history : List Text) (name : Text) :
    (after (history ++ [name]) = after history ∧ accepted (history ++ [name]) = accepted history ∧
      ¬Outgrows history name) ∨
    (Outgrows history name ∧ accepted (history ++ [name]) = accepted history ++ [name]) ∨
    ((after (history ++ [name])).archive = (after history).archive ∧
      (after (history ++ [name])).capacity = (after history).capacity ∧
      (after (history ++ [name])).used = (after history).used + name.encode.length ∧
      accepted (history ++ [name]) = accepted history ++ [name] ∧ ¬Outgrows history name) := by
  by_cases hs : name.isEncodable ∧ name ∉ accepted history
  case neg =>
    have ⟨hi, ha⟩ := after_concat_of_not_stored hs
    exact .inl ⟨hi, ha, fun h => hs ⟨h.isEncodable, h.new⟩⟩
  case pos =>
    have ⟨he, hn⟩ := hs
    have ha := accepted_concat_of_new he hn
    by_cases hr : (after history).used + name.encode.length ≤ (after history).capacity
    case neg => exact .inr (.inl ⟨⟨he, hn, Nat.lt_of_not_le hr⟩, ha⟩)
    case pos =>
      rw [after_concat_of_stored he hn, archive_store, capacity_store, used_store, reserve_of_room hr]
      exact .inr (.inr ⟨rfl, rfl, rfl, ha, fun h => Nat.not_le_of_lt h.noRoom hr⟩)

theorem LastReplaced.concat (h : LastReplaced before later)
    (hk : (after (before ++ later ++ [name])).archive = (after (before ++ later)).archive) :
    LastReplaced before (later ++ [name]) := by
  cases h with
  | never h => exact .never (hk.trans h)
  | outgrown h hl =>
    rw [List.append_assoc] at hk
    exact .outgrown h (hk.trans hl)

theorem bytes_append (texts texts' : List Text) : bytes (texts ++ texts') = bytes texts + bytes texts' := by
  simp [bytes]

theorem length_accepted_le (before later : List Text) :
    (accepted before).length ≤ (accepted (before ++ later)).length := by
  rw [accepted_append, List.length_append]
  exact Nat.le_add_right _ _

-- By induction on the history: the last text is not stored, takes room of the buffer in use or gets a new
-- one.
theorem used_after (history : List Text) : ∃ before later, history = before ++ later ∧
    LastReplaced before later ∧
    (after history).used = bytes ((accepted history).drop (accepted before).length) := by
  induction history using List.reverseRecOn
  case nil => exact ⟨[], [], rfl, .never rfl, rfl⟩
  case append_singleton history name ih =>
    have ⟨before, later, hh, hl, hu⟩ := ih
    have hle : (accepted before).length ≤ (accepted history).length :=
      hh ▸ length_accepted_le before later
    have further (hk : (after (history ++ [name])).archive = (after history).archive) :
        history ++ [name] = before ++ (later ++ [name]) ∧ LastReplaced before (later ++ [name]) := by
      subst hh
      exact ⟨List.append_assoc .., hl.concat hk⟩
    obtain ⟨hi, ha, _⟩ | ⟨ho, ha⟩ | ⟨hk, _, hn, ha, _⟩ := concat_cases history name
    · have ⟨hf, hl⟩ := further (congrArg archive hi)
      exact ⟨before, _, hf, hl, by rw [hi, ha, hu]⟩
    · refine ⟨history, [name], rfl, .outgrown ho rfl, ?_⟩
      rw [ho.replaced.used, ha, List.drop_left]
      simp [bytes]
    · have ⟨hf, hl⟩ := further hk
      refine ⟨before, _, hf, hl, ?_⟩
      rw [hn, ha, List.drop_append_of_le_length hle, bytes_append, hu]
      simp [bytes]

theorem capacity_after (history : List Text) :
    (after history).capacity = 0 ∨ (after history).capacity.isPowerOfTwo := by
  induction history using List.reverseRecOn
  case nil => exact .inl rfl
  case append_singleton history name ih =>
    obtain ⟨hi, _⟩ | ⟨ho, _⟩ | ⟨_, hc, _⟩ := concat_cases history name
    · exact hi ▸ ih
    · exact .inr ho.replaced.capacity.left.left
    · exact hc ▸ ih

theorem sizes_eq_of_kept (ha : j.archive = i.archive) (hc : j.capacity = i.capacity) :
    j.sizes = i.sizes := by
  have hc : j.current.capacity = i.current.capacity := hc
  simp [sizes, ha, hc]

theorem sizes_eq (i : Interner) : i.sizes = i.archive.map (·.capacity) ++ [i.capacity] :=
  List.map_append

-- The buffer in use is the largest one.
theorem le_capacity_of_mem_sizes (h : i.sizes.Pairwise (· < ·)) : ∀ c ∈ i.sizes, c ≤ i.capacity := by
  rw [sizes_eq] at h ⊢
  have hlt := (List.pairwise_append.mp h).right.right
  intro c hc
  cases List.mem_append.mp hc with
  | inl hc => exact (hlt c hc _ (.head _)).le
  | inr hc => exact (List.mem_singleton.mp hc).le

theorem sizes_after (history : List Text) :
    (after history).sizes.head? = some 0 ∧ (after history).sizes.Pairwise (· < ·) := by
  induction history using List.reverseRecOn
  case nil => exact ⟨rfl, List.pairwise_singleton ..⟩
  case append_singleton history name ih =>
    obtain ⟨hi, _⟩ | ⟨ho, _⟩ | ⟨ha, hc, _⟩ := concat_cases history name
    · exact hi ▸ ih
    · have hm := le_capacity_of_mem_sizes ih.right
      have hlt := ho.replaced.lt_capacity
      rw [ho.replaced.sizes_eq, List.head?_append, ih.left, List.pairwise_append]
      refine ⟨rfl, ih.right, List.pairwise_singleton .., fun c hc d hd => ?_⟩
      have := hm c hc
      rw [List.mem_singleton.mp hd]
      omega
    · exact sizes_eq_of_kept ha hc ▸ ih

theorem archive_ne_iff (history : List Text) (name : Text) :
    (after (history ++ [name])).archive ≠ (after history).archive ↔ Outgrows history name := by
  obtain ⟨hi, _, hn⟩ | ⟨ho, _⟩ | ⟨ha, _, _, _, hn⟩ := concat_cases history name
  · exact iff_of_false (fun h => h (congrArg archive hi)) hn
  · exact iff_of_true ho.replaced.archive_ne ho
  · exact iff_of_false (fun h => h ha) hn

-- Whatever was presented to a fresh interner, texts that were refused or known included.
theorem stores_after (history : List Text) : (after history).Stores history where
  capacity := capacity_after history
  used_le := (after history).used_le_capacity
  used_eq := used_after history
  sizes := sizes_after history
  replaced_iff {name} := after_concat history name ▸ archive_ne_iff history name
  replaced {name} ho := by
    rw [←after_concat]
    have hlt := ho.replaced.lt_capacity
    exact ⟨ho.replaced, by omega⟩

-- A text that fills the buffer to its end does not outgrow it.
example : (after ["abc", "d"]).sizes = [0, 4] ∧ (after ["abc", "d", "e"]).sizes = [0, 4, 8] := by
  constructor <;> cbv

end Interner
end ExprLang
