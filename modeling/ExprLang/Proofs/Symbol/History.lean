import ExprLang.Proofs.Symbol.Interner

/-!
Interners over whole runs. An interner is what the texts that were presented to it make of it: those
that it accepted, each once and in the order of their first time, are its texts, and their places in
that order are their handles.
-/
namespace ExprLang.Interner

variable {i j : Interner} {history before later : List Text} {name name' : Text} {s s' : Symbol}
  {n m : Nat}

-- What a fresh interner has become after texts were presented to it one by one.
def after (history : List Text) : Interner :=
  history.foldl (fun i name => (i.intern name).snd) .empty

-- The texts without surrogates, each once and where it comes first.
def accepted (history : List Text) : List Text :=
  (history.filter Text.isEncodable).eraseDups

-- At some point of a history, a text was given a handle.
def Issued (history : List Text) (name : Text) (s : Symbol) : Prop :=
  ∃ before later j, history = before ++ name :: later ∧ (after before).intern name = (.ok s, j)

@[simp]
theorem after_concat (history : List Text) (name : Text) :
    after (history ++ [name]) = ((after history).intern name).snd := by
  simp [after]

theorem intern_of_not_isEncodable (i : Interner) (h : ¬name.isEncodable) :
    ∃ f, i.intern name = (.error f, i) := by
  rw [←Text.surrogatesFrom_eq_none_iff (i := 0)] at h
  have ⟨f, hf⟩ := Option.ne_none_iff_exists'.mp h
  exact ⟨f, intern_eq_error_iff.mpr ⟨hf, rfl⟩⟩

theorem intern_of_isEncodable (i : Interner) (h : name.isEncodable) :
    ∃ s, i.intern name = (.ok s, (i.intern name).snd) := by
  have hi := intern_eq_ok_iff.mpr ⟨h, (rfl : i.insert name = (_, _))⟩
  exact ⟨_, hi.trans (congrArg (_, ·.snd) hi.symm)⟩

theorem reachable_after (history : List Text) : (after history).Reachable := by
  induction history using List.reverseRecOn
  case nil => exact .empty
  case append_singleton history name hi => exact after_concat history name ▸ hi.intern name

theorem mem_accepted : name ∈ accepted history ↔ name ∈ history ∧ name.isEncodable := by
  rw [accepted, List.mem_eraseDups, List.mem_filter]

theorem accepted_append (before later : List Text) :
    accepted (before ++ later) = accepted before ++
      ((later.filter Text.isEncodable).removeAll (before.filter Text.isEncodable)).eraseDups := by
  rw [accepted, List.filter_append, List.eraseDups_append]
  rfl

theorem accepted_getElem?_append (later : List Text) (h : (accepted before)[n]? = some name) :
    (accepted (before ++ later))[n]? = some name := by
  rw [accepted_append, List.getElem?_append_left, h]
  exact (List.getElem?_eq_some_iff.mp h).choose

theorem accepted_concat_of_mem (h : name ∈ accepted history) :
    accepted (history ++ [name]) = accepted history := by
  have ⟨hm, he⟩ := mem_accepted.mp h
  simp [accepted_append, List.removeAll, hm, he]

theorem accepted_concat_of_new (he : name.isEncodable) (h : name ∉ accepted history) :
    accepted (history ++ [name]) = accepted history ++ [name] := by
  have hm : name ∉ history := fun hm => h (mem_accepted.mpr ⟨hm, he⟩)
  simp [accepted_append, List.removeAll, hm, he, List.eraseDups_cons]

theorem accepted_concat_of_not_isEncodable (h : ¬name.isEncodable) :
    accepted (history ++ [name]) = accepted history := by
  simp [accepted, h]

theorem nodup_accepted (history : List Text) : (accepted history).Nodup := by
  induction history using List.reverseRecOn
  case nil => exact .nil
  case append_singleton history name hi =>
    by_cases he : name.isEncodable
    case neg => rwa [accepted_concat_of_not_isEncodable he]
    by_cases hm : name ∈ accepted history
    case pos => rwa [accepted_concat_of_mem hm]
    case neg =>
      rw [accepted_concat_of_new he hm]
      exact .append hi (List.nodup_singleton name) (by simpa using hm)

-- By induction on the history: what the last text does depends on whether it is refused, known or
-- new.
theorem names_after (history : List Text) : (after history).names = accepted history := by
  induction history using List.reverseRecOn
  case nil => rfl
  case append_singleton history name hi =>
    rw [after_concat]
    by_cases he : name.isEncodable
    case neg =>
      have ⟨f, hf⟩ := (after history).intern_of_not_isEncodable he
      rw [hf, accepted_concat_of_not_isEncodable he, hi]
    have ⟨s, hs⟩ := (after history).intern_of_isEncodable he
    cases insert_cases (intern_eq_ok_iff.mp hs).right
    case inl h =>
      have ⟨n, hn, _, hp⟩ := h
      have hm := hi ▸ List.mem_of_getElem? hn
      rw [hp, accepted_concat_of_mem hm, hi]
    case inr h =>
      have ⟨hm, _, hp⟩ := h
      rw [hi] at hm
      rw [hp, names_store, accepted_concat_of_new he hm, hi]

theorem handle_inj (h : handle n = handle m) : n = m := by
  simpa [handle] using h

-- A text has one place among the accepted ones.
theorem accepted_getElem?_inj (h : (accepted history)[n]? = some name)
    (h' : (accepted history)[m]? = some name) : n = m := by
  have hn := (List.getElem?_eq_some_iff.mp h).choose
  exact (List.getElem?_inj hn (nodup_accepted history)).mp (h.trans h'.symm)

theorem intern_known (h : (accepted history)[n]? = some name) :
    (after history).intern name = (.ok (handle n), after history) := by
  have ⟨_, he⟩ := mem_accepted.mp (List.mem_of_getElem? h)
  have ⟨s, hs⟩ := (after history).intern_of_isEncodable he
  have hc := insert_cases (intern_eq_ok_iff.mp hs).right
  rw [names_after] at hc
  cases hc
  case inl hc =>
    have ⟨m, hm, hh, hp⟩ := hc
    rw [hs, hh, hp, accepted_getElem?_inj h hm]
  case inr hc => exact absurd (List.mem_of_getElem? h) hc.left

theorem intern_new (he : name.isEncodable) (h : name ∉ accepted history) :
    (after history).intern name =
      (.ok (handle (accepted history).length), after (history ++ [name])) := by
  have ⟨s, hs⟩ := (after history).intern_of_isEncodable he
  have hc := insert_cases (intern_eq_ok_iff.mp hs).right
  rw [names_after] at hc
  cases hc
  case inl hc =>
    have ⟨m, hm, _⟩ := hc
    exact absurd (List.mem_of_getElem? hm) h
  case inr hc => rw [hs, hc.right.left, after_concat]

theorem size_after (history : List Text) : (after history).size = (accepted history).length := by
  rw [←names_after]
  exact (reachable_after history).valid.length_eq

theorem lookup?_accepted (h : (accepted history)[n]? = some name) :
    (after history).lookup? (handle n) = some name := by
  have ⟨_, he⟩ := mem_accepted.mp (List.mem_of_getElem? h)
  rw [←names_after] at h
  apply lookup?_of_issued?
  exact issued?_handle_encodable (reachable_after history).valid h he

-- The handle that a text is given is its place among the accepted texts from then on.
theorem intern_after (h : (after before).intern name = (.ok s, j)) :
    ∃ n, (accepted (before ++ [name]))[n]? = some name ∧ s = handle n := by
  have he := (intern_eq_ok_iff.mp h).left
  by_cases hm : name ∈ accepted before
  case pos =>
    have ⟨n, hn⟩ := List.mem_iff_getElem?.mp hm
    rw [intern_known hn] at h
    cases h
    exact ⟨n, (accepted_concat_of_mem hm).symm ▸ hn, rfl⟩
  case neg =>
    rw [intern_new he hm] at h
    cases h
    refine ⟨_, ?_, rfl⟩
    rw [accepted_concat_of_new he hm, List.getElem?_concat_length]

theorem Issued.place (h : Issued history name s) :
    ∃ n, (accepted history)[n]? = some name ∧ s = handle n := by
  have ⟨before, later, j, hh, hi⟩ := h
  have ⟨n, hn, hs⟩ := intern_after hi
  rw [List.append_cons] at hh
  exact ⟨n, hh ▸ accepted_getElem?_append later hn, hs⟩

theorem issued_accepted (h : (accepted history)[n]? = some name) : Issued history name (handle n) := by
  have ⟨hm, he⟩ := mem_accepted.mp (List.mem_of_getElem? h)
  have ⟨before, later, hh⟩ := List.append_of_mem hm
  have ⟨s, hs⟩ := (after before).intern_of_isEncodable he
  have hi : Issued history name s := ⟨before, later, _, hh, hs⟩
  have ⟨m, hm, hp⟩ := hi.place
  rw [accepted_getElem?_inj h hm, ←hp]
  exact hi

-- What can be said of an interner to which the texts of a history were presented.
structure Records (i : Interner) (history : List Text) : Prop where
  size : i.size = (accepted history).length
  -- The handles count the accepted texts, and one stands for the text that it was given to.
  place {name : Text} {s : Symbol} : Issued history name s ↔
    ∃ n, (accepted history)[n]? = some name ∧ s = handle n
  lookup {name : Text} {s : Symbol} : Issued history name s → i.lookup? s = some name
  inj {name name' : Text} {s s' : Symbol} : Issued history name s → Issued history name' s' →
    (s = s' ↔ name = name')
  -- A text that comes next is known, new or refused.
  known {name : Text} {n : Nat} : (accepted history)[n]? = some name →
    i.intern name = (.ok (handle n), i)
  new {name : Text} : name.isEncodable → name ∉ accepted history →
    i.intern name = (.ok (handle (accepted history).length), after (history ++ [name]))
  refused {name : Text} : ¬name.isEncodable → ∃ f, i.intern name = (.error f, i)

-- Whatever is presented to a fresh interner, and however often its buffer is replaced meanwhile.
theorem records_after (history : List Text) : (after history).Records history where
  size := size_after history
  known := intern_known
  new := intern_new
  place := by
    refine ⟨Issued.place, fun ⟨n, hn, hs⟩ => ?_⟩
    exact hs ▸ issued_accepted hn
  lookup h := by
    have ⟨n, hn, hs⟩ := h.place
    exact hs ▸ lookup?_accepted hn
  inj h h' := by
    have ⟨n, hn, hs⟩ := h.place
    have ⟨m, hm, hs'⟩ := h'.place
    rw [hs, hs']
    constructor
    case mp =>
      intro he
      rw [handle_inj he, hm] at hn
      exact (Option.some.inj hn).symm
    case mpr =>
      intro he
      rw [accepted_getElem?_inj hn (he ▸ hm)]
  refused := (after history).intern_of_not_isEncodable

end ExprLang.Interner
