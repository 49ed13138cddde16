import ExprLang.Proofs.Grammar.Derivation

/-!
The grammar is unambiguous: words have at most one outline. Since derivations are also compared when
different words follow them, no word of one can belong to what follows the other.
-/
namespace ExprLang.Grammar

open Word Outline

theorem Annotation.unique (h : Annotation ts a) (h' : Annotation ts' a')
    (hw : ts ++ r = ts' ++ r') (hr : ∀ w ∈ r.head?, w.kind ≠ .colon)
    (hr' : ∀ w ∈ r'.head?, w.kind ≠ .colon) : a = a' ∧ r = r' := by
  cases h <;> cases h'
  case none.none => exact ⟨rfl, hw⟩
  case none.some =>
    cases hw
    exact absurd rfl (hr _ rfl)
  case some.none =>
    cases hw
    exact absurd rfl (hr' _ rfl)
  case some.some =>
    cases hw
    exact ⟨rfl, rfl⟩

mutual

theorem Derives.unique : Derives c ws e → Derives c ws' e' →
    ws ++ r = ws' ++ r' → Stops c r → Stops c r' → e = e' ∧ r = r'
  | .cond hc ht he, .cond hc' ht' he', hw, _, _ => by
    simp only [List.cons_append, List.append_assoc, List.cons.injEq, true_and] at hw
    have ⟨h₁, hw⟩ := hc.unique hc' hw (.close (by decide)) (.close (by decide))
    simp only [List.cons.injEq, true_and] at hw
    have ⟨h₂, hw⟩ := ht.unique ht' hw (.close (by decide)) (.close (by decide))
    simp only [List.cons.injEq, true_and] at hw
    have ⟨h₃, hw⟩ := he.unique he' hw (.close (by decide)) (.close (by decide))
    simp only [List.nil_append, List.cons.injEq, true_and] at hw
    exact ⟨by rw [h₁, h₂, h₃], hw⟩
  | .cond .., .equality h', hw, _, _ => by
    have := h'.head_mem hw
    contradiction
  | .equality h, .cond .., hw, _, _ => by
    have := h.head_mem hw.symm
    contradiction
  | .equality h, .equality h', hw, hr, hr' => h.unique h' hw (hr.tier _) (hr'.tier _)
  | .chain h hl, .chain h' hl', hw, hr, hr' => by
    simp only [List.append_assoc] at hw
    have ⟨h₁, hw⟩ := h.unique h' hw (hl.stops hr) (hl'.stops hr')
    subst h₁
    exact hl.unique hl' hw hr hr'
  | .neg h, .neg h', hw, _, _ => by
    simp only [List.cons_append, List.cons.injEq, true_and] at hw
    have ⟨h₁, hw⟩ := h.unique h' hw (.primary _) (.primary _)
    exact ⟨by rw [h₁], hw⟩
  | .neg _, .primary h', hw, _, _ => by
    have := h'.head_mem hw
    contradiction
  | .primary h, .neg _, hw, _, _ => by
    have := h.head_mem hw.symm
    contradiction
  | .primary h, .primary h', hw, _, _ => h.unique h' hw (.primary _) (.primary _)
  | .number, h', hw, _, _ | .yes, h', hw, _, _ | .no, h', hw, _, _ => by
    cases h' <;> cases hw
    exact ⟨rfl, rfl⟩
  | .grouping h, .grouping h', hw, _, _ => by
    simp only [List.cons_append, List.append_assoc, List.cons.injEq, true_and] at hw
    have ⟨h₁, hw⟩ := h.unique h' hw (.close (by decide)) (.close (by decide))
    simp only [List.nil_append, List.cons.injEq, true_and] at hw
    exact ⟨by rw [h₁], hw⟩
  | .block h, .block h', hw, _, _ => by
    simp only [List.cons_append, List.cons.injEq, true_and] at hw
    have ⟨h₁, hw⟩ := h.unique h' hw
    exact ⟨by rw [h₁], hw⟩
termination_by structural h => h

theorem Links.unique : Links t l ls e → Links t l ls' e' →
    ls ++ r = ls' ++ r' → Stops (.tier t) r → Stops (.tier t) r' → e = e' ∧ r = r'
  | .nil, .nil, hw, _, _ => ⟨rfl, hw⟩
  | .nil, .cons ho .., hw, hr, _ => by
    cases hw
    exact absurd hr (Stops.not_fixed ho)
  | .cons ho .., .nil, hw, _, hr' => by
    cases hw
    exact absurd hr' (Stops.not_fixed ho)
  | .cons ho h hl, .cons ho' h' hl', hw, hr, hr' => by
    simp only [List.cons_append, List.append_assoc, List.cons.injEq, fixed_inj] at hw
    obtain rfl := BinOp.kind_injective hw.left
    have ⟨h₁, hls⟩ := h.unique h' hw.right (hl.stops hr) (hl'.stops hr')
    subst h₁
    exact hl.unique hl' hls hr hr'
termination_by structural h => h

theorem Body.unique : Body ws ss → Body ws' ss' → ws ++ r = ws' ++ r' → ss = ss' ∧ r = r'
  | .close, .close, hw => by
    cases hw
    exact ⟨rfl, rfl⟩
  | .close, .item hs' _, hw => by
    rw [List.append_assoc] at hw
    have := hs'.head_mem hw
    contradiction
  | .close, .result h', hw => by
    rw [List.append_assoc] at hw
    have := h'.head_mem hw
    contradiction
  | .item hs _, .close, hw => by
    rw [List.append_assoc] at hw
    have := hs.head_mem hw.symm
    contradiction
  | .item hs h, .item hs' h', hw => by
    simp only [List.append_assoc] at hw
    have ⟨h₁, hw⟩ := hs.unique hs' hw
    have ⟨h₂, hw⟩ := h.unique h' hw
    exact ⟨by rw [h₁, h₂], hw⟩
  | .item hs _, .result h', hw => by
    simp only [List.append_assoc] at hw
    exact absurd hw (hs.not_result h')
  | .result h, .close, hw => by
    rw [List.append_assoc] at hw
    have := h.head_mem hw.symm
    contradiction
  | .result h, .item hs' _, hw => by
    simp only [List.append_assoc] at hw
    cases hs' with
    | declare | assign =>
      have := h.head_mem hw.symm
      contradiction
    | discard h' =>
      rw [List.append_assoc] at hw
      have ⟨_, hw⟩ := h.unique h' hw (.close (by decide)) (.close (by decide))
      cases hw
  | .result h, .result h', hw => by
    simp only [List.append_assoc] at hw
    have ⟨h₁, hw⟩ := h.unique h' hw (.close (by decide)) (.close (by decide))
    simp only [List.cons_append, List.nil_append, List.cons.injEq, true_and] at hw
    exact ⟨by rw [h₁], hw⟩
termination_by structural h => h

-- Statements end with a semicolon, so none is an expression before the closing brace.
theorem Statement.not_result : Statement ws s → Derives .expr ws' e →
    ws ++ r ≠ ws' ++ ([fixed .rbrace] ++ r')
  | .declare .., h', hw | .assign _, h', hw => by
    have := h'.head_mem hw
    contradiction
  | .discard h, h', hw => by
    rw [List.append_assoc] at hw
    have ⟨_, hw⟩ := h.unique h' hw (.close (by decide)) (.close (by decide))
    cases hw
termination_by structural h => h

theorem Statement.unique : Statement ws s → Statement ws' s' →
    ws ++ r = ws' ++ r' → s = s' ∧ r = r'
  | .declare ha hi, .declare ha' hi', hw => by
    simp only [List.cons_append, List.append_assoc, List.cons.injEq, ident_inj, true_and] at hw
    have ⟨hx, hw⟩ := hw
    have ⟨h₁, hw⟩ := ha.unique ha' hw hi.head_ne_colon hi'.head_ne_colon
    have ⟨h₂, hw⟩ := hi.unique hi' hw
    exact ⟨by rw [hx, h₁, h₂], hw⟩
  | .assign h, .assign h', hw => by
    simp only [List.cons_append, List.append_assoc, List.cons.injEq, ident_inj, true_and] at hw
    have ⟨hx, hw⟩ := hw
    have ⟨h₁, hw⟩ := h.unique h' hw (.close (by decide)) (.close (by decide))
    simp only [List.nil_append, List.cons.injEq, true_and] at hw
    exact ⟨by rw [hx, h₁], hw⟩
  | .discard h, .discard h', hw => by
    simp only [List.append_assoc] at hw
    have ⟨h₁, hw⟩ := h.unique h' hw (.close (by decide)) (.close (by decide))
    simp only [List.cons_append, List.nil_append, List.cons.injEq, true_and] at hw
    exact ⟨by rw [h₁], hw⟩
  | .declare .., .assign _, hw | .assign _, .declare .., hw => by
    cases hw
  | .declare .., .discard h', hw | .assign _, .discard h', hw => by
    simp only [List.cons_append, List.append_assoc] at hw
    have := h'.head_mem hw
    contradiction
  | .discard h, .declare .., hw | .discard h, .assign _, hw => by
    simp only [List.cons_append, List.append_assoc] at hw
    have := h.head_mem hw.symm
    contradiction
termination_by structural h => h

theorem Initial.unique : Initial is i → Initial is' i' →
    is ++ fixed .semi :: r = is' ++ fixed .semi :: r' → i = i' ∧ r = r'
  | .none, .none, hw => by
    cases hw
    exact ⟨rfl, rfl⟩
  | .none, .some _, hw | .some _, .none, hw => by
    cases hw
  | .some h, .some h', hw => by
    simp only [List.cons_append, List.cons.injEq, true_and] at hw
    have ⟨h₁, hw⟩ := h.unique h' hw (.close (by decide)) (.close (by decide))
    simp only [List.cons.injEq, true_and] at hw
    exact ⟨by rw [h₁], hw⟩
termination_by structural h => h

end

-- Words that make up a whole expression have one outline.
theorem Derives.outline_unique (h : Derives .expr ws e) (h' : Derives .expr ws e') : e = e' := by
  have hs : Stops .expr ([] : List Word) := fun _ hw => nomatch hw
  exact (h.unique h' rfl hs hs).left

end ExprLang.Grammar
