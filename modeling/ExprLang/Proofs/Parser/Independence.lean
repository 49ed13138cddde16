import ExprLang.Proofs.Parser.Naming

/-!
Parsing does not depend on what the interner holds. With two interners a source is refused alike, or its
trees differ in their handles only, and the handles of the one tree belong to those of the other one by
one.
-/
namespace ExprLang

open Grammar

-- Lists that are related one to one have the same member twice in the same places.
theorem forall₂_getElem?_eq_iff {α β : Type} {R : α → β → Prop} {xs : List α} {ys : List β}
    (hR : Relator.BiUnique R) (h : List.Forall₂ R xs ys) (m n : Nat) :
    xs[m]? = xs[n]? ↔ ys[m]? = ys[n]? := by
  have hrel (n : Nat) : Option.Rel R xs[n]? ys[n]? := by
    induction h generalizing n with
    | nil => exact .none
    | cons hx _ ih =>
      cases n with
      | zero => exact .some hx
      | succ n => simpa using ih n
  have hm := hrel m
  have hn := hrel n
  revert hm hn
  generalize xs[m]? = x, xs[n]? = x', ys[m]? = y, ys[n]? = y'
  intro hm hn
  cases hm <;> cases hn <;> simp only [reduceCtorEq, Option.some.injEq]
  case some.some hm _ _ hn => exact Relator.rel_eq hR hm hn

variable {i j : Interner}

-- Between two interners, a handle belongs to one other at most.
theorem Interner.Reachable.biUnique_sameText (hi : i.Reachable) (hj : j.Reachable) :
    Relator.BiUnique (SameText i.issued? j.issued?) := by
  constructor
  case left =>
    intro x y z ⟨t, hx, hz⟩ ⟨t', hy, hz'⟩
    cases hz.symm.trans hz'
    exact hi.issued?_inj hx hy
  case right =>
    intro x y z ⟨t, hx, hy⟩ ⟨t', hx', hz⟩
    cases hx.symm.trans hx'
    exact hj.issued?_inj hy hz

-- What the interner holds has no part in what comes of a source: it is refused for the same fault, or
-- the trees have the same spans and are written in the same way, and names that are one symbol in one
-- of the trees are one symbol in the other.
theorem parse_independent (hi : i.Reachable) (hj : j.Reachable) (src : Text) (d : Int) :
    (∃ f, (parse src i d).fst = .error f ∧ (parse src j d).fst = .error f) ∨
    ∃ e e' i' j', parse src i d = (.ok e, i') ∧ parse src j d = (.ok e', j') ∧
      Expr.Alike Eq (SameText i'.lookup? j'.lookup?) e e' ∧
      (∀ spans, e.encode ⟨some i', spans⟩ = e'.encode ⟨some j', spans⟩) ∧
      e.dump (some i') = e'.dump (some j') ∧
      e.format (some i') = e'.format (some j') ∧
      ∀ m n : Nat, e.symbols[m]? = e.symbols[n]? ↔ e'.symbols[m]? = e'.symbols[n]? := by
  cases Parser.parse_same src hi hj d with
  | inr h =>
    have ⟨f, _, _, h, h'⟩ := h
    exact .inl ⟨f, congrArg Prod.fst h, congrArg Prod.fst h'⟩
  | inl h =>
    have ⟨e, e', h, h', ha⟩ := h
    have hi' := hi.present (identifiers src)
    have hj' := hj.present (identifiers src)
    generalize i.present (identifiers src) = i', j.present (identifiers src) = j' at *
    have hl : Expr.Alike Eq (SameText i'.lookup? j'.lookup?) e e' :=
      ha.mono (fun _ _ hs => hs) fun _ _ hx =>
        hx.mono i'.lookup?_of_issued? j'.lookup?_of_issued?
    have hn : Expr.Alike Eq (Names.SameName (some i') (some j')) e e' :=
      hl.mono (fun _ _ hs => hs) fun _ _ hx => hx.sameName
    refine .inr ⟨e, e', i', j', h, h', hl, fun _ => hn.encode_eq, hn.dump_eq, hn.format_eq, ?_⟩
    exact forall₂_getElem?_eq_iff (hi'.biUnique_sameText hj') ha.symbols

-- A source whose names are new to one of the interners and known to the other in another order.
theorem parse_independent_block :
    ∃ e e' i' j', parse "\x7blet x:y=1;x=2;3\x7d" .empty 1 = (.ok e, i') ∧
      parse "\x7blet x:y=1;x=2;3\x7d" (Interner.empty.present ["y", "z", "x"]) 1 = (.ok e', j') ∧
      Expr.Alike Eq (SameText i'.lookup? j'.lookup?) e e' ∧
      (∀ spans, e.encode ⟨some i', spans⟩ = e'.encode ⟨some j', spans⟩) ∧
      e.dump (some i') = e'.dump (some j') ∧
      e.format (some i') = e'.format (some j') ∧
      ∀ m n : Nat, e.symbols[m]? = e.symbols[n]? ↔ e'.symbols[m]? = e'.symbols[n]? := by
  have hok : (parse "\x7blet x:y=1;x=2;3\x7d" .empty 1).fst.isOk = true := by cbv
  have hj : (Interner.empty.present ["y", "z", "x"]).Reachable := Interner.Reachable.empty.present _
  cases parse_independent .empty hj "\x7blet x:y=1;x=2;3\x7d" 1 with
  | inr h => exact h
  | inl h =>
    obtain ⟨f, h, _⟩ := h
    rw [h] at hok
    cases hok

end ExprLang
