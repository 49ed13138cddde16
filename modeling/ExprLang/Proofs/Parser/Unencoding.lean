import ExprLang.Proofs.Tree.Comparison
import ExprLang.Proofs.Tree.Filling
import ExprLang.Proofs.Tree.Listing

/-!
Encodings of trees that were parsed. Every such tree has one, and it tells the tree to the texts of its
symbols, or the tree itself if both trees were parsed with the same interner.
-/
namespace ExprLang

open Grammar

section

variable {S : Symbol → Symbol → Prop}

mutual

-- Trees that are alike and have the same symbols are the same.
theorem Expr.Alike.eq_of_symbols : Expr.Alike Eq S e e' → e.symbols = e'.symbols → e = e'
  | .literal hs, _ => by rw [hs]
  | .unary hs h, hx | .grouping hs h, hx => by rw [hs, h.eq_of_symbols hx]
  | .binary hs hl hr, hx => by
    have ⟨hxl, hxr⟩ := List.append_inj hx hl.symbols.length_eq
    rw [hs, hl.eq_of_symbols hxl, hr.eq_of_symbols hxr]
  | .cond hs hc ht he, hx => by
    have ⟨hxc, hx⟩ := List.append_inj hx hc.symbols.length_eq
    have ⟨hxt, hxe⟩ := List.append_inj hx ht.symbols.length_eq
    rw [hs, hc.eq_of_symbols hxc, ht.eq_of_symbols hxt, he.eq_of_symbols hxe]
  | .block hs hb h, hx => by rw [hs, hb, h.eq_of_symbols hx]

theorem Stmts.Alike.eq_of_symbols :
    Stmts.Alike Eq S ss ss' → stmtsSymbols ss = stmtsSymbols ss' → ss = ss'
  | .nil, _ => rfl
  | .cons hs h, hx => by
    have ⟨hxs, hx⟩ := List.append_inj hx hs.symbols.length_eq
    rw [hs.eq_of_symbols hxs, h.eq_of_symbols hx]

theorem Stmt.Alike.eq_of_symbols : Stmt.Alike Eq S s s' → s.symbols = s'.symbols → s = s'
  | .declare hs _ .none hi, hx => by
    have ⟨hn, hx⟩ := List.cons.inj hx
    rw [hs, hn, hi.eq_of_symbols hx]
  | .declare hs _ (.some _) hi, hx => by
    have ⟨hn, hx⟩ := List.cons.inj hx
    have ⟨ht, hx⟩ := List.cons.inj hx
    rw [hs, hn, ht, hi.eq_of_symbols hx]
  | .assign hs _ h, hx => by
    have ⟨hn, hx⟩ := List.cons.inj hx
    rw [hs, hn, h.eq_of_symbols hx]
  | .discard hs h, hx | .result hs h, hx => by rw [hs, h.eq_of_symbols hx]

theorem Init.Alike.eq_of_symbols :
    Init.Alike Eq S init init' → initSymbols init = initSymbols init' → init = init'
  | .none, _ => rfl
  | .some h, hx => by rw [h.eq_of_symbols hx]

end
end

-- Symbols that were given out for the same texts are the same.
theorem Interner.Reachable.symbols_inj {i : Interner} (hi : i.Reachable) {xs ys : List Symbol}
    {ts : List Text} (hx : xs.map i.issued? = ts.map some) (hy : ys.map i.issued? = ts.map some) :
    xs = ys := by
  induction ts generalizing xs ys with
  | nil => rw [List.map_eq_nil_iff.mp hx, List.map_eq_nil_iff.mp hy]
  | cons t ts ih =>
    obtain ⟨x, xs, rfl, hx, hxs⟩ := List.map_eq_cons_iff.mp hx
    obtain ⟨y, ys, rfl, hy, hys⟩ := List.map_eq_cons_iff.mp hy
    rw [hi.issued?_inj hx hy, ih hxs hys]

theorem Names.text?_some (i : Interner) : Names.text? (some i) = i.lookup? := by
  funext x
  rw [text?, name]
  cases i.lookup? x with
  | some => rfl
  | none =>
    simp only [Text.decimal]
    split <;> rfl

namespace Parser

variable {src src' : Text} {i i' j j' : Interner} {d d' : Int} {e e' : Program}

theorem issued_of_parse (hi : i.Reachable) (h : parse src i d = (.ok e, j)) :
    e.symbols.map j.issued? = (identifiers src).map some := by
  rw [←symbols_of_parse hi h]
  refine List.map_congr_left fun x hx => ?_
  have ⟨t, ht, _⟩ := List.forall₂_same.mp (sameText_of_parse hi h).symbols x hx
  rw [ht, j.lookup?_of_issued? ht]

-- The names of sources whose trees are alike are the same.
theorem identifiers_eq_of_alike {R : Span → Span → Prop} (hi : i.Reachable) (hi' : i'.Reachable)
    (h : parse src i d = (.ok e, j)) (h' : parse src' i' d' = (.ok e', j'))
    (ha : Expr.Alike R (SameText j.lookup? j'.lookup?) e e') : identifiers src = identifiers src' := by
  have hx : List.Forall₂ Eq (e.symbols.map j.lookup?) (e'.symbols.map j'.lookup?) := by
    rw [List.forall₂_map_left_iff, List.forall₂_map_right_iff]
    exact ha.symbols.imp fun x x' ⟨t, ht, ht'⟩ => ht.trans ht'.symm
  rw [List.forall₂_eq_eq_eq, symbols_of_parse hi h, symbols_of_parse hi' h'] at hx
  exact List.map_injective_iff.mpr (Option.some_injective _) hx

-- With the same interner, trees are alike only if they are the same.
theorem eq_of_alike (hi : i.Reachable) (h : parse src i d = (.ok e, j))
    (h' : parse src' i d' = (.ok e', j')) (ha : Expr.Alike Eq (SameText j.lookup? j'.lookup?) e e') :
    e = e' := by
  have hn := identifiers_eq_of_alike hi hi h h' ha
  obtain ⟨_, _, hj, hx⟩ := present_of_parse hi h
  obtain ⟨_, _, hj', hx'⟩ := present_of_parse hi h'
  obtain rfl : j = j' := by rw [hj, hj', hx e rfl, hx' e' rfl, hn]
  have hr : j.Reachable := hj ▸ hi.present _
  have hs := issued_of_parse hi h
  rw [hn] at hs
  exact ha.eq_of_symbols (hr.symbols_inj hs (issued_of_parse hi h'))

end Parser

-- Encoding a tree by filling containers comes to the plain recursive conversion of it, with nothing left
-- open. And the encoding tells the tree: those of trees that were parsed, each with an interner of its own,
-- are the same only if the trees are alike, to their spans if there are spans in them, with symbols that have
-- the same texts. If the interners were the same before, so are the trees.
theorem encode_tells :
    (∀ (δ : Type) (c : Encoding) (n : Node δ),
      n.fill c = some <$> n.encode c ∧ (n.encode c).toOption = n.convert c) ∧
    ∀ (src src' : Text) (i i' j j' : Interner) (d d' : Int) (e e' : Program),
      i.Reachable → i'.Reachable → parse src i d = (.ok e, j) → parse src' i' d' = (.ok e', j') →
      ∀ spans, ∃ v v', e.encode ⟨some j, spans⟩ = .ok v ∧ e'.encode ⟨some j', spans⟩ = .ok v' ∧
        (v = v' ↔ v.Same v') ∧
        (v.Same v' ↔ Expr.Alike (Span.SameIf spans) (SameText j.lookup? j'.lookup?) e e') ∧
        (spans = true → i = i' → v.Same v' → e = e') := by
  refine ⟨fun δ c n => ⟨n.fill_eq c, n.toOption_encode c⟩, ?_⟩
  intro src src' i i' j j' d d' e e' hi hi' h h' spans
  obtain ⟨v, hv⟩ := (Parser.knows_of_parse hi h).encode_ok spans
  obtain ⟨v', hv'⟩ := (Parser.knows_of_parse hi' h').encode_ok spans
  have alike (hs : v.Same v') :
      Expr.Alike (Span.SameIf spans) (SameText j.lookup? j'.lookup?) e e' := by
    simpa only [Names.text?_some] using Expr.alike_of_encode hv hv' hs
  have eq (ha : Expr.Alike (Span.SameIf spans) (SameText j.lookup? j'.lookup?) e e') : v = v' := by
    simp only [←Names.text?_some] at ha
    have hc := ha.convert_eq
    rw [←Option.some_inj]
    exact (Node.encode_eq_ok_iff.mp hv).symm.trans (hc.trans (Node.encode_eq_ok_iff.mp hv'))
  refine ⟨v, v', hv, hv', ⟨fun he => he ▸ .refl v, fun hs => eq (alike hs)⟩, ⟨alike, fun ha => ?_⟩, ?_⟩
  · exact eq ha ▸ .refl v
  · rintro rfl rfl hs
    exact Parser.eq_of_alike hi h h' ((alike hs).mono (fun _ _ hs => hs rfl) fun _ _ hx => hx)

-- The same tree from two sources that differ by a blank, each parsed with a new interner.
theorem encode_tells_let :
    ∃ e e' j j', parse "\x7blet x:y=1;x=2;3\x7d" .empty 1 = (.ok e, j) ∧
      parse "\x7blet x:y=1;x=2;3\x7d " .empty 1 = (.ok e', j') ∧
      ∀ spans, ∃ v v', e.encode ⟨some j, spans⟩ = .ok v ∧ e'.encode ⟨some j', spans⟩ = .ok v' ∧
        (v = v' ↔ v.Same v') ∧
        (v.Same v' ↔ Expr.Alike (Span.SameIf spans) (SameText j.lookup? j'.lookup?) e e') ∧
        (spans = true → Interner.empty = .empty → v.Same v' → e = e') := by
  obtain ⟨ho, ho'⟩ : (parse "\x7blet x:y=1;x=2;3\x7d" .empty 1).fst.isOk = true ∧
      (parse "\x7blet x:y=1;x=2;3\x7d " .empty 1).fst.isOk = true := by
    constructor <;> cbv
  obtain ⟨e, j, h⟩ := Parser.exists_parse_ok ho
  obtain ⟨e', j', h'⟩ := Parser.exists_parse_ok ho'
  exact ⟨e, e', j, j', h, h', encode_tells.right _ _ _ _ j j' 1 1 e e' .empty .empty h h'⟩

end ExprLang
