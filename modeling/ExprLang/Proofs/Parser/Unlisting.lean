import ExprLang.Proofs.Tree.Listing
import ExprLang.Proofs.Tree.Recovery

/-!
Listings of trees that were parsed. Their numbers are natural, their names are words, and their block
expressions have the spans of their blocks, so that their listings tell them.
-/
namespace ExprLang

open Token Grammar

-- A line is not divided by what names are made of.
theorem Text.isUndivided_name {bs : Bytes} (h : Kind.ident.allows bs) : (ofAscii bs).isUndivided := by
  have table : ∀ b : UInt8, isWord b →
      (CodePoint.ofByte b != 0x0A && CodePoint.ofByte b != 0x3A && CodePoint.ofByte b != 0x40) :=
    forall_byte (by decide +kernel)
  simp only [Kind.allows, Bool.and_eq_true] at h
  rw [isUndivided, ofAscii, List.all_map, List.all_eq_true]
  exact fun b hb => table b (Kind.isWord_of_isName h.left b hb)

section

variable {word : Token → Word} {name : Symbol → Option Text} {names : Names}

theorem Names.exists_writes_type {type : Option Symbol}
    (h : ∀ x ∈ type.toList, ∃ t, names.Writes x t) : ∃ u, Option.Rel names.Writes type u := by
  cases type with
  | none => exact ⟨none, .none⟩
  | some x =>
    have ⟨t, ht⟩ := h x (.head _)
    exact ⟨some t, .some ht⟩

mutual

-- All parts of a tree over tokens are clear, if its symbols are written as undivided texts and its numbers
-- are short enough.
theorem Grammar.Located.clear : Located word name c ts e u → (∀ x ∈ e.symbols, ∃ t, names.Writes x t) →
    (∀ n ∈ e.numbers, Text.isWritable n) → ∀ k, ∀ p ∈ e.preorder k, p.node.Clear names
  | .number _ hv, _, hn, k => by
    subst hv
    exact List.forall_mem_singleton.mpr ⟨Int.natCast_nonneg _, hn _ (.head _)⟩
  | .yes _, _, _, k | .no _, _, _, k => List.forall_mem_singleton.mpr trivial
  | .neg _ _ h, hx, hn, k | .grouping _ h _, hx, hn, k =>
    List.forall_mem_cons.mpr ⟨trivial, h.clear hx hn (k + 1)⟩
  | .binary _ hl _ hr, hx, hn, k => by
    have ⟨hxl, hxr⟩ := List.forall_mem_append.mp hx
    have ⟨hnl, hnr⟩ := List.forall_mem_append.mp hn
    exact List.forall_mem_cons.mpr ⟨trivial,
      List.forall_mem_append.mpr ⟨hl.clear hxl hnl (k + 1), hr.clear hxr hnr (k + 1)⟩⟩
  | .cond _ hc _ ht _ _ _ he _, hx, hn, k => by
    have ⟨hxc, hx⟩ := List.forall_mem_append.mp hx
    have ⟨hxt, hxe⟩ := List.forall_mem_append.mp hx
    have ⟨hnc, hn⟩ := List.forall_mem_append.mp hn
    have ⟨hnt, hne⟩ := List.forall_mem_append.mp hn
    exact List.forall_mem_cons.mpr ⟨trivial, List.forall_mem_append.mpr ⟨hc.clear hxc hnc (k + 1),
      List.forall_mem_append.mpr ⟨ht.clear hxt hnt (k + 1), he.clear hxe hne (k + 1)⟩⟩⟩
  | .block _ h _, hx, hn, k => List.forall_mem_cons.mpr ⟨rfl, h.clear hx hn (k + 1)⟩

theorem Grammar.LocatedBody.clear : LocatedBody word name ts ss us →
    (∀ x ∈ stmtsSymbols ss, ∃ t, names.Writes x t) → (∀ n ∈ stmtsNumbers ss, Text.isWritable n) →
    ∀ k, ∀ p ∈ stmtsPreorder k ss, p.node.Clear names
  | .nil, _, _, k => nofun
  | .cons hs _ h, hx, hn, k => by
    have ⟨hxs, hx⟩ := List.forall_mem_append.mp hx
    have ⟨hns, hn⟩ := List.forall_mem_append.mp hn
    exact List.forall_mem_append.mpr ⟨hs.clear hxs hns k, h.clear hx hn k⟩

theorem Grammar.LocatedStmt.clear : LocatedStmt word name ts s u →
    (∀ x ∈ s.symbols, ∃ t, names.Writes x t) → (∀ n ∈ s.numbers, Text.isWritable n) →
    ∀ k, ∀ p ∈ s.preorder k, p.node.Clear names
  | .declare _ _ _ _ _ hi _, hx, hn, k => by
    have ⟨⟨t, hw⟩, hx⟩ := List.forall_mem_cons.mp hx
    have ⟨ht, hx⟩ := List.forall_mem_append.mp hx
    have ⟨u, ht⟩ := Names.exists_writes_type ht
    cases hi with
    | none => exact List.forall_mem_singleton.mpr ⟨t, u, hw, ht⟩
    | some _ h => exact List.forall_mem_cons.mpr ⟨⟨t, u, hw, ht⟩, h.clear hx hn (k + 1)⟩
  | .assign _ _ _ _ h _, hx, hn, k => by
    have ⟨hw, hx⟩ := List.forall_mem_cons.mp hx
    exact List.forall_mem_cons.mpr ⟨hw, h.clear hx hn (k + 1)⟩
  | .discard h _, hx, hn, k | .result h, hx, hn, k =>
    List.forall_mem_cons.mpr ⟨trivial, h.clear hx hn (k + 1)⟩

end
end

theorem Names.lookup?_of_name {i : Interner} {x : Symbol} {t : Text}
    (h : Names.name (some i) x = .ok t) : i.lookup? x = some t := by
  simp only [Names.name] at h
  split at h
  case h_1 hx => exact hx.trans (congrArg some (Except.ok.inj h))
  case h_2 =>
    rw [Text.decimal] at h
    split at h <;> cases h

namespace Parser

variable {src src' : Text} {i i' j j' : Interner} {d d' : Int} {e e' : Program}

-- The symbols of a tree are written as the names of its source.
theorem writes_of_parse (hi : i.Reachable) (h : parse src i d = (.ok e, j)) :
    ∀ x ∈ e.symbols, ∃ t, Names.Writes (some j) x t := by
  intro x hx
  have hn : j.lookup? x ∈ e.symbols.map j.lookup? := List.mem_map_of_mem hx
  rw [symbols_of_parse hi h] at hn
  obtain ⟨t, ht, hl⟩ := List.mem_map.mp hn
  obtain ⟨bs, ha, rfl⟩ := exists_allows_of_mem_identifiers ht
  exact ⟨_, by simp [Names.name, ←hl], Text.isUndivided_name ha⟩

theorem clear_of_parse (hi : i.Reachable) (h : parse src i d = (.ok e, j)) :
    ∀ p ∈ e.preorder 0, p.node.Clear (some j) := by
  have ⟨_, _, _, _, _, _, _, hl⟩ := located_of_parse hi.valid h
  exact hl.clear (writes_of_parse hi h) (isWritable_of_parse hi h) 0

-- The symbols of trees with the same listing have the same texts.
theorem alike_of_dump_eq {t : Text} (hi : i.Reachable) (hi' : i'.Reachable)
    (h : parse src i d = (.ok e, j)) (h' : parse src' i' d' = (.ok e', j'))
    (ht : e.dump (some j) = .ok t) (ht' : e'.dump (some j') = .ok t) :
    Expr.Alike Eq (SameText j.lookup? j'.lookup?) e e' := by
  have ha := Expr.alike_of_dump (clear_of_parse hi h) (clear_of_parse hi' h') ht ht'
  refine ha.mono (fun _ _ hs => hs) fun x x' ⟨t, hx, hx'⟩ => ⟨t, ?_, ?_⟩
  · exact Names.lookup?_of_name hx.name
  · exact Names.lookup?_of_name hx'.name

end Parser

-- A listing has the rows of the plain recursive walk through the tree, and it tells the whole tree: the
-- listings of trees that were parsed, each with an interner of its own, are the same only if the trees are
-- alike to their spans, with symbols that have the same texts.
theorem dump_tells :
    (∀ (δ : Type) [Provenance δ] (names : Names) (e : Expr δ),
      e.lines names = (e.preorder 0).mapM (·.row names) ∧
      e.dump names = Text.join "\n" <$> (e.preorder 0).mapM (·.row names)) ∧
    ∀ (src src' : Text) (i i' j j' : Interner) (d d' : Int) (e e' : Program),
      i.Reachable → i'.Reachable → parse src i d = (.ok e, j) → parse src' i' d' = (.ok e', j') →
      ∃ t t', e.dump (some j) = .ok t ∧ e'.dump (some j') = .ok t' ∧
        (t = t' ↔ Expr.Alike Eq (SameText j.lookup? j'.lookup?) e e') := by
  refine ⟨fun δ _ names e => ⟨e.lines_eq_rows names, by rw [Expr.dump, e.lines_eq_rows]⟩, ?_⟩
  intro src src' i i' j j' d d' e e' hi hi' h h'
  obtain ⟨t, ht⟩ := (Parser.knows_of_parse hi h).dump_ok (Parser.isWritable_of_parse hi h)
  obtain ⟨t', ht'⟩ := (Parser.knows_of_parse hi' h').dump_ok (Parser.isWritable_of_parse hi' h')
  refine ⟨t, t', ht, ht', fun he => ?_, fun ha => ?_⟩
  · exact Parser.alike_of_dump_eq hi hi' h h' ht (he ▸ ht')
  · have ha := ha.mono (fun _ _ hs => hs) fun _ _ hx => SameText.sameName hx
    exact Except.ok.inj (ht.symm.trans (ha.dump_eq.trans ht'))

-- The second interner has given out handles before, so that the symbols of the trees differ.
theorem dump_tells_let :
    ∃ e e' j j', parse "\x7blet x:y=1;x=2;3\x7d" .empty 1 = (.ok e, j) ∧
      parse "\x7blet x:y=1;x=2;3\x7d " (Interner.empty.intern "y").snd 1 = (.ok e', j') ∧
      ∃ t t', e.dump (some j) = .ok t ∧ e'.dump (some j') = .ok t' ∧
        (t = t' ↔ Expr.Alike Eq (SameText j.lookup? j'.lookup?) e e') := by
  obtain ⟨ho, ho'⟩ : (parse "\x7blet x:y=1;x=2;3\x7d" .empty 1).fst.isOk = true ∧
      (parse "\x7blet x:y=1;x=2;3\x7d " (Interner.empty.intern "y").snd 1).fst.isOk = true := by
    constructor <;> cbv
  obtain ⟨e, j, h⟩ := Parser.exists_parse_ok ho
  obtain ⟨e', j', h'⟩ := Parser.exists_parse_ok ho'
  have hi : (Interner.empty.intern "y").snd.Reachable := .intern _ .empty
  exact ⟨e, e', j, j', h, h', dump_tells.right _ _ _ _ j j' 1 1 e e' .empty hi h h'⟩

end ExprLang
