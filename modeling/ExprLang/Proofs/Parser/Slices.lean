import ExprLang.Proofs.Grammar.Relocated
import ExprLang.Proofs.Parser.Failures
import ExprLang.Proofs.Parser.Locating

/-!
Spans are slices of the source that say the same on their own: what is cut out at the span of any
expression in a tree is parsed as this expression.
-/
namespace ExprLang

open Token Grammar

namespace Places

variable {pos : Nat} {bs r : Bytes} {ts us : List Token} {s : Span}

theorem ordered (h : Places pos bs ts r) : Ordered ts := by
  induction h
  case done => exact .nil
  case token k blanks text bs pos ts r hb ha hk he h ih =>
    exact .cons (fun t ht => (h.within t ht).left) ih

-- Tokens in a row can be cut out at their hull. They are the same words, in other places.
theorem cut (h : Places 0 bs ts r) (hu : us <:+: ts) (hs : Hull us s) :
    ∃ vs, us = vs.map (shift s.lo) ∧ Places 0 (s.slice bs) vs [] ∧
      vs.map (·.word (s.slice bs).toArray) = us.map (·.word bs.toArray) := by
  obtain ⟨pre, post, hts⟩ := hu
  rw [←hts, List.append_assoc] at h
  obtain ⟨a, m, hbs, _, h⟩ := h.split
  obtain ⟨b, c, hm, h, _⟩ := h.split
  obtain ⟨t, ht, hlo⟩ := hs.lo
  obtain ⟨t', ht', hhi⟩ := hs.hi
  cases us with
  | nil => cases ht
  | cons t us =>
    cases ht
    obtain ⟨blanks, b', hb, htlo, h⟩ := h.trim
    have hth := h.hi_getLast ht'
    have hcut : bs = (a ++ blanks) ++ (b' ++ c) := by simp [hbs, hm, hb]
    have hl : (a ++ blanks).length = s.lo := by
      rw [List.length_append, hlo, htlo]
      omega
    have hslice : s.slice bs = b' := by
      have hw : s.hi - s.lo = b'.length := by omega
      rw [Span.slice, hcut, ←hl, List.drop_left, hl, hw, List.take_left]
    rw [←hlo, ←Nat.zero_add s.lo] at h
    obtain ⟨vs, hvs, hp⟩ := h.unshift
    rw [hslice]
    refine ⟨vs, hvs, hp, ?_⟩
    rw [hvs, List.map_map, ←hp.words_append c]
    refine List.map_congr_left fun v _ => Word.ext rfl ?_
    rw [hcut, ←hl]
    exact (Span.slice_shift v.span _ _).symm

end Places

namespace Parser

variable {src : Text} {i j : Interner} {d : Int} {e : Program}

-- What comes back is a tree over the tokens of the source.
theorem located_of_parse (hi : i.Valid) (h : parse src i d = (.ok e, j)) :
    ∃ ts u r, (Lexer.ofText src).scan.tokens = ts ++ [Lexer.finish src.encode] ∧
      Places 0 src.encode ts r ∧ (∀ t ∈ ts, (t.word src.encode.toArray).InRange) ∧
      u.nesting ≤ d.toNat ∧ Located (·.word src.encode.toArray) j.lookup? .expr ts e u := by
  have ⟨ws, t, hf, hws, hr, hd, ht⟩ := sound_parse hi h
  obtain ⟨p, q, hp, hy, rfl⟩ := parse_eq_ok_iff.mp h
  have ⟨hy, hk⟩ := yields_whole.mp hy
  have ⟨htokens, hsource, _⟩ := start_takes hp
  have ⟨ts, u, hq, hu⟩ := locates_expr (locates_nested p.levels) hy ⟨ready_of_start hi hp, hsource⟩
  have ⟨ts', r, hts', hpl, _⟩ := Lexer.places_scan hf
  have hsplit : ts' ++ [Lexer.finish src.encode] = ts ++ [q.token] := by
    have hqt : q.tokens = [q.token] := by simp [tokens, hk]
    rw [←hqt, ←hq.takes.tokens, htokens]
    exact hts'.symm
  obtain rfl := (List.append_inj' hsplit rfl).left
  have hl := hu q.interner.lookup? q.interner.lookup?_of_issued?
  have ht := e.outline?_mono q.interner.lookup?_of_issued? ht
  cases hl.derives.left.symm.trans ht
  have hpl : Places 0 src.encode ts' r := by
    simpa [Lexer.ofText, Lexer.ofBytes] using hpl
  refine ⟨ts', t, r, hts', hpl, fun t ht => hr _ ?_, hd.nesting, hl⟩
  have hwords : (Lexer.ofText src).words = ts'.map (·.word src.encode.toArray) ++ [.eof] := by
    rw [Lexer.words, hts', List.map_append, List.map_singleton]
    exact congrArg (_ ++ [·]) (Lexer.word_finish src.encode)
  rw [hwords] at hws
  exact (List.append_inj' hws rfl).left ▸ List.mem_map_of_mem ht

end Parser

variable {src : Text} {i j : Interner} {d : Int} {e n : Program}

-- The source at the span of any expression in a tree is parsed within the same limit, and what comes
-- back is this expression, with its spans counted from there on and symbols for the same texts.
theorem parse_slice (hi : i.Reachable) (h : parse src i d = (.ok e, j))
    (hn : (Node.expr e).HasPart (.expr n)) :
    ∃ u, n.span.text src = .ok u ∧ ∀ i' : Interner, i'.Reachable →
      ∃ e' k, parse u i' d = (.ok e', k) ∧
        n.Alike (Moved n.span.lo) (SameText j.lookup? k.lookup?) e' := by
  have ⟨ts, u, r, _, hp, hr, hd, hl⟩ := Parser.located_of_parse hi.valid h
  have ⟨us, hus, c, v, hv, hnv⟩ := LocatedNode.part (m := .expr e) ⟨_, u, hl, hd⟩ hn
  have ⟨vs, hvs, hpv, hw⟩ := hp.cut hus (hv.hull (hp.ordered.sublist hus.sublist))
  have ⟨hts, hf, hwords⟩ := hpv.scan_ofAscii
  rw [hw] at hwords
  refine ⟨.ofAscii (n.span.slice src.encode), Text.decode_ascii (hpv.ascii (by simp)), fun i' hi' => ?_⟩
  have hrange : ∀ w ∈ us.map (·.word src.encode.toArray), w.InRange := by
    intro w hm
    have ⟨t, ht, hw⟩ := List.mem_map.mp hm
    exact hw ▸ hr t (hus.subset ht)
  have ⟨e', k, hp', ho⟩ := Parser.complete_parse hi'.valid hf hwords hrange ⟨hv.expr.derives.right, hnv⟩
  refine ⟨e', k, hp', ?_⟩
  have ⟨ts', v', _, hts', _, _, _, hl'⟩ := Parser.located_of_parse hi'.valid hp'
  obtain rfl := (List.append_inj' (hts'.symm.trans hts) rfl).left
  have ho := e'.outline?_mono k.lookup?_of_issued? ho
  cases hl'.derives.left.symm.trans ho
  exact hv.alike hl' hvs

theorem parse_slice_block :
    let src : Text := "1+\x7bx=2;3\x7d*4"
    let n : Program := .block ⟨2, 9, by decide⟩ (.mk ⟨2, 9, by decide⟩ [
      .assign ⟨3, 7, by decide⟩ ⟨0⟩ (.literal ⟨5, 6, by decide⟩ (.num 2)),
      .result ⟨7, 8, by decide⟩ (.literal ⟨7, 8, by decide⟩ (.num 3))])
    let product : Program := .binary ⟨2, 11, by decide⟩ .mul n (.literal ⟨10, 11, by decide⟩ (.num 4))
    let sum : Program :=
      .binary ⟨0, 11, by decide⟩ .add (.literal ⟨0, 1, by decide⟩ (.num 1)) product
    ∃ j, parse src .empty 1 = (.ok sum, j) ∧ (Node.expr sum).HasPart (.expr n) ∧
      ∃ u, n.span.text src = .ok u ∧ ∀ i' : Interner, i'.Reachable →
        ∃ e' k, parse u i' 1 = (.ok e', k) ∧
          n.Alike (Moved n.span.lo) (SameText j.lookup? k.lookup?) e' := by
  have he : (parse "1+\x7bx=2;3\x7d*4" .empty 1).fst = .ok
      (.binary ⟨0, 11, by decide⟩ .add (.literal ⟨0, 1, by decide⟩ (.num 1))
        (.binary ⟨2, 11, by decide⟩ .mul
          (.block ⟨2, 9, by decide⟩ (.mk ⟨2, 9, by decide⟩ [
            .assign ⟨3, 7, by decide⟩ ⟨0⟩ (.literal ⟨5, 6, by decide⟩ (.num 2)),
            .result ⟨7, 8, by decide⟩ (.literal ⟨7, 8, by decide⟩ (.num 3))]))
          (.literal ⟨10, 11, by decide⟩ (.num 4)))) := by
    cbv
  intro src n product sum
  have hn : (Node.expr sum).HasPart (.expr n) := by
    have hp : Node.expr product ∈ (Node.expr sum).children := .tail _ (.head _)
    exact .head hp (.single (.head _))
  obtain ⟨j, hp⟩ := Parser.exists_parse_eq he
  exact ⟨j, hp, hn, parse_slice .empty hp hn⟩

end ExprLang
