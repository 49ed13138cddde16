import ExprLang.Proofs.Parser.Slices

/-!
Spans nest like the parts of a tree that was parsed. Each part stands over some of the tokens of the
source and its fields over some of these, one behind the other, so that the order of the tokens tells
how the spans lie.
-/
namespace ExprLang

open Token Grammar

namespace Node

-- What stands in the fields of a part, in order. Other than in a listing, a block is a part of its own.
def fields : Node Empty → List (Node Empty)
  | .expr (.literal ..) => []
  | .expr (.unary _ _ e) | .expr (.grouping _ e) => [.expr e]
  | .expr (.binary _ _ l r) => [.expr l, .expr r]
  | .expr (.cond _ c t e) => [.expr c, .expr t, .expr e]
  | .expr (.block _ b) => [.block b]
  | .stmt (.declare _ _ _ init) => init.toList.map .expr
  | .stmt (.assign _ _ e) | .stmt (.discard _ e) | .stmt (.result _ e) => [.expr e]
  | .block b => b.stmts.map .stmt

-- A part of a tree at any depth, blocks included, or the tree itself.
def Contains : Node Empty → Node Empty → Prop :=
  Relation.ReflTransGen fun m n => n ∈ m.fields

-- Whether a part has a token of its own behind all its fields.
def isDelimited : Node Empty → Bool
  | .expr (.grouping ..) | .expr (.cond ..) | .block _ => true
  | .stmt (.declare ..) | .stmt (.assign ..) | .stmt (.discard ..) => true
  | _ => false

-- How a part lies in a source with the tokens `ts`, and its fields in it.
structure Nests (src : Text) (ts : List Token) (n : Node Empty) : Prop where
  nonempty : n.span.lo < n.span.hi
  within : n.span.hi ≤ src.encode.length
  starts : ∃ t ∈ ts, n.span.lo = t.span.lo
  ends : ∃ t ∈ ts, n.span.hi = t.span.hi
  inside : ∀ m ∈ n.fields, n.span.lo ≤ m.span.lo ∧ m.span.hi ≤ n.span.hi
  ordered : n.fields.Pairwise fun a b => a.span.hi ≤ b.span.lo ∧ a.span.lo < b.span.lo
  binary : ∀ s op l r, n = .expr (.binary s op l r) → s.lo = l.span.lo ∧ s.hi = r.span.hi
  block : ∀ s b, n = .expr (.block s b) → b.span = s
  delimited : n.isDelimited → ∀ m ∈ n.fields, m.span.hi < n.span.hi

end Node

-- Every token takes a byte.
theorem Places.nonempty {pos : Nat} {bs r : Bytes} {ts : List Token} (h : Places pos bs ts r) :
    ∀ t ∈ ts, t.span.lo < t.span.hi := by
  induction h
  case done => exact nofun
  case token k blanks text bs pos ts r hb ha hk he h ih =>
    refine List.forall_mem_cons.mpr ⟨?_, ih⟩
    have hpos : text ≠ [] := by
      rintro rfl
      have := Item.first_lexeme (Kind.lexeme_iff_allows.mpr ⟨ha, hk⟩)
      cases this
    have := List.length_pos_iff.mpr hpos
    simp only [Token.placed]
    omega

namespace Grammar

variable {word : Token → Word} {name : Symbol → Option Text}

section

variable {ts us : List Token} {s : Span}

-- No token of a hull lies outside of it.
theorem Hull.bounds {t : Token} (h : Hull ts s) (ho : Ordered ts) (ht : t ∈ ts) :
    s.lo ≤ t.span.lo ∧ t.span.hi ≤ s.hi := by
  have ⟨a, ha, hlo⟩ := h.lo
  have ⟨b, hb, hhi⟩ := h.hi
  constructor
  case left =>
    obtain ⟨us, rfl⟩ := List.head?_eq_some_iff.mp ha
    cases ht with
    | head => exact Nat.le_of_eq hlo
    | tail _ ht =>
      have := (List.pairwise_cons.mp ho).left t ht
      have := a.span.le
      omega
  case right =>
    obtain ⟨us, rfl⟩ := List.getLast?_eq_some_iff.mp hb
    cases List.mem_append.mp ht with
    | inl ht =>
      have := (List.pairwise_append.mp ho).right.right t ht b (List.mem_singleton_self b)
      have := b.span.le
      omega
    | inr ht =>
      cases List.mem_singleton.mp ht
      exact Nat.le_of_eq hhi.symm

theorem Hull.nonempty (h : Hull ts s) (ho : Ordered ts) (hn : ∀ t ∈ ts, t.span.lo < t.span.hi) :
    s.lo < s.hi := by
  have ⟨t, ht, _⟩ := h.lo
  have ht := List.mem_of_mem_head? ht
  have := h.bounds ho ht
  have := hn t ht
  omega

-- What stands over some of the tokens lies inside.
theorem Hull.inside {s' : Span} (h : Hull ts s) (ho : Ordered ts) (h' : Hull us s') (hu : us ⊆ ts) :
    s.lo ≤ s'.lo ∧ s'.hi ≤ s.hi := by
  have ⟨a, ha, hlo⟩ := h'.lo
  have ⟨b, hb, hhi⟩ := h'.hi
  have := h.bounds ho (hu (List.mem_of_mem_head? ha))
  have := h.bounds ho (hu (List.mem_of_mem_getLast? hb))
  omega

theorem LocatedStmt.hull {s : Stmt Empty} {u : Outline.Item} (h : LocatedStmt word name ts s u)
    (ho : Ordered ts) : Hull ts s.span := by
  cases h with
  | declare =>
    refine (Hull.single _).merge (.single _) ?_ ho
    refine .trans ?_ (List.suffix_cons _ _)
    exact .trans (List.suffix_append _ _) (List.suffix_append _ _)
  | assign =>
    refine (Hull.single _).merge (.single _) ?_ ho
    exact .trans (List.suffix_append _ _) (List.suffix_cons _ _)
  | discard h =>
    exact (h.hull (List.pairwise_append.mp ho).left).merge (.single _) List.suffix_rfl ho
  | result h => exact h.hull ho

-- A part of a tree over its tokens, which for a block include the braces.
def LocatedPart (word : Token → Word) (name : Symbol → Option Text) (ts : List Token) :
    Node Empty → Prop
  | .expr e => ∃ c u, Located word name c ts e u
  | .stmt s => ∃ u, LocatedStmt word name ts s u
  | .block b => ∃ o us k is, ts = o :: (us ++ [k]) ∧ b.span = o.span.merge k.span ∧
    LocatedBody word name us b.stmts is

theorem LocatedPart.hull {n : Node Empty} (h : LocatedPart word name ts n) (ho : Ordered ts) :
    Hull ts n.span := by
  cases n with
  | expr e =>
    have ⟨_, _, h⟩ := h
    exact h.hull ho
  | stmt s =>
    have ⟨_, h⟩ := h
    exact h.hull ho
  | block b =>
    obtain ⟨o, us, k, _, rfl, hs, _⟩ := h
    show Hull _ b.span
    rw [hs]
    exact (Hull.single o).merge (.single k) (List.suffix_append _ _) ho

-- The fields of a part over the tokens `ts` stand over some of them, one behind the other. More tokens
-- come last if it is delimited.
structure LocatedFields (word : Token → Word) (name : Symbol → Option Text) (ts : List Token)
    (n : Node Empty) (parts : List (List Token × Node Empty)) (ks : List Token) : Prop where
  fields : parts.map Prod.snd = n.fields
  located : ∀ p ∈ parts, LocatedPart word name p.fst p.snd
  sublist : (parts.flatMap Prod.fst ++ ks).Sublist ts
  delimited : n.isDelimited → ks ≠ []

end

theorem LocatedBody.parts (h : LocatedBody word name ts ss is) :
    ∃ parts : List (List Token × Node Empty), parts.map Prod.snd = ss.map .stmt ∧
      (∀ p ∈ parts, LocatedPart word name p.fst p.snd) ∧ parts.flatMap Prod.fst = ts := by
  induction ss generalizing ts is with
  | nil =>
    cases h
    exact ⟨[], rfl, List.forall_mem_nil _, rfl⟩
  | cons s ss ih =>
    cases h with
    | cons hs _ h =>
      obtain ⟨parts, hp, hl, ht⟩ := ih h
      refine ⟨(_, .stmt s) :: parts, congrArg _ hp, List.forall_mem_cons.mpr ⟨⟨_, hs⟩, hl⟩, ?_⟩
      rw [List.flatMap_cons, ht]

section

variable {ts us ks : List Token}

theorem LocatedFields.none {n : Node Empty} (hn : n.fields = []) (hs : ks <:+ ts)
    (hk : n.isDelimited → ks ≠ []) : LocatedFields word name ts n [] ks :=
  ⟨hn.symm, nofun, hs.sublist, hk⟩

theorem LocatedFields.one {m n : Node Empty} (hm : n.fields = [m]) (h : LocatedPart word name us m)
    (hs : us ++ ks <:+ ts) (hk : n.isDelimited → ks ≠ []) :
    LocatedFields word name ts n [(us, m)] ks := by
  refine ⟨hm.symm, List.forall_mem_singleton.mpr h, ?_, hk⟩
  rw [List.flatMap_singleton]
  exact hs.sublist

theorem Located.fields {c : Nonterminal} {e : Program} {u : Outline} (h : Located word name c ts e u) :
    ∃ parts ks, LocatedFields word name ts (.expr e) parts ks := by
  cases h with
  | number | yes | no => exact ⟨_, _, .none rfl (List.nil_suffix) (absurd · Bool.false_ne_true)⟩
  | neg _ _ h =>
    refine ⟨_, [], .one rfl ⟨_, _, h⟩ ?_ (absurd · Bool.false_ne_true)⟩
    rw [List.append_nil]
    exact List.suffix_cons _ _
  | @binary us l _ _ vs r _ _ _ _ hl _ hr =>
    refine ⟨[(us, .expr l), (vs, .expr r)], [], rfl, ?_, by simp, (absurd · Bool.false_ne_true)⟩
    simp only [List.forall_mem_cons]
    exact ⟨⟨_, _, hl⟩, ⟨_, _, hr⟩, List.forall_mem_nil _⟩
  | grouping _ h _ => exact ⟨_, _, .one rfl ⟨_, _, h⟩ (List.suffix_cons _ _) (by simp)⟩
  | @cond _ cs c _ _ ts t _ _ _ _ es e _ k _ hc _ ht _ _ _ he _ =>
    refine ⟨[(cs, .expr c), (ts, .expr t), (es, .expr e)], [k], rfl, ?_, ?_, by simp⟩
    · simp only [List.forall_mem_cons]
      exact ⟨⟨_, _, hc⟩, ⟨_, _, ht⟩, ⟨_, _, he⟩, List.forall_mem_nil _⟩
    · simp only [List.flatMap_cons, List.flatMap_nil, List.append_nil, List.append_assoc]
      refine .cons _ (.append_left (.cons _ (.append_left ?_ _)) _)
      exact .cons _ (.cons _ (.cons _ (.refl _)))
  | block ho h hk =>
    refine ⟨_, [], .one rfl ⟨_, _, _, _, rfl, rfl, h⟩ ?_ (absurd · Bool.false_ne_true)⟩
    rw [List.append_nil]

theorem LocatedStmt.fields {s : Stmt Empty} {u : Outline.Item} (h : LocatedStmt word name ts s u) :
    ∃ parts ks, LocatedFields word name ts (.stmt s) parts ks := by
  cases h with
  | @declare l t _ _ _ types _ _ _ _ _ k _ _ _ _ _ hi _ =>
    cases hi with
    | none => exact ⟨_, [k], .none rfl (List.suffix_append (l :: t :: types) [k]) (by simp)⟩
    | @some o us _ _ _ h =>
      refine ⟨_, [k], .one rfl ⟨_, _, h⟩ ?_ (by simp)⟩
      exact ⟨l :: t :: (types ++ [o]), by simp⟩
  | assign _ _ _ _ h _ => exact ⟨_, _, .one rfl ⟨_, _, h⟩ (List.suffix_append [_, _] _) (by simp)⟩
  | discard h _ => exact ⟨_, _, .one rfl ⟨_, _, h⟩ List.suffix_rfl (by simp)⟩
  | result h =>
    refine ⟨_, [], .one rfl ⟨_, _, h⟩ ?_ nofun⟩
    rw [List.append_nil]

theorem LocatedPart.fields {n : Node Empty} (h : LocatedPart word name ts n) :
    ∃ parts ks, LocatedFields word name ts n parts ks := by
  cases n with
  | expr e =>
    have ⟨_, _, h⟩ := h
    exact h.fields
  | stmt s =>
    have ⟨_, h⟩ := h
    exact h.fields
  | block b =>
    obtain ⟨o, us, k, _, rfl, _, h⟩ := h
    have ⟨parts, hf, hl, hs⟩ := h.parts
    exact ⟨parts, [k], hf, hl, hs ▸ (List.suffix_cons _ _).sublist, by simp⟩

namespace LocatedFields

variable {m n : Node Empty} {parts : List (List Token × Node Empty)}

theorem sublist_parts (h : LocatedFields word name ts n parts ks) :
    (parts.flatMap Prod.fst).Sublist ts :=
  (List.sublist_append_left ..).trans h.sublist

theorem exists_part (h : LocatedFields word name ts n parts ks) (hm : m ∈ n.fields) :
    ∃ us, LocatedPart word name us m ∧ us.Sublist (parts.flatMap Prod.fst) := by
  rw [←h.fields] at hm
  obtain ⟨p, hp, rfl⟩ := List.mem_map.mp hm
  exact ⟨p.fst, h.located p hp, List.sublist_flatten_of_mem (List.mem_map_of_mem hp)⟩

-- The tokens of one field all stand before those of the next.
theorem ordered (h : LocatedFields word name ts n parts ks) (ho : Ordered ts) :
    n.fields.Pairwise fun a b => a.span.hi ≤ b.span.lo := by
  have ⟨heach, hpairs⟩ := List.pairwise_flatMap.mp (ho.sublist h.sublist_parts)
  rw [←h.fields, List.pairwise_map]
  refine hpairs.imp_of_mem fun {p q} hp hq hpq => ?_
  have ⟨t, ht, hhi⟩ := ((h.located p hp).hull (heach p hp)).hi
  have ⟨u, hu, hlo⟩ := ((h.located q hq).hull (heach q hq)).lo
  rw [hhi, hlo]
  exact hpq t (List.mem_of_mem_getLast? ht) u (List.mem_of_mem_head? hu)

-- So do those of all the fields and the tokens that come last.
theorem before_last (h : LocatedFields word name ts n parts ks) (ho : Ordered ts) (hm : m ∈ n.fields)
    {k : Token} (hk : k ∈ ks) : m.span.hi ≤ k.span.lo := by
  have ⟨us, hp, hu⟩ := h.exists_part hm
  have ⟨t, ht, hhi⟩ := (hp.hull (ho.sublist (hu.trans h.sublist_parts))).hi
  rw [hhi]
  have ⟨_, _, hlast⟩ := List.pairwise_append.mp (ho.sublist h.sublist)
  exact hlast t (hu.subset (List.mem_of_mem_getLast? ht)) k hk

end LocatedFields

variable {m n : Node Empty}

-- A field stands over some of the tokens.
theorem LocatedPart.field (h : LocatedPart word name ts n) (hm : m ∈ n.fields) :
    ∃ us, LocatedPart word name us m ∧ us.Sublist ts := by
  have ⟨parts, ks, hf⟩ := h.fields
  have ⟨us, hp, hu⟩ := hf.exists_part hm
  exact ⟨us, hp, hu.trans hf.sublist_parts⟩

-- So does every part. By induction on the way down to it.
theorem LocatedPart.contains (h : LocatedPart word name ts n) (hm : n.Contains m) :
    ∃ us, LocatedPart word name us m ∧ us.Sublist ts := by
  induction hm
  case refl => exact ⟨ts, h, .refl ts⟩
  case tail _ hm ih =>
    have ⟨us, hp, hu⟩ := ih
    have ⟨vs, hq, hv⟩ := hp.field hm
    exact ⟨vs, hq, hv.trans hu⟩

-- The order of the tokens tells how a part lies in the source.
theorem LocatedPart.nests {src : Text} {r : Bytes} (h : LocatedPart word name us n)
    (hu : us.Sublist ts) (hp : Places 0 src.encode ts r) : n.Nests src ts := by
  have ho := hp.ordered.sublist hu
  have hne : ∀ t ∈ us, t.span.lo < t.span.hi := fun t ht => hp.nonempty t (hu.subset ht)
  have hull := h.hull ho
  have ⟨parts, ks, hf⟩ := h.fields
  constructor
  case nonempty => exact hull.nonempty ho hne
  case within =>
    have ⟨t, ht, hhi⟩ := hull.hi
    have := (hp.within t (hu.subset (List.mem_of_mem_getLast? ht))).right
    omega
  case starts =>
    have ⟨t, ht, hlo⟩ := hull.lo
    exact ⟨t, hu.subset (List.mem_of_mem_head? ht), hlo⟩
  case ends =>
    have ⟨t, ht, hhi⟩ := hull.hi
    exact ⟨t, hu.subset (List.mem_of_mem_getLast? ht), hhi⟩
  case inside =>
    intro m hm
    have ⟨vs, hl, hv⟩ := h.field hm
    exact hull.inside ho (hl.hull (ho.sublist hv)) hv.subset
  case ordered =>
    refine (hf.ordered ho).imp_of_mem fun {a b} ha _ hab => ⟨hab, ?_⟩
    have ⟨vs, hl, hv⟩ := h.field ha
    have hov := ho.sublist hv
    have := (hl.hull hov).nonempty hov fun t ht => hne t (hv.subset ht)
    omega
  case binary =>
    rintro s op l r rfl
    have hlr : l.span.hi ≤ r.span.lo :=
      (List.pairwise_cons.mp (hf.ordered ho)).left (.expr r) (List.mem_singleton_self _)
    have := l.span.le
    have := r.span.le
    have ⟨_, _, h⟩ := h
    cases h with
    | binary =>
    rw [Span.lo_merge, Span.hi_merge]
    omega
  case block =>
    rintro s b rfl
    have ⟨_, _, h⟩ := h
    cases h with
    | block => rfl
  case delimited =>
    intro hd m hm
    have ⟨k, hk⟩ := List.exists_mem_of_ne_nil ks (hf.delimited hd)
    have hk' := hf.sublist.subset (List.mem_append_right _ hk)
    have := hf.before_last ho hm hk
    have := hne k hk'
    have := hull.bounds ho hk'
    omega

end

end Grammar

-- Every part of a tree that was parsed has a span from the start of a token to the end of one, with its
-- fields one behind the other inside.
theorem parse_spans_nest {src : Text} {i j : Interner} {d : Int} {e : Program} (hi : i.Reachable)
    (h : parse src i d = (.ok e, j)) :
    ∃ ts eof, tokenize src = .ok (ts ++ [eof]) ∧ eof.kind = .eof ∧
      ∀ n, (Node.expr e).Contains n → n.Nests src ts := by
  have ⟨ts, u, r, hts, hp, _, _, hl⟩ := Parser.located_of_parse hi.valid h
  have ⟨_, _, hf, _⟩ := Parser.sound_parse hi.valid h
  refine ⟨ts, _, tokenize_eq_ok_iff.mpr ⟨hf, hts⟩, rfl, fun n hn => ?_⟩
  have ⟨us, hn, hu⟩ := LocatedPart.contains (n := .expr e) ⟨_, u, hl⟩ hn
  exact hn.nests hu hp

theorem parse_spans_nest_block :
    let sum : Program := .binary ⟨0, 11, by decide⟩ .add (.literal ⟨0, 1, by decide⟩ (.num 1))
      (.binary ⟨2, 11, by decide⟩ .mul
        (.block ⟨2, 9, by decide⟩ (.mk ⟨2, 9, by decide⟩ [
          .assign ⟨3, 7, by decide⟩ ⟨0⟩ (.literal ⟨5, 6, by decide⟩ (.num 2)),
          .result ⟨7, 8, by decide⟩ (.literal ⟨7, 8, by decide⟩ (.num 3))]))
        (.literal ⟨10, 11, by decide⟩ (.num 4)))
    ∃ j, parse "1+\x7bx=2;3\x7d*4" .empty 1 = (.ok sum, j) ∧
      ∃ ts eof, tokenize "1+\x7bx=2;3\x7d*4" = .ok (ts ++ [eof]) ∧ eof.kind = .eof ∧
        ∀ n, (Node.expr sum).Contains n → n.Nests "1+\x7bx=2;3\x7d*4" ts := by
  intro sum
  have he : (parse "1+\x7bx=2;3\x7d*4" .empty 1).fst = .ok sum := by
    cbv
  obtain ⟨j, hp⟩ := Parser.exists_parse_eq he
  exact ⟨j, hp, parse_spans_nest .empty hp⟩

end ExprLang
