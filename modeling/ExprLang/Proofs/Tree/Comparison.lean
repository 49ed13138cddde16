import ExprLang.Proofs.Grammar.Relocated
import ExprLang.Proofs.Tree.Conversion
import ExprLang.Proofs.Tree.Lines

/-!
What the encodings of two trees tell when they are compared. Fields are compared by their keys and not by
their order, and a truth value counts as a number. Nevertheless encodings are the same only if the trees
are alike, to their spans if there are spans in the encodings.
-/
namespace ExprLang

open Grammar

variable {δ : Type}

namespace Json

-- The number that a value counts as when values are compared.
def number? : Json → Option Int
  | .bool b => some b.toNat
  | .int n => some n
  | _ => none

-- Values that are equal as far as a comparison goes.
inductive Same : Json → Json → Prop
  | null : Same .null .null
  | number (h : j.number? = some n) (h' : j'.number? = some n) : Same j j'
  | str : Same (.str t) (.str t)
  | arr (h : List.Forall₂ Same js js') : Same (.arr js) (.arr js')
  | obj (h : ∀ key, Option.Rel Same (fs.lookup key) (gs.lookup key)) : Same (.obj fs) (.obj gs)

namespace Same

mutual

theorem refl : (j : Json) → j.Same j
  | .null => .null
  | .bool _ | .int _ => .number rfl rfl
  | .str _ => .str
  | .arr js => .arr (refl_items js)
  | .obj fs => .obj (refl_fields fs)

theorem refl_items : (js : List Json) → List.Forall₂ Same js js
  | [] => .nil
  | j :: js => .cons (refl j) (refl_items js)

theorem refl_fields : (fs : List (String × Json)) → (key : String) →
    Option.Rel Same (fs.lookup key) (fs.lookup key)
  | [], _ => .none
  | (k, j) :: fs, key => by
    rw [List.lookup_cons]
    split
    · exact .some (refl j)
    · exact refl_fields fs key

end

theorem str_inj {t u : Text} (h : Same (.str t) (.str u)) : t = u := by
  cases h with
  | number h => cases h
  | str => rfl

theorem int_inj {m n : Int} (h : Same (.int m) (.int n)) : m = n := by
  cases h with
  | number h h' => exact Option.some.inj (h.trans h'.symm)

theorem eq_null_of_left {j : Json} (h : Same .null j) : j = .null := by
  cases h with
  | null => rfl
  | number h => cases h

theorem eq_null_of_right {j : Json} (h : Same j .null) : j = .null := by
  cases h with
  | null => rfl
  | number _ h => cases h

theorem items {js js' : List Json} (h : Same (.arr js) (.arr js')) : List.Forall₂ Same js js' := by
  cases h with
  | number h => cases h
  | arr h => exact h

theorem lookup {fs gs : List (String × Json)} (h : Same (.obj fs) (.obj gs)) (key : String) :
    Option.Rel Same (fs.lookup key) (gs.lookup key) := by
  cases h with
  | number h => cases h
  | obj h => exact h key

end Same

theorem lookup_zip_eq_none {key : String} {keys : List String} (h : key ∉ keys) (js : List Json) :
    (keys.zip js).lookup key = none := by
  rw [List.lookup_eq_none_iff]
  intro f hf
  have hf : f.fst ∈ keys := (List.of_mem_zip hf).left
  simpa using fun he : key = f.fst => h (he ▸ hf)

-- Objects with the same keys are the same field by field.
theorem same_values {keys : List String} {js js' : List Json} (hk : keys.Nodup)
    (hl : js.length = keys.length) (hl' : js'.length = keys.length)
    (h : Same (.obj (keys.zip js)) (.obj (keys.zip js'))) : List.Forall₂ Same js js' := by
  replace h := h.lookup
  induction keys generalizing js js' with
  | nil =>
    cases List.length_eq_zero_iff.mp hl
    cases List.length_eq_zero_iff.mp hl'
    exact .nil
  | cons k keys ih =>
    obtain ⟨hn, hk⟩ := List.nodup_cons.mp hk
    match js, js' with
    | j :: js, j' :: js' =>
      refine .cons ?_ (ih hk (Nat.succ.inj hl) (Nat.succ.inj hl') fun key => ?_)
      · have hj := h k
        simpa using hj
      · by_cases he : key = k
        · subst he
          rw [lookup_zip_eq_none hn, lookup_zip_eq_none hn]
          exact .none
        · have hb : (key == k) = false := by simpa using he
          have hj := h key
          simpa [List.lookup_cons, hb] using hj

end Json

namespace Encoding

variable {c c' : Encoding} {category category' : Category} {span span' : Span} {keys : List String}
variable {js js' : List Json}

theorem name_eq_of_same {fs fs' : List (String × Json)}
    (h : (c.object category span fs).Same (c'.object category' span' fs')) :
    (category.name : Text) = category'.name := by
  have node (c : Encoding) (category : Category) (span : Span) (fs : List (String × Json)) :
      (c.head category span ++ fs).lookup "node" = some (.str category.name) := by
    rw [head]
    split <;> rfl
  have h := h.lookup "node"
  rw [node, node] at h
  cases h with
  | some h => exact h.str_inj

theorem same_of_object (hs : c.spans = c'.spans) (hk : ("node" :: "span" :: keys).Nodup)
    (hl : js.length = keys.length) (hl' : js'.length = keys.length)
    (h : (c.object category span (keys.zip js)).Same (c'.object category' span' (keys.zip js'))) :
    (c.spans = true → span = span') ∧ List.Forall₂ Json.Same js js' := by
  cases hc : c.spans with
  | false =>
    rw [object, object, head, head, ←hs, hc] at h
    have hk := hk.sublist (.cons_cons _ (.cons _ (.refl keys)))
    have h : Json.Same (.obj (("node" :: keys).zip (.str category.name :: js)))
        (.obj (("node" :: keys).zip (.str category'.name :: js'))) := h
    cases Json.same_values hk (congrArg _ hl) (congrArg _ hl') h with
    | cons _ h => exact ⟨nofun, h⟩
  | true =>
    rw [object, object, head, head, ←hs, hc] at h
    have h : Json.Same
        (.obj (("node" :: "span" :: keys).zip
          (.str category.name :: .arr [.int span.lo, .int span.hi] :: js)))
        (.obj (("node" :: "span" :: keys).zip
          (.str category'.name :: .arr [.int span'.lo, .int span'.hi] :: js'))) := h
    cases Json.same_values hk (congrArg (· + 2) hl) (congrArg (· + 2) hl') h with
    | cons _ h =>
      cases h with
      | cons h hj =>
        refine ⟨fun _ => ?_, hj⟩
        cases h.items with
        | cons hlo h =>
          cases h with
          | cons hhi _ => exact Span.ext (Int.ofNat.inj hlo.int_inj) (Int.ofNat.inj hhi.int_inj)

end Encoding

section

variable {spans : Bool} {names names' : Names}

-- Steps of encodings that come to the same.
def Task.Same (spans : Bool) (names names' : Names) (t t' : Task Empty) : Prop :=
  ∃ j j', t.convert ⟨names, spans⟩ = some j ∧ t'.convert ⟨names', spans⟩ = some j' ∧ j.Same j'

theorem forall₂_of_mapM {α β : Type} {f : α → Option β} {as : List α} {bs : List β}
    (h : as.mapM f = some bs) : List.Forall₂ (fun a b => f a = some b) as bs := by
  induction as generalizing bs with
  | nil =>
    cases h
    exact .nil
  | cons a as ih =>
    simp only [List.mapM_cons, Option.bind_eq_bind, Option.bind_eq_some_iff] at h
    obtain ⟨b, hb, bs', hbs, h⟩ := h
    cases h
    exact .cons hb (ih hbs)

-- Steps that come to the same one by one.
theorem Task.same_of_mapM {ts ts' : List (Task Empty)} {js js' : List Json}
    (hj : ts.mapM (·.convert ⟨names, spans⟩) = some js)
    (hj' : ts'.mapM (·.convert ⟨names', spans⟩) = some js') (h : List.Forall₂ Json.Same js js') :
    List.Forall₂ (Task.Same spans names names') ts ts' := by
  replace hj := forall₂_of_mapM hj
  replace hj' := forall₂_of_mapM hj'
  induction h generalizing ts ts' with
  | nil =>
    cases hj
    cases hj'
    exact .nil
  | cons h _ ih =>
    cases hj with
    | cons ht hj =>
      cases hj' with
      | cons ht' hj' => exact .cons ⟨_, _, ht, ht', h⟩ (ih hj hj')

namespace Task.Same

theorem value {j j' : Json} (h : Task.Same spans names names' (.value j) (.value j')) : j.Same j' := by
  obtain ⟨_, _, hj, hj', h⟩ := h
  cases hj
  cases hj'
  exact h

theorem symbol {x x' : Symbol} (h : Task.Same spans names names' (.symbol x) (.symbol x')) :
    SameText names.text? names'.text? x x' := by
  obtain ⟨j, j', hj, hj', h⟩ := h
  obtain ⟨t, ht, rfl⟩ := Option.map_eq_some_iff.mp hj
  obtain ⟨t', ht', rfl⟩ := Option.map_eq_some_iff.mp hj'
  cases h.str_inj
  exact ⟨t, ht, ht'⟩

theorem stmts {ss ss' : List (Stmt Empty)}
    (h : Task.Same spans names names' (.stmts ss) (.stmts ss')) :
    List.Forall₂ (Task.Same spans names names') (ss.map fun s => .node (.stmt s))
      (ss'.map fun s => .node (.stmt s)) := by
  obtain ⟨j, j', hj, hj', h⟩ := h
  obtain ⟨js, hs, rfl⟩ := Option.map_eq_some_iff.mp hj
  obtain ⟨js', hs', rfl⟩ := Option.map_eq_some_iff.mp hj'
  rw [stmtsConvert_eq_mapM] at hs hs'
  exact same_of_mapM hs hs' h.items

end Task.Same

-- An object is made of the values of its fields.
theorem Node.exists_object {c : Encoding} {n : Node δ} {category : Category} {span : Span}
    {fields : List (String × Task δ)} (hn : n.shape = .object category span fields) {j : Json}
    (h : n.convert c = some j) : ∃ js, (fields.map (·.snd)).mapM (·.convert c) = some js ∧
      j = c.object category span ((fields.map (·.fst)).zip js) := by
  rw [←n.convert_shape, hn, Shape.convert, Option.bind_eq_bind, Option.bind_eq_some_iff] at h
  have ⟨js, hj, h⟩ := h
  exact ⟨js, hj, Option.some.inj h.symm⟩

section

variable {n n' : Node Empty} {category category' : Category} {span span' : Span}
variable {fields fields' : List (String × Task Empty)}

theorem Task.Same.name_eq (h : Task.Same spans names names' (.node n) (.node n'))
    (hn : n.shape = .object category span fields) (hn' : n'.shape = .object category' span' fields') :
    (category.name : Text) = category'.name := by
  obtain ⟨j, j', hj, hj', h⟩ := h
  obtain ⟨_, _, rfl⟩ := Node.exists_object hn hj
  obtain ⟨_, _, rfl⟩ := Node.exists_object hn' hj'
  exact Encoding.name_eq_of_same h

theorem Task.Same.parts (h : Task.Same spans names names' (.node n) (.node n'))
    (hn : n.shape = .object category span fields) (hn' : n'.shape = .object category' span' fields')
    (hk : fields.map (·.fst) = fields'.map (·.fst)) :
    (spans = true → span = span') ∧
      List.Forall₂ (Task.Same spans names names') (fields.map (·.snd)) (fields'.map (·.snd)) := by
  have hs := n.sound_shape
  rw [hn] at hs
  obtain ⟨j, j', hj, hj', h⟩ := h
  obtain ⟨js, hf, rfl⟩ := Node.exists_object hn hj
  obtain ⟨js', hf', rfl⟩ := Node.exists_object hn' hj'
  have hl := (forall₂_of_mapM hf).length_eq
  have hl' := (forall₂_of_mapM hf').length_eq
  rw [List.length_map, ←List.length_map (·.fst)] at hl hl'
  rw [←hk] at h hl'
  have ⟨he, hv⟩ := Encoding.same_of_object rfl hs.right hl.symm hl'.symm h
  exact ⟨he, Task.same_of_mapM hf hf' hv⟩

end

-- Spans that are the same if they are compared.
def Span.SameIf (spans : Bool) (s s' : Span) : Prop :=
  spans = true → s = s'

theorem Literal.eq_of_same {v v' : Literal Empty} (hl : v.label = v'.label)
    (hv : v.toJson.Same v'.toJson) : v = v' := by
  have apart : ("num" : Text) ≠ "bool" := by decide
  cases v with
  | loose ok => cases ok
  | num n =>
    cases v' with
    | loose ok => cases ok
    | num n' => exact congrArg _ hv.int_inj
    | bool => exact absurd hl apart
  | bool b =>
    cases v' with
    | loose ok => cases ok
    | num => exact absurd hl apart.symm
    | bool b' =>
      cases hv with
      | number h h' =>
        have h := Option.some.inj (h.trans h'.symm)
        cases b <;> cases b' <;> first | rfl | cases h

-- Nothing of a tree is the same as what stands for something missing.
theorem Expr.not_same_null (e : Program) :
    ¬ Task.Same spans names names' (.value .null) (.node (.expr e)) ∧
      ¬ Task.Same spans names names' (.node (.expr e)) (.value .null) := by
  obtain ⟨category, span, fields, hn⟩ : ∃ category span fields,
      (Node.expr e).shape = .object category span fields := by
    cases e with
    | strayBody ok | strayStmt ok | strayBlock ok | strayAtom ok => cases ok
    | _ => exact ⟨_, _, _, rfl⟩
  constructor
  · rintro ⟨j, j', hj, hj', h⟩
    obtain ⟨js, _, rfl⟩ := Node.exists_object hn hj'
    cases hj
    cases h.eq_null_of_left
  · rintro ⟨j, j', hj, hj', h⟩
    obtain ⟨js, _, rfl⟩ := Node.exists_object hn hj
    cases hj'
    cases h.eq_null_of_right

theorem Task.Same.type {type type' : Option Symbol}
    (h : Task.Same spans names names' (type.elim (.value .null) .symbol)
      (type'.elim (.value .null) .symbol)) :
    Option.Rel (SameText names.text? names'.text?) type type' := by
  match type, type', h with
  | none, none, _ => exact .none
  | some x, some x', h => exact .some (symbol h)
  | none, some x', ⟨j, j', hj, hj', h⟩ =>
    obtain ⟨t, _, rfl⟩ := Option.map_eq_some_iff.mp hj'
    cases hj
    cases h.eq_null_of_left
  | some x, none, ⟨j, j', hj, hj', h⟩ =>
    obtain ⟨t, _, rfl⟩ := Option.map_eq_some_iff.mp hj
    cases hj'
    cases h.eq_null_of_right

mutual

-- Encodings that are the same tell that expressions are alike.
theorem Expr.alike_of_same : (e e' : Program) →
    Task.Same spans names names' (.node (.expr e)) (.node (.expr e')) →
    Expr.Alike (Span.SameIf spans) (SameText names.text? names'.text?) e e'
  | .literal s v, e', h => by
    cases e' with
    | strayBody ok | strayStmt ok | strayBlock ok | strayAtom ok => cases ok
    | literal s' v' =>
      have ⟨hs, hf⟩ := h.parts rfl rfl rfl
      cases hf with
      | cons hl hf =>
        cases hf with
        | cons hv _ =>
          cases Literal.eq_of_same hl.value.str_inj hv.value
          exact .literal hs
    | _ => exact absurd (h.name_eq rfl rfl) (by decide)
  | .unary s .neg e, e', h => by
    cases e' with
    | strayBody ok | strayStmt ok | strayBlock ok | strayAtom ok => cases ok
    | unary s' op' e' =>
      cases op'
      have ⟨hs, hf⟩ := h.parts rfl rfl rfl
      cases hf with
      | cons _ hf =>
        cases hf with
        | cons he _ => exact .unary hs (e.alike_of_same e' he)
    | _ => exact absurd (h.name_eq rfl rfl) (by decide)
  | .binary s op l r, e', h => by
    cases e' with
    | strayBody ok | strayStmt ok | strayBlock ok | strayAtom ok => cases ok
    | binary s' op' l' r' =>
      have ⟨hs, hf⟩ := h.parts rfl rfl rfl
      cases hf with
      | cons ho hf =>
        cases hf with
        | cons hl hf =>
          cases hf with
          | cons hr _ =>
            cases BinOp.spelling_inj ho.value.str_inj
            exact .binary hs (l.alike_of_same l' hl) (r.alike_of_same r' hr)
    | _ => exact absurd (h.name_eq rfl rfl) (by decide)
  | .grouping s e, e', h => by
    cases e' with
    | strayBody ok | strayStmt ok | strayBlock ok | strayAtom ok => cases ok
    | grouping s' e' =>
      have ⟨hs, hf⟩ := h.parts rfl rfl rfl
      cases hf with
      | cons he _ => exact .grouping hs (e.alike_of_same e' he)
    | _ => exact absurd (h.name_eq rfl rfl) (by decide)
  | .cond s c t e, e', h => by
    cases e' with
    | strayBody ok | strayStmt ok | strayBlock ok | strayAtom ok => cases ok
    | cond s' c' t' e' =>
      have ⟨hs, hf⟩ := h.parts rfl rfl rfl
      cases hf with
      | cons hc hf =>
        cases hf with
        | cons ht hf =>
          cases hf with
          | cons he _ =>
            exact .cond hs (c.alike_of_same c' hc) (t.alike_of_same t' ht) (e.alike_of_same e' he)
    | _ => exact absurd (h.name_eq rfl rfl) (by decide)
  | .block s (.mk b ss), e', h => by
    cases e' with
    | strayBody ok | strayStmt ok | strayBlock ok | strayAtom ok => cases ok
    | block s' body =>
      obtain ⟨b', ss'⟩ := body
      have ⟨hs, hf⟩ := h.parts rfl rfl rfl
      cases hf with
      | cons hb _ =>
        have ⟨hb, hf⟩ := hb.parts rfl rfl rfl
        cases hf with
        | cons hss _ => exact .block hs hb (stmtsAlike_of_same ss ss' hss.stmts)
    | _ => exact absurd (h.name_eq rfl rfl) (by decide)

theorem stmtsAlike_of_same : (ss ss' : List (Stmt Empty)) →
    List.Forall₂ (Task.Same spans names names') (ss.map fun s => .node (.stmt s))
      (ss'.map fun s => .node (.stmt s)) →
    Stmts.Alike (Span.SameIf spans) (SameText names.text? names'.text?) ss ss'
  | [], [], _ => .nil
  | s :: ss, s' :: ss', h => by
    cases h with
    | cons h hss => exact .cons (s.alike_of_same s' h) (stmtsAlike_of_same ss ss' hss)

theorem Stmt.alike_of_same : (s s' : Stmt Empty) →
    Task.Same spans names names' (.node (.stmt s)) (.node (.stmt s')) →
    Stmt.Alike (Span.SameIf spans) (SameText names.text? names'.text?) s s'
  | .declare s x type init, s', h => by
    cases s' with
    | strayExpr ok | strayBlock ok | strayAtom ok => cases ok
    | declare s' x' type' init' =>
      have ⟨hs, hf⟩ := h.parts rfl rfl rfl
      cases hf with
      | cons hx hf =>
        cases hf with
        | cons ht hf =>
          cases hf with
          | cons hi _ =>
            exact .declare hs hx.symbol (Task.Same.type ht) (initAlike_of_same init init' hi)
    | _ => exact absurd (h.name_eq rfl rfl) (by decide)
  | .assign s x e, s', h => by
    cases s' with
    | strayExpr ok | strayBlock ok | strayAtom ok => cases ok
    | assign s' x' e' =>
      have ⟨hs, hf⟩ := h.parts rfl rfl rfl
      cases hf with
      | cons hx hf =>
        cases hf with
        | cons he _ => exact .assign hs hx.symbol (e.alike_of_same e' he)
    | _ => exact absurd (h.name_eq rfl rfl) (by decide)
  | .discard s e, s', h => by
    cases s' with
    | strayExpr ok | strayBlock ok | strayAtom ok => cases ok
    | discard s' e' =>
      have ⟨hs, hf⟩ := h.parts rfl rfl rfl
      cases hf with
      | cons he _ => exact .discard hs (e.alike_of_same e' he)
    | _ => exact absurd (h.name_eq rfl rfl) (by decide)
  | .result s e, s', h => by
    cases s' with
    | strayExpr ok | strayBlock ok | strayAtom ok => cases ok
    | result s' e' =>
      have ⟨hs, hf⟩ := h.parts rfl rfl rfl
      cases hf with
      | cons he _ => exact .result hs (e.alike_of_same e' he)
    | _ => exact absurd (h.name_eq rfl rfl) (by decide)

theorem initAlike_of_same : (init init' : Option Program) →
    Task.Same spans names names' (init.elim (.value .null) fun e => .node (.expr e))
      (init'.elim (.value .null) fun e => .node (.expr e)) →
    Init.Alike (Span.SameIf spans) (SameText names.text? names'.text?) init init'
  | none, none, _ => .none
  | some e, some e', h => .some (e.alike_of_same e' h)
  | none, some e', h => absurd h e'.not_same_null.left
  | some e, none, h => absurd h e.not_same_null.right

end

-- Trees whose encodings are the same are alike, to their spans if the encodings have spans.
theorem Expr.alike_of_encode {e e' : Program} {j j' : Json} (h : e.encode ⟨names, spans⟩ = .ok j)
    (h' : e'.encode ⟨names', spans⟩ = .ok j') (hs : j.Same j') :
    Expr.Alike (Span.SameIf spans) (SameText names.text? names'.text?) e e' :=
  e.alike_of_same e' ⟨j, j', Node.encode_eq_ok_iff.mp h, Node.encode_eq_ok_iff.mp h', hs⟩

theorem Span.SameIf.object_eq (names names' : Names) {s s' : Span} (h : Span.SameIf spans s s')
    (category : Category) (fields : List (String × Json)) :
    Encoding.object ⟨names, spans⟩ category s fields =
      Encoding.object ⟨names', spans⟩ category s' fields := by
  rw [Encoding.object, Encoding.object, Encoding.head, Encoding.head]
  cases spans with
  | false => rfl
  | true => rw [h rfl]

theorem symbol?_eq {x x' : Symbol} (h : SameText names.text? names'.text? x x') :
    Encoding.symbol? ⟨names, spans⟩ x = Encoding.symbol? ⟨names', spans⟩ x' := by
  have ⟨t, ht, ht'⟩ := h
  rw [Encoding.symbol?, Encoding.symbol?, ht, ht']

theorem type?_eq {type type' : Option Symbol}
    (h : Option.Rel (SameText names.text? names'.text?) type type') :
    Encoding.type? ⟨names, spans⟩ type = Encoding.type? ⟨names', spans⟩ type' := by
  cases h with
  | none => rfl
  | some h => exact symbol?_eq h

mutual

-- Trees that are alike are converted into the same.
theorem Expr.Alike.convert_eq :
    Expr.Alike (Span.SameIf spans) (SameText names.text? names'.text?) e e' →
    e.convert ⟨names, spans⟩ = e'.convert ⟨names', spans⟩
  | .literal hs => by rw [Expr.convert, Expr.convert, hs.object_eq names names']
  | .unary hs h => by simp only [Expr.convert, h.convert_eq, hs.object_eq names names']
  | .binary hs hl hr => by simp only [Expr.convert, hl.convert_eq, hr.convert_eq, hs.object_eq names names']
  | .grouping hs h => by simp only [Expr.convert, h.convert_eq, hs.object_eq names names']
  | .cond hs hc ht he => by
    simp only [Expr.convert, hc.convert_eq, ht.convert_eq, he.convert_eq, hs.object_eq names names']
  | .block hs hb h => by
    simp only [Expr.convert, Block.convert, h.convert_eq, hb.object_eq names names',
      hs.object_eq names names']

theorem Stmts.Alike.convert_eq :
    Stmts.Alike (Span.SameIf spans) (SameText names.text? names'.text?) ss ss' →
    stmtsConvert ⟨names, spans⟩ ss = stmtsConvert ⟨names', spans⟩ ss'
  | .nil => rfl
  | .cons hs h => by rw [stmtsConvert, stmtsConvert, hs.convert_eq, h.convert_eq]

theorem Stmt.Alike.convert_eq :
    Stmt.Alike (Span.SameIf spans) (SameText names.text? names'.text?) s s' →
    s.convert ⟨names, spans⟩ = s'.convert ⟨names', spans⟩
  | .declare hs hx ht hi => by
    simp only [Stmt.convert, symbol?_eq hx, type?_eq ht, hi.convert_eq, hs.object_eq names names']
  | .assign hs hx h => by simp only [Stmt.convert, symbol?_eq hx, h.convert_eq, hs.object_eq names names']
  | .discard hs h | .result hs h => by simp only [Stmt.convert, h.convert_eq, hs.object_eq names names']

theorem Init.Alike.convert_eq :
    Init.Alike (Span.SameIf spans) (SameText names.text? names'.text?) init init' →
    initConvert ⟨names, spans⟩ init = initConvert ⟨names', spans⟩ init'
  | .none => rfl
  | .some h => by rw [initConvert, initConvert, h.convert_eq]

end

end
end ExprLang
