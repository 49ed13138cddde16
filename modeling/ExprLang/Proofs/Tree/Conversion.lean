import ExprLang.Tree.Encode

/-!
The plain recursive conversion of a tree into a value: a part becomes an object that is tagged with its
category, a sequence of statements becomes an array, a symbol becomes its name and an operator its text.
The steps by which a tree is encoded come to the same value, and they fail where it has none.
-/
namespace ExprLang

variable {δ : Type}

-- How a symbol is written, if it can be.
def Names.text? (names : Names) (s : Symbol) : Option Text :=
  (names.name s).toOption

namespace Encoding

def object (c : Encoding) (category : Category) (span : Span) (fields : List (String × Json)) : Json :=
  .obj (c.head category span ++ fields)

def symbol? (c : Encoding) (s : Symbol) : Option Json :=
  (c.names.text? s).map .str

def type? (c : Encoding) : Option Symbol → Option Json
  | none => some .null
  | some s => c.symbol? s

end Encoding

mutual

-- The value of a tree. There is none if a symbol of the tree has no name.
def Expr.convert (c : Encoding) : Expr δ → Option Json
  | .literal span v =>
    some (c.object .literal span [("kind", .str v.label), ("value", v.toJson)])
  | .unary span op e => do
    return c.object .unary span [("op", .str op.spelling), ("operand", ← e.convert c)]
  | .binary span op l r => do
    return c.object .binary span
      [("op", .str op.spelling), ("left", ← l.convert c), ("right", ← r.convert c)]
  | .grouping span e => do
    return c.object .grouping span [("expr", ← e.convert c)]
  | .cond span p t e => do
    return c.object .cond span
      [("cond", ← p.convert c), ("then", ← t.convert c), ("else_", ← e.convert c)]
  | .block span b => do
    return c.object .blockExpr span [("block", ← b.convert c)]
  | .strayBody _ span body => do
    return c.object .blockExpr span [("block", ← body.convert c)]
  | .strayStmt _ s => s.convert c
  | .strayBlock _ b => b.convert c
  | .strayAtom _ a => some a.toJson

def Stmt.convert (c : Encoding) : Stmt δ → Option Json
  | .declare span ident type init => do
    return c.object .declare span
      [("ident", ← c.symbol? ident), ("type", ← c.type? type), ("init", ← initConvert c init)]
  | .assign span ident value => do
    return c.object .assign span [("ident", ← c.symbol? ident), ("value", ← value.convert c)]
  | .discard span e => do
    return c.object .discard span [("expr", ← e.convert c)]
  | .result span e => do
    return c.object .result span [("expr", ← e.convert c)]
  | .strayExpr _ e => e.convert c
  | .strayBlock _ b => b.convert c
  | .strayAtom _ a => some a.toJson

def Block.convert (c : Encoding) : Block δ → Option Json
  | .mk span ss => do
    return c.object .block span [("stmts", .arr (← stmtsConvert c ss))]

def stmtsConvert (c : Encoding) : List (Stmt δ) → Option (List Json)
  | [] => some []
  | s :: ss => do
    return (← s.convert c) :: (← stmtsConvert c ss)

def initConvert (c : Encoding) : Option (Expr δ) → Option Json
  | none => some .null
  | some e => e.convert c

end

def Node.convert (c : Encoding) : Node δ → Option Json
  | .expr e => e.convert c
  | .stmt s => s.convert c
  | .block b => b.convert c

-- The value of what a field holds. The other two steps are for values that are done.
def Task.convert (c : Encoding) : Task δ → Option Json
  | .node n => n.convert c
  | .stmts ss => (stmtsConvert c ss).map .arr
  | .symbol s => c.symbol? s
  | .value j => some j
  | .object .. | .array _ => none

def Shape.convert (c : Encoding) : Shape δ → Option Json
  | .value j => some j
  | .object category span fields => do
    let values ← (fields.map (·.snd)).mapM (·.convert c)
    return c.object category span ((fields.map (·.fst)).zip values)

section

variable {c : Encoding}

theorem stmtsConvert_eq_mapM (ss : List (Stmt δ)) :
    stmtsConvert c ss = (ss.map fun s => Task.node (.stmt s)).mapM (·.convert c) := by
  induction ss with
  | nil => rfl
  | cons s ss ih => simp [stmtsConvert, ih, Task.convert, Node.convert]

theorem Block.convert_shape (b : Block δ) :
    (Shape.object .block b.span [("stmts", .stmts b.stmts)]).convert c = b.convert c := by
  cases b with
  | mk span ss =>
    simp [Shape.convert, Task.convert, Block.convert, Block.span, Block.stmts, Option.bind_map,
      Option.bind_assoc]

mutual

theorem Expr.convert_shape : (e : Expr δ) → e.shape.convert c = e.convert c
  | .literal .. => rfl
  | .unary .. | .binary .. | .grouping .. | .cond .. | .block .. | .strayBody .. => by
    simp [Expr.shape, Shape.convert, Task.convert, Node.convert, Expr.convert, Option.bind_assoc]
  | .strayStmt _ s => by simpa [Expr.shape, Expr.convert] using s.convert_shape
  | .strayBlock _ b => by simpa [Expr.shape, Expr.convert] using b.convert_shape
  | .strayAtom .. => rfl

theorem Stmt.convert_shape : (s : Stmt δ) → s.shape.convert c = s.convert c
  | .declare _ _ type init => by
    cases type <;> cases init <;>
      simp [Stmt.shape, Shape.convert, Task.convert, Node.convert, Stmt.convert, Encoding.type?,
        initConvert, Option.bind_assoc]
  | .assign .. | .discard .. | .result .. => by
    simp [Stmt.shape, Shape.convert, Task.convert, Node.convert, Stmt.convert, Option.bind_assoc]
  | .strayExpr _ e => by simpa [Stmt.shape, Stmt.convert] using e.convert_shape
  | .strayBlock _ b => by simpa [Stmt.shape, Stmt.convert] using b.convert_shape
  | .strayAtom .. => rfl

end

theorem Node.convert_shape : (n : Node δ) → n.shape.convert c = n.convert c
  | .expr e => e.convert_shape
  | .stmt s => s.convert_shape
  | .block b => b.convert_shape

end

theorem le_total_of_mem {α : Type} (f : α → Nat) {x : α} {xs : List α} (h : x ∈ xs) :
    f x ≤ total f xs := by
  induction h with
  | head => exact Nat.le_add_right _ _
  | tail _ _ ih => exact Nat.le_add_left_of_le ih

-- A step that starts with something of the tree.
inductive Task.Source : Task δ → Prop
  | node : Source (.node n)
  | stmts : Source (.stmts ss)
  | symbol : Source (.symbol s)
  | value : Source (.value j)

theorem Task.steps_lt_stmts {ss : List (Stmt δ)} {s : Stmt δ} (h : s ∈ ss) :
    (Task.node (.stmt s)).steps < (Task.stmts ss).steps := by
  have hs := le_total_of_mem Stmt.steps h
  rw [←stmtsSteps_eq_total] at hs
  simp only [Task.steps, Node.steps]
  omega

theorem Task.steps_lt_node {n : Node δ} {category : Category} {span : Span}
    {fields : List (String × Task δ)} (hn : n.shape = .object category span fields)
    {f : String × Task δ} (h : f ∈ fields) : f.snd.steps < (Task.node n).steps := by
  have hf := le_total_of_mem (fun f : String × Task δ => f.snd.steps) h
  have hs := n.steps_shape
  rw [hn, Shape.steps] at hs
  change f.snd.steps < n.steps
  omega

-- The fields of an object are still to be encoded, and no two of its keys are the same.
def Shape.Sound : Shape δ → Prop
  | .value _ => True
  | .object _ _ fields =>
    (∀ f ∈ fields, f.snd.Source) ∧ ("node" :: "span" :: fields.map (·.fst)).Nodup

mutual

theorem Expr.sound_shape : (e : Expr δ) → e.shape.Sound
  | .literal .. => ⟨by simp [Task.Source.value], by simp⟩
  | .unary .. => ⟨by simp [Task.Source.value, Task.Source.node], by simp⟩
  | .binary .. => ⟨by simp [Task.Source.value, Task.Source.node], by simp⟩
  | .grouping .. => ⟨by simp [Task.Source.node], by simp⟩
  | .cond .. => ⟨by simp [Task.Source.node], by simp⟩
  | .block .. => ⟨by simp [Task.Source.node], by simp⟩
  | .strayBody .. => ⟨by simp [Task.Source.node], by simp⟩
  | .strayStmt _ s => s.sound_shape
  | .strayBlock .. => ⟨by simp [Task.Source.stmts], by simp⟩
  | .strayAtom .. => trivial

theorem Stmt.sound_shape : (s : Stmt δ) → s.shape.Sound
  | .declare _ _ type init => by
    refine ⟨?_, by simp⟩
    cases type <;> cases init <;>
      simp [Task.Source.value, Task.Source.node, Task.Source.symbol]
  | .assign .. => ⟨by simp [Task.Source.symbol, Task.Source.node], by simp⟩
  | .discard .. => ⟨by simp [Task.Source.node], by simp⟩
  | .result .. => ⟨by simp [Task.Source.node], by simp⟩
  | .strayExpr _ e => e.sound_shape
  | .strayBlock .. => ⟨by simp [Task.Source.stmts], by simp⟩
  | .strayAtom .. => trivial

end

theorem Node.sound_shape : (n : Node δ) → n.shape.Sound
  | .expr e => e.sound_shape
  | .stmt s => s.sound_shape
  | .block _ => ⟨by simp [Task.Source.stmts], by simp⟩

-- What is shown of the values that a tree starts with, of its symbols and, from their parts, of sequences of
-- statements and of the parts of a tree holds of every step that starts with something of a tree.
@[elab_as_elim]
theorem Task.Source.rec_steps {P : Task δ → Prop} (value : ∀ j, P (.value j))
    (symbol : ∀ s, P (.symbol s))
    (stmts : ∀ ss : List (Stmt δ), (∀ t ∈ ss.map fun s => .node (.stmt s), P t) → P (.stmts ss))
    (leaf : ∀ n j, n.shape = .value j → P (.node n))
    (object : ∀ n category span fields, n.shape = .object category span fields →
      (∀ t ∈ fields.map (·.snd), P t) → P (.node n)) {t : Task δ} (h : t.Source) : P t := by
  induction hm : t.steps using Nat.strongRecOn generalizing t with
  | ind m ih =>
    subst hm
    cases h with
    | value => exact value _
    | symbol => exact symbol _
    | stmts =>
      refine stmts _ fun t ht => ?_
      obtain ⟨s, hs, rfl⟩ := List.mem_map.mp ht
      exact ih _ (Task.steps_lt_stmts hs) .node rfl
    | @node n =>
      cases hn : n.shape with
      | value j => exact leaf n j hn
      | object category span fields =>
        have hs := n.sound_shape
        rw [hn] at hs
        refine object n category span fields hn fun t ht => ?_
        obtain ⟨f, hf, rfl⟩ := List.mem_map.mp ht
        exact ih _ (Task.steps_lt_node hn hf) (hs.left f hf) rfl

namespace Encoding

variable (c : Encoding)

-- What a step comes to on its own.
def outcome (t : Task δ) : Except RenderError Json := do
  return (← c.run [t] []).headD .null

-- What steps come to if the last one is taken first.
def outcomes : List (Task δ) → Except RenderError (List Json)
  | [] => .ok []
  | t :: ts => do
    let js ← outcomes ts
    let j ← c.outcome t
    return j :: js

-- A step puts its value in front of the values that were there before, or it fails.
def Comes (t : Task δ) (r : Except RenderError Json) : Prop :=
  ∀ tasks done, c.run (t :: tasks) done = r >>= fun j => c.run tasks (j :: done)

variable {c}

theorem Comes.outcome_eq {t : Task δ} {r : Except RenderError Json} (h : c.Comes t r) :
    c.outcome t = r := by
  rw [outcome, h]
  cases r with
  | error => rfl
  | ok j =>
    change (c.run [] [j] >>= _) = _
    rw [run]
    rfl

theorem run_reverse_append {ts : List (Task δ)} (h : ∀ t ∈ ts, c.Comes t (c.outcome t))
    (tasks : List (Task δ)) (done : List Json) :
    c.run (ts.reverse ++ tasks) done = c.outcomes ts >>= fun js => c.run tasks (js ++ done) := by
  induction ts generalizing tasks with
  | nil => rfl
  | cons t ts ih =>
    obtain ⟨ht, h⟩ := List.forall_mem_cons.mp h
    have hr : (t :: ts).reverse ++ tasks = ts.reverse ++ t :: tasks := by simp
    rw [hr, ih h, outcomes]
    cases c.outcomes ts with
    | error => rfl
    | ok js =>
      change c.run (t :: tasks) (js ++ done) = _
      rw [ht]
      cases c.outcome t with
      | error => rfl
      | ok j => rfl

theorem length_of_outcomes {ts : List (Task δ)} {js : List Json} (h : c.outcomes ts = .ok js) :
    js.length = ts.length := by
  induction ts generalizing js with
  | nil =>
    cases h
    rfl
  | cons t ts ih =>
    rw [outcomes] at h
    cases hj : c.outcomes ts with
    | error =>
      rw [hj] at h
      cases h
    | ok us =>
      rw [hj] at h
      cases ht : c.outcome t with
      | error =>
        rw [ht] at h
        cases h
      | ok j =>
        rw [ht] at h
        cases h
        rw [List.length_cons, List.length_cons, ih hj]

theorem comes_value (j : Json) : c.Comes (.value j : Task δ) (.ok j) := by
  intro tasks done
  rw [run]
  rfl

theorem comes_symbol (s : Symbol) : c.Comes (.symbol s : Task δ) (.str <$> c.names.name s) := by
  intro tasks done
  rw [run]
  cases c.names.name s <;> rfl

theorem comes_stmts {ss : List (Stmt δ)}
    (h : ∀ t ∈ ss.map fun s => .node (.stmt s), c.Comes t (c.outcome t)) :
    c.Comes (.stmts ss) (.arr <$> c.outcomes (ss.map fun s => .node (.stmt s))) := by
  intro tasks done
  rw [run, run_reverse_append h]
  cases hj : c.outcomes (ss.map fun s => .node (.stmt s)) with
  | error => rfl
  | ok js =>
    have hl := length_of_outcomes hj
    rw [List.length_map] at hl
    change c.run (.array ss.length :: tasks) (js ++ done) = c.run tasks (.arr js :: done)
    rw [run, ←hl, List.take_left, List.drop_left]

theorem comes_node_value {n : Node δ} {j : Json} (hn : n.shape = .value j) :
    c.Comes (.node n) (.ok j) := by
  intro tasks done
  rw [run]
  split
  case h_1 hn' =>
    cases hn.symm.trans hn'
    rfl
  case h_2 hn' => cases hn.symm.trans hn'

theorem comes_node_object {n : Node δ} {category : Category} {span : Span}
    {fields : List (String × Task δ)} (hn : n.shape = .object category span fields)
    (h : ∀ t ∈ fields.map (·.snd), c.Comes t (c.outcome t)) :
    c.Comes (.node n) ((fun js => c.object category span ((fields.map (·.fst)).zip js)) <$>
      c.outcomes (fields.map (·.snd))) := by
  intro tasks done
  rw [run]
  split
  case h_1 hn' => cases hn.symm.trans hn'
  case h_2 hn' =>
    cases hn.symm.trans hn'
    rw [run_reverse_append h]
    cases hj : c.outcomes (fields.map (·.snd)) with
    | error => rfl
    | ok js =>
      have hl := length_of_outcomes hj
      change c.run (.object _ (fields.map (·.fst)) :: tasks) (js ++ done) = c.run tasks (_ :: done)
      have hk : (fields.map (·.fst)).length = js.length := by simp [hl]
      have hz := @List.zip_append _ _ (fields.map (·.fst)) [] js done hk
      rw [List.append_nil, List.zip_nil_left, List.append_nil] at hz
      rw [run, hz, hk, List.drop_left]
      rfl

-- Every step that starts with something of the tree comes to what it comes to on its own.
theorem comes_outcome {t : Task δ} (h : t.Source) : c.Comes t (c.outcome t) := by
  refine h.rec_steps ?value ?symbol ?stmts ?leaf ?object
  case value => exact fun j => (comes_value j).outcome_eq ▸ comes_value j
  case symbol => exact fun s => (comes_symbol s).outcome_eq ▸ comes_symbol s
  case stmts => exact fun ss hs => (comes_stmts hs).outcome_eq ▸ comes_stmts hs
  case leaf => exact fun n j hn => (comes_node_value hn).outcome_eq ▸ comes_node_value hn
  case object =>
    exact fun n _ _ _ hn hf => (comes_node_object hn hf).outcome_eq ▸ comes_node_object hn hf

@[simp]
theorem outcome_value (j : Json) : c.outcome (.value j : Task δ) = .ok j :=
  (comes_value j).outcome_eq

@[simp]
theorem outcome_symbol (s : Symbol) :
    c.outcome (.symbol s : Task δ) = .str <$> c.names.name s :=
  (comes_symbol s).outcome_eq

theorem outcome_stmts (ss : List (Stmt δ)) :
    c.outcome (.stmts ss) = .arr <$> c.outcomes (ss.map fun s => .node (.stmt s)) := by
  refine (comes_stmts fun t ht => ?_).outcome_eq
  obtain ⟨s, _, rfl⟩ := List.mem_map.mp ht
  exact comes_outcome .node

theorem outcome_node_value {n : Node δ} {j : Json} (hn : n.shape = .value j) :
    c.outcome (.node n) = .ok j :=
  (comes_node_value hn).outcome_eq

theorem outcome_node_object {n : Node δ} {category : Category} {span : Span}
    {fields : List (String × Task δ)} (hn : n.shape = .object category span fields) :
    c.outcome (.node n) = (fun js => c.object category span ((fields.map (·.fst)).zip js)) <$>
      c.outcomes (fields.map (·.snd)) := by
  have hs := n.sound_shape
  rw [hn] at hs
  refine (comes_node_object hn fun t ht => ?_).outcome_eq
  obtain ⟨f, hf, rfl⟩ := List.mem_map.mp ht
  exact comes_outcome (hs.left f hf)

-- In which order the steps are taken does not matter to their values.
theorem toOption_outcomes {ts : List (Task δ)} (h : ∀ t ∈ ts, (c.outcome t).toOption = t.convert c) :
    (c.outcomes ts).toOption = ts.mapM (·.convert c) := by
  induction ts with
  | nil => rfl
  | cons t ts ih =>
    obtain ⟨ht, h⟩ := List.forall_mem_cons.mp h
    rw [List.mapM_cons, ←ih h, ←ht, outcomes]
    cases c.outcomes ts <;> cases c.outcome t <;> rfl

-- A step comes to the value of what it starts with.
theorem toOption_outcome {t : Task δ} (h : t.Source) : (c.outcome t).toOption = t.convert c := by
  refine h.rec_steps ?value ?symbol ?stmts ?leaf ?object
  case value => exact fun j => congrArg Except.toOption (outcome_value j)
  case symbol =>
    intro s
    rw [outcome_symbol, Task.convert, symbol?, Names.text?]
    cases c.names.name s <;> rfl
  case stmts =>
    intro ss hs
    rw [Task.convert, stmtsConvert_eq_mapM, ←toOption_outcomes hs, outcome_stmts]
    cases c.outcomes (ss.map fun s => .node (.stmt s)) <;> rfl
  case leaf =>
    intro n j hn
    rw [outcome_node_value hn, Task.convert, ←n.convert_shape, hn]
    rfl
  case object =>
    intro n category span fields hn hf
    rw [outcome_node_object hn, Task.convert, ←n.convert_shape, hn, Shape.convert, ←toOption_outcomes hf]
    cases c.outcomes (fields.map (·.snd)) <;> rfl

end Encoding

-- The encoding of a tree is its value, and it fails only if it has none.
theorem Node.toOption_encode (c : Encoding) (n : Node δ) : (n.encode c).toOption = n.convert c :=
  Encoding.toOption_outcome .node

theorem Node.encode_eq_ok_iff {c : Encoding} {n : Node δ} {j : Json} :
    n.encode c = .ok j ↔ n.convert c = some j := by
  rw [←n.toOption_encode]
  cases n.encode c <;> simp [Except.toOption]

end ExprLang
