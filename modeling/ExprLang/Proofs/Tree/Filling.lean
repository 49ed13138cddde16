import Mathlib
import ExprLang.Proofs.Tree.Conversion

/-!
Encoding by filling. Containers are made with all their keys and with nothing under them, and they are put
where they belong at once. What belongs into them is filled in later, through the place that it was made
for, and the last thing that was put off comes first. What comes out is the encoding, with all filled in.
-/
namespace ExprLang

variable {δ : Type}

namespace Filling

-- What is found under a key of a container.
inductive Slot
  | hole
  | value (j : Json)
  | container (k : Nat)

inductive Key
  | name (s : String)
  | index (i : Nat)

inductive Container
  | object (fields : List (String × Slot))
  | array (items : List Slot)

def Container.set : Container → Key → Slot → Container
  | .object fields, .name key, x => .object (fields.map fun f => if f.fst = key then (key, x) else f)
  | .array items, .index i, x => .array (items.set i x)
  | a, _, _ => a

-- Where a value belongs.
inductive Target
  | root
  | inside (k : Nat) (key : Key)

-- The place for the whole and the containers, in the order in which they were made.
structure Store where
  root : Slot
  containers : List Container

namespace Store

def empty : Store where
  root := .hole
  containers := []

-- The number of the container that is made next.
def size (σ : Store) : Nat :=
  σ.containers.length

def put (σ : Store) : Target → Slot → Store
  | .root, x => { σ with root := x }
  | .inside k key, x => { σ with containers := σ.containers.modify k (·.set key x) }

def extend (σ : Store) (cs : List Container) : Store where
  root := σ.root
  containers := σ.containers ++ cs

end Store

-- What belongs into the fields of an object.
def fieldsIn (k : Nat) (fields : List (String × Task δ)) : List (Task δ × Target) :=
  fields.map fun f => (f.snd, .inside k (.name f.fst))

-- What belongs into an array of statements.
def itemsIn (k : Nat) (ss : List (Stmt δ)) : List (Task δ × Target) :=
  ss.zipIdx.map fun s => (.node (.stmt s.fst), .inside k (.index s.snd))

theorem map_fst_fieldsIn (k : Nat) (fields : List (String × Task δ)) :
    (fieldsIn k fields).map (·.fst) = fields.map (·.snd) := by
  simp [fieldsIn]

theorem map_node_zipIdx (ss : List (Stmt δ)) :
    (ss.zipIdx.map fun s => Task.node (.stmt s.fst)) = ss.map fun s => .node (.stmt s) := by
  conv_rhs => rw [←List.zipIdx_map_fst 0 ss, List.map_map]
  rfl

theorem map_fst_itemsIn (k : Nat) (ss : List (Stmt δ)) :
    (itemsIn k ss).map (·.fst) = ss.map fun s => .node (.stmt s) := by
  rw [itemsIn, List.map_map, ←map_node_zipIdx]
  rfl

def steps (work : List (Task δ × Target)) : Nat :=
  total Task.steps (work.map (·.fst))

-- Works off what was put off, each thing with its place.
def run (c : Encoding) : List (Task δ × Target) → Store → Except RenderError Store
  | [], σ => .ok σ
  | (.value j, p) :: work, σ => run c work (σ.put p (.value j))
  | (.symbol s, p) :: work, σ => do
    let name ← c.names.name s
    run c work (σ.put p (.value (.str name)))
  | (.stmts ss, p) :: work, σ =>
    let array := .array (.replicate ss.length .hole)
    run c ((itemsIn σ.size ss).reverse ++ work) ((σ.put p (.container σ.size)).extend [array])
  | (.node n, p) :: work, σ =>
    match _h : n.shape with
    | .value j => run c work (σ.put p (.value j))
    | .object category span fields =>
      let head := (c.head category span).map fun f => (f.fst, .value f.snd)
      let object := .object (head ++ fields.map fun f => (f.fst, .hole))
      run c ((fieldsIn σ.size fields).reverse ++ work) ((σ.put p (.container σ.size)).extend [object])
  -- Nothing that a tree starts with is put together of values.
  | (.object .., _) :: work, σ | (.array _, _) :: work, σ => run c work σ
termination_by work => steps work
decreasing_by
  · simp [steps, Task.steps]
  · simp [steps, Task.steps]
  · have h : total (Task.steps ∘ fun s => .node (.stmt s)) ss = stmtsSteps ss :=
      (stmtsSteps_eq_total ss).symm
    simp [steps, Task.steps, map_fst_itemsIn, h]
  · have h := n.steps_shape
    rw [_h, Shape.steps] at h
    simp [steps, Task.steps, ←h]
  · have h := n.steps_shape
    rw [_h, Shape.steps] at h
    simp [steps, Task.steps, ←h, Function.comp_def, map_fst_fieldsIn]
  · simp [steps, Task.steps]
  · simp [steps, Task.steps]

-- The value that a slot stands for, if there is no hole in it. A container holds only such containers as
-- were made after it.
def read (cs : List Container) (least : Nat) : Slot → Option Json
  | .hole => none
  | .value j => some j
  | .container k =>
    if _h : least ≤ k then
      match _hk : cs[k]? with
      | none => none
      | some (.object fields) =>
        (fields.mapM fun f => read cs (k + 1) f.snd).map fun js => .obj ((fields.map (·.fst)).zip js)
      | some (.array items) => (items.mapM (read cs (k + 1))).map .arr
    else none
termination_by cs.length - least
decreasing_by
  all_goals
    have h := (List.getElem?_eq_some_iff.mp _hk).fst
    omega

-- A place that there is before the container `k` is made.
def Target.Within : Target → Nat → Prop
  | .root, _ => True
  | .inside k _, n => k < n

theorem Target.Within.mono {p : Target} {m n : Nat} (h : p.Within m) (hn : m ≤ n) : p.Within n := by
  cases p with
  | root => trivial
  | inside k => exact Nat.lt_of_lt_of_le h hn

namespace Store

@[simp]
theorem size_put (σ : Store) (p : Target) (x : Slot) : (σ.put p x).size = σ.size := by
  cases p <;> simp [put, size]

@[simp]
theorem size_extend (σ : Store) (cs : List Container) : (σ.extend cs).size = σ.size + cs.length := by
  simp [extend, size]

@[simp]
theorem extend_nil (σ : Store) : σ.extend [] = σ := by
  simp [extend]

@[simp]
theorem extend_extend (σ : Store) (cs ds : List Container) :
    (σ.extend cs).extend ds = σ.extend (cs ++ ds) := by
  simp [extend]

-- New containers are no matter to the places that there are.
theorem put_extend {σ : Store} {p : Target} (h : p.Within σ.size) (cs : List Container) (x : Slot) :
    (σ.extend cs).put p x = (σ.put p x).extend cs := by
  cases p with
  | root => rfl
  | inside k key =>
    have h : k < σ.containers.length := h
    have hm : (σ.containers ++ cs).modify k (·.set key x) =
        σ.containers.modify k (·.set key x) ++ cs := by
      rw [List.modify_eq_take_drop, List.modify_eq_take_drop,
        List.take_append_of_le_length h.le, List.drop_append_of_le_length h.le,
        List.drop_eq_getElem_cons h]
      simp only [List.cons_append, List.modifyHead_cons, List.append_assoc]
    simp [put, extend, hm]

-- Fills a place of a container that was just made.
theorem put_made (σ : Store) (a : Container) (cs : List Container) (key : Key) (x : Slot) :
    (σ.extend (a :: cs)).put (.inside σ.size key) x = σ.extend (a.set key x :: cs) := by
  have hm : (σ.containers ++ a :: cs).modify σ.containers.length (·.set key x) =
      σ.containers ++ a.set key x :: cs := by
    rw [List.modify_eq_take_drop]
    simp
  simp [put, extend, size, hm]

-- Fills places from the last one to the first.
def putAll (σ : Store) (ws : List (Target × Slot)) : Store :=
  ws.foldr (fun w σ => σ.put w.fst w.snd) σ

@[simp]
theorem size_putAll (σ : Store) (ws : List (Target × Slot)) : (σ.putAll ws).size = σ.size := by
  induction ws with
  | nil => rfl
  | cons w ws ih => rw [putAll, List.foldr_cons, size_put, ←putAll, ih]

end Store

-- Fills the keys of a container from the last one to the first.
def Container.setAll (a : Container) (ws : List (Key × Slot)) : Container :=
  ws.foldr (fun w a => a.set w.fst w.snd) a

theorem Store.putAll_made (σ : Store) (a : Container) (ws : List (Key × Slot)) :
    (σ.extend [a]).putAll (ws.map fun w => (.inside σ.size w.fst, w.snd)) =
      σ.extend [a.setAll ws] := by
  induction ws with
  | nil => rfl
  | cons w ws ih =>
    rw [putAll] at ih
    simp only [putAll, List.map_cons, List.foldr_cons, ih, put_made, Container.setAll]

theorem map_set_of_notMem {key : String} {fields : List (String × Slot)}
    (h : key ∉ fields.map (·.fst)) (x : Slot) :
    (fields.map fun f => if f.fst = key then (key, x) else f) = fields := by
  refine (List.map_congr_left fun f hf => if_neg fun he => ?_).trans (List.map_id fields)
  exact h (he ▸ List.mem_map_of_mem hf)

-- All fields of an object are filled in, if no two keys are the same.
theorem Container.setAll_fields (head fields : List (String × Slot))
    (h : (head.map (·.fst) ++ fields.map (·.fst)).Nodup) :
    (Container.object (head ++ fields.map fun f => (f.fst, .hole))).setAll
      (fields.map fun f => (.name f.fst, f.snd)) = .object (head ++ fields) := by
  induction fields generalizing head with
  | nil => rfl
  | cons f fields ih =>
    have ih := ih (head ++ [(f.fst, .hole)]) (by simpa using h)
    rw [List.append_assoc, List.append_assoc] at ih
    have hs := congrArg (Container.set · (.name f.fst) f.snd) ih
    refine Eq.trans ?_ (hs.trans ?_)
    · rfl
    · have h := (List.nodup_cons.mp (List.nodup_middle.mp h)).left
      rw [List.mem_append, not_or] at h
      simp only [set, List.map_append, map_set_of_notMem h.left, map_set_of_notMem h.right]
      simp

-- So are all items of an array.
theorem Container.setAll_items (head : List Slot) (items : List (Nat × Slot))
    (h : items.map (·.fst) = List.range' head.length items.length) :
    (Container.array (head ++ .replicate items.length .hole)).setAll
      (items.map fun w => (.index w.fst, w.snd)) = .array (head ++ items.map (·.snd)) := by
  induction items generalizing head with
  | nil => rfl
  | cons w items ih =>
    rw [List.map_cons, List.length_cons, List.range'_succ, List.cons.injEq] at h
    have ih := ih (head ++ [.hole]) (by simpa using h.right)
    rw [List.append_assoc, List.append_assoc] at ih
    have hs := congrArg (Container.set · (.index w.fst) w.snd) ih
    refine Eq.trans ?_ (hs.trans ?_)
    · simp [setAll, List.replicate_succ]
    · simp [set, h.left]

-- A slot leads to a value by way of new containers only, whatever there was before them and whatever is
-- made after them.
def Reads (base : Nat) (new : List Container) (x : Slot) (j : Json) : Prop :=
  ∀ front back least, front.length = base → least ≤ base →
    read (front ++ (new ++ back)) least x = some j

def ReadsAll (base : Nat) (new : List Container) (xs : List Slot) (js : List Json) : Prop :=
  ∀ front back least, front.length = base → least ≤ base →
    xs.mapM (read (front ++ (new ++ back)) least) = some js

theorem Reads.value (base : Nat) (j : Json) : Reads base [] (.value j) j := by
  intro front back least _ _
  rw [read]

namespace ReadsAll

theorem nil (base : Nat) : ReadsAll base [] [] [] :=
  fun _ _ _ _ _ => rfl

-- What is filled in later does not reach what was filled in before.
theorem cons {base : Nat} {new new' : List Container} {x : Slot} {xs : List Slot} {j : Json}
    {js : List Json} (h : ReadsAll base new xs js) (hx : Reads (base + new.length) new' x j) :
    ReadsAll base (new ++ new') (x :: xs) (j :: js) := by
  intro front back least hf hl
  have hx := hx (front ++ new) back least (by simp [hf]) (Nat.le_add_right_of_le hl)
  have h := h front (new' ++ back) least hf hl
  rw [List.append_assoc] at hx
  rw [List.append_assoc, List.mapM_cons, hx, h]
  rfl

theorem values {base : Nat} {new : List Container} {xs : List Slot} {js : List Json}
    (h : ReadsAll base new xs js) (us : List Json) :
    ReadsAll base new (us.map .value ++ xs) (us ++ js) := by
  intro front back least hf hl
  have h := h front back least hf hl
  induction us with
  | nil => exact h
  | cons u us ih =>
    rw [List.map_cons, List.cons_append, List.mapM_cons, read, ih]
    rfl

theorem object {base : Nat} {new : List Container} {fields : List (String × Slot)} {js : List Json}
    (h : ReadsAll (base + 1) new (fields.map (·.snd)) js) :
    Reads base (.object fields :: new) (.container base) (.obj ((fields.map (·.fst)).zip js)) := by
  intro front back least hf hl
  have h := h (front ++ [.object fields]) back (base + 1) (by simp [hf]) le_rfl
  subst hf
  rw [List.append_assoc, List.mapM_map] at h
  have hg : (front ++ (.object fields :: new ++ back))[front.length]? = some (.object fields) := by simp
  rw [read, dif_pos hl]
  split
  case h_1 hn => cases hg.symm.trans hn
  case h_2 ho =>
    cases hg.symm.trans ho
    exact congrArg (Option.map _) h
  case h_3 ha => cases hg.symm.trans ha

-- An object of which some fields had their values from the first.
theorem object_given {base : Nat} {new : List Container} {fields : List (String × Slot)}
    {js : List Json} (h : ReadsAll (base + 1) new (fields.map (·.snd)) js)
    (given : List (String × Json)) :
    Reads base (.object (given.map (fun f => (f.fst, .value f.snd)) ++ fields) :: new) (.container base)
      (.obj (given ++ (fields.map (·.fst)).zip js)) := by
  have hs : (given.map (fun f => (f.fst, Slot.value f.snd)) ++ fields).map (·.snd) =
      (given.map (·.snd)).map .value ++ fields.map (·.snd) := by simp
  have h := h.values (given.map (·.snd))
  rw [←hs] at h
  have hl : ((given.map fun f => (f.fst, Slot.value f.snd)).map (·.fst)).length =
      (given.map (·.snd)).length := by simp
  have hg : ((given.map fun f => (f.fst, Slot.value f.snd)).map (·.fst)).zip (given.map (·.snd)) =
      given := by
    rw [List.map_map, List.zip_map']
    exact List.map_id given
  have h := h.object
  rwa [List.map_append, List.zip_append hl, hg] at h

theorem array {base : Nat} {new : List Container} {items : List Slot} {js : List Json}
    (h : ReadsAll (base + 1) new items js) :
    Reads base (.array items :: new) (.container base) (.arr js) := by
  intro front back least hf hl
  have h := h (front ++ [.array items]) back (base + 1) (by simp [hf]) le_rfl
  subst hf
  rw [List.append_assoc] at h
  have hg : (front ++ (.array items :: new ++ back))[front.length]? = some (.array items) := by simp
  rw [read, dif_pos hl]
  split
  case h_1 hn => cases hg.symm.trans hn
  case h_2 ho => cases hg.symm.trans ho
  case h_3 ha =>
    cases hg.symm.trans ha
    exact congrArg (Option.map _) h

end ReadsAll

section

variable {c : Encoding}

-- A step fails as it does on its own, or its place is filled in, with new containers if need be.
def Fills (c : Encoding) (t : Task δ) : Prop :=
  ∀ p work σ, p.Within σ.size →
    (∃ e, c.outcome t = .error e ∧ run c ((t, p) :: work) σ = .error e) ∨
    ∃ j x new, c.outcome t = .ok j ∧ Reads σ.size new x j ∧
      run c ((t, p) :: work) σ = run c work ((σ.put p x).extend new)

-- So it is with all that belongs into a container.
theorem run_reverse_append {β : Type} (task : β → Task δ) (key : β → Key) {ws : List β}
    (h : ∀ w ∈ ws, Fills c (task w)) {k : Nat} (work : List (Task δ × Target)) (σ : Store)
    (hk : k < σ.size) :
    let works := (ws.map fun w => (task w, .inside k (key w))).reverse ++ work
    (∃ e, c.outcomes (ws.map task) = .error e ∧ run c works σ = .error e) ∨
    ∃ (js : List Json) (filled : List (β × Slot)) (new : List Container),
      c.outcomes (ws.map task) = .ok js ∧ filled.map (·.fst) = ws ∧
      ReadsAll σ.size new (filled.map (·.snd)) js ∧
      run c works σ =
        run c work ((σ.putAll (filled.map fun w => (.inside k (key w.fst), w.snd))).extend new) := by
  intro works
  induction ws generalizing work with
  | nil => exact .inr ⟨[], [], [], rfl, rfl, .nil _, by simp [works, Store.putAll]⟩
  | cons w ws ih =>
    obtain ⟨hw, h⟩ := List.forall_mem_cons.mp h
    have hr : works = (ws.map fun w => (task w, .inside k (key w))).reverse ++
        (task w, .inside k (key w)) :: work := by simp [works]
    rw [hr]
    cases ih h ((task w, .inside k (key w)) :: work) with
    | inl he =>
      obtain ⟨e, he, hr⟩ := he
      exact .inl ⟨e, by rw [List.map_cons, Encoding.outcomes, he]; rfl, hr⟩
    | inr hj =>
      obtain ⟨js, filled, new, hj, rfl, hx, hr⟩ := hj
      have hk' : (Target.inside k (key w)).Within (σ.putAll
          (filled.map fun w => (.inside k (key w.fst), w.snd))).size := by
        rw [Store.size_putAll]
        exact hk
      have hp : (Target.inside k (key w)).Within ((σ.putAll
          (filled.map fun w => (.inside k (key w.fst), w.snd))).extend new).size :=
        hk'.mono (by simp)
      rw [hr]
      cases hw _ work _ hp with
      | inl he =>
        obtain ⟨e, he, hr⟩ := he
        exact .inl ⟨e, by rw [List.map_cons, Encoding.outcomes, hj, he]; rfl, hr⟩
      | inr hj' =>
        obtain ⟨j, x, new', hj', hx', hr⟩ := hj'
        rw [Store.size_extend, Store.size_putAll] at hx'
        refine .inr ⟨j :: js, (w, x) :: filled, new ++ new', ?_, rfl, hx.cons hx', ?_⟩
        · rw [List.map_cons, Encoding.outcomes, hj, hj']
          rfl
        · rw [hr, Store.put_extend hk', Store.extend_extend]
          rfl

-- The same for a container that is made and put into its place.
theorem run_made {β : Type} (task : β → Task δ) (key : β → Key) {ws : List β}
    (h : ∀ w ∈ ws, Fills c (task w)) (work : List (Task δ × Target)) (p : Target) (σ : Store)
    (a : Container) :
    let works := (ws.map fun w => (task w, .inside σ.size (key w))).reverse ++ work
    let made := σ.put p (.container σ.size)
    (∃ e, c.outcomes (ws.map task) = .error e ∧ run c works (made.extend [a]) = .error e) ∨
    ∃ (js : List Json) (filled : List (β × Slot)) (new : List Container),
      c.outcomes (ws.map task) = .ok js ∧ filled.map (·.fst) = ws ∧
      ReadsAll (σ.size + 1) new (filled.map (·.snd)) js ∧
      run c works (made.extend [a]) =
        run c work (made.extend (a.setAll (filled.map fun w => (key w.fst, w.snd)) :: new)) := by
  intro works made
  have hk : σ.size < (made.extend [a]).size := by simp [made]
  refine (run_reverse_append task key h work _ hk).imp id fun hj => ?_
  obtain ⟨js, filled, new, hj, hw, hx, hr⟩ := hj
  have hm := made.putAll_made a (filled.map fun w => (key w.fst, w.snd))
  rw [List.map_map] at hm
  have hs : made.size = σ.size := Store.size_put ..
  rw [hs] at hm
  refine ⟨js, filled, new, hj, hw, by simpa [made] using hx, hr.trans ?_⟩
  refine (congrArg (fun τ => run c work (τ.extend new)) hm).trans ?_
  rw [Store.extend_extend]
  rfl

theorem fills_value (j : Json) : Fills c (.value j : Task δ) := by
  intro p work σ _
  refine .inr ⟨j, .value j, [], Encoding.outcome_value j, .value _ j, ?_⟩
  rw [run, Store.extend_nil]

theorem fills_symbol (s : Symbol) : Fills c (.symbol s : Task δ) := by
  intro p work σ _
  rw [Encoding.outcome_symbol, run]
  cases c.names.name s with
  | error e => exact .inl ⟨e, rfl, rfl⟩
  | ok t =>
    refine .inr ⟨.str t, .value (.str t), [], rfl, .value _ _, ?_⟩
    rw [Store.extend_nil]
    rfl

theorem fills_stmts {ss : List (Stmt δ)}
    (h : ∀ t ∈ ss.map fun s => .node (.stmt s), Fills c t) : Fills c (.stmts ss) := by
  intro p work σ hp
  have hs : ∀ s ∈ ss.zipIdx, Fills c (.node (.stmt s.fst)) := fun s hs =>
    h _ (List.mem_map_of_mem (List.fst_mem_of_mem_zipIdx hs))
  have hr := run_made _ (fun s => .index s.snd) hs work p σ (.array (.replicate ss.length .hole))
  rw [Encoding.outcome_stmts, run]
  rw [map_node_zipIdx] at hr
  cases hr with
  | inl he =>
    obtain ⟨e, he, hr⟩ := he
    exact .inl ⟨e, by rw [he]; rfl, hr⟩
  | inr hj =>
    obtain ⟨js, filled, new, hj, hw, hx, hr⟩ := hj
    have hl : ss.length = filled.length := by simpa using (congrArg List.length hw).symm
    have hi : (filled.map fun w => (w.fst.snd, w.snd)).map (·.fst) =
        List.range' 0 (filled.map fun w => (w.fst.snd, w.snd)).length := by
      rw [List.length_map, ←hl, ←List.zipIdx_map_snd, ←hw, List.map_map, List.map_map]
      rfl
    have ha := Container.setAll_items [] _ hi
    rw [List.length_map, List.map_map, List.map_map, ←hl] at ha
    refine .inr ⟨.arr js, .container σ.size, _, by rw [hj]; rfl, hx.array, hr.trans ?_⟩
    exact congrArg (fun a => run c work ((σ.put p _).extend (a :: new))) ha

theorem fills_leaf {n : Node δ} {j : Json} (hn : n.shape = .value j) : Fills c (.node n) := by
  intro p work σ _
  refine .inr ⟨j, .value j, [], Encoding.outcome_node_value hn, .value _ j, ?_⟩
  rw [run, Store.extend_nil]
  split
  case h_1 hn' =>
    cases hn.symm.trans hn'
    rfl
  case h_2 hn' => cases hn.symm.trans hn'

theorem nodup_head {category : Category} {span : Span} {keys : List String}
    (h : ("node" :: "span" :: keys).Nodup) : ((c.head category span).map (·.fst) ++ keys).Nodup := by
  rw [Encoding.head]
  split
  · exact h
  · exact h.sublist (.cons_cons _ (.cons _ (.refl _)))

theorem fills_object {n : Node δ} {category : Category} {span : Span}
    {fields : List (String × Task δ)} (hn : n.shape = .object category span fields)
    (h : ∀ t ∈ fields.map (·.snd), Fills c t) : Fills c (.node n) := by
  intro p work σ hp
  have hf : ∀ f ∈ fields, Fills c f.snd := fun f hf => h _ (List.mem_map_of_mem hf)
  let head := (c.head category span).map fun f => (f.fst, Slot.value f.snd)
  have hr := run_made _ (fun f => .name f.fst) hf work p σ
    (.object (head ++ fields.map fun f => (f.fst, .hole)))
  have hs := n.sound_shape
  rw [hn] at hs
  rw [Encoding.outcome_node_object hn, run]
  split
  case h_1 hn' => cases hn.symm.trans hn'
  case h_2 hn' =>
    cases hn.symm.trans hn'
    cases hr with
    | inl he =>
      obtain ⟨e, he, hr⟩ := he
      exact .inl ⟨e, by rw [he]; rfl, hr⟩
    | inr hj =>
      obtain ⟨js, filled, new, hj, rfl, hx, hr⟩ := hj
      let named := filled.map fun w => (w.fst.fst, w.snd)
      have hk : named.map (·.fst) = (filled.map (·.fst)).map (·.fst) := by simp [named]
      have hx : ReadsAll (σ.size + 1) new (named.map (·.snd)) js := by
        simpa [named, Function.comp_def] using hx
      have hx := hx.object_given (c.head category span)
      have hd : (head.map (·.fst) ++ named.map (·.fst)).Nodup := by
        rw [hk, List.map_map]
        exact nodup_head hs.right
      have ha := Container.setAll_fields head named hd
      rw [List.map_map, List.map_map] at ha
      refine .inr ⟨_, .container σ.size, _, by rw [hj]; rfl, hk ▸ hx, hr.trans ?_⟩
      rw [List.map_map]
      exact congrArg (fun a => run c work ((σ.put p _).extend (a :: new))) ha

theorem fills (t : Task δ) (h : t.Source) : Fills c t :=
  h.rec_steps fills_value fills_symbol (fun _ => fills_stmts) (fun _ _ => fills_leaf)
    fun _ _ _ _ => fills_object

end

end Filling

-- The value of a tree as it is filled in, or none if there is a hole left in it.
def Node.fill (c : Encoding) (n : Node δ) : Except RenderError (Option Json) := do
  let σ ← Filling.run c [(.node n, .root)] .empty
  return Filling.read σ.containers 0 σ.root

-- No hole is left in it, and it is the encoding.
theorem Node.fill_eq (c : Encoding) (n : Node δ) : n.fill c = some <$> n.encode c := by
  change n.fill c = some <$> c.outcome (.node n)
  rw [fill]
  cases Filling.fills (.node n) .node .root [] .empty trivial with
  | inl he =>
    obtain ⟨e, he, hr⟩ := he
    rw [he, hr]
    rfl
  | inr hj =>
    obtain ⟨j, x, new, hj, hx, hr⟩ := hj
    have hx := hx [] [] 0 rfl le_rfl
    rw [hj, hr, Filling.run]
    rw [List.nil_append, List.append_nil] at hx
    exact congrArg Except.ok hx

end ExprLang
