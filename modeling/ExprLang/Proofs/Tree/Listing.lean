import ExprLang.Proofs.Parser.Naming
import ExprLang.Proofs.Parser.RoundTrip
import ExprLang.Proofs.Tree.Assembly

/-!
Trees that can be written. If all symbols of a tree have names, it has an encoding, and if its numbers are
short enough it has a listing. So has every tree that was parsed, with the interner that it was parsed
with.
-/
namespace ExprLang

-- A symbol with a name. The second symbol has no part in it.
def Names.Knows (names : Names) (x _ : Symbol) : Prop :=
  ∃ t, names.name x = .ok t

-- What a listing has lines for, if all symbols in it have names and no number in it is too long.
inductive Node.Listed (names : Names) : Node Empty → Prop
  | expr (h : Expr.Alike Eq names.Knows e e) (hn : ∀ n ∈ e.numbers, Text.isWritable n) :
    Node.Listed names (.expr e)
  | stmt (h : Stmt.Alike Eq names.Knows s s) (hn : ∀ n ∈ s.numbers, Text.isWritable n) :
    Node.Listed names (.stmt s)

theorem numbers_subset_stmtsNumbers {s : Stmt Empty} {ss : List (Stmt Empty)} (h : s ∈ ss) :
    s.numbers ⊆ stmtsNumbers ss := by
  induction h with
  | head => exact List.subset_append_left ..
  | tail _ _ ih => exact List.subset_append_of_subset_right _ ih

section

variable {names : Names}

theorem Node.Listed.line_ok {n : Node Empty} (h : n.Listed names) : ∃ t, n.line names = .ok t := by
  cases h with
  | expr h hn =>
    cases h with
    | @literal _ _ v =>
      obtain ⟨t, hv⟩ := isOk_iff.mp (v.isOk_format.trans (List.all_eq_true.mpr hn))
      exact ⟨_, by rw [Node.line, Expr.line, hv]; rfl⟩
    | _ => exact ⟨_, rfl⟩
  | stmt h =>
    cases h with
    | discard | result => exact ⟨_, rfl⟩
    | assign _ hx _ =>
      obtain ⟨t, ht⟩ := hx
      exact ⟨_, by rw [Node.line, Stmt.line, ht]; rfl⟩
    | declare _ hx ht _ =>
      obtain ⟨t, hx⟩ := hx
      cases ht with
      | none => exact ⟨_, by rw [Node.line, Stmt.line, hx]; rfl⟩
      | some ht =>
        obtain ⟨u, hu⟩ := ht
        exact ⟨_, by simp only [Node.line, Stmt.line, hx, hu]; rfl⟩

theorem Node.Listed.children {n : Node Empty} (h : n.Listed names) :
    ∀ m ∈ n.children, m.Listed names := by
  cases h with
  | expr h hn =>
    cases h with
    | literal => simp [Node.children, Expr.children]
    | unary _ h | grouping _ h => simpa [Node.children, Expr.children] using .expr h hn
    | binary _ hl hr =>
      obtain ⟨hnl, hnr⟩ := List.forall_mem_append.mp hn
      simpa [Node.children, Expr.children] using ⟨.expr hl hnl, .expr hr hnr⟩
    | cond _ hc ht he =>
      obtain ⟨hnc, hn⟩ := List.forall_mem_append.mp hn
      obtain ⟨hnt, hne⟩ := List.forall_mem_append.mp hn
      simpa [Node.children, Expr.children] using ⟨.expr hc hnc, .expr ht hnt, .expr he hne⟩
    | block _ _ h =>
      have h := List.forall₂_same.mp h.forall₂
      have hn {s : Stmt Empty} (hs : s ∈ _) : ∀ n ∈ s.numbers, Text.isWritable n :=
        fun n hm => hn n (numbers_subset_stmtsNumbers hs hm)
      simpa [Node.children, Expr.children, Block.stmts] using fun s hs => .stmt (h s hs) (hn hs)
  | stmt h hn =>
    cases h with
    | declare _ _ _ hi =>
      cases hi with
      | none => simp [Node.children, Stmt.children]
      | some h => simpa [Node.children, Stmt.children] using .expr h hn
    | assign _ _ h | discard _ h | result _ h =>
      simpa [Node.children, Stmt.children] using .expr h hn

theorem dumpPending_ok {stack : List (Pending Empty)} (h : ∀ p ∈ stack, p.node.Listed names) :
    ∃ lines, dumpPending names stack = .ok lines := by
  fun_induction dumpPending names stack with
  | case1 => exact ⟨[], rfl⟩
  | case2 n indent stack ih =>
    obtain ⟨hn, hs⟩ := List.forall_mem_cons.mp h
    obtain ⟨line, hl⟩ := hn.line_ok
    obtain ⟨lines, hls⟩ := ih (List.forall_mem_append.mpr ⟨by simpa using hn.children, hs⟩)
    exact ⟨_, by rw [hl, hls]; rfl⟩

theorem Expr.Alike.dump_ok {e : Program} (h : Expr.Alike Eq names.Knows e e)
    (hn : ∀ n ∈ e.numbers, Text.isWritable n) : ∃ t, e.dump names = .ok t := by
  have ⟨lines, hl⟩ : ∃ lines, e.lines names = .ok lines := by
    refine dumpPending_ok fun p hp => ?_
    cases List.mem_singleton.mp hp
    exact .expr h hn
  exact ⟨_, by rw [Expr.dump, hl]; rfl⟩

theorem Encoding.run_ok {spans : Bool} {tasks : List (Task Empty)} {done : List Json}
    (h : ∀ t ∈ tasks, Task.Alike names.Knows t t) :
    ∃ js, run ⟨names, spans⟩ tasks done = .ok js := by
  fun_induction run ⟨names, spans⟩ tasks done
  case case1 done => exact ⟨done, rfl⟩
  case case2 j tasks done ih => exact ih fun t ht => h t (.tail _ ht)
  case case3 x tasks done ih =>
    obtain ⟨hx, ht⟩ := List.forall_mem_cons.mp h
    cases hx with
    | symbol hx =>
      obtain ⟨name, hx⟩ := hx
      obtain ⟨js, hj⟩ := ih name ht
      exact ⟨js, by simp only [hx]; exact hj⟩
  case case4 head keys tasks done ih => exact ih fun t ht => h t (.tail _ ht)
  case case5 length tasks done ih => exact ih fun t ht => h t (.tail _ ht)
  case case6 ss tasks done ih =>
    obtain ⟨hs, ht⟩ := List.forall_mem_cons.mp h
    cases hs with
    | stmts hs =>
      have hs := List.forall₂_same.mp (List.rel_reverse hs.tasks)
      rw [List.map_attach_eq_pmap, List.pmap_eq_map] at ih
      exact ih (List.forall_mem_append.mpr ⟨hs, List.forall_mem_cons.mpr ⟨.array, ht⟩⟩)
  case case7 n tasks done j hn ih => exact ih fun t ht => h t (.tail _ ht)
  case case8 n tasks done category span fields hn object ih =>
    obtain ⟨hm, ht⟩ := List.forall_mem_cons.mp h
    cases hm with
    | node hm =>
      have hs := hm.shape
      rw [hn] at hs
      cases hs with
      | object _ _ hf =>
        have hf := List.forall₂_same.mp (List.rel_reverse hf)
        exact ih (List.forall_mem_append.mpr ⟨hf, List.forall_mem_cons.mpr ⟨.object rfl, ht⟩⟩)

theorem Expr.Alike.encode_ok {e : Program} (h : Expr.Alike Eq names.Knows e e) (spans : Bool) :
    ∃ j, e.encode ⟨names, spans⟩ = .ok j := by
  have ⟨js, hj⟩ : ∃ js, Encoding.run ⟨names, spans⟩ [Task.node (.expr e)] [] = .ok js := by
    refine Encoding.run_ok fun t ht => ?_
    cases List.mem_singleton.mp ht
    exact .node (.expr h)
  exact ⟨_, by rw [Expr.encode, Node.encode, hj]; rfl⟩

end

-- In a tree that was parsed, all symbols have names.
theorem Parser.knows_of_parse {src : Text} {i j : Interner} {d : Int} {e : Program}
    (hi : i.Reachable) (h : parse src i d = (.ok e, j)) :
    Expr.Alike Eq (Names.Knows (some j)) e e := by
  refine (sameText_of_parse hi h).mono (fun _ _ hs => hs) fun x x' hx => ?_
  have ⟨t, ht, _⟩ := hx
  exact ⟨t, by simp [Names.name, j.lookup?_of_issued? ht]⟩

-- The numbers in it are short enough.
theorem Parser.isWritable_of_parse {src : Text} {i j : Interner} {d : Int} {e : Program}
    (hi : i.Reachable) (h : parse src i d = (.ok e, j)) : ∀ n ∈ e.numbers, Text.isWritable n := by
  have ⟨_, ht, _, hf⟩ := exists_outline_of_parse hi.valid h
  exact (Expr.format_ok_iff.mp ⟨_, Expr.format_eq ht hf.writable⟩).left

end ExprLang
