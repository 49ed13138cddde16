import ExprLang.Corpus.Twister
import ExprLang.Proofs.Corpus.Verdict
import ExprLang.Proofs.Eval.Exact

/-!
Generated sources and their verdicts, whatever is drawn. Each fragment is the text of an outline, the
verdict is the one on this outline, and its form tells where it can stand without parentheses. So the
source of a case is parsed as that outline, and evaluating it comes to what was expected.
-/
namespace ExprLang

open Grammar Outline

namespace Chance

variable {σ α β : Type} {m : StateM σ α} {P Q : α → Prop}

-- All that can be drawn has a property.
def Always (m : StateM σ α) (P : α → Prop) : Prop :=
  ∀ s, P (m.run s).fst

namespace Always

theorem pure {a : α} (h : P a) : Always (σ := σ) (return a) P :=
  fun _ => h

theorem bind {f : α → StateM σ β} {R : β → Prop} (h : Always m P) (hf : ∀ a, P a → Always (f a) R) :
    Always (m >>= f) R :=
  fun s => hf _ (h s) _

theorem any : Always m fun _ => True :=
  fun _ => trivial

theorem mono (h : Always m P) (hq : ∀ a, P a → Q a) : Always m Q :=
  fun s => hq _ (h s)

theorem ite {c : Prop} [Decidable c] {m' : StateM σ α} (h : Always m P) (h' : Always m' P) :
    Always (if c then m else m') P := by
  split
  · exact h
  · exact h'

theorem mapM {f : β → StateM σ α} (h : ∀ b, Always (f b) P) (bs : List β) :
    Always (bs.mapM f) fun as => ∀ a ∈ as, P a := by
  induction bs
  case nil => exact .pure nofun
  case cons b bs ih =>
    rw [List.mapM_cons]
    refine (h b).bind fun a ha => ih.bind fun as has => .pure ?_
    exact List.forall_mem_cons.mpr ⟨ha, has⟩

variable [Chance σ]

theorem between (a n : Nat) : Always (σ := σ) (between a n) fun k => a ≤ k ∧ k ≤ a + n := by
  refine any.bind fun k _ => .pure ⟨Nat.le_add_right _ _, ?_⟩
  exact Nat.add_le_add_left (Nat.le_of_lt_succ k.isLt) a

theorem pick (xs : List α) (hx : xs ≠ []) : Always (σ := σ) (pick xs hx) (· ∈ xs) :=
  any.bind fun _ _ => .pure (List.get_mem _ _)

end Always
end Chance

namespace Corpus

open Chance

def Form.nonterminal : Form → Nonterminal
  | .primary => .primary
  | .unary => .unary
  | .compound => .expr

-- An outline whose text and verdict a fragment has, and which can stand where the form of the
-- fragment says.
structure Fragment.Writes (f : Fragment) (t : Outline) : Prop where
  source : f.source = t.text
  verdict : f.verdict = t.verdict
  fits : Fits f.form.nonterminal t

namespace Fragment.Writes

variable {f g : Fragment} {t u : Outline} {op : BinOp} {τ : Tier}

theorem fits_expr (h : f.Writes t) : Fits .expr t :=
  h.fits.loosen (Nat.zero_le _) (by simp)

theorem fits_unary (h : f.Writes t) (hf : f.form.rank ≤ Form.unary.rank) : Fits .unary t := by
  refine h.fits.loosen ?_ (by simp)
  cases hform : f.form
  case primary | unary => exact Nat.le_refl _
  case compound => simp [hform, Form.rank] at hf

theorem fits_primary (h : f.Writes t) (hf : f.form.rank ≤ Form.primary.rank) : Fits .primary t := by
  have hfits := h.fits
  cases hform : f.form
  case primary => rwa [hform] at hfits
  case unary | compound => simp [hform, Form.rank] at hf

theorem group (h : f.Writes t) : f.group.Writes (.grouping t) where
  source := congrArg Text.parenthesized h.source
  verdict := h.verdict
  fits := .grouping h.fits_expr

theorem negation (h : f.Writes t) (hf : f.form.rank ≤ Form.primary.rank) :
    Fragment.Writes ⟨"-" ++ f.source, .unary, do negate (← f.verdict)⟩ (.neg t) := by
  have hfits := Fits.neg (h.fits_primary hf)
  have hg : (Outline.neg t).HasGroups := hfits.grouped_eq
  refine ⟨?_, ?_, hfits⟩
  · rw [hg.text_neg, h.source]
  · rw [Outline.verdict, h.verdict]

-- An operand behind a fragment that can stand at the left of its operator.
theorem extend (hf : f.Writes t) (hl : Fits (.tier τ) t) (ho : op.tier = τ) (hg : g.Writes u)
    (hr : g.form.rank ≤ Form.unary.rank) :
    (extend f op g).Writes (.binary op t u) ∧ Fits (.tier τ) (.binary op t u) := by
  have hu : Fits τ.operand u := by
    refine (hg.fits_unary hr).loosen ?_ ?_ <;> cases τ <;> decide
  have hfits := Fits.binary ho hl hu
  have hgroups : (Outline.binary op t u).HasGroups := hfits.grouped_eq
  refine ⟨⟨?_, ?_, hfits.loosen (b := .expr) (Nat.zero_le _) (by simp)⟩, hfits⟩
  · rw [hgroups.text_binary, ←hf.source, ←hg.source, ←List.append_assoc]
    rfl
  · rw [Outline.verdict, ←hf.verdict, ←hg.verdict]
    rfl

end Fragment.Writes

-- The outline of a fragment is nested at most `n` deep, and at most `h` high.
def Fragment.Within (n h : Nat) (f : Fragment) : Prop :=
  ∃ t, f.Writes t ∧ t.nesting ≤ n ∧ t.height false ≤ h

-- The same of a fragment behind which operators of a tier can follow on the same level.
def Fragment.Chained (τ : Tier) (n h : Nat) (f : Fragment) : Prop :=
  ∃ t, f.Writes t ∧ Fits (.tier τ) t ∧ t.nesting ≤ n ∧ t.height true ≤ h

theorem Form.rank_wrap (allowed : Form) (f : Fragment) :
    (f.wrap allowed).form.rank ≤ allowed.rank := by
  simp only [Fragment.wrap]
  split
  case isTrue => exact Nat.zero_le _
  case isFalse h => exact Nat.not_lt.mp h

namespace Fragment

variable {f g : Fragment} {τ : Tier} {op : BinOp} {n n' h h' : Nat}

namespace Within

theorem mono (hf : f.Within n h) (hn : n ≤ n') (hh : h ≤ h') : f.Within n' h' := by
  have ⟨t, ht, htn, hth⟩ := hf
  exact ⟨t, ht, Nat.le_trans htn hn, Nat.le_trans hth hh⟩

theorem group (hf : f.Within n h) : f.group.Within (n + 1) (h + 1) := by
  have ⟨t, ht, htn, hth⟩ := hf
  exact ⟨.grouping t, ht.group, Nat.succ_le_succ htn, Nat.succ_le_succ hth⟩

theorem wrap (allowed : Form) (hf : f.Within n h) : (f.wrap allowed).Within (n + 1) (h + 1) := by
  simp only [Fragment.wrap]
  split
  case isTrue => exact hf.group
  case isFalse => exact hf.mono (Nat.le_succ n) (Nat.le_succ h)

theorem negation (hf : f.Within n h) : (negation f).Within (n + 2) (h + 2) := by
  have ⟨t, ht, htn, hth⟩ := hf.wrap .primary
  exact ⟨.neg t, ht.negation (Form.rank_wrap ..), Nat.succ_le_succ htn, Nat.succ_le_succ hth⟩

theorem chained (hf : f.Within n h) (hr : f.form.rank ≤ Form.unary.rank) : f.Chained τ n h := by
  have ⟨t, ht, htn, hth⟩ := hf
  refine ⟨t, ht, (ht.fits_unary hr).loosen ?_ (by simp), htn, ?_⟩
  · cases τ <;> decide
  · exact Nat.le_trans t.height_true_le hth

theorem literal_bool (b : Bool) : Within 0 1 ⟨toString b, .primary, .ok (.bool b)⟩ := by
  refine ⟨.bool b, ⟨rfl, rfl, ?_⟩, Nat.le_refl _, Nat.le_refl _⟩
  exact ⟨rfl, rfl, Nat.le_refl _, fun _ => rfl⟩

theorem literal_num {k : Nat} (hk : k ≤ SyntaxError.maxLiteral) :
    Within 0 1 ⟨toString k, .primary, .ok (.num k)⟩ := by
  refine ⟨.num k, ⟨rfl, rfl, ?_⟩, Nat.le_refl _, Nat.le_refl _⟩
  exact ⟨rfl, by simp [isWritable, hk], Nat.le_refl _, fun _ => rfl⟩

end Within

namespace Chained

theorem extend (hf : f.Chained τ n h) (ho : op.tier = τ) (hg : g.Within n h)
    (hr : g.form.rank ≤ Form.unary.rank) : (extend f op g).Chained τ n h := by
  have ⟨t, ht, hfit, htn, hth⟩ := hf
  have ⟨u, hu, hun, huh⟩ := hg
  have ⟨hw, hfit⟩ := ht.extend hfit ho hu hr
  exact ⟨_, hw, hfit, Nat.max_le.mpr ⟨htn, hun⟩, Nat.max_le.mpr ⟨hth, huh⟩⟩

-- A chain is one level higher than its operands, however many there are.
theorem within (hf : f.Chained τ n h) : f.Within n (h + 1) := by
  have ⟨t, ht, _, htn, hth⟩ := hf
  exact ⟨t, ht, htn, Nat.le_trans t.height_false_le (Nat.succ_le_succ hth)⟩

theorem foldl (links : List (BinOp × Fragment)) (hf : f.Chained τ n h)
    (hl : ∀ k ∈ links, k.fst.tier = τ ∧ k.snd.Within n h ∧ k.snd.form.rank ≤ Form.unary.rank) :
    (links.foldl (fun f (op, g) => Corpus.extend f op g) f).Chained τ n h := by
  induction links generalizing f
  case nil => exact hf
  case cons k links ih =>
    have ⟨⟨ho, hg, hr⟩, hl⟩ := List.forall_mem_cons.mp hl
    exact ih (hf.extend ho hg hr) hl

end Chained

-- A conditional with its parts.
theorem Within.cond {c y z : Fragment} (hc : c.Within n h) (hy : y.Within n h) (hz : z.Within n h) :
    Fragment.Within (n + 1) (h + 1) {
      source :=
        "if " ++ c.source ++ " \x7b " ++ y.source ++ " \x7d else \x7b " ++ z.source ++ " \x7d"
      form := .compound
      verdict := do
        match ← c.verdict with
        | .bool b => if b then y.verdict else z.verdict
        | .num _ => .error .typeMismatch } := by
  have ⟨t, ht, htn, hth⟩ := hc
  have ⟨u, hu, hun, huh⟩ := hy
  have ⟨v, hv, hvn, hvh⟩ := hz
  refine ⟨.cond t u v, ⟨?_, ?_, .cond ht.fits_expr hu.fits_expr hv.fits_expr⟩, ?_, ?_⟩
  · rw [ht.source, hu.source, hv.source]
    rfl
  · rw [ht.verdict, hu.verdict, hv.verdict]
    rfl
  · simp only [nesting]
    omega
  · simp only [height]
    omega

end Fragment

section

variable {σ : Type} [Chance σ] {n h : Nat} {part : StateM σ Fragment}

open Fragment

theorem always_literal : Always (literal (σ := σ)) (Within 0 1) := by
  refine Always.any.bind fun k _ => .ite ?_ ?_
  · exact Always.any.bind fun b _ => .pure (.literal_bool _)
  · refine Always.ite ?_ (.ite ?_ ?_)
    · exact (Always.between _ _).bind fun n hn => .pure (.literal_num hn.right)
    · exact .pure (.literal_num (Nat.zero_le _))
    · exact (Always.between _ _).bind fun n hn =>
        .pure (.literal_num (Nat.le_trans hn.right (by decide)))

-- The operators of a precedence belong to one tier.
theorem exists_tier : ∀ ops ∈ tiers, ∃ τ, ∀ op ∈ ops.val, op.tier = τ := by
  simp only [tiers, List.forall_mem_cons]
  refine ⟨⟨.equality, ?_⟩, ⟨.comparison, ?_⟩, ⟨.addition, ?_⟩, ⟨.multiplication, ?_⟩,
    List.forall_mem_nil _⟩
  all_goals decide

theorem always_chain (hp : Always part fun f => f.Within n h ∧ f.form.rank ≤ Form.unary.rank) :
    Always (chain part) (Within n (h + 1)) := by
  refine (Always.pick _ _).bind fun ops hops => Always.any.bind fun count _ => ?_
  refine hp.bind fun first hfirst => ?_
  refine (Always.mapM (fun _ => hp) _).bind fun rest hrest => ?_
  refine (Always.mapM (fun _ => .pick _ ops.property) _).bind fun chosen hchosen => .pure ?_
  have ⟨τ, hτ⟩ := exists_tier ops hops
  refine Chained.within (τ := τ) (.foldl _ (hfirst.left.chained hfirst.right) fun k hk => ?_)
  have ⟨ho, hg⟩ := List.of_mem_zip hk
  exact ⟨hτ _ (hchosen _ ho), hrest _ hg⟩

theorem always_condition (hp : Always part (Within n h)) :
    Always (condition part) (Within (n + 1) (h + 2)) := by
  refine Always.any.bind fun k _ => .ite ?_ ?_
  · refine hp.bind fun f hf => hp.bind fun g hg => Always.any.bind fun op _ => .pure ?_
    have hf := (hf.wrap .unary).chained (τ := op.tier) (Form.rank_wrap ..)
    exact (hf.extend rfl (hg.wrap .unary) (Form.rank_wrap ..)).within
  · exact hp.mono fun f hf => hf.mono (by omega) (by omega)

theorem always_conditional (hp : Always part (Within n h)) :
    Always (conditional part) (Within (n + 2) (h + 3)) := by
  refine (always_condition hp).bind fun c hc => hp.bind fun y hy => hp.bind fun z hz => .pure ?_
  exact .cond hc (hy.mono (by omega) (by omega)) (hz.mono (by omega) (by omega))

-- By induction on the depth: each step down costs the parser two levels at most, and the evaluator
-- three.
theorem always_expr (depth : Nat) :
    Always (expr (σ := σ) depth) (Within (2 * depth) (3 * depth + 1)) := by
  induction depth
  case zero => exact always_literal
  case succ depth ih =>
    refine Always.any.bind fun k _ => .ite ?_ (.ite ?_ (.ite ?_ (.ite ?_ ?_)))
    · exact always_literal.mono fun f hf => hf.mono (by omega) (by omega)
    · exact ih.bind fun f hf => .pure (hf.negation.mono (by omega) (by omega))
    · exact (always_conditional ih).mono fun f hf => hf.mono (by omega) (by omega)
    · exact ih.bind fun f hf => .pure (hf.group.mono (by omega) (by omega))
    · refine (always_chain (n := 2 * depth + 1) (h := 3 * depth + 2) ?_).mono fun f hf =>
        hf.mono (by omega) (by omega)
      exact ih.bind fun f hf => .pure ⟨hf.wrap .unary, Form.rank_wrap ..⟩

end

-- A source that is parsed, and evaluated to what was expected, within certain limits.
def Case.Holds (c : Case) (d m : Int) : Prop :=
  ∃ (e : Program) (j : Interner),
    parse c.source .empty d = (.ok e, j) ∧ Agrees (evaluate e m) c.expected

theorem holds_of_within {f : Fragment} {n h : Nat} {d m : Int} (hf : f.Within n h) (hd : n ≤ d)
    (hm : h ≤ m) : Case.Holds ⟨f.source, f.verdict⟩ d m := by
  have ⟨t, ht, htn, hth⟩ := hf
  have hg : t.grouped = t := ht.fits.grouped_eq
  have ⟨e, j, hp, ho, _⟩ := parse_text ht.fits.writable (d := d) (by rw [hg]; omega)
  rw [hg] at ho
  have hde := e.describes_of_outline? ho
  refine ⟨e, j, ht.source ▸ hp, ?_⟩
  rw [ht.verdict, hde.evaluate_eq (by omega)]
  exact hde.matches.agrees (Eval.reported_meaning e (literalsFit_of_parse .empty hp)).written

variable {σ : Type} [Chance σ]

theorem always_case (depth : Nat) :
    Always (case (σ := σ) depth) fun c =>
      ∀ d m : Int, 2 * depth ≤ d → 3 * depth + 1 ≤ m → c.Holds d m :=
  (always_expr depth).bind fun _ hf => .pure fun _ _ hd hm => holds_of_within hf hd hm

-- The source of every case is parsed with two levels for each step of its depth, and evaluated with
-- three for each and one more, to the value or the kind of fault that was expected. The usual limits
-- are enough for a depth of 32.
theorem holds_of_mem_cases (count depth : Nat) (s : σ) {c : Case}
    (hc : c ∈ ((cases count depth).run s).fst) :
    (∀ d m : Int, 2 * depth ≤ d → 3 * depth + 1 ≤ m → c.Holds d m) ∧
      (depth ≤ 32 → c.Holds defaultParseDepth defaultEvalDepth) := by
  have h := Always.mapM (fun _ => always_case depth) (List.range count) s c hc
  refine ⟨h, fun hd => h _ _ ?_ ?_⟩
  · simp only [defaultParseDepth]
    omega
  · simp only [defaultEvalDepth]
    omega

theorem cases_one (depth : Nat) (s : σ) :
    ((cases 1 depth).run s).fst = [((case depth).run s).fst] :=
  rfl

theorem holds_of_seed :
    ∃ c, c ∈ ((cases 1 4).run (Twister.ofSeed 7)).fst ∧
      c.Holds 8 13 ∧ c.Holds defaultParseDepth defaultEvalDepth := by
  have hc : ((case 4).run (Twister.ofSeed 7)).fst ∈ ((cases 1 4).run (Twister.ofSeed 7)).fst := by
    rw [cases_one]
    exact .head _
  have ⟨h, hd⟩ := holds_of_mem_cases 1 4 (Twister.ofSeed 7) hc
  exact ⟨_, hc, h 8 13 (by decide) (by decide), hd (by decide)⟩

end Corpus
end ExprLang
