import ExprLang.Proofs.Grammar.Writing
import ExprLang.Proofs.Parser.Soundness
import ExprLang.Proofs.Parser.Trace

/-!
Where a parser stops at a token that cannot stand there, the words before it could have gone on: they
are the first words of something that is derived within the same number of levels.
-/
namespace ExprLang

open Token Grammar Word

-- A token stands where none of its kind can.
def SyntaxError.isMisplaced (e : SyntaxError) : Bool :=
  match e.cause with
  | .unexpected .. | .unimplemented _ => true
  | .strayByte _ | .tooLarge _ | .tooDeep _ => false

theorem Lexer.not_isMisplaced {l l' : Lexer} {e : SyntaxError} (h : l.next = (.error e, l')) :
    ¬e.isMisplaced := by
  simp only [next] at h
  split at h
  case h_1 => simp at h
  case h_3 => simp at h
  case h_2 =>
    simp only [Prod.mk.injEq, Except.error.injEq] at h
    simp [←h.left, SyntaxError.isMisplaced]

theorem Parser.Failure.not_isMisplaced_of_tooDeep {span : Span} {d : Int} {e : SyntaxError}
    (h : ofFault ⟨span, .tooDeep d⟩ = .fault e) : ¬e.isMisplaced := by
  obtain ⟨-, rfl⟩ := ofFault_eq_fault.mp h
  nofun

namespace Grammar

variable {D D' : List Word → Prop} {ws vs : List Word} {n : Nat}

-- Words that any source can hold.
def Usable (ws : List Word) : Prop :=
  ∀ w ∈ ws, Legal w ∧ w.kind ≠ .eof

theorem Usable.nil : Usable [] :=
  nofun

theorem Usable.cons {w : Word} (hw : Legal w ∧ w.kind ≠ .eof) (h : Usable ws) : Usable (w :: ws) :=
  List.forall_mem_cons.mpr ⟨hw, h⟩

theorem Usable.append (h : Usable ws) (h' : Usable vs) : Usable (ws ++ vs) :=
  List.forall_mem_append.mpr ⟨h, h'⟩

theorem Usable.fixed {k : Kind} (hk : k.isFixed) (h : Usable ws) : Usable (fixed k :: ws) :=
  have ⟨_, hn, he⟩ := Kind.isFixed_iff.mp hk
  h.cons ⟨⟨(Kind.allows_fixed hk).mpr rfl, .of_kind hn⟩, he⟩

-- A number that can stand wherever an expression can.
def zero : Word :=
  .number [0x30]

-- A name that can stand wherever an identifier can.
def anyName : Word :=
  .ident [0x61]

theorem Usable.zero (h : Usable ws) : Usable (zero :: ws) :=
  h.cons ⟨⟨by decide, fun _ => by decide⟩, by decide⟩

theorem Usable.anyName (h : Usable ws) : Usable (anyName :: ws) :=
  h.cons ⟨⟨by decide, .of_kind (by decide)⟩, by decide⟩

-- Words that can be completed to some that `D` holds of.
def Viable (D : List Word → Prop) (ws : List Word) : Prop :=
  ∃ vs, Usable vs ∧ D (ws ++ vs)

namespace Viable

theorem self (h : D ws) : Viable D ws :=
  ⟨[], .nil, by rwa [List.append_nil]⟩

-- What can be completed can be completed as a part of something else.
theorem part (pre : List Word) {tail : List Word} (ht : Usable tail)
    (hd : ∀ us, D us → D' (pre ++ (us ++ tail))) (h : Viable D ws) : Viable D' (pre ++ ws) := by
  have ⟨vs, hv, h⟩ := h
  refine ⟨vs ++ tail, hv.append ht, ?_⟩
  have hd := hd _ h
  simpa using hd

theorem mono (hd : ∀ us, D us → D' us) (h : Viable D ws) : Viable D' ws :=
  have ⟨vs, hv, h⟩ := h
  ⟨vs, hv, hd _ h⟩

end Viable

-- What is derived within `n` levels.
def Within (n : Nat) (c : Nonterminal) (ws : List Word) : Prop :=
  ∃ t, DerivesWithin n c ws t

namespace Within

theorem zero (n : Nat) : Within n .primary [zero] :=
  ⟨_, .number, Nat.zero_le n⟩

theorem unary (h : Within n .primary ws) : Within n .unary ws :=
  have ⟨t, h⟩ := h
  ⟨t, .primary h.derives, h.nesting⟩

theorem tier {τ : Tier} (h : Within n τ.operand ws) : Within n (.tier τ) ws :=
  have ⟨t, h⟩ := h
  ⟨t, h.derives.tier, h.nesting⟩

theorem binary {op : BinOp} {τ : Tier} (ho : op.tier = τ) (hl : Within n (.tier τ) ws)
    (hr : Within n τ.operand vs) : Within n (.tier τ) (ws ++ fixed op.kind :: vs) := by
  have ⟨l, hl⟩ := hl
  have ⟨r, hr⟩ := hr
  subst ho
  exact ⟨_, .binary hl.derives hr.derives, Nat.max_le.mpr ⟨hl.nesting, hr.nesting⟩⟩

theorem expr (h : Within n (.tier .equality) ws) : Within n .expr ws :=
  have ⟨t, h⟩ := h
  ⟨t, .equality h.derives, h.nesting⟩

theorem ofPrimary (h : Within n .primary ws) : Within n .expr ws :=
  have ⟨t, h⟩ := h
  ⟨t, h.derives.ofPrecedence 0, h.nesting⟩

theorem neg (h : Within n .primary ws) : Within (n + 1) .unary (fixed .minus :: ws) :=
  have ⟨_, h⟩ := h
  ⟨_, .neg h.derives, Nat.succ_le_succ h.nesting⟩

theorem grouping (h : Within n .expr ws) :
    Within (n + 1) .primary (fixed .lparen :: (ws ++ [fixed .rparen])) :=
  have ⟨_, h⟩ := h
  ⟨_, .grouping h.derives, Nat.succ_le_succ h.nesting⟩

theorem cond {cs ts es : List Word} (hc : Within n .expr cs) (ht : Within n .expr ts)
    (he : Within n .expr es) :
    Within (n + 1) .expr (fixed .kwIf :: (cs ++ fixed .lbrace :: (ts ++ fixed .rbrace ::
      fixed .kwElse :: fixed .lbrace :: (es ++ [fixed .rbrace])))) := by
  have ⟨_, hc⟩ := hc
  have ⟨_, ht⟩ := ht
  have ⟨_, he⟩ := he
  refine ⟨_, .cond hc.derives ht.derives he.derives, Nat.succ_le_succ ?_⟩
  exact Nat.max_le.mpr ⟨hc.nesting, Nat.max_le.mpr ⟨ht.nesting, he.nesting⟩⟩

end Within

-- Statements and bodies of blocks that are derived within `n` levels.
def ItemWithin (n : Nat) (ws : List Word) : Prop :=
  ∃ s, Statement ws s ∧ s.nesting ≤ n

def BodyWithin (n : Nat) (ws : List Word) : Prop :=
  ∃ ss, Body ws ss ∧ Outline.nestings ss ≤ n

theorem ItemWithin.assign {x : Bytes} (h : Within n .expr ws) :
    ItemWithin n (.ident x :: fixed .eq :: (ws ++ [fixed .semi])) :=
  have ⟨_, h⟩ := h
  ⟨_, .assign h.derives, h.nesting⟩

theorem ItemWithin.discard (h : Within n .expr ws) : ItemWithin n (ws ++ [fixed .semi]) :=
  have ⟨_, h⟩ := h
  ⟨_, .discard h.derives, h.nesting⟩

theorem ItemWithin.declare {x : Bytes} {ts is : List Word} {type : Option Text}
    {init : Option Outline} (ht : Annotation ts type) (hi : Initial is init)
    (hn : ∀ t ∈ init, t.nesting ≤ n) :
    ItemWithin n (fixed .kwLet :: .ident x :: (ts ++ (is ++ [fixed .semi]))) := by
  refine ⟨_, .declare ht hi, ?_⟩
  cases init with
  | none => exact Nat.zero_le n
  | some t => exact hn t rfl

theorem BodyWithin.item (hs : ItemWithin n ws) (h : BodyWithin n vs) : BodyWithin n (ws ++ vs) :=
  have ⟨_, hs, hn⟩ := hs
  have ⟨_, hb, hm⟩ := h
  ⟨_, .item hs hb, Nat.max_le.mpr ⟨hn, hm⟩⟩

theorem BodyWithin.close (n : Nat) : BodyWithin n [fixed .rbrace] :=
  ⟨_, .close, Nat.zero_le n⟩

theorem BodyWithin.result (h : Within n .expr ws) : BodyWithin n (ws ++ [fixed .rbrace]) :=
  have ⟨_, h⟩ := h
  ⟨_, .result h.derives, Nat.max_le.mpr ⟨h.nesting, Nat.zero_le n⟩⟩

theorem BodyWithin.block (h : BodyWithin n ws) : Within (n + 1) .primary (fixed .lbrace :: ws) :=
  have ⟨_, hb, hn⟩ := h
  ⟨_, .block hb, Nat.succ_le_succ hn⟩

end Grammar

namespace Parser

variable {α β : Type} {p q r : Parser} {V W : List Word → Prop}

-- Where a parser stops at a token that cannot stand there, it has taken off words that `V` holds of.
def Stuck (V : List Word → Prop) (m : ParseM α) : Prop :=
  ∀ ⦃p e q⦄, Refuses m p (.fault e) q → e.isMisplaced → p.Ready → ∃ ws, Reads p ws q ∧ V ws

-- Behind a token that can be consumed, there is at worst a stray byte.
theorem not_isMisplaced_of_refuses_advance {e : SyntaxError} (h : Refuses advance p (.fault e) q) :
    ¬e.isMisplaced := by
  obtain ⟨e, l, hn, ⟨⟩, -⟩ := refuses_advance.mp h
  exact Lexer.not_isMisplaced hn

namespace Stuck

variable {m m' : ParseM α} {g : α → ParseM β} {k : Kind} {what : String}

theorem mono (hv : ∀ ws, V ws → W ws) (h : Stuck V m) : Stuck W m := by
  intro p e q hr hm hp
  have ⟨ws, hw, hv'⟩ := h hr hm hp
  exact ⟨ws, hw, hv ws hv'⟩

theorem pure (a : α) : Stuck V (pure a : ParseM α) := by
  intro p e q hr
  simp at hr

theorem fail {e : SyntaxError} (hv : V []) : Stuck (α := α) V (fail e) := by
  intro p e q hr _ hp
  obtain ⟨-, rfl⟩ := refuses_fail.mp hr
  exact ⟨[], .refl hp, hv⟩

theorem failExpecting (hv : V []) : Stuck (α := α) V (failExpecting what) := by
  intro p e q hr _ hp
  obtain ⟨-, rfl⟩ := refuses_failExpecting.mp hr
  exact ⟨[], .refl hp, hv⟩

theorem bind (h : Stuck V m) (hg : ∀ ⦃p a q⦄, Yields m p a q → p.Ready →
    ∃ ws, Reads p ws q ∧ Stuck (fun us => V (ws ++ us)) (g a)) : Stuck V (m >>= g) := by
  intro p e r hr hm hp
  cases refuses_bind.mp hr
  case inl hr => exact h hr hm hp
  case inr hr =>
    have ⟨a, q, hy, hr⟩ := hr
    have ⟨ws, hw, hs⟩ := hg hy hp
    have ⟨us, hu, hv⟩ := hs hr hm hw.ready
    exact ⟨_, hw.trans hu, hv⟩

-- A parser goes on behind one that is known to be sound.
theorem sound_bind {γ : Type} {outline? : (Symbol → Option Text) → α → Option γ}
    {D : List Word → γ → Prop} (hs : Sound outline? D m) (h : Stuck V m)
    (hg : ∀ ws t a name, outline? name a = some t → D ws t → Stuck (fun us => V (ws ++ us)) (g a)) :
    Stuck V (m >>= g) := by
  refine .bind h fun p a q hy hp => ?_
  have ⟨ws, t, hw, ht, hd⟩ := hs hy hp
  exact ⟨ws, hw, hg ws t a _ ht hd⟩

-- Nothing fails behind the parser.
theorem last (h : Stuck V m) (hg : ∀ a p f r, ¬Refuses (g a) p f r) : Stuck V (m >>= g) := by
  intro p e r hr
  simp only [refuses_bind, hg, and_false, exists_false, or_false] at hr
  exact h hr

theorem map {f : α → β} (h : Stuck V m) : Stuck V (f <$> m) :=
  fun _ _ _ hr => h (refuses_map.mp hr)

theorem prevSpan_bind {g : Span → ParseM β} (h : ∀ s, Stuck V (g s)) :
    Stuck V (prevSpan >>= g) := by
  refine .bind (fun p e q hr => by simp at hr) fun p s q hy hp => ?_
  obtain ⟨-, rfl⟩ := yields_prevSpan.mp hy
  exact ⟨[], .refl hp, h s⟩

theorem get_bind {g : Parser → ParseM β} (h : ∀ q, Stuck V (g q)) : Stuck V (get >>= g) := by
  refine .bind (fun p e q hr => by simp at hr) fun p s q hy hp => ?_
  obtain ⟨rfl, rfl⟩ := yields_get.mp hy
  exact ⟨[], .refl hp, h p⟩

theorem eat (hk : k.isFixed) (h : Stuck (fun ws => V (fixed k :: ws)) m) (h' : Stuck V m') :
    Stuck V (do if ← eat k then m else m') := by
  intro p e r hr hm hp
  cases refuses_eat_ite.mp hr
  case inr hr => exact h' hr.right hm hp
  case inl hr =>
    have ⟨he, hr⟩ := hr
    cases hr
    case inl hr => exact absurd hm (not_isMisplaced_of_refuses_advance hr)
    case inr hr =>
      have ⟨q, hq, hr⟩ := hr
      have hw := hq.reads_fixed hp he hk
      have ⟨us, hu, hv⟩ := h hr hm hw.ready
      exact ⟨_, hw.cons hu, hv⟩

theorem eat_ident (h : ∀ x, Stuck (fun ws => V (.ident x :: ws)) m) (h' : Stuck V m') :
    Stuck V (do if ← Parser.eat .ident then m else m') := by
  intro p e r hr hm hp
  cases refuses_eat_ite.mp hr
  case inr hr => exact h' hr.right hm hp
  case inl hr =>
    have ⟨he, hr⟩ := hr
    cases hr
    case inl hr => exact absurd hm (not_isMisplaced_of_refuses_advance hr)
    case inr hr =>
      have ⟨q, hq, hr⟩ := hr
      have ⟨x, hw, _⟩ := hq.reads_ident hp he
      have ⟨us, hu, hv⟩ := h x hr hm hw.ready
      exact ⟨_, hw.cons hu, hv⟩

theorem eat_bind (h : Stuck V ((do if ← Parser.eat k then m else m') >>= g)) :
    Stuck V (do if ← Parser.eat k then m >>= g else m' >>= g) := by
  rwa [eat_ite_bind]

theorem check (h : Stuck V m) (h' : Stuck V m') : Stuck V (do if ← check k then m else m') := by
  intro p e r hr
  cases refuses_check_ite.mp hr
  case inl hr => exact h hr.right
  case inr hr => exact h' hr.right

theorem expect_bind {g : Token → ParseM β} (hk : k.isFixed) (hv : V [])
    (h : ∀ t, Stuck (fun ws => V (fixed k :: ws)) (g t)) : Stuck V (expect k what >>= g) := by
  refine .bind ?_ fun p t q hy hp => ?_
  · exact .eat hk (fun p e q hr => by simp at hr) (.failExpecting hv)
  · have ⟨he, hm, _⟩ := yields_expect.mp hy
    exact ⟨_, hm.reads_fixed hp he hk, h t⟩

theorem number {m : ParseM Program} (h : Stuck V m) :
    Stuck V (do if ← Parser.eat .number then number else m) := by
  intro p e r hr hm hp
  cases refuses_eat_ite.mp hr
  case inr hr => exact h hr.right hm hp
  case inl hr =>
    obtain ⟨-, hr | ⟨q, -, hr⟩⟩ := hr
    · exact absurd hm (not_isMisplaced_of_refuses_advance hr)
    · obtain ⟨-, ⟨g, -, hf⟩ | ⟨t, g, -, -, hf⟩ | ⟨t, v, -, -, -, hf⟩⟩ := refuses_number.mp hr
      all_goals cases hf
      contradiction

end Stuck

theorem stuck_internPrev : Stuck V internPrev := by
  intro p e q hr
  obtain ⟨-, ⟨g, -, hf⟩ | ⟨t, g, -, -, hf⟩⟩ := refuses_internPrev.mp hr
  all_goals cases hf

theorem Stuck.internPrev_bind {g : Symbol → ParseM β} (h : ∀ s, Stuck V (g s)) :
    Stuck V (internPrev >>= g) := by
  refine .bind stuck_internPrev fun p s q hy hp => ?_
  obtain ⟨t, i, -, hi, rfl⟩ := yields_internPrev.mp hy
  obtain ⟨-, hi⟩ := Interner.intern_eq_ok_iff.mp hi
  refine ⟨[], ?_, h s⟩
  exact ⟨⟨hp.interner.insert hi, hp.words⟩, rfl, by simp, rfl, hp.interner.extends_insert hi⟩

theorem stuck_ident (hv : V []) : Stuck V ident := by
  refine .bind ?_ fun p t q hy hp => ?_
  · intro p e r hr hm hp
    obtain ⟨-, hr⟩ | ⟨-, -, rfl⟩ := refuses_expect.mp hr
    · exact absurd hm (not_isMisplaced_of_refuses_advance hr)
    · exact ⟨[], .refl hp, hv⟩
  · obtain ⟨hk, hm, -⟩ := yields_expect.mp hy
    have ⟨x, hw, _⟩ := hm.reads_ident hp hk
    exact ⟨_, hw, stuck_internPrev⟩

-- The parsers for what follows an opening token stop behind words that can be completed.
def Inner.Stuck (n : Nat) (inner : Inner) : Prop :=
  ∀ o, Parser.Stuck (fun ws => Viable (Within n o.nonterminal) (fixed o.kind :: ws)) (inner o)

section

variable {inner : Inner} {n : Nat} (hi : inner.Stuck n)
include hi

theorem stuck_primary : Stuck (Viable (Within n .primary)) (primary inner) := by
  have literal (v : Literal Empty) (W : List Word → Prop) :
      Stuck W (do return .literal (← prevSpan) v : ParseM Program) :=
    .prevSpan_bind fun _ => .pure _
  refine .number ?_
  refine .eat rfl (literal _ _) ?_
  refine .eat rfl (literal _ _) ?_
  refine .eat rfl (hi .paren) ?_
  refine .eat rfl (hi .brace) ?_
  exact .failExpecting ⟨[zero], .zero .nil, .zero n⟩

theorem stuck_unary : Stuck (Viable (Within n .unary)) (unary inner) := by
  refine .eat rfl (hi .minus) ?_
  exact (stuck_primary hi).mono fun ws hv => hv.mono fun us => Within.unary

end

-- Operators of a tier behind words that are derived already. The induction is on the bound of their
-- number.
theorem stuck_chain {τ : Tier} {operand : ParseM Program} {n : Nat}
    (ho : Sound Expr.outline? (DerivesWithin n τ.operand) operand)
    (h : Stuck (Viable (Within n τ.operand)) operand) (k : Nat) (left : Program) {ws : List Word}
    (hw : Within n (.tier τ) ws) :
    Stuck (fun us => Viable (Within n (.tier τ)) (ws ++ us)) (chain τ.op? operand k left) := by
  induction k generalizing left ws
  case zero => exact .pure left
  case succ k hi =>
    intro p e r hr hm hp
    obtain hr | ⟨_, _, ⟨rfl, rfl⟩, hr⟩ := refuses_bind.mp hr
    · simp at hr
    split at hr
    case h_1 => simp at hr
    case h_2 op hop =>
      have ⟨hk, hop⟩ := Tier.op?_eq_some_iff.mp hop
      obtain hr | ⟨_, q, hq, hr⟩ := refuses_bind.mp hr
      · exact absurd hm (not_isMisplaced_of_refuses_advance hr)
      have hop' := Moves.reads_fixed hq hp hk.symm op.isFixed_kind
      have hs : Stuck (fun us => Viable (Within n (.tier τ)) (ws ++ fixed op.kind :: us))
          (operand >>= fun right => chain τ.op? operand k (.binary (left.span.merge right.span) op left
            right)) := by
        refine .sound_bind ho (h.mono fun us hv => ?_) fun vs t right _ _ hd => ?_
        · rw [List.append_cons]
          refine hv.part _ .nil fun us hu => ?_
          rw [List.append_nil, ←List.append_cons]
          exact .binary hop hw hu
        · have hc := hi (.binary (left.span.merge right.span) op left right) (hw.binary hop ⟨t, hd⟩)
          simpa using hc
      have ⟨us, hu, hv⟩ := hs hr hm hop'.ready
      exact ⟨_, hop'.cons hu, hv⟩

theorem stuck_tier {τ : Tier} {operand : ParseM Program} {n : Nat}
    (ho : Sound Expr.outline? (DerivesWithin n τ.operand) operand)
    (h : Stuck (Viable (Within n τ.operand)) operand) :
    Stuck (Viable (Within n (.tier τ))) (tier τ.op? operand) := by
  refine .sound_bind ho (h.mono fun us hv => hv.mono fun vs => Within.tier) fun ws t left _ _ hd => ?_
  refine .get_bind fun q => ?_
  exact stuck_chain ho h _ left (.tier ⟨t, hd⟩)

section

variable {inner : Inner} {n : Nat} (hs : inner.Sound n) (hi : inner.Stuck n)
include hs hi

theorem stuck_expr : Stuck (Viable (Within n .expr)) (expr inner) := by
  refine .eat rfl (hi .cond) ?_
  have multiplication := stuck_tier (τ := .multiplication) (sound_unary hs) (stuck_unary hi)
  have sound₁ := sound_tier (t := .multiplication) (sound_unary hs)
  have addition := stuck_tier (τ := .addition) sound₁ multiplication
  have sound₂ := sound_tier (t := .addition) sound₁
  have comparison := stuck_tier (τ := .comparison) sound₂ addition
  have sound₃ := sound_tier (t := .comparison) sound₂
  have equality := stuck_tier (τ := .equality) sound₃ comparison
  exact equality.mono fun ws hv => hv.mono fun us => Within.expr

-- An expression as a part of something else, behind the words `pre` and in front of `tail`.
theorem stuck_expr_part (pre : List Word) {tail : List Word} {D : List Word → Prop}
    (ht : Usable tail) (h : ∀ us, Within n .expr us → D (pre ++ (us ++ tail))) :
    Stuck (fun us => Viable D (pre ++ us)) (expr inner) :=
  (stuck_expr hs hi).mono fun _ hv => hv.part pre ht h

theorem stuck_bracedExpr_part (pre : List Word) {tail : List Word} {D : List Word → Prop}
    (ht : Usable tail)
    (h : ∀ us, Within n .expr us → D (pre ++ fixed .lbrace :: (us ++ fixed .rbrace :: tail))) :
    Stuck (fun us => Viable D (pre ++ us)) (bracedExpr inner) := by
  have hz := h [zero] (.ofPrimary (.zero n))
  refine .expect_bind rfl ?_ fun _ => .sound_bind (sound_expr hs) ?_ fun us t e _ _ hd => ?_
  · exact ⟨_, .fixed rfl (.zero (.fixed rfl ht)), by simpa using hz⟩
  · have he := stuck_expr_part hs hi (pre ++ [fixed .lbrace]) (.fixed rfl ht) fun us hu => by simpa using h us hu
    simpa using he
  · refine .expect_bind rfl ?_ fun _ => .pure _
    exact ⟨_, .fixed rfl ht, by simpa using h us ⟨t, hd⟩⟩

theorem stuck_declaration :
    Stuck (fun us => Viable (ItemWithin n) (fixed .kwLet :: us)) (declaration inner) := by
  refine .prevSpan_bind fun _ => .sound_bind sound_ident (stuck_ident ?_) ?_
  · exact ⟨_, .anyName (.fixed rfl .nil), .declare .none .none (by simp)⟩
  rintro _ _ _ _ - ⟨x, rfl, rfl⟩
  refine .eat_bind (.sound_bind sound_annotation ?_ fun ts type' type _ _ ht => ?_)
  · refine .eat rfl (.map (stuck_ident ?_)) (.pure none)
    exact ⟨_, .anyName (.fixed rfl .nil), .declare .some .none (by simp)⟩
  refine .eat_bind (.sound_bind (sound_initial hs) ?_ fun is init' init _ _ hv => ?_)
  · refine .eat rfl (.map ?_) (.pure none)
    have he := stuck_expr_part hs hi (fixed .kwLet :: .ident x :: (ts ++ [fixed .eq]))
      (D := ItemWithin n) (.fixed (k := .semi) rfl .nil) fun us hu => by
        obtain ⟨t, hd⟩ := hu
        have hi := ItemWithin.declare (x := x) ht (.some hd.derives) fun t ht => by
          cases ht
          exact hd.nesting
        simpa using hi
    simpa using he
  · refine .expect_bind rfl ?_ fun _ => .prevSpan_bind fun _ => .pure _
    refine ⟨_, .fixed (k := .semi) rfl .nil, ?_⟩
    have hd := ItemWithin.declare (x := x) ht hv.left hv.right
    simpa using hd

theorem stuck_assignment (x : Bytes) :
    Stuck (fun us => Viable (ItemWithin n) (.ident x :: us)) (assignment inner) := by
  refine .prevSpan_bind fun _ => .internPrev_bind fun _ => ?_
  refine .expect_bind rfl ?_ fun _ => .sound_bind (sound_expr hs) ?_ fun us t e _ _ hd => ?_
  · exact ⟨_, .fixed rfl (.zero (.fixed rfl .nil)), .assign (.ofPrimary (.zero n))⟩
  · exact stuck_expr_part hs hi [.ident x, fixed .eq] (.fixed rfl .nil)
      fun us hu => .assign hu
  · refine .expect_bind rfl ?_ fun _ => .prevSpan_bind fun _ => .pure _
    refine ⟨_, .fixed (k := .semi) rfl .nil, ?_⟩
    have hd := ItemWithin.assign (x := x) ⟨t, hd⟩
    simpa using hd

theorem stuck_stmt : Stuck (Viable (ItemWithin n)) (stmt inner) := by
  refine .eat rfl (stuck_declaration hs hi) ?_
  refine .eat_ident (stuck_assignment hs hi) ?_
  have hz : Viable (ItemWithin n) [] :=
    ⟨_, .zero (.fixed rfl .nil), .discard (.ofPrimary (.zero n))⟩
  refine .get_bind fun q => ?_
  dsimp only
  split
  case isTrue => exact .fail hz
  case isFalse =>
    refine .sound_bind (sound_expr hs) ?_ fun us t e _ _ hd => ?_
    · exact stuck_expr_part hs hi [] (.fixed rfl .nil) fun us hu => .discard hu
    · refine .eat rfl (.prevSpan_bind fun _ => .pure _) (.check (.pure _) (.failExpecting ?_))
      exact ⟨_, .fixed rfl .nil, by simpa using ItemWithin.discard ⟨t, hd⟩⟩

-- Statements up to the closing brace. The induction is on the bound of their number.
theorem stuck_stmtsWithin (k : Nat) : Stuck (Viable (BodyWithin n)) (stmtsWithin inner k) := by
  have hz : Viable (BodyWithin n) [] := ⟨_, .fixed rfl .nil, .close n⟩
  induction k
  case zero => exact .failExpecting hz
  case succ k ih =>
    refine .eat rfl (.pure []) (.check (.failExpecting hz) ?_)
    refine .sound_bind (sound_stmt hs) ?_ fun ws t s name ht hd => ?_
    · refine (stuck_stmt hs hi).mono fun us hv => ?_
      refine hv.part [] (.fixed (k := .rbrace) rfl .nil) fun vs hv => ?_
      show BodyWithin n (vs ++ [_])
      exact .item hv (.close n)
    split
    case h_1 =>
      refine .expect_bind rfl ?_ fun _ => .pure _
      refine ⟨_, .fixed (k := .rbrace) rfl .nil, ?_⟩
      rw [List.append_nil]
      obtain ⟨hd | ⟨t, rfl, hd⟩, hn⟩ := hd
      · exact .item ⟨t, hd, hn⟩ (.close n)
      · exact .result ⟨t, hd, hn⟩
    case h_2 hne =>
      obtain ⟨hd | ⟨t, rfl, -⟩, hn⟩ := hd
      · refine .last (ih.mono fun us hv => hv.part _ .nil fun us hu => ?_) (by simp)
        rw [List.append_nil]
        exact .item ⟨t, hd, hn⟩ hu
      · have ⟨_, _, hs⟩ := Stmt.eq_result_of_outline? ht
        exact absurd hs (hne _ _)

-- One level adds one to the levels of what is inside.
theorem stuck_enclosed : Inner.Stuck (n + 1) (enclosed inner) := by
  intro o
  cases o
  all_goals refine .prevSpan_bind fun _ => ?_
  case minus =>
    refine .last ((stuck_primary hi).mono fun us hv => ?_) (by simp)
    refine hv.part [fixed .minus] .nil fun us hu => ?_
    rw [List.append_nil]
    exact .neg hu
  case paren =>
    refine .sound_bind (sound_expr hs) ?_ fun us t e _ _ hd => ?_
    · exact stuck_expr_part hs hi [fixed .lparen] (.fixed rfl .nil) fun us hu => .grouping hu
    · refine .expect_bind rfl ?_ fun _ => .prevSpan_bind fun _ => .pure _
      refine ⟨_, .fixed (k := .rparen) rfl .nil, ?_⟩
      rw [List.append_nil]
      exact .grouping ⟨t, hd⟩
  case brace =>
    refine .last (.get_bind fun q => (stuck_stmtsWithin hs hi _).mono fun us hv => ?_) (by simp)
    refine hv.part [fixed .lbrace] .nil fun us hu => ?_
    rw [List.append_nil]
    exact hu.block
  case cond =>
    show Stuck (fun us => Viable (Within (n + 1) .expr) (fixed .kwIf :: us)) _
    have hz : Within n .expr [zero] := .ofPrimary (.zero n)
    have usable : Usable [fixed .kwElse, fixed .lbrace, zero, fixed .rbrace] :=
      .fixed rfl (.fixed rfl (.zero (.fixed rfl .nil)))
    refine .sound_bind (sound_expr hs) ?_ fun cs c _ _ _ hc => ?_
    · have ht : Usable (fixed .lbrace :: zero :: fixed .rbrace :: _) :=
        .fixed rfl (.zero (.fixed rfl usable))
      exact stuck_expr_part hs hi [fixed .kwIf] ht fun us hu => .cond hu hz hz
    refine .sound_bind (sound_bracedExpr hs) ?_ ?_
    · refine stuck_bracedExpr_part hs hi (fixed .kwIf :: cs) usable fun us hu => ?_
      exact .cond ⟨c, hc⟩ hu hz
    rintro _ t _ _ - ⟨ts, rfl, ht⟩
    refine .expect_bind rfl ?_ fun _ => ?_
    · have hd := Within.cond ⟨c, hc⟩ ⟨t, ht⟩ hz
      exact ⟨_, usable, by simpa using hd⟩
    refine .last ?_ (by simp)
    have hd := stuck_bracedExpr_part hs hi
      (fixed .kwIf :: (cs ++ fixed .lbrace :: (ts ++ [fixed .rbrace, fixed .kwElse])))
      (D := Within (n + 1) .expr) .nil
      fun us hu => by simpa using Within.cond ⟨c, hc⟩ ⟨t, ht⟩ hu
    simpa using hd

end

theorem stuck_nested (n : Nat) : Inner.Stuck n (nested n) := by
  induction n
  case zero =>
    intro o p e q hr hm
    exact absurd hm (Failure.not_isMisplaced_of_tooDeep (refuses_failTooDeep.mp hr).left)
  case succ n hi =>
    intro o p e q hr hm hp
    obtain ⟨q, hq, rfl⟩ := refuses_deeper.mp hr
    have ⟨ws, hw, hv⟩ := stuck_enclosed (sound_nested n) hi o hq hm ⟨hp.interner, hp.words⟩
    exact ⟨ws, hw.deepen, hv⟩

theorem stuck_whole {e : SyntaxError} (h : Refuses whole p (.fault e) q) (hm : e.isMisplaced)
    (hp : p.Ready) : ∃ ws, Reads p ws q ∧ Viable (Within p.levels .expr) ws := by
  have hs := sound_nested p.levels
  have stuck : Stuck (Viable (Within p.levels .expr)) (do
      let e ← expr (nested p.levels)
      if ← check .eof then return e else failExpecting "end of input") := by
    refine .sound_bind (sound_expr hs) (stuck_expr hs (stuck_nested _)) fun us t e _ _ hd => ?_
    refine .check (.pure e) (.failExpecting ?_)
    rw [List.append_nil]
    exact .self ⟨t, hd⟩
  exact stuck ((run_whole p).symm.trans h) hm hp

end Parser
end ExprLang
