import ExprLang.Proofs.Eval.Chain
import ExprLang.Proofs.Eval.Exact

/-!
Arithmetic in 32 bits is exact or reported. Whatever the evaluator comes to is the value that a tree has
with numbers of any size, and the operators that it applies on the way tell when there is an overflow
or a division by zero.
-/
namespace ExprLang

variable {δ : Type}

-- An operator that is applied to the values of its operands.
inductive Operation (δ : Type)
  | neg (span : Span) (operand : Expr δ) (v : Value)
  | binary (span : Span) (op : BinOp) (left right : Expr δ) (a b : Value)

namespace Operation

def node : Operation δ → Expr δ
  | .neg span e _ => .unary span .neg e
  | .binary span op l r _ _ => .binary span op l r

-- The number that the operator comes to.
def number? : Operation δ → Option Int
  | .neg _ _ (.num n) => some (-n)
  | .binary _ op _ _ (.num a) (.num b) => op.number? a b
  | _ => none

-- The faults of arithmetic that there can be in applying the operator.
inductive Faults : Operation δ → EvalError.Cause → Prop
  | overflow (h : number? o = some n) (hn : ¬IsInt32 n) : Faults o (.overflow n)
  | divisionByZero : Faults (.binary span .div l r (.num a) (.num 0)) .divisionByZero

-- An operator that makes a number can have no other fault than its size.
theorem faults_iff {o : Operation δ} {n : Int} (h : o.number? = some n) {cause : EvalError.Cause} :
    o.Faults cause ↔ ¬IsInt32 n ∧ cause = .overflow n := by
  constructor
  case mp =>
    intro hf
    cases hf with
    | overflow h' hn =>
      cases h.symm.trans h'
      exact ⟨hn, rfl⟩
    | divisionByZero => cases h
  case mpr =>
    rintro ⟨hn, rfl⟩
    exact .overflow h hn

-- The operands are what they are taken for.
def Sound : Operation δ → Prop
  | .neg _ e v => e.HasValue v
  | .binary _ _ l r a b => l.HasValue a ∧ r.HasValue b

-- What an operator comes to with operands that fit can be written.
theorem isWritable_number? {o : Operation δ} {n : Int} (hs : o.Sound) (hn : o.number? = some n) :
    Text.isWritable n := by
  refine Eval.isWritable_of_natAbs_le ?_
  cases o with
  | neg span e v =>
    cases v with
    | bool => cases hn
    | num k =>
      cases hn
      have hk : IsInt32 k := hs.right
      simp only [IsInt32] at hk
      omega
  | binary span op l r a b =>
    cases a <;> cases b
    case num.num => exact BinOp.natAbs_number?_le hs.left.right hs.right.right hn
    all_goals cases hn

end Operation

namespace Eval

-- What follows once there is a result.
def onResult {α β : Type} (r : EvalM δ α) (f : α → List β) : List β :=
  match r with
  | .ok v => f v
  | .error _ => []

@[simp]
theorem onResult_nil {α β : Type} (r : EvalM δ α) : onResult r (fun _ => ([] : List β)) = [] := by
  cases r <;> rfl

section

variable [Provenance δ]

-- The operators that are applied in a chain, if `inner` tells those in its operands.
def chainOperations (limit : Int) (n : Nat) (inner : Expr δ → List (Operation δ)) :
    Expr δ → List (Operation δ)
  | .binary span op l r =>
    chainOperations limit n inner l ++ onResult (chained limit n l) fun a =>
      inner r ++ onResult (within limit n r) fun b => [.binary span op l r a b]
  | e => inner e

-- The operators that are applied in evaluating an expression, in order and up to the first fault.
def operations (limit : Int) : (levels : Nat) → Expr δ → List (Operation δ)
  | n + 1, .unary span .neg e =>
    operations limit n e ++ onResult (within limit n e) fun v => [.neg span e v]
  | n + 1, .binary span op l r =>
    chainOperations limit n (operations limit n) (.binary span op l r)
  | n + 1, .grouping _ e => operations limit n e
  | n + 1, .cond span c t e =>
    operations limit n c ++ onResult (within limit n c) fun
      | .bool true => onResult (logSpan (δ := δ) span) fun _ => operations limit n t
      | .bool false => onResult (logSpan (δ := δ) span) fun _ => operations limit n e
      | .num _ => []
  | _, _ => []

end

end Eval

def Expr.operations [Provenance δ] (e : Expr δ) (maxDepth : Int) : List (Operation δ) :=
  Eval.operations maxDepth maxDepth.toNat e

-- The faults that only arithmetic has.
def EvalError.Cause.isArithmetic : EvalError.Cause → Bool
  | .overflow _ | .divisionByZero => true
  | _ => false

namespace Eval

variable {α : Type} {r x y : EvalM δ Value} {os os' : List (Operation δ)} {span : Span} {e : Expr δ}
  {v a b : Value}

-- The operators in a list have sound operands, and they tell whether there is a fault of arithmetic.
structure Accounts (r : EvalM δ α) (os : List (Operation δ)) : Prop where
  sound : ∀ o ∈ os, o.Sound
  fault : ∀ span (cause : EvalError.Cause), cause.isArithmetic →
    (r = .error (.fault ⟨span, cause⟩) ↔ ∃ o ∈ os, o.node.span = span ∧ o.Faults cause)

namespace Accounts

section

variable {r : EvalM δ α}

theorem nil (h : ∀ span (cause : EvalError.Cause), cause.isArithmetic →
    r ≠ .error (.fault ⟨span, cause⟩)) : Accounts r [] where
  sound := nofun
  fault span cause hc := by simp [h span cause hc]

theorem ok {a : α} : Accounts (δ := δ) (.ok a) [] :=
  nil nofun

theorem misplaced (ok : δ) (m : Misplaced) : Accounts (α := α) (.error (.misplaced ok m)) [] :=
  nil nofun

theorem spanless (ok : δ) (a : Atom) : Accounts (α := α) (.error (.spanless ok a)) [] :=
  nil nofun

theorem logSpan [Provenance δ] (span : Span) : Accounts (δ := δ) (logSpan span) [] := by
  refine nil fun _ _ _ h => ?_
  cases logSpan_cases (δ := δ) span with
  | inl hs => cases hs.symm.trans h
  | inr hs =>
    obtain ⟨ok, hs⟩ := hs
    cases hs.symm.trans h

theorem fail {cause : EvalError.Cause} (h : cause.isArithmetic = false) :
    Accounts (δ := δ) (α := α) (fail span cause) [] := by
  refine nil fun _ cause' hc he => ?_
  obtain ⟨-, he⟩ := EvalFailure.ofFault_eq_fault.mp (Except.error.inj he)
  cases he
  simp [h] at hc

-- One thing after the other.
theorem bind {β : Type} {f : α → EvalM δ β} {g : α → List (Operation δ)} (h : Accounts r os)
    (hf : ∀ v, r = .ok v → Accounts (f v) (g v)) : Accounts (r >>= f) (os ++ onResult r g) := by
  cases r with
  | error e =>
    show Accounts (.error e) (os ++ [])
    rw [List.append_nil]
    refine { sound := h.sound, fault := fun span cause hc => ?_ }
    rw [←h.fault span cause hc, Except.error.injEq, Except.error.injEq]
  | ok v =>
    have hv := hf v rfl
    constructor
    case sound =>
      intro o ho
      cases List.mem_append.mp ho with
      | inl ho => exact h.sound o ho
      | inr ho => exact hv.sound o ho
    case fault =>
      intro span cause hc
      refine (hv.fault span cause hc).trans ⟨?_, ?_⟩
      · rintro ⟨o, ho, hs, hfault⟩
        exact ⟨o, List.mem_append_right _ ho, hs, hfault⟩
      · rintro ⟨o, ho, hs, hfault⟩
        cases List.mem_append.mp ho with
        -- What came to a result had no fault.
        | inl ho => cases (h.fault span cause hc).mpr ⟨o, ho, hs, hfault⟩
        | inr ho => exact ⟨o, ho, hs, hfault⟩

end

-- A single operator.
theorem single {o : Operation δ} (hs : o.Sound)
    (hf : ∀ span (cause : EvalError.Cause), cause.isArithmetic →
      (r = .error (.fault ⟨span, cause⟩) ↔ o.node.span = span ∧ o.Faults cause)) :
    Accounts r [o] where
  sound := by simpa using hs
  fault span cause hc := by simpa using hf span cause hc

-- Applying an operator that makes a number.
theorem number {o : Operation δ} {n : Int} (hs : o.Sound) (hn : o.number? = some n) :
    Accounts (int32 o.node.span n) [o] := by
  have hw : (⟨o.node.span, .overflow n⟩ : EvalError).isWritable := Operation.isWritable_number? hs hn
  refine single hs fun span cause _ => ?_
  rw [Operation.faults_iff hn, int32_eq, fail_eq_fault hw]
  by_cases h : IsInt32 n <;> simp [h, eq_comm]

-- Applying an operator in which arithmetic has no part.
theorem silent {o : Operation δ} (h : Accounts r []) (hs : o.Sound) (hf : ∀ cause, ¬o.Faults cause) :
    Accounts r [o] := by
  refine single hs fun span cause hc => ?_
  simpa [hf] using h.fault span cause hc

theorem neg (h : e.HasValue v) :
    Accounts (match v with
      | .num n => int32 span (-n)
      | .bool b => Eval.fail e.span (.notNegatable (Value.bool b).ty)) [.neg span e v] := by
  cases v with
  | num n => exact number (o := .neg span e (.num n)) h rfl
  | bool b => exact silent (fail rfl) h (by rintro _ ⟨⟨⟩⟩)

-- A division by zero makes no number.
theorem byZero {left right : Expr δ} {n : Int} (hl : left.HasValue (.num n))
    (hr : right.HasValue (.num 0)) :
    Accounts (Eval.fail (α := Value) span .divisionByZero) [.binary span .div left right (.num n) (.num 0)] := by
  refine single ⟨hl, hr⟩ fun span' cause _ => ⟨?_, ?_⟩
  · intro he
    rw [fail_eq_fault rfl] at he
    cases he
    exact ⟨rfl, .divisionByZero⟩
  · rintro ⟨rfl, hf⟩
    cases hf with
    | overflow hn => cases hn
    | divisionByZero => rfl

theorem binary {op : BinOp} {left right : Expr δ} (hl : left.HasValue a) (hr : right.HasValue b) :
    Accounts (op.meaning span left.span right.span a b) [.binary span op left right a b] := by
  have hs : (Operation.binary span op left right a b).Sound := ⟨hl, hr⟩
  cases a <;> cases b <;> simp only [BinOp.meaning]
  case num.num a b =>
    cases op <;> simp only [BinOp.onNumbers]
    case add | sub | mul => exact number hs rfl
    case div =>
      split
      case isTrue hb =>
        subst hb
        exact byZero hl hr
      case isFalse hb =>
        refine number hs ?_
        simp [Operation.number?, BinOp.number?, hb, towardZero_div]
    all_goals exact silent ok hs (by rintro _ ⟨⟨⟩⟩)
  case bool.bool =>
    refine silent ?_ hs (by rintro _ ⟨⟨⟩⟩)
    split
    · exact ok
    · exact fail rfl
  case num.bool | bool.num =>
    refine silent ?_ hs (by rintro _ ⟨⟨⟩⟩)
    split <;> exact fail rfl

end Accounts

theorem bind_eq_ok {β : Type} {r : EvalM δ α} {f : α → EvalM δ β} {v : β} (h : r >>= f = .ok v) :
    ∃ u, r = .ok u ∧ f u = .ok v := by
  cases r with
  | error => cases h
  | ok u => exact ⟨u, rfl, h⟩

-- What evaluating an expression comes to is its exact value, and `os` are the operators that it applies.
structure Faithful (e : Expr δ) (r : EvalM δ Value) (os : List (Operation δ)) : Prop
    extends Accounts r os where
  value : ∀ v, r = .ok v → e.HasValue v

namespace Faithful

-- What comes to no value and has no operators.
theorem error {f : EvalFailure δ} (h : Accounts (α := Value) (.error f) []) : Faithful e (.error f) [] :=
  { h with value := nofun }

theorem neg (h : Faithful e r os) :
    Faithful (.unary span .neg e) (r >>= fun
      | .num n => int32 span (-n)
      | .bool b => fail e.span (.notNegatable (Value.bool b).ty))
      (os ++ onResult r fun v => [.neg span e v]) where
  toAccounts := h.bind fun v hv => .neg (h.value v hv)
  value v hv := by
    have ⟨u, hu, hv⟩ := bind_eq_ok hv
    cases u with
    | bool => cases hv
    | num n =>
      have ⟨hv, hf⟩ := int32_eq_ok hv
      exact ⟨by simp [Expr.exact, (h.value _ hu).left, hv], hf⟩

theorem binary {op : BinOp} {left right : Expr δ} (hl : Faithful left x os)
    (hr : Faithful right y os') :
    Faithful (.binary span op left right)
      (x >>= fun a => y >>= fun b => op.meaning span left.span right.span a b)
      (os ++ onResult x fun a => os' ++ onResult y fun b => [.binary span op left right a b]) where
  toAccounts :=
    hl.bind fun a ha => hr.bind fun b hb => .binary (hl.value a ha) (hr.value b hb)
  value v hv := by
    have ⟨a, ha, hv⟩ := bind_eq_ok hv
    have ⟨b, hb, hv⟩ := bind_eq_ok hv
    have ⟨hv, hf⟩ := exact_of_meaning hv
    exact ⟨by simp [Expr.exact, (hl.value a ha).left, (hr.value b hb).left, hv], hf⟩

theorem cond [Provenance δ] {c t : Expr δ} {k : Expr δ → EvalM δ Value} {os'' : List (Operation δ)}
    (hc : Faithful c x os) (ht : Faithful t (k t) os') (he : Faithful e (k e) os'') :
    Faithful (.cond span c t e) (x >>= fun
      | .bool b => logSpan span >>= fun _ => k (if b then t else e)
      | .num n => fail c.span (.notCondition (Value.num n).ty))
      (os ++ onResult x fun
        | .bool true => onResult (logSpan (δ := δ) span) fun _ => os'
        | .bool false => onResult (logSpan (δ := δ) span) fun _ => os''
        | .num _ => []) where
  toAccounts := hc.bind fun v _ => by
    rcases v with n | (_ | _)
    · exact .fail rfl
    · exact (Accounts.logSpan span).bind fun _ _ => he.toAccounts
    · exact (Accounts.logSpan span).bind fun _ _ => ht.toAccounts
  value v hv := by
    obtain ⟨u, hu, hv⟩ := bind_eq_ok hv
    have hu := (hc.value u hu).left
    rcases u with n | (_ | _)
    · cases hv
    · obtain ⟨_, _, hv⟩ := bind_eq_ok hv
      obtain ⟨hv, hf⟩ := he.value v hv
      exact ⟨by simp [Expr.exact, hu, hv], hf⟩
    · obtain ⟨_, _, hv⟩ := bind_eq_ok hv
      obtain ⟨hv, hf⟩ := ht.value v hv
      exact ⟨by simp [Expr.exact, hu, hv], hf⟩

-- Noting the place of a value applies no operators.
theorem noted [Provenance δ] (h : Faithful e r os) : Faithful e (r >>= fun v => do
    logSpan span
    return v) os where
  toAccounts := by
    have hs := h.toAccounts.bind fun v _ => (Accounts.logSpan span).bind fun _ _ => .ok (a := v)
    simp only [onResult_nil, List.append_nil] at hs
    exact hs
  value v hv := by
    have ⟨u, hu, hv⟩ := bind_eq_ok hv
    have ⟨_, _, hv⟩ := bind_eq_ok hv
    exact h.value v (Except.ok.inj hv ▸ hu)

end Faithful

variable [Provenance δ] {limit : Int} {n : Nat}

-- A chain is faithful if its operands are.
theorem faithful_chained
    (hn : ∀ e : Expr δ, e.LiteralsFit → Faithful e (within limit n e) (operations limit n e)) :
    (e : Expr δ) → e.LiteralsFit →
    Faithful e (chained limit n e) (chainOperations limit n (operations limit n) e)
  | .binary _ _ l r, h => (faithful_chained hn l h.left).binary (hn r h.right)
  | .literal .., h | .unary .., h | .grouping .., h | .cond .., h | .block .., h | .strayBody .., h
  | .strayStmt .., h | .strayBlock .., h | .strayAtom .., h => hn _ h

theorem faithful_within (h : e.LiteralsFit) :
    Faithful e (within limit n e) (operations limit n e) := by
  -- Along the levels, of which a chain takes one, however many operators it has.
  induction n generalizing e with
  | zero =>
    cases e with
    | strayAtom ok a => exact .error (.spanless ok a)
    | _ => exact .error (.fail rfl)
  | succ n ih =>
    cases e with
    | literal span v =>
      refine { Accounts.ok with value := fun v hv => ?_ }
      cases hv
      exact ⟨rfl, h⟩
    | unary span op e =>
      cases op
      have he : e.LiteralsFit := h
      simp only [within, checked_eq]
      exact (ih he).neg
    | binary span op l r =>
      rw [within_binary]
      exact faithful_chained (fun _ => ih) _ h
    | grouping span e =>
      have he : e.LiteralsFit := h
      exact { ih he with value := (ih he).value }
    | cond span c t e => exact (ih h.left).cond (ih h.right.left) (ih h.right.right)
    | block | strayBody => exact .error (.fail rfl)
    | strayStmt ok | strayBlock ok | strayAtom ok => exact .error (.misplaced ok _)

end Eval

-- The operators that can fail with a single operand or a single pair of them.
theorem Operation.operands_of_overflow {o : Operation δ} {n : Int} (hs : o.Sound)
    (hn : o.number? = some n) (h : ¬IsInt32 n) :
    (∀ span e v, o = .neg span e v → v = .num (-2 ^ 31)) ∧
    ∀ span l r a b, o = .binary span .div l r a b → a = .num (-2 ^ 31) ∧ b = .num (-1) := by
  constructor
  case left =>
    rintro span e (k | _) rfl
    case bool => cases hn
    case num =>
      cases hn
      have hk : IsInt32 k := hs.right
      simp only [IsInt32] at hk h
      congr
      omega
  case right =>
    rintro span l r (a | _) (b | _) rfl
    case num.num =>
      have ha : IsInt32 a := hs.left.right
      simp only [number?, BinOp.number?, Option.ite_none_left_eq_some, Option.some.injEq] at hn
      rw [←hn.right, towardZero_div] at h
      obtain ⟨ha, hb⟩ := eq_of_not_isInt32_tdiv ha h
      exact ⟨congrArg _ ha, congrArg _ hb⟩
    all_goals cases hn

-- The evaluator never wraps a number around. Where all numbers in a tree fit, as they do in all that is
-- parsed, a value is the exact one and fits, too. There is an overflow if and only if the exact result
-- of an operator that is applied does not fit, and a division by zero if and only if one is applied.
theorem evaluate_exact [Provenance δ] {e : Expr δ} (he : e.LiteralsFit) (d : Int) :
    (∀ n, evaluate e d = .ok (.num n) → IsInt32 n ∧ e.exact = some (.num n)) ∧
    (∀ b, evaluate e d = .ok (.bool b) → e.exact = some (.bool b)) ∧
    (∀ o ∈ e.operations d, o.Sound) ∧
    (∀ span n, evaluate e d = .error (.fault ⟨span, .overflow n⟩) ↔
      ∃ o ∈ e.operations d, o.node.span = span ∧ o.number? = some n ∧ ¬IsInt32 n) ∧
    (∀ o ∈ e.operations d, ∀ n, o.number? = some n → ¬IsInt32 n →
      (∀ span x v, o = .neg span x v → v = .num (-2 ^ 31)) ∧
      ∀ span l r a b, o = .binary span .div l r a b → a = .num (-2 ^ 31) ∧ b = .num (-1)) ∧
    (∀ span, evaluate e d = .error (.fault ⟨span, .divisionByZero⟩) ↔
      ∃ l r n, .binary span .div l r (.num n) (.num 0) ∈ e.operations d) ∧
    ∀ {src i d'} {p : Program} {j}, i.Reachable → parse src i d' = (.ok p, j) → p.LiteralsFit := by
  have h : Eval.Faithful e (evaluate e d) (e.operations d) := (Eval.faithful_within he).noted
  refine ⟨fun n hn => ?_, fun b hb => (h.value _ hb).left, h.sound, fun span n => ?_,
    fun o ho n => Operation.operands_of_overflow (h.sound o ho), fun span => ?_, literalsFit_of_parse⟩
  · have ⟨he, hf⟩ := h.value _ hn
    exact ⟨hf, he⟩
  · refine (h.fault span (.overflow n) rfl).trans ⟨?_, ?_⟩
    · rintro ⟨o, ho, hs, hn, hf⟩
      exact ⟨o, ho, hs, hn, hf⟩
    · rintro ⟨o, ho, hs, hn, hf⟩
      exact ⟨o, ho, hs, .overflow hn hf⟩
  · refine (h.fault span .divisionByZero rfl).trans ⟨?_, ?_⟩
    · rintro ⟨o, ho, hs, hf⟩
      cases hf
      cases hs
      exact ⟨_, _, _, ho⟩
    · rintro ⟨l, r, n, ho⟩
      exact ⟨_, ho, rfl, .divisionByZero⟩

-- The one quotient that does not fit, and a product before it.
theorem evaluate_exact_quotient :
    let product : Program := .binary ⟨0, 5, by decide⟩ .mul
      (.literal ⟨0, 1, by decide⟩ (.num (-0x40000000))) (.literal ⟨4, 5, by decide⟩ (.num 2))
    let minusOne : Program := .literal ⟨8, 9, by decide⟩ (.num (-1))
    let e : Program := .binary ⟨0, 9, by decide⟩ .div product minusOne
    e.LiteralsFit ∧ evaluate product 2 = .ok (.num (-0x80000000)) ∧
      IsInt32 (-0x80000000) ∧ product.exact = some (.num (-0x80000000)) ∧
      evaluate e 2 = .error (.fault ⟨⟨0, 9, by decide⟩, .overflow 0x80000000⟩) := by
  intro product minusOne e
  have fits {n : Int} (h : IsInt32 n) (span : Span) :
      (Expr.literal span (.num n) : Program).LiteralsFit := h
  have hp : product.LiteralsFit := ⟨fits (by decide) _, fits (by decide) _⟩
  have he : e.LiteralsFit := ⟨hp, fits (by decide) _⟩
  have hv : evaluate product 2 = .ok (.num (-0x80000000)) := rfl
  have ⟨hn, hx⟩ := (evaluate_exact hp 2).left _ hv
  have ⟨_, _, _, overflow, _⟩ := evaluate_exact he 2
  refine ⟨he, hv, hn, hx, (overflow _ _).mpr ?_⟩
  have ho : .binary ⟨0, 9, by decide⟩ .div product minusOne (.num (-0x80000000)) (.num (-1)) ∈
      e.operations 2 :=
    .tail _ (.head _)
  exact ⟨_, ho, rfl, congrArg some (towardZero_div _ _), by decide⟩

end ExprLang
