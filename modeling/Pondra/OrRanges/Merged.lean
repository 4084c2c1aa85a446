import Mathlib.Data.List.Sort
import Pondra.OrRanges.Bounds

set_option autoImplicit false

/-! ### An OR of ranges of one column, as one range -/

namespace Pondra.OrRanges

open Edges

inductive Operator
  | Eq
  | NotEq
  | Lt
  | LtEq
  | Gt
  | GtEq
  | And
  | Or
  | other (name : String)
  deriving DecidableEq

structure Column where
  name : String
  index : Nat
  deriving DecidableEq

def Column.dataType (c : Column) (schema : List DataType) : Option DataType := schema[c.index]?

inductive Expr (V : Type)
  | column (c : Column)
  | literal (v : Scalar V)
  | binary (left : Expr V) (op : Operator) (right : Expr V)
  | other (f : String) (n : Nat) (args : Fin n → Expr V)

/-- The operator with its sides exchanged, for a comparison. -/
def Operator.swap : Operator → Option Operator
  | .Eq => some .Eq
  | .NotEq => some .NotEq
  | .Lt => some .Gt
  | .LtEq => some .GtEq
  | .Gt => some .Lt
  | .GtEq => some .LtEq
  | _ => none

variable {V : Type} [LinearOrder V]

/-- `term` as a column compared with a value, the column on the left: `1 <= q` is `q >= 1`. -/
def Expr.compare : Expr V → Option (Column × Operator × Scalar V)
  | .binary (.column c) op (.literal v) => some (c, op, v)
  | .binary (.literal v) op (.column c) => op.swap.map fun op => (c, op, v)
  | _ => none

/-- The parts of a chain of `op`, in order. -/
def split (op : Operator) : Expr V → List (Expr V)
  | .binary left o right =>
    if o = op then split op left ++ split op right else [.binary left o right]
  | e => [e]

/-- The column the terms so far are of, and the range they make. -/
structure Part (V : Type) where
  column : Option Column
  low : Bound V
  high : Bound V

def Part.narrowed (p : Part V) (op : Operator) (v : Scalar V) : Option (Part V) :=
  match op with
  | .Gt => (tighter p.low (v, false) .gt).map fun low => { p with low := low }
  | .GtEq => (tighter p.low (v, true) .gt).map fun low => { p with low := low }
  | .Lt => (tighter p.high (v, false) .lt).map fun high => { p with high := high }
  | .LtEq => (tighter p.high (v, true) .lt).map fun high => { p with high := high }
  | .Eq =>
    match tighter p.low (v, true) .gt, tighter p.high (v, true) .lt with
    | some low, some high => some { p with low := low, high := high }
    | _, _ => none
  | _ => none

def addTerm (schema : List DataType) (p : Part V) (term : Expr V) : Option (Part V) :=
  match term.compare with
  | none => none
  | some (c, op, v) =>
    match c.dataType schema with
    | none => none
    | some t =>
      if !ordered t || v.dataType ≠ t || v.isNull then none
      else if p.column.any (· ≠ c) then none
      else { p with column := some c }.narrowed op v

/-- One part of the OR as a range of the column the parts before it are of. -/
def range (schema : List DataType) (column : Option Column) (part : Expr V) : Option (Part V) :=
  match (split .And part).foldlM (addTerm schema) ⟨column, none, none⟩ with
  | none => none
  | some p => (notEmpty p.low p.high).map fun _ => p

def addPart (schema : List DataType) (before : Option Column × List (Bound V × Bound V))
    (part : Expr V) : Option (Option Column × List (Bound V × Bound V)) :=
  (range schema before.1 part).map fun p => (p.column, before.2 ++ [(p.low, p.high)])

/-- The high of the range so far with the next part's; none at a gap. -/
def widen (high : Bound V) (part : Bound V × Bound V) : Option (Bound V) :=
  match reaches high part.1 with
  | some true => wider high part.2
  | _ => none

def joined (ranges : List (Bound V × Bound V)) : Option (Bound V × Bound V) :=
  match ranges.insertionSort fun a b => lows a.1 b.1 ≠ .gt with
  | [] => none
  | (low, high) :: parts => (parts.foldlM widen high).map fun high => (low, high)

def side (column : Column) (bound : Scalar V × Bool) (closed unclosed : Operator) : Expr V :=
  .binary (.column column) (if bound.2 then closed else unclosed) (.literal bound.1)

def written (column : Column) (low high : Bound V) : Option (Expr V) :=
  match low, high with
  | none, none => none
  | some l, some h =>
    if l = h then some (side column l .Eq .Eq)
    else some (.binary (side column l .GtEq .Gt) .And (side column h .LtEq .Lt))
  | some l, none => some (side column l .GtEq .Gt)
  | none, some h => some (side column h .LtEq .Lt)

/-- `e`, an OR whose every part is a range of the same column, as one range, when the parts overlap or touch;
none for anything else. -/
def oneRange (schema : List DataType) (e : Expr V) : Option (Expr V) :=
  match e with
  | .binary _ .Or _ =>
    match (split .Or e).foldlM (addPart schema) (none, []) with
    | none => none
    | some (column, ranges) =>
      match joined ranges, column with
      | some (low, high), some c => written c low high
      | _, _ => none
  | _ => none

structure Transformed (α : Type) where
  data : α
  transformed : Bool

/-- `e`, whose parts are rewritten already (`below`, if one was), as its one range. -/
def rewritten (schema : List DataType) (e : Expr V) (below : Bool) : Transformed (Expr V) :=
  match oneRange schema e with
  | some range => ⟨range, true⟩
  | none => ⟨e, below⟩

/-- `e` with each OR in it that is one range written as several, as that range. -/
def merged (schema : List DataType) : Expr V → Transformed (Expr V)
  | .column c => rewritten schema (.column c) false
  | .literal v => rewritten schema (.literal v) false
  | .binary left op right =>
    let l := merged schema left
    let r := merged schema right
    rewritten schema (.binary l.data op r.data) (l.transformed || r.transformed)
  | .other f n args =>
    rewritten schema (.other f n fun i => (merged schema (args i)).data)
      ((List.finRange n).any fun i => (merged schema (args i)).transformed)

/-! ### What a predicate answers -/

def and3 : Option Bool → Option Bool → Option Bool
  | some true, b => b
  | some false, _ => some false
  | none, some false => some false
  | none, _ => none

def or3 : Option Bool → Option Bool → Option Bool
  | some false, b => b
  | some true, _ => some true
  | none, some true => some true
  | none, _ => none

/-- The orders of two values a comparison holds for. -/
def Operator.on : Operator → Option (Ordering → Bool)
  | .Eq => some Ordering.isEq
  | .NotEq => some Ordering.isNe
  | .Lt => some Ordering.isLT
  | .LtEq => some Ordering.isLE
  | .Gt => some Ordering.isGT
  | .GtEq => some Ordering.isGE
  | _ => none

/-- What everything else than AND, OR and comparisons of ordered types answers. -/
structure Kernels (V : Type) where
  binary : Operator → Scalar V → Scalar V → Scalar V
  other : String → (n : Nat) → (Fin n → Scalar V) → Scalar V

def binary (k : Kernels V) : Operator → Scalar V → Scalar V → Scalar V
  | .And, .boolean a, .boolean b => .boolean (and3 a b)
  | .Or, .boolean a, .boolean b => .boolean (or3 a b)
  | op, .value t a, .value u b =>
    match op.on with
    | some test =>
      if t = u ∧ ordered t then .boolean (a.bind fun a => b.map fun b => test (Ord.compare a b))
      else k.binary op (.value t a) (.value u b)
    | none => k.binary op (.value t a) (.value u b)
  | op, a, b => k.binary op a b

/-- A row of a schema: each column's value is of its type. -/
structure Row (V : Type) (schema : List DataType) where
  value : Column → Scalar V
  typed : ∀ c t, c.dataType schema = some t → (value c).dataType = t

def eval {schema : List DataType} (k : Kernels V) (row : Row V schema) : Expr V → Scalar V
  | .column c => row.value c
  | .literal v => v
  | .binary left op right => binary k op (eval k row left) (eval k row right)
  | .other f n args => k.other f n fun i => eval k row (args i)

/-! ### What an expression over one column means -/

section Meaning

variable (k : Kernels V) {schema : List DataType}

variable (schema) in
/-- Over column `c`, `e` answers whether its value meets `p`, and NULL for NULL. -/
structure Means (c : Column) (t : DataType) (e : Expr V) (p : V → Prop) : Prop where
  held : ∀ (row : Row V schema) (v : V), row.value c = .value t (some v) →
    ∃ b, eval k row e = .boolean (some b) ∧ (b = true ↔ p v)
  null : ∀ row : Row V schema, row.value c = .value t none → eval k row e = .boolean none

variable {k} {c : Column} {t : DataType}

theorem Means.and {e f : Expr V} {p q : V → Prop} (left : Means k schema c t e p)
    (right : Means k schema c t f q) :
    Means k schema c t (.binary e .And f) fun x => p x ∧ q x where
  held row v is := by
    obtain ⟨a, first, ap⟩ := left.held row v is
    obtain ⟨b, second, bq⟩ := right.held row v is
    refine ⟨a && b, ?_, by rw [Bool.and_eq_true, ap, bq]⟩
    rw [eval, first, second, binary]
    cases a <;> rfl
  null row is := by
    rw [eval, left.null row is, right.null row is]
    rfl

theorem Means.or {e f : Expr V} {p q : V → Prop} (left : Means k schema c t e p)
    (right : Means k schema c t f q) :
    Means k schema c t (.binary e .Or f) fun x => p x ∨ q x where
  held row v is := by
    obtain ⟨a, first, ap⟩ := left.held row v is
    obtain ⟨b, second, bq⟩ := right.held row v is
    refine ⟨a || b, ?_, by rw [Bool.or_eq_true, ap, bq]⟩
    rw [eval, first, second, binary]
    cases a <;> rfl
  null row is := by
    rw [eval, left.null row is, right.null row is]
    rfl

theorem Means.iff {e : Expr V} {p q : V → Prop} (means : Means k schema c t e p)
    (same : ∀ x, p x ↔ q x) : Means k schema c t e q where
  held row v is := by
    obtain ⟨b, answer, bp⟩ := means.held row v is
    exact ⟨b, answer, bp.trans (same v)⟩
  null := means.null

/-- Two expressions that mean the same answer the same. -/
theorem Means.eval_eq {e f : Expr V} {p : V → Prop} (left : Means k schema c t e p)
    (right : Means k schema c t f p) (plain : t ≠ .Boolean)
    (type : c.dataType schema = some t) (row : Row V schema) : eval k row e = eval k row f := by
  have typed := row.typed c t type
  cases value : row.value c with
  | boolean b =>
    rw [value] at typed
    exact absurd typed.symm plain
  | value u v =>
    rw [value] at typed
    obtain rfl : u = t := typed
    cases v with
    | none => rw [left.null row value, right.null row value]
    | some v =>
      obtain ⟨a, first, ap⟩ := left.held row v value
      obtain ⟨b, second, bp⟩ := right.held row v value
      rw [first, second, Bool.eq_iff_iff.mpr (ap.trans bp.symm)]

/-- A comparison of the column with a value of its type. -/
theorem means_compare (op : Operator) (test : Ordering → Bool) (on : op.on = some test) (v : V)
    (type : ordered t = true) :
    Means k schema c t (.binary (.column c) op (.literal (.value t (some v))))
      fun x => test (compare x v) = true where
  held row x is := by
    refine ⟨test (compare x v), ?_, Iff.rfl⟩
    rw [eval, eval, eval, is]
    cases op <;> simp only [Operator.on, Option.some.injEq, reduceCtorEq] at on <;> subst on <;>
      simp [binary, Operator.on, type]
  null row is := by
    rw [eval, eval, eval, is]
    cases op <;> simp only [Operator.on, Option.some.injEq, reduceCtorEq] at on <;> subst on <;>
      simp [binary, Operator.on, type]

/-- The same with the value on the left. -/
theorem means_value (op : Operator) (test : Ordering → Bool) (on : op.on = some test) (v : V)
    (type : ordered t = true) :
    Means k schema c t (.binary (.literal (.value t (some v))) op (.column c))
      fun x => test (compare v x) = true where
  held row x is := by
    refine ⟨test (compare v x), ?_, Iff.rfl⟩
    rw [eval, eval, eval, is]
    cases op <;> simp only [Operator.on, Option.some.injEq, reduceCtorEq] at on <;> subst on <;>
      simp [binary, Operator.on, type]
  null row is := by
    rw [eval, eval, eval, is]
    cases op <;> simp only [Operator.on, Option.some.injEq, reduceCtorEq] at on <;> subst on <;>
      simp [binary, Operator.on, type]

end Meaning

/-! ### Terms and parts -/

theorem compare_flip (v x : V) : compare v x = (compare x v).swap := by
  rcases lt_trichotomy v x with less | rfl | more
  · rw [compare_lt_iff_lt.mpr less, compare_gt_iff_gt.mpr less]
    rfl
  · rw [compare_eq_iff_eq.mpr rfl]
    rfl
  · rw [compare_gt_iff_gt.mpr more, compare_lt_iff_lt.mpr more]
    rfl

theorem on_swap (o op : Operator) (swapped : o.swap = some op) :
    ∃ test, op.on = some test ∧ o.on = some fun order => test order.swap := by
  have flip (test flipped : Ordering → Bool) (same : ∀ order, flipped order = test order.swap) :
      some flipped = some fun order => test order.swap := congrArg some (funext same)
  cases o <;> cases swapped
  · exact ⟨_, rfl, flip _ _ (by decide)⟩
  · exact ⟨_, rfl, flip _ _ (by decide)⟩
  · exact ⟨_, rfl, flip _ _ (by decide)⟩
  · exact ⟨_, rfl, flip _ _ (by decide)⟩
  · exact ⟨_, rfl, flip _ _ (by decide)⟩
  · exact ⟨_, rfl, flip _ _ (by decide)⟩

omit [LinearOrder V] in
theorem compare_spec (term : Expr V) (c : Column) (op : Operator) (v : Scalar V)
    (found : term.compare = some (c, op, v)) :
    term = .binary (.column c) op (.literal v) ∨
      ∃ o : Operator, o.swap = some op ∧ term = .binary (.literal v) o (.column c) := by
  unfold Expr.compare at found
  split at found
  · cases found
    exact .inl rfl
  · obtain ⟨o, swapped, same⟩ := Option.map_eq_some_iff.mp found
    cases same
    exact .inr ⟨_, swapped, rfl⟩
  · cases found

theorem means_term (k : Kernels V) (schema : List DataType) (term : Expr V) (c : Column)
    (op : Operator) (t : DataType) (v : V) (test : Ordering → Bool)
    (found : term.compare = some (c, op, .value t (some v))) (on : op.on = some test)
    (type : ordered t = true) :
    Means k schema c t term fun x => test (compare x v) = true := by
  rcases compare_spec term c op _ found with rfl | ⟨o, swapped, rfl⟩
  · exact means_compare op test on v type
  · obtain ⟨test', on', flipped⟩ := on_swap o op swapped
    obtain rfl : test' = test := Option.some.inj (on'.symm.trans on)
    have means : Means k schema c t _ _ := means_value o _ flipped v type
    exact means.iff fun x => by rw [← compare_flip]

/-! ### Bounds a comparison sets -/

theorem gt_above (v x : V) : (compare x v).isGT = true ↔ Above (some (v, false)) x := by
  rw [Ordering.isGT_iff_eq_gt, compare_gt_iff_gt]
  rfl

theorem lt_below (v x : V) : (compare x v).isLT = true ↔ Below (some (v, false)) x := by
  rw [Ordering.isLT_iff_eq_lt, compare_lt_iff_lt]
  rfl

theorem ge_above (v x : V) : (compare x v).isGE = true ↔ Above (some (v, true)) x := by
  rw [Ordering.isGE_iff_ne_lt, compare_lt_iff_lt, not_lt]
  rfl

theorem le_below (v x : V) : (compare x v).isLE = true ↔ Below (some (v, true)) x := by
  rw [Ordering.isLE_iff_ne_gt, compare_gt_iff_gt, not_lt]
  rfl

theorem eq_between (v x : V) :
    (compare x v).isEq = true ↔ Above (some (v, true)) x ∧ Below (some (v, true)) x := by
  rw [Ordering.isEq_iff_eq_eq, compare_eq_iff_eq]
  exact ⟨fun same => ⟨same.ge, same.le⟩, fun both => le_antisymm both.2 both.1⟩

/-- A part's bounds are of type `t`, and let in what `p` does. -/
def Bounds (t : DataType) (part : Part V) (p : V → Prop) : Prop :=
  ∃ l h, part.low = bound t l ∧ part.high = bound t h ∧ ∀ x, (Above l x ∧ Below h x) ↔ p x

theorem narrowed_spec (part made : Part V) (op : Operator) (t : DataType) (v : V)
    (found : part.narrowed op (.value t (some v)) = some made) :
    ∃ test, op.on = some test ∧ made.column = part.column ∧
      ∀ p, Bounds t part p → Bounds t made fun x => p x ∧ test (compare x v) = true := by
  cases op with
  | Gt =>
    obtain ⟨low, tight, rfl⟩ := Option.map_eq_some_iff.mp found
    refine ⟨_, rfl, rfl, fun p ⟨l, h, lows, highs, in_⟩ => ?_⟩
    obtain ⟨l', rfl, both⟩ := tighter_low t l v false low (lows ▸ tight)
    refine ⟨l', h, rfl, highs, fun x => ?_⟩
    rw [both, and_right_comm]
    exact and_congr (in_ x) (gt_above v x).symm
  | GtEq =>
    obtain ⟨low, tight, rfl⟩ := Option.map_eq_some_iff.mp found
    refine ⟨_, rfl, rfl, fun p ⟨l, h, lows, highs, in_⟩ => ?_⟩
    obtain ⟨l', rfl, both⟩ := tighter_low t l v true low (lows ▸ tight)
    refine ⟨l', h, rfl, highs, fun x => ?_⟩
    rw [both, and_right_comm]
    exact and_congr (in_ x) (ge_above v x).symm
  | Lt =>
    obtain ⟨high, tight, rfl⟩ := Option.map_eq_some_iff.mp found
    refine ⟨_, rfl, rfl, fun p ⟨l, h, lows, highs, in_⟩ => ?_⟩
    obtain ⟨h', rfl, both⟩ := tighter_high t h v false high (highs ▸ tight)
    refine ⟨l, h', lows, rfl, fun x => ?_⟩
    rw [both, ← and_assoc]
    exact and_congr (in_ x) (lt_below v x).symm
  | LtEq =>
    obtain ⟨high, tight, rfl⟩ := Option.map_eq_some_iff.mp found
    refine ⟨_, rfl, rfl, fun p ⟨l, h, lows, highs, in_⟩ => ?_⟩
    obtain ⟨h', rfl, both⟩ := tighter_high t h v true high (highs ▸ tight)
    refine ⟨l, h', lows, rfl, fun x => ?_⟩
    rw [both, ← and_assoc]
    exact and_congr (in_ x) (le_below v x).symm
  | Eq =>
    simp only [Part.narrowed] at found
    split at found
    · rename_i low high tightLow tightHigh
      cases found
      refine ⟨_, rfl, rfl, fun p ⟨l, h, lows, highs, in_⟩ => ?_⟩
      obtain ⟨l', rfl, bothLow⟩ := tighter_low t l v true low (lows ▸ tightLow)
      obtain ⟨h', rfl, bothHigh⟩ := tighter_high t h v true high (highs ▸ tightHigh)
      refine ⟨l', h', rfl, rfl, fun x => ?_⟩
      rw [bothLow, bothHigh, and_and_and_comm]
      exact and_congr (in_ x) (eq_between v x).symm
    · cases found
  | NotEq => cases found
  | And => cases found
  | Or => cases found
  | other name => cases found

/-- What one step over the terms or the parts leaves: the column and its type, and what `e` means there. -/
structure Found (k : Kernels V) (schema : List DataType) (before after : Option Column) (e : Expr V)
    (c : Column) (t : DataType) (q : V → Prop) : Prop where
  column : after = some c
  same : ∀ b, before = some b → b = c
  type : c.dataType schema = some t
  ordered : ordered t = true
  means : Means k schema c t e q

theorem addTerm_spec (k : Kernels V) (schema : List DataType) (part made : Part V) (term : Expr V)
    (found : addTerm schema part term = some made) :
    ∃ c t q, Found k schema part.column made.column term c t q ∧
      ∀ p, Bounds t part p → Bounds t made fun x => p x ∧ q x := by
  simp only [addTerm] at found
  split at found
  · cases found
  rename_i c op v compared
  split at found
  · cases found
  rename_i t type
  split at found
  · cases found
  rename_i plain
  split at found
  · cases found
  rename_i alike
  simp only [Bool.or_eq_true, Bool.not_eq_true', decide_eq_true_eq, not_or, Bool.not_eq_false,
    not_not] at plain
  obtain ⟨⟨ordered, typed⟩, held⟩ := plain
  have value : ∃ w, v = .value t (some w) := by
    cases v with
    | boolean b =>
      rw [Scalar.dataType] at typed
      subst typed
      cases ordered
    | value u w =>
      rw [Scalar.dataType] at typed
      subst typed
      cases w with
      | none => exact absurd rfl held
      | some w => exact ⟨w, rfl⟩
  obtain ⟨w, rfl⟩ := value
  obtain ⟨test, on, column, bounds⟩ := narrowed_spec _ made op t w found
  refine ⟨c, t, _, ⟨column, fun b is => ?_, type, ordered,
    means_term k schema term c op t w test compared on ordered⟩, bounds⟩
  rw [is] at alike
  simpa using alike

/-! ### A part, and the parts of an OR -/

omit [LinearOrder V] in
/-- What each step over a chain's parts relates, and the chain's own nodes put together, holds of the chain. -/
theorem split_foldlM {σ : Type} (op : Operator) (step : σ → Expr V → Option σ)
    (related : σ → σ → Expr V → Prop)
    (leaf : ∀ s made e, step s e = some made → related s made e)
    (node : ∀ s middle made left right, related s middle left → related middle made right →
      related s made (.binary left op right))
    (e : Expr V) (s made : σ) (found : (split op e).foldlM step s = some made) :
    related s made e := by
  have alone (e : Expr V) (s made : σ) (found : [e].foldlM step s = some made) :
      related s made e := by
    rw [List.foldlM_cons] at found
    obtain ⟨one, first, last⟩ := Option.bind_eq_some_iff.mp found
    cases last
    exact leaf s made e first
  induction e generalizing s made with
  | column c => exact alone _ _ _ found
  | literal v => exact alone _ _ _ found
  | other f n args => exact alone _ _ _ found
  | binary left o right ihLeft ihRight =>
    rw [split] at found
    split at found
    · rename_i same
      subst same
      rw [List.foldlM_append] at found
      obtain ⟨middle, first, second⟩ := Option.bind_eq_some_iff.mp found
      exact node s middle made left right (ihLeft s middle first) (ihRight middle made second)
    · exact alone _ _ _ found

theorem terms_spec (k : Kernels V) (schema : List DataType) (e : Expr V) (part made : Part V)
    (found : (split .And e).foldlM (addTerm schema) part = some made) :
    ∃ c t q, Found k schema part.column made.column e c t q ∧
      ∀ p, Bounds t part p → Bounds t made fun x => p x ∧ q x := by
  apply split_foldlM .And (addTerm schema) (fun part made e =>
    ∃ c t q, Found k schema part.column made.column e c t q ∧
      ∀ p, Bounds t part p → Bounds t made fun x => p x ∧ q x) _ _ e part made found
  · intro part made e found
    exact addTerm_spec k schema part made e found
  · intro part middle made left right ⟨c, t, q, one, narrows⟩ ⟨c', t', q', two, narrower⟩
    obtain rfl := two.same c one.column
    obtain rfl := Option.some.inj (one.type.symm.trans two.type)
    refine ⟨c, t, _, ⟨two.column, one.same, one.type, one.ordered, one.means.and two.means⟩, ?_⟩
    intro p bounds
    obtain ⟨l, h, lows, highs, in_⟩ := narrower _ (narrows p bounds)
    exact ⟨l, h, lows, highs, fun x => (in_ x).trans and_assoc⟩

/-- The bounds of one part, of type `t`. -/
def typed (t : DataType) (r : Edge V × Edge V) : Bound V × Bound V := (bound t r.1, bound t r.2)

/-- A value is in one of the ranges. -/
def Within (ranges : List (Edge V × Edge V)) (x : V) : Prop :=
  ∃ r ∈ ranges, Above r.1 x ∧ Below r.2 x

theorem range_spec (k : Kernels V) (schema : List DataType) (column : Option Column) (e : Expr V)
    (made : Part V) (found : range schema column e = some made) :
    ∃ c t q r, Found k schema column made.column e c t q ∧ (made.low, made.high) = typed t r ∧
      Full r.1 r.2 ∧ ∀ x, Above r.1 x ∧ Below r.2 x ↔ q x := by
  simp only [range] at found
  split at found
  · cases found
  rename_i part folded
  obtain ⟨_, full, rfl⟩ := Option.map_eq_some_iff.mp found
  obtain ⟨c, t, q, one, bounds⟩ := terms_spec k schema e _ _ folded
  obtain ⟨l, h, lows, highs, in_⟩ := bounds (fun _ => True)
    ⟨none, none, rfl, rfl, fun x => ⟨fun _ => trivial, fun _ => ⟨trivial, trivial⟩⟩⟩
  refine ⟨c, t, q, (l, h), one, by rw [lows, highs, typed], ?_, fun x => (in_ x).trans (and_iff_right trivial)⟩
  rw [lows, highs] at full
  exact notEmpty_full t l h full

theorem parts_spec (k : Kernels V) (schema : List DataType) (e : Expr V)
    (before after : Option Column × List (Bound V × Bound V))
    (found : (split .Or e).foldlM (addPart schema) before = some after) :
    ∃ c t q new, Found k schema before.1 after.1 e c t q ∧ after.2 = before.2 ++ new.map (typed t) ∧
      (∀ r ∈ new, Full r.1 r.2) ∧ ∀ x, Within new x ↔ q x := by
  apply split_foldlM .Or (addPart schema) (fun before after e =>
    ∃ c t q new, Found k schema before.1 after.1 e c t q ∧ after.2 = before.2 ++ new.map (typed t) ∧
      (∀ r ∈ new, Full r.1 r.2) ∧ ∀ x, Within new x ↔ q x) _ _ e before after found
  · intro before after e found
    obtain ⟨part, ranged, rfl⟩ := Option.map_eq_some_iff.mp found
    obtain ⟨c, t, q, r, one, same, full, in_⟩ := range_spec k schema before.1 e part ranged
    refine ⟨c, t, q, [r], one, by rw [same]; rfl, ?_, fun x => ?_⟩
    · intro other in_
      rw [List.mem_singleton.mp in_]
      exact full
    · rw [← in_]
      simp [Within]
  · intro before middle after left right ⟨c, t, q, new, one, ranges, full, in_⟩
      ⟨c', t', q', more, two, further, whole, also⟩
    obtain rfl := two.same c one.column
    obtain rfl := Option.some.inj (one.type.symm.trans two.type)
    refine ⟨c, t, _, new ++ more, ⟨two.column, one.same, one.type, one.ordered,
      one.means.or two.means⟩, by rw [further, ranges, List.map_append, List.append_assoc], ?_, ?_⟩
    · intro r member
      rcases List.mem_append.mp member with first | second
      · exact full r first
      · exact whole r second
    · intro x
      rw [← in_, ← also]
      simp only [Within, List.mem_append, or_and_right, exists_or]

/-! ### The one range -/

theorem widen_spec (t : DataType) (low : Edge V) (parts : List (Edge V × Edge V)) (high : Edge V)
    (sorted : ∀ r ∈ parts, Before low r.1) (full : Full low high) (last : Bound V)
    (found : (parts.map (typed t)).foldlM widen (bound t high) = some last) :
    ∃ h, last = bound t h ∧ Full low h ∧
      ∀ x, (Above low x ∧ Below h x) ↔ (Above low x ∧ Below high x) ∨ Within parts x := by
  induction parts generalizing high with
  | nil =>
    cases found
    exact ⟨high, rfl, full, fun x => ⟨.inl, fun in_ => in_.elim id fun ⟨r, no, _⟩ => by cases no⟩⟩
  | cons part rest ih =>
    obtain ⟨l, h⟩ := part
    rw [List.map_cons, List.foldlM_cons] at found
    obtain ⟨next, wide, others⟩ := Option.bind_eq_some_iff.mp found
    simp only [widen, typed] at wide
    split at wide
    · rename_i reached
      obtain ⟨e, rfl, below, fuller⟩ := wider_spec t high h next wide
      obtain ⟨last', rfl, whole, in_⟩ := ih e (fun r member => sorted r (.tail _ member))
        (fuller low full) others
      refine ⟨last', rfl, whole, fun x => ?_⟩
      have step := above_joined (sorted (l, h) (.head _)) (reaches_spec t high l reached) below x
      rw [in_, step]
      simp only [Within, List.mem_cons, exists_eq_or_imp, or_assoc]
    · cases wide

theorem joined_spec (t : DataType) (ranges : List (Edge V × Edge V)) (low high : Bound V)
    (full : ∀ r ∈ ranges, Full r.1 r.2) (found : joined (ranges.map (typed t)) = some (low, high)) :
    ∃ l h, low = bound t l ∧ high = bound t h ∧ Full l h ∧
      ∀ x, (Above l x ∧ Below h x) ↔ Within ranges x := by
  have sorts : (ranges.insertionSort fun a b => Before a.1 b.1).map (typed t) =
      (ranges.map (typed t)).insertionSort fun a b => lows a.1 b.1 ≠ .gt := by
    apply List.map_insertionSort
    intro a _ b _
    exact (lows_before t a.1 b.1).symm
  have : Std.Total fun a b : Edge V × Edge V => Before a.1 b.1 := ⟨fun a b => before_total a.1 b.1⟩
  have : IsTrans (Edge V × Edge V) fun a b => Before a.1 b.1 := ⟨fun a b c => before_trans⟩
  have sorted := List.pairwise_insertionSort (fun a b : Edge V × Edge V => Before a.1 b.1) ranges
  have member (r : Edge V × Edge V) := List.mem_insertionSort (x := r) (l := ranges)
    (r := fun a b : Edge V × Edge V => Before a.1 b.1)
  rw [joined, ← sorts] at found
  generalize ranges.insertionSort (fun a b => Before a.1 b.1) = order at found sorted member
  cases order with
  | nil => cases found
  | cons first rest =>
    obtain ⟨last, folded, same⟩ := Option.map_eq_some_iff.mp found
    cases same
    obtain ⟨before, -⟩ := List.pairwise_cons.mp sorted
    obtain ⟨h, rfl, whole, in_⟩ := widen_spec t first.1 rest first.2 before
      (full first ((member first).mp (.head _))) high folded
    refine ⟨first.1, h, rfl, rfl, whole, fun x => ?_⟩
    rw [in_]
    simp only [Within, ← member, List.mem_cons, exists_eq_or_imp]

/-- One side of a range means its bound. -/
theorem means_low (k : Kernels V) (schema : List DataType) (c : Column) (t : DataType) (v : V) (i : Bool)
    (type : ordered t = true) :
    Means k schema c t (side c (.value t (some v), i) .GtEq .Gt) (Above (some (v, i))) := by
  cases i with
  | true => exact (means_compare .GtEq _ rfl v type).iff (ge_above v)
  | false => exact (means_compare .Gt _ rfl v type).iff (gt_above v)

theorem means_high (k : Kernels V) (schema : List DataType) (c : Column) (t : DataType) (v : V) (i : Bool)
    (type : ordered t = true) :
    Means k schema c t (side c (.value t (some v), i) .LtEq .Lt) (Below (some (v, i))) := by
  cases i with
  | true => exact (means_compare .LtEq _ rfl v type).iff (le_below v)
  | false => exact (means_compare .Lt _ rfl v type).iff (lt_below v)

theorem written_spec (k : Kernels V) (schema : List DataType) (c : Column) (t : DataType) (l h : Edge V)
    (type : ordered t = true) (full : Full l h) (made : Expr V)
    (found : written c (bound t l) (bound t h) = some made) :
    Means k schema c t made fun x => Above l x ∧ Below h x := by
  rcases l with _ | ⟨v, i⟩
  · rcases h with _ | ⟨w, j⟩
    · cases found
    · cases found
      exact (means_high k schema c t w j type).iff fun x => (and_iff_right trivial).symm
  · rcases h with _ | ⟨w, j⟩
    · cases found
      exact (means_low k schema c t v i type).iff fun x => (and_iff_left trivial).symm
    · simp only [written, bound_some] at found
      split at found
      · rename_i same
        cases same
        cases found
        have inside : i = true := full.elim (fun no => absurd no (lt_irrefl v)) fun both => both.2.1
        subst inside
        exact (means_compare .Eq _ rfl v type).iff (eq_between v)
      · cases found
        exact (means_low k schema c t v i type).and (means_high k schema c t w j type)

theorem oneRange_same (k : Kernels V) (schema : List DataType) (e made : Expr V)
    (found : oneRange schema e = some made) (row : Row V schema) :
    eval k row made = eval k row e := by
  unfold oneRange at found
  split at found
  · split at found
    · cases found
    rename_i column ranges parts
    split at found
    · rename_i low high c joined
      obtain ⟨c', t, q, new, one, same, full, in_⟩ := parts_spec k schema _ _ _ parts
      obtain rfl := Option.some.inj one.column
      simp only [List.nil_append] at same
      rw [same] at joined
      obtain ⟨l, h, rfl, rfl, whole, inside⟩ := joined_spec t new low high full joined
      have plain : t ≠ .Boolean := fun no => by
        have type := one.ordered
        rw [no] at type
        cases type
      have means := written_spec k schema c t l h one.ordered whole made found
      exact (means.iff fun x => (inside x).trans (in_ x)).eval_eq one.means plain one.type row
    · cases found
  · cases found

theorem rewritten_same (k : Kernels V) (schema : List DataType) (e : Expr V) (below : Bool)
    (row : Row V schema) : eval k row (rewritten schema e below).data = eval k row e := by
  unfold rewritten
  split
  · rename_i range found
    exact oneRange_same k schema e range found row
  · rfl

/-- The predicate merged is true, false or NULL on exactly the rows the original is. -/
theorem merged_same (k : Kernels V) (schema : List DataType) (e : Expr V) (row : Row V schema) :
    eval k row (merged schema e).data = eval k row e := by
  induction e with
  | column c => exact rewritten_same k schema _ false row
  | literal v => exact rewritten_same k schema _ false row
  | binary left op right ihLeft ihRight =>
    rw [merged, rewritten_same, eval, ihLeft, ihRight, eval]
  | other f n args ih =>
    rw [merged, rewritten_same, eval, eval]
    simp only [ih]

/-- `(q >= 1 AND q <= 11) OR (q >= 10 AND 20 >= q)` is `q >= 1 AND q <= 20`. -/
example :
    let q : Expr Int := .column ⟨"q", 0⟩
    let n (v : Int) : Expr Int := .literal (.value .Int64 (some v))
    oneRange [.Int64] (.binary (.binary (.binary q .GtEq (n 1)) .And (.binary q .LtEq (n 11))) .Or
        (.binary (.binary q .GtEq (n 10)) .And (.binary (n 20) .GtEq q))) =
      some (.binary (.binary q .GtEq (n 1)) .And (.binary q .LtEq (n 20))) := by
  rfl

end Pondra.OrRanges
