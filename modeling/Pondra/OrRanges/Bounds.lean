import Pondra.Base.Edges

set_option autoImplicit false

/-! ### Values of a column, and bounds on them -/

namespace Pondra.OrRanges

open Edges

inductive TimeUnit
  | Second
  | Millisecond
  | Microsecond
  | Nanosecond
  deriving DecidableEq

inductive DataType
  | Null
  | Boolean
  | Int8
  | Int16
  | Int32
  | Int64
  | UInt8
  | UInt16
  | UInt32
  | UInt64
  | Float16
  | Float32
  | Float64
  | Decimal32 (precision : Nat) (scale : Int)
  | Decimal64 (precision : Nat) (scale : Int)
  | Decimal128 (precision : Nat) (scale : Int)
  | Decimal256 (precision : Nat) (scale : Int)
  | Date32
  | Date64
  | Time32 (unit : TimeUnit)
  | Time64 (unit : TimeUnit)
  | Timestamp (unit : TimeUnit) (zone : Option String)
  | Duration (unit : TimeUnit)
  | Utf8
  | LargeUtf8
  | Utf8View
  | other (name : String)
  deriving DecidableEq

/-- Whether a column's values order as the comparison kernels order them. -/
def ordered : DataType → Bool
  | .Int8 | .Int16 | .Int32 | .Int64 | .UInt8 | .UInt16 | .UInt32 | .UInt64 => true
  | .Decimal32 .. | .Decimal64 .. | .Decimal128 .. | .Decimal256 .. => true
  | .Date32 | .Date64 | .Time32 _ | .Time64 _ | .Timestamp .. | .Duration _ => true
  | .Utf8 | .LargeUtf8 | .Utf8View => true
  | _ => false

/-- A value of an expression: a truth value, or one of `V` under its type; none for NULL. -/
inductive Scalar (V : Type)
  | boolean (b : Option Bool)
  | value (type : DataType) (v : Option V)
  deriving DecidableEq

variable {V : Type} [LinearOrder V]

def Scalar.dataType : Scalar V → DataType
  | .boolean _ => .Boolean
  | .value type _ => type

def Scalar.isNull : Scalar V → Bool
  | .boolean b => b.isNone
  | .value _ v => v.isNone

/-- Values of one type in their order, a NULL first; none between two types. -/
def Scalar.partialCmp : Scalar V → Scalar V → Option Ordering
  | .boolean a, .boolean b => some (compare a b)
  | .value t a, .value u b => if t = u then some (compare a b) else none
  | _, _ => none

/-- A range's bound: its value, and whether the value is in the range; none for no bound on that side. -/
abbrev Bound (V : Type) : Type := Option (Scalar V × Bool)

/-- Of a bound and another on the same side, the tighter: the greater low (`side` `gt`) or the lesser high. -/
def tighter (bound : Bound V) (new : Scalar V × Bool) (side : Ordering) : Option (Bound V) :=
  match bound with
  | none => some (some new)
  | some old =>
    match new.1.partialCmp old.1 with
    | none => none
    | some .eq => some (some (old.1, old.2 && new.2))
    | some o => if o = side then some (some new) else some (some old)

/-- Two lows in order: none first, then by value, a low that is in its range before one that isn't. -/
def lows : Bound V → Bound V → Ordering
  | none, none => .eq
  | none, some _ => .lt
  | some _, none => .gt
  | some a, some b => ((a.1.partialCmp b.1).getD .eq).then (compare b.2 a.2)

/-- Whether a range ending at `high` reaches one starting at `low`: they overlap, or touch at a value one has. -/
def reaches (high low : Bound V) : Option Bool :=
  match high, low with
  | some h, some l =>
    match l.1.partialCmp h.1 with
    | none => none
    | some .lt => some true
    | some .eq => some (h.2 || l.2)
    | some .gt => some false
  | _, _ => some true

/-- Of two highs, the wider: none (no bound) above any, else the greater, in if either has it. -/
def wider (a b : Bound V) : Option (Bound V) :=
  match a, b with
  | some x, some y =>
    match y.1.partialCmp x.1 with
    | none => none
    | some .gt => some b
    | some .lt => some a
    | some .eq => some (some (x.1, x.2 || y.2))
  | _, _ => some none

/-- A part no value is in is left as written. -/
def notEmpty (low high : Bound V) : Option Unit :=
  match low, high with
  | some l, some h =>
    match l.1.partialCmp h.1 with
    | none => none
    | some .gt => none
    | some .eq => if l.2 && h.2 then some () else none
    | some .lt => some ()
  | _, _ => some ()

/-! ### Bounds of one type -/

/-- A bound of a column of type `t`. -/
def bound (t : DataType) (e : Edge V) : Bound V := e.map fun side => (.value t (some side.1), side.2)

omit [LinearOrder V] in
@[simp] theorem bound_none (t : DataType) : bound t (none : Edge V) = none := rfl

omit [LinearOrder V] in
@[simp] theorem bound_some (t : DataType) (v : V) (i : Bool) :
    bound t (some (v, i)) = some (.value t (some v), i) := rfl

@[simp] theorem partialCmp_value (t : DataType) (v w : V) :
    (Scalar.value t (some v)).partialCmp (.value t (some w)) = some (compare v w) := by
  simp only [Scalar.partialCmp, if_true]
  rfl

theorem tighter_low (t : DataType) (e : Edge V) (v : V) (i : Bool) (b : Bound V)
    (found : tighter (bound t e) (.value t (some v), i) .gt = some b) :
    ∃ e', b = bound t e' ∧ ∀ x, Above e' x ↔ Above e x ∧ Above (some (v, i)) x := by
  rcases e with _ | ⟨w, j⟩
  · cases found
    exact ⟨some (v, i), rfl, fun x => ⟨fun past => ⟨trivial, past⟩, And.right⟩⟩
  simp only [tighter, bound_some, partialCmp_value] at found
  cases order : compare v w with
  | lt =>
    rw [order] at found
    cases found
    have less := compare_lt_iff_lt.mp order
    refine ⟨some (w, j), rfl, fun x => ⟨fun past => ⟨past, ?_⟩, And.left⟩⟩
    exact Before.above (a := some (v, i)) (b := some (w, j)) (.inl less) past
  | eq =>
    rw [order] at found
    cases found
    obtain rfl := compare_eq_iff_eq.mp order
    refine ⟨some (v, j && i), rfl, fun x => ?_⟩
    cases i <;> cases j <;> simp [Above] <;> exact le_of_lt
  | gt =>
    rw [order] at found
    cases found
    have more := compare_gt_iff_gt.mp order
    refine ⟨some (v, i), rfl, fun x => ⟨fun past => ⟨?_, past⟩, And.right⟩⟩
    exact Before.above (a := some (w, j)) (b := some (v, i)) (.inl more) past

theorem tighter_high (t : DataType) (e : Edge V) (v : V) (i : Bool) (b : Bound V)
    (found : tighter (bound t e) (.value t (some v), i) .lt = some b) :
    ∃ e', b = bound t e' ∧ ∀ x, Below e' x ↔ Below e x ∧ Below (some (v, i)) x := by
  rcases e with _ | ⟨w, j⟩
  · cases found
    exact ⟨some (v, i), rfl, fun x => ⟨fun past => ⟨trivial, past⟩, And.right⟩⟩
  simp only [tighter, bound_some, partialCmp_value] at found
  cases order : compare v w with
  | lt =>
    rw [order] at found
    cases found
    have less := compare_lt_iff_lt.mp order
    exact ⟨some (v, i), rfl, fun x => ⟨fun past => ⟨below_of_lt less past, past⟩, And.right⟩⟩
  | eq =>
    rw [order] at found
    cases found
    obtain rfl := compare_eq_iff_eq.mp order
    refine ⟨some (v, j && i), rfl, fun x => ?_⟩
    cases i <;> cases j <;> simp [Below] <;> exact le_of_lt
  | gt =>
    rw [order] at found
    cases found
    have more := compare_gt_iff_gt.mp order
    exact ⟨some (w, j), rfl, fun x => ⟨fun past => ⟨past, below_of_lt more past⟩, And.left⟩⟩

/-- Lows of one type come in the order of their bounds. -/
theorem lows_before (t : DataType) (a b : Edge V) :
    lows (bound t a) (bound t b) ≠ .gt ↔ Before a b := by
  rcases a with _ | ⟨v, i⟩
  · rcases b with _ | ⟨w, j⟩ <;> simp [lows, Before]
  rcases b with _ | ⟨w, j⟩
  · simp [lows, Before]
  simp only [lows, bound_some, partialCmp_value, Option.getD_some, Before]
  cases order : compare v w with
  | lt => simp [Ordering.then, compare_lt_iff_lt.mp order]
  | eq =>
    obtain rfl := compare_eq_iff_eq.mp order
    cases i <;> cases j <;> simp only [Ordering.then, lt_irrefl, false_or] <;> decide
  | gt =>
    have more := compare_gt_iff_gt.mp order
    simp [Ordering.then, more.not_gt, more.ne']

theorem reaches_spec (t : DataType) (h l : Edge V) (reached : reaches (bound t h) (bound t l) = some true)
    (x : V) : Below h x ∨ Above l x := by
  rcases h with _ | ⟨v, i⟩
  · exact .inl trivial
  rcases l with _ | ⟨w, j⟩
  · exact .inr trivial
  simp only [reaches, bound_some, partialCmp_value] at reached
  cases order : compare w v with
  | lt =>
    have less := compare_lt_iff_lt.mp order
    rcases lt_or_ge w x with past | not
    · right
      cases j with
      | true => exact past.le
      | false => exact past
    · left
      cases i with
      | true => exact (not.trans_lt less).le
      | false => exact not.trans_lt less
  | eq =>
    obtain rfl := compare_eq_iff_eq.mp order
    rw [order] at reached
    rcases Bool.or_eq_true_iff.mp (Option.some.inj reached) with rfl | rfl
    · rcases le_or_gt x w with inside | past
      · exact .inl inside
      · right
        cases j with
        | true => exact past.le
        | false => exact past
    · rcases lt_or_ge x w with inside | past
      · left
        cases i with
        | true => exact inside.le
        | false => exact inside
      · exact .inr past
  | gt =>
    rw [order] at reached
    cases reached

theorem wider_spec (t : DataType) (a b : Edge V) (c : Bound V)
    (found : wider (bound t a) (bound t b) = some c) :
    ∃ e, c = bound t e ∧ (∀ x, Below e x ↔ Below a x ∨ Below b x) ∧
      ∀ low, Full low a → Full low e := by
  rcases a with _ | ⟨v, i⟩
  · cases found
    exact ⟨none, rfl, fun x => ⟨.inl, fun _ => trivial⟩, fun low full => full⟩
  rcases b with _ | ⟨w, j⟩
  · cases found
    exact ⟨none, rfl, fun x => ⟨.inr, fun _ => trivial⟩, fun low _ => full_none low⟩
  simp only [wider, bound_some, partialCmp_value] at found
  cases order : compare w v with
  | lt =>
    rw [order] at found
    cases found
    have less := compare_lt_iff_lt.mp order
    exact ⟨some (v, i), rfl, fun x => ⟨.inl, fun in_ => in_.elim id (below_of_lt less)⟩,
      fun low full => full⟩
  | eq =>
    rw [order] at found
    cases found
    obtain rfl := compare_eq_iff_eq.mp order
    refine ⟨some (w, i || j), rfl, fun x => ?_, fun low full => ?_⟩
    · cases i <;> cases j <;> simp [Below] <;> exact le_of_lt
    · rcases low with _ | ⟨u, k⟩
      · trivial
      · rcases full with less | ⟨same, first, rfl⟩
        · exact .inl less
        · exact .inr ⟨same, first, rfl⟩
  | gt =>
    rw [order] at found
    cases found
    have more := compare_gt_iff_gt.mp order
    refine ⟨some (w, j), rfl, fun x => ⟨.inr, fun in_ => in_.elim (below_of_lt more) id⟩,
      fun low full => ?_⟩
    rcases low with _ | ⟨u, k⟩
    · trivial
    · rcases full with less | ⟨rfl, -, -⟩
      · exact .inl (less.trans more)
      · exact .inl more

theorem notEmpty_full (t : DataType) (low high : Edge V)
    (found : notEmpty (bound t low) (bound t high) = some ()) : Full low high := by
  rcases low with _ | ⟨v, i⟩
  · exact none_full high
  rcases high with _ | ⟨w, j⟩
  · trivial
  simp only [notEmpty, bound_some, partialCmp_value] at found
  cases order : compare v w with
  | lt => exact .inl (compare_lt_iff_lt.mp order)
  | eq =>
    rw [order] at found
    cases i <;> cases j
    · cases found
    · cases found
    · cases found
    · exact .inr ⟨compare_eq_iff_eq.mp order, rfl, rfl⟩
  | gt =>
    rw [order] at found
    cases found

end Pondra.OrRanges
