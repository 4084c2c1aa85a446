import Mathlib.Algebra.Order.Ring.Int
import Pondra.Base.Slices
import Pondra.Base.Varint

set_option autoImplicit false

/-! ### The wire's reader -/

namespace Pondra.Wire

open Bytes

/-- How a read ends. -/
inductive Ends (α : Type)
  | value (a : α)
  | error (text : String)
  | panic

namespace Ends

variable {α β : Type}

def bind : Ends α → (α → Ends β) → Ends β
  | .value a, f => f a
  | .error text, _ => .error text
  | .panic, _ => .panic

instance : Monad Ends where
  pure := .value
  bind := Ends.bind

@[simp] theorem bind_value (a : α) (f : α → Ends β) : (Ends.value a >>= f) = f a := rfl

@[simp] theorem bind_error (text : String) (f : α → Ends β) : (Ends.error text >>= f) = .error text := rfl

@[simp] theorem bind_panic (f : α → Ends β) : (Ends.panic >>= f) = .panic := rfl

/-- A value or an error. -/
def Sound : Ends α → Prop
  | .panic => False
  | _ => True

theorem Sound.bind {x : Ends α} (sound : x.Sound) {f : α → Ends β}
    (then_ : ∀ a, x = .value a → (f a).Sound) : (x >>= f).Sound := by
  cases x with
  | value a => exact then_ a rfl
  | error text => exact trivial
  | panic => exact sound.elim

end Ends

/-- Bytes, and how far they are read. -/
structure Rd where
  b : List UInt8
  at_ : Nat

def Reading (α : Type) := Rd → Ends (α × Rd)

namespace Reading

variable {α β : Type}

def bind (f : Reading α) (g : α → Reading β) : Reading β := fun r =>
  match f r with
  | .value (a, r) => g a r
  | .error text => .error text
  | .panic => .panic

instance : Monad Reading where
  pure a := fun r => .value (a, r)
  bind := Reading.bind

def error (text : String) : Reading α := fun _ => .error text

theorem bind_eq (f : Reading α) (g : α → Reading β) (r : Rd) : (f >>= g) r =
    match f r with
    | .value (a, r) => g a r
    | .error text => .error text
    | .panic => .panic := rfl

theorem pure_eq (a : α) (r : Rd) : (pure a : Reading α) r = .value (a, r) := rfl

end Reading

/-- A number of `bits` bits, the highest its sign. -/
def signed (bits n : Nat) : Int := (n : Int).bmod (2 ^ bits)

/-- A sum of 64 bits, wrapped round. -/
def wrap64 (v : Int) : Int := v.bmod (2 ^ 64)

/-- The most entries an array may have. -/
def entries : Nat := 100000

namespace Rd

open Reading

/-- `n` bytes more; a position that wraps round is before where the slice starts. -/
def take (n : Nat) : Reading (List UInt8) := fun r =>
  let to_ := (r.at_ + n) % 2 ^ 64
  if r.b.length < to_ then .error "request ends early"
  else if to_ < r.at_ then .panic
  else .value ((r.b.drop r.at_).take (to_ - r.at_), ⟨r.b, to_⟩)

/-- A number of so many bytes, the highest first. -/
def number (width : Nat) : Reading Int := do
  let s ← take width
  pure (signed (8 * width) (ofBe s))

def i8 : Reading Int := number 1

def i16 : Reading Int := number 2

def i32 : Reading Int := number 4

def i64 : Reading Int := number 8

/-- At most `entries`, and never more than bytes left. -/
def bounded (n : Nat) : Reading Nat := fun r =>
  if r.b.length < r.at_ then .panic
  else if n ≤ entries ∧ n ≤ r.b.length - r.at_ then .value (n, r)
  else .error ("an array of " ++ toString n ++ " entries (at most " ++ toString entries ++
    ", and what the request holds)")

/-- An array's length (a null array reads as empty). -/
def len : Reading Nat := do
  let n ← i32
  bounded (max n 0).toNat

def nstr : Reading (Option String) := do
  let n ← i16
  if n < 0 then pure none
  else do
    let s ← take n.toNat
    match String.fromUTF8? ⟨s.toArray⟩ with
    | some text => pure (some text)
    | none => error "invalid utf-8 sequence"

def str : Reading String := do
  let s ← nstr
  pure (s.getD "")

def slice (n : Nat) : Reading (List UInt8) := take n

def nbytes : Reading (Option (List UInt8)) := do
  let n ← i32
  if n < 0 then pure none
  else do
    let s ← slice n.toNat
    pure (some s)

/-- Seven bits a byte from a shift on; `left` more bytes may follow the next (a shift is below 64). -/
def uvarintFrom : Nat → Nat → Nat → Reading Nat
  | left, v, shift => do
    let s ← take 1
    let byte := (s.headD 0).toNat
    let v := v ||| ((byte &&& 0x7f) <<< shift) % 2 ^ 64
    if byte < 0x80 then pure v
    else
      match left with
      | 0 => error "bad varint"
      | left + 1 => uvarintFrom left v (shift + 7)

def uvarint : Reading Nat := uvarintFrom 9 0 0

def varint : Reading Int := do
  let v ← uvarint
  pure (Varint.unzigzag v)

/-- Varint-length bytes inside a record. -/
def vbytes : Reading (Option (List UInt8)) := do
  let n ← varint
  if n < 0 then pure none
  else do
    let s ← slice n.toNat
    pure (some s)

/-- So many tagged fields, skipped. -/
def tagsFrom : Nat → Reading Unit
  | 0 => pure ()
  | n + 1 => do
    let _ ← uvarint
    let size ← uvarint
    let _ ← take size
    tagsFrom n

def tags : Reading Unit := do
  let n ← uvarint
  tagsFrom n

end Rd

/-! ### Reads end, and never go back -/

/-- A position within bytes that a machine can hold. -/
structure Rd.Within (r : Rd) : Prop where
  inside : r.at_ ≤ r.b.length
  held : r.b.length < 2 ^ 63

/-- A read ends; one that gives a value leaves the bytes, and a position no earlier and within them. -/
structure Advances {α : Type} (f : Reading α) (gives : α → Prop) (r : Rd) : Prop where
  sound : (f r).Sound
  forward : ∀ a r', f r = .value (a, r') →
    gives a ∧ r'.b = r.b ∧ r.at_ ≤ r'.at_ ∧ r'.at_ ≤ r.b.length

/-- From any position within. -/
def Always {α : Type} (f : Reading α) (gives : α → Prop) : Prop := ∀ r : Rd, r.Within → Advances f gives r

section advances

variable {α β : Type} {gives : α → Prop} {later : β → Prop}

theorem Advances.within {f : Reading α} {r r' : Rd} {a : α} (advances : Advances f gives r)
    (within : r.Within) (is : f r = .value (a, r')) : r'.Within := by
  obtain ⟨_, same, _, inside⟩ := advances.forward a r' is
  constructor
  · rw [same]
    exact inside
  · rw [same]
    exact within.held

theorem Advances.bind {f : Reading α} {g : α → Reading β} {r : Rd} (first : Advances f gives r)
    (then_ : ∀ a r', f r = .value (a, r') → Advances (g a) later r') : Advances (f >>= g) later r := by
  have bound := Reading.bind_eq f g r
  cases is : f r with
  | value pair =>
    obtain ⟨a, r'⟩ := pair
    rw [is] at bound
    have second := then_ a r' is
    obtain ⟨_, same, forth, _⟩ := first.forward a r' is
    constructor
    · rw [bound]
      exact second.sound
    · intro b r'' given
      rw [bound] at given
      obtain ⟨meets, same', forth', inside⟩ := second.forward b r'' given
      rw [same] at same' inside
      exact ⟨meets, same', Nat.le_trans forth forth', inside⟩
  | error text =>
    rw [is] at bound
    constructor
    · rw [bound]
      exact trivial
    · intro b r'' given
      rw [bound] at given
      cases given
  | panic =>
    have sound := first.sound
    rw [is] at sound
    exact sound.elim

theorem always_pure {a : α} (meets : gives a) : Always (pure a : Reading α) gives := by
  intro r within
  constructor
  · rw [Reading.pure_eq]
    exact trivial
  · intro b r' is
    rw [Reading.pure_eq] at is
    cases is
    exact ⟨meets, rfl, Nat.le_refl _, within.inside⟩

theorem always_error (text : String) : Always (Reading.error text : Reading α) gives :=
  fun _ _ => ⟨trivial, fun _ _ is => by cases is⟩

theorem Always.bind {f : Reading α} {g : α → Reading β} (first : Always f gives)
    (then_ : ∀ a, gives a → Always (g a) later) : Always (f >>= g) later :=
  fun r within => (first r within).bind fun a r' is =>
    then_ a ((first r within).forward a r' is).1 r' ((first r within).within within is)

end advances

namespace Rd

/-- Where the position does not pass the machine's integers, bytes are taken or there are too few. -/
theorem take_advances {n : Nat} {r : Rd} (fits : r.at_ + n < 2 ^ 64) :
    Advances (take n) (fun _ => True) r := by
  have forth : (r.at_ + n) % 2 ^ 64 = r.at_ + n := Nat.mod_eq_of_lt fits
  unfold take
  constructor
  · dsimp only
    rw [forth]
    split
    · trivial
    · rw [if_neg (by omega)]
      trivial
  · intro s r' is
    dsimp only at is
    rw [forth] at is
    split at is
    · cases is
    · rw [if_neg (by omega)] at is
      cases is
      exact ⟨trivial, rfl, Nat.le_add_right _ _, by dsimp only; omega⟩

theorem always_take {n : Nat} (few : n ≤ 2 ^ 63) : Always (take n) fun _ => True := by
  intro r within
  have inside := within.inside
  have held := within.held
  exact take_advances (by omega)

theorem always_number {width : Nat} (few : width ≤ 8) : Always (number width) (· < 2 ^ 63) := by
  apply (always_take (by omega)).bind
  intro s _
  apply always_pure
  have most : (2 : Nat) ^ (8 * width) ≤ 2 ^ 64 := Nat.pow_le_pow_right (by decide) (by omega)
  have below := @Int.bmod_lt (ofBe s : Int) (2 ^ (8 * width)) (Nat.two_pow_pos _)
  have cast : ((2 ^ (8 * width) : Nat) : Int) ≤ 2 ^ 64 := by exact_mod_cast most
  unfold signed
  omega

theorem always_len : Always len fun _ => True := by
  apply (always_number (by decide)).bind
  intro n _ r within
  have inside := within.inside
  constructor
  · unfold bounded
    rw [if_neg (by omega)]
    split
    · trivial
    · trivial
  · intro a r' is
    unfold bounded at is
    rw [if_neg (by omega)] at is
    split at is
    · cases is
      exact ⟨trivial, rfl, Nat.le_refl _, inside⟩
    · cases is

theorem always_nstr : Always nstr fun _ => True := by
  apply (always_number (by decide)).bind
  intro n small
  split
  · exact always_pure trivial
  · apply (always_take (by omega)).bind
    intro s _
    split
    · exact always_pure trivial
    · exact always_error _

theorem always_str : Always str fun _ => True := always_nstr.bind fun _ _ => always_pure trivial

theorem always_nbytes : Always nbytes fun _ => True := by
  apply (always_number (by decide)).bind
  intro n small
  split
  · exact always_pure trivial
  · exact (always_take (by omega)).bind fun _ _ => always_pure trivial

theorem always_uvarintFrom (left v shift : Nat) (small : v < 2 ^ 64) :
    Always (uvarintFrom left v shift) (· < 2 ^ 64) := by
  have more : ∀ d, v ||| d % 2 ^ 64 < 2 ^ 64 :=
    fun d => Nat.or_lt_two_pow small (Nat.mod_lt _ (by decide))
  induction left generalizing v shift with
  | zero =>
    apply (always_take (by decide)).bind
    intro s _
    dsimp only
    split
    · exact always_pure (more _)
    · exact always_error _
  | succ left ih =>
    apply (always_take (by decide)).bind
    intro s _
    dsimp only
    split
    · exact always_pure (more _)
    · have next := more (((s.headD 0).toNat &&& 0x7f) <<< shift)
      exact ih _ _ next fun d => Nat.or_lt_two_pow next (Nat.mod_lt _ (by decide))

theorem always_uvarint : Always uvarint (· < 2 ^ 64) := always_uvarintFrom 9 0 0 (by decide)

theorem always_varint : Always varint (· < 2 ^ 63) := by
  apply always_uvarint.bind
  intro v small
  apply always_pure
  unfold Varint.unzigzag
  split <;> omega

theorem always_vbytes : Always vbytes fun _ => True := by
  apply always_varint.bind
  intro n small
  split
  · exact always_pure trivial
  · exact (always_take (by omega)).bind fun _ _ => always_pure trivial

end Rd

/-! ### Any sequence of reads -/

inductive Op
  | i8
  | i16
  | i32
  | i64
  | len
  | nstr
  | str
  | nbytes
  | uvarint
  | varint
  | vbytes
  | tags

/-- A read whose value is dropped. -/
def drop {α : Type} (f : Reading α) : Reading Unit := do
  let _ ← f
  pure ()

def Op.read : Op → Reading Unit
  | .i8 => drop Rd.i8
  | .i16 => drop Rd.i16
  | .i32 => drop Rd.i32
  | .i64 => drop Rd.i64
  | .len => drop Rd.len
  | .nstr => drop Rd.nstr
  | .str => drop Rd.str
  | .nbytes => drop Rd.nbytes
  | .uvarint => drop Rd.uvarint
  | .varint => drop Rd.varint
  | .vbytes => drop Rd.vbytes
  | .tags => Rd.tags

def reads : List Op → Reading Unit
  | [] => pure ()
  | op :: rest => do
    op.read
    reads rest

/-- A tagged field's length takes the position past the machine's integers. -/
def passesFrom : Nat → Rd → Bool
  | 0, _ => false
  | n + 1, r =>
    match (Rd.uvarint >>= fun _ => Rd.uvarint) r with
    | .value (size, r) =>
      decide (2 ^ 64 ≤ r.at_ + size) || match Rd.take size r with
        | .value (_, r) => passesFrom n r
        | _ => false
    | _ => false

def passes (r : Rd) : Bool :=
  match Rd.uvarint r with
  | .value (n, r) => passesFrom n r
  | _ => false

/-- No tagged field that is read has such a length. -/
def Tame : List Op → Rd → Prop
  | [], _ => True
  | op :: rest, r => (op = .tags → passes r = false) ∧
      ∀ r', op.read r = .value ((), r') → Tame rest r'

theorem tagsFrom_advances (n : Nat) (r : Rd) (within : r.Within) (tame : passesFrom n r = false) :
    Advances (Rd.tagsFrom n) (fun _ => True) r := by
  induction n generalizing r with
  | zero => exact always_pure trivial r within
  | succ n ih =>
    have key := Rd.always_uvarint r within
    unfold Rd.tagsFrom
    unfold passesFrom at tame
    rw [Reading.bind_eq] at tame
    apply key.bind
    intro a r₁ is₁
    rw [is₁] at tame
    have within₁ := key.within within is₁
    have size := Rd.always_uvarint r₁ within₁
    apply size.bind
    intro n' r₂ is₂
    dsimp only at tame
    rw [is₂] at tame
    dsimp only at tame
    rw [Bool.or_eq_false_iff, decide_eq_false_iff_not] at tame
    have within₂ := size.within within₁ is₂
    have taken : Advances (Rd.take n') (fun _ => True) r₂ := Rd.take_advances (by omega)
    apply taken.bind
    intro s r₃ is₃
    rw [is₃] at tame
    exact ih r₃ (taken.within within₂ is₃) tame.2

theorem always_drop {α : Type} {f : Reading α} {gives : α → Prop} (always : Always f gives) :
    Always (drop f) fun _ => True := always.bind fun _ _ => always_pure trivial

theorem Op.advances (op : Op) (r : Rd) (within : r.Within) (tame : op = .tags → passes r = false) :
    Advances op.read (fun _ => True) r := by
  cases op with
  | i8 => exact always_drop (Rd.always_number (by decide)) r within
  | i16 => exact always_drop (Rd.always_number (by decide)) r within
  | i32 => exact always_drop (Rd.always_number (by decide)) r within
  | i64 => exact always_drop (Rd.always_number (by decide)) r within
  | len => exact always_drop Rd.always_len r within
  | nstr => exact always_drop Rd.always_nstr r within
  | str => exact always_drop Rd.always_str r within
  | nbytes => exact always_drop Rd.always_nbytes r within
  | uvarint => exact always_drop Rd.always_uvarint r within
  | varint => exact always_drop Rd.always_varint r within
  | vbytes => exact always_drop Rd.always_vbytes r within
  | tags =>
    have calm := tame rfl
    have count := Rd.always_uvarint r within
    unfold passes at calm
    apply count.bind
    intro n r' is
    rw [is] at calm
    exact tagsFrom_advances n r' (count.within within is) calm

/-- Any reads end with a value or an error, the position never back and never past the end. -/
theorem reads_advance (ops : List Op) (r : Rd) (within : r.Within) (tame : Tame ops r) :
    Advances (reads ops) (fun _ => True) r := by
  induction ops generalizing r with
  | nil => exact always_pure trivial r within
  | cons op rest ih =>
    have first := op.advances r within tame.1
    apply first.bind
    intro a r' is
    exact ih r' (first.within within is) (tame.2 r' is)

end Pondra.Wire
