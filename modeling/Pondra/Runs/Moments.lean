import Mathlib.Order.Defs.LinearOrder
import Mathlib.Order.Lattice

set_option autoImplicit false

/-! ### A schedule's moments -/

namespace Pondra.Runs

/-- A moment in a time zone; the weekday counts from Sunday. -/
structure Local where
  minute : Fin 60
  hour : Fin 24
  day : Nat
  month : Nat
  weekday : Nat

/-- A cron expression's five fields, as the minutes, hours, days, months and weekdays it takes. -/
structure Cron where
  minutes : Nat
  hours : Nat
  days : Nat
  months : Nat
  weekdays : Nat
  anyDay : Bool
  anyWeekday : Bool
  deriving DecidableEq

def Cron.day (c : Cron) (d : Local) : Bool :=
  let dom := c.days.testBit d.day
  let dow := c.weekdays.testBit d.weekday
  c.months.testBit d.month &&
    match c.anyDay, c.anyWeekday with
    | false, false => dom || dow
    | _, _ => dom && dow

/-- How often: every so many seconds (aligned to the epoch), or a cron expression in a time zone. -/
inductive Every
  | seconds (s : Nat) (positive : 0 < s)
  | cron (c : Cron) (tz : String)
  deriving DecidableEq

/-- The largest u64: it never comes. -/
def never : Nat := 18446744073709551615

variable (zone : String → Nat → Local)

/-- From a whole minute on, a turn at a time. -/
def nextCron (c : Cron) (tz : String) : Nat → Nat → Nat
  | 0, _ => never
  | turns + 1, time =>
    let local_ := zone tz time
    if !c.day local_ then
      nextCron c tz turns (time + (24 * 60 - (local_.hour * 60 + local_.minute)) * 60000)
    else if !c.hours.testBit local_.hour then
      nextCron c tz turns (time + (60 - local_.minute) * 60000)
    else if !c.minutes.testBit local_.minute then nextCron c tz turns (time + 60000)
    else time

/-- The first tick after `t` (ms). -/
def nextAfter (e : Every) (t : Nat) : Nat :=
  match e with
  | .seconds s _ => (t / (s * 1000) + 1) * s * 1000
  | .cron c tz => nextCron zone c tz 10000 ((t / 60000 + 1) * 60000)

/-- The last tick up to now, from tick `t` on. -/
def lastFrom (e : Every) (now : Nat) : Nat → Nat → Nat
  | 0, t => t
  | turns + 1, t =>
    let n := nextAfter zone e t
    if now < n then t else lastFrom e now turns n

/-- The latest tick in (after, now], if any; of cron's, the last day's, before that only if none came
in it. -/
def latest (e : Every) (after now : Nat) : Option Nat :=
  match e with
  | .seconds s _ =>
    let t := now / (s * 1000) * s * 1000
    if after < t then some t else none
  | .cron .. =>
    let from_ := max after (now - 86400000)
    let t := nextAfter zone e from_
    if now < t then
      if from_ = after then none
      else
        let t := nextAfter zone e after
        if now < t then none else some (lastFrom zone e now (now - t) t)
    else some (lastFrom zone e now (now - t) t)

/-- A moment of a schedule. -/
def Every.At : Every → Nat → Prop
  | .seconds s _, t => s * 1000 ∣ t
  | .cron c tz, t =>
    let local_ := zone tz t
    60000 ∣ t ∧ c.day local_ = true ∧ c.hours.testBit local_.hour = true ∧
      c.minutes.testBit local_.minute = true

/-- What the turns come to is a moment of the expression. -/
theorem nextCron_at (c : Cron) (tz : String) (turns time : Nat) (whole : 60000 ∣ time) :
    nextCron zone c tz turns time = never ∨
      time ≤ nextCron zone c tz turns time ∧
        (Every.cron c tz).At zone (nextCron zone c tz turns time) := by
  induction turns generalizing time with
  | zero => exact .inl rfl
  | succ turns ih =>
    have later (more : Nat) : nextCron zone c tz turns (time + more * 60000) = never ∨
        time ≤ nextCron zone c tz turns (time + more * 60000) ∧
          (Every.cron c tz).At zone (nextCron zone c tz turns (time + more * 60000)) := by
      have next := ih (time + more * 60000) (Nat.dvd_add whole (Nat.dvd_mul_left _ _))
      rcases next with no | ⟨after, good⟩
      · exact .inl no
      · exact .inr ⟨by omega, good⟩
    simp only [nextCron]
    split
    · exact later _
    · rename_i day
      split
      · exact later _
      · rename_i hour
        split
        · have next := later 1
          rwa [Nat.one_mul] at next
        · rename_i minute
          simp only [Bool.not_eq_true', Bool.not_eq_false] at day hour minute
          exact .inr ⟨Nat.le_refl _, whole, day, hour, minute⟩

/-- The next tick is a later moment of the schedule, if it comes. -/
theorem nextAfter_at (e : Every) (t now : Nat) (soon : now < never) (due : nextAfter zone e t ≤ now) :
    t < nextAfter zone e t ∧ e.At zone (nextAfter zone e t) := by
  cases e with
  | seconds s positive =>
    have split := Nat.div_add_mod t (s * 1000)
    have below := Nat.mod_lt t (Nat.mul_pos positive (by decide : 0 < 1000))
    simp only [nextAfter, Every.At]
    rw [Nat.mul_assoc]
    refine ⟨?_, Nat.dvd_mul_left _ _⟩
    rw [Nat.add_mul, Nat.one_mul, Nat.mul_comm (t / (s * 1000))]
    omega
  | cron c tz =>
    simp only [nextAfter] at due ⊢
    have found := nextCron_at zone c tz 10000 ((t / 60000 + 1) * 60000) (Nat.dvd_mul_left _ _)
    rcases found with no | ⟨after, good⟩
    · omega
    · exact ⟨by omega, good⟩

theorem lastFrom_at (e : Every) (now turns t : Nat) (soon : now < never) (due : t ≤ now)
    (good : e.At zone t) :
    t ≤ lastFrom zone e now turns t ∧ lastFrom zone e now turns t ≤ now ∧
      e.At zone (lastFrom zone e now turns t) := by
  induction turns generalizing t with
  | zero => exact ⟨Nat.le_refl _, due, good⟩
  | succ turns ih =>
    simp only [lastFrom]
    split
    · exact ⟨Nat.le_refl _, due, good⟩
    · rename_i more
      have next := nextAfter_at zone e t now soon (Nat.le_of_not_lt more)
      have rest := ih (nextAfter zone e t) (Nat.le_of_not_lt more) next.2
      exact ⟨by omega, rest.2⟩

/-- The latest tick is a moment of the schedule, after the last one and not in the future. -/
theorem latest_at (e : Every) (after now t : Nat) (soon : now < never)
    (found : latest zone e after now = some t) :
    after < t ∧ t ≤ now ∧ e.At zone t := by
  cases e with
  | seconds s _ =>
    simp only [latest] at found
    split at found
    · rename_i later
      obtain rfl := Option.some.inj found
      rw [Nat.mul_assoc] at later ⊢
      exact ⟨later, Nat.div_mul_le_self _ _, Nat.dvd_mul_left _ _⟩
    · cases found
  | cron c tz =>
    have up (from_ : Nat) (least : after ≤ from_) (due : nextAfter zone (.cron c tz) from_ ≤ now)
        (last : lastFrom zone (.cron c tz) now (now - nextAfter zone (.cron c tz) from_)
          (nextAfter zone (.cron c tz) from_) = t) :
        after < t ∧ t ≤ now ∧ (Every.cron c tz).At zone t := by
      have first := nextAfter_at zone (.cron c tz) from_ now soon due
      have climb := lastFrom_at zone (.cron c tz) now
        (now - nextAfter zone (.cron c tz) from_) _ soon due first.2
      rw [last] at climb
      exact ⟨by omega, climb.2⟩
    simp only [latest] at found
    split at found
    · split at found
      · cases found
      · split at found
        · cases found
        · rename_i due
          exact up after (Nat.le_refl _) (Nat.le_of_not_lt due) (Option.some.inj found)
    · rename_i due
      exact up _ (Nat.le_max_left _ _) (Nat.le_of_not_lt due) (Option.some.inj found)

end Pondra.Runs
