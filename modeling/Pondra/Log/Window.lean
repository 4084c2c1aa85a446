import Mathlib.Data.Nat.Basic
import Mathlib.Data.String.Basic

set_option autoImplicit false

namespace Pondra.Log

/-- What the windows are measured by: the locks' lease, and the load records' retention. -/
structure Config where
  leaseSecs : Nat
  retentionMs : Nat

/-- What follows a prefix, if the name starts with it. -/
def stripPrefix (start name : String) : Option String :=
  if start.toList.isPrefixOf name.toList then
    some (String.ofList (name.toList.drop start.toList.length))
  else none

/-- Does the name start with `start`? -/
def startsWith (start name : String) : Bool := start.toList.isPrefixOf name.toList

def u64Max : Nat := 2 ^ 64 - 1

def saturatingAdd (a b : Nat) : Nat := min (a + b) u64Max

def saturatingMul (a b : Nat) : Nat := min (a * b) u64Max

/-- The retry window: twice the lease, and at least two minutes. -/
def retryMs (config : Config) : Nat := 2 * max config.leaseSecs 60 * 1000

/-- The most a mark is kept for its client's deadline: a day. -/
def untilCapMs : Nat := 24 * 60 * 60 * 1000

/-- `parse` of digits, `u64::MAX` past 64 bits. -/
def parseDigits (digits : List Char) : Nat :=
  min (digits.foldl (fun n digit => 10 * n + (digit.toNat - '0'.toNat)) 0) u64Max

/-- `S` of a job id `auto-until<S>-…`. -/
def clientUntil (job : String) : Option Nat :=
  match stripPrefix "auto-until" job with
  | none => none
  | some rest =>
    let digits := rest.toList.takeWhile fun c => c ≠ '-'
    if '-' ∈ rest.toList ∧ digits ≠ [] ∧ digits.all Char.isDigit then some (parseDigits digits)
    else none

/-- The window of a job id, from its name. -/
def jobKept (config : Config) (job : String) (now : Nat) : Nat :=
  match clientUntil job with
  | some untilS =>
    let left := saturatingMul untilS 1000 - now
    min (saturatingAdd (max left (retryMs config)) (retryMs config)) untilCapMs
  | none => if startsWith "auto-" job then retryMs config else config.retentionMs

/-- How long a producer's mark is kept after its last commit; 0: for good. -/
def keptMs (config : Config) (producer : String) (now : Nat) : Nat :=
  match stripPrefix "sql:" producer with
  | some job => jobKept config job now
  | none =>
  match stripPrefix "txn:job-" producer with
  | some job => jobKept config job now
  | none =>
  if startsWith "txn:" producer || startsWith "copy:" producer then retryMs config
  else if startsWith "job:load:" producer || startsWith "job:iceberg:" producer then 0
  else
  match stripPrefix "job:" producer with
  | some job => jobKept config job now
  | none => 0

theorem retryMs_pos (config : Config) : 0 < retryMs config := by
  unfold retryMs
  omega

/-- A window is one of these three, whatever the time. -/
inductive Window (config : Config) : (Nat → Nat) → Prop where
  | fixed (kept : Nat) : Window config fun _ => kept
  | until (deadline : Nat) : Window config fun now =>
      min (saturatingAdd (max (deadline - now) (retryMs config)) (retryMs config)) untilCapMs

theorem jobKept_window (config : Config) (job : String) : Window config (jobKept config job) := by
  unfold jobKept
  cases clientUntil job with
  | some untilS => exact .until _
  | none =>
    show Window config fun _ => _
    exact .fixed _

theorem keptMs_window (config : Config) (producer : String) :
    Window config (keptMs config producer) := by
  unfold keptMs
  cases stripPrefix "sql:" producer with
  | some job => exact jobKept_window config job
  | none =>
    cases stripPrefix "txn:job-" producer with
    | some job => exact jobKept_window config job
    | none =>
      simp only
      split
      · exact .fixed _
      · split
        · exact .fixed _
        · cases stripPrefix "job:" producer with
          | some job => exact jobKept_window config job
          | none => exact .fixed _

/-- A window that opens later ends later. -/
theorem keptMs_mono (config : Config) (producer : String) (now later : Nat) (after : now ≤ later) :
    now + keptMs config producer now ≤ later + keptMs config producer later := by
  have window := keptMs_window config producer
  generalize keptMs config producer = kept at window
  cases window with
  | fixed kept => exact Nat.add_le_add_right after kept
  | «until» deadline =>
    simp only [saturatingAdd, u64Max, untilCapMs]
    omega

/-- Whether a mark is kept for good doesn't change with the time. -/
theorem keptMs_pos (config : Config) (producer : String) (now later : Nat)
    (kept : 0 < keptMs config producer now) : 0 < keptMs config producer later := by
  have window := keptMs_window config producer
  generalize keptMs config producer = keptAt at window kept
  cases window with
  | fixed _ => exact kept
  | «until» deadline =>
    have retry := retryMs_pos config
    simp only [saturatingAdd, u64Max, untilCapMs]
    omega

end Pondra.Log
