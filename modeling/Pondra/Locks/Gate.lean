import Mathlib.Algebra.GroupWithZero.Nat
import Pondra.Locks.Runs

set_option autoImplicit false

namespace Pondra.Locks

open Machines

/-- The gate a writer holds on the tables it writes (`close`); `passed` once it has seen no
append in flight to any of them. -/
structure Gate where
  tables : List String
  passed : Bool
  deriving DecidableEq

/-- A lake's table with the gates held on it. -/
structure Gated where
  table : Table
  clock : Nat
  gates : List Gate

def Gated.new (lease start : Nat) : Gated := ⟨.new lease start, start, []⟩

inductive GateOp
  | lock (op : Op)
  | close (tables : List String)
  | look (gate : Nat)
  | drop (gate : Nat)

namespace Gated

/-- The first part of `close`: the tables are closed and the gate is held. -/
def close (s : Gated) (tables : List String) : Gated :=
  { s with
    table := tables.foldl (fun t name => t.close name) s.table
    gates := s.gates ++ [⟨tables, false⟩] }

/-- One round of `close`'s wait: the gate is passed where no table is busy. -/
def look (s : Gated) (gate now : Nat) : Gated :=
  { s with gates := s.gates.modify gate fun g =>
      if ∀ name ∈ g.tables, ¬ s.table.appending name now then { g with passed := true } else g }

/-- The gate is dropped, however its wait ended. -/
def drop (s : Gated) (gate : Nat) : Gated :=
  match s.gates[gate]? with
  | none => s
  | some g =>
    { s with
      table := g.tables.foldl (fun t name => t.open_ name) s.table
      gates := s.gates.eraseIdx gate }

end Gated

def GateOp.apply (s : Gated) (now : Nat) : GateOp → Gated
  | .lock op => { s with table := op.apply s.table now }
  | .close tables => s.close tables
  | .look gate => s.look gate now
  | .drop gate => s.drop gate

/-- Tables are closed and opened by gates only. -/
def GateOp.Fits (s : Gated) : GateOp → Prop
  | .lock (.close _) => False
  | .lock (.open_ _) => False
  | .lock op => op.Fits s.table
  | _ => True

/-- Appenders, waiters and closers on one lake. -/
def gatedLocks : Machine Gated (Nat × GateOp) where
  next s input := { input.2.apply s input.1 with clock := input.1 }
  Allows s input := s.clock ≤ input.1 ∧ input.2.Fits s

/-! ### Whose lease an operation moves -/

/-- The owners the operation renews by name. -/
def Op.Names (t : Table) (now : Nat) (owner : String) : Op → Prop
  | .ask asker _ => asker = owner ∧ t.isEnded owner now = false
  | .renew other => other = owner ∧ t.isEnded owner now = false
  | .tick other _ => other = owner ∧ t.isEnded owner now = false
  | .enter other table =>
    other = owner ∧ t.isEnded owner now = false ∧ (t.enter owner table now).2 = true
  | _ => False

/-- `owner` has a place, which it keeps, in the queue of a key that the operation settles. -/
def Op.Hands (t : Table) (owner : String) : Op → Prop
  | .ask asker key => asker ≠ owner ∧ ∃ k token, t.waiting owner = some (k, token) ∧
      (k = key ∨ ∃ other, t.waiting asker = some (k, other))
  | .release other _ => other ≠ owner ∧ ∃ k token, t.waiting owner = some (k, token) ∧
      (k ∈ t.held other ∨ ∃ token', t.waiting other = some (k, token'))
  | .cancel key token => ∃ other, other ≠ token ∧ t.waiting owner = some (key, other)
  | .settle key => ∃ token, t.waiting owner = some (key, token)
  | .tick _ key => ∃ token, t.waiting owner = some (key, token)
  | .sweep _ => t.waiting owner ≠ none
  | _ => False

namespace Table

theorem renew_lasts {t : Table} {owner other : String} {now : Nat}
    (lasts : (t.renew other now).lasts owner now = true) :
    t.lasts owner now = true ∨ (other = owner ∧ t.isEnded owner now = false) := by
  unfold renew at lasts
  split at lasts
  · exact .inl lasts
  · rename_i open_
    by_cases same : owner = other
    · subst same
      exact .inr ⟨rfl, by simpa using open_⟩
    · left
      simpa [Table.lasts, Function.update_of_ne same] using lasts

/-- `enter` refuses a new appender of a closed table, and renews and registers any other. -/
theorem enter_cases (t : Table) (owner table : String) (now : Nat) :
    (owner ∉ t.flying table ∧ 0 < t.closed table ∧ t.enter owner table now = (t, false)) ∨
    ((owner ∈ t.flying table ∨ t.closed table = 0) ∧ t.enter owner table now =
      ({ t.renew owner now with
        flying := Function.update t.flying table (insert owner (t.flying table)) }, true)) := by
  have flying : (t.renew owner now).flying = t.flying := by
    unfold renew
    split <;> rfl
  unfold enter
  split
  · rename_i refused
    exact .inl ⟨refused.1, refused.2, rfl⟩
  · rename_i open_
    refine .inr ⟨?_, by simp only [flying]⟩
    by_contra both
    push Not at both
    exact open_ ⟨both.1, Nat.pos_of_ne_zero both.2⟩

/-- `settle` gives a lease only to an owner queued on the key. -/
theorem settled_lasts {t u : Table} {key owner : String} {now : Nat} (queues : t.Queues)
    (settled : Settled t key now u) (lasts : u.lasts owner now = true) :
    t.lasts owner now = true ∨ ∃ token, t.waiting owner = some (key, token) := by
  cases settled with
  | stays busy => exact .inl lasts
  | empties free deaf => exact .inl lasts
  | hands free skipped w rest queue deaf hears =>
    by_cases same : owner = w.owner
    · subst same
      exact .inr ⟨w.token, queues.place key w (by simp [queue])⟩
    · left
      simpa [Table.lasts, Function.update_of_ne same] using lasts

theorem settled_waiting {t u : Table} {key owner : String} {now : Nat} {place : String × Nat}
    (queues : t.Queues) (settled : Settled t key now u) (waits : u.waiting owner = some place) :
    t.waiting owner = some place :=
  (settled_gives queues settled).1 owner place waits

theorem unwait_lasts {t : Table} {owner other : String} {now : Nat} (valid : t.Valid now)
    (lasts : (t.unwait other now).lasts owner now = true) :
    t.lasts owner now = true ∨ (other ≠ owner ∧ ∃ k token token',
      t.waiting owner = some (k, token) ∧ t.waiting other = some (k, token')) := by
  cases waits : t.waiting other with
  | none =>
    left
    simpa [unwait, waits] using lasts
  | some place =>
    obtain ⟨key, token⟩ := place
    have sound := valid.sound
    rw [unwait_eq t other key token now sound.toQueues waits] at lasts
    have queued := sound.named other _ waits
    rcases settled_lasts (forget_sound t key other token now sound queued).toQueues
      (settle_settled _ key now) lasts with before | ⟨token', place⟩
    · exact .inl before
    · obtain ⟨place, kept⟩ := Option.filter_eq_some_iff.mp place
      refine .inr ⟨?_, key, token', token, place, rfl⟩
      rintro rfl
      rw [waits] at place
      simp only [Option.some.injEq, Prod.mk.injEq, true_and] at place
      simp [place] at kept

theorem ask_lasts {t : Table} {asker key owner : String} {now : Nat} (valid : t.Valid now)
    (lasts : (t.ask asker key now).1.lasts owner now = true) :
    t.lasts owner now = true ∨ (Op.ask asker key).Names t now owner ∨
      (Op.ask asker key).Hands t owner := by
  have renewed := renew_valid t asker now valid
  have settled := settle_valid (t.renew asker now) key now renewed
  have done := settle_settled (t.renew asker now) key now
  have waiting : (t.renew asker now).waiting = t.waiting := by
    unfold renew
    split <;> rfl
  have place : ∀ other place, ((t.renew asker now).settle key now).waiting other = some place →
      t.waiting other = some place := by
    intro other place waits
    rw [← waiting]
    exact settled_waiting renewed.sound.toQueues done waits
  by_cases same : asker = owner
  · subst same
    by_cases ended : t.isEnded asker now = true
    · left
      simpa [ask, ended] using lasts
    · exact .inr (.inl ⟨rfl, by simpa using ended⟩)
  have first : ((t.renew asker now).settle key now).lasts owner now = true →
      t.lasts owner now = true ∨ (Op.ask asker key).Hands t owner := by
    intro lasts
    rcases settled_lasts renewed.sound.toQueues done lasts with before | ⟨token, waits⟩
    · rcases renew_lasts before with old | new
      · exact .inl old
      · exact absurd new.1 same
    · rw [waiting] at waits
      exact .inr ⟨same, key, token, waits, .inl rfl⟩
  have last : (((t.renew asker now).settle key now).unwait asker now).lasts owner now = true →
      t.lasts owner now = true ∨ (Op.ask asker key).Hands t owner := by
    intro lasts
    rcases unwait_lasts settled lasts with before | ⟨_, k, token, token', mine, its⟩
    · exact first before
    · exact .inr ⟨same, k, token, place _ _ mine, .inr ⟨token', place _ _ its⟩⟩
  have asked := ask_asked t asker key now
  generalize (t.renew asker now).settle key now = s at first last asked
  generalize t.ask asker key now = answer at asked lasts
  cases asked with
  | ended refused => exact .inl lasts
  | held open_ mine => exact (first lasts).imp_right .inr
  | took open_ free =>
    have before : s.lasts owner now = true := by
      simpa [Table.lasts, grant, Function.update_of_ne (Ne.symm same)] using lasts
    exact (first before).imp_right .inr
  | deadlock open_ holder held other loop => exact (last lasts).imp_right .inr
  | waits open_ holder held other clear => exact (last lasts).imp_right .inr

theorem letGo_lasts {t : Table} {other key owner : String} {keys : List String} {now : Nat}
    (releasing : t.Releasing other (key :: keys) now)
    (lasts : (t.letGo other key now).lasts owner now = true) :
    t.lasts owner now = true ∨ ∃ token, t.waiting owner = some (key, token) := by
  have holder : (t.locks key).holder = some other :=
    (releasing.held key other).mp (.inr ⟨rfl, List.mem_cons_self⟩)
  unfold letGo at lasts
  simp only [holder, ↓reduceIte] at lasts
  exact settled_lasts (t := t.setLock key _) (releasing.sound.free key).toQueues
    (settle_settled _ key now) lasts

theorem letGo_waiting {t : Table} {other key owner : String} {keys : List String} {now : Nat}
    {place : String × Nat} (releasing : t.Releasing other (key :: keys) now)
    (waits : (t.letGo other key now).waiting owner = some place) :
    t.waiting owner = some place := by
  have holder : (t.locks key).holder = some other :=
    (releasing.held key other).mp (.inr ⟨rfl, List.mem_cons_self⟩)
  unfold letGo at waits
  simp only [holder, ↓reduceIte] at waits
  exact settled_waiting (t := t.setLock key _) (releasing.sound.free key).toQueues
    (settle_settled _ key now) waits

theorem foldl_letGo_lasts (t : Table) (other owner : String) (keys : List String) (now : Nat)
    (nodup : keys.Nodup) (releasing : t.Releasing other keys now) :
    ((keys.foldl (fun t key => t.letGo other key now) t).lasts owner now = true →
      t.lasts owner now = true ∨ ∃ key ∈ keys, ∃ token, t.waiting owner = some (key, token)) ∧
    ∀ o place, (keys.foldl (fun t key => t.letGo other key now) t).waiting o = some place →
      t.waiting o = some place := by
  induction keys generalizing t with
  | nil => exact ⟨.inl, fun _ _ => id⟩
  | cons key rest ih =>
    obtain ⟨fresh, nodup⟩ := List.nodup_cons.mp nodup
    obtain ⟨lasts, waits⟩ := ih _ nodup (letGo_releasing t other key rest now fresh releasing)
    refine ⟨fun after => ?_, fun o place after => letGo_waiting releasing (waits o place after)⟩
    rcases lasts after with before | ⟨k, inside, token, place⟩
    · rcases letGo_lasts releasing before with old | ⟨token, place⟩
      · exact .inl old
      · exact .inr ⟨key, List.mem_cons_self, token, place⟩
    · exact .inr ⟨k, List.mem_cons_of_mem _ inside, token, letGo_waiting releasing place⟩

theorem release_lasts {t : Table} {other owner : String} {keys : List String} {now : Nat}
    (nodup : keys.Nodup) (all : ∀ key, key ∈ keys ↔ key ∈ t.held other) (valid : t.Valid now)
    (ne : other ≠ owner) (lasts : (t.release other keys now).lasts owner now = true) :
    t.lasts owner now = true ∨ (Op.release other keys).Hands t owner := by
  have start := release_start t other keys now all valid
  have done := foldl_letGo_releasing _ other keys now nodup start
  obtain ⟨loop, places⟩ := foldl_letGo_lasts _ other owner keys now nodup start
  unfold release at lasts
  simp only at lasts
  generalize keys.foldl (fun t key => letGo t other key now) _ = s at done lasts loop places
  have within : s.lasts owner now = true →
      t.lasts owner now = true ∨ (Op.release other keys).Hands t owner := by
    intro before
    rcases loop before with old | ⟨key, inside, token, place⟩
    · exact .inl old
    · exact .inr ⟨ne, key, token, place, .inl ((all key).mp inside)⟩
  rcases unwait_lasts (t := s.refuse other now) done.refused lasts with
    before | ⟨_, k, token, token', mine, its⟩
  · refine within ?_
    simpa [Table.lasts, refuse, Function.update_of_ne (Ne.symm ne)] using before
  · exact .inr ⟨ne, k, token, places _ _ mine, .inr ⟨token', places _ _ its⟩⟩

theorem foldl_settle_lasts (t : Table) (owner : String) (keys : List String) (now : Nat)
    (valid : t.Valid now)
    (lasts : (keys.foldl (fun t key => t.settle key now) t).lasts owner now = true) :
    t.lasts owner now = true ∨ t.waiting owner ≠ none := by
  induction keys generalizing t with
  | nil => exact .inl lasts
  | cons key rest ih =>
    have queues := valid.sound.toQueues
    have settled := settle_settled t key now
    rcases ih _ (settle_valid t key now valid) lasts with before | waits
    · rcases settled_lasts queues settled before with old | ⟨token, place⟩
      · exact .inl old
      · exact .inr (by simp [place])
    · obtain ⟨place, waits⟩ := Option.ne_none_iff_exists'.mp waits
      have before := settled_waiting queues settled waits
      exact .inr (by simp [before])

end Table

/-- What an operation can do to a lease that lapsed: only a renewal by name or a grant from a
queue brings it back. -/
theorem apply_lasts (t : Table) (now : Nat) (op : Op) (owner : String) (fits : op.Fits t)
    (valid : t.Valid now) (mine : ∀ keys, op ≠ .release owner keys)
    (lasts : (op.apply t now).lasts owner now = true) :
    t.lasts owner now = true ∨ op.Names t now owner ∨ op.Hands t owner := by
  have queues := valid.sound.toQueues
  cases op with
  | ask asker key => exact Table.ask_lasts valid lasts
  | release other keys =>
    have all : ∀ key, key ∈ keys ↔ key ∈ t.held other := by
      intro key
      rw [← fits.2, List.mem_toFinset]
    have ne : other ≠ owner := by
      rintro rfl
      exact mine keys rfl
    exact (Table.release_lasts fits.1 all valid ne lasts).imp_right .inr
  | cancel key token =>
    obtain ⟨asker, queued⟩ := fits
    rcases Table.settled_lasts (t.forget_sound key asker token now valid.sound queued).toQueues
      (Table.settle_settled _ key now) lasts with old | ⟨other, place⟩
    · exact .inl old
    · obtain ⟨place, kept⟩ := Option.filter_eq_some_iff.mp place
      exact .inr (.inr ⟨other, by simpa using kept, place⟩)
  | renew other => exact (Table.renew_lasts lasts).imp_right .inl
  | settle key =>
    exact (Table.settled_lasts queues (t.settle_settled key now) lasts).imp_right .inr
  | tick other key =>
    rcases Table.renew_lasts lasts with before | ⟨same, open_⟩
    · exact (Table.settled_lasts queues (t.settle_settled key now) before).imp_right .inr
    · rw [Table.isEnded_congr (t.settle_ended key now)] at open_
      exact .inr (.inl ⟨same, open_⟩)
  | sweep keys =>
    rcases Table.foldl_settle_lasts (t.expire now) owner keys now (t.expire_valid now valid) lasts
      with before | waits
    · left
      by_contra lapsed
      have gone : (t.expire now).leases owner = none := by simp [Table.expire, lapsed]
      simp [Table.lasts, gone] at before
    · exact .inr (.inr waits)
  | enter other table =>
    change (t.enter other table now).1.lasts owner now = true at lasts
    rcases t.enter_cases other table now with ⟨_, _, refused⟩ | ⟨_, entered⟩
    · rw [refused] at lasts
      exact .inl lasts
    · rw [entered] at lasts
      have renewed : (t.renew other now).lasts owner now = true := lasts
      rcases Table.renew_lasts renewed with old | ⟨rfl, open_⟩
      · exact .inl old
      · exact .inr (.inl ⟨rfl, open_, by rw [entered]⟩)
  | leave other table => exact .inl lasts
  | close table => exact .inl lasts
  | open_ table => exact .inl lasts
  | drop token => exact .inl lasts

/-! ### Appenders and closers -/

section fixed

variable (t : Table) (owner : String) (now : Nat)

@[simp] theorem renew_flying : (t.renew owner now).flying = t.flying := by
  unfold Table.renew
  split <;> rfl

@[simp] theorem renew_closed : (t.renew owner now).closed = t.closed := by
  unfold Table.renew
  split <;> rfl

@[simp] theorem unwait_flying : (t.unwait owner now).flying = t.flying := by
  unfold Table.unwait
  split <;> simp [Table.unqueue]

@[simp] theorem unwait_closed : (t.unwait owner now).closed = t.closed := by
  unfold Table.unwait
  split <;> simp [Table.unqueue]

theorem ask_gates (key : String) : (t.ask owner key now).1.flying = t.flying ∧
    (t.ask owner key now).1.closed = t.closed := by
  have asked := t.ask_asked owner key now
  have settled : ((t.renew owner now).settle key now).flying = t.flying ∧
      ((t.renew owner now).settle key now).closed = t.closed := by simp
  generalize (t.renew owner now).settle key now = s at asked settled
  generalize t.ask owner key now = answer at asked ⊢
  have after : (s.unwait owner now).flying = t.flying ∧ (s.unwait owner now).closed = t.closed := by
    simpa using settled
  cases asked with
  | ended refused => exact ⟨rfl, rfl⟩
  | held open_ mine => exact settled
  | took open_ free => exact settled
  | deadlock open_ holder held other loop => exact after
  | waits open_ holder held other clear => exact after

theorem foldl_settle_gates (keys : List String) :
    (keys.foldl (fun t key => t.settle key now) t).flying = t.flying ∧
      (keys.foldl (fun t key => t.settle key now) t).closed = t.closed := by
  induction keys generalizing t with
  | nil => exact ⟨rfl, rfl⟩
  | cons key rest ih =>
    obtain ⟨flying, closed⟩ := ih (t.settle key now)
    exact ⟨flying.trans (t.settle_flying key now), closed.trans (t.settle_closed key now)⟩

theorem foldl_letGo_gates (keys : List String) :
    (keys.foldl (fun t key => t.letGo owner key now) t).flying = t.flying ∧
      (keys.foldl (fun t key => t.letGo owner key now) t).closed = t.closed := by
  induction keys generalizing t with
  | nil => exact ⟨rfl, rfl⟩
  | cons key rest ih =>
    obtain ⟨flying, closed⟩ := ih (t.letGo owner key now)
    have step : (t.letGo owner key now).flying = t.flying ∧
        (t.letGo owner key now).closed = t.closed := by
      unfold Table.letGo
      simp only [Table.settle_flying, Table.settle_closed]
      split <;> exact ⟨rfl, rfl⟩
    exact ⟨flying.trans step.1, closed.trans step.2⟩

theorem release_gates (keys : List String) :
    (t.release owner keys now).closed = t.closed ∧
      ∀ table, (t.release owner keys now).flying table = (t.flying table).erase owner := by
  have loop := foldl_letGo_gates { t with held := Function.update t.held owner ∅ } owner now keys
  unfold Table.release
  simp only
  generalize keys.foldl (fun t key => Table.letGo t owner key now) _ = s at loop
  constructor
  · change ((s.refuse owner now).unwait owner now).closed = t.closed
    rw [unwait_closed]
    exact loop.2
  · intro table
    change (((s.refuse owner now).unwait owner now).flying table).erase owner = _
    rw [unwait_flying]
    exact congrArg (fun flying => (flying table).erase owner) loop.1

end fixed

/-- New appenders come in by `enter` only, and where nobody closes the table. -/
theorem apply_gates (t : Table) (now : Nat) (op : Op) (notClose : ∀ table, op ≠ .close table)
    (notOpen : ∀ table, op ≠ .open_ table) :
    (op.apply t now).closed = t.closed ∧
      ∀ table owner, owner ∈ (op.apply t now).flying table →
        owner ∈ t.flying table ∨ t.closed table = 0 := by
  cases op with
  | ask owner key =>
    obtain ⟨flying, closed⟩ := ask_gates t owner now key
    exact ⟨closed, fun table other inside => .inl (by simpa only [Op.apply, flying] using inside)⟩
  | release owner keys =>
    obtain ⟨closed, flying⟩ := release_gates t owner now keys
    refine ⟨closed, fun table other inside => .inl ?_⟩
    simp only [Op.apply, flying] at inside
    exact Finset.mem_of_mem_erase inside
  | cancel key token =>
    have flying : (t.cancel key token now).flying = t.flying :=
      (t.forget key token).settle_flying key now
    exact ⟨(t.forget key token).settle_closed key now, fun table other inside =>
      .inl (by simpa only [Op.apply, flying] using inside)⟩
  | renew owner =>
    exact ⟨renew_closed t owner now, fun table other inside =>
      .inl (by simpa only [Op.apply, renew_flying] using inside)⟩
  | settle key =>
    exact ⟨t.settle_closed key now, fun table other inside =>
      .inl (by simpa only [Op.apply, Table.settle_flying] using inside)⟩
  | tick owner key =>
    refine ⟨?_, fun table other inside => .inl ?_⟩
    · simp [Op.apply, Table.tick]
    · simpa [Op.apply, Table.tick] using inside
  | sweep keys =>
    obtain ⟨flying, closed⟩ := foldl_settle_gates (t.expire now) now keys
    refine ⟨closed, fun table other inside => .inl ?_⟩
    have before : other ∈ (t.expire now).flying table := flying ▸ inside
    exact Finset.mem_of_mem_filter other before
  | enter owner table =>
    simp only [Op.apply]
    rcases t.enter_cases owner table now with ⟨_, _, refused⟩ | ⟨open_, entered⟩
    · rw [refused]
      exact ⟨rfl, fun _ _ => .inl⟩
    · rw [entered]
      refine ⟨renew_closed t owner now, fun name other inside => ?_⟩
      simp only [Function.update_apply] at inside
      split at inside
      · rename_i same
        subst same
        rcases Finset.mem_insert.mp inside with rfl | old
        · exact open_
        · exact .inl old
      · exact .inl inside
  | leave owner table =>
    refine ⟨rfl, fun name other inside => .inl ?_⟩
    simp only [Op.apply, Table.leave, Function.update_apply] at inside
    split at inside
    · rename_i same
      exact same ▸ Finset.mem_of_mem_erase inside
    · exact inside
  | close table => exact absurd rfl (notClose table)
  | open_ table => exact absurd rfl (notOpen table)
  | drop token => exact ⟨rfl, fun _ _ => .inl⟩

theorem foldl_close (t : Table) (tables : List String) :
    (tables.foldl (fun t name => t.close name) t).flying = t.flying ∧
    (tables.foldl (fun t name => t.close name) t).leases = t.leases ∧
    ∀ table, (tables.foldl (fun t name => t.close name) t).closed table =
      t.closed table + tables.count table := by
  induction tables generalizing t with
  | nil => exact ⟨rfl, rfl, fun _ => rfl⟩
  | cons name rest ih =>
    obtain ⟨flying, leases, closed⟩ := ih (t.close name)
    refine ⟨flying, leases, fun table => ?_⟩
    rw [List.foldl_cons, closed, List.count_cons]
    by_cases same : table = name
    · subst same
      simp [Table.close]
      omega
    · simp [Table.close, Function.update_of_ne same, Ne.symm same]

theorem foldl_open (t : Table) (tables : List String) :
    (tables.foldl (fun t name => t.open_ name) t).flying = t.flying ∧
    (tables.foldl (fun t name => t.open_ name) t).leases = t.leases ∧
    ∀ table, (tables.foldl (fun t name => t.open_ name) t).closed table =
      t.closed table - tables.count table := by
  induction tables generalizing t with
  | nil => exact ⟨rfl, rfl, fun _ => rfl⟩
  | cons name rest ih =>
    obtain ⟨flying, leases, closed⟩ := ih (t.open_ name)
    refine ⟨flying, leases, fun table => ?_⟩
    rw [List.foldl_cons, closed, List.count_cons]
    by_cases same : table = name
    · subst same
      simp [Table.open_]
      omega
    · simp [Table.open_, Function.update_of_ne same, Ne.symm same]

/-! ### Runs -/

/-- Each table is closed as often as the gates held on it name it. -/
def Gated.Nested (s : Gated) : Prop :=
  ∀ table, s.table.closed table = (s.gates.map fun gate => gate.tables.count table).sum

/-- No owner with a lease that lasts appends to a table whose gate was passed. -/
def Gated.Shut (s : Gated) : Prop :=
  ∀ gate ∈ s.gates, gate.passed = true → ∀ table ∈ gate.tables, ¬ s.table.appending table s.clock

/-- `owner` is still registered as appending to a table whose gate was passed. -/
def Gated.Standing (s : Gated) (owner : String) : Prop :=
  ∃ gate ∈ s.gates, gate.passed = true ∧ ∃ table ∈ gate.tables, owner ∈ s.table.flying table

/-- The operation renews such an owner, or settles a key in whose queue it stands. -/
def GateOp.Revives (s : Gated) (now : Nat) : GateOp → Prop
  | .lock op => ∃ owner, s.Standing owner ∧ (op.Names s.table now owner ∨ op.Hands s.table owner)
  | _ => False

theorem Gated.Nested.pos {s : Gated} (nested : s.Nested) {gate : Gate} (held : gate ∈ s.gates)
    {table : String} (named : table ∈ gate.tables) : 0 < s.table.closed table := by
  rw [nested, List.sum_pos_iff_exists_pos_nat]
  exact ⟨gate.tables.count table, List.mem_map.mpr ⟨gate, held, rfl⟩, List.count_pos_iff.mpr named⟩

theorem modify_counts (gates : List Gate) (gate : Nat) (f : Gate → Gate)
    (tables : ∀ g, (f g).tables = g.tables) (table : String) :
    ((gates.modify gate f).map fun g => g.tables.count table) =
      gates.map fun g => g.tables.count table := by
  induction gates generalizing gate with
  | nil => cases gate <;> rfl
  | cons g rest ih =>
    cases gate with
    | zero => simp [tables]
    | succ gate => simp [ih]

theorem eraseIdx_sum {gates : List Gate} {gate : Nat} {g : Gate} (found : gates[gate]? = some g)
    (table : String) : (gates.map fun g => g.tables.count table).sum =
      g.tables.count table + ((gates.eraseIdx gate).map fun g => g.tables.count table).sum := by
  induction gates generalizing gate with
  | nil => simp at found
  | cons first rest ih =>
    cases gate with
    | zero =>
      simp only [List.getElem?_cons_zero, Option.some.injEq] at found
      subst found
      simp
    | succ gate =>
      have tail := ih (by simpa using found)
      simp only [List.map_cons, List.sum_cons, List.eraseIdx_cons_succ, tail]
      omega

theorem next_nested (s : Gated) (input : Nat × GateOp) (allowed : gatedLocks.Allows s input)
    (nested : s.Nested) : (gatedLocks.next s input).Nested := by
  obtain ⟨now, op⟩ := input
  intro table
  cases op with
  | lock op =>
    have same := (apply_gates s.table now op ?_ ?_).1
    · change (op.apply s.table now).closed table = _
      rw [same]
      exact nested table
    · rintro name rfl
      exact allowed.2
    · rintro name rfl
      exact allowed.2
  | close tables =>
    change (tables.foldl (fun t name => t.close name) s.table).closed table =
      ((s.gates ++ [Gate.mk tables false]).map fun gate : Gate => gate.tables.count table).sum
    rw [(foldl_close s.table tables).2.2, nested]
    simp
  | look gate =>
    change s.table.closed table = ((s.gates.modify gate _).map _).sum
    rw [modify_counts]
    · exact nested table
    · intro g
      split <;> rfl
  | drop gate =>
    change (s.drop gate).table.closed table = ((s.drop gate).gates.map _).sum
    unfold Gated.drop
    split
    · exact nested table
    · rename_i g found
      simp only [(foldl_open s.table g.tables).2.2]
      rw [nested, eraseIdx_sum found]
      omega

theorem Gated.new_nested (lease start : Nat) : (Gated.new lease start).Nested := fun _ => rfl

theorem mem_modify {gates : List Gate} {gate : Nat} {f : Gate → Gate} {g : Gate}
    (inside : g ∈ gates.modify gate f) : g ∈ gates ∨ ∃ old ∈ gates, g = f old := by
  induction gates generalizing gate with
  | nil => cases gate <;> simp at inside
  | cons first rest ih =>
    cases gate with
    | zero =>
      rcases List.mem_cons.mp inside with same | later
      · exact .inr ⟨first, List.mem_cons_self, same⟩
      · exact .inl (List.mem_cons_of_mem _ later)
    | succ gate =>
      rcases List.mem_cons.mp inside with same | later
      · exact .inl (same ▸ List.mem_cons_self)
      · rcases ih later with kept | ⟨old, within, same⟩
        · exact .inl (List.mem_cons_of_mem _ kept)
        · exact .inr ⟨old, List.mem_cons_of_mem _ within, same⟩

theorem appending_later {t u : Table} {table : String} {now later : Nat} (le : now ≤ later)
    (flying : u.flying = t.flying) (leases : u.leases = t.leases)
    (busy : u.appending table later) : t.appending table now := by
  obtain ⟨owner, inside, lasts⟩ := busy
  rw [Table.lasts_congr leases] at lasts
  exact ⟨owner, flying ▸ inside, Table.lasts_later le lasts⟩

theorem next_shut (s : Gated) (input : Nat × GateOp) (allowed : gatedLocks.Allows s input)
    (barred : ¬ input.2.Revives s input.1) (valid : s.table.Valid s.clock) (nested : s.Nested)
    (shut : s.Shut) : (gatedLocks.next s input).Shut := by
  obtain ⟨now, op⟩ := input
  obtain ⟨later, fits⟩ := allowed
  intro gate held passed table named busy
  cases op with
  | lock op =>
    obtain ⟨owner, inside, lasts⟩ := busy
    have notClose : ∀ name, op ≠ .close name := by
      rintro name rfl
      exact fits
    have notOpen : ∀ name, op ≠ .open_ name := by
      rintro name rfl
      exact fits
    have fits' : op.Fits s.table := by
      cases op with
      | close name => exact fits.elim
      | open_ name => exact fits.elim
      | _ => exact fits
    have registered : owner ∈ s.table.flying table := by
      rcases (apply_gates s.table now op notClose notOpen).2 table owner inside with old | open_
      · exact old
      · have := nested.pos held named
        omega
    have mine : ∀ keys, op ≠ .release owner keys := by
      rintro keys rfl
      have left := (release_gates s.table owner now keys).2 table
      change owner ∈ (s.table.release owner keys now).flying table at inside
      rw [left] at inside
      exact Finset.notMem_erase owner _ inside
    rcases apply_lasts s.table now op owner fits' (valid.later later) mine lasts with old | revived
    · exact shut gate held passed table named ⟨owner, registered, Table.lasts_later later old⟩
    · exact barred ⟨owner, ⟨gate, held, passed, table, named, registered⟩, revived⟩
  | close tables =>
    rcases List.mem_append.mp held with old | new
    · obtain ⟨flying, leases, _⟩ := foldl_close s.table tables
      exact shut gate old passed table named (appending_later later flying leases busy)
    · rw [List.mem_singleton.mp new] at passed
      simp at passed
  | look index =>
    rcases mem_modify held with old | ⟨g, old, same⟩
    · exact shut gate old passed table named (appending_later later rfl rfl busy)
    · split at same
      · rename_i clear
        rw [same] at named
        exact clear table named busy
      · subst same
        exact shut gate old passed table named (appending_later later rfl rfl busy)
  | drop index =>
    change gate ∈ (s.drop index).gates at held
    change (s.drop index).table.appending table now at busy
    cases found : s.gates[index]? with
    | none =>
      simp only [Gated.drop, found] at held busy
      exact shut gate held passed table named (appending_later later rfl rfl busy)
    | some g =>
      simp only [Gated.drop, found] at held busy
      obtain ⟨flying, leases, _⟩ := foldl_open s.table g.tables
      exact shut gate (List.mem_of_mem_eraseIdx held) passed table named
        (appending_later later flying leases busy)

theorem foldl_close_valid (t : Table) (tables : List String) (now : Nat) (valid : t.Valid now) :
    (tables.foldl (fun t name => t.close name) t).Valid now := by
  induction tables generalizing t with
  | nil => exact valid
  | cons name rest ih => exact ih _ (apply_valid t now (.close name) trivial valid)

theorem foldl_open_valid (t : Table) (tables : List String) (now : Nat) (valid : t.Valid now) :
    (tables.foldl (fun t name => t.open_ name) t).Valid now := by
  induction tables generalizing t with
  | nil => exact valid
  | cons name rest ih => exact ih _ (apply_valid t now (.open_ name) trivial valid)

theorem gated_next_valid (s : Gated) (input : Nat × GateOp) (allowed : gatedLocks.Allows s input)
    (valid : s.table.Valid s.clock) :
    (gatedLocks.next s input).table.Valid (gatedLocks.next s input).clock := by
  obtain ⟨now, op⟩ := input
  obtain ⟨later, fits⟩ := allowed
  have valid := valid.later later
  cases op with
  | lock op =>
    refine apply_valid s.table now op ?_ valid
    cases op with
    | close name => exact fits.elim
    | open_ name => exact fits.elim
    | _ => exact fits
  | close tables => exact foldl_close_valid s.table tables now valid
  | look gate => exact valid
  | drop gate =>
    change (s.drop gate).table.Valid now
    unfold Gated.drop
    split
    · exact valid
    · exact foldl_open_valid s.table _ now valid

/-- A new appender comes in where no gate names the table, and only there. -/
theorem Gated.Nested.admits {s : Gated} (nested : s.Nested) (owner table : String) (now : Nat)
    (new : owner ∉ s.table.flying table) :
    (s.table.enter owner table now).2 = true ↔ ∀ gate ∈ s.gates, table ∉ gate.tables := by
  constructor
  · intro entered gate held named
    have closed := nested.pos held named
    rcases s.table.enter_cases owner table now with ⟨_, _, refused⟩ | ⟨open_, _⟩
    · rw [refused] at entered
      simp at entered
    · rcases open_ with old | open_
      · exact new old
      · omega
  · intro free
    have open_ : s.table.closed table = 0 := by
      rw [nested, List.sum_eq_zero_iff_forall_eq_nat]
      intro count inside
      obtain ⟨gate, held, rfl⟩ := List.mem_map.mp inside
      exact List.count_eq_zero.mpr (free gate held)
    rcases s.table.enter_cases owner table now with ⟨_, closed, _⟩ | ⟨_, entered⟩
    · omega
    · rw [entered]

/-- Closes nest in every run; and where no step brings back the lease of an owner still registered
as appending under a passed gate, nobody with a lease that lasts appends there until it is dropped. -/
theorem run_gates_shut (lease start : Nat) (inputs : List (Nat × GateOp))
    (legal : gatedLocks.Legal (.new lease start) inputs) :
    let s := gatedLocks.run (.new lease start) inputs
    (∀ owner table now, owner ∉ s.table.flying table →
      ((s.table.enter owner table now).2 = true ↔ ∀ gate ∈ s.gates, table ∉ gate.tables)) ∧
    ((gatedLocks.only fun s input => ¬ input.2.Revives s input.1).Legal (.new lease start) inputs →
      ∀ gate ∈ s.gates, gate.passed = true → ∀ table ∈ gate.tables, ∀ now, s.clock ≤ now →
        ¬ s.table.appending table now) := by
  intro s
  have nested := gatedLocks.run_invariant Gated.Nested
    (fun s input nested allowed => next_nested s input allowed nested) _ inputs
    (Gated.new_nested lease start) legal
  constructor
  · intro owner table now new
    exact nested.admits owner table now new
  · intro barred gate held passed table named now later busy
    have all := Machine.run_invariant _
      (fun s => s.table.Valid s.clock ∧ s.Nested ∧ s.Shut) ?_ _ inputs
      ⟨Table.new_valid lease start, Gated.new_nested lease start, by simp [Gated.Shut, Gated.new]⟩
      barred
    · exact all.2.2 gate held passed table named (appending_later later rfl rfl busy)
    · rintro s input ⟨valid, nested, shut⟩ ⟨allowed, barred⟩
      exact ⟨gated_next_valid s input allowed valid, next_nested s input allowed nested,
        next_shut s input allowed barred valid nested shut⟩

/-- An append is answered, and the writer that closed its table goes on. -/
def answeredAppend : List (Nat × GateOp) :=
  [(0, .lock (.enter "A" "x")), (1, .close ["x"]), (2, .look 0), (3, .lock (.leave "A" "x")),
    (4, .look 0)]

theorem answeredAppend_shuts :
    ¬ (gatedLocks.run (.new 60 0) answeredAppend).table.appending "x" 4 ∧
      ((gatedLocks.run (.new 60 0) answeredAppend).table.enter "B" "x" 4).2 = false := by
  have legal : gatedLocks.Legal (.new 60 0) answeredAppend :=
    ⟨⟨by decide, trivial⟩, ⟨by decide, trivial⟩, ⟨by decide, trivial⟩, ⟨by decide, trivial⟩,
      ⟨by decide, trivial⟩, trivial⟩
  have first : ¬ (GateOp.lock (.enter "A" "x")).Revives (.new 60 0) 0 := by
    rintro ⟨owner, ⟨gate, held, _⟩, _⟩
    simp [Gated.new] at held
  have never : ∀ s owner, ¬ (GateOp.lock (.leave owner "x")).Revives s 3 := by
    rintro s owner ⟨other, _, named | hands⟩
    · exact named
    · exact hands
  have run := run_gates_shut 60 0 answeredAppend legal
  constructor
  · exact run.2 ⟨⟨legal.1, first⟩, ⟨legal.2.1, id⟩, ⟨legal.2.2.1, id⟩,
      ⟨legal.2.2.2.1, never _ "A"⟩, ⟨legal.2.2.2.2.1, id⟩, trivial⟩ ⟨["x"], true⟩ (by decide)
      rfl "x" (by decide) 4 (by decide)
  · have admits := run.1 "B" "x" 4 (by decide)
    by_contra entered
    exact admits.mp (by simpa using entered) ⟨["x"], true⟩ (by decide) (by decide)

/-- A's lease lapses while its append is in flight, the writer that closed the table goes on, and A
registers again before a sweep. -/
def lapsedAppend : List (Nat × GateOp) :=
  [(0, .lock (.enter "A" "x")), (0, .close ["x"]), (60, .look 0), (60, .lock (.enter "A" "x"))]

theorem lapsedAppend_reenters :
    gatedLocks.Legal (.new 60 0) lapsedAppend ∧
      (gatedLocks.run (.new 60 0) lapsedAppend).gates = [⟨["x"], true⟩] ∧
      (gatedLocks.run (.new 60 0) lapsedAppend).table.appending "x" 60 :=
  ⟨⟨⟨by decide, trivial⟩, ⟨by decide, trivial⟩, ⟨by decide, trivial⟩, ⟨by decide, trivial⟩, trivial⟩,
    by decide, by decide⟩

end Pondra.Locks
