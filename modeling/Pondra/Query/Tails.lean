import Pondra.Base.Dict
import Pondra.Base.Machine
import Pondra.Query.Tail

set_option autoImplicit false

namespace Pondra.Query

open Machines Dicts

variable {Row Out : Type}

/-- Tails kept, in bytes. -/
def tailsMost : Nat := 128 * 2 ^ 20

/-- Keeps `t` as its table's tail of its form, among the table's forms kept. -/
def keep (most : Nat) (forms : List (Tail Out)) (t : Tail Out) : List (Tail Out) :=
  if forms.any fun o => decide (t.mark < o.mark) ||
      decide (o.mark = t.mark) && decide (o.form = t.form) && decide (t.through ≤ o.through) then
    forms
  else
    let others := forms.filter fun o => decide (o.form ≠ t.form) && decide (t.mark ≤ o.mark)
    let forms := if t.bytes ≤ most then others ++ [t] else others
    -- the table alone past the bound: its newest tail alone stays
    if most < (forms.map Tail.bytes).sum then forms.drop (forms.length - 1) else forms

/-- A call of `tail_rows` that waits: on its scan, or to keep the tail it made. -/
inductive Call (Out : Type) where
  | scanning (t : Tail Out) (upto : Option Nat)
  | keeping (t : Tail Out)

/-- What a call was asked, the commit its scan was as of, what it saw, and what it gave. -/
structure Answer (Out : Type) where
  after : Nat
  upto : Option Nat
  form : Form
  of_ : Nat
  seen : Nat
  rows : List (List Out)

/-- A table's log, its tails kept on a node, the calls that run there and what calls gave. -/
structure State (Row Out : Type) where
  log : Log Row
  last : Nat
  kept : List (Tail Out)
  calls : Dict Nat (Call Out)
  answers : List (Answer Out)

def initial : State Row Out := { log := [], last := 0, kept := [], calls := ∅, answers := [] }

inductive Op (Row : Type) where
  /-- A commit's segment, with rows of the table or not. -/
  | commit (n : Nat) (seg : Segment Row)
  /-- A call starts: what is kept of its form is cloned. -/
  | call (id after : Nat) (upto : Option Nat) (form : Form)
  /-- Its scan, as of the commit `view`, and its answer. -/
  | scan (id view : Nat)
  | keep (id : Nat)
  | fail (id : Nat)
  /-- The table's tails go: other tables' pushed them out, or the memory was taken back. -/
  | evict

def next (made : Made Row Out) (size : List Out → Nat) (s : State Row Out) :
    Op Row → State Row Out
  | .commit n seg => { s with log := s.log ++ [(n, seg)], last := n }
  | .call id after upto form =>
    if upto.any fun u => decide (u ≤ after) then
      { s with answers := ⟨after, upto, form, 0, after, []⟩ :: s.answers }
    else
      match s.kept.find? fun t => decide (t.mark = after) && decide (t.form = form), upto with
      | some t, some u =>
        if u ≤ t.through then
          { s with answers := ⟨after, upto, form, t.through, t.through, t.upto u⟩ :: s.answers }
        else { s with calls := s.calls.insert id (.scanning t upto) }
      | some t, none => { s with calls := s.calls.insert id (.scanning t upto) }
      | none, _ => { s with calls := s.calls.insert id (.scanning (Tail.empty after form) upto) }
  | .scan id view =>
    match s.calls.lookup id with
    | some (.scanning t upto) =>
      let t := t.extended made size s.log view upto
      -- (`None`: as far as a segment's number goes)
      let rows := t.upto (upto.getD (2 ^ 64 - 1))
      { s with
        answers := ⟨t.mark, upto, t.form, view, t.through, rows⟩ :: s.answers
        calls := if t.bytes ≤ tailsMost then s.calls.insert id (.keeping t)
          else s.calls.erase id }
    | _ => s
  | .keep id =>
    match s.calls.lookup id with
    | some (.keeping t) =>
      { s with kept := keep tailsMost s.kept t, calls := s.calls.erase id }
    | _ => s
  | .fail id => { s with calls := s.calls.erase id }
  | .evict => { s with kept := [] }

/-- Commits number segments in order, in 64 bits, and a scan is as of one of them. -/
def Allows (s : State Row Out) : Op Row → Prop
  | .commit n _ => s.last < n ∧ n < 2 ^ 64
  | .call id .. => s.calls.lookup id = none
  | .scan _ view => view ≤ s.last
  | _ => True

def machine (made : Made Row Out) (size : List Out → Nat) : Machine (State Row Out) (Op Row) where
  next := next made size
  Allows := Allows

instance decidableAllows (made : Made Row Out) (size : List Out → Nat) (s : State Row Out) :
    (op : Op Row) → Decidable ((machine made size).Allows s op)
  | .commit n _ => inferInstanceAs (Decidable (s.last < n ∧ n < 2 ^ 64))
  | .call id _ _ _ => decidable_of_iff (s.calls.lookup id).isNone Option.isNone_iff_eq_none
  | .scan _ view => inferInstanceAs (Decidable (view ≤ s.last))
  | .keep _ => .isTrue trivial
  | .fail _ => .isTrue trivial
  | .evict => .isTrue trivial

/-- Where a call's rows end: at `upto`, or at what its scan saw. -/
def Answer.end_ (a : Answer Out) : Nat := a.upto.elim a.seen (min · a.seen)

/-- A call gave exactly the table's rows of its segments, in order, and missed no segment there
was at the commit its scan was as of. -/
structure Answer.Exact (made : Made Row Out) (log : Log Row) (a : Answer Out) : Prop where
  rows : a.rows.flatten = rowsBetween made a.form log a.after a.end_
  seen : ∀ entry ∈ log, a.after < entry.1 → entry.1 ≤ a.of_ → (∀ u, a.upto = some u → entry.1 ≤ u) →
    entry.1 ≤ a.seen

/-- Every call gave its rows, and every kept tail's prefixes are its segments'. -/
structure Exact (made : Made Row Out) (s : State Row Out) : Prop where
  answers : ∀ a ∈ s.answers, a.Exact made s.log
  kept : ∀ t ∈ s.kept, ∀ u,
    (t.upto u).flatten = rowsBetween made t.form s.log t.mark (min u t.through)

/-! ### What each step keeps -/

/-- A tail of the log as it will ever be. -/
structure Tail.Good (made : Made Row Out) (s : State Row Out) (t : Tail Out) : Prop where
  of_ : t.Of made s.log
  known : t.through ≤ t.mark ∨ t.through ≤ s.last

def Call.tail : Call Out → Tail Out
  | .scanning t _ => t
  | .keeping t => t

/-- A call that scans was asked for segments past its mark. -/
def Call.Past : Call Out → Prop
  | .scanning t upto => ∀ u, upto = some u → t.mark < u
  | .keeping _ => True

structure Inv (made : Made Row Out) (s : State Row Out) : Prop where
  order : InOrder s.log
  below : ∀ entry ∈ s.log, entry.1 ≤ s.last
  small : s.last < 2 ^ 64
  kept : ∀ t ∈ s.kept, t.Good made s
  calls : ∀ id call, s.calls.lookup id = some call → call.tail.Good made s ∧ call.Past
  answers : ∀ a ∈ s.answers, a.Exact made s.log ∧ (a.end_ ≤ a.after ∨ a.end_ ≤ s.last) ∧
    a.of_ ≤ s.last

theorem keep_sub (most : Nat) (forms : List (Tail Out)) (t o : Tail Out)
    (inside : o ∈ keep most forms t) : o = t ∨ o ∈ forms := by
  have others : ∀ o ∈ forms.filter (fun o => decide (o.form ≠ t.form) && decide (t.mark ≤ o.mark)),
      o = t ∨ o ∈ forms := fun o listed => Or.inr (List.mem_filter.mp listed).1
  have joined : ∀ o ∈ forms.filter (fun o => decide (o.form ≠ t.form) &&
      decide (t.mark ≤ o.mark)) ++ [t], o = t ∨ o ∈ forms := by
    intro o listed
    rcases List.mem_append.mp listed with before | here
    · exact others o before
    · exact Or.inl (List.mem_singleton.mp here)
  unfold keep at inside
  split at inside
  · exact Or.inr inside
  · dsimp only at inside
    split at inside
    · split at inside
      · exact joined o (List.mem_of_mem_drop inside)
      · exact joined o inside
    · split at inside
      · exact others o (List.mem_of_mem_drop inside)
      · exact others o inside

theorem rowsBetween_commit (made : Made Row Out) (form : Form) (log : Log Row) (n : Nat)
    (seg : Segment Row) (after upto : Nat) (past : upto ≤ after ∨ upto < n) :
    rowsBetween made form (log ++ [(n, seg)]) after upto = rowsBetween made form log after upto ∧
      entries (log ++ [(n, seg)]) after upto = entries log after upto := by
  have same : entries (log ++ [(n, seg)]) after upto = entries log after upto := by
    unfold entries
    rw [List.filter_append, List.filter_cons_of_neg, List.filter_nil, List.append_nil]
    simp only [← Bool.decide_and, decide_eq_true_eq]
    omega
  exact ⟨by rw [rowsBetween, rowsBetween, same], same⟩

section steps

variable {made : Made Row Out}

theorem Tail.Good.commit {s : State Row Out} {t : Tail Out} (good : t.Good made s) (n : Nat)
    (seg : Segment Row) (later : s.last < n) :
    t.Good made { s with log := s.log ++ [(n, seg)], last := n } := by
  have past : t.through ≤ t.mark ∨ t.through < n := by
    rcases good.known with low | low
    · exact Or.inl low
    · exact Or.inr (by omega)
  obtain ⟨rows, same⟩ := rowsBetween_commit made t.form s.log n seg t.mark t.through past
  constructor
  case of_ => exact ⟨good.of_.low, by rw [rows]; exact good.of_.rows, by
    rw [same]; exact good.of_.ends⟩
  case known =>
    rcases past with low | low
    · exact Or.inl low
    · exact Or.inr (Nat.le_of_lt low)

theorem commit_inv {s : State Row Out} (inv : Inv made s) (size : List Out → Nat) (n : Nat)
    (seg : Segment Row) (later : s.last < n) (fits : n < 2 ^ 64) :
    Inv made (next made size s (.commit n seg)) where
  order := by
    apply List.pairwise_append.mpr
    refine ⟨inv.order, List.pairwise_singleton _ _, fun entry inside new listed => ?_⟩
    rw [List.mem_singleton.mp listed]
    exact Nat.lt_of_le_of_lt (inv.below entry inside) later
  below entry inside := by
    rcases List.mem_append.mp inside with before | here
    · exact Nat.le_of_lt (Nat.lt_of_le_of_lt (inv.below entry before) later)
    · rw [List.mem_singleton.mp here]
      exact Nat.le_refl n
  small := fits
  kept t inside := (inv.kept t inside).commit n seg later
  calls id call found := by
    obtain ⟨good, past⟩ := inv.calls id call found
    exact ⟨good.commit n seg later, past⟩
  answers a inside := by
    obtain ⟨exact_, known, of_⟩ := inv.answers a inside
    have past : a.end_ ≤ a.after ∨ a.end_ < n := by omega
    refine ⟨⟨?_, ?_⟩, ?_, Nat.le_of_lt (Nat.lt_of_le_of_lt of_ later)⟩
    · rw [exact_.rows]
      exact (rowsBetween_commit made a.form s.log n seg a.after a.end_ past).1.symm
    · intro entry listed
      rcases List.mem_append.mp listed with before | here
      · exact exact_.seen entry before
      · rw [List.mem_singleton.mp here]
        intro _ within
        exact absurd (Nat.lt_of_lt_of_le later within) (Nat.not_lt.mpr of_)
    · rcases past with low | low
      · exact Or.inl low
      · exact Or.inr (Nat.le_of_lt low)

/-- A call that waits. -/
theorem Inv.wait {s : State Row Out} (inv : Inv made s) (id : Nat) (call : Call Out)
    (good : call.tail.Good made s) (past : call.Past) :
    Inv made { s with calls := s.calls.insert id call } where
  order := inv.order
  below := inv.below
  small := inv.small
  kept t inside := ⟨(inv.kept t inside).of_, (inv.kept t inside).known⟩
  calls other found same := by
    rw [lookup_insert_eq] at same
    split at same
    · cases same
      exact ⟨⟨good.of_, good.known⟩, past⟩
    · obtain ⟨held, was⟩ := inv.calls other found same
      exact ⟨⟨held.of_, held.known⟩, was⟩
  answers := inv.answers

theorem Inv.leave {s : State Row Out} (inv : Inv made s) (id : Nat) :
    Inv made { s with calls := s.calls.erase id } where
  order := inv.order
  below := inv.below
  small := inv.small
  kept t inside := ⟨(inv.kept t inside).of_, (inv.kept t inside).known⟩
  calls other found same := by
    by_cases here : other = id
    · subst here
      rw [AList.lookup_erase] at same
      cases same
    · rw [AList.lookup_erase_ne here] at same
      obtain ⟨held, was⟩ := inv.calls other found same
      exact ⟨⟨held.of_, held.known⟩, was⟩
  answers := inv.answers

theorem Inv.answer {s : State Row Out} (inv : Inv made s) (a : Answer Out)
    (exact_ : a.Exact made s.log) (known : a.end_ ≤ a.after ∨ a.end_ ≤ s.last)
    (of_ : a.of_ ≤ s.last) : Inv made { s with answers := a :: s.answers } where
  order := inv.order
  below := inv.below
  small := inv.small
  kept t inside := ⟨(inv.kept t inside).of_, (inv.kept t inside).known⟩
  calls other found same := by
    obtain ⟨held, was⟩ := inv.calls other found same
    exact ⟨⟨held.of_, held.known⟩, was⟩
  answers b inside := by
    rcases List.mem_cons.mp inside with rfl | before
    · exact ⟨exact_, known, of_⟩
    · exact inv.answers b before

theorem call_inv {s : State Row Out} (inv : Inv made s) (size : List Out → Nat) (id after : Nat)
    (upto : Option Nat) (form : Form) : Inv made (next made size s (.call id after upto form)) := by
  have fresh : (Tail.empty after form : Tail Out).Good made s :=
    ⟨Tail.empty_of made s.log after form, Or.inl (Nat.le_refl after)⟩
  simp only [next]
  split
  · rename_i early
    cases upto with
    | none => cases early
    | some u =>
      have low : u ≤ after := by simpa using early
      apply inv.answer
      · constructor
        case rows =>
          dsimp only [Answer.end_, Option.elim_some]
          rw [rowsBetween, entries_none s.log after _ (by omega)]
          rfl
        case seen =>
          intro entry _ past _ within
          have high := within u rfl
          dsimp only at past
          omega
      · exact Or.inl (Nat.le_trans (Nat.min_le_left u after) low)
      · exact Nat.zero_le _
  · rename_i late
    have past : ∀ u, upto = some u → after < u := by
      intro u asked
      subst asked
      simpa using late
    cases found : s.kept.find? fun t => decide (t.mark = after) && decide (t.form = form) with
    | none => exact inv.wait id _ fresh past
    | some t =>
      have good := inv.kept t (List.mem_of_find?_eq_some found)
      have of_ := List.find?_some found
      simp only [Bool.and_eq_true, decide_eq_true_eq] at of_
      obtain ⟨mark, form_eq⟩ := of_
      have past' : (Call.scanning t upto).Past := by
        intro u asked
        rw [mark]
        exact past u asked
      cases upto with
      | none => exact inv.wait id _ good past'
      | some u =>
        dsimp only
        split
        · rename_i known
          have through : t.through ≤ s.last := by
            have asked := past u rfl
            rcases good.known with low | low
            · omega
            · exact low
          apply inv.answer
          · constructor
            case rows =>
              dsimp only [Answer.end_, Option.elim_some]
              rw [good.of_.upto inv.order, mark, form_eq]
            case seen =>
              intro entry _ _ within _
              exact within
          · exact Or.inr (Nat.le_trans (Nat.min_le_right u t.through) through)
          · exact through
        · exact inv.wait id _ good past'

theorem scan_inv {s : State Row Out} (inv : Inv made s) (size : List Out → Nat) (id view : Nat)
    (known : view ≤ s.last) : Inv made (next made size s (.scan id view)) := by
  simp only [next]
  cases found : s.calls.lookup id with
  | none => exact inv
  | some call =>
    cases call with
    | keeping t => exact inv
    | scanning t upto =>
      obtain ⟨held, past⟩ := inv.calls id _ found
      have good : t.Good made s := held
      have extended := good.of_.extended inv.order size view upto
      obtain ⟨mark, form, through⟩ := t.extended_same made size s.log view upto
      obtain ⟨low, all, value⟩ := foldl_max_spec (scanned s.log view t.through upto) t.through
      dsimp only
      generalize t.extended made size s.log view upto = later at extended mark form through ⊢
      have seen : later.through ≤ later.mark ∨ later.through ≤ s.last := by
        rw [mark, through]
        rcases value with same | ⟨entry, inside, same⟩
        · simp only [tailSegments, same]
          exact good.known
        · apply Or.inr
          simp only [tailSegments, same]
          exact inv.below entry (List.mem_of_mem_filter inside)
      have answered : Inv made { s with answers := ⟨later.mark, upto, later.form, view,
          later.through, later.upto (upto.getD (2 ^ 64 - 1))⟩ :: s.answers } := by
        apply inv.answer
        · constructor
          case rows =>
            dsimp only
            rw [extended.upto inv.order]
            cases upto with
            | some u => rfl
            | none =>
              dsimp only [Answer.end_, Option.elim_none, Option.getD_none]
              rcases seen with low | low
              · rw [rowsBetween, rowsBetween, entries_none _ _ _ low,
                  entries_none _ _ _ (by omega)]
              · have small := inv.small
                rw [Nat.min_eq_right (by omega)]
          case seen =>
            intro entry inside after within asked
            dsimp only at after within asked ⊢
            rw [through]
            rcases Nat.lt_or_ge t.through entry.1 with later' | before
            · apply all entry
              apply List.mem_filter.mpr
              refine ⟨inside, ?_⟩
              simp only [Bool.and_eq_true, decide_eq_true_eq]
              refine ⟨⟨later', ?_⟩, within⟩
              cases upto with
              | none => rfl
              | some u =>
                have high := asked u rfl
                simpa using Nat.lt_succ_of_le high
            · exact Nat.le_trans before low
        · dsimp only [Answer.end_]
          cases upto with
          | none => exact seen
          | some u =>
            have least : min u later.through ≤ later.through := Nat.min_le_right _ _
            rcases seen with low | low
            · exact Or.inl (Nat.le_trans least low)
            · exact Or.inr (Nat.le_trans least low)
        · exact known
      split
      · exact answered.wait id (.keeping later) ⟨extended, seen⟩ trivial
      · exact answered.leave id

theorem next_inv {s : State Row Out} (inv : Inv made s) (size : List Out → Nat) (op : Op Row)
    (allowed : Allows s op) : Inv made (next made size s op) := by
  cases op with
  | commit n seg => exact commit_inv inv size n seg allowed.1 allowed.2
  | call id after upto form => exact call_inv inv size id after upto form
  | scan id view => exact scan_inv inv size id view allowed
  | keep id =>
    simp only [next]
    cases found : s.calls.lookup id with
    | none => exact inv
    | some call =>
      cases call with
      | scanning t upto => exact inv
      | keeping t =>
        have left := inv.leave id
        have good := (inv.calls id _ found).1
        constructor
        case order => exact inv.order
        case below => exact inv.below
        case small => exact inv.small
        case kept =>
          intro o inside
          rcases keep_sub tailsMost s.kept t o inside with rfl | before
          · exact ⟨good.of_, good.known⟩
          · exact ⟨(inv.kept o before).of_, (inv.kept o before).known⟩
        case calls =>
          intro other call same
          obtain ⟨held, was⟩ := left.calls other call same
          exact ⟨⟨held.of_, held.known⟩, was⟩
        case answers => exact inv.answers
  | fail id => exact inv.leave id
  | evict =>
    constructor
    case order => exact inv.order
    case below => exact inv.below
    case small => exact inv.small
    case kept =>
      intro o inside
      exact absurd inside List.not_mem_nil
    case calls =>
      intro other call same
      obtain ⟨held, was⟩ := inv.calls other call same
      exact ⟨⟨held.of_, held.known⟩, was⟩
    case answers => exact inv.answers

theorem initial_inv : Inv made (initial : State Row Out) where
  order := List.Pairwise.nil
  below _ inside := absurd inside List.not_mem_nil
  small := Nat.two_pow_pos 64
  kept _ inside := absurd inside List.not_mem_nil
  calls id call found := by
    have none_ : (initial : State Row Out).calls.lookup id = none := AList.lookup_empty id
    rw [none_] at found
    cases found
  answers _ inside := absurd inside List.not_mem_nil

theorem Inv.exact {s : State Row Out} (inv : Inv made s) : Exact made s where
  answers a inside := (inv.answers a inside).1
  kept t inside u := (inv.kept t inside).of_.upto inv.order u

end steps

/-- In every run, every call of `tail_rows` gives exactly the rows of its segments, in order, and
every kept tail's prefixes are its segments'. -/
theorem run_tails (made : Made Row Out) (size : List Out → Nat) (ops : List (Op Row))
    (legal : (machine made size).Legal initial ops) :
    Exact made ((machine made size).run initial ops) := by
  have inv := (machine made size).run_invariant (Inv made)
    (fun _ op held allowed => next_inv held size op allowed) initial ops initial_inv legal
  exact inv.exact

/-- Two calls side by side, the one that read less kept last. -/
def besideOps : List (Op Nat) :=
  [.commit 1 ⟨some [[10], [11, 12]], 5⟩, .call 0 0 none ⟨true, false, "a"⟩,
    .commit 2 ⟨none, 6⟩, .commit 4 ⟨some [[13]], 7⟩, .call 1 0 (some 4) ⟨true, false, "a"⟩,
    .scan 1 4, .scan 0 2, .keep 1, .keep 0, .call 2 0 (some 3) ⟨true, false, "a"⟩,
    .call 3 0 none ⟨true, false, "a"⟩, .scan 3 1]

/-- A row with its place. -/
def madeBeside : Made Nat (Nat × Nat × Nat) := fun _ n pos _ row => (n, pos, row)

theorem beside_exact :
    Exact madeBeside ((machine madeBeside List.length).run initial besideOps) ∧
      (((machine madeBeside List.length).run initial besideOps).answers.map
        fun a => (a.rows.flatten.map fun row => row.2.2)) =
          [[10, 11, 12, 13], [10, 11, 12], [10, 11, 12], [10, 11, 12, 13]] :=
  ⟨run_tails madeBeside List.length besideOps (by decide), by decide⟩

end Pondra.Query
