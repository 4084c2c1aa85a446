import Pondra.Base.Machine
import Pondra.Replica.Frame
import Std.Data.ExtTreeMap.Lemmas

set_option autoImplicit false

namespace Pondra.Replica

open Bytes

/-- A replica file's name: the term it is written in and the first change in it. -/
abbrev Path := Nat × Nat

/-- The open file: its name, its term and the last change in it. -/
structure OpenFile where
  path : Path
  term : Nat
  last : Nat
  deriving DecidableEq

/-- A follower's copies of the leader's changes that aren't in the bucket yet. -/
structure State where
  seen : Nat
  held : Std.ExtTreeMap Nat (Nat × List UInt8)
  files : List (Path × Nat × Nat)
  opened : Option OpenFile
  run : Nat × Nat

def State.empty : State := ⟨0, ∅, [], none, (0, 0)⟩

/-- Keeps the copy from the newest term. -/
def keep (held : Std.ExtTreeMap Nat (Nat × List UInt8)) (id term : Nat) (frame : List UInt8) :
    Std.ExtTreeMap Nat (Nat × List UInt8) :=
  match held[id]? with
  | none => held.insert id (term, frame)
  | some (t, _) => if t ≤ term then held.insert id (term, frame) else held

abbrev Disk := Path → Option (List UInt8)

/-- One record of a replica file: the term and the frame. -/
def record (term : Nat) (d : Delta) : List UInt8 := Bytes.toLe 8 term ++ (Frame.change d).encode

namespace State

/-- The loop of `open` over one file's bytes, with the term and the last change read so far. A torn
last write ends it. -/
def load : Nat → State → List UInt8 → Nat → Nat → State × Nat × Nat
  | 0, st, _, term, last => (st, term, last)
  | fuel + 1, st, buf, term, last =>
    if buf.length < 8 then (st, term, last)
    else
      let term := Bytes.ofLe (buf.take 8)
      let buf := buf.drop 8
      match Frame.take buf with
      | .ok (some (.change d, rest)) =>
        let frame := buf.take (buf.length - rest.length)
        load fuel { st with held := keep st.held d.id term frame, seen := max st.seen term } rest term
          (max last d.id)
      | _ => (st, term, last)

/-- `open` on the files of `dir`, in the order the directory lists them. -/
def reload (disk : Disk) (order : List Path) : State :=
  order.foldl (fun st path =>
    let bytes := (disk path).getD []
    let (st, term, last) := load bytes.length st bytes 0 0
    { st with files := st.files ++ [(path, term, last)] }) .empty

end State

/-- What `load` leaves unread: a torn last write. -/
def leftover : Nat → List UInt8 → List UInt8
  | 0, buf => buf
  | fuel + 1, buf =>
    if buf.length < 8 then buf
    else
      match Frame.take (buf.drop 8) with
      | .ok (some (.change _, rest)) => leftover fuel rest
      | _ => buf

/-- What the file system does in a `hold`: whether the open file is over 2 s old, whether a new one
can be created, and where a write fails, if it does. -/
structure Writing where
  aged : Bool
  created : Bool
  cut : Option Nat
  deriving DecidableEq

/-- A node's copies in memory and on disk, and what it has acknowledged: `acked` by term and change,
`letGo` where a prune or a newer term has covered the change since it was last held, and the term the
current run was held in. -/
structure Node where
  st : State
  disk : Disk
  acked : Nat → Nat → Bool
  letGo : Nat → Nat → Bool
  runTerm : Nat

/-- The open file closed: it is listed, with the last change in it. -/
def State.close (st : State) (o : OpenFile) : State :=
  { st with opened := none, files := st.files ++ [(o.path, o.term, o.last)] }

/-- In `hold`, a file that is too old, or of another term, is closed. -/
def State.rotate (st : State) (term : Nat) (aged : Bool) : State :=
  match st.opened with
  | some o => if o.term ≠ term || aged then st.close o else st
  | none => st

/-- In `prune`, a file with no change above `id` is closed. -/
def State.closeThrough (st : State) (id : Nat) : State :=
  match st.opened with
  | some o => if o.last ≤ id then st.close o else st
  | none => st

/-- The run after a change was held. -/
def extend (run : Nat × Nat) (id : Nat) : Nat × Nat :=
  if 0 < run.2 ∧ id = (run.2 + 1) % 2 ^ 64 then (run.1, id) else (id, id)

namespace Node

/-- Bytes appended to the open file; where its name is gone, they go with it. -/
def append (node : Node) (path : Path) (bytes : List UInt8) : Node :=
  { node with disk := Function.update node.disk path ((node.disk path).map (· ++ bytes)) }

/-- `File::create`, where no file is open. -/
def openFile (node : Node) (term id : Nat) : Node :=
  match node.st.opened with
  | some _ => node
  | none =>
    { node with
      st := { node.st with opened := some ⟨(term, id), term, 0⟩ }
      disk := Function.update node.disk (term, id) (some []) }

/-- The part of `hold` before any file is opened. -/
def turn (node : Node) (term : Nat) (aged : Bool) : Node :=
  { node with st := { node.st with seen := term }.rotate term aged }

/-- The part of `hold` after its writes. -/
def note (node : Node) (o : OpenFile) (term : Nat) (d : Delta) : Node :=
  let run := extend node.st.run d.id
  { node with
    st := { node.st with
      opened := some { o with last := max o.last d.id }
      held := keep node.st.held d.id term (Frame.change d).encode
      run := run }
    acked := fun t i => node.acked t i || (t = term && run.1 ≤ i && i ≤ run.2)
    letGo := fun t i => node.letGo t i && !(t = term && i = d.id)
    runTerm := term }

/-- `hold`. The answer is the run acknowledged; `none` also where the file system fails. -/
def hold (node : Node) (term : Nat) (d : Delta) (writing : Writing) : Node × Option (Nat × Nat) :=
  if term < node.st.seen then (node, none)
  else
    let node := node.turn term writing.aged
    if node.st.opened.isNone && !writing.created then (node, none)
    else
      let node := node.openFile term d.id
      match node.st.opened, writing.cut with
      | none, _ => (node, none)
      | some o, some cut => (node.append o.path ((record term d).take cut), none)
      | some o, none =>
        let node := (node.append o.path (record term d)).note o term d
        (node, some node.st.run)

/-- `files.retain(…)`: the files that `drops` names are removed, but for those that cannot be. -/
def retain (drops : Path × Nat × Nat → Bool) (stuck : List Path) :
    List (Path × Nat × Nat) → Disk → List (Path × Nat × Nat) × Disk
  | [], disk => ([], disk)
  | f :: rest, disk =>
    if drops f && (disk f.1).isSome && !stuck.contains f.1 then
      retain drops stuck rest (Function.update disk f.1 none)
    else
      let (files, disk) := retain drops stuck rest disk
      (f :: files, disk)

def retainFiles (node : Node) (drops : Path × Nat × Nat → Bool) (stuck : List Path) : Node :=
  let (files, disk) := retain drops stuck node.st.files node.disk
  { node with st := { node.st with files := files }, disk := disk }

def prune (node : Node) (id : Nat) (stuck : List Path) : Node :=
  let st := { node.st with held := node.st.held.filter fun i _ => (id + 1) % 2 ^ 64 ≤ i }
  let node := { node with
    st := st.closeThrough id, letGo := fun t i => node.letGo t i || i ≤ id }
  node.retainFiles (fun f => f.2.2 ≤ id) stuck

def start (node : Node) (term : Nat) (stuck : List Path) : Node :=
  let st := { node.st with
    seen := max node.st.seen term
    held := node.st.held.filter fun _ copy => term ≤ copy.1
    opened := node.st.opened.filter fun o => term ≤ o.term }
  let node := { node with st := st, letGo := fun t i => node.letGo t i || t < term }
  node.retainFiles (fun f => f.2.1 < term) stuck

/-- What is held after change `after`, for the leader of `term` that takes over. -/
def serve (node : Node) (term after : Nat) : Node × List UInt8 :=
  let node := { node with st := { node.st with seen := max node.st.seen term } }
  (node, (node.st.held.toList.filter fun copy => (after + 1) % 2 ^ 64 ≤ copy.1).flatMap fun copy =>
    Bytes.toLe 8 copy.2.1 ++ copy.2.2)

/-- A crash, and `open` on the files left, listed in `order`. -/
def crash (node : Node) (order : List Path) : Node :=
  { node with st := .reload node.disk order }

end Node

/-- The changes of each term, by their ids. -/
abbrev Stream := Nat → Nat → List (String × List UInt8) × List String

def Stream.delta (stream : Stream) (term id : Nat) : Delta :=
  ⟨id, (stream term id).1, (stream term id).2⟩

def Stream.frame (stream : Stream) (term id : Nat) : List UInt8 :=
  (Frame.change (stream.delta term id)).encode

def Stream.record (stream : Stream) (term id : Nat) : List UInt8 :=
  Replica.record term (stream.delta term id)

/-- The numbers are u64, and the frame's length fits its four bytes. -/
def Stream.Fits (stream : Stream) (term id : Nat) : Prop :=
  term < 2 ^ 64 ∧ id < 2 ^ 64 ∧ (Frame.change (stream.delta term id)).body.length < 2 ^ 32

/-- A write cut short before its record was whole. -/
def Stream.Cut (stream : Stream) (term : Nat) (tail : List UInt8) : Prop :=
  tail = [] ∨ ∃ id k, stream.Fits term id ∧ k < (stream.record term id).length ∧
    tail = (stream.record term id).take k

/-- A file of whole records, in the order they were written, and perhaps a torn last write. -/
def Stream.Holds (stream : Stream) (term : Nat) (ids : List Nat) (bytes : List UInt8) : Prop :=
  (∀ id ∈ ids, stream.Fits term id) ∧
    ∃ tail, stream.Cut term tail ∧ bytes = ids.flatMap (stream.record term) ++ tail

section read

variable {stream : Stream} {term : Nat}

theorem record_take (fits : term < 2 ^ 64) (id : Nat) (rest : List UInt8) :
    ofLe ((stream.record term id ++ rest).take 8) = term := by
  rw [Stream.record, record, List.append_assoc,
    List.take_append_of_le_length (by simp), List.take_of_length_le (by simp)]
  exact ofLe_toLe 8 term (by omega)

theorem record_drop (id : Nat) (rest : List UInt8) :
    (stream.record term id ++ rest).drop 8 = stream.frame term id ++ rest := by
  rw [Stream.record, record, List.append_assoc]
  exact List.drop_left' (length_toLe 8 term)

theorem record_length (id : Nat) :
    (stream.record term id).length = 8 + (stream.frame term id).length := by
  simp [Stream.record, record, Stream.frame]

theorem take_record {id : Nat} (fits : stream.Fits term id) (rest : List UInt8) :
    Frame.take ((stream.record term id ++ rest).drop 8) =
      .ok (some (.change (stream.delta term id), rest)) := by
  rw [record_drop]
  exact take_encode _ fits.2.1 fits.2.2 rest

/-- A torn write is too short for a term, or for the frame it began. -/
theorem take_torn {tail : List UInt8} (cut : stream.Cut term tail) (long : 8 ≤ tail.length) :
    ofLe (tail.take 8) = term ∧ Frame.take (tail.drop 8) = .ok none := by
  rcases cut with rfl | ⟨id, k, fits, less, rfl⟩
  · simp at long
  · rw [List.length_take] at long
    rw [record_length] at less
    constructor
    · rw [List.take_take, Nat.min_eq_left (by omega)]
      have head : ofLe ((stream.record term id ++ []).take 8) = term := record_take fits.1 id []
      rwa [List.append_nil] at head
    · have tail : (stream.record term id ++ []).drop 8 = stream.frame term id ++ [] :=
        record_drop id []
      rw [List.append_nil, List.append_nil] at tail
      rw [List.drop_take, tail]
      exact take_cut _ fits.2.2 (k - 8) (by simp only [Stream.frame] at less; omega)

theorem leftover_records (ids : List Nat) (tail : List UInt8) (fuel : Nat)
    (fits : ∀ id ∈ ids, stream.Fits term id) (cut : stream.Cut term tail)
    (enough : (ids.flatMap (stream.record term) ++ tail).length ≤ fuel) :
    leftover fuel (ids.flatMap (stream.record term) ++ tail) = tail := by
  induction ids generalizing fuel with
  | nil =>
    simp only [List.flatMap_nil, List.nil_append] at enough ⊢
    cases fuel with
    | zero => rfl
    | succ fuel =>
      unfold leftover
      split
      · rfl
      · rename_i long
        rw [(take_torn cut (by omega)).2]
  | cons id rest ih =>
    have first := fits id List.mem_cons_self
    simp only [List.flatMap_cons, List.append_assoc] at enough ⊢
    rw [List.length_append, record_length] at enough
    cases fuel with
    | zero => omega
    | succ fuel =>
      unfold leftover
      rw [if_neg (by rw [List.length_append, record_length]; omega), take_record first]
      exact ih fuel (fun other inside => fits other (List.mem_cons_of_mem _ inside)) (by omega)

/-- The copies kept, after the changes `ids` of `term` were read in this order. -/
def keepAll (stream : Stream) (held : Std.ExtTreeMap Nat (Nat × List UInt8))
    (copies : List (Nat × Nat)) : Std.ExtTreeMap Nat (Nat × List UInt8) :=
  copies.foldl (fun held copy => keep held copy.2 copy.1 (stream.frame copy.1 copy.2)) held

/-- `load` reads the whole records of a file and stops at the torn write. -/
theorem load_records (ids : List Nat) (tail : List UInt8) (fuel : Nat) (st : State)
    (read last : Nat) (fits : ∀ id ∈ ids, stream.Fits term id) (cut : stream.Cut term tail)
    (enough : (ids.flatMap (stream.record term) ++ tail).length ≤ fuel) :
    ∃ read', (ids ≠ [] ∨ read = term → read' = term) ∧
      State.load fuel st (ids.flatMap (stream.record term) ++ tail) read last =
        ({ st with
            held := keepAll stream st.held (ids.map fun id => (term, id))
            seen := ids.foldl (fun seen _ => max seen term) st.seen }, read', ids.foldl max last) := by
  induction ids generalizing fuel st read last with
  | nil =>
    simp only [List.flatMap_nil, List.nil_append] at enough ⊢
    cases fuel with
    | zero => exact ⟨read, by simp, rfl⟩
    | succ fuel =>
      unfold State.load
      split
      · exact ⟨read, by simp, rfl⟩
      · rename_i long
        obtain ⟨head, none⟩ := take_torn cut (by omega)
        exact ⟨term, by simp, by simp only [none, head]; rfl⟩
  | cons id rest ih =>
    have first := fits id List.mem_cons_self
    simp only [List.flatMap_cons, List.append_assoc] at enough ⊢
    rw [List.length_append, record_length] at enough
    cases fuel with
    | zero => omega
    | succ fuel =>
      obtain ⟨read', settled, loaded⟩ := ih fuel
        { st with
          held := keep st.held id term (stream.frame term id)
          seen := max st.seen term } term (max last id)
        (fun other inside => fits other (List.mem_cons_of_mem _ inside)) (by omega)
      refine ⟨read', fun _ => settled (.inr rfl), ?_⟩
      unfold State.load
      rw [if_neg (by rw [List.length_append, record_length]; omega)]
      simp only [take_record first, record_take first.1]
      have frame : ((stream.record term id ++
          (rest.flatMap (stream.record term) ++ tail)).drop 8).take
            (((stream.record term id ++ (rest.flatMap (stream.record term) ++ tail)).drop 8).length -
              (rest.flatMap (stream.record term) ++ tail).length) = stream.frame term id := by
        rw [record_drop, List.length_append, Nat.add_sub_cancel]
        exact List.take_left
      rw [frame]
      exact loaded

end read

end Pondra.Replica
