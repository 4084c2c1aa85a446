import Pondra.Avro.Typed

set_option autoImplicit false

/- Values written by a schema are read back by it. -/

namespace Pondra.Avro

open Bytes

/-! ### What is written is read -/

/-- What is written of a value, with fuel enough, is read as another wherever it lies. -/
def Reads {α β : Type} (write : Nat → α → Outcome (List UInt8))
    (read : Nat → List UInt8 → Nat → Outcome (β × Nat)) (x : α) (y : β) : Prop :=
  ∃ bytes least, ∀ fuel, least ≤ fuel → write fuel x = .ok bytes ∧
    ∀ b at_, b.length < 2 ^ 63 → Lies b at_ bytes → read fuel b at_ = .ok (y, at_ + bytes.length)

section lists

variable {α β γ : Type} {write : Nat → α → Outcome (List UInt8)}
  {read : Nat → List UInt8 → Nat → Outcome (β × Nat)}

/-- Items written one after another are read one after another. -/
theorem reads_items {pairs : List (α × β)} (each : ∀ p ∈ pairs, Reads write read p.1 p.2) :
    Reads (fun fuel => putAll (write fuel)) (fun fuel b => items (read fuel b) pairs.length)
      (pairs.map Prod.fst) (pairs.map Prod.snd) := by
  induction pairs with
  | nil => exact ⟨[], 0, fun fuel _ => ⟨rfl, fun b at_ _ _ => rfl⟩⟩
  | cons p rest ih =>
    obtain ⟨first, least, one⟩ := each p List.mem_cons_self
    obtain ⟨others, least', all⟩ := ih fun q inside => each q (List.mem_cons_of_mem p inside)
    refine ⟨first ++ others, max least least', fun fuel enough => ?_⟩
    obtain ⟨written, back⟩ := one fuel (by omega)
    obtain ⟨written', back'⟩ := all fuel (by omega)
    dsimp only at written' back' ⊢
    constructor
    · rw [List.map_cons, putAll, written, bind_ok, written', bind_ok]
    · intro b at_ held lies
      obtain ⟨here, there⟩ := lies.append
      rw [List.length_cons, items, back b at_ held here, bind_ok]
      dsimp only
      rw [back' b _ held there, bind_ok, List.length_append, Nat.add_assoc]
      rfl

/-- A record's fields, likewise. -/
theorem reads_fields {value : Nat → List UInt8 → Json → Nat → Outcome (Json × Nat)}
    {write : Nat → Json → Outcome (List UInt8)} {w : Json → Json} {fs : List Json}
    (each : ∀ f ∈ fs, Reads write (fun fuel b => value fuel b (f.field "type")) f (w f)) :
    Reads (fun fuel => putAll (write fuel)) (fun fuel b => recordFields (value fuel b) fs) fs
      (fs.map fun f => (fieldName f, w f)) := by
  induction fs with
  | nil => exact ⟨[], 0, fun fuel _ => ⟨rfl, fun b at_ _ _ => rfl⟩⟩
  | cons f rest ih =>
    obtain ⟨first, least, one⟩ := each f List.mem_cons_self
    obtain ⟨others, least', all⟩ := ih fun q inside => each q (List.mem_cons_of_mem f inside)
    refine ⟨first ++ others, max least least', fun fuel enough => ?_⟩
    obtain ⟨written, back⟩ := one fuel (by omega)
    obtain ⟨written', back'⟩ := all fuel (by omega)
    dsimp only at written' back back' ⊢
    constructor
    · rw [putAll, written, bind_ok, written', bind_ok]
    · intro b at_ held lies
      obtain ⟨here, there⟩ := lies.append
      rw [recordFields, back b at_ held here, bind_ok]
      dsimp only
      rw [back' b _ held there, bind_ok, List.length_append, Nat.add_assoc]
      rfl

theorem count_zero {b : List UInt8} (held : b.length < 2 ^ 63) {at_ : Nat}
    (lies : Lies b at_ (putLong 0)) : count b at_ = .ok (0, at_ + (putLong 0).length) := by
  have zero : asLong 0 = 0 := by decide
  have read := count_of held 0 (by decide) at_ (by rw [zero]; exact lies)
  rw [zero] at read
  exact read

/-- The bytes of a block of so many items, and of the block of none. -/
def blockOf (n : Nat) (body : List UInt8) : List UInt8 :=
  (if n = 0 then [] else putLong (asLong n) ++ body) ++ putLong 0

/-- A block whose items are read is read, and the block of none. -/
theorem blocks_of {b : List UInt8} (held : b.length < 2 ^ 63) {read : Nat → Outcome (β × Nat)}
    {n : Nat} (small : n < 2 ^ 63) {body : List UInt8} {ys : List β} {at_ : Nat}
    (each : ∀ at_, Lies b at_ body → items read n at_ = .ok (ys, at_ + body.length))
    (none_ : n = 0 → ys = []) (lies : Lies b at_ (blockOf n body)) (fuel : Nat) :
    blocks b read (fuel + 2) at_ = .ok (ys, at_ + (blockOf n body).length) := by
  by_cases empty : n = 0
  · rw [blockOf, if_pos empty, List.nil_append] at lies ⊢
    rw [blocks, count_zero held lies, bind_ok]
    dsimp only
    rw [if_pos rfl, none_ empty]
  · rw [blockOf, if_neg empty] at lies ⊢
    obtain ⟨front, last⟩ := lies.append
    obtain ⟨size, here⟩ := front.append
    rw [List.length_append, ← Nat.add_assoc] at last
    rw [blocks, count_of held n small at_ size, bind_ok]
    dsimp only
    rw [if_neg empty, each _ here, bind_ok]
    dsimp only
    rw [blocks, count_zero held last, bind_ok]
    dsimp only
    rw [if_pos rfl, bind_ok, List.append_nil, List.length_append, List.length_append,
      ← Nat.add_assoc, ← Nat.add_assoc]

/-- Items written as a block are read as one. -/
theorem reads_block {pairs : List (α × β)} (small : pairs.length < 2 ^ 63)
    (each : ∀ p ∈ pairs, Reads write read p.1 p.2) :
    Reads (fun fuel => putBlock (write fuel)) (fun fuel b => blocks b (read fuel b) fuel)
      (pairs.map Prod.fst) (pairs.map Prod.snd) := by
  obtain ⟨body, least, all⟩ := reads_items each
  refine ⟨blockOf pairs.length body, max least 2, fun fuel enough => ?_⟩
  obtain ⟨written, back⟩ := all fuel (by omega)
  obtain ⟨more, rfl⟩ := Nat.exists_eq_add_of_le' (show 2 ≤ fuel by omega)
  dsimp only at written back ⊢
  constructor
  · rw [putBlock, written, bind_ok, List.length_map, blockOf]
    cases pairs with
    | nil => rfl
    | cons p rest => rfl
  · intro b at_ held lies
    apply blocks_of held small (fun at_ here => back b at_ held here)
    · intro empty
      rw [List.length_eq_zero_iff.mp empty, List.map_nil]
    · exact lies

/-- One call further in: what is written in front is read in front. -/
theorem Reads.further {δ ε : Type} {write' : Nat → δ → Outcome (List UInt8)}
    {read' : Nat → List UInt8 → Nat → Outcome (ε × Nat)} {x : α} {y : β} {x' : δ} {y' : ε}
    (front : List UInt8) (inner : Reads write read x y)
    (writes : ∀ fuel bytes, write fuel x = .ok bytes → write' (fuel + 1) x' = .ok (front ++ bytes))
    (reads : ∀ fuel b at_ there, b.length < 2 ^ 63 → Lies b at_ front →
      read fuel b (at_ + front.length) = .ok (y, there) → read' (fuel + 1) b at_ = .ok (y', there)) :
    Reads write' read' x' y' := by
  obtain ⟨bytes, least, all⟩ := inner
  refine ⟨front ++ bytes, least + 1, fun fuel enough => ?_⟩
  obtain ⟨more, rfl⟩ := Nat.exists_eq_add_of_le' (show 1 ≤ fuel by omega)
  obtain ⟨written, back⟩ := all more (by omega)
  refine ⟨writes more bytes written, fun b at_ held lies => ?_⟩
  obtain ⟨here, there⟩ := lies.append
  rw [List.length_append, ← Nat.add_assoc]
  exact reads more b at_ _ held here (back b _ held there)

end lists

/-! ### A value -/

section values

variable {o : Outside} {names : Names}

/-- Bytes that need no call within. -/
theorem reads_plain {s v w : Json} (bytes : List UInt8)
    (writes : ∀ fuel, put o names (fuel + 1) s v = .ok bytes)
    (reads : ∀ fuel b at_, b.length < 2 ^ 63 → Lies b at_ bytes →
      value o names b (fuel + 1) s at_ = .ok (w, at_ + bytes.length)) :
    Reads (fun fuel => put o names fuel s) (fun fuel b => value o names b fuel s) v w := by
  refine ⟨bytes, 1, fun fuel enough => ?_⟩
  obtain ⟨more, rfl⟩ := Nat.exists_eq_add_of_le' enough
  exact ⟨writes more, reads more⟩

theorem take_block {b : List UInt8} (held : b.length < 2 ^ 63) {at_ n : Nat} {p : List UInt8}
    (lies : Lies b at_ p) (length : p.length = n) : take b at_ n = .ok (p, at_ + p.length) := by
  rw [← length, take_of held lies]

theorem string_beq (s : Json) (text : String) : (s == .string text) = true ↔ s = .string text := by
  change s.same (.string text) = true ↔ _
  cases s with
  | string other => rw [Json.same, beq_iff_eq, Json.string.injEq]
  | _ =>
    constructor
    · intro same
      cases same
    · intro same
      cases same

/-- The first symbol that is the text. -/
theorem first_symbol {symbols : List Json} {i : Nat} {text : String}
    (here : symbols[i]? = some (.string text)) :
    ∃ j, symbols.findIdx? (fun symbol => symbol == .string text) = some j ∧ j < symbols.length ∧
      symbols[j]? = some (.string text) := by
  cases found : symbols.findIdx? fun symbol => symbol == .string text with
  | none =>
    rw [List.findIdx?_eq_none_iff] at found
    have other := found _ (List.mem_of_getElem? here)
    rw [(string_beq _ text).mpr rfl] at other
    cases other
  | some j =>
    obtain ⟨inside, is, _⟩ := List.findIdx?_eq_some_iff_getElem.mp found
    refine ⟨j, rfl, inside, ?_⟩
    rw [List.getElem?_eq_getElem inside, (string_beq _ text).mp is]

/-- A map's key and its value. -/
theorem reads_pair {item v w : Json} {key : String}
    (inner : Reads (fun fuel => put o names fuel item) (fun fuel b => value o names b fuel item) v w) :
    Reads (fun fuel (entry : String × Json) => do
        let rest ← put o names fuel item entry.2
        .ok (putBytes (utf8 entry.1) ++ rest))
      (fun fuel b => pair b (value o names b fuel item)) (key, v) (key, w) := by
  obtain ⟨bytes, least, all⟩ := inner
  refine ⟨putBytes (utf8 key) ++ bytes, least, fun fuel enough => ?_⟩
  obtain ⟨written, back⟩ := all fuel enough
  dsimp only at written back ⊢
  refine ⟨by rw [written, bind_ok], fun b at_ held lies => ?_⟩
  obtain ⟨here, there⟩ := lies.append
  rw [pair, string_of held key at_ here, bind_ok]
  dsimp only
  rw [back b _ held there, bind_ok, List.length_append, Nat.add_assoc]

/-- A value is read back as its schema has it. -/
theorem Back.reads {s v w : Json} (back : Back o names s v w) :
    Reads (fun fuel => put o names fuel s) (fun fuel b => value o names b fuel s) v w := by
  -- over what the value is made of, not the schema: a record may name itself
  induction back with
  | @null t plain =>
    apply reads_plain []
    · intro fuel
      unfold put
      dsimp only
      rw [plain]
    · intro fuel b at_ held lies
      rw [value, plain]
      rfl
  | @boolean t yes plain =>
    apply reads_plain [if yes then 1 else 0]
    · intro fuel
      unfold put
      dsimp only
      rw [plain]
    · intro fuel b at_ held lies
      rw [value, plain]
      dsimp only
      have one := take_of held lies
      rw [List.length_singleton] at one
      rw [one, bind_ok]
      cases yes <;> rfl
  | @long t n plain low high =>
    have number : (Json.int n).long = some n := by
      rw [Json.long, if_pos ⟨low, high⟩]
    apply reads_plain (putLong n)
    · intro fuel
      unfold put
      dsimp only
      rcases plain with plain | plain <;>
        rw [plain, number] <;>
        rfl
    · intro fuel b at_ held lies
      rw [value]
      rcases plain with plain | plain <;>
        rw [plain] <;>
        dsimp only <;>
        rw [long_of held n low high at_ lies, bind_ok]
  | @float t bits plain small exact_ =>
    apply reads_plain (toLe 4 (o.narrow bits))
    · intro fuel
      unfold put
      dsimp only
      rw [plain]
      rfl
    · intro fuel b at_ held lies
      rw [value, plain]
      dsimp only
      rw [take_block held lies (length_toLe 4 _), bind_ok]
      dsimp only
      rw [ofLe_toLe 4 _ small, exact_]
  | @double t bits plain small finite =>
    apply reads_plain (toLe 8 bits)
    · intro fuel
      unfold put
      dsimp only
      rw [plain]
      rfl
    · intro fuel b at_ held lies
      rw [value, plain]
      dsimp only
      rw [take_block held lies (length_toLe 8 _), bind_ok]
      dsimp only
      rw [ofLe_toLe 8 _ small, finite]
  | @bytes t raw plain =>
    apply reads_plain (putBytes raw)
    · intro fuel
      unfold put
      rw [plain]
      dsimp only [hexText, Json.str]
      rw [ofOption, bind_ok, unhex_hex, bind_ok]
    · intro fuel b at_ held lies
      rw [value, plain]
      dsimp only
      rw [bytes_of held raw at_ lies, bind_ok]
  | @string t text plain =>
    apply reads_plain (putBytes (utf8 text))
    · intro fuel
      unfold put
      dsimp only
      rw [plain]
      rfl
    · intro fuel b at_ held lies
      rw [value, plain]
      dsimp only
      rw [string_of held text at_ lies, bind_ok]
  | @named t d v w plain found inner ih =>
    apply ih.further []
    · intro fuel bytes written
      unfold put
      rw [plain]
      dsimp only
      rw [found]
      exact written
    · intro fuel b at_ there held lies read
      rw [value, plain]
      dsimp only
      rw [found]
      exact read
  | @union branches i t v w apart here inner ih =>
    have few := branches_few apart
    have inside : i < branches.length := (List.getElem?_eq_some_iff.mp here).1
    have small : i < 2 ^ 63 := by omega
    have is := asLong_eq i small
    apply ih.further (putLong (asLong i))
    · intro fuel bytes written
      unfold put
      rw [branch_of apart here inner]
      dsimp only
      rw [List.getD_eq_getElem?_getD, here, Option.getD_some, written, bind_ok]
    · intro fuel b at_ there held lies read
      rw [value, long_of held _ (by omega) (by omega) at_ lies, bind_ok]
      dsimp only
      rw [is, asUsize_eq i small, here]
      rw [is] at read
      exact read
  | @record entries es t w type_ form once own each ih =>
    have all : Reads (fun fuel => putAll fun f => within ("field " ++ o.print (f.field "name"))
        (put o names fuel (f.field "type") (given (.object es) f)))
        (fun fuel b => recordFields (value o names b fuel) (fields entries)) (fields entries)
        ((fields entries).map fun f => (fieldName f, w f)) := by
      apply reads_fields
      intro f inside
      obtain ⟨bytes, least, both⟩ := ih f inside
      refine ⟨bytes, least, fun fuel enough => ?_⟩
      obtain ⟨written, back⟩ := both fuel enough
      dsimp only at written back ⊢
      exact ⟨by rw [written]; rfl, back⟩
    apply all.further []
    · intro fuel bytes written
      unfold put
      dsimp only
      rw [type_]
      dsimp only
      rw [form]
      exact written
    · intro fuel b at_ there held lies read
      rw [value, type_]
      dsimp only
      rw [form]
      dsimp only at read ⊢
      rw [List.length_nil, Nat.add_zero] at read
      rw [read]
      rfl
  | @enum entries t text symbols i type_ form found small here =>
    obtain ⟨j, first, least, is⟩ := first_symbol here
    have few : j < 2 ^ 63 := by omega
    have same := asLong_eq j few
    apply reads_plain (putLong (asLong j))
    · intro fuel
      unfold put
      rw [type_]
      dsimp only
      rw [form]
      dsimp only
      rw [index, found]
      dsimp only
      rw [bind_ok, first, ofOption, bind_ok]
    · intro fuel b at_ held lies
      rw [value, type_]
      dsimp only
      rw [form]
      dsimp only
      rw [long_of held _ (by omega) (by omega) at_ lies, bind_ok, index, found]
      dsimp only
      rw [bind_ok, same, asUsize_eq j few, is]
  | @array entries t item pairs type_ form found small each ih =>
    have all := reads_block small ih
    apply all.further []
    · intro fuel bytes written
      unfold put
      rw [type_]
      dsimp only
      rw [form]
      dsimp only
      rw [index, found]
      exact written
    · intro fuel b at_ there held lies read
      rw [value, type_]
      dsimp only
      rw [form]
      dsimp only at read ⊢
      rw [List.length_nil, Nat.add_zero] at read
      rw [index, found]
      dsimp only [bind_ok]
      rw [read, bind_ok]
  | @map entries t item pairs type_ form found small once each ih =>
    have all := reads_block (List.length_map (fun p : String × Json × Json =>
      ((p.1, p.2.1), (p.1, p.2.2))) ▸ small) (fun q inside => by
        obtain ⟨p, there, rfl⟩ := List.mem_map.mp inside
        exact reads_pair (ih p there))
    rw [List.map_map, List.map_map] at all
    apply all.further []
    · intro fuel bytes written
      unfold put
      rw [type_]
      dsimp only
      rw [form]
      dsimp only
      rw [index, found]
      exact written
    · intro fuel b at_ there held lies read
      rw [value, type_]
      dsimp only
      rw [form]
      dsimp only at read ⊢
      rw [List.length_nil, Nat.add_zero] at read
      rw [index, found]
      dsimp only [bind_ok]
      rw [read, bind_ok]
      rfl
  | @fixed entries t raw type_ form found =>
    apply reads_plain raw
    · intro fuel
      unfold put
      rw [type_]
      dsimp only
      rw [form]
      dsimp only [hexText, Json.str]
      rw [ofOption, bind_ok, unhex_hex]
    · intro fuel b at_ held lies
      rw [value, type_]
      dsimp only
      rw [form]
      dsimp only
      rw [index, found]
      dsimp only
      rw [bind_ok]
      dsimp only
      rw [if_pos (Int.natCast_nonneg _), Int.toNat_natCast, take_of held lies, bind_ok]
  | @annotated entries t v w type_ form inner ih =>
    apply ih.further []
    · intro fuel bytes written
      unfold put
      rw [type_]
      dsimp only
      rw [form]
      exact written
    · intro fuel b at_ there held lies read
      rw [value, type_]
      dsimp only
      rw [form]
      exact read

end values

/-! ### A file -/

section files

variable {o : Outside}

/-- The bytes of a file's metadata. -/
def metadata (all : List (String × String)) : List UInt8 :=
  all.flatMap fun entry => putBytes (utf8 entry.1) ++ putBytes (utf8 entry.2)

theorem putLong_pos (v : Int) : 0 < (putLong v).length := by
  rw [putLong, Varint.varint_eq]
  split
  · exact Nat.succ_pos _
  · exact Nat.succ_pos _

theorem metadata_length (all : List (String × String)) : all.length ≤ (metadata all).length := by
  induction all with
  | nil => exact Nat.le_refl 0
  | cons entry rest ih =>
    have more := putLong_pos (asLong (utf8 entry.1).length)
    rw [metadata, List.flatMap_cons, putBytes]
    rw [metadata] at ih
    simp only [List.length_append, List.length_cons]
    omega

theorem items_metadata {b : List UInt8} (held : b.length < 2 ^ 63) (all : List (String × String))
    (at_ : Nat) (lies : Lies b at_ (metadata all)) :
    items (fun at_ => do
        let k ← string b at_
        let v ← bytes b k.2
        .ok ((k.1, v.1), v.2)) all.length at_ =
      .ok (all.map fun entry => (entry.1, utf8 entry.2), at_ + (metadata all).length) := by
  induction all generalizing at_ with
  | nil => rfl
  | cons entry rest ih =>
    have split_ : metadata (entry :: rest) =
        putBytes (utf8 entry.1) ++ (putBytes (utf8 entry.2) ++ metadata rest) := by
      rw [metadata, List.flatMap_cons, List.append_assoc]
      rfl
    rw [split_] at lies ⊢
    obtain ⟨key, others⟩ := lies.append
    obtain ⟨text, others⟩ := others.append
    rw [List.length_cons, items, string_of held entry.1 at_ key, bind_ok]
    dsimp only
    rw [bytes_of held _ _ text, bind_ok, bind_ok]
    dsimp only
    rw [ih _ others, bind_ok, List.length_append, List.length_append, ← Nat.add_assoc,
      ← Nat.add_assoc]
    rfl

/-- A key that no entry after it has is the one given. -/
theorem lastOf_of (before : List (String × List UInt8)) {after : List (String × List UInt8)}
    {key : String} {v : List UInt8} (only : ∀ e ∈ after, e.1 ≠ key) : lastOf (before ++ (key, v) :: after) key = some v := by
  have none_ : after.reverse.lookup key = none := by
    rw [List.lookup_eq_none_iff]
    intro e inside
    rw [bne_iff_ne]
    exact (only e (List.mem_reverse.mp inside)).symm
  rw [lastOf, List.reverse_append, List.reverse_cons, List.append_assoc, List.lookup_append, none_,
    Option.none_or, List.singleton_append, List.lookup_cons_self]

/-- A file's metadata, of a schema and what is given beside it. -/
def pairsOf (o : Outside) (schema : Json) (entries : List (String × String)) :
    List (String × String) :=
  [("avro.schema", o.print schema), ("avro.codec", "null")] ++ entries

/-- A file up to its marker. -/
def headOf (o : Outside) (schema : Json) (entries : List (String × String)) : List UInt8 :=
  [79, 98, 106, 1] ++ blockOf (entries.length + 2) (metadata (pairsOf o schema entries))

/-- The metadata of a file is read, and what its blocks are read by. -/
theorem records_of {fuel : Nat} {sync tail : List UInt8} {schema : Json}
    {entries : List (String × String)} (marks : sync.length = 16)
    (own : ∀ e ∈ entries, e.1 ≠ "avro.schema" ∧ e.1 ≠ "avro.codec")
    (parsed : o.parse (utf8 (o.print schema)) = .ok schema)
    (plain : o.lossy (utf8 "null") = "null") {file : List UInt8}
    (whole : file = headOf o schema entries ++ (sync ++ tail)) (held : file.length < 2 ^ 63) :
    records o fuel file = fileBlocks o file "null" sync
      (fun block => value o (named schema []) block fuel schema) (file.length + 1)
      ((headOf o schema entries).length + 16) := by
  have magic : file.take 4 = [79, 98, 106, 1] := by
    rw [whole]
    rfl
  have places : Lies file 4 (blockOf (entries.length + 2)
      (metadata (pairsOf o schema entries))) := by
    refine ⟨[79, 98, 106, 1], sync ++ tail, ?_, rfl⟩
    rw [whole, headOf, List.append_assoc]
  have mark : Lies file (headOf o schema entries).length sync := ⟨_, tail, whole, rfl⟩
  have size : (headOf o schema entries).length = 4 + (blockOf (entries.length + 2)
      (metadata (pairsOf o schema entries))).length := by
    rw [headOf, List.length_append]
    rfl
  have few : entries.length + 2 < 2 ^ 63 := by
    have most := metadata_length (pairsOf o schema entries)
    have inside := places.length
    rw [blockOf, if_neg (by omega)] at inside
    simp only [pairsOf, List.length_append, List.length_cons, List.length_nil] at most inside
    omega
  have enough : ∃ more, file.length + 1 = more + 2 := by
    have long := congrArg List.length magic
    rw [List.length_take] at long
    exact ⟨file.length - 1, by simp only [List.length_cons, List.length_nil] at long; omega⟩
  obtain ⟨more, enough⟩ := enough
  have read : header file = .ok ((pairsOf o schema entries).map fun entry => (entry.1, utf8 entry.2),
      (headOf o schema entries).length) := by
    rw [header, enough, size]
    apply blocks_of held few _ (by omega) places
    intro at_ lies
    exact items_metadata held _ at_ lies
  have schemaText : lastOf ((pairsOf o schema entries).map fun entry => (entry.1, utf8 entry.2)) "avro.schema" =
      some (utf8 (o.print schema)) := by
    apply lastOf_of []
    intro e inside
    rcases List.mem_cons.mp inside with rfl | inside
    · exact (by decide : "avro.codec" ≠ "avro.schema")
    · obtain ⟨entry, there, rfl⟩ := List.mem_map.mp inside
      exact (own entry there).1
  have codecText : lastOf ((pairsOf o schema entries).map fun entry => (entry.1, utf8 entry.2)) "avro.codec" = some (utf8 "null") := by
    apply lastOf_of [("avro.schema", utf8 (o.print schema))]
    intro e inside
    obtain ⟨entry, there, rfl⟩ := List.mem_map.mp inside
    exact (own entry there).2
  have took := take_block held mark marks
  rw [marks] at took
  rw [records, if_neg (by rw [magic]; exact fun other => other rfl), read, bind_ok]
  dsimp only
  rw [schemaText]
  dsimp only
  rw [parsed, ofExcept, bind_ok, took, bind_ok, codecText, Option.map_some, Option.getD_some, plain]

/-- What follows a file's marker: its records' block, unless there are none. -/
def tailOf (sync : List UInt8) (n : Nat) (body : List UInt8) : List UInt8 :=
  if n = 0 then [] else putLong (asLong n) ++ (putLong (asLong body.length) ++ (body ++ sync))

theorem write_of {fuel : Nat} {sync body : List UInt8} {schema : Json}
    {entries : List (String × String)} {records : List Json}
    (written : putAll (put o (named schema []) fuel schema) records = .ok body) :
    write o fuel sync schema entries records =
      .ok (headOf o schema entries ++ (sync ++ tailOf sync records.length body)) := by
  rw [write, written, bind_ok, headOf, blockOf, if_neg (Nat.succ_ne_zero _), tailOf]
  cases records with
  | nil =>
    simp only [List.append_assoc, List.isEmpty_nil, List.length_nil, if_true]
    rfl
  | cons r rest =>
    simp only [List.append_assoc, List.isEmpty_cons, Bool.false_eq_true, List.length_cons, if_false,
      if_neg (Nat.succ_ne_zero _)]
    rfl

/-- The records' block is read, and the file ends after it. -/
theorem fileBlocks_of {file sync body : List UInt8} {read : List UInt8 → Nat → Outcome (Json × Nat)}
    {n : Nat} {ys : List Json} {at_ : Nat} (held : file.length < 2 ^ 63) (small : n < 2 ^ 63)
    (marks : sync.length = 16) (each : n ≠ 0 → items (read body) n 0 = .ok (ys, body.length))
    (none_ : n = 0 → ys = []) (lies : Lies file at_ (tailOf sync n body))
    (last : file.length = at_ + (tailOf sync n body).length) :
    fileBlocks o file "null" sync read (file.length + 1) at_ = .ok ys := by
  by_cases empty : n = 0
  · rw [tailOf, if_pos empty] at last
    rw [fileBlocks, if_pos (by rw [last]; exact Nat.le_refl _), none_ empty]
  · rw [tailOf, if_neg empty] at lies last
    obtain ⟨count_, rest⟩ := lies.append
    obtain ⟨size, rest⟩ := rest.append
    obtain ⟨block, mark⟩ := rest.append
    have short := block.length
    have is := asLong_eq n small
    have long_ := asLong_eq body.length (by omega)
    have took := take_block held mark marks
    rw [marks] at took
    simp only [List.length_append, marks] at last
    obtain ⟨more, enough⟩ : ∃ more, file.length = more + 1 := ⟨file.length - 1, by omega⟩
    rw [fileBlocks, if_neg (by omega), long_of held _ (by omega) (by omega) at_ count_, bind_ok]
    dsimp only
    rw [long_of held _ (by omega) (by omega) _ size, bind_ok]
    dsimp only
    rw [long_, asUsize_eq _ (by omega), ← long_, take_of held block, bind_ok]
    dsimp only
    rw [unpacked, bind_ok, is, Int.toNat_natCast, each empty, bind_ok]
    dsimp only
    rw [← is, took, bind_ok]
    dsimp only
    rw [if_pos rfl, enough, fileBlocks, if_pos (by omega), bind_ok, List.append_nil]

/-- Records that a schema has are read back from the file they are written to, with null for what
they leave out. -/
theorem written_back {sync : List UInt8} {schema : Json} {entries : List (String × String)}
    {pairs : List (Json × Json)} (marks : sync.length = 16)
    (own : ∀ e ∈ entries, e.1 ≠ "avro.schema" ∧ e.1 ≠ "avro.codec")
    (parsed : o.parse (utf8 (o.print schema)) = .ok schema)
    (plain : o.lossy (utf8 "null") = "null") (small : pairs.length < 2 ^ 63)
    (each : ∀ p ∈ pairs, Back o (named schema []) schema p.1 p.2) :
    (∃ file least, ∀ fuel, least ≤ fuel →
      write o fuel sync schema entries (pairs.map Prod.fst) = .ok file ∧
      (file.length < 2 ^ 63 → records o fuel file = .ok (pairs.map Prod.snd))) ∧
    ∀ p ∈ pairs, Filled p.1 p.2 := by
  refine ⟨?_, fun p inside => (each p inside).filled⟩
  obtain ⟨body, least, all⟩ := reads_items fun p inside => (each p inside).reads
  refine ⟨headOf o schema entries ++ (sync ++ tailOf sync pairs.length body), least,
    fun fuel enough => ?_⟩
  obtain ⟨written, back⟩ := all fuel enough
  dsimp only at written back
  constructor
  · rw [write_of written, List.length_map]
  · intro held
    have after : Lies (headOf o schema entries ++ (sync ++ tailOf sync pairs.length body))
        ((headOf o schema entries).length + 16) (tailOf sync pairs.length body) := by
      refine ⟨headOf o schema entries ++ sync, [], by simp only [List.append_assoc, List.append_nil],
        ?_⟩
      rw [List.length_append, marks]
    rw [records_of marks own parsed plain rfl held]
    apply fileBlocks_of held small marks _ _ after
    · simp only [List.length_append, marks, Nat.add_assoc]
    · intro some_
      have long : body.length ≤ (tailOf sync pairs.length body).length := by
        rw [tailOf, if_neg some_]
        simp only [List.length_append]
        omega
      have short : body.length < 2 ^ 63 := by
        have inside := after.length
        omega
      have read := back body 0 short ⟨[], [], by rw [List.append_nil, List.nil_append], rfl⟩
      rwa [Nat.zero_add] at read
    · intro empty
      rw [List.length_eq_zero_iff.mp empty, List.map_nil]

end files

/-! ### Two records -/

def twoFields : List (String × Json) :=
  [("fields", .array [.object [("name", .string "id"), ("type", .string "long")],
      .object [("name", .string "note"), ("type", .array [.string "null", .string "string"])]]),
    ("name", .string "r"), ("type", .string "record")]

def twoText : String :=
  "\x7b\"fields\":[\x7b\"name\":\"id\",\"type\":\"long\"\x7d," ++
    "\x7b\"name\":\"note\",\"type\":[\"null\",\"string\"]\x7d]," ++
    "\"name\":\"r\",\"type\":\"record\"\x7d"

/-- JSON's text as far as the two records need it. -/
def twoOutside : Outside where
  parse b := if b = utf8 twoText then .ok (.object twoFields) else .error "expected value"
  print v := if v == .object twoFields then twoText else "null"
  lossy b := if b = utf8 "null" then "null" else ""
  inflate _ := .error "corrupt deflate stream"
  unsnap _ := .error "snappy: corrupt input"
  unzstd _ := .error "Unknown frame descriptor"
  narrow bits := bits
  widen bits := bits
  ofInt _ := 0

theorem two_shapes (names : Names) : Distinct names [.string "null", .string "string"] := by
  have shapes : [Json.string "null", .string "string"].map (shape names) =
      [some .null, some .string] := rfl
  constructor
  · intro t inside
    have there := List.mem_map_of_mem (f := shape names) inside
    rw [shapes] at there
    cases is : shape names t with
    | none => rw [is] at there; exact absurd there (by decide)
    | some _ => rfl
  · rw [shapes]
    decide

theorem two_null (names : Names) : Back twoOutside names (.array [.string "null", .string "string"])
    .null .null :=
  .union (two_shapes names) (i := 0) rfl (.null rfl)

theorem two_text (names : Names) (text : String) :
    Back twoOutside names (.array [.string "null", .string "string"]) (.string text) (.string text) :=
  .union (two_shapes names) (i := 1) rfl (.string rfl)

/-- A record of the two, with a note or without one. -/
theorem two_back {names : Names} {es : List (String × Json)} {n : Int} {v w : Json}
    (low : -2 ^ 63 ≤ n) (high : n < 2 ^ 63) (own : ∀ e ∈ es, e.1 = "id" ∨ e.1 = "note")
    (id : (Json.object es).field "id" = .int n) (note : (Json.object es).field "note" = v)
    (back : Back twoOutside names (.array [.string "null", .string "string"]) v w) :
    Back twoOutside names (.object twoFields) (.object es)
      (.object [("id", .int n), ("note", w)]) := by
  have same : (.object [("id", .int n), ("note", w)] : Json) = objectOf ((fields twoFields).map
      fun f => (fieldName f, if fieldName f = "id" then .int n else w)) := by
    change _ = Json.object (insert [("id", if "id" = "id" then .int n else w)]
      ("note", if "note" = "id" then .int n else w))
    rw [if_pos rfl, if_neg (by decide), insert,
      if_neg (show ¬ "note" < "id" by decide), if_neg (show ¬ "note" = "id" by decide), insert]
  rw [same]
  apply Back.record rfl rfl
  · decide
  · intro e inside
    rcases own e inside with key | key <;>
      rw [key] <;>
      decide
  · intro f inside
    have two : f = .object [("name", .string "id"), ("type", .string "long")] ∨
        f = .object [("name", .string "note"),
          ("type", .array [.string "null", .string "string"])] := by
      rcases List.mem_cons.mp inside with is | inside
      · exact .inl is
      · exact .inr (List.mem_singleton.mp inside)
    rcases two with rfl | rfl
    · change Back _ _ (.string "long") ((Json.object es).field "id") (.int n)
      rw [id]
      exact .long (.inr rfl) low high
    · change Back _ _ (.array [.string "null", .string "string"]) ((Json.object es).field "note") w
      rw [note]
      exact back

theorem two_written_back :
    (∃ file least, ∀ fuel, least ≤ fuel →
      write twoOutside fuel (List.replicate 16 5) (.object twoFields) [("format-version", "2")]
        [.object [("id", .int 7), ("note", .string "a")], .object [("id", .int (-8))]] = .ok file ∧
      (file.length < 2 ^ 63 → records twoOutside fuel file =
        .ok [.object [("id", .int 7), ("note", .string "a")],
          .object [("id", .int (-8)), ("note", .null)]])) ∧
    ∀ p ∈ [(Json.object [("id", .int 7), ("note", .string "a")],
        Json.object [("id", .int 7), ("note", .string "a")]),
      (.object [("id", .int (-8))], .object [("id", .int (-8)), ("note", .null)])],
      Filled p.1 p.2 := by
  apply @written_back twoOutside _ _ _ [(Json.object [("id", .int 7), ("note", .string "a")],
        Json.object [("id", .int 7), ("note", .string "a")]),
      (.object [("id", .int (-8))], .object [("id", .int (-8)), ("note", .null)])]
  · rfl
  · decide
  · rfl
  · rfl
  · decide
  · intro p inside
    rcases List.mem_cons.mp inside with rfl | inside
    · exact two_back (by decide) (by decide) (by decide) rfl rfl
        (two_text _ "a")
    · cases List.mem_singleton.mp inside
      exact two_back (by decide) (by decide) (by decide) rfl rfl
        (two_null _)

end Pondra.Avro
