import Pondra.Iceberg.Asked

set_option autoImplicit false

/-! ### What statements do to a table's columns -/

namespace Pondra.Iceberg

section cols

/-- The column of a name is found among distinct names. -/
theorem find_name {cols : List Col} (names : (cols.map (·.name)).Nodup) {c : Col} (inside : c ∈ cols) :
    (cols.find? fun d => d.name = c.name) = some c := by
  induction cols with
  | nil => cases inside
  | cons d rest ih =>
    rw [List.map_cons, List.nodup_cons] at names
    rw [List.find?_cons]
    rcases List.mem_cons.mp inside with rfl | later
    · rw [decide_eq_true rfl]
    · have other : d.name ≠ c.name := by
        intro same
        apply names.1
        rw [same]
        exact List.mem_map_of_mem later
      rw [decide_eq_false other]
      exact ih names.2 later

theorem apart_ids {a b : List Col} {c : Col} (ids : ((a ++ c :: b).map (·.id)).Nodup) :
    (∀ d ∈ a, d.id ≠ c.id) ∧ ∀ d ∈ b, d.id ≠ c.id := by
  rw [List.map_append, List.map_cons, List.nodup_append] at ids
  obtain ⟨_, later, apart⟩ := ids
  constructor
  · intro d inside
    exact apart d.id (List.mem_map_of_mem inside) c.id List.mem_cons_self
  · intro d inside same
    apply (List.nodup_cons.mp later).1
    rw [← same]
    exact List.mem_map_of_mem inside

theorem filter_ids {a b : List Col} {c : Col} (ids : ((a ++ c :: b).map (·.id)).Nodup) :
    ((a ++ c :: b).filter fun d => d.id ≠ c.id) = a ++ b := by
  obtain ⟨before, after⟩ := apart_ids ids
  have first : (a.filter fun d => decide (d.id ≠ c.id)) = a :=
    List.filter_eq_self.mpr fun d inside => decide_eq_true (before d inside)
  have second : (b.filter fun d => decide (d.id ≠ c.id)) = b :=
    List.filter_eq_self.mpr fun d inside => decide_eq_true (after d inside)
  rw [List.filter_append, List.filter_cons, if_neg (by simp), first, second]

theorem map_apart {id : Nat} {cols : List Col} (apart : ∀ d ∈ cols, d.id ≠ id) (change : Col → Col) :
    (cols.map fun d => if d.id = id then change d else d) = cols := by
  have same : (cols.map fun d => if d.id = id then change d else d) = cols.map fun d => d :=
    List.map_congr_left fun d inside => if_neg (apart d inside)
  rw [same, List.map_id']

theorem map_ids {a b : List Col} {c : Col} (ids : ((a ++ c :: b).map (·.id)).Nodup) (change : Col → Col) :
    ((a ++ c :: b).map fun d => if d.id = c.id then change d else d) = a ++ change c :: b := by
  obtain ⟨before, after⟩ := apart_ids ids
  rw [List.map_append, List.map_cons, if_pos rfl, map_apart before, map_apart after]

end cols

/-- Names and ids are distinct, and a new column's id is new. -/
structure Table.Proper (t : Table) : Prop where
  names : (t.cols.map (·.name)).Nodup
  ids : (t.cols.map (·.id)).Nodup
  below : ∀ c ∈ t.cols, c.id < t.next

/-- What a statement leaves: what keeps columns and who reads them, and no id but old ones and new ones. -/
structure Table.Follows (t t' : Table) : Prop where
  stays : t'.stays = t.stays
  readers : t'.readers = t.readers
  next : t.next ≤ t'.next
  ids : ∀ c ∈ t'.cols, c.id ∈ t.cols.map (·.id) ∨ t.next ≤ c.id

theorem Table.Follows.refl (t : Table) : t.Follows t :=
  ⟨rfl, rfl, Nat.le_refl _, fun _ inside => .inl (List.mem_map_of_mem inside)⟩

theorem Table.Follows.trans {t t' t'' : Table} (first : t.Follows t') (second : t'.Follows t'') :
    t.Follows t'' where
  stays := second.stays.trans first.stays
  readers := second.readers.trans first.readers
  next := Nat.le_trans first.next second.next
  ids := by
    intro c inside
    rcases second.ids c inside with old | new
    · obtain ⟨d, listed, same⟩ := List.mem_map.mp old
      rw [← same]
      exact first.ids d listed
    · exact .inr (Nat.le_trans first.next new)

namespace Table

variable {t : Table}

theorem Proper.dropColumn (proper : t.Proper) (c : Col) :
    (t.dropColumn c).Proper ∧ t.Follows (t.dropColumn c) := by
  have sub : (t.dropColumn c).cols.Sublist t.cols := List.filter_sublist
  refine ⟨⟨(sub.map _).nodup proper.names, (sub.map _).nodup proper.ids, ?_⟩, rfl, rfl, Nat.le_refl _, ?_⟩
  · intro d inside
    exact proper.below d (sub.subset inside)
  · intro d inside
    exact .inl (List.mem_map_of_mem (sub.subset inside))

theorem Proper.addColumn (proper : t.Proper) {name : String} (free : name ∉ t.cols.map (·.name)) (type : Ty) :
    (t.addColumn name type).Proper ∧ t.Follows (t.addColumn name type) := by
  unfold Table.addColumn
  refine ⟨⟨?_, ?_, ?_⟩, rfl, rfl, Nat.le_succ _, ?_⟩
  · rw [List.map_append, List.map_singleton]
    apply List.nodup_append.mpr
    refine ⟨proper.names, List.pairwise_singleton _ _, ?_⟩
    intro a first b second same
    rw [List.mem_singleton.mp second] at same
    rw [same] at first
    exact free first
  · rw [List.map_append, List.map_singleton]
    apply List.nodup_append.mpr
    refine ⟨proper.ids, List.pairwise_singleton _ _, ?_⟩
    intro a first b second same
    obtain ⟨c, inside, is⟩ := List.mem_map.mp first
    have less := proper.below c inside
    rw [List.mem_singleton.mp second] at same
    dsimp only at is same
    omega
  · intro d inside
    rcases List.mem_append.mp inside with old | new
    · exact Nat.lt_succ_of_lt (proper.below d old)
    · rw [List.mem_singleton.mp new]
      exact Nat.lt_succ_self _
  · intro d inside
    rcases List.mem_append.mp inside with old | new
    · exact .inl (List.mem_map_of_mem old)
    · rw [List.mem_singleton.mp new]
      exact .inr (Nat.le_refl _)

/-- A column changed but for its id, to a name that is its own or free. -/
theorem Proper.changeColumn (proper : t.Proper) {c : Col} (inside : c ∈ t.cols) (change : Col → Col)
    (id : (change c).id = c.id) (free : (change c).name = c.name ∨ (change c).name ∉ t.cols.map (·.name)) :
    (t.changeColumn c.id change).Proper ∧ t.Follows (t.changeColumn c.id change) := by
  obtain ⟨a, b, split_⟩ := List.append_of_mem inside
  have ids := proper.ids
  have names := proper.names
  have below := proper.below
  have is : (t.changeColumn c.id change).cols = a ++ change c :: b := by
    unfold Table.changeColumn
    rw [split_] at ids ⊢
    exact map_ids ids change
  have same : (t.changeColumn c.id change).cols.map (·.id) = t.cols.map (·.id) := by
    rw [is, split_, List.map_append, List.map_append, List.map_cons, List.map_cons, id]
  have listed : ∀ d ∈ (t.changeColumn c.id change).cols, d.id ∈ t.cols.map (·.id) := by
    intro d listed
    rw [← same]
    exact List.mem_map_of_mem listed
  refine ⟨⟨?_, ?_, ?_⟩, rfl, rfl, Nat.le_refl _, fun d inside => .inl (listed d inside)⟩
  · rw [is, List.map_append, List.map_cons]
    rw [split_, List.map_append, List.map_cons] at names free
    rcases free with own | free
    · rw [own]
      exact names
    · rw [List.nodup_append, List.nodup_cons] at names ⊢
      obtain ⟨first, ⟨_, second⟩, apart⟩ := names
      rw [List.mem_append, List.mem_cons, not_or, not_or] at free
      refine ⟨first, ⟨free.2.2, second⟩, ?_⟩
      intro x before y after
      rcases List.mem_cons.mp after with rfl | after
      · intro same
        rw [same] at before
        exact free.1 before
      · exact apart x before y (List.mem_cons_of_mem _ after)
  · rw [same]
    exact ids
  · intro d inside
    obtain ⟨d', old, is⟩ := List.mem_map.mp (listed d inside)
    rw [← is]
    exact below d' old

/-- A statement leaves a proper table. -/
theorem Proper.alter {e : Engine} (proper : t.Proper) {s : Statement} {t' : Table}
    (is : t.alter e s = some t') : t'.Proper ∧ t.Follows t' := by
  have found : ∀ {column c}, t.altered column = some c → c ∈ t.cols := by
    intro column c here
    obtain ⟨name, _, here⟩ := Option.bind_eq_some_iff.mp here
    split at here
    · cases here
    · exact List.mem_of_find?_eq_some here
  cases s with
  | drop column =>
    obtain ⟨c, here, is⟩ := Option.bind_eq_some_iff.mp is
    split at is
    · cases is
    · cases is
      exact proper.dropColumn c
  | rename column to_ =>
    obtain ⟨c, here, is⟩ := Option.bind_eq_some_iff.mp is
    obtain ⟨name, _, is⟩ := Option.bind_eq_some_iff.mp is
    split at is
    · cases is
    · rename_i free
      cases is
      apply proper.changeColumn (found here) (fun d => { d with name := name }) rfl
      right
      intro inside
      obtain ⟨d, listed, same⟩ := List.mem_map.mp inside
      exact free (.inr (.inr (List.any_eq_true.mpr ⟨d, listed, decide_eq_true same⟩)))
  | retype column type =>
    obtain ⟨c, here, is⟩ := Option.bind_eq_some_iff.mp is
    split at is
    · cases is
      exact proper.changeColumn (found here) (fun d => { d with type := type }) rfl (.inl rfl)
    · cases is
  | add column type =>
    obtain ⟨name, _, is⟩ := Option.bind_eq_some_iff.mp is
    split at is
    · cases is
    · rename_i free
      cases is
      apply proper.addColumn
      intro inside
      obtain ⟨d, listed, same⟩ := List.mem_map.mp inside
      exact free (.inl (List.any_eq_true.mpr ⟨d, listed, decide_eq_true same⟩))
  | set properties =>
    have set_ : t.alter e (.set properties) =
        if e.sets properties then some { t with properties := t.properties ++ properties } else none := rfl
    rw [set_] at is
    split at is
    · cases is
      exact ⟨⟨proper.names, proper.ids, proper.below⟩, rfl, rfl, Nat.le_refl _,
        fun _ inside => .inl (List.mem_map_of_mem inside)⟩
    · cases is

theorem Proper.run {e : Engine} {t : Table} (proper : t.Proper) (stmts : List Statement) :
    (t.run e stmts).1.Proper ∧ t.Follows (t.run e stmts).1 := by
  induction stmts generalizing t with
  | nil => exact ⟨proper, .refl t⟩
  | cons s rest ih =>
    unfold Table.run
    cases is : t.alter e s with
    | none => exact ⟨proper, .refl t⟩
    | some t' =>
      obtain ⟨proper', follows⟩ := proper.alter is
      obtain ⟨proper'', later⟩ := ih proper'
      exact ⟨proper'', follows.trans later⟩

/-! ### Each statement, by the column it names -/

variable (e : Engine)

theorem Proper.altered (proper : t.Proper) {c : Col} (inside : c ∈ t.cols) :
    t.altered (quoted c.name) = if altersOk t c.name then some c else none := by
  unfold Table.altered altersOk
  rw [ident_quoted, Option.bind_some, find_name proper.names inside]
  cases system c.name with
  | true => rfl
  | false =>
    cases t.readers with
    | true => rfl
    | false => rfl

theorem Proper.alter_drop (proper : t.Proper) {w : Field} {c : Col} (inside : c ∈ t.cols)
    (id : c.id = w.id.toNat) (name : c.name = w.name) : t.alter e (.drop (quoted w.name)) =
      if dropOk t t.cols.length w then some (t.dropColumn c) else none := by
  unfold Table.alter dropOk
  dsimp only
  rw [← name, proper.altered inside, ← id]
  cases altersOk t c.name with
  | false => rfl
  | true =>
    rw [if_pos rfl, Option.bind_some]
    by_cases stays : c.id ∈ t.stays
    · rw [if_pos (.inl stays), decide_eq_false (fun no => no stays)]
      rfl
    · by_cases last : t.cols.length ≤ 1
      · rw [if_pos (.inr last), decide_eq_false (by omega : ¬1 < t.cols.length), Bool.and_false]
        rfl
      · rw [if_neg (fun either => either.elim stays last), decide_eq_true stays,
          decide_eq_true (by omega : 1 < t.cols.length)]
        rfl

theorem any_name (name : String) : (t.cols.any fun d => d.name = name) = decide (name ∈ t.cols.map (·.name)) := by
  rw [Bool.eq_iff_iff, List.any_eq_true, decide_eq_true_iff, List.mem_map]
  constructor
  · rintro ⟨d, inside, same⟩
    exact ⟨d, inside, of_decide_eq_true same⟩
  · rintro ⟨d, inside, same⟩
    exact ⟨d, inside, decide_eq_true same⟩

theorem Proper.alter_rename (proper : t.Proper) {w f : Field} {c : Col} (inside : c ∈ t.cols)
    (name : c.name = w.name) (names : List String) (same : ∀ n, n ∈ names ↔ n ∈ t.cols.map (·.name)) :
    t.alter e (.rename (quoted w.name) (quoted f.name)) =
      if renameOk t names w f then some (t.changeColumn c.id fun d => { d with name := f.name }) else none := by
  unfold Table.alter renameOk
  dsimp only
  rw [← name, proper.altered inside]
  cases altersOk t c.name with
  | false => rfl
  | true =>
    rw [if_pos rfl, Option.bind_some, ident_quoted, Option.bind_some, any_name]
    have listed := same f.name
    by_cases none_ : f.name = ""
    · rw [if_pos (.inl none_), decide_eq_false (fun no => no none_)]
      rfl
    · rw [decide_eq_true none_]
      cases is : system f.name with
      | true =>
        rw [if_pos (.inr (.inl rfl))]
        rfl
      | false =>
        by_cases taken : f.name ∈ names
        · rw [if_pos (.inr (.inr (decide_eq_true (listed.mp taken)))), decide_eq_false (fun no => no taken)]
          rfl
        · rw [if_neg, decide_eq_true taken]
          · rfl
          · rintro (empty | reserved | there)
            · exact none_ empty
            · cases reserved
            · exact taken (listed.mpr (of_decide_eq_true there))

theorem Proper.alter_retype (proper : t.Proper) {w f : Field} {c : Col} (inside : c ∈ t.cols)
    (is : c = ⟨w.id.toNat, f.name, w.type⟩) : t.alter e (.retype (quoted f.name) f.type) =
      if retypeOk e t w f then some (t.changeColumn c.id fun d => { d with type := f.type }) else none := by
  have name : c.name = f.name := by rw [is]
  unfold Table.alter retypeOk
  dsimp only
  rw [← name, proper.altered inside, name, ← is]
  cases altersOk t f.name with
  | false => rfl
  | true => rfl

theorem alter_add {f : Field} (names : List String) (same : ∀ n, n ∈ names ↔ n ∈ t.cols.map (·.name)) :
    t.alter e (.add (quoted f.name) f.type) =
      if addOk e names f then some (t.addColumn f.name f.type) else none := by
  unfold Table.alter addOk
  dsimp only
  rw [ident_quoted, Option.bind_some, any_name]
  have listed := same f.name
  by_cases taken : f.name ∈ names
  · rw [if_pos (.inl (decide_eq_true (listed.mp taken))), decide_eq_false (fun no => no taken)]
    rfl
  · rw [decide_eq_true taken, Bool.true_and]
    cases is : e.takes f.name f.type with
    | false =>
      rw [if_pos (.inr Bool.false_ne_true)]
      rfl
    | true =>
      rw [if_neg]
      · rfl
      · rintro (there | refused)
        · exact taken (listed.mpr (of_decide_eq_true there))
        · exact refused rfl

end Table

/-! ### The schema's statements, field by field -/

section walk

/-- The column that a field is published for. -/
def colOf (f : Field) : Col := ⟨f.id.toNat, f.name, f.type⟩

section readers

variable {e : Engine} {t t' : Table} {was : List Field}

theorem altersOk_congr (readers : t'.readers = t.readers) (name : String) : altersOk t' name = altersOk t name := by
  rw [altersOk, altersOk, readers]

theorem fieldOk_congr (readers : t'.readers = t.readers) (names : List String) (f : Field) :
    fieldOk e t' was names f = fieldOk e t was names f := by
  unfold fieldOk renameOk retypeOk
  simp only [altersOk_congr readers]

theorem fieldsOk_congr (readers : t'.readers = t.readers) (earlier : List String) (rest now : List Field) :
    fieldsOk e t' was earlier rest now = fieldsOk e t was earlier rest now := by
  induction now generalizing earlier rest with
  | nil => rfl
  | cons f fs ih => rw [fieldsOk, fieldsOk, fieldOk_congr readers, ih]

theorem dropsOk_congr (follows : t.Follows t') (n : Nat) (fields : List Field) :
    dropsOk t' n fields = dropsOk t n fields := by
  induction fields generalizing n with
  | nil => rfl
  | cons w rest ih =>
    rw [dropsOk, dropsOk, ih, dropOk, dropOk, altersOk_congr follows.readers, follows.stays]

end readers

variable (e : Engine) (was : List Field)

/-- Columns that are gone are dropped one by one, and the others stay. -/
theorem run_drops (P : Field → Bool) (done todo : List Field) {t : Table} (proper : t.Proper)
    (is : t.cols = (done ++ todo).map colOf) :
    (t.run e ((todo.filter P).map fun w => .drop (quoted w.name))).2 =
        dropsOk t t.cols.length (todo.filter P) ∧
      ((t.run e ((todo.filter P).map fun w => .drop (quoted w.name))).2 = true →
        (t.run e ((todo.filter P).map fun w => .drop (quoted w.name))).1.cols =
          (done ++ todo.filter fun w => !P w).map colOf) := by
  induction todo generalizing done t with
  | nil => exact ⟨rfl, fun _ => is⟩
  | cons w rest ih =>
    cases gone : P w with
    | false =>
      rw [List.filter_cons_of_neg (by rw [gone]; exact Bool.false_ne_true),
        List.filter_cons_of_pos (by rw [gone]; rfl)]
      have split_ : t.cols = ((done ++ [w]) ++ rest).map colOf := by
        rw [is, List.append_assoc, List.singleton_append]
      have others := ih (done ++ [w]) proper split_
      rw [List.append_assoc, List.singleton_append] at others
      exact others
    | true =>
      have place : t.cols = done.map colOf ++ colOf w :: rest.map colOf := by
        rw [is, List.map_append, List.map_cons]
      have inside : colOf w ∈ t.cols := by
        rw [place]
        exact List.mem_append_right _ List.mem_cons_self
      rw [List.filter_cons_of_pos gone, List.filter_cons_of_neg (by rw [gone]; exact Bool.false_ne_true),
        List.map_cons, Table.run, proper.alter_drop e inside rfl rfl, dropsOk]
      cases ok : dropOk t t.cols.length w with
      | false => exact ⟨rfl, fun no => by cases no⟩
      | true =>
        obtain ⟨proper', follows⟩ := proper.dropColumn (colOf w)
        have left : (t.dropColumn (colOf w)).cols = (done ++ rest).map colOf := by
          have ids := proper.ids
          unfold Table.dropColumn
          rw [place] at ids ⊢
          rw [List.map_append]
          exact filter_ids ids
        have shorter : (t.dropColumn (colOf w)).cols.length = t.cols.length - 1 := by
          rw [left, place, List.length_map, List.length_append, List.length_append, List.length_cons,
            List.length_map, List.length_map]
          omega
        have others := ih done proper' left
        rw [dropsOk_congr follows, shorter] at others
        rw [if_pos rfl, Bool.true_and]
        exact others

/-- What a kept field's statements leave of its column: itself where the first is refused, another name
or type where it is taken, and the field's where all are. -/
structure Field.Changed (t t' : Table) (names : List String) (w f : Field) (before after : List Col) (c : Col) :
    Prop where
  proper : t'.Proper
  follows : t.Follows t'
  cols : t'.cols = before ++ c :: after
  renamed : w.name ≠ f.name → renameOk t names w f = true → c.name = f.name
  retyped : w.name = f.name → w.type ≠ f.type → retypeOk e t w f = true → c.type = f.type

theorem run_known {w f : Field} (same : w.id = f.id) (known_ : known was f = some w) {t : Table}
    (proper : t.Proper) {before after : List Col} (cols : t.cols = before ++ colOf w :: after)
    (names : List String) (listed : ∀ n, n ∈ names ↔ n ∈ t.cols.map (·.name)) (more : List Statement) :
    ∃ t' c, Field.Changed e t t' names w f before after c ∧
      (fieldOk e t was names f = true →
        c = colOf f ∧ t.run e (statements was f ++ more) = t'.run e more) ∧
      (fieldOk e t was names f = false → t.run e (statements was f ++ more) = (t', false)) := by
  have inside : colOf w ∈ t.cols := by
    rw [cols]
    exact List.mem_append_right _ List.mem_cons_self
  have ids := proper.ids
  rw [cols] at ids
  -- a type asked for, of a table whose column has the field's name
  have typed : ∀ {t₁ : Table}, t₁.Proper → t.Follows t₁ →
      t₁.cols = before ++ ⟨w.id.toNat, f.name, w.type⟩ :: after →
      ∃ t' c, Field.Changed e t t' names w f before after c ∧
        ((decide (w.type = f.type) || retypeOk e t w f) = true → c = colOf f ∧
          t₁.run e ((if w.type ≠ f.type then [.retype (quoted f.name) f.type] else []) ++ more) = t'.run e more) ∧
        ((decide (w.type = f.type) || retypeOk e t w f) = false →
          t₁.run e ((if w.type ≠ f.type then [.retype (quoted f.name) f.type] else []) ++ more) =
            (t', false)) := by
    intro t₁ proper₁ follows₁ cols₁
    by_cases type : w.type = f.type
    · have none_ : ¬w.type ≠ f.type := fun ne => ne type
      rw [if_neg none_, decide_eq_true type, Bool.true_or]
      refine ⟨t₁, ⟨w.id.toNat, f.name, w.type⟩,
        ⟨proper₁, follows₁, cols₁, fun _ _ => rfl, fun _ ne => absurd type ne⟩, fun _ => ?_, fun no => ?_⟩
      · rw [colOf, same, type]
        exact ⟨rfl, rfl⟩
      · cases no
    · have inside₁ : (⟨w.id.toNat, f.name, w.type⟩ : Col) ∈ t₁.cols := by
        rw [cols₁]
        exact List.mem_append_right _ List.mem_cons_self
      have step : t₁.alter e (.retype (quoted f.name) f.type) = if retypeOk e t₁ w f then
          some (t₁.changeColumn w.id.toNat fun d => { d with type := f.type }) else none :=
        proper₁.alter_retype e inside₁ rfl
      have ok : retypeOk e t₁ w f = retypeOk e t w f := by
        rw [retypeOk, retypeOk, altersOk_congr follows₁.readers]
      rw [ok] at step
      rw [if_pos type, decide_eq_false type, Bool.false_or, List.singleton_append, Table.run, step]
      cases wide : retypeOk e t w f with
      | false =>
        rw [if_neg Bool.false_ne_true]
        refine ⟨t₁, _, ⟨proper₁, follows₁, cols₁, fun _ _ => rfl, fun _ _ no => ?_⟩, fun no => ?_, fun _ => rfl⟩
        · rw [wide] at no
          cases no
        · cases no
      | true =>
        obtain ⟨proper₂, follows₂⟩ := proper₁.changeColumn inside₁ (fun d => { d with type := f.type }) rfl (.inl rfl)
        have ids₁ := proper₁.ids
        rw [cols₁] at ids₁
        have cols₂ : (t₁.changeColumn w.id.toNat fun d => { d with type := f.type }).cols =
            before ++ ⟨w.id.toNat, f.name, f.type⟩ :: after := by
          unfold Table.changeColumn
          rw [cols₁]
          exact map_ids ids₁ _
        rw [if_pos rfl]
        refine ⟨_, _, ⟨proper₂, follows₁.trans follows₂, cols₂, fun _ _ => rfl, fun _ _ _ => rfl⟩,
          fun _ => ?_, fun no => ?_⟩
        · rw [colOf, same]
          exact ⟨rfl, rfl⟩
        · cases no
  unfold fieldOk statements
  rw [known_]
  dsimp only
  by_cases name : w.name = f.name
  · have none_ : ¬w.name ≠ f.name := fun ne => ne name
    rw [if_neg none_, decide_eq_true name, Bool.true_or, Bool.true_and, List.nil_append]
    apply typed proper (.refl t)
    rw [cols, colOf, name]
  · have step := proper.alter_rename e (w := w) (f := f) inside rfl names listed
    rw [if_pos name, decide_eq_false name, Bool.false_or, List.append_assoc, List.singleton_append, Table.run, step]
    cases free : renameOk t names w f with
    | false =>
      rw [Bool.false_and, if_neg Bool.false_ne_true]
      refine ⟨t, colOf w, ⟨proper, .refl t, cols, fun _ no => ?_, fun eq => absurd eq name⟩,
        fun no => ?_, fun _ => rfl⟩
      · rw [free] at no
        cases no
      · cases no
    | true =>
      have not_in : f.name ∉ t.cols.map (·.name) := by
        unfold renameOk at free
        rw [Bool.and_eq_true, decide_eq_true_iff] at free
        exact fun there => free.2 ((listed _).mpr there)
      obtain ⟨proper₁, follows₁⟩ := proper.changeColumn inside (fun d => { d with name := f.name }) rfl (.inr not_in)
      have cols₁ : (t.changeColumn (colOf w).id fun d => { d with name := f.name }).cols =
          before ++ ⟨w.id.toNat, f.name, w.type⟩ :: after := by
        unfold Table.changeColumn
        rw [cols]
        exact map_ids ids _
      rw [Bool.true_and, if_pos rfl]
      exact typed proper₁ follows₁ cols₁

/-- What fields' statements leave: the columns they started with stay first. -/
structure Walked (t : Table) (earlier : List String) (rest now : List Field) (done adds : List Col)
    (r : Table × Bool) : Prop where
  ok : r.2 = fieldsOk e t was earlier rest now
  cols : r.2 = true → ∃ news : List Col, r.1.cols =
      done ++ (now.filter (isKept was)).map colOf ++ adds ++ news ∧
    news.map (fun c => (c.name, c.type)) = (now.filter fun f => !isKept was f).map fun f => (f.name, f.type)
  first : done <+: r.1.cols

theorem known_none {f : Field} (fresh : isKept was f = false) : known was f = none := by
  apply List.find?_eq_none.mpr
  intro w inside same
  have listed : isKept was f = true := List.any_eq_true.mpr ⟨w, inside, same⟩
  rw [fresh] at listed
  cases listed

theorem run_fields (now : List Field) {t : Table} (proper : t.Proper) {done adds : List Col} {rest : List Field}
    (cols : t.cols = done ++ rest.map colOf ++ adds)
    (order : (now.filter (isKept was)).map (·.id) = rest.map (·.id))
    (each : ∀ w ∈ rest, ∀ f : Field, w.id = f.id → known was f = some w) {earlier : List String}
    (listed : ∀ n, n ∈ earlier ↔ n ∈ (done ++ adds).map (·.name)) :
    Walked e was t earlier rest now done adds (t.run e (now.flatMap (statements was))) := by
  induction now generalizing t done adds rest earlier with
  | nil =>
    have none_ : rest = [] := List.map_eq_nil_iff.mp order.symm
    refine ⟨rfl, fun _ => ⟨[], ?_, rfl⟩, ?_⟩
    · rw [List.flatMap_nil, Table.run, cols, none_, List.append_nil]
      rfl
    · rw [List.flatMap_nil, Table.run, cols, List.append_assoc]
      exact List.prefix_append _ _
  | cons f fs ih =>
    have names : ∀ n, n ∈ earlier ++ rest.map (·.name) ↔ n ∈ t.cols.map (·.name) := by
      intro n
      rw [cols, List.mem_append, listed n]
      simp only [List.map_append, List.mem_append, List.map_map]
      have same : rest.map ((fun c : Col => c.name) ∘ colOf) = rest.map (·.name) := rfl
      rw [same]
      tauto
    rw [List.flatMap_cons]
    cases old : isKept was f with
    | true =>
      rw [List.filter_cons_of_pos old] at order
      cases rest with
      | nil => cases order
      | cons w rest =>
        rw [List.map_cons, List.map_cons, List.cons.injEq] at order
        have known_ := each w List.mem_cons_self f order.1.symm
        have place : t.cols = done ++ colOf w :: (rest.map colOf ++ adds) := by
          rw [cols, List.map_cons, List.append_assoc, List.cons_append]
        obtain ⟨t', c, changed, taken, refused⟩ := run_known e was order.1.symm known_ proper place _ names
          (fs.flatMap (statements was))
        cases ok : fieldOk e t was (earlier ++ (w :: rest).map (·.name)) f with
        | false =>
          rw [refused ok]
          refine ⟨?_, fun no => (by cases no), ?_⟩
          · rw [fieldsOk, ok]
            rfl
          · rw [changed.cols]
            exact List.prefix_append _ _
        | true =>
          obtain ⟨is, run⟩ := taken ok
          have cols' : t'.cols = (done ++ [colOf f]) ++ rest.map colOf ++ adds := by
            rw [changed.cols, is]
            simp only [List.append_assoc, List.cons_append, List.nil_append]
          have listed' : ∀ n, n ∈ earlier ++ [f.name] ↔ n ∈ ((done ++ [colOf f]) ++ adds).map (·.name) := by
            intro n
            rw [List.mem_append, listed n]
            simp only [List.map_append, List.mem_append, List.map_cons, List.map_nil, List.mem_singleton, colOf]
            tauto
          have walked := ih changed.proper cols' order.2
            (fun w inside => each w (List.mem_cons_of_mem _ inside)) listed'
          rw [run]
          refine ⟨?_, fun all => ?_, ?_⟩
          · rw [walked.ok, fieldsOk, ok, old, fieldsOk_congr changed.follows.readers]
            rfl
          · obtain ⟨news, left, types⟩ := walked.cols all
            refine ⟨news, ?_, ?_⟩
            · rw [left, List.filter_cons_of_pos old, List.map_cons]
              simp only [List.append_assoc, List.cons_append, List.nil_append]
            · rw [types, List.filter_cons_of_neg (by rw [old]; exact Bool.false_ne_true)]
          · exact (List.prefix_append _ _).trans walked.first
    | false =>
      rw [List.filter_cons_of_neg (by rw [old]; exact Bool.false_ne_true)] at order
      have sql : statements was f = [.add (quoted f.name) f.type] := by
        unfold statements
        rw [known_none was old]
      have step := Table.alter_add e (f := f) _ names
      have field : fieldOk e t was (earlier ++ rest.map (·.name)) f = addOk e (earlier ++ rest.map (·.name)) f := by
        unfold fieldOk
        rw [known_none was old]
      rw [sql, List.singleton_append, Table.run, step]
      cases ok : addOk e (earlier ++ rest.map (·.name)) f with
      | false =>
        rw [if_neg Bool.false_ne_true]
        refine ⟨?_, fun no => (by cases no), ?_⟩
        · rw [fieldsOk, field, ok]
          rfl
        · rw [cols, List.append_assoc]
          exact List.prefix_append _ _
      | true =>
        have free : f.name ∉ t.cols.map (·.name) := by
          unfold addOk at ok
          rw [Bool.and_eq_true, decide_eq_true_iff] at ok
          exact fun there => ok.1 ((names _).mpr there)
        obtain ⟨proper', follows⟩ := proper.addColumn free f.type
        have cols' : (t.addColumn f.name f.type).cols = done ++ rest.map colOf ++ (adds ++ [⟨t.next, f.name, f.type⟩]) := by
          unfold Table.addColumn
          rw [cols, List.append_assoc]
        have listed' : ∀ n, n ∈ earlier ++ [f.name] ↔
            n ∈ (done ++ (adds ++ [(⟨t.next, f.name, f.type⟩ : Col)])).map (·.name) := by
          intro n
          rw [List.mem_append, listed n]
          simp only [List.map_append, List.mem_append, List.map_cons, List.map_nil, List.mem_singleton]
          tauto
        have walked := ih proper' cols' order each listed'
        rw [if_pos rfl]
        dsimp only
        refine ⟨?_, fun all => ?_, walked.first⟩
        · rw [walked.ok, fieldsOk, field, ok, old, fieldsOk_congr follows.readers]
          rfl
        · obtain ⟨news, left, types⟩ := walked.cols all
          refine ⟨⟨t.next, f.name, f.type⟩ :: news, ?_, ?_⟩
          · rw [left, List.filter_cons_of_neg (by rw [old]; exact Bool.false_ne_true)]
            simp only [List.append_assoc, List.singleton_append]
          · rw [List.map_cons, types, List.filter_cons_of_pos (by rw [old]; rfl), List.map_cons]

end walk

end Pondra.Iceberg
