import Mathlib.Data.List.Nodup
import Mathlib.Data.List.Perm.Subperm
import Pondra.Avro.Writer
import Pondra.Base.Dict

set_option autoImplicit false

namespace Pondra.Avro

open Bytes

/-! ### Shapes -/

inductive Shape where
  | null
  | boolean
  | number
  | string
  | array
  | object
deriving DecidableEq

def Json.shape : Json → Shape
  | .null => .null
  | .bool _ => .boolean
  | .int _ => .number
  | .float _ => .number
  | .string _ => .string
  | .array _ => .array
  | .object _ => .object

section shapes

variable (names : Names)

/-- The JSON shape of the values of a named type. -/
def shapeName (n : String) : Option Shape :=
  match primitive n with
  | some .null => some .null
  | some .boolean => some .boolean
  | some .int | some .long | some .float | some .double => some .number
  | some .bytes | some .string => some .string
  | none => (names.lookup n).map fun d =>
    match d.kind with
    | .record => .object
    | .enum | .fixed => .string

/-- The JSON shape of a type's values (a union has none of its own). -/
def shape (t : Json) : Option Shape :=
  match t with
  | .string n => shapeName names n
  | .object entries =>
    (textAt entries "type").bind fun t =>
      match complex t with
      | some .record | some .map => some .object
      | some .array => some .array
      | some .fixed | some .enum => some .string
      | none => shapeName names t
  | _ => none

/-- Branches of distinct shapes. -/
def Distinct (branches : List Json) : Prop :=
  (∀ t ∈ branches, (shape names t).isSome = true) ∧ (branches.map (shape names)).Nodup

instance (branches : List Json) : Decidable (Distinct names branches) :=
  inferInstanceAs (Decidable (_ ∧ _))

theorem isString_shape (v : Json) (string : v.isString = true) : v.shape = .string := by
  cases v <;> first | rfl | cases string

theorem isObject_shape (v : Json) (object : v.isObject = true) : v.shape = .object := by
  cases v <;> first | rfl | cases object

theorem long_shape (v : Json) (some_ : v.long.isSome = true) : v.shape = .number := by
  cases v <;> first | rfl | cases some_

/-- A named type's values have its shape. -/
theorem fitsName_shape (n : String) (v : Json) (fit : fitsName names n v = true) :
    shapeName names n = some v.shape := by
  unfold fitsName at fit
  unfold shapeName
  cases plain : primitive n with
  | none =>
    rw [plain] at fit
    cases found : names.lookup n with
    | none =>
      rw [found] at fit
      cases fit
    | some d =>
      rw [found] at fit
      dsimp only [Option.any_some, Option.map_some] at fit ⊢
      cases kind : d.kind with
      | record =>
        rw [kind] at fit
        rw [isObject_shape v fit]
      | enum =>
        rw [kind] at fit
        rw [isString_shape v fit]
      | fixed =>
        rw [kind] at fit
        rw [isString_shape v fit]
  | some p =>
    rw [plain] at fit
    cases p with
    | int => rw [long_shape v fit]
    | long => rw [long_shape v fit]
    | bytes => rw [isString_shape v fit]
    | string => rw [isString_shape v fit]
    | null => cases v <;> first | rfl | cases fit
    | boolean => cases v <;> first | rfl | cases fit
    | float => cases v <;> first | rfl | cases fit
    | double => cases v <;> first | rfl | cases fit

theorem fits_shape (t v : Json) (fit : fits names t v = true) : shape names t = some v.shape := by
  unfold fits at fit
  unfold shape
  cases t with
  | string n => exact fitsName_shape names n v fit
  | object entries =>
    dsimp only at fit ⊢
    cases type_ : textAt entries "type" with
    | none =>
      rw [type_] at fit
      cases fit
    | some t =>
      rw [type_] at fit
      dsimp only [Option.bind_some] at fit ⊢
      cases form : complex t with
      | none =>
        rw [form] at fit
        exact fitsName_shape names t v fit
      | some c =>
        rw [form] at fit
        cases c with
        | record => rw [isObject_shape v fit]
        | map => rw [isObject_shape v fit]
        | enum => rw [isString_shape v fit]
        | fixed => rw [isString_shape v fit]
        | array => cases v <;> first | rfl | cases fit
  | _ => cases fit

end shapes

/-! ### Values of a schema -/

/-- A field's name. -/
def fieldName (f : Json) : String := ((f.field "name").str).getD ""

section typed

variable (o : Outside) (names : Names)

/-- A value of a type, and the value that it is read back as: the same, where each field that a
record leaves out is null. No list is longer than memory holds. -/
inductive Back : Json → Json → Json → Prop where
  | null {t : String} (plain : primitive t = some .null) : Back (.string t) .null .null
  | boolean {t : String} {yes : Bool} (plain : primitive t = some .boolean) :
      Back (.string t) (.bool yes) (.bool yes)
  | long {t : String} {n : Int} (plain : primitive t = some .int ∨ primitive t = some .long)
      (low : -2 ^ 63 ≤ n) (high : n < 2 ^ 63) : Back (.string t) (.int n) (.int n)
  | float {t : String} {bits : Nat} (plain : primitive t = some .float)
      (small : o.narrow bits < 256 ^ 4) (exact_ : number (o.widen (o.narrow bits)) = .float bits) :
      Back (.string t) (.float bits) (.float bits)
  | double {t : String} {bits : Nat} (plain : primitive t = some .double) (small : bits < 256 ^ 8)
      (finite : number bits = .float bits) : Back (.string t) (.float bits) (.float bits)
  | bytes {t : String} {raw : List UInt8} (plain : primitive t = some .bytes) :
      Back (.string t) (hexText raw) (hexText raw)
  | string {t text : String} (plain : primitive t = some .string) :
      Back (.string t) (.string text) (.string text)
  | named {t : String} {d : Definition} {v w : Json} (plain : primitive t = none)
      (found : names.lookup t = some d) (inner : Back (.object d.entries) v w) : Back (.string t) v w
  | union {branches : List Json} {i : Nat} {t v w : Json} (apart : Distinct names branches)
      (here : branches[i]? = some t) (inner : Back t v w) : Back (.array branches) v w
  | record {entries es : List (String × Json)} {t : String} {w : Json → Json}
      (type_ : textAt entries "type" = some t) (form : complex t = some .record)
      (once : ((fields entries).map fieldName).Nodup)
      (own : ∀ e ∈ es, e.1 ∈ (fields entries).map fieldName)
      (each : ∀ f ∈ fields entries, Back (f.field "type") (given (.object es) f) (w f)) :
      Back (.object entries) (.object es) (objectOf ((fields entries).map fun f => (fieldName f, w f)))
  | enum {entries : List (String × Json)} {t text : String} {symbols : Json} {i : Nat}
      (type_ : textAt entries "type" = some t) (form : complex t = some .enum)
      (found : entries.lookup "symbols" = some symbols) (small : symbols.items.length < 2 ^ 63)
      (here : symbols.items[i]? = some (.string text)) :
      Back (.object entries) (.string text) (.string text)
  | array {entries : List (String × Json)} {t : String} {item : Json} {pairs : List (Json × Json)}
      (type_ : textAt entries "type" = some t) (form : complex t = some .array)
      (found : entries.lookup "items" = some item) (small : pairs.length < 2 ^ 63)
      (each : ∀ p ∈ pairs, Back item p.1 p.2) :
      Back (.object entries) (.array (pairs.map Prod.fst)) (.array (pairs.map Prod.snd))
  | map {entries : List (String × Json)} {t : String} {item : Json}
      {pairs : List (String × Json × Json)}
      (type_ : textAt entries "type" = some t) (form : complex t = some .map)
      (found : entries.lookup "values" = some item) (small : pairs.length < 2 ^ 63)
      (once : (pairs.map Prod.fst).Nodup) (each : ∀ p ∈ pairs, Back item p.2.1 p.2.2) :
      Back (.object entries) (.object (pairs.map fun p => (p.1, p.2.1)))
        (objectOf (pairs.map fun p => (p.1, p.2.2)))
  | fixed {entries : List (String × Json)} {t : String} {raw : List UInt8}
      (type_ : textAt entries "type" = some t) (form : complex t = some .fixed)
      (found : entries.lookup "size" = some (.int raw.length)) :
      Back (.object entries) (hexText raw) (hexText raw)
  | annotated {entries : List (String × Json)} {t : String} {v w : Json}
      (type_ : textAt entries "type" = some t) (form : complex t = none)
      (inner : Back (.string t) v w) : Back (.object entries) v w

/-- `w` is `v`, with null for what its records leave out. -/
inductive Filled : Json → Json → Prop where
  | same (v : Json) : Filled v v
  | array {pairs : List (Json × Json)} (each : ∀ p ∈ pairs, Filled p.1 p.2) :
      Filled (.array (pairs.map Prod.fst)) (.array (pairs.map Prod.snd))
  | object {es ws : List (String × Json)}
      (each : ∀ key v w, es.lookup key = some v → ws.lookup key = some w → Filled v w)
      (kept : ∀ key v, es.lookup key = some v → (ws.lookup key).isSome)
      (added : ∀ key w, ws.lookup key = some w → es.lookup key = none → w = .null) :
      Filled (.object es) (.object ws)

variable {o names}

theorem lookup_cons_if (first : String × Json) (rest : List (String × Json)) (key : String) :
    (first :: rest).lookup key = if key = first.1 then some first.2 else rest.lookup key := by
  rw [List.lookup_cons]
  by_cases same : key = first.1
  · rw [if_pos same, beq_iff_eq.mpr same]
  · rw [if_neg same, beq_false_of_ne same]

theorem lookup_insert (entries : List (String × Json)) (entry : String × Json) (key : String) :
    (insert entries entry).lookup key = if key = entry.1 then some entry.2 else entries.lookup key := by
  induction entries with
  | nil => exact lookup_cons_if entry [] key
  | cons first rest ih =>
    unfold insert
    by_cases less : entry.1 < first.1
    · rw [if_pos less, lookup_cons_if]
    · by_cases equal : entry.1 = first.1
      · rw [if_neg less, if_pos equal, lookup_cons_if, lookup_cons_if, ← equal]
        by_cases same : key = entry.1
        · rw [if_pos same, if_pos same]
        · rw [if_neg same, if_neg same, if_neg same]
      · rw [if_neg less, if_neg equal, lookup_cons_if, lookup_cons_if, ih]
        by_cases same : key = first.1
        · rw [if_pos same, if_neg fun is => equal (is.symm.trans same)]
          rw [if_pos same]
        · rw [if_neg same, if_neg same]

/-- Entries of different keys, put one after another, are found as they were given. -/
theorem lookup_foldl (pairs entries : List (String × Json)) (key : String)
    (once : (pairs.map Prod.fst).Nodup) :
    (pairs.foldl insert entries).lookup key = (pairs.lookup key).or (entries.lookup key) := by
  induction pairs generalizing entries with
  | nil => rfl
  | cons p rest ih =>
    rw [List.map_cons, List.nodup_cons] at once
    rw [List.foldl_cons, ih _ once.2, lookup_insert, lookup_cons_if]
    by_cases same : key = p.1
    · have gone : rest.lookup key = none := by
        rw [List.lookup_eq_none_iff]
        intro q inside
        rw [bne_iff_ne]
        intro is
        exact once.1 (List.mem_map.mpr ⟨q, inside, is.symm.trans same⟩)
      rw [if_pos same, if_pos same, gone, Option.none_or, Option.some_or]
    · rw [if_neg same, if_neg same]

theorem objectOf_lookup {pairs : List (String × Json)} (once : (pairs.map Prod.fst).Nodup)
    (key : String) : (pairs.foldl insert []).lookup key = pairs.lookup key := by
  rw [lookup_foldl pairs [] key once, List.lookup_nil, Option.or_none]

theorem lookup_map {α : Type} (items : List α) (name : α → String) (value : α → Json) {x : α}
    (once : (items.map name).Nodup) (inside : x ∈ items) :
    (items.map fun x => (name x, value x)).lookup (name x) = some (value x) := by
  induction items with
  | nil => cases inside
  | cons first rest ih =>
    rw [List.map_cons, List.nodup_cons] at once
    rw [List.map_cons, lookup_cons_if]
    rcases List.mem_cons.mp inside with rfl | inside
    · rw [if_pos rfl]
    · have apart : name x ≠ name first := fun same =>
        once.1 (List.mem_map.mpr ⟨x, inside, same⟩)
      rw [if_neg apart]
      exact ih once.2 inside

/-- Null is read back as null. -/
theorem Back.of_null {s w : Json} (back : Back o names s .null w) : w = .null := by
  generalize is : Json.null = v at back
  induction back with
  | null => rfl
  | named _ _ _ ih => exact ih is
  | union _ _ _ ih => exact ih is
  | annotated _ _ _ ih => exact ih is
  | bytes => cases is
  | fixed => cases is
  | _ => cases is

theorem given_eq (es : List (String × Json)) (f : Json) :
    given (.object es) f = ((es.lookup (fieldName f)).getD .null) := rfl

/-- What a value is read back as is the value, with null for what its records leave out. -/
theorem Back.filled {s v w : Json} (back : Back o names s v w) : Filled v w := by
  induction back with
  | null => exact .same _
  | boolean => exact .same _
  | long => exact .same _
  | float => exact .same _
  | double => exact .same _
  | bytes => exact .same _
  | string => exact .same _
  | enum => exact .same _
  | fixed => exact .same _
  | named _ _ _ ih => exact ih
  | union _ _ _ ih => exact ih
  | annotated _ _ _ ih => exact ih
  | array _ _ _ _ _ ih => exact .array ih
  | @record entries es t w type_ form once own each ih =>
    have once' : (((fields entries).map fun f => (fieldName f, w f)).map Prod.fst).Nodup := by
      rw [List.map_map]
      exact once
    have there : ∀ f ∈ fields entries, (((fields entries).map fun f => (fieldName f, w f)).foldl
        insert []).lookup (fieldName f) = some (w f) := fun f inside => by
      rw [objectOf_lookup once', lookup_map (fields entries) fieldName w once inside]
    refine .object ?_ ?_ ?_
    · intro key v w' held back
      obtain ⟨f, inside, rfl⟩ := List.mem_map.mp (own _ (Dicts.mem_of_lookup key es v held))
      rw [there f inside] at back
      cases back
      have filled := ih f inside
      rw [given_eq, held] at filled
      exact filled
    · intro key v held
      obtain ⟨f, inside, rfl⟩ := List.mem_map.mp (own _ (Dicts.mem_of_lookup key es v held))
      rw [there f inside]
      rfl
    · intro key w' held gone
      rw [objectOf_lookup once'] at held
      obtain ⟨f, inside, same⟩ := List.mem_map.mp (Dicts.mem_of_lookup key _ w' held)
      cases same
      have back := each f inside
      rw [given_eq, gone] at back
      exact back.of_null
  | @map entries t item pairs type_ form found small once each ih =>
    have once' : ((pairs.map fun p => (p.1, p.2.2)).map Prod.fst).Nodup := by
      rw [List.map_map]
      exact once
    refine .object ?_ ?_ ?_
    · intro key v w' held back
      obtain ⟨p, inside, same⟩ := List.mem_map.mp (Dicts.mem_of_lookup key _ v held)
      cases same
      rw [objectOf_lookup once', lookup_map pairs Prod.fst (fun p => p.2.2) once inside] at back
      cases back
      exact ih p inside
    · intro key v held
      obtain ⟨p, inside, same⟩ := List.mem_map.mp (Dicts.mem_of_lookup key _ v held)
      cases same
      rw [objectOf_lookup once', lookup_map pairs Prod.fst (fun p => p.2.2) once inside]
      rfl
    · intro key w' held gone
      rw [objectOf_lookup once'] at held
      obtain ⟨p, inside, same⟩ := List.mem_map.mp (Dicts.mem_of_lookup key _ w' held)
      cases same
      rw [lookup_map pairs Prod.fst (fun p => p.2.1) once inside] at gone
      cases gone

/-! ### A union's branch -/

/-- The JSON values a complex type takes. -/
def Complex.takes (c : Complex) (v : Json) : Bool :=
  match c with
  | .record | .map => v.isObject
  | .array => match v with
    | .array _ => true
    | _ => false
  | .fixed | .enum => v.isString

theorem Back.takes {entries : List (String × Json)} {t : String} {c : Complex} {v w : Json}
    (back : Back o names (.object entries) v w) (type_ : textAt entries "type" = some t)
    (form : complex t = some c) : c.takes v = true := by
  cases back with
  | record type_' form' =>
    cases type_.symm.trans type_'
    cases form.symm.trans form'
    rfl
  | enum type_' form' =>
    cases type_.symm.trans type_'
    cases form.symm.trans form'
    rfl
  | array type_' form' =>
    cases type_.symm.trans type_'
    cases form.symm.trans form'
    rfl
  | map type_' form' =>
    cases type_.symm.trans type_'
    cases form.symm.trans form'
    rfl
  | fixed type_' form' =>
    cases type_.symm.trans type_'
    cases form.symm.trans form'
    rfl
  | annotated type_' form' =>
    cases type_.symm.trans type_'
    cases form.symm.trans form'

theorem fitsName_of {t : String} {v w : Json} (back : Back o names (.string t) v w) :
    fitsName names t v = true := by
  unfold fitsName
  cases back with
  | null plain => rw [plain]
  | boolean plain => rw [plain]
  | @long _ n plain low high =>
    have long : (Json.int n).long.isSome = true := by
      rw [Json.long, if_pos ⟨low, high⟩]
      rfl
    rcases plain with plain | plain <;>
      · rw [plain]
        exact long
  | float plain => rw [plain]
  | double plain => rw [plain]
  | bytes plain =>
    rw [plain]
    rfl
  | string plain =>
    rw [plain]
    rfl
  | @named _ d _ _ plain found inner =>
    rw [plain]
    dsimp only
    rw [found, Option.any_some]
    have type_ : textAt d.entries "type" = some d.kind.text := by
      rw [textAt, d.type_]
      rfl
    cases kind : d.kind with
    | record =>
      rw [kind] at type_
      exact inner.takes type_ rfl
    | enum =>
      rw [kind] at type_
      exact inner.takes type_ rfl
    | fixed =>
      rw [kind] at type_
      exact inner.takes type_ rfl

/-- A value of a type that isn't a union fits it. -/
theorem Back.fits {t v w : Json} (back : Back o names t v w) (alone : (shape names t).isSome = true) :
    fits names t v = true := by
  cases t with
  | string n => exact fitsName_of back
  | object entries =>
    unfold Avro.fits
    cases back with
    | record type_ form =>
      dsimp only
      rw [type_]
      dsimp only
      rw [form]
      rfl
    | enum type_ form =>
      dsimp only
      rw [type_]
      dsimp only
      rw [form]
      rfl
    | array type_ form =>
      dsimp only
      rw [type_]
      dsimp only
      rw [form]
    | map type_ form =>
      dsimp only
      rw [type_]
      dsimp only
      rw [form]
      rfl
    | fixed type_ form =>
      dsimp only
      rw [type_]
      dsimp only
      rw [form]
      rfl
    | annotated type_ form inner =>
      dsimp only
      rw [type_]
      dsimp only
      rw [form]
      exact fitsName_of inner
  | _ => cases alone

/-- Of branches of distinct shapes, a value's own is the first that it fits. -/
theorem branch_of {branches : List Json} {i : Nat} {t v w : Json} (apart : Distinct names branches)
    (here : branches[i]? = some t) (back : Back o names t v w) :
    branches.findIdx? (fun t => fits names t v) = some i := by
  obtain ⟨inside, is⟩ := List.getElem?_eq_some_iff.mp here
  have fit := back.fits (apart.1 t (List.mem_of_getElem? here))
  rw [List.findIdx?_eq_some_iff_getElem]
  refine ⟨inside, by rw [is]; exact fit, ?_⟩
  intro j before other
  have there : j < branches.length := Nat.lt_trans before inside
  have same : shape names branches[j] = shape names branches[i] := by
    rw [fits_shape names _ v other, is, fits_shape names _ v fit]
  have nodup := List.nodup_iff_injective_getElem.mp apart.2
  have equal : (⟨j, by rw [List.length_map]; exact there⟩ : Fin (branches.map (shape names)).length) =
      ⟨i, by rw [List.length_map]; exact inside⟩ := nodup (by simpa using same)
  exact absurd (Fin.mk.inj equal) (Nat.ne_of_lt before)

/-- There are no more branches than shapes. -/
theorem branches_few {branches : List Json} (apart : Distinct names branches) : branches.length ≤ 6 := by
  have few : (branches.map (shape names)).Subperm
      [some .null, some .boolean, some .number, some .string, some .array, some .object] := by
    apply List.subperm_of_subset apart.2
    intro s inside
    obtain ⟨t, there, rfl⟩ := List.mem_map.mp inside
    obtain ⟨s, is⟩ := Option.isSome_iff_exists.mp (apart.1 t there)
    rw [is]
    cases s <;> decide
  have most := few.length_le
  rw [List.length_map] at most
  exact most

end typed

end Pondra.Avro
