import Cadence.Config.Json
import Cadence.Proofs.Decimal.Finite

/-!
# Records written in JSON and read again

A record is written as the members of those of its fields that have a value, in the order of the
fields. What is read of each field is what was written, whichever of the others are missing: the
fields are looked up by name, and no two of them have the same.

## Main definitions

* `Json.members` — the members of the fields that have a value

## Main results

* `Json.fields?_members` — the fields that are read are the fields that were written
* `Json.tagged?_tagged` — so are the kind of a tagged record and the record itself
* `Json.fitsMembers_members` — a record whose fields fit can be held on to as a whole
* `Json.word64?_ofWord`, `Json.word32?_ofWord`, `Json.real?_ofReal`, `Json.list?_map`,
  `Config.optionalField_map` — the values of single fields
-/

namespace Cadence

/-- A reader that succeeds on each item succeeds on a list. -/
theorem mapM_eq_some_map {α β : Type} {f : α → Option β} {g : α → β} {xs : List α}
    (h : ∀ x ∈ xs, f x = some (g x)) : xs.mapM f = some (xs.map g) := by
  induction xs with
  | nil => rfl
  | cons x xs ih =>
    have hxs := ih fun y hy => h y (List.mem_cons_of_mem x hy)
    simp [List.mapM_cons, h x List.mem_cons_self, hxs]

namespace Json

/-! ### Single fields -/

@[simp]
theorem word64?_ofWord (n : UInt64) : word64? (ofWord n) = some n := by
  have hlt : n.toNat < 18446744073709551616 := n.toNat_lt
  simp [ofWord, word64?, hlt]

@[simp]
theorem word32?_ofWord (n : UInt32) : word32? (ofWord n.toUInt64) = some n := by
  have hlt : n.toNat < 4294967296 := n.toNat_lt
  simp [ofWord, word32?, hlt]

theorem real?_ofReal {x : Float} (h : x.isFinite = true) : real? (ofReal x) = some x := by
  simp [ofReal, h, real?, Number.float?]

/-- Only finite numbers are read. -/
theorem isFinite_of_real? {json : Json} {x : Float} (h : json.real? = some x) :
    x.isFinite = true := by
  cases json with
  | number n =>
    simp only [real?, Number.float?, Option.ite_none_right_eq_some] at h
    obtain ⟨hfinite, hx⟩ := h
    exact Option.some.inj hx ▸ hfinite
  | _ => cases h

theorem list?_map {α : Type} {read? : Json → Option α} {write : α → Json}
    (h : ∀ x, read? (write x) = some x) (xs : List α) :
    list? read? (.array (xs.map write)) = some xs := by
  have hmap : xs.mapM (fun x => read? (write x)) = some (xs.map id) :=
    mapM_eq_some_map fun x _ => h x
  simpa [list?, List.mapM_map, Function.comp_def] using hmap

/-! ### Fields of records -/

/-- The members of the fields that have a value. -/
def members (fields : List (String × Option Json)) : List Member :=
  fields.flatMap fun field => Config.memberOf field.1 field.2

variable {fields : List (String × Option Json)} {name : String} {value : Option Json}

theorem members_cons (name : String) (value : Option Json) :
    members ((name, value) :: fields) = Config.memberOf name value ++ members fields := rfl

theorem mem_members {member : Member} :
    member ∈ members fields ↔
      ∃ field ∈ fields, ∃ value, field.2 = some value ∧ member = (some field.1, value) := by
  simp [members, Config.memberOf, eq_comm]

theorem named_append (name : String) (ms ms' : List Member) :
    named name (ms ++ ms') = named name ms ++ named name ms' := by
  simp [named]

theorem named_memberOf (name name' : String) (value : Option Json) :
    named name (Config.memberOf name' value) = if name' = name then value.toList else [] := by
  cases value with
  | none => simp [named, Config.memberOf]
  | some value => by_cases h : name' = name <;> simp [named, Config.memberOf, h]

theorem named_members_of_not_mem (h : name ∉ fields.map Prod.fst) :
    named name (members fields) = [] := by
  simp only [named, List.map_eq_nil_iff, List.filter_eq_nil_iff, mem_members]
  rintro member ⟨field, hfield, value, -, rfl⟩
  have hne : field.1 ≠ name := fun heq => h (List.mem_map.mpr ⟨field, hfield, heq⟩)
  simpa using hne

theorem named_members (hnodup : (fields.map Prod.fst).Nodup) (h : (name, value) ∈ fields) :
    named name (members fields) = value.toList := by
  induction fields with
  | nil => cases h
  | cons field fields ih =>
    rw [List.map_cons, List.nodup_cons] at hnodup
    rw [members_cons, named_append, named_memberOf]
    rcases List.mem_cons.mp h with rfl | hmem
    · rw [if_pos rfl, named_members_of_not_mem hnodup.1, List.append_nil]
    · have hne : field.1 ≠ name := by
        rintro rfl
        exact hnodup.1 (List.mem_map.mpr ⟨_, hmem, rfl⟩)
      rw [if_neg hne, ih hnodup.2 hmem, List.nil_append]

theorem single?_members (hnodup : (fields.map Prod.fst).Nodup) (h : (name, value) ∈ fields) :
    single? name (members fields) = some value := by
  rw [single?, named_members hnodup h]
  cases value <;> rfl

/-- What is read of the fields of a record is what was written of them. -/
theorem fields?_members (hnodup : (fields.map Prod.fst).Nodup) :
    (object (members fields)).fields? true (fields.map Prod.fst) = some (fields.map Prod.snd) := by
  have hnamed : (members fields).all fun member =>
      member.1.any fun name => true || (fields.map Prod.fst).contains name := by
    rw [List.all_eq_true]
    intro member hmember
    obtain ⟨field, -, value, -, rfl⟩ := mem_members.mp hmember
    rfl
  rw [fields?, if_pos hnamed, List.mapM_map]
  exact mapM_eq_some_map fun field hfield => single?_members hnodup hfield

/-- A tagged record is read as its kind and the record itself, if none of its fields is named like
the kind. -/
theorem tagged?_tagged (kind : String) (h : "kind" ∉ fields.map Prod.fst) :
    (Backoff.tagged kind (members fields)).tagged? "kind" =
      some (kind, object (members fields)) := by
  have hnamed : named "kind" ((some "kind", text (some kind)) :: members fields) =
      [text (some kind)] := by
    rw [← List.singleton_append, named_append, named_members_of_not_mem h]
    rfl
  have hfilter : (members fields).filter (fun member => member.1 != some "kind") =
      members fields := by
    rw [List.filter_eq_self]
    intro member hmember
    obtain ⟨field, hfield, value, -, rfl⟩ := mem_members.mp hmember
    have hne : field.1 ≠ "kind" := fun heq => h (List.mem_map.mpr ⟨field, hfield, heq⟩)
    simpa using hne
  simp [Backoff.tagged, tagged?, hnamed, hfilter]

/-! ### Holding on to a record -/

@[simp]
theorem fits_ofWord (levels : Nat) (n : UInt64) : (ofWord n).fits levels = true := by
  have hfinite : (Float.ofInt n.toNat).isFinite = true := isFinite_ofNat n.toNat_lt
  simp [ofWord, fits, Number.float?, hfinite]

@[simp]
theorem fits_ofReal (levels : Nat) (x : Float) : (ofReal x).fits levels = true := by
  unfold ofReal
  split
  · next h => simp [fits, Number.float?, h]
  · rfl

theorem fitsItems_eq_all (levels : Nat) (items : List Json) :
    fitsItems levels items = items.all (fits levels) := by
  induction items with
  | nil => rfl
  | cons item items ih => rw [fitsItems, ih, List.all_cons]

theorem fitsMembers_eq_all (levels : Nat) (ms : List Member) :
    fitsMembers levels ms = ms.all fun member => member.1.isSome && member.2.fits levels := by
  induction ms with
  | nil => rfl
  | cons member ms ih => rw [fitsMembers, ih, List.all_cons]

theorem fitsMembers_members {levels : Nat}
    (h : ∀ field ∈ fields, ∀ value ∈ field.2, value.fits levels = true) :
    fitsMembers levels (members fields) = true := by
  rw [fitsMembers_eq_all, List.all_eq_true]
  intro member hmember
  obtain ⟨field, hfield, value, hvalue, rfl⟩ := mem_members.mp hmember
  simp [h field hfield value hvalue]

end Json

/-- A field that may have no value is read as what was written of it. -/
theorem Config.optionalField_map {α : Type} {read? : Json → Option α} {write : α → Json}
    {value : Option α} (hnull : read? .null = none) (h : ∀ x ∈ value, read? (write x) = some x) :
    optionalField read? (value.map write) = some value := by
  cases value with
  | none => rfl
  | some x =>
    have hx := h x rfl
    -- a `null` would be read as no value at all
    have hne : write x ≠ .null := by
      intro heq
      rw [heq, hnull] at hx
      cases hx
    simp [optionalField, Json.withDefault, Json.optional?, hx]

/-- The value of a field that may have none was read. -/
theorem Config.exists_of_optionalField {α : Type} {read? : Json → Option α} {field : Option Json}
    {value : Option α} (h : optionalField read? field = some value) :
    ∀ x ∈ value, ∃ json, read? json = some x := by
  intro x hx
  obtain rfl := Option.mem_def.mp hx
  cases field with
  | none => cases Option.some.inj h
  | some json =>
    change Json.optional? read? json = some (some x) at h
    unfold Json.optional? at h
    split at h
    · cases Option.some.inj h
    · obtain ⟨y, hy, hyx⟩ := Option.map_eq_some_iff.mp h
      exact ⟨json, Option.some.inj hyx ▸ hy⟩

end Cadence
