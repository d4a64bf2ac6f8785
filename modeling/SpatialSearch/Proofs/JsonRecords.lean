import Mathlib.Data.List.Basic
import SpatialSearch.Json.Form

/-!
# Records in JSON

A record is read from an object, in which the members may stand in any order and among others, or
from an array of its fields. An array that ends early is read like an object without the members
for the last fields, if the form of the record lets it end there.
-/

namespace SpatialSearch

/-! ### Lists of options -/

/-- A list is mapped if every item is. -/
theorem mapM_eq_some_iff {β γ : Type} {f : β → Option γ} {items : List β} {results : List γ} :
    items.mapM f = some results ↔
      (∀ x ∈ items, (f x).isSome = true) ∧ items.filterMap f = results := by
  induction items generalizing results with
  | nil => simp
  | cons x items ih =>
    rw [List.mapM_cons, List.forall_mem_cons]
    cases hx : f x with
    | none => simp
    | some y =>
      rw [List.filterMap_cons_some hx]
      simp only [Option.bind_eq_bind, Option.bind_some, Option.bind_eq_some_iff, ih,
        Option.pure_def, Option.some.injEq, Option.isSome_some, true_and]
      constructor
      · rintro ⟨rest, ⟨hall, rfl⟩, rfl⟩
        exact ⟨hall, rfl⟩
      · rintro ⟨hall, rfl⟩
        exact ⟨_, ⟨hall, rfl⟩, rfl⟩

theorem mapM_eq_some_map {β γ : Type} {f : β → Option γ} {g : β → γ} {items : List β}
    (h : ∀ x ∈ items, f x = some (g x)) : items.mapM f = some (items.map g) := by
  apply mapM_eq_some_iff.mpr
  constructor
  · intro x hx
    rw [h x hx]
    rfl
  · rw [← List.filterMap_eq_map]
    exact List.filterMap_congr h

theorem mapM_congr {β γ : Type} {f g : β → Option γ} {items : List β}
    (h : ∀ x ∈ items, f x = g x) : items.mapM f = items.mapM g := by
  apply Option.ext
  intro results
  have hsome : (∀ x ∈ items, (f x).isSome = true) ↔ ∀ x ∈ items, (g x).isSome = true :=
    forall₂_congr fun x hx => by rw [h x hx]
  rw [mapM_eq_some_iff, mapM_eq_some_iff, List.filterMap_congr h, hsome]

/-! ### Fields -/

namespace Json

theorem fields?_of_record (members : List (String × Json)) (names : List String) (least : Nat) :
    (record members).fields? names least = names.mapM (uniqueMember? members) := by
  have hkeys : ((members.map fun m => (some m.1, m.2)).mapM
      fun m : Option String × Json => m.1.map fun key => (key, m.2)) = some members := by
    rw [List.mapM_map]
    exact (mapM_eq_some_map (g := id) fun _ _ => rfl).trans (congrArg some (List.map_id _))
  exact congrArg (Option.bind · fun found => names.mapM (uniqueMember? found)) hkeys

theorem uniqueMember?_of_mem {members : List (String × Json)} (h : (members.map (·.1)).Nodup)
    {m : String × Json} (hm : m ∈ members) : uniqueMember? members m.1 = some (some m.2) := by
  have hfilter : members.filter (·.1 == m.1) = [m] := by
    induction members with
    | nil => cases hm
    | cons w members ih =>
      obtain ⟨hw, hrest⟩ := List.nodup_cons.mp h
      rcases List.mem_cons.mp hm with rfl | hm
      · have hnone : members.filter (·.1 == m.1) = [] := by
          apply List.filter_eq_nil_iff.mpr
          intro k hk hkey
          exact hw (List.mem_map.mpr ⟨k, hk, eq_of_beq hkey⟩)
        rw [List.filter_cons, if_pos (beq_self_eq_true _), hnone]
      · have hne : ¬ (w.1 == m.1) = true := by
          intro hkey
          exact hw (List.mem_map.mpr ⟨m, hm, (eq_of_beq hkey).symm⟩)
        rw [List.filter_cons, if_neg hne]
        exact ih hrest hm
  rw [uniqueMember?, hfilter]

theorem uniqueMember?_of_notMem {members : List (String × Json)} {name : String}
    (h : name ∉ members.map (·.1)) : uniqueMember? members name = some none := by
  have hfilter : members.filter (·.1 == name) = [] := by
    apply List.filter_eq_nil_iff.mpr
    intro m hm hkey
    exact h (List.mem_map.mpr ⟨m, hm, eq_of_beq hkey⟩)
  rw [uniqueMember?, hfilter]

theorem mapM_uniqueMember?_keys {members : List (String × Json)} (h : (members.map (·.1)).Nodup) :
    (members.map (·.1)).mapM (uniqueMember? members) = some ((members.map (·.2)).map some) := by
  rw [List.mapM_map, List.map_map]
  exact mapM_eq_some_map fun m hm => uniqueMember?_of_mem h hm

theorem mapM_uniqueMember?_missing {members : List (String × Json)} {names : List String}
    (h : ∀ name ∈ names, name ∉ members.map (·.1)) :
    names.mapM (uniqueMember? members) = some (names.map fun _ => none) :=
  mapM_eq_some_map fun name hname => uniqueMember?_of_notMem (h name hname)

/-- The fields of a record are found under their names, and those that it leaves out are missing. -/
theorem fields?_zip {names : List String} {values : List Json} (hnames : names.Nodup)
    (hlength : values.length ≤ names.length) (least : Nat) :
    (record (names.zip values)).fields? names least =
      some (values.map some ++ List.replicate (names.length - values.length) none) := by
  obtain ⟨kept, missing, rfl, hkept⟩ : ∃ kept missing, names = kept ++ missing ∧
      kept.length = values.length :=
    ⟨_, _, (List.take_append_drop values.length names).symm, List.length_take_of_le hlength⟩
  have hzip : (kept ++ missing).zip (values ++ []) = kept.zip values ++ missing.zip [] :=
    List.zip_append hkept
  rw [List.append_nil, List.zip_nil_right, List.append_nil] at hzip
  have hfst : (kept.zip values).map (·.1) = kept := List.map_fst_zip (Nat.le_of_eq hkept)
  have hsnd : (kept.zip values).map (·.2) = values := List.map_snd_zip (Nat.le_of_eq hkept.symm)
  obtain ⟨hnodup, -, hdisjoint⟩ := List.nodup_append.mp hnames
  have hfound : kept.mapM (uniqueMember? (kept.zip values)) = some (values.map some) := by
    have hkeys := mapM_uniqueMember?_keys (hfst.symm ▸ hnodup)
    rwa [hfst, hsnd] at hkeys
  have hmissing : missing.mapM (uniqueMember? (kept.zip values)) =
      some (missing.map fun _ => none) := by
    refine mapM_uniqueMember?_missing fun name hname => ?_
    rw [hfst]
    exact fun hkept => hdisjoint name hkept name hname rfl
  rw [fields?_of_record, hzip, List.mapM_append, hfound, hmissing, List.map_const', List.length_append,
    hkept, Nat.add_sub_cancel_left]
  rfl

theorem fields?_record (names : List String) (values : List Json) (hnames : names.Nodup)
    (hlength : names.length = values.length) (least : Nat) :
    (record (names.zip values)).fields? names least = some (values.map some) := by
  rw [fields?_zip hnames (Nat.le_of_eq hlength.symm), hlength, Nat.sub_self, List.replicate_zero,
    List.append_nil]

/-- Members that are found under a name do not depend on the order of all. -/
theorem uniqueMember?_perm {members others : List (String × Json)} (h : members.Perm others)
    (name : String) : uniqueMember? members name = uniqueMember? others name := by
  have hfilter := h.filter (·.1 == name)
  rw [uniqueMember?, uniqueMember?]
  generalize members.filter (·.1 == name) = found at hfilter
  generalize others.filter (·.1 == name) = found' at hfilter
  match found, found', hfilter with
  | [], _, hfilter => rw [hfilter.nil_eq]
  | [m], _, hfilter => rw [hfilter.singleton_eq]
  | _ :: _ :: _, [], hfilter => cases hfilter.length_eq
  | _ :: _ :: _, [_], hfilter => cases hfilter.length_eq
  | _ :: _ :: _, _ :: _ :: _, _ => rfl

/-- The order of the members of an object makes no difference to its fields. -/
theorem fields?_perm {members others : List (Option String × Json)} (h : members.Perm others)
    (names : List String) (least : Nat) :
    (Json.object members).fields? names least = (Json.object others).fields? names least := by
  let keyed (m : Option String × Json) : Option (String × Json) := m.1.map fun key => (key, m.2)
  change (members.mapM keyed).bind (fun found => names.mapM (uniqueMember? found)) =
    (others.mapM keyed).bind fun found => names.mapM (uniqueMember? found)
  cases hmembers : members.mapM keyed with
  | some found =>
    obtain ⟨hall, rfl⟩ := mapM_eq_some_iff.mp hmembers
    have hothers : others.mapM keyed = some (others.filterMap keyed) :=
      mapM_eq_some_iff.mpr ⟨fun m hm => hall m (h.mem_iff.mpr hm), rfl⟩
    have hunique : uniqueMember? (members.filterMap keyed) =
        uniqueMember? (others.filterMap keyed) :=
      funext fun name => uniqueMember?_perm (h.filterMap keyed) name
    rw [hothers, Option.bind_some, Option.bind_some, hunique]
  | none =>
    have hothers : others.mapM keyed = none := by
      apply Option.eq_none_iff_forall_not_mem.mpr
      intro found hfound
      have hall := (mapM_eq_some_iff.mp hfound).1
      have hsome := mapM_eq_some_iff.mpr ⟨fun m hm => hall m (h.mem_iff.mp hm), rfl⟩
      rw [hmembers] at hsome
      cases hsome
    rw [hothers]

/-- A member that is no field makes no difference either. -/
theorem fields?_unknown {names : List String} {key : String} (hkey : key ∉ names) (v : Json)
    (members : List (Option String × Json)) (least : Nat) :
    (Json.object ((some key, v) :: members)).fields? names least =
      (Json.object members).fields? names least := by
  let keyed (m : Option String × Json) : Option (String × Json) := m.1.map fun key => (key, m.2)
  change (((some key, v) :: members).mapM keyed).bind
      (fun found => names.mapM (uniqueMember? found)) =
    (members.mapM keyed).bind fun found => names.mapM (uniqueMember? found)
  have hcons : ((some key, v) :: members).mapM keyed =
      (members.mapM keyed).bind fun found => some ((key, v) :: found) := List.mapM_cons
  rw [hcons, Option.bind_assoc]
  congr 1
  funext found
  rw [Option.bind_some]
  apply mapM_congr
  intro name hname
  have hne : ¬ (key == name) = true := by
    intro heq
    exact hkey (eq_of_beq heq ▸ hname)
  rw [uniqueMember?, List.filter_cons, if_neg hne, uniqueMember?]

/-- An array of enough fields is read like the record of them. -/
theorem fields?_array {names : List String} {values : List Json} (hnames : names.Nodup)
    {least : Nat} (hleast : least ≤ values.length) (hmost : values.length ≤ names.length) :
    (Json.array values).fields? names least = (record (names.zip values)).fields? names least := by
  have hwithin : (decide (least ≤ values.length) && decide (values.length ≤ names.length)) = true :=
    Bool.and_eq_true_iff.mpr ⟨decide_eq_true hleast, decide_eq_true hmost⟩
  rw [fields?_zip hnames hmost, fields?, if_pos hwithin]

theorem fields?_array_of_length {names : List String} {values : List Json} {least : Nat}
    (h : values.length < least ∨ names.length < values.length) :
    (Json.array values).fields? names least = none := by
  have hwithin : ¬ (decide (least ≤ values.length) &&
      decide (values.length ≤ names.length)) = true := by
    rw [Bool.and_eq_true, decide_eq_true_eq, decide_eq_true_eq]
    omega
  rw [fields?, if_neg hwithin]

end Json

/-! ### Forms of records -/

namespace JsonForm

open Json

/-- A form that is read from fields by their names, or from an array of at least some of them. -/
structure ReadsFields (β : Type) [JsonForm β] (names : List String) (least : Nat) : Prop where
  perm : ∀ {members others}, members.Perm others →
    (read? (.object members) : Option β) = read? (.object others)
  unknown : ∀ {key}, key ∉ names → ∀ v members,
    (read? (.object ((some key, v) :: members)) : Option β) = read? (.object members)
  array : ∀ values, least ≤ values.length → values.length ≤ names.length →
    (read? (.array values) : Option β) = read? (record (names.zip values))
  refused : ∀ values, values.length < least ∨ names.length < values.length →
    (read? (.array values) : Option β) = none

theorem ReadsFields.of_fields {β : Type} [JsonForm β] {names : List String} {least : Nat}
    (hnames : names.Nodup) {make : List (Option Json) → Option β}
    (h : ∀ v, read? v = (v.fields? names least).bind make) : ReadsFields β names least where
  perm hperm := by rw [h, h, fields?_perm hperm]
  unknown hkey v members := by rw [h, h, fields?_unknown hkey]
  array values hleast hmost := by rw [h, h, fields?_array hnames hleast hmost]
  refused values hlength := by rw [h, fields?_array_of_length hlength, Option.bind_none]

end JsonForm

end SpatialSearch
