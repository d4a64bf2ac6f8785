import SpatialSearch.Proofs.Enclosure
import SpatialSearch.Proofs.JsonRecords
import SpatialSearch.Proofs.JsonText
import SpatialSearch.Json.DomainForms

/-!
# Forms that are stable

What is read from JSON can be written, and reads as the same value again. The forms of a type
that are read are many, the written one is one of them: the members of a record may stand in any
order and among others, or its fields in an array. Whether a value survives writing depends on the
value alone. Its numbers have to be finite and its counts have to fit 64 bits, and every value that
has been read is such.
-/

namespace SpatialSearch

open Json

namespace JsonForm

variable {β : Type} [JsonForm β]

def toText (x : β) : String := (write x).render

def ofText? (text : String) : Option β := (parse? text).bind read?

theorem ofText?_toText (x : β) : (ofText? (toText x) : Option β) = read? (write x) := by
  rw [ofText?, toText, parse?_render, Option.bind_some]

end JsonForm

open JsonForm

/-- The numbers and the counts in a value. -/
structure Quantities where
  numbers : List Binary64
  counts : List Nat

namespace Quantities

def none : Quantities := ⟨[], []⟩

instance : Append Quantities where
  append q r := ⟨q.numbers ++ r.numbers, q.counts ++ r.counts⟩

def gather (parts : List Quantities) : Quantities :=
  ⟨parts.flatMap (·.numbers), parts.flatMap (·.counts)⟩

/-- Numbers are finite and counts fit 64 bits. -/
structure Fit (q : Quantities) : Prop where
  numbers : ∀ r ∈ q.numbers, r.isFinite = true
  counts : ∀ n ∈ q.counts, n < UInt64.size

theorem fit_none : none.Fit := ⟨fun _ hr => (nomatch hr), fun _ hn => nomatch hn⟩

theorem fit_append {q r : Quantities} : (q ++ r).Fit ↔ q.Fit ∧ r.Fit := by
  constructor
  · rintro ⟨hnumbers, hcounts⟩
    obtain ⟨hq, hr⟩ := List.forall_mem_append.mp hnumbers
    obtain ⟨hq', hr'⟩ := List.forall_mem_append.mp hcounts
    exact ⟨⟨hq, hq'⟩, ⟨hr, hr'⟩⟩
  · rintro ⟨hq, hr⟩
    exact ⟨List.forall_mem_append.mpr ⟨hq.numbers, hr.numbers⟩,
      List.forall_mem_append.mpr ⟨hq.counts, hr.counts⟩⟩

theorem fit_gather {parts : List Quantities} : (gather parts).Fit ↔ ∀ q ∈ parts, q.Fit := by
  constructor
  · intro h q hq
    exact ⟨fun r hr => h.numbers r (List.mem_flatMap_of_mem hq hr),
      fun n hn => h.counts n (List.mem_flatMap_of_mem hq hn)⟩
  · intro h
    constructor
    · intro r hr
      obtain ⟨q, hq, hr⟩ := List.mem_flatMap.mp hr
      exact (h q hq).numbers r hr
    · intro n hn
      obtain ⟨q, hq, hn⟩ := List.mem_flatMap.mp hn
      exact (h q hq).counts n hn

end Quantities

class HasQuantities (β : Type) where
  quantities : β → Quantities

open HasQuantities

/-- The values that can be written so that they are read again. -/
def Expressible {β : Type} [HasQuantities β] (x : β) : Prop := (quantities x).Fit

/-- A form in which every value that can be expressed, and every value that is read, is read back
as it was. -/
class StableForm (β : Type) [JsonForm β] [BEq β] [HasQuantities β] : Prop where
  expressible_of_read? : ∀ {v : Json} {x : β}, read? v = some x → Expressible x
  read?_write : ∀ {x : β}, Expressible x → read? (write x) = some x
  beq_self : ∀ {x : β}, Expressible x → (x == x) = true

/-- A form that does not write null, so that null is left to stand for a value that is missing. -/
class NeverNull (β : Type) [JsonForm β] [HasQuantities β] : Prop where
  write_ne_null : ∀ {x : β}, Expressible x → write x ≠ .null

open StableForm NeverNull

/-! ### Simple forms -/

instance : HasQuantities Nat where
  quantities n := ⟨[], [n]⟩

@[simp] theorem expressible_nat {n : Nat} : Expressible n ↔ n < UInt64.size :=
  ⟨fun h => h.counts n List.mem_cons_self,
    fun h => ⟨fun _ hr => (nomatch hr), List.forall_mem_singleton.mpr h⟩⟩

instance : StableForm Nat where
  expressible_of_read? := by
    intro v n h
    rw [expressible_nat]
    cases v with
    | number numeral =>
      change numeral.toNat? = some n at h
      rw [Numeral.toNat?] at h
      split at h
      · rename_i hfits
        cases h
        exact of_decide_eq_true (Bool.and_eq_true_iff.mp hfits).2
      · cases h
    | _ => cases h
  read?_write := by
    intro n h
    change (Numeral.ofNat n).toNat? = some n
    have hfits : decide ((Numeral.ofNat n).whole < UInt64.size) = true :=
      decide_eq_true (expressible_nat.mp h)
    rw [Numeral.toNat?, hfits]
    rfl
  beq_self := fun _ => beq_self_eq_true _

namespace Binary64

theorem beq_self_of_isFinite {x : Binary64} (h : x.isFinite = true) : (x == x) = true := by
  have hlt := magnitude_lt_top h
  have hnum : x.isNaN = false := by
    rw [isNaN_eq_false_iff, ← toNat_magnitude]
    exact hlt.le
  change (!x.isNaN && !x.isNaN && x.level == x.level) = true
  rw [hnum, beq_self_eq_true]
  rfl

end Binary64

instance : HasQuantities Binary64 where
  quantities r := ⟨[r], []⟩

@[simp] theorem expressible_binary64 {x : Binary64} : Expressible x ↔ x.isFinite = true :=
  ⟨fun h => h.numbers x List.mem_cons_self,
    fun h => ⟨List.forall_mem_singleton.mpr h, fun _ hn => nomatch hn⟩⟩

instance : StableForm Binary64 where
  expressible_of_read? := by
    intro v x h
    rw [expressible_binary64]
    cases v with
    | number n =>
      change (if n.toBinary64.isFinite then some n.toBinary64 else none) = some x at h
      split at h
      · rename_i hfinite
        cases h
        exact hfinite
      · cases h
    | _ => cases h
  read?_write := by
    intro x hx
    rw [expressible_binary64] at hx
    have hback : (Numeral.ofBinary64 .json x).toBinary64 = x :=
      Numeral.toBinary64_ofBinary64 hx (by decide)
    change (if x.isFinite then Json.number (.ofBinary64 .json x) else .null).binary64? = some x
    rw [if_pos hx, Json.binary64?, hback, if_pos hx]
  beq_self h := Binary64.beq_self_of_isFinite (expressible_binary64.mp h)

instance : NeverNull Binary64 where
  write_ne_null := by
    intro x hx hnull
    change (if x.isFinite then Json.number (.ofBinary64 .json x) else .null) = .null at hnull
    rw [if_pos (expressible_binary64.mp hx)] at hnull
    cases hnull

section Containers

variable {β : Type} [HasQuantities β]

instance : HasQuantities (List β) where
  quantities items := .gather (items.map quantities)

@[simp] theorem expressible_list {items : List β} :
    Expressible items ↔ ∀ x ∈ items, Expressible x :=
  Quantities.fit_gather.trans List.forall_mem_map

instance : HasQuantities (Option β) where
  quantities o := .gather (o.toList.map quantities)

@[simp] theorem expressible_option {o : Option β} :
    Expressible o ↔ ∀ x ∈ o, Expressible x := by
  refine Quantities.fit_gather.trans (List.forall_mem_map.trans ?_)
  simp only [Option.mem_toList]
  rfl

theorem expressible_none : Expressible (none : Option β) :=
  expressible_option.mpr fun _ hx => nomatch hx

variable [JsonForm β] [BEq β] [StableForm β]

instance : StableForm (List β) where
  expressible_of_read? := by
    intro v items h
    rw [expressible_list]
    cases v with
    | array values =>
      intro x hx
      rw [← (mapM_eq_some_iff.mp h).2] at hx
      obtain ⟨v, -, hv⟩ := List.mem_filterMap.mp hx
      exact expressible_of_read? hv
    | _ => cases h
  read?_write := by
    intro items h
    change (items.map write).mapM read? = some items
    rw [List.mapM_map]
    have hback := mapM_eq_some_map (f := fun x : β => read? (write x)) (g := id)
      fun x hx => read?_write (expressible_list.mp h x hx)
    rw [List.map_id] at hback
    exact hback
  beq_self := by
    intro items h
    rw [expressible_list] at h
    induction items with
    | nil => rfl
    | cons x items ih =>
      rw [List.cons_beq_cons, beq_self (h x List.mem_cons_self),
        ih fun y hy => h y (List.mem_cons_of_mem x hy)]
      rfl

instance : NeverNull (List β) where
  write_ne_null := fun _ hnull => nomatch hnull

instance [NeverNull β] : StableForm (Option β) where
  expressible_of_read? := by
    intro v o h
    rw [expressible_option]
    intro x hx
    obtain rfl := Option.mem_def.mp hx
    cases v with
    | null => cases h
    | _ =>
      obtain ⟨y, hy, hyx⟩ := Option.map_eq_some_iff.mp h
      cases hyx
      exact expressible_of_read? hy
  read?_write := by
    intro o h
    rw [expressible_option] at h
    cases o with
    | none => rfl
    | some x =>
      have hx := h x rfl
      have hnull := write_ne_null hx
      have hback := read?_write hx
      change (read? (write x) : Option (Option β)) = some (some x)
      cases hjson : write x with
      | null => exact absurd hjson hnull
      | _ =>
        rw [hjson] at hback
        exact congrArg (Option.map some) hback
  beq_self := by
    intro o h
    rw [expressible_option] at h
    cases o with
    | none => rfl
    | some x => exact (StableForm.beq_self (h x rfl) : (x == x) = true)

end Containers

/-! ### Records -/

section Fields

variable {γ δ ε : Type} [JsonForm γ] [BEq γ] [HasQuantities γ] [StableForm γ] [JsonForm δ] [BEq δ]
  [HasQuantities δ] [StableForm δ]

theorem expressible_of_required? {field : Option Json} {x : γ} (h : required? field = some x) :
    Expressible x := by
  obtain ⟨v, -, hv⟩ := Option.bind_eq_some_iff.mp h
  exact expressible_of_read? hv

theorem required?_write {x : γ} (h : Expressible x) : required? (some (write x)) = some x :=
  read?_write h

theorem expressible_of_withDefault? {default x : γ} {field : Option Json}
    (hdefault : Expressible default) (h : withDefault? default field = some x) :
    Expressible x := by
  cases field with
  | none =>
    cases h
    exact hdefault
  | some v => exact expressible_of_read? h

def readPair? (first second : String) (make : γ → δ → ε) (v : Json) : Option ε := do
  let [a, b] ← v.fields? [first, second] 2 | none
  return make (← required? a) (← required? b)

theorem expressible_of_readPair? (first second : String) (make : γ → δ → ε) {v : Json} {x : ε}
    (h : readPair? first second make v = some x) :
    ∃ a b, Expressible a ∧ Expressible b ∧ make a b = x := by
  obtain ⟨fields, -, h⟩ := Option.bind_eq_some_iff.mp h
  split at h
  · obtain ⟨a, ha, h⟩ := Option.bind_eq_some_iff.mp h
    obtain ⟨b, hb, h⟩ := Option.bind_eq_some_iff.mp h
    exact ⟨a, b, expressible_of_required? ha, expressible_of_required? hb, Option.some.inj h⟩
  · cases h

theorem readPair?_record {first second : String} (hne : first ≠ second) (make : γ → δ → ε) {a : γ}
    {b : δ} (ha : Expressible a) (hb : Expressible b) :
    readPair? first second make (record [(first, write a), (second, write b)]) =
      some (make a b) := by
  have hfields := fields?_record [first, second] [write a, write b]
    (by simpa using hne) rfl 2
  change ((record ([first, second].zip [write a, write b])).fields? [first, second] 2).bind _ = _
  rw [hfields]
  change ((required? (some (write a))).bind fun a : γ =>
    (required? (some (write b))).bind fun b : δ => some (make a b)) = _
  rw [required?_write ha, Option.bind_some, required?_write hb, Option.bind_some]

end Fields

/-! ### The domain types -/

instance : HasQuantities (Point Binary64) where
  quantities p := quantities p.toList

theorem Point.expressible_iff {p : Point Binary64} :
    Expressible p ↔ ∀ d, Expressible (p.coord d) := by
  refine expressible_list.trans ⟨fun h d => h _ ?_, fun h c hc => ?_⟩
  · exact List.mem_map_of_mem (Axis.mem_all d)
  · obtain ⟨d, -, rfl⟩ := List.mem_map.mp hc
    exact h d

instance : StableForm (Point Binary64) where
  expressible_of_read? := by
    intro v p h
    rw [Point.expressible_iff]
    obtain ⟨coords, hcoords, h⟩ := Option.bind_eq_some_iff.mp h
    have hall : ∀ c ∈ coords, Expressible c := expressible_list.mp (expressible_of_read? hcoords)
    split at h
    · cases h
      intro d
      cases d <;> exact hall _ (by simp [Point.coord])
    · cases h
  read?_write := by
    intro p h
    have hback : (read? (write p.toList) : Option (List Binary64)) = some p.toList :=
      read?_write h
    change (read? (write p.toList) : Option (List Binary64)).bind _ = _
    rw [hback]
    rfl
  beq_self := by
    intro p h
    exact Axis.all_all_iff.mpr fun d => beq_self (Point.expressible_iff.mp h d)

instance : HasQuantities (Box Binary64) where
  quantities b := quantities b.lo ++ quantities b.hi

theorem Box.expressible_iff {b : Box Binary64} :
    Expressible b ↔ Expressible b.lo ∧ Expressible b.hi := Quantities.fit_append

instance : StableForm (Box Binary64) where
  expressible_of_read? := by
    intro v b h
    obtain ⟨lo, hi, hlo, hhi, rfl⟩ :=
      expressible_of_readPair? "min" "max" Box.mk h
    exact Box.expressible_iff.mpr ⟨hlo, hhi⟩
  read?_write := by
    intro b h
    obtain ⟨hlo, hhi⟩ := Box.expressible_iff.mp h
    exact readPair?_record (by decide) Box.mk hlo hhi
  beq_self := by
    intro b h
    obtain ⟨hlo, hhi⟩ := Box.expressible_iff.mp h
    exact Bool.and_eq_true_iff.mpr ⟨beq_self hlo, beq_self hhi⟩

instance : HasQuantities (Ball Binary64) where
  quantities s := quantities s.center ++ quantities s.radius

theorem Ball.expressible_iff {s : Ball Binary64} :
    Expressible s ↔ Expressible s.center ∧ Expressible s.radius := Quantities.fit_append

instance : StableForm (Ball Binary64) where
  expressible_of_read? := by
    intro v s h
    obtain ⟨center, radius, hcenter, hradius, rfl⟩ :=
      expressible_of_readPair? "center" "radius" Ball.mk h
    exact Ball.expressible_iff.mpr ⟨hcenter, hradius⟩
  read?_write := by
    intro s h
    obtain ⟨hcenter, hradius⟩ := Ball.expressible_iff.mp h
    exact readPair?_record (by decide) Ball.mk hcenter hradius
  beq_self := by
    intro s h
    obtain ⟨hcenter, hradius⟩ := Ball.expressible_iff.mp h
    exact Bool.and_eq_true_iff.mpr ⟨beq_self hcenter, beq_self hradius⟩

instance : HasQuantities (NearestQuery Binary64) where
  quantities n := quantities n.target ++ quantities n.k

theorem NearestQuery.expressible_iff {n : NearestQuery Binary64} :
    Expressible n ↔ Expressible n.target ∧ Expressible n.k := Quantities.fit_append

instance : StableForm (NearestQuery Binary64) where
  expressible_of_read? := by
    intro v n h
    obtain ⟨target, k, htarget, hk, rfl⟩ :=
      expressible_of_readPair? "target" "k" NearestQuery.mk h
    exact NearestQuery.expressible_iff.mpr ⟨htarget, hk⟩
  read?_write := by
    intro n h
    obtain ⟨htarget, hk⟩ := NearestQuery.expressible_iff.mp h
    exact readPair?_record (by decide) NearestQuery.mk htarget hk
  beq_self := by
    intro n h
    obtain ⟨htarget, hk⟩ := NearestQuery.expressible_iff.mp h
    exact Bool.and_eq_true_iff.mpr ⟨beq_self htarget, beq_self hk⟩

instance : HasQuantities (Query Binary64) where
  quantities
    | .overlapping box => quantities box
    | .touching ball => quantities ball
    | .nearest query => quantities query

instance : StableForm (Query Binary64) where
  expressible_of_read? := by
    intro v q h
    obtain ⟨⟨name, content⟩, -, h⟩ := Option.bind_eq_some_iff.mp h
    cases content with
    | none => cases h
    | some content =>
      dsimp only at h
      split_ifs at h
      · obtain ⟨box, hbox, rfl⟩ := Option.map_eq_some_iff.mp h
        exact (expressible_of_read? hbox : Expressible box)
      · obtain ⟨ball, hball, rfl⟩ := Option.map_eq_some_iff.mp h
        exact (expressible_of_read? hball : Expressible ball)
      · obtain ⟨query, hquery, rfl⟩ := Option.map_eq_some_iff.mp h
        exact (expressible_of_read? hquery : Expressible query)
  read?_write := by
    intro q h
    cases q with
    | overlapping box => exact congrArg (Option.map Query.overlapping) (read?_write (x := box) h)
    | touching ball => exact congrArg (Option.map Query.touching) (read?_write (x := ball) h)
    | nearest query => exact congrArg (Option.map Query.nearest) (read?_write (x := query) h)
  beq_self := by
    intro q h
    cases q with
    | overlapping box => exact (beq_self h : (box == box) = true)
    | touching ball => exact (beq_self h : (ball == ball) = true)
    | nearest query => exact (beq_self h : (query == query) = true)

instance : HasQuantities QueryKind where
  quantities _ := .none

instance : StableForm QueryKind where
  expressible_of_read? := fun _ => Quantities.fit_none
  read?_write := by
    intro kind _
    cases kind <;> rfl
  beq_self := fun _ => beq_self_eq_true _

instance : HasQuantities NearestMethod where
  quantities _ := .none

instance : StableForm NearestMethod where
  expressible_of_read? := fun _ => Quantities.fit_none
  read?_write := by
    intro method _
    cases method <;> rfl
  beq_self := fun _ => beq_self_eq_true _

instance : HasQuantities SearchOptions where
  quantities o := quantities o.neighborLimit ++ quantities o.method

theorem SearchOptions.expressible_iff {o : SearchOptions} :
    Expressible o ↔ Expressible o.neighborLimit ∧ Expressible o.method := Quantities.fit_append

instance : StableForm SearchOptions where
  expressible_of_read? := by
    intro v o h
    obtain ⟨fields, -, h⟩ := Option.bind_eq_some_iff.mp h
    split at h
    · obtain ⟨neighborLimit, hlimit, h⟩ := Option.bind_eq_some_iff.mp h
      obtain ⟨method, hmethod, h⟩ := Option.bind_eq_some_iff.mp h
      cases h
      have hdefault : Expressible ({} : SearchOptions).neighborLimit :=
        expressible_nat.mpr (by decide)
      exact SearchOptions.expressible_iff.mpr
        ⟨expressible_of_withDefault? hdefault hlimit, Quantities.fit_none⟩
    · cases h
  read?_write := by
    intro o h
    obtain ⟨hlimit, hmethod⟩ := SearchOptions.expressible_iff.mp h
    have hfields := fields?_record ["max_neighbors", "nearest_strategy"]
      [write o.neighborLimit, write o.method] (by decide) rfl 0
    refine (congrArg (Option.bind · _) hfields).trans ?_
    change (read? (write o.neighborLimit)).bind (fun limit =>
      (read? (write o.method)).bind fun method => some (SearchOptions.mk limit method)) = some o
    rw [read?_write hlimit, Option.bind_some, read?_write hmethod, Option.bind_some]
  beq_self := fun _ => beq_self_eq_true _

/-- A hit that was written is read field by field. -/
theorem Hit.read?_write_fields (h : Hit Binary64) : (read? (write h) : Option (Hit Binary64)) =
    (read? (write h.index)).bind fun index => (read? (write h.rank)).bind fun rank =>
      (read? (write h.distance)).bind fun distance => some ⟨index, rank, distance⟩ :=
  congrArg (Option.bind · _) (fields?_record ["index", "rank", "distance"]
    [write h.index, write h.rank, write h.distance] (by decide) rfl 3)

instance : HasQuantities (Hit Binary64) where
  quantities h := quantities h.index ++ quantities h.rank ++ quantities h.distance

theorem Hit.expressible_iff {h : Hit Binary64} :
    Expressible h ↔ (Expressible h.index ∧ Expressible h.rank) ∧ Expressible h.distance :=
  Quantities.fit_append.trans (and_congr_left fun _ => Quantities.fit_append)

instance : StableForm (Hit Binary64) where
  expressible_of_read? := by
    intro v hit h
    obtain ⟨fields, -, h⟩ := Option.bind_eq_some_iff.mp h
    split at h
    · obtain ⟨index, hindex, h⟩ := Option.bind_eq_some_iff.mp h
      obtain ⟨rank, hrank, h⟩ := Option.bind_eq_some_iff.mp h
      obtain ⟨distance, hdistance, h⟩ := Option.bind_eq_some_iff.mp h
      cases h
      exact Hit.expressible_iff.mpr
        ⟨⟨expressible_of_required? hindex, expressible_of_required? hrank⟩,
          expressible_of_withDefault? expressible_none hdistance⟩
    · cases h
  read?_write := by
    intro hit h
    obtain ⟨⟨hindex, hrank⟩, hdistance⟩ := Hit.expressible_iff.mp h
    rw [Hit.read?_write_fields, read?_write hindex, Option.bind_some, read?_write hrank,
      Option.bind_some, read?_write hdistance, Option.bind_some]
  beq_self := by
    intro hit h
    obtain ⟨⟨hindex, hrank⟩, hdistance⟩ := Hit.expressible_iff.mp h
    exact Bool.and_eq_true_iff.mpr
      ⟨Bool.and_eq_true_iff.mpr ⟨beq_self hindex, beq_self hrank⟩, beq_self hdistance⟩

/-- A table that was written is read column by column. -/
theorem HitTable.read?_write_fields (t : HitTable Binary64) :
    (read? (write t) : Option (HitTable Binary64)) =
      (read? (write t.offsets)).bind fun offsets => (read? (write t.indices)).bind fun indices =>
        (read? (write t.ranks)).bind fun ranks => (read? (write t.distances)).bind fun distances =>
          some ⟨offsets, indices, ranks, distances⟩ :=
  congrArg (Option.bind · _) (fields?_record ["offsets", "indices", "ranks", "distances"]
    [write t.offsets, write t.indices, write t.ranks, write t.distances] (by decide) rfl 4)

instance : HasQuantities (HitTable Binary64) where
  quantities t := quantities t.offsets ++ quantities t.indices ++ quantities t.ranks ++
    quantities t.distances

theorem HitTable.expressible_iff {t : HitTable Binary64} : Expressible t ↔
    ((Expressible t.offsets ∧ Expressible t.indices) ∧ Expressible t.ranks) ∧
      Expressible t.distances :=
  Quantities.fit_append.trans (and_congr_left fun _ =>
    Quantities.fit_append.trans (and_congr_left fun _ => Quantities.fit_append))

instance : StableForm (HitTable Binary64) where
  expressible_of_read? := by
    intro v t h
    obtain ⟨fields, -, h⟩ := Option.bind_eq_some_iff.mp h
    split at h
    · obtain ⟨offsets, hoffsets, h⟩ := Option.bind_eq_some_iff.mp h
      obtain ⟨indices, hindices, h⟩ := Option.bind_eq_some_iff.mp h
      obtain ⟨ranks, hranks, h⟩ := Option.bind_eq_some_iff.mp h
      obtain ⟨distances, hdistances, h⟩ := Option.bind_eq_some_iff.mp h
      cases h
      exact HitTable.expressible_iff.mpr
        ⟨⟨⟨expressible_of_required? hoffsets, expressible_of_required? hindices⟩,
          expressible_of_required? hranks⟩, expressible_of_withDefault? expressible_none hdistances⟩
    · cases h
  read?_write := by
    intro t h
    obtain ⟨⟨⟨hoffsets, hindices⟩, hranks⟩, hdistances⟩ := HitTable.expressible_iff.mp h
    rw [HitTable.read?_write_fields, read?_write hoffsets, Option.bind_some,
      read?_write hindices, Option.bind_some, read?_write hranks, Option.bind_some,
      read?_write hdistances, Option.bind_some]
  beq_self := by
    intro t h
    obtain ⟨⟨⟨hoffsets, hindices⟩, hranks⟩, hdistances⟩ := HitTable.expressible_iff.mp h
    refine Bool.and_eq_true_iff.mpr ⟨Bool.and_eq_true_iff.mpr ⟨Bool.and_eq_true_iff.mpr ⟨?_, ?_⟩, ?_⟩,
      ?_⟩
    · exact beq_self hoffsets
    · exact beq_self hindices
    · exact beq_self hranks
    · exact beq_self hdistances

/-! ### Stability -/

namespace JsonForm

/-- Reading is stable under writing: a value is read again from the text that is written of it, if
it was read from any text or if it can be expressed, and it is always such a value that is read. -/
structure Stable (β : Type) [JsonForm β] [BEq β] [HasQuantities β] : Prop where
  reread : ∀ (text : String) (x : β), ofText? text = some x →
    ofText? (toText x) = some x ∧ (x == x) = true
  returns : ∀ x : β, Expressible x → ofText? (toText x) = some x ∧ (x == x) = true
  expressed : ∀ (text : String) (x : β), ofText? text = some x → Expressible x

theorem stable (β : Type) [JsonForm β] [BEq β] [HasQuantities β] [StableForm β] : Stable β := by
  have hreturns : ∀ x : β, Expressible x → ofText? (toText x) = some x ∧ (x == x) = true := by
    intro x hx
    rw [ofText?_toText]
    exact ⟨read?_write hx, beq_self hx⟩
  have hexpressed : ∀ (text : String) (x : β), ofText? text = some x → Expressible x := by
    intro text x h
    obtain ⟨v, -, hv⟩ := Option.bind_eq_some_iff.mp h
    exact expressible_of_read? hv
  exact ⟨fun text x h => hreturns x (hexpressed text x h), hreturns, hexpressed⟩

/-- Every domain type has a stable form. Those that are records are read from objects with the
members in any order and among others, and from arrays of their fields. -/
theorem domain_forms_stable :
    (Stable (Point Binary64) ∧ Stable (Box Binary64) ∧ Stable (Ball Binary64) ∧
      Stable (NearestQuery Binary64) ∧ Stable (Query Binary64) ∧ Stable QueryKind ∧
      Stable NearestMethod ∧ Stable SearchOptions ∧ Stable (Hit Binary64) ∧
      Stable (HitTable Binary64)) ∧
    ReadsFields (Box Binary64) ["min", "max"] 2 ∧
    ReadsFields (Ball Binary64) ["center", "radius"] 2 ∧
    ReadsFields (NearestQuery Binary64) ["target", "k"] 2 ∧
    ReadsFields SearchOptions ["max_neighbors", "nearest_strategy"] 0 ∧
    ReadsFields (Hit Binary64) ["index", "rank", "distance"] 3 ∧
    ReadsFields (HitTable Binary64) ["offsets", "indices", "ranks", "distances"] 4 := by
  refine ⟨⟨stable _, stable _, stable _, stable _, stable _, stable _, stable _, stable _, stable _,
    stable _⟩, ?_, ?_, ?_, ?_, ?_, ?_⟩
  all_goals exact .of_fields (by decide) fun _ => rfl

/-- Members in any order. -/
example : ofText? "\x7b\"k\":3, \"target\":[0,0,0]\x7d" =
    some (⟨.origin, 3⟩ : NearestQuery Binary64) := by
  cbv

end JsonForm

end SpatialSearch
