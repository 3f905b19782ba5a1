import Mathlib.Algebra.Order.Ring.Int
import Mathlib.Data.List.Sort

/-!
# PgLedger.Assoc

Finite maps as association lists: the hash maps and ordered maps of the
source.  `List.lookup` reads a map; here are the two ways the source writes
one, through a mutable reference to a value that is there (`modify`) and
through the entry of a key that may be missing (`upsert`), and the fold that
adds up numbers under their keys.
-/

namespace PgLedger

namespace Assoc

variable {κ ν : Type} [DecidableEq κ]

/-- `HashMap::get_mut`: change the value of a key that is there. -/
def modify (m : List (κ × ν)) (k : κ) (f : ν → ν) : List (κ × ν) :=
  m.map fun e => if e.1 = k then (e.1, f e.2) else e

/-- `BTreeMap::entry` with `and_modify` and `or_insert`. -/
def upsert (m : List (κ × ν)) (k : κ) (f : ν → ν) (v : ν) : List (κ × ν) :=
  if (m.lookup k).isSome then modify m k f else m ++ [(k, v)]

/-- Modifying values keeps the keys. -/
@[simp] theorem keys_modify (m : List (κ × ν)) (k : κ) (f : ν → ν) :
    (modify m k f).map Prod.fst = m.map Prod.fst := by
  rw [modify, List.map_map]
  refine List.map_congr_left fun e _ => ?_
  by_cases h : e.1 = k <;> simp [h]

/-- Only the value of the key is modified. -/
theorem lookup_modify (m : List (κ × ν)) (k k' : κ) (f : ν → ν) :
    (modify m k f).lookup k' = if k' = k then (m.lookup k').map f else m.lookup k' := by
  induction m with
  | nil => simp [modify]
  | cons e m ih =>
      obtain ⟨a, v⟩ := e
      rw [modify] at ih ⊢
      rw [List.map_cons]
      by_cases ha : k' = a
      · subst ha
        by_cases hk : k' = k <;> simp [hk]
      · have hne : (k' == a) = false := by simpa using ha
        by_cases hak : a = k
        · simp only [hak, if_true, List.lookup_cons] at hne ⊢
          rw [hne, ih]
        · simp only [hak, if_false, List.lookup_cons, hne, ih]

theorem lookup_modify_of_ne (m : List (κ × ν)) {k k' : κ} (h : k' ≠ k) (f : ν → ν) :
    (modify m k f).lookup k' = m.lookup k' := by
  rw [lookup_modify, if_neg h]

/-- The value of the key is modified or added, the others stay. -/
theorem lookup_upsert (m : List (κ × ν)) (k k' : κ) (f : ν → ν) (v : ν) :
    (upsert m k f v).lookup k' =
      if k' = k then some (((m.lookup k).map f).getD v) else m.lookup k' := by
  unfold upsert
  cases hk : m.lookup k with
  | some w =>
      rw [Option.isSome_some, if_pos rfl, lookup_modify]
      by_cases hkk : k' = k
      · rw [if_pos hkk, if_pos hkk, hkk, hk, Option.map_some, Option.getD_some]
      · rw [if_neg hkk, if_neg hkk]
  | none =>
      rw [Option.isSome_none, if_neg Bool.false_ne_true, List.lookup_append]
      by_cases hkk : k' = k
      · rw [if_pos hkk, hkk, hk]
        simp
      · have hne : (k' == k) = false := by simpa using hkk
        rw [if_neg hkk, List.lookup_cons, hne]
        simp

theorem lookup_map {μ : Type} (m : List (κ × ν)) (f : ν → μ) (k : κ) :
    (m.map fun e => (e.1, f e.2)).lookup k = (m.lookup k).map f := by
  induction m with
  | nil => rfl
  | cons e m ih =>
      obtain ⟨a, v⟩ := e
      rw [List.map_cons, List.lookup_cons, List.lookup_cons]
      cases k == a with
      | true => rfl
      | false => exact ih

/-- A value that is found stands in the list under its key. -/
theorem mem_of_lookup {m : List (κ × ν)} {k : κ} {v : ν} (h : m.lookup k = some v) :
    (k, v) ∈ m := by
  obtain ⟨l₁, l₂, rfl, -⟩ := List.lookup_eq_some_iff.mp h
  simp

/-- With distinct keys, a value that stands in the list is found. -/
theorem lookup_of_mem {m : List (κ × ν)} (hm : (m.map Prod.fst).Nodup) {k : κ} {v : ν}
    (h : (k, v) ∈ m) : m.lookup k = some v := by
  induction m with
  | nil => exact absurd h List.not_mem_nil
  | cons e m ih =>
      obtain ⟨a, w⟩ := e
      rw [List.map_cons, List.nodup_cons] at hm
      rw [List.lookup_cons]
      rcases List.mem_cons.mp h with heq | hrest
      · obtain ⟨rfl, rfl⟩ := Prod.mk.inj heq
        simp
      · have hne : (k == a) = false := by
          rw [beq_eq_false_iff_ne]
          rintro rfl
          exact hm.1 (List.mem_map.mpr ⟨(k, v), hrest, rfl⟩)
        rw [hne]
        exact ih hm.2 hrest

/-- The keys stay distinct. -/
theorem nodup_upsert {m : List (κ × ν)} (hm : (m.map Prod.fst).Nodup) (k : κ) (f : ν → ν) (v : ν) :
    ((upsert m k f v).map Prod.fst).Nodup := by
  unfold upsert
  split
  · rw [keys_modify]
    exact hm
  · next hnone =>
    have hk : k ∉ m.map Prod.fst := by
      intro hmem
      obtain ⟨⟨a, w⟩, hin, rfl⟩ := List.mem_map.mp hmem
      rw [lookup_of_mem hm hin] at hnone
      exact hnone rfl
    rw [List.map_append, List.nodup_append]
    refine ⟨hm, List.nodup_singleton k, fun a ha c hc => ?_⟩
    obtain rfl : c = k := by simpa using hc
    rintro rfl
    exact hk ha

/-! ## sums by key -/

variable {α : Type} (key : α → κ) (val : α → Int)

/-- Add the value of an item to the total of its key. -/
def addTotal (totals : List (κ × Int)) (a : α) : List (κ × Int) :=
  upsert totals (key a) (· + val a) (val a)

/-- The total found under a key, zero where there is none. -/
def total (totals : List (κ × Int)) (k : κ) : Int := (totals.lookup k).getD 0

/-- Adding an element changes the total of its key by its value. -/
theorem total_addTotal (totals : List (κ × Int)) (a : α) (k : κ) :
    total (addTotal key val totals a) k = total totals k + if key a = k then val a else 0 := by
  rw [total, total, addTotal, lookup_upsert]
  by_cases hk : k = key a
  · rw [if_pos hk, if_pos hk.symm, hk]
    cases totals.lookup (key a) with
    | none => simp
    | some v => simp
  · rw [if_neg hk, if_neg (Ne.symm hk), Int.add_zero]

/-- Folding a list adds up, under every key, the values of that key. -/
theorem total_foldl (as : List α) (totals : List (κ × Int)) (k : κ) :
    total (as.foldl (addTotal key val) totals) k =
      total totals k + ((as.filter fun a => key a = k).map val).sum := by
  induction as generalizing totals with
  | nil => simp
  | cons a as ih =>
      rw [List.foldl_cons, ih, total_addTotal]
      by_cases hk : key a = k
      · simp only [hk, if_true, decide_true, List.filter_cons_of_pos, List.map_cons, List.sum_cons]
        omega
      · simp [hk]

/-- Every key has one total. -/
theorem nodup_foldl (as : List α) {totals : List (κ × Int)}
    (h : (totals.map Prod.fst).Nodup) :
    ((as.foldl (addTotal key val) totals).map Prod.fst).Nodup := by
  induction as generalizing totals with
  | nil => exact h
  | cons a as ih => exact ih (nodup_upsert h _ _ _)

end Assoc

end PgLedger
