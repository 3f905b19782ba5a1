import Mathlib.Algebra.BigOperators.Group.List.Basic
import Mathlib.Data.List.Induction
import Mathlib.Data.List.Nodup
import Mathlib.Tactic.Abel

/-!
# PgLedger.Journal

Running totals, in general.  A journal is a list of movements, each with the
total before and after it and a version number; the total and the version at
its end are kept beside it.  `Journal` says what makes the two agree, without
a word about the order in which the movements are listed: the versions are
1, 2, … without gap or repetition, the movement with version 1 starts from
zero, and every other one starts where the one below it ended.

`Journal.append` is the one way such a journal grows.  `Journal.of_chain` is
the way to recognise one: that it ends where its balance stands follows from
the rest.
-/

namespace PgLedger

structure Movement (G : Type) where
  version : Int
  previous : G
  amount : G
  current : G

variable {G : Type} [AddCommMonoid G]

/-- The movements are the history of a total that now stands at `balance`
and has changed `version` times. -/
structure Journal (ms : List (Movement G)) (version : Int) (balance : G) : Prop where
  versionCount : version = ms.length
  versions : (ms.map (·.version)).Perm ((List.range ms.length).map fun i : Nat => (i : Int) + 1)
  first : ∀ m ∈ ms, m.version = 1 → m.previous = 0
  later : ∀ m ∈ ms, 1 < m.version → ∃ m' ∈ ms, m'.version + 1 = m.version ∧ m.previous = m'.current
  moved : ∀ m ∈ ms, m.current = m.previous + m.amount
  balanceSum : balance = (ms.map (·.amount)).sum
  balanceLast : ∀ m ∈ ms, m.version = version → m.current = balance

namespace Journal

variable {ms : List (Movement G)} {version : Int} {balance : G}

theorem nil : Journal ([] : List (Movement G)) 0 0 where
  versionCount := rfl
  versions := List.Perm.refl _
  first _ h := absurd h List.not_mem_nil
  later _ h := absurd h List.not_mem_nil
  moved _ h := absurd h List.not_mem_nil
  balanceSum := rfl
  balanceLast _ h := absurd h List.not_mem_nil

/-- The versions that occur are those from one to the number of movements. -/
theorem mem_versions (h : Journal ms version balance) {v : Int} :
    v ∈ ms.map (·.version) ↔ 1 ≤ v ∧ v ≤ version := by
  rw [h.versions.mem_iff, h.versionCount, List.mem_map]
  constructor
  · intro hmem
    obtain ⟨i, hi, rfl⟩ := hmem
    have hlt := List.mem_range.mp hi
    omega
  · intro hv
    refine ⟨(v - 1).toNat, List.mem_range.mpr ?_, ?_⟩
    · omega
    · omega

/-- A journal without movements stands at zero. -/
theorem balance_eq_zero (h : Journal ms version balance) (hv : version = 0) : balance = 0 := by
  have hlen : ms.length = 0 := by
    have hcount := h.versionCount
    omega
  rw [h.balanceSum, List.length_eq_zero_iff.mp hlen]
  rfl

/-- A journal grows by a movement that starts where it stands and carries
the next version. -/
theorem append (h : Journal ms version balance) {m : Movement G} (hv : m.version = version + 1)
    (hp : m.previous = balance) (hc : m.current = m.previous + m.amount) :
    Journal (ms ++ [m]) (version + 1) m.current where
  versionCount := by
    rw [h.versionCount, List.length_append, List.length_singleton, Nat.cast_add, Nat.cast_one]
  versions := by
    rw [List.map_append, List.length_append, List.length_singleton, List.range_succ,
      List.map_append, List.map_singleton, List.map_singleton, hv, h.versionCount]
    exact h.versions.append_right _
  first := by
    intro m' hm' hone
    cases List.mem_append.mp hm' with
    | inl hold => exact h.first m' hold hone
    | inr hnew =>
        obtain rfl := List.mem_singleton.mp hnew
        have hzero : version = 0 := by omega
        rw [hp, h.balance_eq_zero hzero]
  later := by
    intro m' hm' hlater
    cases List.mem_append.mp hm' with
    | inl hold =>
        obtain ⟨before, hmem, hver, hprev⟩ := h.later m' hold hlater
        exact ⟨before, List.mem_append_left _ hmem, hver, hprev⟩
    | inr hnew =>
        obtain rfl := List.mem_singleton.mp hnew
        have hversion : version ∈ ms.map (·.version) := h.mem_versions.mpr (by omega)
        obtain ⟨before, hmem, hver⟩ := List.mem_map.mp hversion
        refine ⟨before, List.mem_append_left _ hmem, ?_, ?_⟩
        · rw [hver, hv]
        · rw [hp, h.balanceLast before hmem hver]
  moved := by
    intro m' hm'
    cases List.mem_append.mp hm' with
    | inl hold => exact h.moved m' hold
    | inr hnew =>
        obtain rfl := List.mem_singleton.mp hnew
        exact hc
  balanceSum := by
    rw [List.map_append, List.sum_append, ← h.balanceSum, List.map_singleton,
      List.sum_singleton, hc, hp]
  balanceLast := by
    intro m' hm' hlast
    cases List.mem_append.mp hm' with
    | inl hold =>
        have hrange := h.mem_versions.mp (List.mem_map.mpr ⟨m', hold, rfl⟩)
        omega
    | inr hnew => rw [List.mem_singleton.mp hnew]

/-- A list whose image is known up to order can be put in that order. -/
theorem exists_perm_map {α β : Type} {f : α → β} {l : List α} {r : List β}
    (h : (l.map f).Perm r) : ∃ l' : List α, l'.Perm l ∧ l'.map f = r := by
  induction r generalizing l with
  | nil =>
      refine ⟨[], ?_, rfl⟩
      rw [List.map_eq_nil_iff.mp h.eq_nil]
  | cons b r ih =>
      obtain ⟨a, ha, rfl⟩ := List.mem_map.mp (h.mem_iff.mpr List.mem_cons_self)
      obtain ⟨before, after, rfl⟩ := List.append_of_mem ha
      have hmiddle : (before ++ a :: after).Perm (a :: (before ++ after)) := List.perm_middle
      have hrest : ((before ++ after).map f).Perm r :=
        ((hmiddle.map f).symm.trans h).cons_inv
      obtain ⟨l', hperm, hmap⟩ := ih hrest
      exact ⟨a :: l', (hperm.cons a).trans hmiddle.symm, by rw [List.map_cons, hmap]⟩

/-- The order of the movements does not matter. -/
theorem perm {ms' : List (Movement G)} (h : Journal ms version balance) (hperm : ms.Perm ms') :
    Journal ms' version balance where
  versionCount := by rw [h.versionCount, hperm.length_eq]
  versions := by
    rw [← hperm.length_eq]
    exact (hperm.map _).symm.trans h.versions
  first m hm := h.first m (hperm.mem_iff.mpr hm)
  later m hm hlater := by
    obtain ⟨m', hm', hversion, hprevious⟩ := h.later m (hperm.mem_iff.mpr hm) hlater
    exact ⟨m', hperm.mem_iff.mp hm', hversion, hprevious⟩
  moved m hm := h.moved m (hperm.mem_iff.mpr hm)
  balanceSum := by rw [h.balanceSum, (hperm.map (·.amount)).sum_eq]
  balanceLast m hm := h.balanceLast m (hperm.mem_iff.mpr hm)

/-- Movements in the order of their versions, each chained to the one below,
lead to the sum of their amounts. -/
theorem of_ordered
    (hversions : ms.map (·.version) = (List.range ms.length).map fun i : Nat => (i : Int) + 1)
    (hfirst : ∀ m ∈ ms, m.version = 1 → m.previous = 0)
    (hlater : ∀ m ∈ ms, 1 < m.version →
      ∃ m' ∈ ms, m'.version + 1 = m.version ∧ m.previous = m'.current)
    (hmoved : ∀ m ∈ ms, m.current = m.previous + m.amount) :
    Journal ms ms.length (ms.map (·.amount)).sum := by
  induction ms using List.reverseRecOn with
  | nil => exact nil
  | append_singleton ms m ih =>
      rw [List.map_append, List.length_append, List.length_singleton, List.range_succ,
        List.map_append] at hversions
      obtain ⟨hbefore, hlast⟩ := List.append_inj hversions (by simp)
      have hversion : m.version = ms.length + 1 := by simpa using hlast
      have hrange (m' : Movement G) (hm' : m' ∈ ms) : m'.version ≤ ms.length := by
        have hmem : m'.version ∈ ms.map (·.version) := List.mem_map_of_mem hm'
        rw [hbefore, List.mem_map] at hmem
        obtain ⟨i, hi, heq⟩ := hmem
        have hlt := List.mem_range.mp hi
        omega
      have hsplit (m' : Movement G) (hm' : m' ∈ ms ++ [m]) : m' ∈ ms ∨ m' = m := by
        simpa using hm'
      have hjournal : Journal ms ms.length (ms.map (·.amount)).sum := by
        refine ih hbefore (fun m' hm' => hfirst m' (List.mem_append_left _ hm')) ?_
          (fun m' hm' => hmoved m' (List.mem_append_left _ hm'))
        intro m' hm' hone
        obtain ⟨below, hbelow, hnext, hprevious⟩ := hlater m' (List.mem_append_left _ hm') hone
        rcases hsplit below hbelow with hin | rfl
        · exact ⟨below, hin, hnext, hprevious⟩
        · have hle := hrange m' hm'
          omega
      have hmem : m ∈ ms ++ [m] := List.mem_append_right _ (List.mem_singleton_self m)
      have hprevious : m.previous = (ms.map (·.amount)).sum := by
        by_cases hempty : ms.length = 0
        · rw [hfirst m hmem (by omega), List.length_eq_zero_iff.mp hempty]
          rfl
        · obtain ⟨below, hbelow, hnext, hchained⟩ := hlater m hmem (by omega)
          rcases hsplit below hbelow with hin | rfl
          · rw [hchained, hjournal.balanceLast below hin (by omega)]
          · omega
      have happend := hjournal.append hversion hprevious (hmoved m hmem)
      rw [← happend.balanceSum, List.length_append, List.length_singleton, Nat.cast_add,
        Nat.cast_one]
      exact happend

/-- **Recognising a journal**: the last movement need not be looked at. -/
theorem of_chain (hcount : version = ms.length)
    (hversions :
      (ms.map (·.version)).Perm ((List.range ms.length).map fun i : Nat => (i : Int) + 1))
    (hfirst : ∀ m ∈ ms, m.version = 1 → m.previous = 0)
    (hlater : ∀ m ∈ ms, 1 < m.version →
      ∃ m' ∈ ms, m'.version + 1 = m.version ∧ m.previous = m'.current)
    (hmoved : ∀ m ∈ ms, m.current = m.previous + m.amount)
    (hsum : balance = (ms.map (·.amount)).sum) : Journal ms version balance := by
  obtain ⟨ordered, hperm, hmap⟩ := exists_perm_map hversions
  have hjournal : Journal ordered ordered.length (ordered.map (·.amount)).sum := by
    refine of_ordered ?_ (fun m hm => hfirst m (hperm.mem_iff.mp hm)) ?_
      (fun m hm => hmoved m (hperm.mem_iff.mp hm))
    · rw [hmap, hperm.length_eq]
    · intro m hm hone
      obtain ⟨m', hm', hnext, hprevious⟩ := hlater m (hperm.mem_iff.mp hm) hone
      exact ⟨m', hperm.mem_iff.mpr hm', hnext, hprevious⟩
  rw [hperm.length_eq, (hperm.map (·.amount)).sum_eq, ← hcount, ← hsum] at hjournal
  exact hjournal.perm hperm

/-! ## totals at a version -/

/-- The sum of the amounts up to a version, in whatever order they are listed. -/
def upTo (ms : List (Movement G)) (v : Int) : G := ((ms.filter (·.version ≤ v)).map (·.amount)).sum

theorem nodup_versions (h : Journal ms version balance) : (ms.map (·.version)).Nodup := by
  refine h.versions.nodup_iff.mpr (List.nodup_range.map fun i j hij => ?_)
  have heq : (i : Int) + 1 = j + 1 := hij
  omega

/-- There is one movement with each version. -/
theorem filter_version (h : Journal ms version balance) {m : Movement G} (hm : m ∈ ms) :
    ms.filter (·.version = m.version) = [m] := by
  obtain ⟨before, after, rfl⟩ := List.append_of_mem hm
  have hnodup := h.nodup_versions
  rw [List.map_append, List.map_cons, List.nodup_middle, List.nodup_cons, ← List.map_append]
    at hnodup
  have hother (m' : Movement G) (hm' : m' ∈ before ++ after) : m'.version ≠ m.version :=
    fun heq => hnodup.1 (heq ▸ List.mem_map_of_mem hm')
  have hbefore : before.filter (·.version = m.version) = [] := by
    rw [List.filter_eq_nil_iff]
    intro m' hm'
    simpa using hother m' (List.mem_append_left _ hm')
  have hafter : after.filter (·.version = m.version) = [] := by
    rw [List.filter_eq_nil_iff]
    intro m' hm'
    simpa using hother m' (List.mem_append_right _ hm')
  rw [List.filter_append, List.filter_cons_of_pos (by simp), hbefore, hafter, List.nil_append]

/-- What the movements with the next version add. -/
theorem upTo_succ (ms : List (Movement G)) (v : Int) :
    upTo ms (v + 1) = upTo ms v + ((ms.filter (·.version = v + 1)).map (·.amount)).sum := by
  simp only [upTo]
  induction ms with
  | nil => simp
  | cons m ms ih =>
      rcases Int.lt_trichotomy m.version (v + 1) with hlt | heq | hgt
      · have hle : m.version ≤ v := by omega
        have hle' : m.version ≤ v + 1 := by omega
        have hne : m.version ≠ v + 1 := by omega
        simp [hle, hle', hne, ih, add_assoc]
      · have hnot : ¬ m.version ≤ v := by omega
        rw [List.filter_cons_of_pos (by simp [heq]), List.filter_cons_of_neg (by simpa using hnot),
          List.filter_cons_of_pos (by simp [heq]), List.map_cons, List.sum_cons, ih, List.map_cons,
          List.sum_cons, add_left_comm]
      · have hnot : ¬ m.version ≤ v := by omega
        have hnot' : ¬ m.version ≤ v + 1 := by omega
        have hne : m.version ≠ v + 1 := by omega
        simp [hnot, hnot', hne, ih]

theorem upTo_zero (h : Journal ms version balance) : upTo ms 0 = 0 := by
  have hnone : ms.filter (fun m => m.version ≤ (0 : Int)) = [] := by
    rw [List.filter_eq_nil_iff]
    intro m hm
    have hpos := (h.mem_versions.mp (List.mem_map_of_mem hm)).1
    simp only [decide_eq_true_eq]
    omega
  rw [upTo, hnone]
  rfl

/-- **Totals at a version**: after a movement the total is the sum of the amounts
up to its version, by induction on the version. -/
theorem current_eq_upTo (h : Journal ms version balance) {m : Movement G} (hm : m ∈ ms) :
    m.current = upTo ms m.version := by
  obtain ⟨n, hn⟩ : ∃ n : Nat, m.version = n + 1 := by
    have hpos := (h.mem_versions.mp (List.mem_map_of_mem hm)).1
    exact ⟨(m.version - 1).toNat, by omega⟩
  induction n generalizing m with
  | zero =>
      have hone : m.version = 0 + 1 := hn
      rw [hone, upTo_succ, h.upTo_zero, ← hone, h.filter_version hm, h.moved m hm,
        h.first m hm (by omega)]
      simp
  | succ n ih =>
      obtain ⟨below, hbelow, hnext, hprevious⟩ := h.later m hm (by push_cast at hn; omega)
      have hversion : below.version = n + 1 := by push_cast at hn; omega
      rw [← hnext, upTo_succ, hnext, h.filter_version hm, h.moved m hm, hprevious,
        ih hbelow hversion]
      simp

end Journal

/-! ## sums over classes -/

section Sums

variable {α κ : Type} [DecidableEq κ] (key : α → κ) (val : α → G)

/-- An item counts once among distinct keys. -/
theorem sum_indicator {keys : List κ} (hkeys : keys.Nodup) {k : κ} (hk : k ∈ keys) (g : G) :
    (keys.map fun k' => if k = k' then g else 0).sum = g := by
  induction keys with
  | nil => exact absurd hk List.not_mem_nil
  | cons k₁ keys ih =>
      rw [List.nodup_cons] at hkeys
      rw [List.map_cons, List.sum_cons]
      rcases List.mem_cons.mp hk with rfl | hmem
      · have hzero : (keys.map fun k' => if k = k' then g else 0) = keys.map fun _ => 0 :=
          List.map_congr_left fun k' hk' => if_neg fun heq : k = k' => hkeys.1 (heq ▸ hk')
        rw [if_pos rfl, hzero]
        simp
      · have hne : k ≠ k₁ := fun heq => hkeys.1 (heq ▸ hmem)
        rw [if_neg hne, zero_add, ih hkeys.2 hmem]

/-- Summing class by class is summing once, when every item has its key
among the distinct keys. -/
theorem sum_classes {keys : List κ} (hkeys : keys.Nodup) (as : List α)
    (has : ∀ a ∈ as, key a ∈ keys) :
    (keys.map fun k => ((as.filter fun a => key a = k).map val).sum).sum = (as.map val).sum := by
  induction as with
  | nil => simp
  | cons a as ih =>
      have hrest := ih fun b hb => has b (List.mem_cons_of_mem a hb)
      have hsplit : (keys.map fun k => (((a :: as).filter fun a => key a = k).map val).sum) =
          keys.map fun k => (if key a = k then val a else 0) +
            ((as.filter fun a => key a = k).map val).sum := by
        refine List.map_congr_left fun k _ => ?_
        by_cases hk : key a = k
        · simp [hk]
        · simp [hk]
      rw [hsplit, List.sum_map_add, hrest, sum_indicator hkeys (has a List.mem_cons_self),
        List.map_cons, List.sum_cons]

end Sums

end PgLedger
