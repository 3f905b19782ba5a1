import Mathlib.Data.List.Pairwise
import Mathlib.Data.List.ReduceOption
import Mathlib.Data.List.Flatten
import Mathlib.Data.Option.Basic

/-!
# PgLedger.Slots

Tables under change, in general.  A table is a list of slots, one for every
row that was ever inserted; the slot of a deleted row stays, empty.  So the
place of a slot is the identity of its row, whatever is written into it, and
that a row is never changed is a statement about one place.

`Changes` is what the changes of a kind do to a single row.  A sequence of
changes acts slot by slot (`applyAll_eq`), which is what makes changes of
different keys independent of each other (`Distinct.disjoint`).
-/

namespace PgLedger

/-- A table with the rows that were deleted. -/
abbrev Slots (ρ : Type) := List (Option ρ)

/-- What changes do: what becomes of a row, and which row is added.  The keys
that a change touches are those of the rows that it changes or adds, before
and after. -/
structure Changes (ρ κ δ : Type) where
  key : ρ → κ
  onRow : δ → ρ → Option ρ
  inserted : δ → Option ρ
  touches : δ → List κ
  onRow_of_not_mem : ∀ {d : δ} {a : ρ}, key a ∉ touches d → onRow d a = some a
  key_onRow : ∀ {d : δ} {a a' : ρ}, onRow d a = some a' → key a' = key a ∨ key a' ∈ touches d
  key_inserted : ∀ {d : δ} {a : ρ}, inserted d = some a → key a ∈ touches d

/-- The usual change of a table: a row is added, replaced or deleted. -/
inductive RowChange (ρ κ : Type) where
  | insert (row : ρ)
  | replace (k : κ) (row : ρ)
  | delete (k : κ)
  | other

namespace RowChange

variable {ρ κ : Type} (key : ρ → κ)

def onRow [DecidableEq κ] : RowChange ρ κ → ρ → Option ρ
  | replace k row, a => some (if key a = k then row else a)
  | delete k, a => if key a = k then none else some a
  | _, a => some a

def inserted : RowChange ρ κ → Option ρ
  | insert row => some row
  | _ => none

def touches : RowChange ρ κ → List κ
  | insert row => [key row]
  | replace k row => [k, key row]
  | delete k => [k]
  | other => []

end RowChange

namespace Changes

/-- The changes of one table among changes of several: `kind` says what a
change is to this table. -/
def ofKind {ρ κ δ : Type} [DecidableEq κ] (key : ρ → κ) (kind : δ → RowChange ρ κ) :
    Changes ρ κ δ where
  key := key
  onRow d := (kind d).onRow key
  inserted d := (kind d).inserted
  touches d := (kind d).touches key
  onRow_of_not_mem := by
    intro d a h
    cases hkind : kind d with
    | insert row | other => rfl
    | replace k row =>
        rw [hkind, RowChange.touches, List.mem_cons, not_or] at h
        rw [RowChange.onRow, if_neg h.1]
    | delete k =>
        rw [hkind, RowChange.touches, List.mem_singleton] at h
        rw [RowChange.onRow, if_neg h]
  key_onRow := by
    intro d a a' h
    cases hkind : kind d with
    | insert row | other =>
        rw [hkind] at h
        exact .inl (congrArg key (Option.some.inj h).symm)
    | replace k row =>
        rw [hkind, RowChange.onRow, Option.some.injEq] at h
        split at h
        · exact .inr (by simp [RowChange.touches, ← h])
        · exact .inl (congrArg key h.symm)
    | delete k =>
        rw [hkind, RowChange.onRow] at h
        split at h
        · contradiction
        · exact .inl (congrArg key (Option.some.inj h).symm)
  key_inserted := by
    intro d a h
    cases hkind : kind d with
    | insert row =>
        rw [hkind] at h
        obtain rfl := Option.some.inj h
        exact List.mem_singleton_self _
    | replace k row | delete k | other =>
        rw [hkind] at h
        contradiction

variable {ρ κ δ : Type} (c : Changes ρ κ δ)

def apply (d : δ) (slots : Slots ρ) : Slots ρ :=
  slots.map (·.bind (c.onRow d)) ++ (c.inserted d).toList.map some

def applyAll (ds : List δ) (slots : Slots ρ) : Slots ρ :=
  ds.foldl (fun slots d => c.apply d slots) slots

/-- What becomes of a row. -/
def after : List δ → ρ → Option ρ
  | [], a => some a
  | d :: ds, a => (c.onRow d a).bind (after ds)

/-- The slots that are added, with what has become of their rows. -/
def added : List δ → Slots ρ
  | [] => []
  | d :: ds => (c.inserted d).toList.map (c.after ds) ++ added ds

def touched (ds : List δ) : List κ := ds.flatMap c.touches

variable {c} {d : δ} {ds es : List δ} {slots : Slots ρ} {a a' : ρ}

/-! ## slot by slot -/

/-- Changes one after another. -/
theorem applyAll_append : c.applyAll (ds ++ es) slots = c.applyAll es (c.applyAll ds slots) :=
  List.foldl_append

/-- A sequence of changes acts on every slot by itself and adds slots at the
end. -/
theorem applyAll_eq : c.applyAll ds slots = slots.map (·.bind (c.after ds)) ++ c.added ds := by
  induction ds generalizing slots with
  | nil =>
      have hid : (fun x : Option ρ => x.bind (c.after [])) = id := by
        funext x
        exact Option.bind_fun_some x
      rw [hid, List.map_id, added, List.append_nil]
      rfl
  | cons d ds ih =>
      have hcompose : (fun x : Option ρ => x.bind (c.after ds)) ∘
          (fun x : Option ρ => x.bind (c.onRow d)) = fun x => x.bind (c.after (d :: ds)) := by
        funext x
        exact Option.bind_assoc x _ _
      show c.applyAll ds (c.apply d slots) = _
      rw [ih, apply, List.map_append, List.map_map, List.map_map, hcompose, added,
        List.append_assoc]
      rfl

/-- A slot keeps its place. -/
theorem getElem?_applyAll {k : Nat} {x : Option ρ} (h : slots[k]? = some x) :
    (c.applyAll ds slots)[k]? = some (x.bind (c.after ds)) := by
  have hlt : k < (slots.map (·.bind (c.after ds))).length := by
    rw [List.length_map]
    exact (List.getElem?_eq_some_iff.mp h).1
  rw [applyAll_eq, List.getElem?_append_left hlt, List.getElem?_map, h, Option.map_some]

/-- The rows after a change that deletes none. -/
theorem reduceOption_apply {f : ρ → ρ} (h : ∀ a, c.onRow d a = some (f a)) :
    (c.apply d slots).reduceOption = slots.reduceOption.map f ++ (c.inserted d).toList := by
  have hmap : (fun x : Option ρ => x.bind (c.onRow d)) = Option.map f := by
    funext x
    rw [funext h]
    exact Option.map_eq_bind.symm
  rw [apply, hmap, List.reduceOption_append, List.reduceOption_map]
  cases c.inserted d with
  | none => rfl
  | some a => rfl

section
variable [DecidableEq κ] {key : ρ → κ} {kind : δ → RowChange ρ κ}

theorem onRow_ofKind : (ofKind key kind).onRow d = (kind d).onRow key := rfl

theorem inserted_ofKind : (ofKind key kind).inserted d = (kind d).inserted := rfl

/-- An insert adds its row at the end. -/
theorem rows_insert {row : ρ} (h : kind d = .insert row) :
    ((ofKind key kind).applyAll [d] slots).reduceOption = slots.reduceOption ++ [row] := by
  have happly : ((ofKind key kind).apply d slots).reduceOption = _ :=
    reduceOption_apply (f := id) fun a => by rw [onRow_ofKind, h]; rfl
  rw [List.map_id, inserted_ofKind, h] at happly
  exact happly

/-- A replacement puts the new row in the place of those with the key. -/
theorem rows_replace {k : κ} {row : ρ} (h : kind d = .replace k row) :
    ((ofKind key kind).applyAll [d] slots).reduceOption =
      slots.reduceOption.map fun a => if key a = k then row else a := by
  have happly : ((ofKind key kind).apply d slots).reduceOption = _ :=
    reduceOption_apply fun a => by rw [onRow_ofKind, h]; rfl
  rw [inserted_ofKind, h] at happly
  exact happly.trans (List.append_nil _)

/-- A deletion leaves the rows with other keys. -/
theorem rows_delete {k : κ} (h : kind d = .delete k) :
    ((ofKind key kind).applyAll [d] slots).reduceOption =
      slots.reduceOption.filter (key · ≠ k) := by
  have hrow (a : ρ) : (ofKind key kind).onRow d a = if key a = k then none else some a := by
    rw [onRow_ofKind, h]
    rfl
  show ((ofKind key kind).apply d slots).reduceOption = _
  rw [apply, inserted_ofKind, h, List.reduceOption_append]
  refine (List.append_nil _).trans ?_
  induction slots with
  | nil => rfl
  | cons x slots ih =>
      cases x with
      | none => simpa using ih
      | some a =>
          by_cases ha : key a = k
          · simpa [hrow, ha] using ih
          · simpa [hrow, ha] using ih

/-- A change of another table does nothing to this one. -/
theorem rows_other (h : kind d = .other) :
    ((ofKind key kind).applyAll [d] slots).reduceOption = slots.reduceOption := by
  have happly : ((ofKind key kind).apply d slots).reduceOption = _ :=
    reduceOption_apply (f := id) fun a => by rw [onRow_ofKind, h]; rfl
  rw [List.map_id, inserted_ofKind, h] at happly
  exact happly.trans (List.append_nil _)

end

/-- Changes that leave every row alone only add rows. -/
theorem prefix_applyAll (h : ∀ d ∈ ds, ∀ a, c.onRow d a = some a) :
    slots <+: c.applyAll ds slots := by
  have hafter (a : ρ) : c.after ds a = some a := by
    induction ds with
    | nil => rfl
    | cons d ds ih =>
        rw [after, h d List.mem_cons_self, Option.bind_some]
        exact ih fun d' hd' => h d' (List.mem_cons_of_mem d hd')
  have hsame : (fun x : Option ρ => x.bind (c.after ds)) = id := by
    funext x
    rw [funext hafter]
    exact Option.bind_fun_some x
  rw [applyAll_eq, hsame, List.map_id]
  exact List.prefix_append _ _

/-! ## keys -/

/-- A row whose key is not touched stays as it is. -/
theorem after_of_not_mem (h : c.key a ∉ c.touched ds) : c.after ds a = some a := by
  induction ds with
  | nil => rfl
  | cons d ds ih =>
      rw [touched, List.flatMap_cons, List.mem_append, not_or] at h
      rw [after, c.onRow_of_not_mem h.1, Option.bind_some, ih h.2]

/-- A row keeps its key or gets one that is touched. -/
theorem key_after (h : c.after ds a = some a') :
    c.key a' = c.key a ∨ c.key a' ∈ c.touched ds := by
  induction ds generalizing a with
  | nil => exact .inl (congrArg c.key (Option.some.inj h).symm)
  | cons d ds ih =>
      obtain ⟨b, hb, hrest⟩ := Option.bind_eq_some_iff.mp h
      rw [touched, List.flatMap_cons, List.mem_append]
      rcases ih hrest with heq | hmem
      · rw [heq]
        exact (c.key_onRow hb).imp_right .inl
      · exact .inr (.inr hmem)

/-- The key of an added row is touched. -/
theorem key_added (h : some a ∈ c.added ds) : c.key a ∈ c.touched ds := by
  induction ds with
  | nil => exact absurd h List.not_mem_nil
  | cons d ds ih =>
      rw [touched, List.flatMap_cons, List.mem_append]
      rcases List.mem_append.mp h with hfirst | hrest
      · obtain ⟨b, hb, hafter⟩ := List.mem_map.mp hfirst
        have hkey := c.key_inserted (Option.mem_toList.mp hb)
        rcases key_after hafter with heq | hmem
        · rw [heq]
          exact .inl hkey
        · exact .inr hmem
      · exact .inr (ih hrest)

/-! ## distinct keys -/

variable (c) in
/-- No two rows have the same key. -/
def Distinct (slots : Slots ρ) : Prop :=
  slots.Pairwise fun x y => ∀ a ∈ x, ∀ b ∈ y, c.key a ≠ c.key b

/-- Rows with the same key are the same row. -/
theorem Distinct.eq (h : c.Distinct slots) (ha : some a ∈ slots) (ha' : some a' ∈ slots)
    (hkey : c.key a = c.key a') : a = a' := by
  by_contra hne
  have hsym : Std.Symm fun x y : Option ρ => ∀ a ∈ x, ∀ b ∈ y, c.key a ≠ c.key b :=
    ⟨fun x y hxy a ha b hb => (hxy b hb a ha).symm⟩
  exact h.forall ha ha' (fun heq => hne (Option.some.inj heq)) a rfl a' rfl hkey

/-- One change: rows with different keys still have different keys, and an
added row has a new one. -/
theorem Distinct.apply (h : c.Distinct slots)
    (hrows : ∀ a b, some a ∈ slots → some b ∈ slots → c.key a ≠ c.key b →
      ∀ a' ∈ c.onRow d a, ∀ b' ∈ c.onRow d b, c.key a' ≠ c.key b')
    (hadded : ∀ a, some a ∈ slots → ∀ a' ∈ c.onRow d a, ∀ b ∈ c.inserted d,
      c.key a' ≠ c.key b) : c.Distinct (c.apply d slots) := by
  rw [Distinct, Changes.apply, List.pairwise_append, List.pairwise_map, List.pairwise_map]
  refine ⟨?_, ?_, ?_⟩
  · refine List.Pairwise.imp_of_mem (fun {x y} hx hy hxy a' ha' b' hb' => ?_) h
    obtain ⟨a, rfl, hafter⟩ := Option.bind_eq_some_iff.mp ha'
    obtain ⟨b, rfl, hbfter⟩ := Option.bind_eq_some_iff.mp hb'
    exact hrows a b hx hy (hxy a rfl b rfl) a' hafter b' hbfter
  · cases c.inserted d with
    | none => exact List.Pairwise.nil
    | some b => exact List.pairwise_singleton _ _
  · intro x hx y hy a' ha' b' hb'
    obtain ⟨x, hmem, rfl⟩ := List.mem_map.mp hx
    obtain ⟨a, rfl, hafter⟩ := Option.bind_eq_some_iff.mp ha'
    obtain ⟨b, hb, rfl⟩ := List.mem_map.mp hy
    obtain rfl := Option.some.inj hb'
    exact hadded a hmem a' hafter b (Option.mem_toList.mp hb)

section
variable [DecidableEq κ] {key : ρ → κ} {kind : δ → RowChange ρ κ}

/-- Inserting a row with a new key keeps the keys distinct. -/
theorem Distinct.insert {row : ρ} (h : (ofKind key kind).Distinct slots)
    (hkind : kind d = .insert row) (hnew : ∀ a, some a ∈ slots → key a ≠ key row) :
    (ofKind key kind).Distinct ((ofKind key kind).apply d slots) := by
  refine h.apply ?_ ?_
  · intro a b _ _ hne a' ha' b' hb'
    rw [onRow_ofKind, hkind] at ha' hb'
    obtain rfl := Option.some.inj ha'
    obtain rfl := Option.some.inj hb'
    exact hne
  · intro a ha a' ha' b hb
    rw [onRow_ofKind, hkind] at ha'
    rw [inserted_ofKind, hkind] at hb
    obtain rfl := Option.some.inj ha'
    obtain rfl := Option.some.inj hb
    exact hnew a ha

/-- The new version of a row keeps the key, or gets one that is free. -/
theorem Distinct.replace {k : κ} {row : ρ} (h : (ofKind key kind).Distinct slots)
    (hkind : kind d = .replace k row)
    (hkey : key row = k ∨ ∀ a, some a ∈ slots → key a ≠ key row) :
    (ofKind key kind).Distinct ((ofKind key kind).apply d slots) := by
  have hother (a : ρ) (ha : some a ∈ slots) (hne : key a ≠ k) : key a ≠ key row := by
    rcases hkey with rfl | hfree
    · exact hne
    · exact hfree a ha
  refine h.apply ?_ ?_
  · intro a b ha hb hne a' ha' b' hb'
    rw [onRow_ofKind, hkind] at ha' hb'
    obtain rfl := Option.some.inj ha'
    obtain rfl := Option.some.inj hb'
    change key a ≠ key b at hne
    show key (if key a = k then row else a) ≠ key (if key b = k then row else b)
    by_cases hak : key a = k
    · have hbk : key b ≠ k := fun heq => hne (hak.trans heq.symm)
      rw [if_pos hak, if_neg hbk]
      exact (hother b hb hbk).symm
    · rw [if_neg hak]
      by_cases hbk : key b = k
      · rw [if_pos hbk]
        exact hother a ha hak
      · rw [if_neg hbk]
        exact hne
  · intro a _ a' _ b hb
    rw [inserted_ofKind, hkind] at hb
    contradiction

/-- Rows that are deleted, or left alone. -/
theorem Distinct.keep (h : (ofKind key kind).Distinct slots)
    (hkind : (∃ k, kind d = .delete k) ∨ kind d = .other) :
    (ofKind key kind).Distinct ((ofKind key kind).apply d slots) := by
  have hsame {a a' : ρ} (ha' : a' ∈ (ofKind key kind).onRow d a) : a' = a := by
    rw [onRow_ofKind] at ha'
    rcases hkind with ⟨k, hkind⟩ | hkind
    · rw [hkind, RowChange.onRow, Option.mem_def] at ha'
      split at ha'
      · contradiction
      · exact (Option.some.inj ha').symm
    · rw [hkind] at ha'
      exact (Option.some.inj ha').symm
  refine h.apply ?_ ?_
  · intro a b _ _ hne a' ha' b' hb'
    rw [hsame ha', hsame hb']
    exact hne
  · intro a _ a' _ b hb
    rw [inserted_ofKind] at hb
    rcases hkind with ⟨k, hkind⟩ | hkind
    · rw [hkind] at hb
      contradiction
    · rw [hkind] at hb
      contradiction

end

/-- After changes of disjoint keys, a row is a row of one side only. -/
theorem after_disjoint (hdisjoint : ∀ k ∈ c.touched es, k ∉ c.touched ds) {x : Option ρ}
    (h : (x.bind (c.after ds)).bind (c.after es) = some a) :
    (x.bind (c.after ds) = some a ∧ c.key a ∈ c.touched ds) ∨
      (x.bind (c.after es) = some a ∧ c.key a ∉ c.touched ds) := by
  obtain ⟨a₁, ha₁, hes⟩ := Option.bind_eq_some_iff.mp h
  obtain ⟨a₀, rfl, hds⟩ := Option.bind_eq_some_iff.mp ha₁
  by_cases htouched : c.key a₁ ∈ c.touched ds
  · have hspared : c.key a₁ ∉ c.touched es := fun hmem => hdisjoint _ hmem htouched
    rw [after_of_not_mem hspared] at hes
    obtain rfl := Option.some.inj hes
    exact .inl ⟨hds, htouched⟩
  · have hfirst : c.key a₀ ∉ c.touched ds := by
      intro hmem
      have hspared : c.key a₀ ∉ c.touched es := fun hmem' => hdisjoint _ hmem' hmem
      rcases key_after hds with heq | hin
      · exact htouched (heq ▸ hmem)
      · exact htouched hin
    rw [after_of_not_mem hfirst] at hds
    obtain rfl := Option.some.inj hds
    refine .inr ⟨hes, ?_⟩
    rcases key_after hes with heq | hin
    · rw [heq]
      exact hfirst
    · exact hdisjoint _ hin

/-- **Independence**: changes that keep the keys distinct still do after
changes of other keys. -/
theorem Distinct.disjoint (hds : c.Distinct (c.applyAll ds slots))
    (hes : c.Distinct (c.applyAll es slots))
    (hdisjoint : ∀ k ∈ c.touched es, k ∉ c.touched ds) :
    c.Distinct (c.applyAll es (c.applyAll ds slots)) := by
  rw [Distinct, applyAll_eq, List.pairwise_append, List.pairwise_map] at hds hes
  obtain ⟨hds, hdsAdded, hdsCross⟩ := hds
  obtain ⟨hes, hesAdded, hesCross⟩ := hes
  -- the rows that `ds` adds, which `es` leaves alone
  have hold {y : Option ρ} (hy : y ∈ c.added ds) {b : ρ} (hb : y.bind (c.after es) = some b) :
      y = some b ∧ c.key b ∈ c.touched ds := by
    obtain ⟨b₀, rfl, hafter⟩ := Option.bind_eq_some_iff.mp hb
    have htouched := key_added hy
    rw [after_of_not_mem fun hmem => hdisjoint _ hmem htouched] at hafter
    obtain rfl := Option.some.inj hafter
    exact ⟨rfl, htouched⟩
  have hnew {b : ρ} (hb : some b ∈ c.added es) : c.key b ∉ c.touched ds :=
    hdisjoint _ (key_added hb)
  rw [Distinct, applyAll_eq, applyAll_eq, List.map_append, List.map_map, List.append_assoc,
    List.pairwise_append, List.pairwise_append, List.pairwise_map, List.pairwise_map]
  refine ⟨?_, ⟨?_, hesAdded, ?_⟩, ?_⟩
  · refine (hds.and hes).imp fun {x y} hxy a ha b hb => ?_
    rcases after_disjoint hdisjoint ha with ⟨ha, htouched⟩ | ⟨ha, htouched⟩
    · rcases after_disjoint hdisjoint hb with ⟨hb, htouched'⟩ | ⟨hb, htouched'⟩
      · exact hxy.1 a ha b hb
      · exact fun heq => htouched' (heq ▸ htouched)
    · rcases after_disjoint hdisjoint hb with ⟨hb, htouched'⟩ | ⟨hb, htouched'⟩
      · exact fun heq => htouched (heq ▸ htouched')
      · exact hxy.2 a ha b hb
  · refine List.Pairwise.imp_of_mem (fun {x y} hx hy hxy a ha b hb => ?_) hdsAdded
    exact hxy a (hold hx ha).1 b (hold hy hb).1
  · intro x hx y hy a ha b hb
    obtain ⟨x₀, hmem, rfl⟩ := List.mem_map.mp hx
    obtain rfl : y = some b := hb
    exact fun heq => hnew hy (heq ▸ (hold hmem ha).2)
  · intro x hx y hy a ha b hb
    obtain ⟨x₀, hmem, rfl⟩ := List.mem_map.mp hx
    rcases List.mem_append.mp hy with hyds | hyes
    · obtain ⟨y₀, hmem', rfl⟩ := List.mem_map.mp hyds
      obtain ⟨rfl, htouched'⟩ := hold hmem' hb
      rcases after_disjoint hdisjoint ha with ⟨ha, -⟩ | ⟨ha, htouched⟩
      · exact hdsCross _ (List.mem_map_of_mem hmem) _ hmem' a ha b rfl
      · exact fun heq => htouched (heq ▸ htouched')
    · obtain rfl : y = some b := hb
      rcases after_disjoint hdisjoint ha with ⟨ha, htouched⟩ | ⟨ha, -⟩
      · exact fun heq => hnew hyes (heq ▸ htouched)
      · exact hesCross _ (List.mem_map_of_mem hmem) _ hyes a ha b rfl

/-! ## what the changes do to the rows -/

variable (c) in
/-- Every change does to every row that is there what `K` allows. -/
def Respects (K : δ → ρ → ρ → Prop) : List δ → Slots ρ → Prop
  | [], _ => True
  | d :: ds, slots => (∀ a, some a ∈ slots → ∀ a' ∈ c.onRow d a, K d a a') ∧
      Respects K ds (c.apply d slots)

variable {K : δ → ρ → ρ → Prop} {slots' : Slots ρ}

/-- Changes one after another respect what each part respects. -/
theorem respects_append : c.Respects K (ds ++ es) slots ↔
    c.Respects K ds slots ∧ c.Respects K es (c.applyAll ds slots) := by
  induction ds generalizing slots with
  | nil => exact (iff_of_eq (true_and _)).symm
  | cons d ds ih =>
      show _ ∧ c.Respects K (ds ++ es) (c.apply d slots) ↔ _
      rw [ih, ← and_assoc]
      rfl

/-- The rows after a change were there before, changed, or are new. -/
theorem mem_apply : some a ∈ c.apply d slots ↔
    (∃ b, some b ∈ slots ∧ c.onRow d b = some a) ∨ c.inserted d = some a := by
  rw [apply, List.mem_append, List.mem_map, List.mem_map]
  refine or_congr ⟨?_, ?_⟩ ⟨?_, ?_⟩
  · rintro ⟨x, hx, h⟩
    obtain ⟨b, rfl, hb⟩ := Option.bind_eq_some_iff.mp h
    exact ⟨b, hx, hb⟩
  · rintro ⟨b, hb, h⟩
    exact ⟨some b, hb, h⟩
  · rintro ⟨b, hb, h⟩
    obtain rfl := Option.some.inj h
    exact Option.mem_toList.mp hb
  · intro h
    exact ⟨a, Option.mem_toList.mpr h, rfl⟩

/-- A row that was not there before has a key that was touched. -/
theorem mem_applyAll (h : some a ∈ c.applyAll ds slots) :
    some a ∈ slots ∨ c.key a ∈ c.touched ds := by
  rw [applyAll_eq, List.mem_append, List.mem_map] at h
  rcases h with ⟨x, hx, hafter⟩ | hadded
  · obtain ⟨b, rfl, hb⟩ := Option.bind_eq_some_iff.mp hafter
    by_cases hkey : c.key b ∈ c.touched ds
    · rcases key_after hb with heq | hmem
      · rw [heq]
        exact .inr hkey
      · exact .inr hmem
    · rw [after_of_not_mem hkey] at hb
      obtain rfl := Option.some.inj hb
      exact .inl hx
  · exact .inr (key_added hadded)

/-- The changes do the same to other slots, as far as the rows there are the
same or have other keys. -/
theorem Respects.transfer (hrefl : ∀ d a, K d a a) (h : c.Respects K ds slots)
    (hslots : ∀ a, some a ∈ slots' → some a ∈ slots ∨ c.key a ∉ c.touched ds) :
    c.Respects K ds slots' := by
  induction ds generalizing slots slots' with
  | nil => trivial
  | cons d ds ih =>
      obtain ⟨hfirst, hrest⟩ := h
      have hspared {a : ρ} (ha : c.key a ∉ c.touched (d :: ds)) :
          c.onRow d a = some a ∧ c.key a ∉ c.touched ds := by
        rw [touched, List.flatMap_cons, List.mem_append, not_or] at ha
        exact ⟨c.onRow_of_not_mem ha.1, ha.2⟩
      refine ⟨fun a ha a' ha' => ?_, ih hrest fun a' ha' => ?_⟩
      · rcases hslots a ha with hmem | hother
        · exact hfirst a hmem a' ha'
        · rw [(hspared hother).1] at ha'
          obtain rfl := Option.some.inj ha'
          exact hrefl d a
      · rcases mem_apply.mp ha' with ⟨a, ha, hafter⟩ | hinserted
        · rcases hslots a ha with hmem | hother
          · exact .inl (mem_apply.mpr (.inl ⟨a, hmem, hafter⟩))
          · rw [(hspared hother).1] at hafter
            obtain rfl := Option.some.inj hafter
            exact .inr (hspared hother).2
        · exact .inl (mem_apply.mpr (.inr hinserted))

/-- What no change alters, no sequence of changes alters. -/
theorem Respects.after_eq {β : Type} {f : ρ → β} (hK : ∀ d a a', K d a a' → f a' = f a)
    (h : c.Respects K ds slots) (ha : some a ∈ slots) (hafter : c.after ds a = some a') :
    f a' = f a := by
  induction ds generalizing slots a with
  | nil => rw [Option.some.inj hafter]
  | cons d ds ih =>
      obtain ⟨b, hb, hrest⟩ := Option.bind_eq_some_iff.mp hafter
      rw [ih h.2 (mem_apply.mpr (.inl ⟨a, ha, hb⟩)) hrest, hK d a b (h.1 a ha b hb)]

/-- What has been altered was altered by one of the changes. -/
theorem Respects.exists_change {β : Type} {f : ρ → β} (h : c.Respects K ds slots)
    (ha : some a ∈ slots) (hafter : c.after ds a = some a') : f a' = f a ∨
      ∃ pre d post b b', ds = pre ++ d :: post ∧ c.after pre a = some b ∧
        c.onRow d b = some b' ∧ K d b b' ∧ f b' ≠ f b := by
  induction ds generalizing slots a with
  | nil => exact .inl (by rw [Option.some.inj hafter])
  | cons d ds ih =>
      obtain ⟨b, hb, hrest⟩ := Option.bind_eq_some_iff.mp hafter
      by_cases heq : f b = f a
      · rcases ih h.2 (mem_apply.mpr (.inl ⟨a, ha, hb⟩)) hrest with hsame | hchanged
        · exact .inl (hsame.trans heq)
        · obtain ⟨pre, e, post, b₁, b', rfl, hpre, hrest⟩ := hchanged
          refine .inr ⟨d :: pre, e, post, b₁, b', rfl, ?_, hrest⟩
          rw [after, hb, Option.bind_some, hpre]
      · exact .inr ⟨[], d, ds, a, b, rfl, rfl, hb, h.1 a ha b hb, heq⟩

end Changes

end PgLedger
