import Mathlib.Tactic.Common

/-!
# PgLedger.Result

Inversion lemmas for `Except` programs, and the packaging of a checked
result together with the proof of what was checked.
-/

namespace PgLedger

variable {ε α β : Type}

@[simp] theorem ok_bind {a : α} {f : α → Except ε β} : (Except.ok a >>= f) = f a := rfl

@[simp] theorem error_bind {e : ε} {f : α → Except ε β} : (Except.error e >>= f) = .error e := rfl

/-- A sequence succeeds exactly when both of its halves do. -/
theorem bind_eq_ok {x : Except ε α} {f : α → Except ε β} {b : β} :
    (x >>= f) = .ok b ↔ ∃ a, x = .ok a ∧ f a = .ok b := by
  cases x with
  | error e => simp [bind, Except.bind]
  | ok a => simp [bind, Except.bind]

/-- And fails exactly when one of them does. -/
theorem bind_eq_error {x : Except ε α} {f : α → Except ε β} {e : ε} :
    (x >>= f) = .error e ↔ x = .error e ∨ ∃ a, x = .ok a ∧ f a = .error e := by
  cases x with
  | error e => simp [bind, Except.bind]
  | ok a => simp [bind, Except.bind]

/-- A guard in front of a program lets it run exactly when it does not fire. -/
theorem guard_eq_ok {p : Prop} [Decidable p] {e : ε} {x : Except ε α} {a : α} :
    (if p then .error e else x) = .ok a ↔ ¬ p ∧ x = .ok a := by
  by_cases hp : p
  · simp [hp]
  · simp [hp]

theorem mapError_eq_ok {δ : Type} {x : Except ε α} {f : ε → δ} {a : α} :
    x.mapError f = .ok a ↔ x = .ok a := by
  cases x with
  | error e => simp [Except.mapError]
  | ok b => simp [Except.mapError]

/-- A walk over a list succeeds exactly when every element passes. -/
theorem forM_eq_ok {f : α → Except ε Unit} {as : List α} :
    as.forM f = .ok () ↔ ∀ a ∈ as, f a = .ok () := by
  induction as with
  | nil => exact iff_of_true rfl fun _ h => absurd h List.not_mem_nil
  | cons a as ih =>
      show (f a >>= fun _ => as.forM f) = .ok () ↔ _
      rw [bind_eq_ok, List.forall_mem_cons, ← ih]
      constructor
      · intro h
        obtain ⟨_, ha, has⟩ := h
        exact ⟨ha, has⟩
      · intro h
        exact ⟨(), h.1, h.2⟩

/-- A walk that fails has failed on an element. -/
theorem exists_of_forM_eq_error {f : α → Except ε Unit} {as : List α} {e : ε}
    (h : as.forM f = .error e) : ∃ a ∈ as, f a = .error e := by
  induction as with
  | nil => contradiction
  | cons a as ih =>
      rcases bind_eq_error.mp (show (f a >>= fun _ => as.forM f) = .error e from h) with
        hfirst | ⟨_, -, hrest⟩
      · exact ⟨a, List.mem_cons_self, hfirst⟩
      · obtain ⟨c, hc, hlater⟩ := ih hrest
        exact ⟨c, List.mem_cons_of_mem a hc, hlater⟩

/-- Mapping a program that fails has failed on an element. -/
theorem exists_of_mapM_eq_error {f : α → Except ε β} {as : List α} {e : ε}
    (h : as.mapM f = .error e) : ∃ a ∈ as, f a = .error e := by
  induction as with
  | nil => contradiction
  | cons a as ih =>
      rw [List.mapM_cons] at h
      rcases bind_eq_error.mp h with hfirst | ⟨_, -, hrest⟩
      · exact ⟨a, List.mem_cons_self, hfirst⟩
      · rcases bind_eq_error.mp hrest with hlater | ⟨_, -, hdone⟩
        · obtain ⟨c, hc, hfailed⟩ := ih hlater
          exact ⟨c, List.mem_cons_of_mem a hc, hfailed⟩
        · contradiction

/-- Mapping a program over a list, where it does not fail on any element. -/
theorem mapM_ok {f : α → Except ε β} {g : α → β} {as : List α} (h : ∀ a ∈ as, f a = .ok (g a)) :
    as.mapM f = .ok (as.map g) := by
  induction as with
  | nil => rfl
  | cons a as ih =>
      have hrest := ih fun b hb => h b (List.mem_cons_of_mem a hb)
      rw [List.mapM_cons, h a List.mem_cons_self, ok_bind, hrest]
      rfl

/-- All results are of a kind exactly when every element has one of the kind. -/
theorem exists_mapM_ok {f : α → Except ε β} {P : β → Prop} {as : List α} :
    (∃ bs, as.mapM f = .ok bs ∧ ∀ b ∈ bs, P b) ↔ ∀ a ∈ as, ∃ b, f a = .ok b ∧ P b := by
  induction as with
  | nil =>
      have hnil : ∀ b ∈ ([] : List β), P b := fun _ h => absurd h List.not_mem_nil
      exact iff_of_true ⟨[], rfl, hnil⟩ fun _ h => absurd h List.not_mem_nil
  | cons a as ih =>
      rw [List.forall_mem_cons, ← ih, List.mapM_cons]
      constructor
      · intro h
        obtain ⟨all, hall, hP⟩ := h
        obtain ⟨b, hb, hrest⟩ := bind_eq_ok.mp hall
        obtain ⟨bs, hbs, hlast⟩ := bind_eq_ok.mp hrest
        obtain rfl : b :: bs = all := Except.ok.inj hlast
        obtain ⟨hPb, hPbs⟩ := List.forall_mem_cons.mp hP
        exact ⟨⟨b, hb, hPb⟩, bs, hbs, hPbs⟩
      · intro h
        obtain ⟨⟨b, hb, hPb⟩, bs, hbs, hPbs⟩ := h
        refine ⟨b :: bs, ?_, List.forall_mem_cons.mpr ⟨hPb, hPbs⟩⟩
        rw [hb, ok_bind, hbs]
        rfl

/-- Turn a result into a richer one with the help of a fact about it. -/
def pmapOk {p : α → Prop} (f : (a : α) → p a → β) : (x : Except ε α) → (∀ a, x = .ok a → p a) →
    Except ε β
  | .ok a, h => .ok (f a (h a rfl))
  | .error e, _ => .error e

theorem pmapOk_eq_ok {p : α → Prop} {f : (a : α) → p a → β} {x : Except ε α}
    {h : ∀ a, x = .ok a → p a} {b : β} :
    pmapOk f x h = .ok b ↔ ∃ a, ∃ ha : x = .ok a, f a (h a ha) = b := by
  cases x with
  | error e => simp [pmapOk]
  | ok a => simp [pmapOk]

end PgLedger
