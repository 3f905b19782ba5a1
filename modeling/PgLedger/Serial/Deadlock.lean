import Mathlib.Data.Fintype.EquivFin
import Mathlib.Logic.Relation
import Mathlib.Order.WellFounded
import PgLedger.Serial

/-!
# PgLedger.Serial.Deadlock

Deadlock, in general.  The waits-for graph of a moment has an edge from a
session to every other one that holds a claim its next step needs.  If the
claims can be ranked so that a step never needs a claim unless it ranks above
all that its session holds, the graph has no cycle (`acyclic_of_rank`), and
some running session does not wait (`exists_unblocked`).
-/

namespace PgLedger

namespace Serial

variable {ι σ Λ κ ρ : Type} {sys : System ι σ Λ κ ρ} {w : World ι σ Λ ρ}

/-! ## the waits-for graph -/

section
variable (sys : System ι σ Λ κ ρ) (needs : ι → σ → Λ → List κ) (w : World ι σ Λ ρ)

/-- Session `j` holds a claim that the next step of session `i` needs. -/
def WaitsFor (i j : ι) : Prop :=
  j ≠ i ∧ ∃ l, w.sessions i = .running l ∧ ∃ c ∈ needs i w.store l, c ∈ held sys (w.sessions j)

/-- No session waits for itself, not even in a roundabout way. -/
def Acyclic : Prop := ∀ i, ¬ Relation.TransGen (WaitsFor sys needs w) i i

/-- The claims that a step leads to. -/
def stepClaims (i : ι) (s : σ) (l : Λ) : List κ := ((sys.next i s l).map sys.claims).getD []

end

variable {needs needs' : ι → σ → Λ → List κ}

theorem mem_stepClaims {i : ι} {s : σ} {l : Λ} {c : κ} :
    c ∈ stepClaims sys i s l ↔ ∃ l', sys.next i s l = some l' ∧ c ∈ sys.claims l' := by
  cases h : sys.next i s l with
  | none => simp [stepClaims, h]
  | some l' => simp [stepClaims, h]

/-- The steps that wait are those with an edge. -/
theorem waits_iff {i : ι} {l l' : Λ} (hi : w.sessions i = .running l)
    (hnext : sys.next i w.store l = some l') :
    Waits sys w i l' ↔ ∃ j, WaitsFor sys (stepClaims sys) w i j := by
  constructor
  · intro h
    obtain ⟨j, hj, c, hc, hheld⟩ := h
    exact ⟨j, hj, l, hi, c, mem_stepClaims.mpr ⟨l', hnext, hc⟩, hheld⟩
  · intro h
    obtain ⟨j, hj, m, hm, c, hc, hheld⟩ := h
    obtain rfl : l = m := Status.running.inj (hi.symm.trans hm)
    obtain ⟨l'', hl'', hc⟩ := mem_stepClaims.mp hc
    obtain rfl : l' = l'' := Option.some.inj (hnext.symm.trans hl'')
    exact ⟨j, hj, c, hc, hheld⟩

/-- A session that is waited for is running. -/
theorem WaitsFor.running {i j : ι} (h : WaitsFor sys needs w i j) :
    ∃ l, w.sessions j = .running l := by
  obtain ⟨-, -, -, c, -, hheld⟩ := h
  cases hj : w.sessions j with
  | running l => exact ⟨l, rfl⟩
  | committed r =>
      rw [hj] at hheld
      exact absurd hheld List.not_mem_nil
  | aborted =>
      rw [hj] at hheld
      exact absurd hheld List.not_mem_nil

/-- A graph with fewer edges has fewer cycles. -/
theorem Acyclic.mono (h : Acyclic sys needs' w)
    (hsub : ∀ i j, WaitsFor sys needs w i j → WaitsFor sys needs' w i j) :
    Acyclic sys needs w :=
  fun i hcycle => h i (Relation.TransGen.mono hsub i i hcycle)

/-- **The ranking rule**: along a path the needed claims rise in rank. -/
theorem acyclic_of_rank {α : Type} [Preorder α] (rank : κ → α)
    (hdisjoint : ∀ i j, i ≠ j → ∀ c ∈ held sys (w.sessions i), c ∉ held sys (w.sessions j))
    (hneeds : ∀ i l, w.sessions i = .running l → ∀ c ∈ needs i w.store l,
      c ∈ sys.claims l ∨ ∀ d ∈ sys.claims l, rank d < rank c) : Acyclic sys needs w := by
  have hedge (i j : ι) (h : WaitsFor sys needs w i j) :
      ∃ c ∈ held sys (w.sessions j), ∀ d ∈ held sys (w.sessions i), rank d < rank c := by
    obtain ⟨hj, l, hl, c, hc, hheld⟩ := h
    refine ⟨c, hheld, ?_⟩
    rw [hl]
    rcases hneeds i l hl c hc with hown | habove
    · refine absurd hheld (hdisjoint i j (Ne.symm hj) c ?_)
      rw [hl]
      exact hown
    · exact habove
  have hpath (i j : ι) (h : Relation.TransGen (WaitsFor sys needs w) i j) :
      ∃ c ∈ held sys (w.sessions j), ∀ d ∈ held sys (w.sessions i), rank d < rank c := by
    induction h with
    | single hone => exact hedge i _ hone
    | tail _ hlast ih =>
        obtain ⟨c, hc, hbelow⟩ := ih
        obtain ⟨c', hc', hbelow'⟩ := hedge _ _ hlast
        exact ⟨c', hc', fun d hd => (hbelow d hd).trans (hbelow' c hc)⟩
  intro i hcycle
  obtain ⟨c, hc, hbelow⟩ := hpath i i hcycle
  exact lt_irrefl _ (hbelow c hc)

/-- Of the running sessions, one does not wait. -/
theorem exists_unblocked [Finite ι] (h : Acyclic sys needs w)
    (hrunning : ∃ i l, w.sessions i = .running l) :
    ∃ i l, w.sessions i = .running l ∧ ∀ j, ¬ WaitsFor sys needs w i j := by
  have : IsTrans ι fun i j => Relation.TransGen (WaitsFor sys needs w) j i :=
    ⟨fun i j k hij hjk => hjk.trans hij⟩
  have : Std.Irrefl fun i j => Relation.TransGen (WaitsFor sys needs w) j i := ⟨h⟩
  have hwf : WellFounded fun i j => Relation.TransGen (WaitsFor sys needs w) j i :=
    Finite.wellFounded_of_trans_of_irrefl _
  obtain ⟨i, ⟨l, hl⟩, hlast⟩ := hwf.has_min { i | ∃ l, w.sessions i = .running l } hrunning
  exact ⟨i, l, hl, fun j hj => hlast j hj.running (.single hj)⟩

end Serial

end PgLedger
