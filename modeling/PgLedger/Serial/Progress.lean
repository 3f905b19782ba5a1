import Mathlib.Data.Fintype.Basic
import Mathlib.Logic.Hydra
import PgLedger.Serial

/-!
# PgLedger.Serial.Progress

Termination under fair schedules, in general.  A schedule that goes on for
ever is fair if it lets every session take steps, and try to commit, again and
again.  If the sessions cannot go on stepping for ever (`Progressing`), and at
every moment some running session does not wait (`Unblocked`), then every fair
schedule comes to a moment when no session is running any more (`fair_ends`).

The measure is the multiset of the states of the running sessions: an action
that does anything replaces one of them by a smaller one, or takes it away.
-/

namespace PgLedger

namespace Serial

variable {ι σ Λ κ ρ : Type}

/-! ## the measure -/

def Status.running? : Status Λ ρ → Option Λ
  | .running l => some l
  | _ => none

/-- The steps of a session come to an end. -/
structure Progressing (sys : System ι σ Λ κ ρ) (lt : Λ → Λ → Prop) : Prop where
  wf : WellFounded lt
  rests : ∀ {i s l l' r}, sys.finished l = some r → sys.next i s l = some l' → l' = l
  moves : ∀ {i s l l'}, sys.finished l = none → sys.next i s l = some l' → lt l' l

section
variable [Fintype ι] [DecidableEq ι] (w : World ι σ Λ ρ)

/-- The states of the running sessions. -/
def pending : Multiset Λ := (Finset.univ.val.map w.sessions).filterMap Status.running?

/-- Taken apart at one session. -/
theorem pending_split (i : ι) : pending w =
    (((Finset.univ.erase i).val.map w.sessions).filterMap Status.running?) +
      (w.sessions i).running?.elim 0 fun l => {l} := by
  have huniv : (Finset.univ : Finset ι).val = i ::ₘ (Finset.univ.erase i).val := by
    rw [Finset.erase_val, Multiset.cons_erase (Finset.mem_univ i)]
  rw [pending, huniv, Multiset.map_cons]
  cases hi : (w.sessions i).running? with
  | none => rw [Multiset.filterMap_cons_none _ _ hi, Option.elim_none, add_zero]
  | some l =>
      rw [Multiset.filterMap_cons_some _ _ _ hi, Option.elim_some, ← Multiset.singleton_add,
        add_comm]

variable {w}

/-- Another status of one session does not matter to the rest. -/
theorem pending_update (i : ι) (status : Status Λ ρ) (s : σ) (commits : List (ι × ρ)) :
    pending (⟨s, Function.update w.sessions i status, commits⟩ : World ι σ Λ ρ) =
      (((Finset.univ.erase i).val.map w.sessions).filterMap Status.running?) +
        status.running?.elim 0 fun l => {l} := by
  rw [pending_split _ i]
  have hothers : (Finset.univ.erase i).val.map (Function.update w.sessions i status) =
      (Finset.univ.erase i).val.map w.sessions := by
    refine Multiset.map_congr rfl fun j hj => ?_
    exact Function.update_of_ne (Finset.ne_of_mem_erase hj) _ _
  have hself : Function.update w.sessions i status i = status := Function.update_self _ _ _
  dsimp only
  rw [hothers, hself]

variable {lt : Λ → Λ → Prop}

/-- A session that moves on, or ends, makes the measure smaller. -/
theorem pending_lt {i : ι} {l : Λ} (hi : w.sessions i = .running l) {status : Status Λ ρ}
    (hstatus : ∀ l', status = .running l' → lt l' l) (s : σ) (commits : List (ι × ρ)) :
    Relation.CutExpand lt
      (pending (⟨s, Function.update w.sessions i status, commits⟩ : World ι σ Λ ρ))
      (pending w) := by
  rw [pending_update, pending_split w i, hi, Relation.cutExpand_add_left]
  cases status with
  | running l' => exact Relation.cutExpand_singleton_singleton (hstatus l' rfl)
  | committed r => exact Relation.cutExpand_singleton fun _ h => absurd h (Multiset.notMem_zero _)
  | aborted => exact Relation.cutExpand_singleton fun _ h => absurd h (Multiset.notMem_zero _)

variable [DecidableEq κ] {sys : System ι σ Λ κ ρ}

/-- An action does nothing, or it makes the measure smaller. -/
theorem act_pending (hrule : Progressing sys lt) (i : ι) (action : Action) :
    act sys w i action = w ∨
      Relation.CutExpand lt (pending (act sys w i action)) (pending w) := by
  rcases act_cases sys w i action with heq | ⟨l, status, hi, hstatus, heq⟩ | ⟨l, r, hi, -, heq⟩
  · exact .inl heq
  · rw [heq]
    rcases hstatus with rfl | ⟨l', rfl, hnext, -⟩
    · exact .inr (pending_lt hi (fun _ h => by contradiction) _ _)
    · cases hdone : sys.finished l with
      | none =>
          refine .inr (pending_lt hi (fun m hm => ?_) _ _)
          obtain rfl := Status.running.inj hm
          exact hrule.moves hdone hnext
      | some r =>
          obtain rfl := hrule.rests hdone hnext
          left
          rw [← hi, Function.update_eq_self]
  · rw [heq]
    exact .inr (pending_lt hi (fun _ h => by contradiction) _ _)

end

/-! ## schedules that go on for ever -/

/-- Every session is scheduled again and again. -/
structure Fair (later : ℕ → ι × Action) : Prop where
  steps : ∀ i n, ∃ m, n ≤ m ∧ later m = (i, .step)
  commits : ∀ i n, ∃ m, n ≤ m ∧ later m = (i, .commit)

section
variable [Fintype ι] [DecidableEq ι] [DecidableEq κ] (sys : System ι σ Λ κ ρ)

/-- As long as a session is running, there is one that does not wait. -/
def Unblocked (w : World ι σ Λ ρ) : Prop := (∃ i l, w.sessions i = .running l) →
  ∃ i l, w.sessions i = .running l ∧ ∀ l', sys.next i w.store l = some l' → ¬ Waits sys w i l'

/-- The world after the first `n` actions. -/
def play (w : World ι σ Λ ρ) (later : ℕ → ι × Action) (n : ℕ) : World ι σ Λ ρ :=
  ((List.range n).map later).foldl (fun w a => act sys w a.1 a.2) w

theorem play_succ (w : World ι σ Λ ρ) (later : ℕ → ι × Action) (n : ℕ) :
    play sys w later (n + 1) = act sys (play sys w later n) (later n).1 (later n).2 := by
  rw [play, List.range_succ, List.map_append, List.foldl_append]
  rfl

theorem runSchedule_play (s : σ) (schedule : List (ι × Action)) (later : ℕ → ι × Action) (n : ℕ) :
    runSchedule sys s (schedule ++ (List.range n).map later) =
      play sys (runSchedule sys s schedule) later n := List.foldl_append

variable {sys} {lt : Λ → Λ → Prop} {w : World ι σ Λ ρ}

/-- A running session that does not wait can do something. -/
theorem exists_effective (hrule : Progressing sys lt) {i : ι} {l : Λ}
    (hi : w.sessions i = .running l)
    (hfree : ∀ l', sys.next i w.store l = some l' → ¬ Waits sys w i l') :
    ∃ action, (action = .step ∨ action = .commit) ∧
      Relation.CutExpand lt (pending (act sys w i action)) (pending w) := by
  cases hdone : sys.finished l with
  | some r =>
      refine ⟨.commit, .inr rfl, ?_⟩
      simp only [act, hi, hdone]
      exact pending_lt hi (fun _ h => by contradiction) _ _
  | none =>
      refine ⟨.step, .inl rfl, ?_⟩
      cases hnext : sys.next i w.store l with
      | none =>
          simp only [act, hi, hnext]
          exact pending_lt hi (fun _ h => by contradiction) _ _
      | some l' =>
          simp only [act, hi, hnext, if_neg (hfree l' hnext)]
          refine pending_lt hi (fun m hm => ?_) _ _
          obtain rfl := Status.running.inj hm
          exact hrule.moves hdone hnext

/-- **Termination**: under a fair schedule all sessions end. -/
theorem fair_ends (hrule : Progressing sys lt) {later : ℕ → ι × Action} (hfair : Fair later)
    (hunblocked : ∀ n, Unblocked sys (play sys w later n)) :
    ∃ n, ∀ i l, (play sys w later n).sessions i ≠ .running l := by
  have : Std.Irrefl lt := ⟨fun l => hrule.wf.irrefl.irrefl l⟩
  -- from the moment when the measure is smallest on, nothing happens
  obtain ⟨-, ⟨n, rfl⟩, hmin⟩ := hrule.wf.cutExpand.has_min
    (Set.range fun n => pending (play sys w later n)) ⟨_, 0, rfl⟩
  have hleast (m : ℕ) :
      ¬ Relation.CutExpand lt (pending (play sys w later m)) (pending (play sys w later n)) :=
    hmin _ ⟨m, rfl⟩
  have hstill (m : ℕ) (hm : n ≤ m) : play sys w later m = play sys w later n := by
    induction m, hm using Nat.le_induction with
    | base => rfl
    | succ m _ ih =>
        rw [play_succ, ih]
        refine (act_pending hrule (later m).1 (later m).2).resolve_right fun hsmaller => ?_
        refine hleast (m + 1) ?_
        rw [play_succ, ih]
        exact hsmaller
  refine ⟨n, fun i₀ l₀ hrunning => ?_⟩
  obtain ⟨i, l, hi, hfree⟩ := hunblocked n ⟨i₀, l₀, hrunning⟩
  obtain ⟨action, haction, hsmaller⟩ := exists_effective hrule hi hfree
  obtain ⟨m, hm, hlater⟩ : ∃ m, n ≤ m ∧ later m = (i, action) := by
    rcases haction with rfl | rfl
    · exact hfair.steps i n
    · exact hfair.commits i n
  refine hleast (m + 1) ?_
  rw [play_succ, hstill m hm, hlater]
  exact hsmaller

end

end Serial

end PgLedger
