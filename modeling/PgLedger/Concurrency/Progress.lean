import PgLedger.Concurrency.Deadlock
import PgLedger.Serial.Progress

/-!
# PgLedger.Concurrency.Progress

Posting calls end.  The program of a call is a tree without infinite branches,
and there is always a session that does not have to wait.  So under every fair
schedule, with aborts or without, all sessions commit or fail in the end.
-/

namespace PgLedger

/-- What is left of a program after its next statement. -/
def Spi.Rest {α : Type} (rest program : Spi α) : Prop :=
  ∃ (s : Stmt) (k : s.Result → Spi α) (r : s.Result), program = .stmt s k ∧ rest = k r

theorem Spi.rest_wf {α : Type} : WellFounded (@Spi.Rest α) := by
  refine ⟨fun program => ?_⟩
  induction program with
  | pure a | fail e =>
      refine ⟨_, fun rest hrest => ?_⟩
      obtain ⟨s, k, r, heq, -⟩ := hrest
      contradiction
  | stmt s k ih =>
      refine ⟨_, fun rest hrest => ?_⟩
      obtain ⟨s', k', r, heq, rfl⟩ := hrest
      obtain ⟨rfl, hk⟩ := Spi.stmt.inj heq
      obtain rfl := eq_of_heq hk
      exact ih r

section
variable {ι : Type} (crates : Crates) (calls : ι → PostingCall × Session)

/-- Every statement of a call leaves less of its program. -/
theorem concurrentCalls_progressing : Serial.Progressing (concurrentCalls crates calls)
    (InvImage Spi.Rest LocalState.program) where
  wf := InvImage.wf _ Spi.rest_wf
  rests {i t l l' id} hdone hnext := by
    have hprogram := LocalState.program_of_finished hdone
    exact (Option.some.inj ((LocalState.next_of_pure hprogram).symm.trans hnext)).symm
  moves {i t l l'} hdone hnext := by
    rcases LocalState.next_eq_some hnext with ⟨id, hprogram, -⟩ |
      ⟨s, k, effect, hprogram, -, rfl⟩
    · change l.finished = none at hdone
      simp only [LocalState.finished, hprogram] at hdone
      contradiction
    · exact ⟨s, k, effect.result, hprogram, rfl⟩

variable {crates calls} [Fintype ι] [DecidableEq ι]

variable (crates) in
/-- Somebody can always go on. -/
theorem concurrentCalls_unblocked (hdistinct : DistinctDraws calls) (t : Tables)
    (schedule : List (ι × Serial.Action)) :
    Serial.Unblocked (concurrentCalls crates calls) (runConcurrently crates calls t schedule) :=
  (runConcurrently_deadlockFree crates calls t schedule).proceeds hdistinct

/-- **Progress**: whatever has happened so far, under a fair schedule all
sessions end. -/
theorem callsEnd (hdistinct : DistinctDraws calls) (events : List Event)
    (schedule : List (ι × Serial.Action)) {later : ℕ → ι × Serial.Action}
    (hfair : Serial.Fair later) :
    ∃ n, ∀ i l, (runConcurrently crates calls (runLedger crates events)
      (schedule ++ (List.range n).map later)).sessions i ≠ .running l := by
  have hunblocked (n : ℕ) : Serial.Unblocked (concurrentCalls crates calls)
      (Serial.play (concurrentCalls crates calls)
        (runConcurrently crates calls (runLedger crates events) schedule) later n) := by
    have hafter := concurrentCalls_unblocked crates hdistinct (runLedger crates events)
      (schedule ++ (List.range n).map later)
    rw [runConcurrently, Serial.runSchedule_play] at hafter
    exact hafter
  obtain ⟨n, hended⟩ :=
    Serial.fair_ends (concurrentCalls_progressing crates calls) hfair hunblocked
  refine ⟨n, ?_⟩
  rw [runConcurrently, Serial.runSchedule_play]
  exact hended

end

/-- Two sessions that run the same transfer, with odd and even identifiers. -/
def racingCalls (i : Fin 2) : PostingCall × Session :=
  (fixtureTransfer,
    { env := { clock := fun n => n, uuidv7 := fun n => BitVec.ofNat 128 (2 * n + i) }
      internalPosting := none })

theorem racingCalls_distinct : DistinctDraws racingCalls := by
  intro i j hij id hi hj
  obtain ⟨n, rfl⟩ := hi
  obtain ⟨m, hm⟩ := hj
  have hsame := congrArg BitVec.toNat hm
  simp only [racingCalls, BitVec.toNat_ofNat] at hsame
  omega

/-- The sessions take turns. -/
def turns (n : ℕ) : Fin 2 × Serial.Action :=
  (Fin.ofNat 2 (n / 2), if n % 2 = 0 then .step else .commit)

/-- Taking turns is fair. -/
theorem turns_fair : Serial.Fair turns where
  steps i n := by
    refine ⟨4 * n + 2 * i, by omega, ?_⟩
    have hi : Fin.ofNat 2 ((4 * n + 2 * i) / 2) = i := by
      apply Fin.ext
      simp only [Fin.val_ofNat]
      omega
    rw [turns, hi, if_pos (by omega)]
  commits i n := by
    refine ⟨4 * n + 2 * i + 1, by omega, ?_⟩
    have hi : Fin.ofNat 2 ((4 * n + 2 * i + 1) / 2) = i := by
      apply Fin.ext
      simp only [Fin.val_ofNat]
      omega
    rw [turns, hi, if_neg (by omega)]

theorem callsEnd_racing : ∃ n, ∀ i l, (runConcurrently .concrete racingCalls
    (runLedger .concrete (fixtureRun.take 2)) ([] ++ (List.range n).map turns)).sessions i ≠
      .running l :=
  callsEnd racingCalls_distinct (fixtureRun.take 2) [] turns_fair

end PgLedger
