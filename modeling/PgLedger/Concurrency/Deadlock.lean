import PgLedger.Concurrency.Ordered
import PgLedger.Concurrency.Serialisable
import PgLedger.Serial.Deadlock

/-!
# PgLedger.Concurrency.Deadlock

Posting calls do not deadlock.  The order of locking gives the claims a rank,
and along a path of the waits-for graph the ranks rise (`Claim.rank`).

That the graph of the locks has all edges there are takes one assumption: the
sessions draw different identifiers.  Then nobody waits for the place of an
identifier in a primary key, and nobody waits for a version of an account,
because only the session that has locked the account writes entries of it.
-/

namespace PgLedger

variable {env : Env} {t : Tables} {l l' m : LocalState}

/-! ## one session -/

/-- What the next statement of the session needs. -/
def LocalState.needs (l : LocalState) : List Claim :=
  match l.program with
  | .stmt s _ => s.needs
  | _ => []

/-- The session has drawn the identifier. -/
def Env.Draws (env : Env) (id : Uuid) : Prop := ∃ n, env.uuidv7 n = id

/-- The transactions that some writes add. -/
def insertedIds (ws : List Write) : List Uuid :=
  ws.filterMap fun w => match w with
    | .insertTransaction row => some row.id
    | _ => none

theorem transactionIds_applyAll (ws : List Write) :
    (t.applyAll ws).transactionIds = t.transactionIds ++ insertedIds ws := by
  induction ws generalizing t with
  | nil => exact (List.append_nil _).symm
  | cons w ws ih =>
      rw [Tables.applyAll, List.foldl_cons]
      refine ih.trans ?_
      cases w with
      | insertTransaction row =>
          rw [Tables.transactionIds_insertTransaction, List.append_assoc]
          rfl
      | insertAccount row | updateAccount row | insertEntry row => rfl

/-- What new claims and writes tell of a session that holds `held`. -/
structure Acquired (env : Env) (t : Tables) (held cs : List Claim) (ws : List Write) : Prop where
  versions : ∀ id version, .entryVersion id version ∈ cs → .account id ∈ held
  inserted : ∀ id ∈ insertedIds ws, env.Draws id
  transactions : ∀ id, .transaction id ∈ cs → id ∈ t.transactionIds ∨ env.Draws id
  entries : ∀ id, .entry id ∈ cs → env.Draws id

/-- An ordered statement adds such claims. -/
theorem Stmt.eval_acquired {b : Backend} {held : List Claim} {s : Stmt}
    {effect : Effect s.Result} (hs : s.Ordered held) (h : s.eval env t b = .ok effect) :
    Acquired env t held (s.locks effect.result ++ effect.writes.flatMap (·.claims))
      effect.writes := by
  cases s with
  | insertAccount v => exact hs.elim
  | insertTransaction v =>
      rcases evalInsertTransaction_eq_ok h with ⟨-, rfl⟩ | ⟨row, -, hid, -, rfl⟩
      · constructor <;> simp [locks, insertedIds]
      · constructor <;> simp [locks, insertedIds, Write.claims, Env.Draws, hid]
  | insertEntry v =>
      obtain ⟨row, rfl, hid, -, rfl⟩ := evalInsertEntry_eq_ok h
      have hheld : Claim.account row.accountId ∈ held := hs
      constructor <;> simp [locks, insertedIds, Write.claims, Env.Draws, hid, hheld]
  | updateAccount balance version id =>
      rcases evalUpdateAccount_eq_ok h with ⟨-, rfl⟩ | ⟨row, row', -, -, rfl⟩
      · constructor <;> simp [locks, insertedIds]
      · constructor <;> simp [locks, insertedIds, Write.claims]
  | lockTransaction id =>
      obtain rfl := Except.ok.inj h
      by_cases hfound : id ∈ t.transactionIds
      · constructor <;> simp [locks, insertedIds, hfound]
      · constructor <;> simp [locks, insertedIds, hfound]
  | lockAccount id =>
      obtain rfl := Except.ok.inj h
      constructor <;> simp [locks, insertedIds]
  | clockTimestamp | findReversal id | reversalPostings id | resolveKey key
  | setInternalPosting value =>
      obtain rfl := Except.ok.inj h
      constructor <;> simp [locks, insertedIds]

/-- A claim that a statement adds is one that it needs, or it comes with an
identifier that was drawn, or with a version of a locked account. -/
theorem Stmt.eval_needs {b : Backend} {held : List Claim} {s : Stmt} {effect : Effect s.Result}
    (hs : s.Ordered held) (h : s.eval env t b = .ok effect) {c : Claim}
    (hc : c ∈ s.locks effect.result ++ effect.writes.flatMap (·.claims)) :
    c ∈ s.needs ∨ (∃ id, c = .transaction id ∧ id ∉ t.transactionIds ∧ env.Draws id) ∨
      (∃ id, c = .entry id ∧ env.Draws id) ∨
      ∃ id version, c = .entryVersion id version ∧ .account id ∈ held := by
  cases s with
  | insertAccount v => exact hs.elim
  | insertTransaction v =>
      rcases evalInsertTransaction_eq_ok h with ⟨-, rfl⟩ | ⟨row, rfl, hid, htakes, rfl⟩
      · exact absurd hc List.not_mem_nil
      · obtain ⟨w, hw, hcw⟩ := List.mem_flatMap.mp hc
        obtain rfl := List.mem_singleton.mp hw
        rcases List.mem_cons.mp hcw with rfl | hneeded
        · exact .inr (.inl ⟨row.id, rfl, htakes.id, _, hid.symm⟩)
        · exact .inl hneeded
  | insertEntry v =>
      obtain ⟨row, rfl, hid, -, rfl⟩ := evalInsertEntry_eq_ok h
      obtain ⟨w, hw, hcw⟩ := List.mem_flatMap.mp hc
      obtain rfl := List.mem_singleton.mp hw
      rcases List.mem_cons.mp hcw with rfl | hversion
      · exact .inr (.inr (.inl ⟨row.id, rfl, _, hid.symm⟩))
      · exact .inr (.inr (.inr ⟨_, _, List.mem_singleton.mp hversion, hs⟩))
  | updateAccount balance version id =>
      have hadds : _ ⊆ [Claim.account id] := eval_adds h
      exact .inl (hadds hc)
  | lockTransaction id =>
      have hadds : _ = ite _ _ _ := eval_adds h
      rw [hadds] at hc
      split at hc
      · exact .inl hc
      · exact absurd hc List.not_mem_nil
  | lockAccount id =>
      obtain rfl := Except.ok.inj h
      refine .inl (List.mem_singleton.mpr ?_)
      rcases List.mem_append.mp hc with hlocked | hwritten
      · obtain ⟨row, hrow, rfl⟩ := List.mem_map.mp hlocked
        rw [Tables.id_of_account? (Option.mem_toList.mp hrow)]
      · exact absurd hwritten List.not_mem_nil
  | clockTimestamp | findReversal id | reversalPostings id | resolveKey key
  | setInternalPosting value =>
      obtain rfl := Except.ok.inj h
      exact absurd hc List.not_mem_nil

/-- What is true of a session, whatever the others do. -/
structure LocalState.Orderly (env : Env) (t : Tables) (l : LocalState) : Prop where
  ordered : l.program.Ordered (fun _ _ => True) l.claims
  acquired : Acquired env t l.claims l.claims l.writes

namespace LocalState

theorem Orderly.publish (h : l.Orderly env t) (ws : List Write) :
    l.Orderly env (t.applyAll ws) where
  ordered := h.ordered
  acquired :=
    { h.acquired with
      transactions := by
        intro id hid
        rw [transactionIds_applyAll, List.mem_append]
        exact (h.acquired.transactions id hid).imp_left .inl }

/-- What the session may have to wait for is its own, or above all its claims. -/
theorem Orderly.needs_above (h : l.Orderly env t) :
    ∀ c ∈ l.needs, c ∈ l.claims ∨ ∀ d ∈ l.claims, d.rank < c.rank := by
  intro c hc
  have hordered := h.ordered
  unfold needs at hc
  split at hc
  · next s k hprogram =>
    rw [hprogram] at hordered
    exact hordered.1.needs_above c hc
  · exact absurd hc List.not_mem_nil

/-- The invariant goes on with every statement. -/
theorem Orderly.next (h : l.Orderly env t) (hnext : l.next env t = some l') :
    l'.Orderly env t := by
  rcases next_eq_some hnext with ⟨-, -, rfl⟩ | ⟨s, k, effect, hprogram, heval, rfl⟩
  · exact h
  · have hordered := h.ordered
    rw [hprogram] at hordered
    obtain ⟨hs, hrest⟩ := hordered
    obtain ⟨hversions, hinserted, htransactions, hentries⟩ := Stmt.eval_acquired hs heval
    refine ⟨hrest _ _ (Stmt.eval_adds heval), ?_, ?_, ?_, ?_⟩
    · intro id version hid
      refine List.mem_append_left _ ?_
      cases List.mem_append.mp hid with
      | inl hold => exact h.acquired.versions id version hold
      | inr hnew => exact hversions id version hnew
    · intro id hid
      rw [advance, insertedIds, List.filterMap_append, List.mem_append] at hid
      exact hid.elim (h.acquired.inserted id) (hinserted id)
    · intro id hid
      cases List.mem_append.mp hid with
      | inl hold => exact h.acquired.transactions id hold
      | inr hnew =>
          rcases htransactions id hnew with hmem | hdrawn
          · rw [transactionIds_applyAll, List.mem_append] at hmem
            exact hmem.imp_right (h.acquired.inserted id)
          · exact .inr hdrawn
    · intro id hid
      exact (List.mem_append.mp hid).elim (h.acquired.entries id) (hentries id)

end LocalState

/-! ## all sessions -/

section
variable {ι : Type} (crates : Crates) (calls : ι → PostingCall × Session)

/-- No two sessions draw the same identifier. -/
def DistinctDraws : Prop :=
  ∀ i j, i ≠ j → ∀ id, (calls i).2.env.Draws id → ¬ (calls j).2.env.Draws id

theorem concurrentCalls_orderly : Serial.LocalInv (concurrentCalls crates calls)
    fun i t l => l.Orderly (calls i).2.env t := by
  constructor
  · intro i t
    refine ⟨(calls i).1.ordered crates, ?_, ?_, ?_, ?_⟩
    · exact fun _ _ h => absurd h List.not_mem_nil
    · exact fun _ h => absurd h List.not_mem_nil
    · exact fun _ h => absurd h List.not_mem_nil
    · exact fun _ h => absurd h List.not_mem_nil
  · exact fun _ => rfl
  · exact fun horderly hnext => horderly.next hnext
  · exact fun horderly _ _ _ => horderly.publish _

/-- The sessions cannot block each other. -/
structure DeadlockFree [Fintype ι] [DecidableEq ι]
    (w : Serial.World ι Tables LocalState Uuid) : Prop where
  locks : Serial.Acyclic (concurrentCalls crates calls) (fun _ _ l => l.needs) w
  waits : DistinctDraws calls →
    Serial.Acyclic (concurrentCalls crates calls)
      (Serial.stepClaims (concurrentCalls crates calls)) w
  proceeds : DistinctDraws calls → (∃ i l, w.sessions i = .running l) →
    ∃ i l, w.sessions i = .running l ∧
      ∀ l', (concurrentCalls crates calls).next i w.store l = some l' →
        ¬ Serial.Waits (concurrentCalls crates calls) w i l'

variable {crates calls} {w : Serial.World ι Tables LocalState Uuid}

/-- With distinct identifiers, who waits at all waits for a lock or a key. -/
theorem waitsFor_needs (hdistinct : DistinctDraws calls)
    (horderly : ∀ i l, w.sessions i = .running l → l.Orderly (calls i).2.env w.store)
    (hdisjoint : ∀ i j, i ≠ j → ∀ c ∈ Serial.held (concurrentCalls crates calls) (w.sessions i),
      c ∉ Serial.held (concurrentCalls crates calls) (w.sessions j)) {i j : ι}
    (h : Serial.WaitsFor (concurrentCalls crates calls)
      (Serial.stepClaims (concurrentCalls crates calls)) w i j) :
    Serial.WaitsFor (concurrentCalls crates calls) (fun _ _ l => l.needs) w i j := by
  obtain ⟨m, hm⟩ := h.running
  obtain ⟨hj, l, hl, c, hc, hheld⟩ := h
  obtain ⟨l', hnext, hclaim⟩ := Serial.mem_stepClaims.mp hc
  have hown (d : Claim) (hd : d ∈ l.claims) :
      d ∉ Serial.held (concurrentCalls crates calls) (w.sessions j) := by
    refine hdisjoint i j (Ne.symm hj) d ?_
    rw [hl]
    exact hd
  have hholder := horderly j m hm
  rw [hm] at hheld
  refine ⟨hj, l, hl, c, ?_, hm ▸ hheld⟩
  rcases LocalState.next_eq_some hnext with ⟨-, -, rfl⟩ | ⟨s, k, effect, hprogram, heval, rfl⟩
  · exact absurd (hm ▸ hheld) (hown c hclaim)
  rcases List.mem_append.mp hclaim with hold | hnew
  · exact absurd (hm ▸ hheld) (hown c hold)
  have hordered := (horderly i l hl).ordered
  rw [hprogram] at hordered
  rcases Stmt.eval_needs hordered.1 heval hnew with hneeded | ⟨id, rfl, hfresh, hdrawn⟩ |
    ⟨id, rfl, hdrawn⟩ | ⟨id, version, rfl, haccount⟩
  · simp only [LocalState.needs, hprogram]
    exact hneeded
  · rcases hholder.acquired.transactions id hheld with hmem | hother
    · refine absurd ?_ hfresh
      rw [transactionIds_applyAll]
      exact List.mem_append_left _ hmem
    · exact absurd hother (hdistinct i j (Ne.symm hj) id hdrawn)
  · exact absurd (hholder.acquired.entries id hheld) (hdistinct i j (Ne.symm hj) id hdrawn)
  · -- the account is locked by both
    have hboth := hholder.acquired.versions id version hheld
    refine absurd ?_ (hown _ haccount)
    rw [hm]
    exact hboth

variable (crates calls) [Fintype ι] [DecidableEq ι]

/-- From whatever tables the sessions start, they cannot block each other. -/
theorem runConcurrently_deadlockFree (t : Tables) (schedule : List (ι × Serial.Action)) :
    DeadlockFree crates calls (runConcurrently crates calls t schedule) := by
  obtain ⟨horderly, hdisjoint⟩ := (concurrentCalls_orderly crates calls).runSchedule t schedule
  have hlocks : Serial.Acyclic (concurrentCalls crates calls) (fun _ _ l => l.needs)
      (runConcurrently crates calls t schedule) :=
    Serial.acyclic_of_rank Claim.rank hdisjoint fun i l hl => (horderly i l hl).needs_above
  have hwaits (hdistinct : DistinctDraws calls) := hlocks.mono fun i j =>
    waitsFor_needs hdistinct horderly hdisjoint
  refine ⟨hlocks, hwaits, fun hdistinct hrunning => ?_⟩
  obtain ⟨i, l, hl, hfree⟩ := Serial.exists_unblocked (hwaits hdistinct) hrunning
  refine ⟨i, l, hl, fun l' hnext hblocked => ?_⟩
  obtain ⟨j, hj⟩ := (Serial.waits_iff hl hnext).mp hblocked
  exact hfree j hj

/-- **No deadlock**: at every moment of every schedule of posting calls the
waits-for graph has no cycle. -/
theorem deadlockFree (events : List Event) (schedule : List (ι × Serial.Action)) :
    DeadlockFree crates calls
      (runConcurrently crates calls (runLedger crates events) schedule) :=
  runConcurrently_deadlockFree crates calls (runLedger crates events) schedule

end

end PgLedger
