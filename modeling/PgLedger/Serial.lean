import Mathlib.Data.Fintype.Defs
import Mathlib.Data.List.Nodup
import Mathlib.Logic.Function.Basic

/-!
# PgLedger.Serial

Concurrent transactions, in general.  Sessions share a store; each works on
a state of its own, reads the store as it was committed last, and publishes
its work when it commits.  While it runs it holds claims (row locks, places
in unique indexes), and a step that needs a claim of another session waits.

`SharedInv` is the proof rule for what is true of every session and of the
store, `LocalInv` the one for sessions alone.

`Replayable` is the proof rule for serialisability.  It asks for a predicate
which says that the steps of a session so far could just as well be taken on
the store as it is now.  Then the store is always what the committed
transactions, executed one after another in the order of their commits, have
made of it (`runSchedule_inv`).
-/

namespace PgLedger

namespace Serial

/-- What the sessions run: `next` is a statement on the committed store, or
nothing if the statement fails. -/
structure System (ι σ Λ κ ρ : Type) where
  start : ι → Λ
  next : ι → σ → Λ → Option Λ
  claims : Λ → List κ
  finished : Λ → Option ρ
  publish : σ → Λ → σ

inductive Status (Λ ρ : Type) where
  | running (l : Λ)
  | committed (r : ρ)
  | aborted

/-- The committed store, the sessions, and who has committed in which order
with which result. -/
structure World (ι σ Λ ρ : Type) where
  store : σ
  sessions : ι → Status Λ ρ
  commits : List (ι × ρ)

inductive Action where
  | step
  | commit
  | abort

variable {ι σ Λ κ ρ : Type}

/-! ## schedules -/

section
variable (sys : System ι σ Λ κ ρ)

def init (s : σ) : World ι σ Λ ρ := ⟨s, fun i => .running (sys.start i), []⟩

/-- The claims of a session; they end with its transaction. -/
def held : Status Λ ρ → List κ
  | .running l => sys.claims l
  | _ => []

/-- Another session holds a claim that `l` needs. -/
def Waits (w : World ι σ Λ ρ) (i : ι) (l : Λ) : Prop :=
  ∃ j, j ≠ i ∧ ∃ c ∈ sys.claims l, c ∈ held sys (w.sessions j)

variable [Fintype ι] [DecidableEq ι] [DecidableEq κ]

instance (w : World ι σ Λ ρ) (i : ι) (l : Λ) : Decidable (Waits sys w i l) := by
  unfold Waits; infer_instance

/-- One session acts.  A step that waits changes nothing; neither does an
action of a session that has ended, or a commit that comes too early. -/
def act (w : World ι σ Λ ρ) (i : ι) (action : Action) : World ι σ Λ ρ :=
  match w.sessions i with
  | .running l =>
      match action with
      | .step =>
          match sys.next i w.store l with
          | none => { w with sessions := Function.update w.sessions i .aborted }
          | some l' =>
              if Waits sys w i l' then w
              else { w with sessions := Function.update w.sessions i (.running l') }
      | .commit =>
          match sys.finished l with
          | none => w
          | some r =>
              { store := sys.publish w.store l
                sessions := Function.update w.sessions i (.committed r)
                commits := w.commits ++ [(i, r)] }
      | .abort => { w with sessions := Function.update w.sessions i .aborted }
  | _ => w

def runSchedule (s : σ) (schedule : List (ι × Action)) : World ι σ Λ ρ :=
  schedule.foldl (fun w a => act sys w a.1 a.2) (init sys s)

end

/-! ## one action -/

section
variable (sys : System ι σ Λ κ ρ) (w : World ι σ Λ ρ) [Fintype ι] [DecidableEq ι] [DecidableEq κ]

/-- An action changes nothing, moves one session on or aborts it, or commits
it. -/
theorem act_cases (i : ι) (action : Action) :
    act sys w i action = w ∨
    (∃ l status, w.sessions i = .running l ∧
      (status = .aborted ∨ ∃ l', status = .running l' ∧ sys.next i w.store l = some l' ∧
        ¬ Waits sys w i l') ∧
      act sys w i action = { w with sessions := Function.update w.sessions i status }) ∨
    ∃ l r, w.sessions i = .running l ∧ sys.finished l = some r ∧
      act sys w i action =
        { store := sys.publish w.store l
          sessions := Function.update w.sessions i (.committed r)
          commits := w.commits ++ [(i, r)] } := by
  unfold act
  cases hi : w.sessions i with
  | committed r => exact .inl rfl
  | aborted => exact .inl rfl
  | running l =>
      cases action with
      | abort => exact .inr (.inl ⟨l, .aborted, rfl, .inl rfl, rfl⟩)
      | commit =>
          dsimp only
          cases hr : sys.finished l with
          | none => exact .inl rfl
          | some r => exact .inr (.inr ⟨l, r, rfl, hr, rfl⟩)
      | step =>
          dsimp only
          cases hnext : sys.next i w.store l with
          | none => exact .inr (.inl ⟨l, .aborted, rfl, .inl rfl, rfl⟩)
          | some l' =>
              dsimp only
              split
              · exact .inl rfl
              · next hfree =>
                exact .inr (.inl ⟨l, .running l', rfl, .inr ⟨l', rfl, hnext, hfree⟩, rfl⟩)

end

/-! ## invariants of single sessions -/

/-- `P` is true of a session when it starts, and neither its own steps nor the
commits of others, with claims of their own, change that. -/
structure LocalInv (sys : System ι σ Λ κ ρ) (P : ι → σ → Λ → Prop) : Prop where
  start : ∀ i s, P i s (sys.start i)
  startClaims : ∀ i, sys.claims (sys.start i) = []
  next : ∀ {i s l l'}, P i s l → sys.next i s l = some l' → P i s l'
  publish : ∀ {i j s l m r}, P i s l → P j s m → sys.finished m = some r →
    (∀ c ∈ sys.claims l, c ∉ sys.claims m) → P i (sys.publish s m) l

/-- The same on stores of which `S` is true, with the commits that have led to
them; and the commits of such sessions keep `S`. -/
structure SharedInv (sys : System ι σ Λ κ ρ) (S : List (ι × ρ) → σ → Prop)
    (P : ι → σ → Λ → Prop) : Prop where
  start : ∀ {cs s}, S cs s → ∀ i, P i s (sys.start i)
  startClaims : ∀ i, sys.claims (sys.start i) = []
  next : ∀ {i cs s l l'}, S cs s → P i s l → sys.next i s l = some l' → P i s l'
  publish : ∀ {i j cs s l m r}, S cs s → P i s l → P j s m → sys.finished m = some r →
    (∀ c ∈ sys.claims l, c ∉ sys.claims m) → P i (sys.publish s m) l
  commit : ∀ {i cs s l r}, S cs s → P i s l → sys.finished l = some r →
    S (cs ++ [(i, r)]) (sys.publish s l)

/-- It is true of every running session, and no claim is held twice. -/
structure Holds (sys : System ι σ Λ κ ρ) (P : ι → σ → Λ → Prop) (w : World ι σ Λ ρ) : Prop where
  valid : ∀ i l, w.sessions i = .running l → P i w.store l
  disjoint : ∀ i j, i ≠ j → ∀ c ∈ held sys (w.sessions i), c ∉ held sys (w.sessions j)

section
variable {sys : System ι σ Λ κ ρ} {S : List (ι × ρ) → σ → Prop} {P : ι → σ → Λ → Prop}
variable {w : World ι σ Λ ρ}

/-- An invariant of single sessions is one that needs nothing of the store. -/
theorem LocalInv.shared (h : LocalInv sys P) : SharedInv sys (fun _ _ => True) P where
  start _ i := h.start i _
  startClaims := h.startClaims
  next _ := h.next
  publish _ := h.publish
  commit _ _ _ := trivial

/-- The invariant holds at the start. -/
theorem SharedInv.init (h : SharedInv sys S P) {s : σ} (hs : S [] s) :
    Holds sys P (init sys s) where
  valid i l hl := by
    obtain rfl := Status.running.inj hl
    exact h.start hs i
  disjoint i j _ c hc := by
    change c ∈ sys.claims (sys.start i) at hc
    simp only [h.startClaims i] at hc
    contradiction

variable [DecidableEq ι]

/-- A session may take another status, as long as its claims stay its own. -/
theorem disjoint_update
    (h : ∀ i j, i ≠ j → ∀ c ∈ held sys (w.sessions i), c ∉ held sys (w.sessions j)) {i : ι}
    {status : Status Λ ρ}
    (hclaims : ∀ j, j ≠ i → ∀ c ∈ held sys status, c ∉ held sys (w.sessions j)) (j k : ι)
    (hjk : j ≠ k) (c : κ) (hc : c ∈ held sys (Function.update w.sessions i status j)) :
    c ∉ held sys (Function.update w.sessions i status k) := by
  intro hck
  by_cases hj : j = i
  · have hk : k ≠ i := fun heq => hjk (hj.trans heq.symm)
    rw [hj, Function.update_self] at hc
    rw [Function.update_of_ne hk] at hck
    exact hclaims k hk c hc hck
  · rw [Function.update_of_ne hj] at hc
    by_cases hk : k = i
    · rw [hk, Function.update_self] at hck
      exact hclaims j hj c hck hc
    · rw [Function.update_of_ne hk] at hck
      exact h j k hjk c hc hck

variable [Fintype ι] [DecidableEq κ]

/-- **The step rule** for single sessions and their store. -/
theorem SharedInv.act (hrule : SharedInv sys S P) (hS : S w.commits w.store) (h : Holds sys P w)
    (i : ι) (action : Action) :
    S (act sys w i action).commits (act sys w i action).store ∧
      Holds sys P (act sys w i action) := by
  rcases act_cases sys w i action with heq | ⟨l, status, hi, hstatus, heq⟩ |
    ⟨l, r, hi, hr, heq⟩
  · rw [heq]
    exact ⟨hS, h⟩
  · rw [heq]
    refine ⟨hS, ?_, ?_⟩
    · intro j m hm
      change Function.update w.sessions i status j = _ at hm
      by_cases hj : j = i
      · rw [hj, Function.update_self] at hm
        rcases hstatus with rfl | ⟨l', rfl, hnext, -⟩
        · contradiction
        · obtain rfl := Status.running.inj hm
          rw [hj]
          exact hrule.next hS (h.valid i l hi) hnext
      · rw [Function.update_of_ne hj] at hm
        exact h.valid j m hm
    · refine disjoint_update h.disjoint fun j hj c hc hcj => ?_
      rcases hstatus with rfl | ⟨l', rfl, -, hfree⟩
      · exact absurd hc List.not_mem_nil
      · exact hfree ⟨j, hj, c, hc, hcj⟩
  · rw [heq]
    refine ⟨hrule.commit hS (h.valid i l hi) hr, ?_, ?_⟩
    · intro j m hm
      change Function.update w.sessions i (.committed r) j = _ at hm
      by_cases hj : j = i
      · simp only [hj, Function.update_self] at hm
        contradiction
      · rw [Function.update_of_ne hj] at hm
        refine hrule.publish hS (h.valid j m hm) (h.valid i l hi) hr fun c hc => ?_
        have hdisjoint := h.disjoint j i hj
        rw [hm, hi] at hdisjoint
        exact hdisjoint c hc
    · exact disjoint_update h.disjoint fun j _ c hc => absurd hc List.not_mem_nil

/-- **The run rule** for single sessions and their store. -/
theorem SharedInv.runSchedule (hrule : SharedInv sys S P) {s : σ} (hs : S [] s)
    (schedule : List (ι × Action)) :
    S (runSchedule sys s schedule).commits (runSchedule sys s schedule).store ∧
      Holds sys P (runSchedule sys s schedule) := by
  have hfold : ∀ w, S w.commits w.store ∧ Holds sys P w →
      S (schedule.foldl (fun w a => Serial.act sys w a.1 a.2) w).commits
        (schedule.foldl (fun w a => Serial.act sys w a.1 a.2) w).store ∧
      Holds sys P (schedule.foldl (fun w a => Serial.act sys w a.1 a.2) w) := by
    induction schedule with
    | nil => exact fun _ hw => hw
    | cons a schedule ih => exact fun w hw => ih _ (hrule.act hw.1 hw.2 a.1 a.2)
  exact hfold _ ⟨hs, hrule.init hs⟩

/-- The invariant holds after every schedule. -/
theorem LocalInv.runSchedule (hrule : LocalInv sys P) (s : σ) (schedule : List (ι × Action)) :
    Holds sys P (runSchedule sys s schedule) :=
  (hrule.shared.runSchedule trivial schedule).2

variable (sys w) in
/-- Commits are not taken back. -/
theorem commits_act (i : ι) (action : Action) : w.commits <+: (act sys w i action).commits := by
  rcases act_cases sys w i action with heq | ⟨l, status, -, -, heq⟩ | ⟨l, r, -, -, heq⟩
  · simp only [heq, List.prefix_refl]
  · simp only [heq, List.prefix_refl]
  · simp only [heq, List.prefix_append]

variable (sys) in
/-- What is committed stays committed. -/
theorem commits_runSchedule (s : σ) (schedule more : List (ι × Action)) :
    (runSchedule sys s schedule).commits <+: (runSchedule sys s (schedule ++ more)).commits := by
  have hfold : ∀ w : World ι σ Λ ρ,
      w.commits <+: (more.foldl (fun w a => Serial.act sys w a.1 a.2) w).commits := by
    induction more with
    | nil => exact fun w => List.prefix_refl _
    | cons a more ih => exact fun w => (commits_act sys w a.1 a.2).trans (ih _)
  have happend : runSchedule sys s (schedule ++ more) =
      more.foldl (fun w a => Serial.act sys w a.1 a.2) (runSchedule sys s schedule) :=
    List.foldl_append
  rw [happend]
  exact hfold _

end

/-! ## the proof rule -/

/-- Transactions executed one after another. -/
inductive SerialRun (exec : ι → σ → ρ → σ → Prop) (s : σ) : List (ι × ρ) → σ → Prop where
  | nil : SerialRun exec s [] s
  | snoc {commits : List (ι × ρ)} {s' s'' : σ} {i : ι} {r : ρ} (h : SerialRun exec s commits s')
      (hexec : exec i s' r s'') : SerialRun exec s (commits ++ [(i, r)]) s''

/-- Serial runs one after another. -/
theorem SerialRun.trans {exec : ι → σ → ρ → σ → Prop} {s s' s'' : σ}
    {commits commits' : List (ι × ρ)} (h : SerialRun exec s commits s')
    (h' : SerialRun exec s' commits' s'') :
    SerialRun exec s (commits ++ commits') s'' := by
  induction h' with
  | nil =>
      rw [List.append_nil]
      exact h
  | snoc _ hexec ih =>
      rw [← List.append_assoc]
      exact ih.snoc hexec

/-- `Valid i s l`: session `i` would be where it is, `l`, if it had taken its
steps on the store `s`. -/
structure Replayable (sys : System ι σ Λ κ ρ) (exec : ι → σ → ρ → σ → Prop)
    (Valid : ι → σ → Λ → Prop) : Prop where
  start : ∀ i s, Valid i s (sys.start i)
  startClaims : ∀ i, sys.claims (sys.start i) = []
  next : ∀ {i s l l'}, Valid i s l → sys.next i s l = some l' → Valid i s l'
  publish : ∀ {i j s l m r}, Valid i s l → Valid j s m → sys.finished m = some r →
    (∀ c ∈ sys.claims l, c ∉ sys.claims m) → Valid i (sys.publish s m) l
  finish : ∀ {i s l r}, Valid i s l → sys.finished l = some r → exec i s r (sys.publish s l)

/-- What holds at every moment of a schedule. -/
structure Inv (sys : System ι σ Λ κ ρ) (exec : ι → σ → ρ → σ → Prop) (Valid : ι → σ → Λ → Prop)
    (s : σ) (w : World ι σ Λ ρ) : Prop where
  serial : SerialRun exec s w.commits w.store
  valid : ∀ i l, w.sessions i = .running l → Valid i w.store l
  disjoint : ∀ i j, i ≠ j → ∀ c ∈ held sys (w.sessions i), c ∉ held sys (w.sessions j)
  outcome : ∀ i r, w.sessions i = .committed r ↔ (i, r) ∈ w.commits
  once : (w.commits.map Prod.fst).Nodup

section
variable {sys : System ι σ Λ κ ρ} {exec : ι → σ → ρ → σ → Prop} {Valid : ι → σ → Λ → Prop}
variable {s : σ} {w : World ι σ Λ ρ}

/-- The commits so far, executed one after another, and the sessions. -/
theorem Replayable.shared (h : Replayable sys exec Valid) :
    SharedInv sys (fun commits s' => SerialRun exec s commits s') Valid where
  start _ i := h.start i _
  startClaims := h.startClaims
  next _ := h.next
  publish _ := h.publish
  commit hrun hvalid hr := hrun.snoc (h.finish hvalid hr)

theorem Inv.init (h : Replayable sys exec Valid) (s : σ) : Inv sys exec Valid s (init sys s) where
  serial := .nil
  valid := (h.shared.init (.nil (s := s))).valid
  disjoint := (h.shared.init (.nil (s := s))).disjoint
  outcome i r := by
    constructor
    · intro hcommitted
      contradiction
    · intro hmem
      exact absurd hmem List.not_mem_nil
  once := List.nodup_nil

/-- A session that is running has not committed yet. -/
theorem Inv.once_commit (h : Inv sys exec Valid s w) {i : ι} {l : Λ}
    (hi : w.sessions i = .running l) (r : ρ) : ((w.commits ++ [(i, r)]).map Prod.fst).Nodup := by
  rw [List.map_append, List.nodup_append]
  refine ⟨h.once, List.nodup_singleton i, fun j hj k hk => ?_⟩
  obtain ⟨c, hc, rfl⟩ := List.mem_map.mp hj
  rw [List.mem_singleton.mp hk]
  rintro rfl
  have hcommitted := (h.outcome c.1 c.2).mpr hc
  simp only [hi] at hcommitted
  contradiction

variable [DecidableEq ι]

/-- Who has committed stays so while another session moves on. -/
theorem Inv.outcome_update (h : Inv sys exec Valid s w) {i : ι} {l : Λ}
    (hi : w.sessions i = .running l) {status : Status Λ ρ} (hstatus : ∀ r, status ≠ .committed r)
    (j : ι) (r : ρ) :
    Function.update w.sessions i status j = .committed r ↔ (j, r) ∈ w.commits := by
  rw [← h.outcome j r]
  by_cases hj : j = i
  · rw [hj, Function.update_self, hi]
    exact iff_of_false (hstatus r) (by nofun)
  · rw [Function.update_of_ne hj]

/-- A session that commits is added to those that have. -/
theorem Inv.outcome_commit (h : Inv sys exec Valid s w) {i : ι} {l : Λ}
    (hi : w.sessions i = .running l) (r : ρ) (j : ι) (q : ρ) :
    Function.update w.sessions i (.committed r) j = .committed q ↔
      (j, q) ∈ w.commits ++ [(i, r)] := by
  rw [List.mem_append, List.mem_singleton, ← h.outcome j q, Prod.mk.injEq]
  by_cases hj : j = i
  · rw [hj, Function.update_self, hi]
    simp [eq_comm]
  · rw [Function.update_of_ne hj]
    simp [hj]

variable [Fintype ι] [DecidableEq κ]

/-- **The step rule**: every action keeps the invariant. -/
theorem Inv.act (hrule : Replayable sys exec Valid) (h : Inv sys exec Valid s w) (i : ι)
    (action : Action) : Inv sys exec Valid s (act sys w i action) := by
  obtain ⟨hserial, hvalid, hdisjoint⟩ :=
    hrule.shared.act h.serial ⟨h.valid, h.disjoint⟩ i action
  rcases act_cases sys w i action with heq | ⟨l, status, hi, hstatus, heq⟩ |
    ⟨l, r, hi, hr, heq⟩
  · rw [heq]
    exact h
  · rw [heq] at hserial hvalid hdisjoint ⊢
    refine ⟨hserial, hvalid, hdisjoint, h.outcome_update hi fun r hr => ?_, h.once⟩
    rcases hstatus with rfl | ⟨l', rfl, -⟩
    · contradiction
    · contradiction
  · rw [heq] at hserial hvalid hdisjoint ⊢
    exact ⟨hserial, hvalid, hdisjoint, h.outcome_commit hi r, h.once_commit hi r⟩

/-- **The run rule**: it holds at the end of every schedule. -/
theorem runSchedule_inv (hrule : Replayable sys exec Valid) (s : σ) (schedule : List (ι × Action)) :
    Inv sys exec Valid s (runSchedule sys s schedule) := by
  have hfold : ∀ w, Inv sys exec Valid s w →
      Inv sys exec Valid s (schedule.foldl (fun w a => Serial.act sys w a.1 a.2) w) := by
    induction schedule with
    | nil => exact fun _ hw => hw
    | cons a schedule ih => exact fun w hw => ih _ (hw.act hrule a.1 a.2)
  exact hfold _ (.init hrule s)

end

end Serial

end PgLedger
