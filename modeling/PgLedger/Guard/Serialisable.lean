import Mathlib.Data.List.Forall2
import PgLedger.Concurrency.Serialisable
import PgLedger.Guard.Agree
import PgLedger.Guard.History

/-!
# PgLedger.Guard.Serialisable

Transactions of clients, with several calls, direct statements and savepoints
in each, are serialisable in the order of their commits.  A rollback undoes
what was done after a savepoint, and an error what was done by one command.
So what a transaction has done at any moment, or had done at a savepoint, is
what some of its commands have done, each to the end: its deeds.

The invariant of a session says that its deeds, carried out on the tables as
they are committed now, would make the same changes (`Retraces`), and the same
of the deeds up to each of its savepoints.
-/

namespace PgLedger

variable {crates : Crates} {env : Env} {t u : Tables} {claims : List Claim}

/-! ## the call that is running -/

namespace LocalState

variable {l l' start : LocalState}

/-- The call has what it relies on, or it cannot succeed any more. -/
def Relying (l : LocalState) : Prop :=
  l.program.Hopeless ∨ l.program.Relies (fun _ _ => True) (fun _ => False) l.claims

/-- A call that cannot succeed any more still cannot after its next statement. -/
theorem hopeless_next (h : l.program.Hopeless) (hnext : l.next env t = some l') :
    l'.program.Hopeless := by
  rcases next_eq_some hnext with ⟨-, -, rfl⟩ | ⟨s, k, effect, hprogram, -, rfl⟩
  · exact h
  · rw [hprogram] at h
    exact h effect.result

/-- The next statement of a call leaves it with what it relies on. -/
theorem Relying.next (h : l.Relying) (hnext : l.next env t = some l') : l'.Relying := by
  rcases h with hhopeless | hrelies
  · exact .inl (hopeless_next hhopeless hnext)
  · have hclaims := claims_next hnext
    rcases next_eq_some hnext with ⟨-, -, rfl⟩ | ⟨s, k, effect, hprogram, heval, rfl⟩
    · exact .inr hrelies
    · rw [hprogram] at hrelies
      obtain ⟨hfails, hgoes⟩ := hrelies.2 effect.result
      by_cases hpassing : s.Passing effect.result
      · exact .inl (hfails hpassing)
      · refine .inr ((hgoes hpassing).more (List.append_subset.mpr ⟨hclaims, ?_⟩))
        exact List.Subset.trans (Stmt.gains_subset heval) (List.subset_append_right _ _)

/-- A call that begins with what it relies on has it all along. -/
theorem Replays.relying (h : Replays env start t l) (hstart : start.Relying) : l.Relying := by
  induction h with
  | refl => exact hstart
  | tail _ hnext ih => exact ih.next hnext

/-- A call gives no claim back before the end. -/
theorem Replays.claims_subset (h : Replays env start t l) : start.claims ⊆ l.claims := by
  induction h with
  | refl => exact List.Subset.refl _
  | tail _ hnext ih => exact List.Subset.trans ih (claims_next hnext)

/-- What a step of a call that can still succeed relies on and claims. -/
theorem Relying.step (h : l.Relying) (hnext : l.next env t = some l')
    (halive : ¬ l'.program.Hopeless) : l' = l ∨ ∃ s k, ∃ effect : Effect s.Result,
      l.program = .stmt s k ∧ s.eval env (t.applyAll l.writes) l.backend = .ok effect ∧
      l' = l.advance k effect ∧ s.relies ⊆ l'.claims ∧ s.locks effect.result ⊆ l'.claims ∧
      (∀ w ∈ effect.writes, w.claims ⊆ l'.claims) ∧ ¬ s.Passing effect.result := by
  have hclaims := claims_next hnext
  have hrelies := h.resolve_left fun hhopeless => halive (hopeless_next hhopeless hnext)
  rcases next_eq_some hnext with ⟨-, -, rfl⟩ | ⟨s, k, effect, hprogram, heval, rfl⟩
  · exact .inl rfl
  · rw [hprogram] at hrelies
    refine .inr ⟨s, k, effect, hprogram, heval, rfl, List.Subset.trans hrelies.1 hclaims,
      fun c hc => ?_, fun w hw c hc => ?_,
      fun hpassing => halive ((hrelies.2 effect.result).1 hpassing)⟩
    · exact List.mem_append_right _ (List.mem_append_left _ hc)
    · exact List.mem_append_right _ (List.mem_append_right _ (List.mem_flatMap.mpr ⟨w, hw, hc⟩))

/-- A call that can still succeed does the same on tables that agree. -/
theorem Replays.agree (h : Replays env start t l) (hstart : start.Relying)
    (hwrites : start.writes = []) (halive : ¬ l.program.Hopeless) (hsub : l.claims ⊆ claims)
    (hagree : t.Agree claims u) : Replays env start u l ∧
      (t.applyAll l.writes).Agree claims (u.applyAll l.writes) := by
  induction h with
  | refl =>
      rw [hwrites]
      exact ⟨.refl, hagree⟩
  | @tail l₀ l hprevious hnext ih =>
      obtain ⟨hreplays, hsame⟩ := ih (fun hhopeless => halive (hopeless_next hhopeless hnext))
        (List.Subset.trans (claims_next hnext) hsub)
      rcases (Replays.relying hprevious hstart).step hnext halive with rfl |
        ⟨s, k, effect, hprogram, heval, rfl, hrelies, hlocks, hclaims, hpassing⟩
      · exact ⟨hreplays, hsame⟩
      · obtain ⟨heval', hafter⟩ := Stmt.eval_agree hsame (List.Subset.trans hrelies hsub)
          (List.Subset.trans hlocks hsub) (fun w hw => List.Subset.trans (hclaims w hw) hsub)
          hpassing heval
        refine ⟨hreplays.tail (next_of_stmt hprogram heval'), ?_⟩
        rw [← Tables.applyAll_append, ← Tables.applyAll_append] at hafter
        exact hafter

/-- Its writes do not matter to sessions with other claims. -/
theorem Replays.spares (h : Replays env start t l) (hstart : start.Relying)
    (hwrites : start.writes = []) (halive : ¬ l.program.Hopeless)
    (hclaims : ∀ c ∈ claims, c ∉ l.claims) : t.Agree claims (t.applyAll l.writes) := by
  induction h with
  | refl =>
      rw [hwrites]
      exact .refl claims t
  | @tail l₀ l hprevious hnext ih =>
      have hbefore := ih (fun hhopeless => halive (hopeless_next hhopeless hnext))
        fun c hc hmem => hclaims c hc (claims_next hnext hmem)
      rcases (Replays.relying hprevious hstart).step hnext halive with rfl |
        ⟨s, k, effect, hprogram, heval, rfl, hrelies, -, hwritten, -⟩
      · exact hbefore
      · have hafter : (t.applyAll l₀.writes).Agree claims _ := Stmt.eval_spares
          (fun c hc hmem => hclaims c hmem (hrelies hc))
          (fun w hw c hc hmem => hclaims c hmem (hwritten w hw hc)) heval
        rw [← Tables.applyAll_append] at hafter
        exact hbefore.trans hafter

/-- A call that has returned was not interrupted. -/
theorem Replays.of_interrupt {program : Spi Uuid} {e : PgError} {n : Nat} {id : Uuid}
    (h : Replays env start t l) (hstart : start.program = program.interrupt e n)
    (hdone : l.program = .pure id) : Replays env { start with program } t l := by
  induction h using Relation.ReflTransGen.head_induction_on generalizing program n with
  | refl =>
      cases program with
      | pure a =>
          have hsame : l.program = .pure a := by
            rw [hstart]
            cases n <;> rfl
          rw [← hsame]
          exact .refl
      | fail e' =>
          have hfail : l.program = .fail e' := by
            rw [hstart]
            cases n <;> rfl
          simp only [hfail] at hdone
          contradiction
      | stmt s k =>
          rw [hdone] at hstart
          cases n <;> contradiction
  | @head l₁ l₂ hnext _ ih =>
      cases program with
      | pure a =>
          have hpure : l₁.program = .pure a := by
            rw [hstart]
            cases n <;> rfl
          have hsame : l₁ = l₂ := by
            rw [next_of_pure hpure] at hnext
            exact Option.some.inj hnext
          rw [hsame] at hstart ⊢
          exact ih hstart
      | fail e' =>
          have hfail : l₁.program = .fail e' := by
            rw [hstart]
            cases n <;> rfl
          simp only [LocalState.next, hfail] at hnext
          contradiction
      | stmt s k =>
          cases n with
          | zero =>
              simp only [LocalState.next, hstart, Spi.interrupt] at hnext
              contradiction
          | succ n =>
              rcases next_eq_some hnext with ⟨id', hpure, -⟩ |
                ⟨s', k', effect, hprogram, heval, rfl⟩
              · rw [hstart] at hpure
                contradiction
              · rw [hstart] at hprogram
                obtain ⟨rfl, hk⟩ := Spi.stmt.inj hprogram
                obtain rfl := eq_of_heq hk
                refine .head ?_ (ih rfl)
                exact next_of_stmt rfl heval

end LocalState

/-! ## deeds so far -/

/-- The deeds, carried out on the tables `t` one after another by a session,
make these changes and end with these claims. -/
inductive Retraces (crates : Crates) (env : Env) (t : Tables) :
    List Deed → List Change → List Claim → Prop where
  | nil : Retraces crates env t [] [] []
  | call {deeds : List Deed} {changes : List Change} {claims : List Claim} {made : Call}
      {b : Backend} {l : LocalState} {id : Uuid} (h : Retraces crates env t deeds changes claims)
      (hcall : LocalState.Replays env ⟨made.program crates, [], b, claims⟩ (t.changeAll changes) l)
      (hdone : l.program = .pure id) :
      Retraces crates env t (deeds ++ [.call made env b]) (changes ++ l.writes.map .posting)
        l.claims
  | direct {deeds : List Deed} {changes : List Change} {claims : List Claim} {statement : Direct}
      {b : Backend} {effect : DirectEffect} (h : Retraces crates env t deeds changes claims)
      (hup : GuardUp b.internalPosting)
      (heval : statement.eval env (t.changeAll changes) b = .ok effect)
      (hfound : effect.changes ≠ []) :
      Retraces crates env t (deeds ++ [.direct statement env b]) (changes ++ effect.changes)
        (claims ++ effect.claims)

namespace Retraces

variable {deeds : List Deed} {changes : List Change} {held : List Claim}

/-- A call has all that it relies on when it begins. -/
theorem relying_start (crates : Crates) (made : Call) (b : Backend) (held : List Claim) :
    LocalState.Relying ⟨made.program crates, [], b, held⟩ :=
  .inr ((made.relies crates).more (List.nil_subset _))

/-- A call that has returned was not hopeless. -/
theorem not_hopeless {l : LocalState} {id : Uuid} (h : l.program = .pure id) :
    ¬ l.program.Hopeless := by
  rw [h]
  exact not_false

/-- All direct statements among the deeds were made with the guard up. -/
theorem guarded (h : Retraces crates env t deeds changes held) : ∀ deed ∈ deeds, deed.Guarded := by
  induction h with
  | nil => exact fun _ hdeed => absurd hdeed List.not_mem_nil
  | call _ _ _ ih =>
      intro deed hdeed
      rcases List.mem_append.mp hdeed with hold | hnew
      · exact ih deed hold
      · rw [List.mem_singleton.mp hnew]
        trivial
  | direct _ hup _ _ ih =>
      intro deed hdeed
      rcases List.mem_append.mp hdeed with hold | hnew
      · exact ih deed hold
      · rw [List.mem_singleton.mp hnew]
        exact hup

/-- Carried out alone, the deeds do the same. -/
theorem exec (h : Retraces crates env t deeds changes held) :
    execDeeds crates deeds t = .ok (t.changeAll changes) := by
  induction h with
  | nil => rfl
  | @call deeds changes held made b l id _ hcall hdone ih =>
      refine execDeeds_append.mpr ⟨_, ih, ?_⟩
      rw [execDeeds_singleton]
      refine Deed.exec_call_eq_ok.mpr ⟨id, l.backend, ?_⟩
      have hrun := hcall.run_eq
      rw [hdone] at hrun
      rw [Tables.changeAll_append, Tables.changeAll_posting]
      exact hrun
  | @direct deeds changes held statement b effect _ _ heval _ ih =>
      refine execDeeds_append.mpr ⟨_, ih, ?_⟩
      rw [execDeeds_singleton]
      refine Deed.exec_direct_eq_ok.mpr ⟨effect, heval, ?_⟩
      rw [Tables.changeAll_append]

/-- **The frame rule**: on tables that agree, the deeds do the same. -/
theorem agree (h : Retraces crates env t deeds changes held) (hsub : held ⊆ claims)
    (hagree : t.Agree claims u) : Retraces crates env u deeds changes held ∧
      (t.changeAll changes).Agree claims (u.changeAll changes) := by
  induction h with
  | nil => exact ⟨.nil, hagree⟩
  | @call deeds changes held made b l id _ hcall hdone ih =>
      obtain ⟨hbefore, hsame⟩ := ih (List.Subset.trans hcall.claims_subset hsub)
      obtain ⟨hcall', hafter⟩ := hcall.agree (relying_start crates made b held) rfl
        (not_hopeless hdone) hsub hsame
      refine ⟨hbefore.call hcall' hdone, ?_⟩
      rw [Tables.changeAll_append, Tables.changeAll_append, Tables.changeAll_posting,
        Tables.changeAll_posting]
      exact hafter
  | @direct deeds changes held statement b effect _ hup heval hfound ih =>
      obtain ⟨hheld, hclaims⟩ := List.append_subset.mp hsub
      obtain ⟨hbefore, hsame⟩ := ih hheld
      obtain ⟨heval', hafter⟩ := Direct.eval_agree hsame hclaims hfound heval
      refine ⟨hbefore.direct hup heval' hfound, ?_⟩
      rw [Tables.changeAll_append, Tables.changeAll_append]
      exact hafter

/-- What they change does not matter to sessions with other claims. -/
theorem spares (h : Retraces crates env t deeds changes held) (hclaims : ∀ c ∈ claims, c ∉ held) :
    t.Agree claims (t.changeAll changes) := by
  induction h with
  | nil => exact .refl claims t
  | @call deeds changes held made b l id _ hcall hdone ih =>
      have hbefore := ih fun c hc hmem => hclaims c hc (hcall.claims_subset hmem)
      have hafter := hcall.spares (relying_start crates made b held) rfl (not_hopeless hdone)
        hclaims
      rw [Tables.changeAll_append, Tables.changeAll_posting]
      exact hbefore.trans hafter
  | @direct deeds changes held statement b effect _ _ heval _ ih =>
      have hbefore := ih fun c hc hmem => hclaims c hc (List.mem_append_left _ hmem)
      have hafter := Direct.eval_spares
        (fun c hc hmem => hclaims c hmem (List.mem_append_right _ hc)) heval
      rw [Tables.changeAll_append]
      exact hbefore.trans hafter

end Retraces

/-! ## sessions -/

/-- The command that a deed carries out. -/
inductive Deed.Of (env : Env) : Deed → Command → Prop where
  | call {made : Call} {b : Backend} {interruption : Option (Nat × PgError)} :
      Of env (.call made env b) (.call made interruption)
  | direct {statement : Direct} {b : Backend} :
      Of env (.direct statement env b) (.direct true statement)

def Deed.made? : Deed → Option Call
  | .call made _ _ => some made
  | .direct _ _ _ => none

def Command.made? : Command → Option Call
  | .call made _ => some made
  | _ => none

section
variable {α β : Type} {R : α → β → Prop} {as as' : List α} {bs bs' : List β}

/-- Two sublists that correspond, one after the other. -/
theorem sublistForall₂_append (h : List.SublistForall₂ R as bs)
    (h' : List.SublistForall₂ R as' bs') : List.SublistForall₂ R (as ++ as') (bs ++ bs') := by
  obtain ⟨cs, hcs, hsub⟩ := List.sublistForall₂_iff.mp h
  obtain ⟨cs', hcs', hsub'⟩ := List.sublistForall₂_iff.mp h'
  exact List.sublistForall₂_iff.mpr ⟨cs ++ cs', List.rel_append hcs hcs', hsub.append hsub'⟩

end

/-- The deeds carry out some of the commands, in their order, and without
savepoints all of the calls. -/
structure Deed.AllOf (env : Env) (deeds : List Deed) (commands : List Command) : Prop where
  order : List.SublistForall₂ (Deed.Of env) deeds commands
  calls : (∀ name, .savepoint name ∉ commands) →
    deeds.filterMap Deed.made? = commands.filterMap Command.made?

namespace Deed.AllOf

variable {deeds : List Deed} {commands : List Command}

/-- No commands, no deeds. -/
theorem nil (env : Env) : AllOf env [] [] := ⟨.nil, fun _ => rfl⟩

/-- A command that has done nothing, or whose doings were undone. -/
theorem skip (h : AllOf env deeds commands) {command : Command}
    (hcommand : command.made? = none ∨ ∃ name, .savepoint name ∈ commands) :
    AllOf env deeds (commands ++ [command]) := by
  constructor
  · have hskipped := sublistForall₂_append h.order (.nil (l := [command]))
    rwa [List.append_nil] at hskipped
  · intro hnone
    rcases hcommand with hmade | ⟨name, hmem⟩
    · have hcalls := h.calls fun name hmem => hnone name (List.mem_append_left _ hmem)
      simp [hcalls, hmade]
    · exact absurd (List.mem_append_left _ hmem) (hnone name)

/-- One more command that was carried out. -/
theorem snoc (h : AllOf env deeds commands) {deed : Deed} {command : Command}
    (hdeed : deed.Of env command) : AllOf env (deeds ++ [deed]) (commands ++ [command]) := by
  refine ⟨sublistForall₂_append h.order (.cons hdeed .nil), fun hnone => ?_⟩
  have hcalls := h.calls fun name hmem => hnone name (List.mem_append_left _ hmem)
  rw [List.filterMap_append, List.filterMap_append, hcalls]
  cases hdeed with
  | call | direct => rfl

end Deed.AllOf

namespace Client

variable (crates : Crates) (c : Client)

/-- The changes are those of deeds that carry out the commands. -/
def Traced (t : Tables) (commands : List Command) (changes : List Change) (held : List Claim) :
    Prop :=
  ∃ deeds, Deed.AllOf c.env deeds commands ∧ Retraces crates c.env t deeds changes held

variable {crates c} {commands : List Command} {changes : List Change} {held : List Claim}

/-- A command that did nothing: it makes no call, or savepoints allow calls to
be undone. -/
theorem Traced.skip (h : c.Traced crates t commands changes held) {command : Command}
    (hcommand : command.made? = none ∨ ∃ name, .savepoint name ∈ commands) :
    c.Traced crates t (commands ++ [command]) changes held := by
  obtain ⟨deeds, hof, hretraces⟩ := h
  exact ⟨deeds, hof.skip hcommand, hretraces⟩

/-- What was done on tables that agree could have been done on these. -/
theorem Traced.agree (h : c.Traced crates t commands changes held) (hsub : held ⊆ claims)
    (hagree : t.Agree claims u) : c.Traced crates u commands changes held := by
  obtain ⟨deeds, hof, hretraces⟩ := h
  exact ⟨deeds, hof, (hretraces.agree hsub hagree).1⟩

/-- Going on with a call that has returned. -/
theorem Traced.call (h : c.Traced crates t commands changes held) {made : Call} {b : Backend}
    {l : LocalState} {id : Uuid} {interruption : Option (Nat × PgError)}
    (hcall : LocalState.Replays c.env ⟨Command.program crates made interruption, [], b, held⟩
      (t.changeAll changes) l) (hdone : l.program = .pure id) :
    c.Traced crates t (commands ++ [.call made interruption])
      (changes ++ l.writes.map .posting) l.claims := by
  obtain ⟨deeds, hof, hretraces⟩ := h
  refine ⟨deeds ++ [.call made c.env b], hof.snoc .call, ?_⟩
  refine hretraces.call ?_ hdone
  cases interruption with
  | none => exact hcall
  | some stop => exact hcall.of_interrupt rfl hdone

/-- A direct statement has been made, and if it has found its row, it is a
deed. -/
theorem Traced.direct (h : c.Traced crates t commands changes held) {statement : Direct}
    {b : Backend} {effect : DirectEffect} (hup : GuardUp b.internalPosting)
    (heval : statement.eval c.env (t.changeAll changes) b = .ok effect) :
    c.Traced crates t (commands ++ [.direct true statement]) (changes ++ effect.changes)
      (held ++ effect.claims) := by
  by_cases hfound : effect.changes = []
  · obtain rfl : effect = ⟨[], [], b⟩ := by
      rcases Direct.eval_cases heval with rfl | ⟨id, set, old, row, -, -, rfl⟩ |
        ⟨id, old, -, -, rfl⟩
      · rfl
      · contradiction
      · contradiction
    rw [List.append_nil, List.append_nil]
    exact h.skip (.inl rfl)
  · obtain ⟨deeds, hof, hretraces⟩ := h
    exact ⟨deeds ++ [.direct statement c.env b], hof.snoc .direct,
      hretraces.direct hup heval hfound⟩

end Client

namespace ClientState

/-- The last command is a call, and `program` is what is left of it. -/
def Calling (crates : Crates) (c : Client) (t : Tables) (commands : List Command) (l : ClientState)
    (program : Spi Uuid) : Prop :=
  ∃ before made interruption changes held b ws,
    commands = before ++ [.call made interruption] ∧
    c.Traced crates t before changes held ∧
    LocalState.Replays c.env ⟨Command.program crates made interruption, [], b, held⟩
      (t.changeAll changes) ⟨program, ws, l.backend, l.claims⟩ ∧
    l.changes = changes ++ ws.map .posting

/-- Where a session is after these commands. -/
structure Retraced (crates : Crates) (c : Client) (t : Tables) (commands : List Command)
    (l : ClientState) : Prop where
  script : c.script = commands ++ l.script
  saved : ∀ s ∈ l.saved, c.Traced crates t commands s.changes s.claims
  opened : l.saved ≠ [] → ∃ name, .savepoint name ∈ commands
  failed : l.failed → l.saved ≠ []
  idle : l.call = none → c.Traced crates t commands l.changes l.claims
  calling : ∀ program, l.call = some program →
    program.Hopeless ∨ l.Calling crates c t commands program

variable {crates : Crates} {c : Client} {h : Heap} {l l' m : ClientState}
variable {commands : List Command}

/-- A session begins with no command behind it. -/
theorem retraced_start (crates : Crates) (c : Client) (t : Tables) :
    c.start.Retraced crates c t [] where
  script := rfl
  saved _ hs := absurd hs List.not_mem_nil
  opened hne := absurd rfl hne
  failed hfailed := by contradiction
  idle _ := ⟨[], .nil c.env, .nil⟩
  calling _ hcall := by contradiction

/-- A session sees the committed tables and its own changes. -/
theorem view_eq : l.view h = h.tables.changeAll l.changes := h.tables_applyAll l.changes

namespace Retraced

/-- Going back to a savepoint. -/
theorem restore (hl : l.Retraced crates c t commands) {s : Savepoint} {below : List Savepoint}
    (hsaved : s :: below <:+ l.saved) (failed : Bool) :
    Retraced crates c t commands { l.restore s below with failed } where
  script := hl.script
  saved s' hs' := hl.saved s' (hsaved.subset hs')
  opened _ := hl.opened (List.ne_nil_of_mem (hsaved.subset List.mem_cons_self))
  failed _ := List.cons_ne_nil s below
  idle _ := hl.saved s (hsaved.subset List.mem_cons_self)
  calling _ hcall := by contradiction

/-- An error leads back to a savepoint. -/
theorem fail (hl : l.Retraced crates c t commands) (hfail : l.fail = some l') :
    l'.Retraced crates c t commands := by
  unfold ClientState.fail at hfail
  split at hfail
  · contradiction
  · next s below hsaved =>
    obtain rfl := Option.some.inj hfail
    have hsuffix : s :: below <:+ l.saved := by rw [hsaved]
    exact hl.restore hsuffix true

/-- A rollback leads back to what was traced when the savepoint was set. -/
theorem rollbackTo (hl : l.Retraced crates c t commands) {name : Str} {s : Savepoint}
    {below : List Savepoint} (hsaved : l.savedFrom name = s :: below) (failed : Bool) :
    Retraced crates c t commands { l.restore s below with failed } :=
  hl.restore (hsaved ▸ List.dropWhile_suffix _) failed

/-- A command that has done nothing yet. -/
theorem skip (hl : l.Retraced crates c t commands) (hcall : l.call = none) (command : Command)
    (hcommand : command.made? = none ∨ ∃ name, .savepoint name ∈ commands)
    {script : List Command} (hscript : l.script = command :: script) :
    Retraced crates c t (commands ++ [command]) { l with script } where
  script := by rw [hl.script, hscript, List.append_cons]
  saved s hs := (hl.saved s hs).skip hcommand
  opened hne := by
    obtain ⟨name, hmem⟩ := hl.opened hne
    exact ⟨name, List.mem_append_left _ hmem⟩
  failed := hl.failed
  idle _ := (hl.idle hcall).skip hcommand
  calling program hprogram := absurd (hcall.symm.trans hprogram) (Option.some_ne_none _).symm

/-- The next statement of a call. -/
theorem nextOfCall (hl : l.Retraced crates c h.tables commands) {program : Spi Uuid}
    (hcall : l.call = some program) (hnext : l.nextOfCall c.env h program = some l') :
    l'.Retraced crates c h.tables commands := by
  have hcalling := hl.calling program hcall
  cases program with
  | pure id =>
      obtain rfl := Option.some.inj hnext
      obtain ⟨before, made, interruption, changes, held, b, ws, rfl, hbefore, hreplays, hchanges⟩ :=
        hcalling.resolve_left not_false
      refine { hl with idle := fun _ => ?_, calling := fun _ hnone => by contradiction }
      show c.Traced crates h.tables _ l.changes l.claims
      rw [hchanges]
      exact hbefore.call hreplays rfl
  | fail e => exact hl.fail hnext
  | stmt s k =>
      simp only [ClientState.nextOfCall] at hnext
      split at hnext
      · exact hl.fail hnext
      · next effect heval =>
        obtain rfl := Option.some.inj hnext
        refine { hl with
          idle := fun hnone => by contradiction
          calling := fun program' hprogram => ?_ }
        obtain rfl := Option.some.inj hprogram
        refine hcalling.imp (fun hhopeless => hhopeless effect.result) fun hrest => ?_
        obtain ⟨before, made, interruption, changes, held, b, ws, hcommands, hbefore, hreplays,
          hchanges⟩ := hrest
        refine ⟨before, made, interruption, changes, held, b, ws ++ effect.writes, hcommands,
          hbefore, hreplays.tail ?_, ?_⟩
        · rw [view_eq, hchanges, Tables.changeAll_append, Tables.changeAll_posting] at heval
          exact LocalState.next_of_stmt rfl heval
        · show l.changes ++ _ = _
          rw [hchanges, List.map_append, List.append_assoc]

/-- The next command. -/
theorem run (hl : l.Retraced crates c h.tables commands) (hcall : l.call = none)
    (hfailed : l.failed = false) (hup : GuardUp l.backend.internalPosting) {command : Command}
    {script : List Command} (hscript : l.script = command :: script)
    (hrun : { l with script }.run crates c.env h command = some l') :
    l'.Retraced crates c h.tables (commands ++ [command]) := by
  cases command with
  | savepoint name =>
      have hskipped := hl.skip hcall (.savepoint name) (.inl rfl) hscript
      obtain rfl := Option.some.inj hrun
      refine { hskipped with
        saved := fun s hs => ?_
        opened := fun _ => ⟨name, List.mem_append_right _ (List.mem_singleton_self _)⟩
        failed := fun _ => List.cons_ne_nil _ _ }
      rcases List.mem_cons.mp hs with rfl | hs
      · exact hskipped.idle hcall
      · exact hskipped.saved s hs
  | rollbackTo name =>
      have hskipped := hl.skip hcall (.rollbackTo name) (.inl rfl) hscript
      simp only [ClientState.run] at hrun
      split at hrun
      · exact hskipped.fail hrun
      · next s below hsaved =>
        obtain rfl := Option.some.inj hrun
        exact hskipped.rollbackTo hsaved l.failed
  | release name =>
      have hskipped := hl.skip hcall (.release name) (.inl rfl) hscript
      simp only [ClientState.run] at hrun
      split at hrun
      · exact hskipped.fail hrun
      · next s below hsaved =>
        obtain rfl := Option.some.inj hrun
        have hfound : s :: below <:+ l.saved := hsaved ▸ List.dropWhile_suffix _
        exact { hskipped with
          saved := fun s' hs' => hskipped.saved s' (hfound.subset (List.mem_cons_of_mem s hs'))
          opened := fun _ => hskipped.opened (List.ne_nil_of_mem (hfound.subset List.mem_cons_self))
          failed := fun htrue => absurd (hfailed.symm.trans htrue) Bool.false_ne_true }
  | call made interruption =>
      obtain rfl := Option.some.inj hrun
      refine ⟨?_, fun s hs => ?_, fun hne => ?_, hl.failed, fun hnone => by contradiction,
        fun program hprogram => .inr ?_⟩
      · rw [hl.script, hscript, List.append_cons]
      · exact (hl.saved s hs).skip (.inr (hl.opened (List.ne_nil_of_mem hs)))
      · obtain ⟨name, hmem⟩ := hl.opened hne
        exact ⟨name, List.mem_append_left _ hmem⟩
      · obtain rfl := Option.some.inj hprogram
        exact ⟨commands, made, interruption, l.changes, l.claims, l.backend, [], rfl,
          hl.idle hcall, .refl, (List.append_nil _).symm⟩
  | direct permitted statement =>
      have hskipped := hl.skip hcall (.direct permitted statement) (.inl rfl) hscript
      simp only [ClientState.run] at hrun
      split at hrun
      · next hpermitted =>
        subst hpermitted
        split at hrun
        · exact hskipped.fail hrun
        · next effect heval =>
          obtain rfl := Option.some.inj hrun
          refine { hskipped with
            idle := fun _ => (hl.idle hcall).direct hup ?_
            calling := fun program hprogram =>
              absurd (hcall.symm.trans hprogram) (Option.some_ne_none _).symm }
          exact view_eq ▸ heval
      · exact hskipped.fail hrun

/-- After an error a session stays where it is or rolls back. -/
theorem runFailed (hl : l.Retraced crates c t commands) {command : Command}
    (hrun : l.runFailed command = some l') : l'.Retraced crates c t commands := by
  cases command with
  | rollbackTo name =>
      simp only [ClientState.runFailed] at hrun
      split at hrun
      · obtain rfl := Option.some.inj hrun
        exact hl
      · next s below hsaved =>
        obtain rfl := Option.some.inj hrun
        exact hl.rollbackTo hsaved false
  | savepoint name | release name | call made interruption | direct permitted statement =>
      obtain rfl := Option.some.inj hrun
      exact hl

/-- **The frame**: a session does not notice what leaves tables that agree. -/
theorem agree (hl : l.Retraced crates c t commands)
    (hsaved : ∀ s ∈ l.saved, s.claims ⊆ l.claims) (hagree : t.Agree l.claims u) :
    l.Retraced crates c u commands where
  script := hl.script
  saved s hs := (hl.saved s hs).agree (hsaved s hs) hagree
  opened := hl.opened
  failed := hl.failed
  idle hcall := (hl.idle hcall).agree (List.Subset.refl _) hagree
  calling program hprogram := by
    rcases hl.calling program hprogram with hhopeless | ⟨before, made, interruption, changes, held,
      b, ws, hcommands, ⟨deeds, hof, hretraces⟩, hreplays, hchanges⟩
    · exact .inl hhopeless
    by_cases hhopeless : program.Hopeless
    · exact .inl hhopeless
    obtain ⟨hretraces', hbefore⟩ := hretraces.agree hreplays.claims_subset hagree
    have hstart : LocalState.Relying
        ⟨Command.program crates made interruption, [], b, held⟩ := by
      have hrelies := (made.relies crates).more (List.nil_subset held)
      cases interruption with
      | none => exact .inr hrelies
      | some stop => exact .inr (hrelies.interrupt stop.2 stop.1)
    obtain ⟨hreplays', -⟩ := hreplays.agree hstart rfl hhopeless (List.Subset.refl _) hbefore
    exact .inr ⟨before, made, interruption, changes, held, b, ws, hcommands,
      ⟨deeds, hof, hretraces'⟩, hreplays', hchanges⟩

/-- A transaction that can be committed has come to its end. -/
theorem finished (hl : l.Retraced crates c t commands) {changes : List Change}
    (hdone : l.finished = some changes) : c.Traced crates t c.script changes l.claims := by
  simp only [ClientState.finished] at hdone
  split at hdone
  · next hcall hscript _ =>
    obtain rfl := Option.some.inj hdone
    rw [hl.script, hscript, List.append_nil]
    exact hl.idle hcall
  · contradiction

end Retraced

/-- Where a session is, and how it has got there. -/
def Follows (crates : Crates) (c : Client) (h : Heap) (l : ClientState) : Prop :=
  l.Sound h ∧ ∃ commands, l.Retraced crates c h.tables commands

/-- **The step**: whatever a session does next, its deeds can still be retraced. -/
theorem Follows.next (hl : l.Follows crates c h) (hnext : l.next crates c.env h = some l') :
    l'.Follows crates c h := by
  obtain ⟨hsound, commands, hretraced⟩ := hl
  refine ⟨hsound.next hnext, ?_⟩
  unfold ClientState.next at hnext
  split at hnext
  · next program hcall => exact ⟨commands, hretraced.nextOfCall hcall hnext⟩
  · obtain rfl := Option.some.inj hnext
    exact ⟨commands, hretraced⟩
  · next command script hcall hscript =>
    refine ⟨commands ++ [command], ?_⟩
    split at hnext
    · next hfailed =>
      have hopened := hretraced.opened (hretraced.failed hfailed)
      exact (hretraced.skip hcall command (.inr hopened) hscript).runFailed hnext
    · next hfailed =>
      exact hretraced.run hcall (Bool.eq_false_of_not_eq_true hfailed) (hsound.guardUp hcall)
        hscript hnext

/-- **The frame**: the commit of another session does not matter. -/
theorem Follows.publish {c' : Client} (hl : l.Follows crates c h) (hm : m.Follows crates c' h)
    {changes : List Change} (hdone : m.finished = some changes)
    (hclaims : ∀ k ∈ l.claims, k ∉ m.claims) : l.Follows crates c (h.applyAll m.changes) := by
  obtain ⟨hsound, commands, hretraced⟩ := hl
  obtain ⟨hsound', commands', hretraced'⟩ := hm
  obtain ⟨rfl, -⟩ := hsound'.finished hdone
  obtain ⟨deeds, -, hdeeds⟩ := hretraced'.finished hdone
  refine ⟨hsound.publish hsound' hclaims, commands, hretraced.agree ?_ ?_⟩
  · exact fun s hs => (List.pairwise_cons.mp hsound.nested).1 s hs
  · rw [Heap.tables_applyAll]
    exact hdeeds.spares hclaims

end ClientState

/-! ## all sessions -/

section
variable {ι : Type} (crates : Crates) (clients : ι → Client)

/-- The deeds of the committed transactions, one transaction after another,
lead to the tables `t`. -/
structure Serially (commits : List (ι × List Change)) (done : List (List Deed)) (t : Tables) :
    Prop where
  transactions : List.Forall₂ (fun (commit : ι × List Change) deeds =>
    Deed.AllOf (clients commit.1).env deeds (clients commit.1).script) commits done
  guarded : ∀ deeds ∈ done, ∀ deed ∈ deeds, deed.Guarded
  exec : execDeeds crates done.flatten .empty = .ok t

/-- **The invariant**: the committed changes are those of deeds one after
another, and every session follows from its own. -/
theorem clients_follow : Serial.SharedInv (guardedSessions crates clients)
    (fun commits h =>
      (h = Heap.empty.applyAll (written commits) ∧ Allowed [] (written commits)) ∧
        ∃ done, Serially crates clients commits done h.tables)
    (fun i h l => l.Follows crates (clients i) h) where
  start hS i := ⟨(guardedSessions_sound crates clients).start hS.1 i, [],
    ClientState.retraced_start crates (clients i) _⟩
  startClaims _ := rfl
  next _ hl hnext := hl.next hnext
  publish _ hl hm hdone hclaims := hl.publish hm hdone hclaims
  commit {i} cs s {l} {changes} hS hl hdone := by
    refine ⟨(guardedSessions_sound crates clients).commit hS.1 hl.1 hdone, ?_⟩
    obtain ⟨-, done, htransactions, hguarded, hexec⟩ := hS
    obtain ⟨hsound, commands, hretraced⟩ := hl
    obtain ⟨rfl, -⟩ := hsound.finished hdone
    obtain ⟨deeds, hdeeds, hretraces⟩ := hretraced.finished hdone
    refine ⟨done ++ [deeds], List.rel_append htransactions (.cons hdeeds .nil), ?_, ?_⟩
    · intro deeds' hmem
      rcases List.mem_append.mp hmem with hold | hnew
      · exact hguarded deeds' hold
      · rw [List.mem_singleton.mp hnew]
        exact hretraces.guarded
    · rw [List.flatten_append, List.flatten_singleton]
      refine execDeeds_append.mpr ⟨_, hexec, ?_⟩
      have hlast := hretraces.exec
      rw [← Heap.tables_applyAll] at hlast
      exact hlast

variable [Fintype ι] [DecidableEq ι]

/-- At every moment of a schedule. -/
theorem runGuarded_serially (schedule : List (ι × Serial.Action)) :
    (∃ done, Serially crates clients (runGuarded crates clients schedule).commits done
      (runGuarded crates clients schedule).store.tables) ∧
    ∀ i l, (runGuarded crates clients schedule).sessions i = .running l →
      l.Follows crates (clients i) (runGuarded crates clients schedule).store := by
  have hnone : Fits [] [] [] := .nil List.Pairwise.nil
  obtain ⟨⟨-, hdone⟩, hsessions⟩ := (clients_follow crates clients).runSchedule
    ⟨⟨rfl, hnone.toAllowed⟩, [], .nil, fun _ h => absurd h List.not_mem_nil, rfl⟩ schedule
  exact ⟨hdone, hsessions.valid⟩

/-- **Serialisability of transactions**: however the transactions of clients
are interleaved, with several calls and direct statements in each, with
savepoints, errors and interruptions, the committed ones have done what some of
their commands do one after another, in the order of their commits; and a
running one sees, between two commands, what the deeds of the committed ones
and its own lead to. -/
theorem transactionsSerialisable (schedule : List (ι × Serial.Action)) :
    ∃ done, Serially crates clients (runGuarded crates clients schedule).commits done
        (runGuarded crates clients schedule).store.tables ∧
      ∀ i l, (runGuarded crates clients schedule).sessions i = .running l → l.call = none →
        ∃ before deeds, (clients i).script = before ++ l.script ∧
          Deed.AllOf (clients i).env deeds before ∧ (∀ deed ∈ deeds, deed.Guarded) ∧
          execDeeds crates (done.flatten ++ deeds) .empty =
            .ok (l.view (runGuarded crates clients schedule).store) := by
  obtain ⟨⟨done, hdone⟩, hfollows⟩ := runGuarded_serially crates clients schedule
  refine ⟨done, hdone, fun i l hl hcall => ?_⟩
  obtain ⟨-, before, hretraced⟩ := hfollows i l hl
  obtain ⟨deeds, hdeeds, hretraces⟩ := hretraced.idle hcall
  refine ⟨before, deeds, hretraced.script, hdeeds, hretraces.guarded, ?_⟩
  rw [ClientState.view_eq]
  exact execDeeds_append.mpr ⟨_, hdone.exec, hretraces.exec⟩

end

end PgLedger
