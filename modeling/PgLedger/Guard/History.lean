import PgLedger.Guard.Allowed

/-!
# PgLedger.Guard.History

History is append-only and guarded, whatever direct statements the clients mix
in.  The invariant of a session, `ClientState.Sound`, says that its changes are
allowed, the ones so far and the ones of each of its savepoints, and that the
guard is up whenever no call is running.  So a direct statement always meets
the guard, and a rollback never brings an open one back.  Commits of others
keep the invariant, since they change other rows.

The result is about committed rows and about the rows a transaction sees
before it commits (`historyGuarded`).  An account is a slot: direct statements
may give an account without entries another identifier, or delete it.
-/

namespace PgLedger

/-! ## sessions -/

namespace ClientState

variable {crates : Crates} {env : Env} {h : Heap} {l l' m : ClientState}

/-- Where the transaction stands, as a savepoint. -/
def current (l : ClientState) : Savepoint := ⟨[], l.changes, l.backend.internalPosting, l.claims⟩

/-- The guard is up, or will be when the call that is running returns. -/
def Guarded (l : ClientState) : Prop :=
  match l.call with
  | none => GuardUp l.backend.internalPosting
  | some program => program.Leaves GuardUp l.backend.internalPosting

structure Sound (h : Heap) (l : ClientState) : Prop where
  frames : ∀ s ∈ l.current :: l.saved, Fits h.accounts s.changes s.claims
  nested : (l.current :: l.saved).Pairwise fun s s' => s'.claims ⊆ s.claims
  settings : ∀ s ∈ l.saved, GuardUp s.internalPosting
  guarded : l.Guarded

theorem sound_start (hdistinct : accountChanges.Distinct h.accounts) (c : Client) :
    c.start.Sound h where
  frames s hs := by
    rw [List.mem_singleton.mp hs]
    exact .nil hdistinct
  nested := List.pairwise_singleton _ _
  settings s hs := absurd hs List.not_mem_nil
  guarded := c.off

namespace Sound

theorem guardUp (hl : l.Sound h) (hcall : l.call = none) : GuardUp l.backend.internalPosting := by
  have hguarded := hl.guarded
  unfold Guarded at hguarded
  rw [hcall] at hguarded
  exact hguarded

theorem leaves (hl : l.Sound h) {program : Spi Uuid} (hcall : l.call = some program) :
    program.Leaves GuardUp l.backend.internalPosting := by
  have hguarded := hl.guarded
  unfold Guarded at hguarded
  rw [hcall] at hguarded
  exact hguarded

/-- In what a session sees, no two accounts have the same identifier. -/
theorem distinct_view (hl : l.Sound h) :
    accountChanges.Distinct (accountChanges.applyAll l.changes h.accounts) :=
  (hl.frames l.current List.mem_cons_self).distinct

/-- Going back to a savepoint. -/
theorem restore (hl : l.Sound h) {s : Savepoint} {below : List Savepoint}
    (hsaved : s :: below <:+ l.saved) : (l.restore s below).Sound h := by
  have hmem (s' : Savepoint) (hs' : s' ∈ s :: below) : s' ∈ l.saved := hsaved.subset hs'
  have hs := hl.frames s (List.mem_cons_of_mem _ (hmem s List.mem_cons_self))
  have hnested := (List.pairwise_cons.mp hl.nested).2.sublist hsaved.sublist
  refine ⟨?_, ?_, fun s' hs' => hl.settings s' (hmem s' hs'),
    hl.settings s (hmem s List.mem_cons_self)⟩
  · intro s' hs'
    rcases List.mem_cons.mp hs' with rfl | hs'
    · exact hs
    · exact hl.frames s' (List.mem_cons_of_mem _ (hmem s' hs'))
  · refine List.pairwise_cons.mpr ⟨fun s' hs' => ?_, hnested⟩
    rcases List.mem_cons.mp hs' with rfl | hs'
    · exact List.Subset.refl _
    · exact (List.pairwise_cons.mp hnested).1 s' hs'

/-- An error leads back to a savepoint. -/
theorem fail (hl : l.Sound h) (hfail : l.fail = some l') : l'.Sound h := by
  unfold ClientState.fail at hfail
  split at hfail
  · contradiction
  · next s below hsaved =>
    obtain rfl := Option.some.inj hfail
    have hsuffix : s :: below <:+ l.saved := by rw [hsaved]
    obtain ⟨hframes, hnested, hsettings, hguarded⟩ := hl.restore hsuffix
    exact ⟨hframes, hnested, hsettings, hguarded⟩

/-- A rollback leads back to a state that was sound. -/
theorem rollbackTo (hl : l.Sound h) {name : Str} {s : Savepoint} {below : List Savepoint}
    (hsaved : l.savedFrom name = s :: below) : (l.restore s below).Sound h :=
  hl.restore (hsaved ▸ List.dropWhile_suffix _)

/-- A statement adds allowed changes of rows it has claimed. -/
theorem extend (hl : l.Sound h) {ds : List Change} {cs : List Claim} {b : Backend}
    {call : Option (Spi Uuid)}
    (hfits : Fits (accountChanges.applyAll l.changes h.accounts) ds cs)
    (hguarded : Guarded { l with call, backend := b }) :
    Sound h { l with
      call, changes := l.changes ++ ds, backend := b, claims := l.claims ++ cs } where
  frames s hs := by
    rcases List.mem_cons.mp hs with rfl | hs
    · exact (hl.frames l.current List.mem_cons_self).append hfits
    · exact hl.frames s (List.mem_cons_of_mem _ hs)
  nested := by
    obtain ⟨hcurrent, hsaved⟩ := List.pairwise_cons.mp hl.nested
    refine List.pairwise_cons.mpr ⟨fun s hs => ?_, hsaved⟩
    exact List.Subset.trans (hcurrent s hs) (List.subset_append_left _ _)
  settings := hl.settings
  guarded := hguarded

/-- The next statement of a call. -/
theorem nextOfCall (hl : l.Sound h) {program : Spi Uuid} (hcall : l.call = some program)
    (hnext : l.nextOfCall env h program = some l') : l'.Sound h := by
  have hleaves := hl.leaves hcall
  cases program with
  | pure id =>
      obtain rfl := Option.some.inj hnext
      exact ⟨hl.frames, hl.nested, hl.settings, hleaves⟩
  | fail e => exact hl.fail hnext
  | stmt s k =>
      simp only [ClientState.nextOfCall] at hnext
      split at hnext
      · exact hl.fail hnext
      · next effect heval =>
        obtain rfl := Option.some.inj hnext
        have hfits := Stmt.eval_fits rfl hl.distinct_view heval
        refine hl.extend (hfits.more (List.subset_append_right _ _)) ?_
        show (k effect.result).Leaves GuardUp effect.backend.internalPosting
        rw [Stmt.eval_setting heval]
        exact hleaves effect.result

/-- The next command.  A direct statement finds the guard up. -/
theorem run (hl : l.Sound h) (hcall : l.call = none) {command : Command}
    (hrun : l.run crates env h command = some l') : l'.Sound h := by
  have hup := hl.guardUp hcall
  cases command with
  | savepoint name =>
      obtain rfl := Option.some.inj hrun
      obtain ⟨hframes, hnested, hsettings, hguarded⟩ := hl
      refine ⟨?_, ?_, ?_, hguarded⟩
      · intro s hs
        rcases List.mem_cons.mp hs with rfl | hs
        · exact hframes _ List.mem_cons_self
        · rcases List.mem_cons.mp hs with rfl | hs
          · exact hframes l.current List.mem_cons_self
          · exact hframes s (List.mem_cons_of_mem _ hs)
      · refine List.pairwise_cons.mpr ⟨fun s hs => ?_, ?_⟩
        · rcases List.mem_cons.mp hs with rfl | hs
          · exact List.Subset.refl _
          · exact (List.pairwise_cons.mp hnested).1 s hs
        · exact List.pairwise_cons.mpr (List.pairwise_cons.mp hnested)
      · intro s hs
        rcases List.mem_cons.mp hs with rfl | hs
        · exact hup
        · exact hsettings s hs
  | rollbackTo name =>
      simp only [ClientState.run] at hrun
      split at hrun
      · exact hl.fail hrun
      · next s below hsaved =>
        obtain rfl := Option.some.inj hrun
        exact hl.rollbackTo hsaved
  | release name =>
      simp only [ClientState.run] at hrun
      split at hrun
      · exact hl.fail hrun
      · next s below hsaved =>
        obtain rfl := Option.some.inj hrun
        have hsuffix : below <:+ l.saved := by
          refine (List.suffix_cons s below).trans ?_
          rw [← hsaved]
          exact List.dropWhile_suffix _
        have hkept : (l.current :: below).Sublist (l.current :: l.saved) :=
          hsuffix.sublist.cons_cons _
        exact ⟨fun s' hs' => hl.frames s' (hkept.subset hs'), hl.nested.sublist hkept,
          fun s' hs' => hl.settings s' (hsuffix.subset hs'), hl.guarded⟩
  | call made interruption =>
      obtain rfl := Option.some.inj hrun
      refine ⟨hl.frames, hl.nested, hl.settings, ?_⟩
      show (Command.program crates made interruption).Leaves GuardUp l.backend.internalPosting
      cases interruption with
      | none => exact made.leaves crates hup
      | some stop => exact (made.leaves crates hup).interrupt stop.2 stop.1
  | direct permitted statement =>
      simp only [ClientState.run] at hrun
      split at hrun
      · split at hrun
        · exact hl.fail hrun
        · next effect heval =>
          obtain rfl := Option.some.inj hrun
          obtain ⟨hfits, hsetting⟩ := Direct.eval_fits rfl hl.distinct_view hup heval
          refine hl.extend hfits ?_
          unfold Guarded
          rw [hcall]
          show GuardUp effect.backend.internalPosting
          rw [hsetting]
          exact hup
      · exact hl.fail hrun

/-- After an error a session stays where it is or rolls back. -/
theorem runFailed (hl : l.Sound h) {command : Command} (hrun : l.runFailed command = some l') :
    l'.Sound h := by
  cases command with
  | rollbackTo name =>
      simp only [ClientState.runFailed] at hrun
      split at hrun
      · obtain rfl := Option.some.inj hrun
        exact hl
      · next s below hsaved =>
        obtain rfl := Option.some.inj hrun
        obtain ⟨hframes, hnested, hsettings, hguarded⟩ := hl.rollbackTo hsaved
        exact ⟨hframes, hnested, hsettings, hguarded⟩
  | savepoint name | release name | call made interruption | direct permitted statement =>
      obtain rfl := Option.some.inj hrun
      exact hl

/-- **The step**: whatever a session does next, it stays sound. -/
theorem next (hl : l.Sound h) (hnext : l.next crates env h = some l') : l'.Sound h := by
  unfold ClientState.next at hnext
  split at hnext
  · next program hcall => exact hl.nextOfCall hcall hnext
  · obtain rfl := Option.some.inj hnext
    exact hl
  · next command script hcall hscript =>
    have hpopped : Sound h { l with script } :=
      ⟨hl.frames, hl.nested, hl.settings, hl.guarded⟩
    split at hnext
    · exact hpopped.runFailed hnext
    · exact hpopped.run hcall hnext

/-- **The frame**: the commit of another session does not matter. -/
theorem publish (hl : l.Sound h) (hm : m.Sound h) (hclaims : ∀ c ∈ l.claims, c ∉ m.claims) :
    l.Sound (h.applyAll m.changes) where
  frames s hs := by
    have hheld : s.claims ⊆ l.claims := by
      rcases List.mem_cons.mp hs with rfl | hs
      · exact List.Subset.refl _
      · exact (List.pairwise_cons.mp hl.nested).1 s hs
    exact (hl.frames s hs).publish (hm.frames m.current List.mem_cons_self) fun c hc =>
      hclaims c (hheld hc)
  nested := hl.nested
  settings := hl.settings
  guarded := hl.guarded

/-- What a session commits are allowed changes. -/
theorem finished (hl : l.Sound h) {changes : List Change} (hdone : l.finished = some changes) :
    l.changes = changes ∧ Allowed h.accounts changes := by
  unfold ClientState.finished at hdone
  split at hdone
  · obtain rfl := Option.some.inj hdone
    exact ⟨rfl, (hl.frames l.current List.mem_cons_self).toAllowed⟩
  · contradiction

end Sound

end ClientState

/-! ## runs -/

/-- The account in a slot, if there is one. -/
def Heap.accountAt (h : Heap) (k : Nat) : Option AccountRow := h.accounts[k]?.join

/-- By these changes the heap `h` has only been added to, as far as its
transactions and entries go; its accounts have kept their assets; and when an
account has another balance or version, the posting engine has updated it. -/
structure Heap.Extends (h : Heap) (changes : List Change) (h' : Heap) : Prop where
  result : h' = h.applyAll changes
  transactions : h.transactions <+: h'.transactions
  entries : h.entries <+: h'.entries
  assets : ∀ k a a', h.accountAt k = some a → h'.accountAt k = some a' → a'.asset = a.asset
  balances : ∀ k a a', h.accountAt k = some a → h'.accountAt k = some a' →
    (a'.balance = a.balance ∧ a'.version = a.version) ∨
    ∃ pre row post b, changes = pre ++ .posting (.updateAccount row) :: post ∧
      (h.applyAll pre).accountAt k = some b ∧ row.id = b.id
  steps : accountChanges.Respects Change.Allows changes h.accounts

theorem Heap.accountAt_eq_some {h : Heap} {k : Nat} {a : AccountRow} :
    h.accountAt k = some a ↔ h.accounts[k]? = some (some a) := Option.join_eq_some_iff

/-- What becomes of the account in a slot. -/
theorem Heap.accountAt_applyAll {h : Heap} {changes : List Change} {k : Nat} {a : AccountRow}
    (ha : h.accountAt k = some a) :
    (h.applyAll changes).accountAt k = accountChanges.after changes a := by
  have hslot : (h.applyAll changes).accounts[k]? = _ :=
    Changes.getElem?_applyAll (accountAt_eq_some.mp ha)
  rw [accountAt, hslot]
  rfl

/-- Allowed changes extend the history of every account. -/
theorem Allowed.extends {h : Heap} {changes : List Change} (hallowed : Allowed h.accounts changes) :
    h.Extends changes (h.applyAll changes) where
  result := rfl
  transactions := Changes.prefix_applyAll fun d hd => (hallowed.appends d hd).transactions
  entries := Changes.prefix_applyAll fun d hd => (hallowed.appends d hd).entries
  assets k a a' ha ha' := by
    have hmem := List.mem_of_getElem? (Heap.accountAt_eq_some.mp ha)
    rw [Heap.accountAt_applyAll ha] at ha'
    exact hallowed.respects.after_eq (f := (·.asset)) (fun _ _ _ hallows => hallows.1) hmem ha'
  balances k a a' ha ha' := by
    have hmem := List.mem_of_getElem? (Heap.accountAt_eq_some.mp ha)
    rw [Heap.accountAt_applyAll ha] at ha'
    rcases hallowed.respects.exists_change (f := fun a => (a.balance, a.version)) hmem ha' with
      hsame | ⟨pre, d, post, b, b', hsplit, hpre, -, ⟨-, hallows⟩, hne⟩
    · exact .inl (Prod.mk.inj hsame)
    · rcases hallows with ⟨hbalance, hversion⟩ | ⟨row, rfl, hid⟩
      · exact absurd (Prod.ext hbalance hversion) hne
      · exact .inr ⟨pre, row, post, b, hsplit, (Heap.accountAt_applyAll ha).trans hpre, hid⟩
  steps := hallowed.respects

section
variable {ι : Type} (crates : Crates) (clients : ι → Client)

/-- What the transactions have written, in the order of their commits. -/
def written (commits : List (ι × List Change)) : List Change := commits.flatMap (·.2)

theorem written_append (cs ds : List (ι × List Change)) :
    written (cs ++ ds) = written cs ++ written ds := List.flatMap_append

/-- **The invariant**: the store is made of the committed changes, all of them
allowed, and every session is sound. -/
theorem guardedSessions_sound : Serial.SharedInv (guardedSessions crates clients)
    (fun commits h => h = Heap.empty.applyAll (written commits) ∧ Allowed [] (written commits))
    (fun _ h l => l.Sound h) where
  start hS i := by
    obtain ⟨rfl, hallowed⟩ := hS
    exact ClientState.sound_start hallowed.distinct (clients i)
  startClaims _ := rfl
  next _ hl hnext := hl.next hnext
  publish _ hl hm _ hclaims := hl.publish hm hclaims
  commit {i} cs s {l} {changes} hS hl hdone := by
    obtain ⟨rfl, hallowed⟩ := hS
    obtain ⟨rfl, hchanges⟩ := hl.finished hdone
    have hlast : written [(i, l.changes)] = l.changes := List.append_nil _
    rw [written_append, hlast, Heap.applyAll_append]
    exact ⟨rfl, hallowed.append hchanges⟩

variable [Fintype ι] [DecidableEq ι]

/-- The transactions of the clients, from the empty ledger. -/
def runGuarded (schedule : List (ι × Serial.Action)) :
    Serial.World ι Heap ClientState (List Change) :=
  Serial.runSchedule (guardedSessions crates clients) Heap.empty schedule

/-- At every moment of a schedule. -/
theorem runGuarded_sound (schedule : List (ι × Serial.Action)) :
    ((runGuarded crates clients schedule).store =
        Heap.empty.applyAll (written (runGuarded crates clients schedule).commits) ∧
      Allowed [] (written (runGuarded crates clients schedule).commits)) ∧
    ∀ i l, (runGuarded crates clients schedule).sessions i = .running l →
      l.Sound (runGuarded crates clients schedule).store := by
  have hnone : Fits [] [] [] := .nil List.Pairwise.nil
  obtain ⟨hstore, hsessions⟩ := (guardedSessions_sound crates clients).runSchedule
    ⟨rfl, hnone.toAllowed⟩ schedule
  exact ⟨hstore, hsessions.valid⟩

/-- **History is append-only and guarded**: however transactions of public
functions and direct statements are mixed, what they commit extends the
ledger, and so does what a running transaction has done.  No transaction has
the guard down between two commands. -/
theorem historyGuarded (schedule more : List (ι × Serial.Action)) :
    (∃ changes,
      written (runGuarded crates clients (schedule ++ more)).commits =
        written (runGuarded crates clients schedule).commits ++ changes ∧
      (runGuarded crates clients schedule).store.Extends changes
        (runGuarded crates clients (schedule ++ more)).store) ∧
    ∀ i l, (runGuarded crates clients schedule).sessions i = .running l →
      (runGuarded crates clients schedule).store.Extends l.changes
        ((runGuarded crates clients schedule).store.applyAll l.changes) ∧
      (l.call = none → l.backend.internalPosting ≠ some "on".toList) := by
  obtain ⟨⟨hstore, -⟩, hsessions⟩ := runGuarded_sound crates clients schedule
  obtain ⟨⟨hstore', hallowed⟩, -⟩ := runGuarded_sound crates clients (schedule ++ more)
  obtain ⟨commits, hcommits⟩ := Serial.commits_runSchedule (guardedSessions crates clients)
    Heap.empty schedule more
  have hwritten : written (runGuarded crates clients (schedule ++ more)).commits =
      written (runGuarded crates clients schedule).commits ++ written commits := by
    rw [← written_append]
    exact congrArg written hcommits.symm
  refine ⟨⟨written commits, hwritten, ?_⟩, fun i l hl => ⟨?_, (hsessions i l hl).guardUp⟩⟩
  · rw [hwritten] at hstore' hallowed
    rw [hstore', Heap.applyAll_append, ← hstore]
    have hright := hallowed.right
    refine Allowed.extends ?_
    rw [hstore]
    exact hright
  · exact ((hsessions i l hl).frames l.current List.mem_cons_self).toAllowed.extends

end

end PgLedger
