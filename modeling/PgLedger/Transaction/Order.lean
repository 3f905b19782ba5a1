import PgLedger.Transaction.Accepts

/-!
# PgLedger.Transaction.Order

The order of the postings.  Requests that list the same postings in another
order have one fingerprint, in either format, and they are accepted or
rejected together: a key in use is resolved by the fingerprint, and with a
free key everything that acceptance asks for is a matter of counting and
adding up.  Accounts end with the same balance and version, because each is
moved by the sum and the number of its postings.
-/

namespace PgLedger

variable {crates : Crates} {env : Env} {t t' : Tables} {b b' : Backend}

/-! ## fingerprints -/

/-- The current hashes are equal exactly when the documents are. -/
theorem current_eq_iff (h : crates.Digests) {r s : PostRequest} {hashes hashes' : PayloadHashes}
    (hr : payloadHashes crates r = .ok hashes) (hs : payloadHashes crates s = .ok hashes') :
    hashes.current = hashes'.current ↔ payload crates r = payload crates s := by
  obtain ⟨current, hcurrent, hprinted, -⟩ := payloadHashes_eq_ok hr
  obtain ⟨current', hcurrent', hprinted', -⟩ := payloadHashes_eq_ok hs
  rw [hprinted, hprinted', List.append_cancel_left_eq]
  constructor
  · intro heq
    rw [← heq] at hcurrent'
    have hfields := Json.object.inj (digest_injective h (hcurrent.trans hcurrent'.symm))
    rw [payload, payload, (List.cons.inj hfields).2]
  · intro heq
    have hfields : legacyFields crates r = legacyFields crates s := Json.object.inj heq
    rw [versionedFields, hfields, ← versionedFields, hcurrent'] at hcurrent
    exact (Except.ok.inj hcurrent).symm

/-- And so are the legacy hashes. -/
theorem legacy_eq_iff (h : crates.Digests) {r s : PostRequest} {hashes hashes' : PayloadHashes}
    (hr : payloadHashes crates r = .ok hashes) (hs : payloadHashes crates s = .ok hashes') :
    hashes.legacy = hashes'.legacy ↔ payload crates r = payload crates s := by
  obtain ⟨-, -, -, hlegacy⟩ := payloadHashes_eq_ok hr
  obtain ⟨-, -, -, hlegacy'⟩ := payloadHashes_eq_ok hs
  constructor
  · intro heq
    rw [← heq] at hlegacy'
    exact digest_injective h (hlegacy.trans hlegacy'.symm)
  · intro heq
    rw [heq, hlegacy'] at hlegacy
    exact (Except.ok.inj hlegacy).symm

/-! ## what a posting asks for, and does -/

section
variable {ps qs : List LedgerPosting}

/-- What postings move does not depend on their order. -/
theorem movedUnits_perm (h : ps.Perm qs) (id : Uuid) : movedUnits ps id = movedUnits qs id :=
  ((h.filter _).map _).sum_eq

/-- How many postings an account has does not depend on their order. -/
theorem length_postingsOf_perm (h : ps.Perm qs) (id : Uuid) :
    (postingsOf ps id).length = (postingsOf qs id).length := (h.filter _).length_eq

/-- What the tables admit does not depend on the order of the postings. -/
theorem Tables.Admits.perm (h : t.Admits ps) (hperm : ps.Perm qs) : t.Admits qs where
  twoPostings := by
    rw [← hperm.length_eq]
    exact h.twoPostings
  nonzero p hp := h.nonzero p (hperm.mem_iff.mpr hp)
  balanced asset := by
    rw [← h.balanced asset]
    exact ((hperm.filter _).map _).sum_eq.symm
  accounts p hp := h.accounts p (hperm.mem_iff.mpr hp)
  policies a ha hnamed := by
    obtain ⟨p, hp, hid⟩ := hnamed
    rw [← movedUnits_perm hperm]
    exact h.policies a ha ⟨p, hperm.mem_iff.mpr hp, hid⟩

/-- Whether the versions fit does not depend on the order of the postings. -/
theorem Tables.VersionsFit.perm (h : t.VersionsFit ps) (hperm : ps.Perm qs) :
    t.VersionsFit qs := by
  intro a ha
  rw [← length_postingsOf_perm hperm]
  exact h a ha

/-- What `validate_postings` lets through it lets through in any order. -/
theorem validatePostings_perm (hperm : ps.Perm qs) (h : validatePostings ps = .ok ()) :
    validatePostings qs = .ok () := by
  obtain ⟨htwo, hnonzero, hbalanced⟩ := validatePostings_eq_ok h
  refine validatePostings_ok ?_ (fun p hp => hnonzero p (hperm.mem_iff.mpr hp)) fun asset => ?_
  · rw [← hperm.length_eq]
    exact htwo
  · rw [← hbalanced asset]
    exact ((hperm.filter _).map _).sum_eq.symm

/-- What an account stands at. -/
def AccountRow.standing (a : AccountRow) : Uuid × LedgerAmount × Int64 :=
  (a.id, a.balance, a.version)

/-- Accounts that were moved by the same postings stand at the same. -/
theorem AccountMoved.standing_eq {a a₁ a₂ : AccountRow} (hperm : ps.Perm qs)
    (h₁ : AccountMoved ps a a₁) (h₂ : AccountMoved qs a a₂) : a₁.standing = a₂.standing := by
  have hbalance : a₁.balance = a₂.balance := by
    rw [h₁.values, h₂.values, movedUnits_perm hperm]
  have hversion : a₁.version = a₂.version := by
    rw [← Int64.toInt_inj, h₁.version, h₂.version, length_postingsOf_perm hperm]
  rw [AccountRow.standing, AccountRow.standing, h₁.id, h₂.id, hbalance, hversion]

end

/-- Lists related to one list, element by element, by relations that agree
on an image. -/
theorem map_eq_of_forall₂ {α β γ : Type} {R S : α → β → Prop} {f : β → γ}
    (hf : ∀ a b c, R a b → S a c → f b = f c) {l : List α} {l₁ l₂ : List β}
    (h₁ : List.Forall₂ R l l₁) (h₂ : List.Forall₂ S l l₂) : l₁.map f = l₂.map f := by
  induction h₁ generalizing l₂ with
  | nil => rw [List.forall₂_nil_left_iff.mp h₂]
  | cons hab _ ih =>
      obtain ⟨c, l', hac, hrest, rfl⟩ := List.forall₂_cons_left_iff.mp h₂
      rw [List.map_cons, List.map_cons, hf _ _ _ hab hac, ih hrest]

/-! ## one key, or none in use -/

/-- The two requests have one key, or keys that are not in use. -/
def Tables.SameKeyUse (t : Tables) (r s : PostRequest) : Prop :=
  r.idempotencyKey = s.idempotencyKey ∨
    taken t.idempotencyKeys r.idempotencyKey = false ∧
      taken t.idempotencyKeys s.idempotencyKey = false

theorem Tables.SameKeyUse.symm {r s : PostRequest} (h : t.SameKeyUse r s) : t.SameKeyUse s r := by
  cases h with
  | inl hkey => exact .inl hkey.symm
  | inr hfree => exact .inr hfree.symm

/-- Requests that use keys alike find them taken alike. -/
theorem Tables.SameKeyUse.taken_eq {r s : PostRequest} (h : t.SameKeyUse r s) :
    taken t.idempotencyKeys r.idempotencyKey = taken t.idempotencyKeys s.idempotencyKey := by
  cases h with
  | inl hkey => rw [hkey]
  | inr hfree => rw [hfree.1, hfree.2]

theorem SameRequest.symm {r s : PostRequest} (h : SameRequest r s) : SameRequest s r := by
  obtain ⟨⟨hperm, hreference, heventAt, hlink⟩, hmetadata⟩ := h
  exact ⟨⟨hperm.symm, hreference.symm, heventAt.symm, hlink.symm⟩, hmetadata.symm⟩

/-- The row of the other request passes the keys and references, too. -/
theorem Tables.TakesRequest.other (hdigests : crates.Digests) {r s : PostRequest}
    (h : t.TakesRequest crates env b r) (hlink : r.reversesTransactionId = s.reversesTransactionId)
    (hfree : taken t.idempotencyKeys s.idempotencyKey = false) :
    t.TakesRequest crates env b s := by
  obtain ⟨_, -, row, hvalues, hdrawn, htakes⟩ := h
  obtain ⟨hashes, hhashes⟩ := payloadHashes_ok hdigests s
  have hsame : row.reversesTransactionId = s.reversesTransactionId := by
    rw [← hlink, hvalues]
    rfl
  refine ⟨hashes, hhashes,
    { s.values hashes (env.clock b.clockReads) with id := env.uuidv7 b.uuidsDrawn }, rfl, rfl, ?_⟩
  constructor
  · exact hfree
  · rw [← hdrawn]
    exact htakes.id
  · have htaken := htakes.link
    rw [hsame] at htaken
    exact htaken
  · intro original horiginal
    rw [← hdrawn]
    exact htakes.original original (hsame.trans horiginal)

/-- What is accepted in one order is accepted in every order. -/
theorem post_accepts_of_same (huuid : crates.UuidText) (hdigests : crates.Digests)
    (hconstrained : t.Constrained) (hjournaled : t.Journaled) {r s : PostRequest}
    (hsame : SameRequest r s) (hkeys : t.SameKeyUse r s)
    (h : ∃ id t' b', (post crates r).run env t b = .ok (id, t', b')) :
    ∃ id t' b', (post crates s).run env t b = .ok (id, t', b') := by
  obtain ⟨hother, hmetadata⟩ := hsame
  cases htaken : taken t.idempotencyKeys r.idempotencyKey with
  | true =>
      obtain ⟨id, t', b', hrun⟩ := h
      obtain ⟨hvalidate, hashes, key, row, hhashes, hkey, hrow, haccepts, -⟩ :=
        (post_run_taken htaken).mp hrun
      have hequal : r.idempotencyKey = s.idempotencyKey := by
        cases hkeys with
        | inl hequal => exact hequal
        | inr hfree =>
            rw [htaken] at hfree
            exact absurd hfree.1 (by decide)
      have hpayload : payload crates r = payload crates s :=
        (payload_eq_iff huuid).mpr ⟨hother, .inl hmetadata⟩
      obtain ⟨hashes', hhashes', haccepts'⟩ :=
        (isFingerprint_iff hdigests ⟨hashes, hhashes, haccepts⟩).mpr hpayload
      rw [hequal] at htaken hkey
      exact ⟨row.id, t, _, (post_run_taken htaken).mpr ⟨validatePostings_perm hother.postings
        hvalidate, hashes', key, row, hhashes', hkey, hrow, haccepts', rfl, rfl, rfl⟩⟩
  | false =>
      have hfree : taken t.idempotencyKeys s.idempotencyKey = false := by
        rw [← hkeys.taken_eq, htaken]
      rw [post_free_iff hconstrained hjournaled htaken] at h
      rw [post_free_iff hconstrained hjournaled hfree, ← hother.postings.length_eq]
      obtain ⟨htakes, hadmits, hfresh, hfit⟩ := h
      exact ⟨htakes.other hdigests hother.reversesTransactionId hfree,
        hadmits.perm hother.postings, hfresh, hfit.perm hother.postings⟩

/-- And every account ends at the same. -/
theorem post_standings_eq (hconstrained : t.Constrained) {r s : PostRequest}
    (hsame : SameRequest r s) (hkeys : t.SameKeyUse r s) {id₁ id₂ : Uuid} {t₁ t₂ : Tables}
    {b₁ b₂ : Backend} (hr : (post crates r).run env t b = .ok (id₁, t₁, b₁))
    (hs : (post crates s).run env t b = .ok (id₂, t₂, b₂)) :
    t₁.accounts.map (·.standing) = t₂.accounts.map (·.standing) := by
  cases htaken : taken t.idempotencyKeys r.idempotencyKey with
  | true =>
      obtain ⟨-, -, -, -, -, -, -, -, -, hr₁, -⟩ := (post_run_taken htaken).mp hr
      rw [hkeys.taken_eq] at htaken
      obtain ⟨-, -, -, -, -, -, -, -, -, hs₁, -⟩ := (post_run_taken htaken).mp hs
      rw [hr₁, hs₁]
  | false =>
      obtain ⟨_, _, _, _, -, -, -, -, -, -, -, heffect⟩ := post_run_loop hconstrained htaken hr
      rw [hkeys.taken_eq] at htaken
      obtain ⟨_, _, _, _, -, -, -, -, -, -, -, heffect'⟩ := post_run_loop hconstrained htaken hs
      have hmoved : List.Forall₂ (AccountMoved r.postings) t.accounts t₁.accounts :=
        heffect.accounts
      have hmoved' : List.Forall₂ (AccountMoved s.postings) t.accounts t₂.accounts :=
        heffect'.accounts
      exact map_eq_of_forall₂ (R := AccountMoved r.postings) (S := AccountMoved s.postings)
        (fun _ _ _ => AccountMoved.standing_eq hsame.1.postings) hmoved hmoved'

/-! ## the order does not matter -/

/-- From the tables, both requests are accepted or both are rejected, and when
they are accepted every account ends with the same balance and version. -/
structure SameOutcome (crates : Crates) (env : Env) (t : Tables) (b : Backend)
    (r s : PostRequest) : Prop where
  accepted : (∃ id t' b', (post crates r).run env t b = .ok (id, t', b')) ↔
    ∃ id t' b', (post crates s).run env t b = .ok (id, t', b')
  standings : ∀ id₁ id₂ t₁ t₂ b₁ b₂, (post crates r).run env t b = .ok (id₁, t₁, b₁) →
    (post crates s).run env t b = .ok (id₂, t₂, b₂) →
    t₁.accounts.map (·.standing) = t₂.accounts.map (·.standing)

/-- Both formats of the fingerprint are equal exactly when one list of
postings is a permutation of the other. -/
def OrderFingerprinted (crates : Crates) (r s : PostRequest) : Prop :=
  ∃ hashes hashes', payloadHashes crates r = .ok hashes ∧ payloadHashes crates s = .ok hashes' ∧
    (hashes.current = hashes'.current ↔ r.postings.Perm s.postings) ∧
    (hashes.legacy = hashes'.legacy ↔ r.postings.Perm s.postings)

/-- **Posting order**: for two requests that agree in everything else, the
fingerprints tell the postings apart up to their order, and the order has no
influence on acceptance or on any account. -/
theorem posting_order (huuid : crates.UuidText) (hdigests : crates.Digests) (r s : PostRequest)
    (hreference : r.reference = s.reference) (heventAt : r.eventAt = s.eventAt)
    (hmetadata : r.metadata = s.metadata)
    (hlink : r.reversesTransactionId = s.reversesTransactionId) :
    OrderFingerprinted crates r s ∧ (r.postings.Perm s.postings →
      ∀ (events : List Event) (env : Env) (b : Backend),
        (runLedger crates events).SameKeyUse r s →
        SameOutcome crates env (runLedger crates events) b r s) := by
  have hpayload : payload crates r = payload crates s ↔ r.postings.Perm s.postings := by
    rw [payload_eq_iff huuid]
    constructor
    · intro heq
      exact heq.1.postings
    · intro hperm
      exact ⟨⟨hperm, hreference, heventAt, hlink⟩, .inl hmetadata⟩
  constructor
  · obtain ⟨hashes, hhashes⟩ := payloadHashes_ok hdigests r
    obtain ⟨hashes', hhashes'⟩ := payloadHashes_ok hdigests s
    exact ⟨hashes, hashes', hhashes, hhashes',
      (current_eq_iff hdigests hhashes hhashes').trans hpayload,
      (legacy_eq_iff hdigests hhashes hhashes').trans hpayload⟩
  · intro hperm events env b hkeys
    have hsound := runLedger_sound crates events
    have hsame : SameRequest r s := ⟨⟨hperm, hreference, heventAt, hlink⟩, hmetadata⟩
    constructor
    · constructor
      · exact post_accepts_of_same huuid hdigests hsound.constrained hsound.journaled hsame hkeys
      · exact post_accepts_of_same huuid hdigests hsound.constrained hsound.journaled hsame.symm
          hkeys.symm
    · intro id₁ id₂ t₁ t₂ b₁ b₂ hr hs
      exact post_standings_eq hsound.constrained hsame hkeys hr hs

/-- The lines of `repeatedRequest` in another order. -/
def reorderedRequest : PostRequest :=
  { repeatedRequest with postings := repeatedRequest.postings.reverse }

theorem posting_order_repeated : OrderFingerprinted .concrete repeatedRequest reorderedRequest ∧
    (repeatedRequest.postings.Perm reorderedRequest.postings →
      ∀ (events : List Event) (env : Env) (b : Backend),
        (runLedger .concrete events).SameKeyUse repeatedRequest reorderedRequest →
        SameOutcome .concrete env (runLedger .concrete events) b repeatedRequest
          reorderedRequest) :=
  posting_order Crates.concrete_uuidText Crates.concrete_digests repeatedRequest reorderedRequest
    rfl rfl rfl rfl

/-- The same lines under the key of the fixture. -/
def keyedRequest : PostRequest :=
  { repeatedRequest with idempotencyKey := some "legacy-fixture:1".toList }

/-- The idempotency key takes part: where another transaction holds the key of
one request and the other one has none, only that one is accepted. -/
theorem keys_distinguish : ¬ ∀ (crates : Crates), crates.UuidText → crates.Digests →
    ∀ r s : PostRequest, r.reference = s.reference → r.eventAt = s.eventAt →
    r.metadata = s.metadata → r.reversesTransactionId = s.reversesTransactionId →
    r.postings.Perm s.postings → ∀ (events : List Event) (env : Env) (b : Backend),
      SameOutcome crates env (runLedger crates events) b r s := by
  intro h
  have hout := h .concrete Crates.concrete_uuidText Crates.concrete_digests repeatedRequest
    keyedRequest rfl rfl rfl rfl (.refl _) (fixtureRun.take 3) (fixtureSession 0x301).env
    (fixtureSession 0x301).backend
  obtain ⟨id, t', b', hrun⟩ := hout.accepted.mp ⟨_, _, _, rfl⟩
  have htaken : taken (runLedger .concrete (fixtureRun.take 3)).idempotencyKeys
      keyedRequest.idempotencyKey = true := by decide
  obtain ⟨-, hashes, key, row, hhashes, -, hrow, haccepts, -⟩ := (post_run_taken htaken).mp hrun
  -- the transaction with the key has a reference, the request has none
  have hmem : row ∈ (runLedger .concrete (fixtureRun.take 3)).transactions :=
    (Tables.holder?_eq_some hrow).1
  obtain ⟨eventAt, -, hstored⟩ := runLedger_recorded Crates.concrete_digests _ row hmem
  have hpayload := (isFingerprint_iff Crates.concrete_digests hstored).mp
    ⟨hashes, hhashes, haccepts⟩
  have hreference : row.reference = none :=
    ((payload_eq_iff Crates.concrete_uuidText).mp hpayload).1.reference
  have hall : ∀ row ∈ (runLedger .concrete (fixtureRun.take 3)).transactions,
      row.reference ≠ none := by decide
  exact hall row hmem hreference

end PgLedger
