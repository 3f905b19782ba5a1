import Mathlib.Data.List.Perm.Basic
import PgLedger.Posting.RoundTrip
import PgLedger.Transaction

/-!
# PgLedger.Idempotency.Injective

What a fingerprint determines.  The document of a request is followed field
by field: the postings come back as a multiset, because the text of an
account or an amount determines it and sorting forgets the order only; every
optional field comes back, because its JSON value is never `null`.

The metadata is the exception.  It is an arbitrary JSON value, so metadata
that is `null` is serialised like metadata that is absent, and this is the
only pair of different requests that falls together (`document_eq_iff`).
-/

namespace PgLedger

variable {crates : Crates}

/-! ## documents -/

/-- The postings agree as a multiset, and so does all that is fingerprinted
except for the metadata. -/
structure SameOtherwise (r s : PostRequest) : Prop where
  postings : r.postings.Perm s.postings
  reference : r.reference = s.reference
  eventAt : r.eventAt = s.eventAt
  reversesTransactionId : r.reversesTransactionId = s.reversesTransactionId

/-- The two requests ask for the same thing. -/
def SameRequest (r s : PostRequest) : Prop := SameOtherwise r s ∧ r.metadata = s.metadata

/-- One request has no metadata, the other one has the JSON value `null`. -/
def MetadataClash (r s : PostRequest) : Prop :=
  (r.metadata = none ∧ s.metadata = some .null) ∨ (r.metadata = some .null ∧ s.metadata = none)

/-- The fields that both fingerprint formats share, as one document. -/
def payload (crates : Crates) (request : PostRequest) : Json :=
  .object (legacyFields crates request)

/-- `NULL` is told apart from a value whose document is never `null`. -/
theorem orNull_injective {α : Type} {json : α → Json} (hjson : Function.Injective json)
    (hnull : ∀ a, json a ≠ .null) : Function.Injective (orNull json) := by
  intro a b h
  cases a with
  | none =>
      cases b with
      | none => rfl
      | some b => exact absurd h.symm (hnull b)
  | some a =>
      cases b with
      | none => exact absurd h (hnull a)
      | some b => rw [hjson h]

/-- An arbitrary JSON value comes back, unless it is `null`. -/
theorem orNull_id_eq_iff {a b : Option Json} : orNull id a = orNull id b ↔
    a = b ∨ (a = none ∧ b = some .null) ∨ (a = some .null ∧ b = none) := by
  cases a with
  | none =>
      cases b with
      | none => simp
      | some b => simp [orNull, eq_comm]
  | some a =>
      cases b with
      | none => simp [orNull]
      | some b => simp [orNull]

/-- A posting is determined by its fingerprint. -/
theorem fingerprint_injective (h : crates.UuidText) :
    Function.Injective (LedgerPosting.fingerprint crates) := by
  intro a b hab
  have haccount := h.toString_injective (congrArg PostingFingerprint.accountId hab)
  have hamount := LedgerAmount.canonical_injective (congrArg PostingFingerprint.amount hab)
  obtain ⟨account, amount⟩ := a
  obtain ⟨account', amount'⟩ := b
  obtain rfl : account = account' := haccount
  obtain rfl : amount = amount' := hamount
  rfl

theorem sortKey_injective : Function.Injective PostingFingerprint.sortKey := by
  intro p q h
  obtain ⟨account, amount⟩ := p
  obtain ⟨account', amount'⟩ := q
  obtain ⟨rfl, rfl⟩ := Prod.mk.inj (toLex_inj.mp h)
  rfl

/-- A fingerprint of a posting is determined by its document. -/
theorem json_injective : Function.Injective PostingFingerprint.json := by
  intro p q h
  obtain ⟨account, amount⟩ := p
  obtain ⟨account', amount'⟩ := q
  simp only [PostingFingerprint.json, Json.object.injEq, List.cons.injEq, Prod.mk.injEq,
    Json.string.injEq, true_and, and_true] at h
  obtain ⟨rfl, rfl⟩ := h
  rfl

/-- Sorted fingerprints are the postings up to their order. -/
theorem fingerprints_eq_iff (h : crates.UuidText) {r s : PostRequest} :
    r.fingerprints crates = s.fingerprints crates ↔ r.postings.Perm s.postings := by
  rw [← List.map_perm_map_iff (fingerprint_injective h)]
  constructor
  · intro heq
    have hr := List.perm_insertionSort (fun p q : PostingFingerprint => p.sortKey ≤ q.sortKey)
      (r.postings.map (·.fingerprint crates))
    have hs := List.perm_insertionSort (fun p q : PostingFingerprint => p.sortKey ≤ q.sortKey)
      (s.postings.map (·.fingerprint crates))
    rw [PostRequest.fingerprints, PostRequest.fingerprints] at heq
    rw [← heq] at hs
    exact hr.symm.trans hs
  · intro hperm
    have : Std.Antisymm fun p q : PostingFingerprint => p.sortKey ≤ q.sortKey :=
      ⟨fun p q hpq hqp => sortKey_injective (le_antisymm hpq hqp)⟩
    have : IsTrans PostingFingerprint fun p q => p.sortKey ≤ q.sortKey :=
      ⟨fun p q r hpq hqr => le_trans hpq hqr⟩
    have : Std.Total fun p q : PostingFingerprint => p.sortKey ≤ q.sortKey :=
      ⟨fun p q => le_total p.sortKey q.sortKey⟩
    have hr := List.perm_insertionSort (fun p q : PostingFingerprint => p.sortKey ≤ q.sortKey)
      (r.postings.map (·.fingerprint crates))
    have hs := List.perm_insertionSort (fun p q : PostingFingerprint => p.sortKey ≤ q.sortKey)
      (s.postings.map (·.fingerprint crates))
    have hsorted := hr.trans (hperm.trans hs.symm)
    exact hsorted.eq_of_pairwise' (List.pairwise_insertionSort _ _)
      (List.pairwise_insertionSort _ _)

/-- Two requests have one document exactly when they are the same, or differ
only in that one metadata is absent and the other is `null`. -/
theorem payload_eq_iff (h : crates.UuidText) {r s : PostRequest} :
    payload crates r = payload crates s ↔
      SameOtherwise r s ∧ (r.metadata = s.metadata ∨ MetadataClash r s) := by
  have hreference : Function.Injective (orNull Json.string) :=
    orNull_injective (fun _ _ => Json.string.inj) fun _ => Json.noConfusion
  have hevent : Function.Injective (orNull fun time : Timestamp => .number (.ofInt time)) :=
    orNull_injective (fun _ _ heq => JsonNumber.ofInt_injective (Json.number.inj heq))
      fun _ => Json.noConfusion
  have hlink : Function.Injective
      (orNull fun id : Uuid => .string (crates.pgUuidToString id)) :=
    orNull_injective (fun _ _ heq => h.pgToString_injective (Json.string.inj heq))
      fun _ => Json.noConfusion
  simp only [payload, legacyFields, Json.object.injEq, List.cons.injEq, Prod.mk.injEq,
    Json.array.injEq, true_and, and_true, (List.map_injective_iff.mpr json_injective).eq_iff,
    fingerprints_eq_iff h, hreference.eq_iff, hevent.eq_iff, hlink.eq_iff, orNull_id_eq_iff]
  constructor
  · intro heq
    exact ⟨⟨heq.1, heq.2.1, heq.2.2.1, heq.2.2.2.2⟩, heq.2.2.2.1⟩
  · intro heq
    exact ⟨heq.1.postings, heq.1.reference, heq.1.eventAt, heq.2, heq.1.reversesTransactionId⟩

/-! ## fingerprints -/

/-- A stored hash is the fingerprint of a request, in one of the two formats. -/
def IsFingerprint (crates : Crates) (request : PostRequest) (existing : Str) : Prop :=
  ∃ hashes, payloadHashes crates request = .ok hashes ∧ hashes.accepts existing

/-- A digest succeeds and is a hexadecimal text. -/
theorem digest_eq_ok (h : crates.Digests) (v : Json) : ∃ text, digest crates v = .ok text ∧
    ∀ c ∈ text, Crates.isHexDigit c = true := by
  obtain ⟨bytes, hbytes⟩ := h.toVec_ok v
  refine ⟨crates.hexEncode (crates.sha256 bytes), ?_, h.hexEncode_chars _⟩
  rw [digest, hbytes]
  rfl

/-- Without collisions, a digest determines its document. -/
theorem digest_injective (h : crates.Digests) {v w : Json}
    (hvw : digest crates v = digest crates w) : v = w := by
  obtain ⟨bytes, hbytes⟩ := h.toVec_ok v
  obtain ⟨bytes', hbytes'⟩ := h.toVec_ok w
  rw [digest, digest, hbytes, hbytes'] at hvw
  have hsame : bytes = bytes' := h.sha256_injective (h.hexEncode_injective (Except.ok.inj hvw))
  apply h.toVec_injective
  rw [hbytes, hbytes', hsame]

/-- The two hashes of a request are the two digests of its document. -/
theorem payloadHashes_eq_ok {request : PostRequest} {hashes : PayloadHashes}
    (h : payloadHashes crates request = .ok hashes) :
    ∃ current, digest crates (.object (versionedFields crates request)) = .ok current ∧
      hashes.current = "v1:".toList ++ current ∧
      digest crates (payload crates request) = .ok hashes.legacy := by
  have htry := mapError_eq_ok.mp h
  simp only [tryPayloadHashes] at htry
  obtain ⟨current, hcurrent, hrest⟩ := bind_eq_ok.mp htry
  obtain ⟨legacy, hlegacy, hdone⟩ := bind_eq_ok.mp hrest
  obtain rfl := Except.ok.inj hdone
  exact ⟨current, hcurrent, rfl, hlegacy⟩

/-- Hashing does not fail. -/
theorem payloadHashes_ok (h : crates.Digests) (request : PostRequest) :
    ∃ hashes, payloadHashes crates request = .ok hashes := by
  obtain ⟨current, hcurrent, -⟩ := digest_eq_ok h (.object (versionedFields crates request))
  obtain ⟨legacy, hlegacy, -⟩ := digest_eq_ok h (.object (legacyFields crates request))
  refine ⟨⟨'v' :: natText fingerprintVersion ++ ':' :: current, legacy⟩, ?_⟩
  rw [payloadHashes, tryPayloadHashes, hcurrent, hlegacy]
  rfl

/-- An unversioned hash is hexadecimal and so never starts with `v1:`. -/
theorem legacy_ne_current (h : crates.Digests) {v : Json} {legacy current : Str}
    (hlegacy : digest crates v = .ok legacy) : legacy ≠ "v1:".toList ++ current := by
  intro heq
  obtain ⟨text, htext, hhex⟩ := digest_eq_ok h v
  rw [hlegacy, Except.ok.injEq] at htext
  have hv : 'v' ∈ text := by
    rw [← htext, heq]
    exact List.mem_cons_self
  exact absurd (hhex 'v' hv) (by decide)

/-- Requests with a common fingerprint have one document, and requests with
one document have their fingerprints in common. -/
theorem isFingerprint_iff (h : crates.Digests) {r s : PostRequest} {existing : Str}
    (hr : IsFingerprint crates r existing) :
    IsFingerprint crates s existing ↔ payload crates r = payload crates s := by
  obtain ⟨hashes, hhashes, haccepts⟩ := hr
  constructor
  · intro hs
    obtain ⟨hashes', hhashes', haccepts'⟩ := hs
    obtain ⟨current, hcurrent, hprinted, hlegacy⟩ := payloadHashes_eq_ok hhashes
    obtain ⟨current', hcurrent', hprinted', hlegacy'⟩ := payloadHashes_eq_ok hhashes'
    rcases haccepts with hformat | hformat <;> rcases haccepts' with hformat' | hformat'
    · rw [hformat, hprinted, hprinted'] at hformat'
      have hsame : current = current' := List.append_cancel_left hformat'
      rw [← hsame] at hcurrent'
      have hfields := Json.object.inj (digest_injective h (hcurrent.trans hcurrent'.symm))
      rw [payload, payload, (List.cons.inj hfields).2]
    · simp only [hformat, hprinted] at hformat'
      exact absurd hformat'.symm (legacy_ne_current h hlegacy')
    · simp only [hformat, hprinted'] at hformat'
      exact absurd hformat' (legacy_ne_current h hlegacy)
    · rw [hformat] at hformat'
      rw [← hformat'] at hlegacy'
      exact digest_injective h (hlegacy.trans hlegacy'.symm)
  · intro heq
    have hfields : legacyFields crates r = legacyFields crates s := Json.object.inj heq
    have hsame : payloadHashes crates s = payloadHashes crates r := by
      rw [payloadHashes, payloadHashes, tryPayloadHashes, tryPayloadHashes, versionedFields,
        versionedFields, hfields]
    exact ⟨hashes, hsame.trans hhashes, haccepts⟩

/-! ## replays -/

/-- A transaction that carries a fingerprint of `r`, in either format, answers
the request `s`. -/
def TreatedAsReplay (crates : Crates) (r s : PostRequest) : Prop :=
  ∃ existing, IsFingerprint crates r existing ∧ IsFingerprint crates s existing

/-- A request is answered as a replay exactly when the documents agree. -/
theorem treatedAsReplay_iff (h : crates.Digests) {r s : PostRequest} :
    TreatedAsReplay crates r s ↔ payload crates r = payload crates s := by
  constructor
  · intro hreplay
    obtain ⟨existing, hr, hs⟩ := hreplay
    exact (isFingerprint_iff h hr).mp hs
  · intro heq
    obtain ⟨hashes, hhashes⟩ := payloadHashes_ok h r
    have hr : IsFingerprint crates r hashes.current := ⟨hashes, hhashes, .inl rfl⟩
    exact ⟨hashes.current, hr, (isFingerprint_iff h hr).mpr heq⟩

/-- A replay is only ever answered for the same request, except that absent
metadata and the metadata `null` are not told apart. -/
theorem replay_same_iff (huuid : crates.UuidText) (hdigests : crates.Digests) (r s : PostRequest) :
    (TreatedAsReplay crates r s → SameRequest r s) ↔ ¬ (SameOtherwise r s ∧ MetadataClash r s) := by
  rw [treatedAsReplay_iff hdigests, payload_eq_iff huuid, SameRequest]
  constructor
  · intro hsound hclash
    obtain ⟨hother, hmetadata⟩ := hclash
    obtain ⟨-, hequal⟩ := hsound ⟨hother, .inr hmetadata⟩
    rcases hmetadata with ⟨hr, hs⟩ | ⟨hr, hs⟩
    · simp only [hr, hs] at hequal
      contradiction
    · simp only [hr, hs] at hequal
      contradiction
  · intro hno htreated
    obtain ⟨hother, hequal | hclash⟩ := htreated
    · exact ⟨hother, hequal⟩
    · exact absurd ⟨hother, hclash⟩ hno

/-- A transfer of 25 yen that leaves the metadata out. -/
def plainRequest : PostRequest where
  postings := [⟨0x101#128, jpy, -25⟩, ⟨0x102#128, jpy, 25⟩]
  reference := none
  idempotencyKey := some "key".toList
  eventAt := none
  metadata := none
  reversesTransactionId := none

/-- The same transfer with the metadata `null`. -/
def nullRequest : PostRequest := { plainRequest with metadata := some .null }

theorem replay_same_plain :
    (TreatedAsReplay .concrete plainRequest nullRequest → SameRequest plainRequest nullRequest) ↔
      ¬ (SameOtherwise plainRequest nullRequest ∧ MetadataClash plainRequest nullRequest) :=
  replay_same_iff Crates.concrete_uuidText Crates.concrete_digests plainRequest nullRequest

/-- The same request with the metadata `null` is answered as its replay. -/
theorem nullMetadata_replayed :
    ¬ ∀ (crates : Crates), crates.UuidText → crates.Digests → ∀ r s : PostRequest,
      TreatedAsReplay crates r s → SameRequest r s := by
  intro h
  have hsame := h .concrete Crates.concrete_uuidText Crates.concrete_digests plainRequest
    { plainRequest with metadata := some .null }
  have htreated : TreatedAsReplay .concrete plainRequest
      { plainRequest with metadata := some .null } := by
    rw [treatedAsReplay_iff Crates.concrete_digests]
    rfl
  obtain ⟨-, hmetadata⟩ := hsame htreated
  contradiction

end PgLedger
