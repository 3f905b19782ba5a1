import PgLedger.Book.Tables

/-!
# PgLedger.Book.Refines

The ledger refines the book.  A call asks for a command of the book
(`Call.command`), unless it is malformed.  If it succeeds, the book accepts
the command, answers with the same identifier and goes on as the book of the
new tables; and whatever the book accepts succeeds, as long as there are
identifiers and versions left for it (`Call.HasRoom`).
-/

namespace PgLedger

variable {crates : Crates} {env : Env} {t t' : Tables} {b b' : Backend}

/-! ## commands -/

section
variable (crates : Crates)

/-- What a posting call asks of the book. -/
def PostingCall.command : PostingCall → Option LedgerCommand
  | .post elements options =>
      match requirePostings elements with
      | .error _ => none
      | .ok postings => some (.post ⟨options.idempotencyKey, linesOf postings,
          payload crates (options.request postings)⟩)
  | .transfer fromAccount toAccount amount options =>
      if fromAccount = toAccount ∨ amount.units ≤ 0 then none
      else
        let postings := transferPostings fromAccount toAccount amount
        some (.post ⟨options.idempotencyKey, linesOf postings,
          payload crates (options.request postings)⟩)
  | .reverse original options => some (.reverse original (reversalKey crates original options))

/-- What a call asks of the book. -/
def Call.command : Call → Option LedgerCommand
  | .createAccount name asset balancePolicy _ =>
      if btrim name = name ∧ name ≠ [] then
        some (.openAccount ⟨name, asset, balancePolicy.Admits⟩)
      else none
  | .posting call => call.command crates

/-- There is room for what the call may write: the identifiers it draws are
new, and the versions of the accounts stay below `2 ^ 63`. -/
def Call.HasRoom (call : Call) (session : Session) (t : Tables) : Prop :=
  match call with
  | .createAccount _ _ _ _ => session.env.uuidv7 0 ∉ t.accountIds
  | .posting call => ∀ request, call.Sends crates t request →
      taken t.idempotencyKeys request.idempotencyKey = false →
      FreshIds session.env session.backend t request.postings.length ∧
        t.VersionsFit request.postings

/-- The calls of a ledger and the commands of its book agree. -/
structure Call.Refines (call : Call) (session : Session) (t : Tables) : Prop where
  accepted : ∀ id t', call.exec crates session t = .ok (id, t') →
    ∃ command, call.command crates = some command ∧
      Book.Step (t.book crates) command id (t'.book crates)
  accepts : call.HasRoom crates session t → ∀ command, call.command crates = some command →
    (∃ id book, Book.Step (t.book crates) command id book) →
    ∃ id t', call.exec crates session t = .ok (id, t')

end

/-- The request of a `ledger_post` or a `ledger_transfer`. -/
def bookRequest (crates : Crates) (request : PostRequest) :
    Book.Request Uuid Str LedgerAsset Int Json :=
  ⟨request.idempotencyKey, linesOf request.postings, payload crates request⟩

/-! ## requests without a link -/

/-- The record that a created transaction leaves. -/
theorem Created.record_request (hdigests : crates.Digests) {request : PostRequest}
    {hashes : PayloadHashes} {row : TransactionRow}
    (h : Created crates t t' request hashes row)
    (hhashes : payloadHashes crates request = .ok hashes) (hconstrained : t.Constrained)
    (hlink : request.reversesTransactionId = none) :
    t'.record crates row = (bookRequest crates request).record row.id := by
  obtain ⟨createdAt, hvalues⟩ := h.values
  have hstored : IsFingerprint crates request row.payloadHash := by
    rw [hvalues]
    exact ⟨hashes, hhashes, .inl rfl⟩
  have hanswers : answersOf crates row.payloadHash = (· = payload crates request) := by
    funext document
    refine propext ⟨?_, ?_⟩
    · intro hanswer
      obtain ⟨other, -, hother, rfl⟩ := hanswer
      exact (isFingerprint_iff hdigests hother).mp hstored
    · intro heq
      rw [heq]
      exact (answersOf_iff hdigests hlink).mpr hstored
  rw [Tables.record, hanswers, h.moves_new hconstrained, hvalues]
  exact congrArg (Book.Record.mk row.id request.idempotencyKey · _ _) hlink

/-- A call that returned a new identifier has added its record to the book. -/
theorem created_book {request : PostRequest} {id : Uuid} (hconstrained : t.Constrained)
    (h : (post crates request).run env t b = .ok (id, t', b')) (hnew : id ∉ t.transactionIds) :
    ∃ hashes row, id = row.id ∧ payloadHashes crates request = .ok hashes ∧
      Created crates t t' request hashes row ∧
      t'.book crates = (t.book crates).record (t'.record crates row) := by
  obtain ⟨_, -, heffect⟩ := post_run_effect hconstrained h hnew
  obtain ⟨hashes, row, hhashes, hid, hcreated | hreplayed⟩ := post_run_ok hconstrained h
  · exact ⟨hashes, row, hid, hhashes, hcreated, hcreated.book heffect.accounts⟩
  · obtain ⟨key, -, hholder⟩ := hreplayed.key
    obtain ⟨hrow, -⟩ := Tables.holder?_eq_some hholder
    rw [hid] at hnew
    exact absurd (List.mem_map_of_mem hrow) hnew

/-- A request that is posted is a step of the book. -/
theorem post_accepted (hdigests : crates.Digests) (hsound : t.Sound) {request : PostRequest}
    {id : Uuid} (hlink : request.reversesTransactionId = none)
    (h : (post crates request).run env t b = .ok (id, t', b')) :
    Book.Step (t.book crates) (.post (bookRequest crates request)) id (t'.book crates) := by
  cases htaken : taken t.idempotencyKeys request.idempotencyKey with
  | true =>
      obtain ⟨hvalidate, hashes, key, row, hhashes, hkey, hholder, haccepts, rfl, rfl, -⟩ :=
        (post_run_taken htaken).mp h
      obtain ⟨hrow, hheld⟩ := Tables.holder?_eq_some hholder
      have hrecord : t'.record crates row ∈ (t'.book crates).records := List.mem_map_of_mem hrow
      have hproper : Book.Proper (bookRequest crates request).lines :=
        proper_linesOf_iff.mpr hvalidate
      have hsame : (bookRequest crates request).key = some key := hkey
      have hanswers : (t'.record crates row).answers (bookRequest crates request).document :=
        (answersOf_iff hdigests hlink).mpr ⟨hashes, hhashes, haccepts⟩
      have hstep := Book.Step.repeated hproper hrecord hsame hheld hanswers
      exact hstep
  | false =>
      have hadmits := ((post_free_iff hsound.constrained hsound.journaled htaken).mp
        ⟨id, t', b', h⟩).2.1
      obtain ⟨hproper, hbook⟩ := (hsound.admits_book_iff crates).mpr hadmits
      obtain ⟨-, row, -, -, -, -, -, htakes, hid, -⟩ := post_run_loop hsound.constrained htaken h
      obtain ⟨hashes, created, rfl, hhashes, hcreated, heq⟩ :=
        created_book hsound.constrained h (hid ▸ htakes.id)
      rw [heq, hcreated.record_request hdigests hhashes hsound.constrained hlink]
      refine .post hproper (Tables.unused_book_iff.mpr (Tables.taken_eq_false.mp htaken)) hbook ?_
      rw [Tables.recorded_book_iff]
      exact hcreated.takes.id

/-- A request that the book accepts is posted. -/
theorem post_accepts (hdigests : crates.Digests) (hsound : t.Sound) {request : PostRequest}
    (hlink : request.reversesTransactionId = none)
    (hroom : taken t.idempotencyKeys request.idempotencyKey = false →
      FreshIds env b t request.postings.length ∧ t.VersionsFit request.postings)
    (h : ∃ id book, Book.Step (t.book crates) (.post (bookRequest crates request)) id book) :
    ∃ id t' b', (post crates request).run env t b = .ok (id, t', b') := by
  obtain ⟨hashes, hhashes⟩ := payloadHashes_ok hdigests request
  obtain ⟨id, book, hstep⟩ := h
  cases hstep with
  | @repeated _ record key hproper hrecord hkey hheld hanswers =>
      obtain ⟨row, hrow, rfl⟩ := List.mem_map.mp hrecord
      have hmem : key ∈ t.idempotencyKeys := List.mem_filterMap.mpr ⟨row, hrow, hheld⟩
      obtain ⟨holder, hholder⟩ : ∃ holder, t.holder? key = some holder :=
        Option.ne_none_iff_exists'.mp fun hnone => Tables.holder?_eq_none_iff.mp hnone hmem
      obtain ⟨hin, hsame⟩ := Tables.holder?_eq_some hholder
      obtain rfl := hsound.constrained.eq_of_key hrow hin hheld hsame
      obtain ⟨hashes', hhashes', haccepts⟩ := (answersOf_iff hdigests hlink).mp hanswers
      refine ⟨row.id, t, _, (post_run_taken (Tables.taken_eq_true.mpr ⟨key, hkey, hmem⟩)).mpr
        ⟨proper_linesOf_iff.mp hproper, hashes', key, row, hhashes', hkey, hholder, haccepts, rfl,
          rfl, rfl⟩⟩
  | post hproper hunused hadmits hid =>
      have hfree : taken t.idempotencyKeys request.idempotencyKey = false :=
        Tables.taken_eq_false.mpr (Tables.unused_book_iff.mp hunused)
      obtain ⟨hfresh, hfit⟩ := hroom hfree
      have hunclaimed : t.Unclaimed request := by
        refine ⟨Tables.taken_eq_false.mp hfree, fun original horiginal => ?_⟩
        rw [hlink] at horiginal
        contradiction
      exact (post_creates_iff hsound.constrained hsound.journaled hunclaimed ⟨hashes, hhashes⟩).mpr
        ⟨(hsound.admits_book_iff crates).mp ⟨hproper, hadmits⟩, hfresh, hfit⟩

/-! ## reversals -/

/-- The record that a reversal leaves answers no document. -/
theorem Created.record_reversal (huuid : crates.UuidText) (hdigests : crates.Digests)
    {original : TransactionRow} {options : PostOptions} {hashes : PayloadHashes}
    {row : TransactionRow}
    (h : Created crates t t'
      (reversalRequest crates original.id options (t.reversalPostings original.id)) hashes row)
    (hhashes : payloadHashes crates
      (reversalRequest crates original.id options (t.reversalPostings original.id)) = .ok hashes)
    (hconstrained : t.Constrained) :
    t'.record crates row =
      (t.record crates original).reversal (reversalKey crates original.id options) row.id := by
  obtain ⟨createdAt, hvalues⟩ := h.values
  have hanswers : answersOf crates row.payloadHash = fun _ => False := by
    funext document
    refine propext ⟨fun hanswer => ?_, False.elim⟩
    obtain ⟨other, hlink, hother, -⟩ := hanswer
    have hstored : IsFingerprint crates (reversalRequest crates original.id options
        (t.reversalPostings original.id)) row.payloadHash := by
      rw [hvalues]
      exact ⟨hashes, hhashes, .inl rfl⟩
    obtain ⟨hsame, -⟩ := (payload_eq_iff huuid).mp ((isFingerprint_iff hdigests hother).mp hstored)
    have hlinks := hsame.reversesTransactionId
    rw [hlink] at hlinks
    contradiction
  have hlines : linesOf (t'.moves row.id) =
      (linesOf (t.moves original.id)).map Book.Line.negate := by
    rw [h.moves_new hconstrained, ← linesOf_negate]
    exact linesOf_perm (t.reversalPostings_perm original.id)
  rw [Tables.record, hanswers, hlines, hvalues]
  rfl

/-- What the book asks of a reversal is what the engine checks of its postings. -/
theorem Tables.Sound.admits_reversal_book_iff (h : t.Sound) {id : Uuid}
    (hid : id ∈ t.transactionIds) :
    (t.book crates).Admits ((linesOf (t.moves id)).map Book.Line.negate) ↔
      t.Admits (t.reversalPostings id) := by
  have hproper := proper_linesOf_iff.mpr (h.validate_reversal hid)
  rw [← h.admits_book_iff crates, ← linesOf_negate,
    ← linesOf_perm (t.reversalPostings_perm id)]
  exact ⟨fun hadmits => ⟨hproper, hadmits⟩, And.right⟩

/-- A reversal that succeeds is one the book accepts. -/
theorem reverse_accepted (huuid : crates.UuidText) (hdigests : crates.Digests) (hsound : t.Sound)
    (hrecorded : t.Recorded crates) {original id : Uuid} {options : PostOptions}
    (h : (ledgerReverse crates original options).run env t b = .ok (id, t', b')) :
    Book.Step (t.book crates) (.reverse original (reversalKey crates original options)) id
      (t'.book crates) := by
  obtain ⟨hmem, ⟨row, hrow, rfl, rfl⟩ | ⟨hnone, hpost⟩⟩ := ledgerReverse_run_ok h
  · obtain ⟨hin, hlink⟩ := Tables.reversal?_eq_some hrow
    have hrecord : t'.record crates row ∈ (t'.book crates).records := List.mem_map_of_mem hin
    have hstep : Book.Step (t'.book crates)
        (.reverse original (reversalKey crates original options)) (t'.record crates row).id
        (t'.book crates) :=
      .reversed (Tables.recorded_book_iff.mpr hmem) hrecord hlink
    exact hstep
  · obtain ⟨hashes, row, rfl, hcreated⟩ :=
      reversalRequest_created huuid hdigests hsound hrecorded hnone hpost
    have hadmits := ((post_free_iff hsound.constrained hsound.journaled hcreated.free).mp
      ⟨row.id, t', b', hpost⟩).2.1
    obtain ⟨hashes, row, hid, hhashes, hcreated, heq⟩ :=
      created_book hsound.constrained hpost hcreated.takes.id
    obtain ⟨o, ho, rfl⟩ := List.mem_map.mp hmem
    rw [heq, hid, hcreated.record_reversal huuid hdigests hhashes hsound.constrained]
    have hrecord : t.record crates o ∈ (t.book crates).records := List.mem_map_of_mem ho
    have hunused : (t.book crates).Unused (reversalKey crates o.id options) :=
      Tables.unused_book_iff.mpr (Tables.taken_eq_false.mp hcreated.free)
    have hother (other) (hother : other ∈ (t.book crates).records) :
        other.reverses ≠ some o.id := by
      obtain ⟨r, hr, rfl⟩ := List.mem_map.mp hother
      exact Tables.reversal?_eq_none.mp hnone r hr
    have hnew : ¬ (t.book crates).Recorded row.id := by
      rw [Tables.recorded_book_iff]
      exact hcreated.takes.id
    exact Book.Step.reverse hrecord hother hunused
      ((hsound.admits_reversal_book_iff hmem).mpr hadmits) hnew

/-- A reversal that the book accepts succeeds, with room for it. -/
theorem reverse_accepts (hdigests : crates.Digests) (hsound : t.Sound) {original : Uuid}
    {options : PostOptions}
    (hroom : ∀ request, (PostingCall.reverse original options).Sends crates t request →
      taken t.idempotencyKeys request.idempotencyKey = false →
      FreshIds env b t request.postings.length ∧ t.VersionsFit request.postings)
    (h : ∃ id book, Book.Step (t.book crates)
      (.reverse original (reversalKey crates original options)) id book) :
    ∃ id t' b', (ledgerReverse crates original options).run env t b = .ok (id, t', b') := by
  obtain ⟨id, book, hstep⟩ := h
  generalize hcommand : Book.Command.reverse original (reversalKey crates original options) =
    command at hstep
  cases hstep with
  | openAccount hid hname => contradiction
  | repeated hproper hrecord hkey hheld hanswers => contradiction
  | post hproper hunused hadmits hid => contradiction
  | @reversed original' key record horiginal hrecord hlink =>
      obtain ⟨rfl, -⟩ := Book.Command.reverse.inj hcommand
      obtain ⟨row, hrow, rfl⟩ := List.mem_map.mp hrecord
      obtain ⟨found, hfound⟩ : ∃ found, t.reversal? original = some found :=
        Option.ne_none_iff_exists'.mp fun hnone => Tables.reversal?_eq_none.mp hnone row hrow hlink
      exact ⟨found.id, t, b,
        ledgerReverse_run_existing (Tables.recorded_book_iff.mp horiginal) hfound⟩
  | @reverse key record _ hrecord hnone hunused hadmits hid =>
      obtain ⟨rfl, rfl⟩ := Book.Command.reverse.inj hcommand
      obtain ⟨row, hrow, rfl⟩ := List.mem_map.mp hrecord
      have hmem : row.id ∈ t.transactionIds := List.mem_map_of_mem hrow
      have hunreversed : t.reversal? row.id = none :=
        Tables.reversal?_eq_none.mpr fun r hr => hnone _ (List.mem_map_of_mem hr)
      have hunclaimed : t.Unclaimed (reversalRequest crates row.id options
          (t.reversalPostings row.id)) :=
        unclaimed_reversal hmem hunreversed (Tables.unused_book_iff.mp hunused) _
      obtain ⟨hfresh, hfit⟩ := hroom _ (.reverse hmem hunreversed) hunclaimed.free
      show ∃ id t' b', (ledgerReverse crates row.id options).run env t b = _
      rw [ledgerReverse_run_none hmem hunreversed]
      exact (post_creates_iff hsound.constrained hsound.journaled hunclaimed
        (payloadHashes_ok hdigests _)).mpr
          ⟨(hsound.admits_reversal_book_iff hmem).mp hadmits, hfresh, hfit⟩

/-! ## accounts -/

/-- An account that is created is one the book accepts. -/
theorem createAccount_accepted {name : Str} {asset : LedgerAsset} {balancePolicy : BalancePolicy}
    {metadata : Option Json} {id : Uuid}
    (h : (ledgerCreateAccount name asset balancePolicy metadata).run env t b = .ok (id, t', b')) :
    btrim name = name ∧ name ≠ [] ∧ Book.Step (t.book crates)
      (.openAccount ⟨name, asset, balancePolicy.Admits⟩) id (t'.book crates) := by
  obtain ⟨ws, heval, rfl⟩ := Spi.run_send_eq_ok.mp h
  obtain ⟨row, hvalues, -, hid, hname, heffect⟩ := Stmt.evalInsertAccount_eq_ok heval
  obtain rfl : id = row.id := congrArg Effect.result heffect
  obtain rfl : ws = [.insertAccount row] := congrArg Effect.writes heffect
  have hsame : row.name = name := congrArg AccountValues.name hvalues
  obtain ⟨htrimmed, hnonempty⟩ := row.nameCheck
  rw [hsame] at htrimmed hnonempty
  refine ⟨htrimmed, hnonempty, ?_⟩
  have haccount : (⟨name, asset, balancePolicy.Admits⟩ : Book.Account Str LedgerAsset Int) =
      row.account := by
    rw [AccountRow.account, hvalues]
  show Book.Step _ _ _ ((t.apply (.insertAccount row)).book crates)
  rw [Tables.book_insertAccount hid, haccount]
  refine .openAccount ?_ fun id' account' haccount' => ?_
  · rw [Tables.book_account, Tables.account?_eq_none.mpr hid]
    rfl
  · obtain ⟨a, ha, rfl⟩ := Option.map_eq_some_iff.mp haccount'
    intro heq
    exact hname (List.mem_map.mpr ⟨a, Tables.mem_of_account? ha, heq⟩)

/-- An account that the book accepts is created, with room for it. -/
theorem createAccount_accepts (hconstrained : t.Constrained) {name : Str} {asset : LedgerAsset}
    {balancePolicy : BalancePolicy} {metadata : Option Json} (htrimmed : btrim name = name)
    (hnonempty : name ≠ []) (hroom : env.uuidv7 b.uuidsDrawn ∉ t.accountIds)
    (h : ∃ id book, Book.Step (t.book crates) (.openAccount ⟨name, asset, balancePolicy.Admits⟩) id
      book) : ∃ id t' b',
      (ledgerCreateAccount name asset balancePolicy metadata).run env t b = .ok (id, t', b') := by
  obtain ⟨id, book, hstep⟩ := h
  cases hstep with
  | openAccount hid hname =>
      have hunused : name ∉ t.accountNames := by
        intro hmem
        obtain ⟨a, ha, hsame⟩ := List.mem_map.mp hmem
        refine hname a.id a.account ?_ hsame
        rw [Tables.book_account, Tables.account?_of_mem hconstrained ha]
        rfl
      obtain ⟨effect, heval⟩ : ∃ effect, Stmt.evalInsertAccount env t b
          { name, asset, balance := .zero asset, balancePolicy, metadata } = .ok effect := by
        have hchecked : btrim name = name ∧ name ≠ [] := ⟨htrimmed, hnonempty⟩
        simp [Stmt.evalInsertAccount, AccountValues.check, LedgerAmount.zero, hchecked, ok_bind,
          hroom, taken, hunused]
      exact ⟨effect.result, t.applyAll effect.writes, effect.backend,
        Spi.run_send_eq_ok.mpr ⟨effect.writes, heval, rfl⟩⟩

/-! ## calls -/

/-- A call that succeeds is one the book accepts. -/
theorem PostingCall.accepted (huuid : crates.UuidText) (hdigests : crates.Digests)
    (hsound : t.Sound) (hrecorded : t.Recorded crates) {call : PostingCall} {id : Uuid}
    (h : (call.program crates).run env t b = .ok (id, t', b')) :
    ∃ command, call.command crates = some command ∧
      Book.Step (t.book crates) command id (t'.book crates) := by
  cases call with
  | post elements options =>
      rw [program, ledgerPost] at h
      obtain ⟨postings, t₁, b₁, hrequire, hpost⟩ := Spi.run_bind_eq_ok.mp h
      obtain ⟨hpostings, rfl, rfl⟩ := Spi.run_ofExcept_eq_ok.mp hrequire
      refine ⟨.post (bookRequest crates (options.request postings)), ?_,
        post_accepted hdigests hsound rfl hpost⟩
      rw [command, hpostings]
      rfl
  | transfer fromAccount toAccount amount options =>
      simp only [program, ledgerTransfer] at h
      split at h
      · contradiction
      · next hdistinct =>
        split at h
        · contradiction
        · next hpositive =>
          refine ⟨_, if_neg ?_, post_accepted hdigests hsound rfl h⟩
          exact not_or.mpr ⟨hdistinct, hpositive⟩
  | reverse original options =>
      exact ⟨_, rfl, reverse_accepted huuid hdigests hsound hrecorded h⟩

/-- A call that the book accepts succeeds, with room for it. -/
theorem PostingCall.accepts (hdigests : crates.Digests) (hsound : t.Sound) {call : PostingCall}
    {session : Session} (hroom : (Call.posting call).HasRoom crates session t)
    {command : LedgerCommand} (hcommand : call.command crates = some command)
    (h : ∃ id book, Book.Step (t.book crates) command id book) : ∃ id t' b',
      (call.program crates).run session.env t session.backend = .ok (id, t', b') := by
  cases call with
  | post elements options =>
      simp only [PostingCall.command] at hcommand
      split at hcommand
      · contradiction
      · next postings hpostings =>
        obtain rfl := Option.some.inj hcommand
        have hposted : ∃ id book, Book.Step (t.book crates)
            (.post (bookRequest crates (options.request postings))) id book := h
        obtain ⟨id, t', b', hrun⟩ :=
          post_accepts hdigests hsound rfl (hroom _ (.post hpostings)) hposted
        exact ⟨id, t', b', Spi.run_bind_eq_ok.mpr ⟨postings, t, _,
          Spi.run_ofExcept_eq_ok.mpr ⟨hpostings, rfl, rfl⟩, hrun⟩⟩
  | transfer fromAccount toAccount amount options =>
      simp only [PostingCall.command] at hcommand
      split at hcommand
      · contradiction
      · next hproper =>
        obtain ⟨hdistinct, hpositive⟩ := not_or.mp hproper
        obtain rfl := Option.some.inj hcommand
        simp only [program, ledgerTransfer, if_neg hdistinct, if_neg hpositive]
        have hposted : ∃ id book, Book.Step (t.book crates) (.post (bookRequest crates
            (options.request (transferPostings fromAccount toAccount amount)))) id book := h
        exact post_accepts hdigests hsound rfl (hroom _ .transfer) hposted
  | reverse original options =>
      obtain rfl := Option.some.inj hcommand
      exact reverse_accepts hdigests hsound hroom h

/-- **The refinement**, one call at a time. -/
theorem Tables.Sound.refines (huuid : crates.UuidText) (hdigests : crates.Digests)
    (hsound : t.Sound) (hrecorded : t.Recorded crates) (call : Call) (session : Session) :
    call.Refines crates session t := by
  cases call with
  | createAccount name asset balancePolicy metadata =>
      constructor
      · intro id t' hexec
        obtain ⟨b', hrun⟩ := Call.exec_eq_ok.mp hexec
        obtain ⟨htrimmed, hnonempty, hstep⟩ := createAccount_accepted hrun
        exact ⟨_, if_pos ⟨htrimmed, hnonempty⟩, hstep⟩
      · intro hroom command hcommand hstep
        simp only [Call.command] at hcommand
        split at hcommand
        · next hname =>
          obtain rfl := Option.some.inj hcommand
          obtain ⟨id, t', b', hrun⟩ :=
            createAccount_accepts (b := session.backend) hsound.constrained hname.1 hname.2 hroom
              hstep
          exact ⟨id, t', Call.exec_eq_ok.mpr ⟨b', hrun⟩⟩
        · contradiction
  | posting call =>
      constructor
      · intro id t' hexec
        obtain ⟨b', hrun⟩ := Call.exec_eq_ok.mp hexec
        exact call.accepted huuid hdigests hsound hrecorded hrun
      · intro hroom command hcommand hstep
        obtain ⟨id, t', b', hrun⟩ := call.accepts hdigests hsound hroom hcommand hstep
        exact ⟨id, t', Call.exec_eq_ok.mpr ⟨b', hrun⟩⟩

end PgLedger
