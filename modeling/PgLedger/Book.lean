import Mathlib.Algebra.BigOperators.Group.Multiset.Basic
import PgLedger.Serial

/-!
# PgLedger.Book

Double-entry books, in general: what a ledger is for, without tables, versions
or cached balances.  A book knows its accounts and the records that were
posted; a balance is what the lines of all records come to.  `Step` says which
commands a book accepts, with which identifier as the answer, and what it is
afterwards.  A command that no step allows is rejected.

A client may give a request a key.  The record that is posted for it answers
for the key from then on: the same document is taken for a repetition, and
returns the record, and any other one is rejected.  So whatever has been
answered is answered in the same way ever after (`History.repeatable`).
-/

namespace PgLedger

namespace Book

variable {ι ν κ G δ : Type}

/-! ## lines -/

/-- An amount of a currency, put on an account. -/
structure Line (ι κ G : Type) where
  account : ι
  currency : κ
  amount : G

namespace Line

variable [AddCommGroup G]

def negate (line : Line ι κ G) : Line ι κ G := { line with amount := -line.amount }

@[simp] theorem account_negate (line : Line ι κ G) : line.negate.account = line.account := rfl

@[simp] theorem currency_negate (line : Line ι κ G) : line.negate.currency = line.currency := rfl

@[simp] theorem amount_negate (line : Line ι κ G) : line.negate.amount = -line.amount := rfl

end Line

section
variable [AddCommGroup G] [DecidableEq ι] [DecidableEq κ]

/-- What lines come to on an account. -/
def onAccount (lines : Multiset (Line ι κ G)) (account : ι) : G :=
  ((lines.filter (·.account = account)).map (·.amount)).sum

/-- What lines come to in a currency. -/
def inCurrency (lines : Multiset (Line ι κ G)) (currency : κ) : G :=
  ((lines.filter (·.currency = currency)).map (·.amount)).sum

omit [DecidableEq κ] in
/-- Reversed lines move an account back. -/
@[simp] theorem onAccount_negate (lines : Multiset (Line ι κ G)) (account : ι) :
    onAccount (lines.map Line.negate) account = -onAccount lines account := by
  rw [onAccount, Multiset.filter_map, Multiset.map_map, onAccount]
  exact Multiset.sum_map_neg

/-- The lines of a transaction. -/
structure Proper (lines : Multiset (Line ι κ G)) : Prop where
  twoLines : 2 ≤ lines.card
  nonzero : ∀ line ∈ lines, line.amount ≠ 0
  balanced : ∀ currency, inCurrency lines currency = 0

end

/-! ## books -/

/-- An account, and the balances it may have. -/
structure Account (ν κ G : Type) where
  name : ν
  currency : κ
  allows : G → Prop

/-- A transaction that was posted, and the documents that it answers. -/
structure Record (ι ν κ G δ : Type) where
  id : ι
  key : Option ν
  reverses : Option ι
  lines : Multiset (Line ι κ G)
  answers : δ → Prop

/-- What a client asks to be posted. -/
structure Request (ι ν κ G δ : Type) where
  key : Option ν
  lines : Multiset (Line ι κ G)
  document : δ

end Book

/-- A book: its accounts and its records, the oldest first. -/
structure Book (ι ν κ G δ : Type) where
  account : ι → Option (Book.Account ν κ G)
  records : List (Book.Record ι ν κ G δ)

namespace Book

variable {ι ν κ G δ : Type} [AddCommGroup G] [DecidableEq ι] [DecidableEq κ]

/-- The balance of an account is what all records come to. -/
def balance (book : Book ι ν κ G δ) (account : ι) : G :=
  (book.records.map fun record => onAccount record.lines account).sum

/-- The lines fit the accounts: the accounts are there, of the right
currencies, and they may have the balances that they get. -/
structure Admits (book : Book ι ν κ G δ) (lines : Multiset (Line ι κ G)) : Prop where
  accounts : ∀ line ∈ lines, ∃ account, book.account line.account = some account ∧
    account.currency = line.currency
  allowed : ∀ line ∈ lines, ∀ account, book.account line.account = some account →
    account.allows (book.balance line.account + onAccount lines line.account)

/-- The key is not in use. -/
def Unused (book : Book ι ν κ G δ) (key : Option ν) : Prop :=
  ∀ record ∈ book.records, ∀ k, key = some k → record.key ≠ some k

def Recorded (book : Book ι ν κ G δ) (id : ι) : Prop := ∃ record ∈ book.records, record.id = id

def record (book : Book ι ν κ G δ) (record : Record ι ν κ G δ) : Book ι ν κ G δ :=
  { book with records := book.records ++ [record] }

omit [DecidableEq κ] in
/-- A record moves every account by its lines. -/
@[simp] theorem balance_record (book : Book ι ν κ G δ) (record : Record ι ν κ G δ) (account : ι) :
    (book.record record).balance account =
      book.balance account + onAccount record.lines account := by
  rw [balance, Book.record, List.map_append, List.sum_append]
  simp [balance]

/-- The record of a request answers its document only. -/
def Request.record (request : Request ι ν κ G δ) (id : ι) : Record ι ν κ G δ :=
  ⟨id, request.key, none, request.lines, fun document => document = request.document⟩

/-- The reversal of a record moves everything back. -/
def Record.reversal (record : Record ι ν κ G δ) (key : Option ν) (id : ι) : Record ι ν κ G δ :=
  ⟨id, key, some record.id, record.lines.map Line.negate, fun _ => False⟩

inductive Command (ι ν κ G δ : Type) where
  | openAccount (account : Account ν κ G)
  | post (request : Request ι ν κ G δ)
  | reverse (original : ι) (key : Option ν)

/-- The commands that a book accepts. -/
inductive Step (book : Book ι ν κ G δ) : Command ι ν κ G δ → ι → Book ι ν κ G δ → Prop where
  | openAccount {account : Account ν κ G} {id : ι} (hid : book.account id = none)
      (hname : ∀ id' account', book.account id' = some account' → account'.name ≠ account.name) :
      Step book (.openAccount account) id
        { book with account := Function.update book.account id (some account) }
  | repeated {request : Request ι ν κ G δ} {record : Record ι ν κ G δ} {key : ν}
      (hproper : Proper request.lines) (hrecord : record ∈ book.records)
      (hkey : request.key = some key) (hheld : record.key = some key)
      (hanswers : record.answers request.document) : Step book (.post request) record.id book
  | post {request : Request ι ν κ G δ} {id : ι} (hproper : Proper request.lines)
      (hunused : book.Unused request.key) (hadmits : book.Admits request.lines)
      (hid : ¬ book.Recorded id) : Step book (.post request) id (book.record (request.record id))
  | reversed {original : ι} {key : Option ν} {record : Record ι ν κ G δ}
      (horiginal : book.Recorded original) (hrecord : record ∈ book.records)
      (hlink : record.reverses = some original) :
      Step book (.reverse original key) record.id book
  | reverse {key : Option ν} {record : Record ι ν κ G δ} {id : ι}
      (hrecord : record ∈ book.records)
      (hnone : ∀ other ∈ book.records, other.reverses ≠ some record.id)
      (hunused : book.Unused key) (hadmits : book.Admits (record.lines.map Line.negate))
      (hid : ¬ book.Recorded id) :
      Step book (.reverse record.id key) id (book.record (record.reversal key id))

/-! ## records are kept -/

section
variable {book book' : Book ι ν κ G δ} {command : Command ι ν κ G δ} {id : ι}

/-- Records are added and never changed. -/
theorem Step.records_prefix (h : Step book command id book') : book.records <+: book'.records := by
  cases h with
  | openAccount hid hname => exact List.prefix_rfl
  | repeated hproper hrecord hkey hheld hanswers => exact List.prefix_rfl
  | post hproper hunused hadmits hid => exact List.prefix_append _ _
  | reversed horiginal hrecord hlink => exact List.prefix_rfl
  | reverse hrecord hnone hunused hadmits hid => exact List.prefix_append _ _

/-- Keys and originals belong to one record each. -/
structure Lawful (book : Book ι ν κ G δ) : Prop where
  keys : ∀ r ∈ book.records, ∀ s ∈ book.records, ∀ key,
    r.key = some key → s.key = some key → r = s
  reversals : ∀ r ∈ book.records, ∀ s ∈ book.records, ∀ original,
    r.reverses = some original → s.reverses = some original → r = s

omit [DecidableEq κ] [DecidableEq ι] [AddCommGroup G] in
/-- A record with an unused key, and an original that no other one has. -/
theorem Lawful.record (h : book.Lawful) {record : Record ι ν κ G δ} (hkey : book.Unused record.key)
    (hlink : ∀ original, record.reverses = some original →
      ∀ other ∈ book.records, other.reverses ≠ some original) : (book.record record).Lawful := by
  have hmem (r : Record ι ν κ G δ) (hr : r ∈ (book.record record).records) :
      r ∈ book.records ∨ r = record := by
    simpa [Book.record] using hr
  constructor
  · intro r hr s hs key hrkey hskey
    rcases hmem r hr with hrold | rfl <;> rcases hmem s hs with hsold | rfl
    · exact h.keys r hrold s hsold key hrkey hskey
    · exact absurd hrkey (hkey r hrold key hskey)
    · exact absurd hskey (hkey s hsold key hrkey)
    · rfl
  · intro r hr s hs original hrlink hslink
    rcases hmem r hr with hrold | rfl <;> rcases hmem s hs with hsold | rfl
    · exact h.reversals r hrold s hsold original hrlink hslink
    · exact absurd hrlink (hlink original hslink r hrold)
    · exact absurd hslink (hlink original hrlink s hsold)
    · rfl

/-- A step keeps the book lawful. -/
theorem Step.lawful (h : Step book command id book') (hlawful : book.Lawful) : book'.Lawful := by
  cases h with
  | openAccount hid hname => exact ⟨hlawful.keys, hlawful.reversals⟩
  | repeated hproper hrecord hkey hheld hanswers => exact hlawful
  | post hproper hunused hadmits hid => exact hlawful.record hunused fun _ h => by contradiction
  | reversed horiginal hrecord hlink => exact hlawful
  | reverse hrecord hnone hunused hadmits hid =>
      refine hlawful.record hunused fun original horiginal => ?_
      obtain rfl := Option.some.inj horiginal
      exact hnone

end

/-! ## answers -/

/-- The commands that can be repeated: requests with a key, and reversals. -/
def Command.Repeatable : Command ι ν κ G δ → Prop
  | .openAccount _ => False
  | .post request => ∃ key, request.key = some key
  | .reverse _ _ => True

/-- The second command repeats the first one. -/
def Command.Repeats : Command ι ν κ G δ → Command ι ν κ G δ → Prop
  | .post r, .post s => r = s ∧ ∃ key, r.key = some key
  | .reverse original _, .reverse original' _ => original = original'
  | _, _ => False

/-- Two commands are about the same thing: the same key, or the same original. -/
def Command.Same : Command ι ν κ G δ → Command ι ν κ G δ → Prop
  | .post r, .post s => r.key = s.key
  | .reverse original _, .reverse original' _ => original = original'
  | _, _ => False

/-- The book holds the answer to a command: the record of its key, or of its
original. -/
inductive Answers (book : Book ι ν κ G δ) : Command ι ν κ G δ → ι → Prop where
  | post {request : Request ι ν κ G δ} {record : Record ι ν κ G δ} {key : ν}
      (hproper : Proper request.lines) (hrecord : record ∈ book.records)
      (hkey : request.key = some key) (hheld : record.key = some key)
      (hanswers : record.answers request.document) : Answers book (.post request) record.id
  | reverse {original : ι} {key : Option ν} {record : Record ι ν κ G δ}
      (horiginal : book.Recorded original) (hrecord : record ∈ book.records)
      (hlink : record.reverses = some original) : Answers book (.reverse original key) record.id

section
variable {book book' : Book ι ν κ G δ} {command command' : Command ι ν κ G δ} {id id' : ι}

omit [DecidableEq ι] in
/-- An answer stays one as records are added. -/
theorem Answers.mono (h : book.Answers command id) (hsub : book.records ⊆ book'.records) :
    book'.Answers command id := by
  cases h with
  | post hproper hrecord hkey hheld hanswers =>
      exact .post hproper (hsub hrecord) hkey hheld hanswers
  | reverse horiginal hrecord hlink =>
      obtain ⟨o, ho, hid⟩ := horiginal
      exact .reverse ⟨o, hsub ho, hid⟩ (hsub hrecord) hlink

/-- Once it was accepted, a command has its answer in the book. -/
theorem Step.answers (h : Step book command id book') (hrepeatable : command.Repeatable) :
    book'.Answers command id := by
  have hnew (record : Record ι ν κ G δ) : record ∈ (book.record record).records :=
    List.mem_append_right _ (List.mem_singleton_self record)
  cases h with
  | openAccount hid hname => exact hrepeatable.elim
  | repeated hproper hrecord hkey hheld hanswers =>
      exact .post hproper hrecord hkey hheld hanswers
  | @post request _ hproper hunused hadmits hid =>
      obtain ⟨key, hkey⟩ := hrepeatable
      have hanswer := Answers.post hproper (hnew (request.record id)) hkey hkey rfl
      exact hanswer
  | reversed horiginal hrecord hlink => exact .reverse horiginal hrecord hlink
  | @reverse key record _ hrecord hnone hunused hadmits hid =>
      have hrecorded : (book.record (record.reversal key id)).Recorded record.id :=
        ⟨record, List.mem_append_left _ hrecord, rfl⟩
      have hanswer : Answers (book.record (record.reversal key id)) (.reverse record.id key)
          (record.reversal key id).id := .reverse hrecorded (hnew _) rfl
      exact hanswer

/-- **Repetition**: a command that has its answer in the book is accepted,
with that answer only, and changes nothing. -/
theorem Answers.step_iff (h : book.Answers command id) (hlawful : book.Lawful) :
    Step book command id' book' ↔ id' = id ∧ book' = book := by
  constructor
  · intro hstep
    cases h with
    | post hproper hrecord hkey hheld hanswers =>
        cases hstep with
        | repeated hproper' hrecord' hkey' hheld' hanswers' =>
            rw [hkey] at hkey'
            obtain rfl := Option.some.inj hkey'
            rw [hlawful.keys _ hrecord' _ hrecord _ hheld' hheld]
            exact ⟨rfl, rfl⟩
        | post hproper' hunused hadmits hid =>
            exact absurd hheld (hunused _ hrecord _ hkey)
    | reverse horiginal hrecord hlink =>
        cases hstep with
        | reversed horiginal' hrecord' hlink' =>
            rw [hlawful.reversals _ hrecord' _ hrecord _ hlink' hlink]
            exact ⟨rfl, rfl⟩
        | reverse hrecord' hnone hunused hadmits hid => exact absurd hlink (hnone _ hrecord)
  · intro hsame
    obtain ⟨rfl, rfl⟩ := hsame
    cases h with
    | post hproper hrecord hkey hheld hanswers =>
        exact .repeated hproper hrecord hkey hheld hanswers
    | reverse horiginal hrecord hlink => exact .reversed horiginal hrecord hlink

omit [AddCommGroup G] [DecidableEq κ] [DecidableEq ι] in
/-- A command that is repeated can be. -/
theorem Command.Repeats.repeatable (h : command.Repeats command') : command.Repeatable := by
  cases command with
  | openAccount account => exact h.elim
  | post request =>
      cases command' with
      | post request' => exact h.2
      | openAccount account => exact h.elim
      | reverse original key => exact h.elim
  | reverse original key => trivial

omit [DecidableEq ι] in
/-- The answer to a command is the answer to its repetitions. -/
theorem Answers.repeats (h : book.Answers command id) (hrepeats : command.Repeats command') :
    book.Answers command' id := by
  cases h with
  | post hproper hrecord hkey hheld hanswers =>
      cases command' with
      | post request' =>
          obtain ⟨rfl, -⟩ := hrepeats
          exact .post hproper hrecord hkey hheld hanswers
      | openAccount account => exact hrepeats.elim
      | reverse original key => exact hrepeats.elim
  | reverse horiginal hrecord hlink =>
      cases command' with
      | reverse original' key' =>
          obtain rfl : _ = _ := hrepeats
          exact .reverse horiginal hrecord hlink
      | openAccount account => exact hrepeats.elim
      | post request' => exact hrepeats.elim

omit [DecidableEq ι] in
/-- In a lawful book the same command has one answer. -/
theorem Lawful.answer_unique (hlawful : book.Lawful) (hsame : command.Same command')
    (h : book.Answers command id) (h' : book.Answers command' id') : id = id' := by
  cases h with
  | post hproper hrecord hkey hheld hanswers =>
      cases h' with
      | post hproper' hrecord' hkey' hheld' hanswers' =>
          have hkeys := hkey.symm.trans (Eq.trans hsame hkey')
          obtain rfl := Option.some.inj hkeys
          rw [hlawful.keys _ hrecord _ hrecord' _ hheld hheld']
      | reverse horiginal' hrecord' hlink' => exact hsame.elim
  | reverse horiginal hrecord hlink =>
      cases h' with
      | post hproper' hrecord' hkey' hheld' hanswers' => exact hsame.elim
      | reverse horiginal' hrecord' hlink' =>
          obtain rfl : _ = _ := hsame
          rw [hlawful.reversals _ hrecord _ hrecord' _ hlink hlink']

end

/-! ## histories -/

/-- Commands that were accepted one after another, with their answers. -/
abbrev History (book : Book ι ν κ G δ) (history : List (Command ι ν κ G δ × ι))
    (book' : Book ι ν κ G δ) : Prop :=
  Serial.SerialRun (fun command book id book' => Step book command id book') book history book'

namespace History

variable {book book' : Book ι ν κ G δ} {history : List (Command ι ν κ G δ × ι)}
  {command command' : Command ι ν κ G δ} {id id' : ι}

/-- A history keeps the book lawful. -/
theorem lawful (h : History book history book') (hlawful : book.Lawful) : book'.Lawful := by
  induction h with
  | nil => exact hlawful
  | snoc _ hstep ih => exact hstep.lawful ih

/-- Whatever was accepted has its answer in the book from then on. -/
theorem answers (h : History book history book') (hmem : (command, id) ∈ history)
    (hrepeatable : command.Repeatable) : book'.Answers command id := by
  induction h with
  | nil => exact absurd hmem List.not_mem_nil
  | snoc _ hstep ih =>
      rcases List.mem_append.mp hmem with hold | hnew
      · exact (ih hold).mono hstep.records_prefix.subset
      · obtain ⟨rfl, rfl⟩ := Prod.mk.inj (List.mem_singleton.mp hnew)
        exact hstep.answers hrepeatable

/-- **Commands about the same thing** have the same answer. -/
theorem same_answer (h : History book history book') (hlawful : book.Lawful)
    (hmem : (command, id) ∈ history) (hmem' : (command', id') ∈ history)
    (hrepeatable : command.Repeatable) (hrepeatable' : command'.Repeatable)
    (hsame : command.Same command') : id = id' :=
  (h.lawful hlawful).answer_unique hsame (h.answers hmem hrepeatable)
    (h.answers hmem' hrepeatable')

/-- **Repetition**: at any later time a command has its old answer only, and
changes nothing. -/
theorem repeatable (h : History book history book') (hlawful : book.Lawful)
    (hmem : (command, id) ∈ history) (hrepeats : command.Repeats command')
    {book'' : Book ι ν κ G δ} : Step book' command' id' book'' ↔ id' = id ∧ book'' = book' :=
  ((h.answers hmem hrepeats.repeatable).repeats hrepeats).step_iff (h.lawful hlawful)

end History

end Book

end PgLedger
