import Gateon.Go.Time
import Gateon.Go.Unicode
import Mathlib.Data.List.Infix
import Gateon.Lib.Transition
import Mathlib.Data.List.Sort

namespace Gateon.Audit
open Go
open List hiding after

def unix (t : Int) : Int := t / second

structure AuditEntry where
  id : GoString
  userID : GoString
  action : GoString
  resource : GoString
  details : GoString
  timestamp : Int
  ipAddress : GoString
  signature : GoString
  previousHash : GoString
deriving DecidableEq

-- HMAC-SHA256 as a keyed function without collisions.
structure Mac where
  sum : GoString → GoString → List UInt8
  filled : ∀ key payload, sum key payload ≠ []
  collisionFree : ∀ key p q, sum key p = sum key q → p = q

def Mac.transparent : Mac where
  sum _ payload := 0 :: payload
  filled _ _ := cons_ne_nil _ _
  collisionFree _ _ _ same := (List.cons.inj same).2

def bar : UInt8 := byte '|'
def payload (e : AuditEntry) : GoString :=
  join [e.id,e.userID,e.action,e.resource,e.details,formatInt (unix e.timestamp),e.ipAddress,e.previousHash] [bar]
def signEntry (mac : Mac) (e : AuditEntry) (key : GoString) : GoString := hexEncode (mac.sum key (payload e))

structure ChainError where
  index : Int
  id : GoString
  reason : GoString
deriving DecidableEq

def noKey : GoString := lit "no signature key supplied; the chain cannot be verified"
def unsigned : GoString := lit "entry is unsigned"
def wrongPrevious : GoString :=
  lit "previous_hash does not match the preceding entry's signature; an entry was inserted, removed or reordered"
def wrongSignature : GoString :=
  lit "signature does not match the entry contents; the entry was modified or signed with a different key"

def verifyFrom (mac : Mac) (key : GoString) : Nat → GoString → List AuditEntry → Option ChainError
  | _,_,[] => none
  | i,prev,e :: rest =>
    if e.signature = [] then some ⟨i,e.id,unsigned⟩
    else if e.previousHash ≠ prev then some ⟨i,e.id,wrongPrevious⟩
    else if e.signature ≠ signEntry mac e key then some ⟨i,e.id,wrongSignature⟩
    else verifyFrom mac key (i+1) e.signature rest

def VerifyChain (mac : Mac) (entries : List AuditEntry) (key genesis : GoString) : Option ChainError :=
  if key = [] then some ⟨-1,[],noKey⟩ else verifyFrom mac key 0 genesis entries

def Linked : GoString → List AuditEntry → Prop
  | _,[] => True
  | prev,e :: rest => e.previousHash = prev ∧ Linked e.signature rest

def Signed (mac : Mac) (key : GoString) (e : AuditEntry) : Prop := e.signature = signEntry mac e key
def lastSignature (prev : GoString) (entries : List AuditEntry) : GoString :=
  (entries.getLast?.map AuditEntry.signature).getD prev

@[simp] theorem lastSignature_nil {prev} : lastSignature prev [] = prev := rfl
@[simp] theorem lastSignature_cons {prev} : lastSignature prev (e :: rest) = lastSignature e.signature rest := by
  cases rest with
  | nil => rfl
  | cons f rest =>
    unfold lastSignature
    rw [getLast?_cons_cons]
    simp [getLast?_cons]

theorem lastSignature_append (prev : GoString) (a b : List AuditEntry) :
    lastSignature prev (a ++ b) = lastSignature (lastSignature prev a) b := by
  induction a generalizing prev with
  | nil => rfl
  | cons e rest ih => simp [ih]

theorem linked_append {prev} : Linked prev (a ++ b) ↔ Linked prev a ∧ Linked (lastSignature prev a) b := by
  induction a generalizing prev with
  | nil => simp [Linked]
  | cons e rest ih => simp [Linked,ih,and_assoc]

theorem hexDigit_range : ∀ n < 16, hexDigit n ≠ bar := by decide

theorem hexEncode_plain (digest : List UInt8) : bar ∉ hexEncode digest := by
  intro member
  obtain ⟨b,_,inside⟩ := mem_flatMap.mp member
  rw [hexPad_two] at inside
  have range := b.toNat_lt
  rcases mem_cons.mp inside with first | second
  · exact hexDigit_range (b.toNat / 16) (by omega) first.symm
  · exact hexDigit_range (b.toNat % 16) (by omega) (mem_singleton.mp second).symm

section
variable (mac : Mac)
include mac

theorem signEntry_filled (e : AuditEntry) (key : GoString) : signEntry mac e key ≠ [] := by
  intro empty
  exact mac.filled key (payload e) (hexEncode_injective (empty.trans rfl))

theorem signEntry_plain (e : AuditEntry) (key : GoString) : bar ∉ signEntry mac e key := hexEncode_plain _
theorem signEntry_payload (same : signEntry mac e key = signEntry mac f key) : payload e = payload f :=
  mac.collisionFree key _ _ (hexEncode_injective same)

theorem verifyFrom_none (key : GoString) (i : Nat) (prev : GoString) (entries : List AuditEntry) :
    verifyFrom mac key i prev entries = none ↔ Linked prev entries ∧ ∀ e ∈ entries, Signed mac key e := by
  induction entries generalizing i prev with
  | nil => simp [verifyFrom,Linked]
  | cons e rest ih =>
    unfold verifyFrom Linked
    by_cases empty : e.signature = []
    · have unsignedEntry : ¬Signed mac key e := fun signed => signEntry_filled mac e key (signed.symm.trans empty)
      simp [empty,unsignedEntry]
    by_cases linked : e.previousHash = prev
    · by_cases signed : e.signature = signEntry mac e key
      · have here : Signed mac key e := signed
        rw [if_neg empty,if_neg (not_not.mpr linked),if_neg (not_not.mpr signed),ih]
        simp [linked,here]
      · have here : ¬Signed mac key e := signed; simp [empty,linked,signed,here]
    · simp [empty,linked]

theorem verifyChain_none (entries : List AuditEntry) (key genesis : GoString) :
    VerifyChain mac entries key genesis = none ↔
      key ≠ [] ∧ Linked genesis entries ∧ ∀ e ∈ entries, Signed mac key e := by
  unfold VerifyChain
  by_cases empty : key = []
  · simp [empty]
  · simp only [empty,↓reduceIte,verifyFrom_none,ne_eq,not_false_eq_true,true_and]

end

section
variable {prev : GoString}

def Chain (mac : Mac) (key prev : GoString) (entries : List AuditEntry) : Prop :=
  Linked prev entries ∧ ∀ e ∈ entries, Signed mac key e

theorem chain_append (mac : Mac) : Chain mac key prev (a ++ b) ↔ Chain mac key prev a ∧ Chain mac key (lastSignature prev a) b := by
  simp only [Chain,linked_append,forall_mem_append]
  tauto

theorem payload_front (e : AuditEntry) : ∃ front, payload e = front ++ bar :: e.previousHash := by
  refine ⟨join [e.id,e.userID,e.action,e.resource,e.details,formatInt (unix e.timestamp),e.ipAddress] [bar],?_⟩
  simp [payload,join,intercalate]

theorem payload_previous (same : payload e = payload f) (plainE : bar ∉ e.previousHash) (plainF : bar ∉ f.previousHash) :
    e.previousHash = f.previousHash := by
  obtain ⟨frontE,spelledE⟩ := payload_front e
  obtain ⟨frontF,spelledF⟩ := payload_front f
  rw [spelledE,spelledF] at same
  exact (after_inj plainE plainF same).1

theorem linked_predecessor (linked : Linked prev (x :: rest)) (member : y ∈ rest) : ∃ p ∈ x :: rest, y.previousHash = p.signature := by
  induction rest generalizing x prev with
  | nil => cases member
  | cons z rest ih =>
    obtain ⟨_,next,tail⟩ := linked
    rcases mem_cons.mp member with rfl | later
    · exact ⟨x,mem_cons_self,next⟩
    · obtain ⟨p,inside,named⟩ := ih ⟨next,tail⟩ later; exact ⟨p,mem_cons_of_mem x inside,named⟩

theorem linked_plain (linked : Linked prev entries) (plain : bar ∉ prev) (signed : ∀ e ∈ entries, Signed mac key e)
    (member : e ∈ entries) : bar ∉ e.previousHash := by
  induction entries generalizing prev with
  | nil => cases member
  | cons x rest ih =>
    rcases mem_cons.mp member with rfl | later
    · rw [linked.1]; exact plain
    have signedX : x.signature = signEntry mac x key := signed x mem_cons_self
    refine ih linked.2 ?_ (forall_mem_cons.mp signed).2 later
    rw [signedX]
    exact signEntry_plain mac x key

theorem chain_signature (chain : Chain mac key prev entries) (member : e ∈ entries) : e.signature = signEntry mac e key :=
  chain.2 e member

theorem chain_payload (chain : Chain mac key prev entries) (inX : x ∈ entries) (inY : y ∈ entries)
    (same : y.signature = x.signature) : payload y = payload x := by
  apply signEntry_payload mac
  rw [← chain_signature chain inX,← chain_signature chain inY,same]

theorem chain_previous (chain : Chain mac key [] entries) (inX : x ∈ entries) (inY : y ∈ entries)
    (same : y.signature = x.signature) : y.previousHash = x.previousHash := by
  have plain (e : AuditEntry) (inside : e ∈ entries) := linked_plain chain.1 not_mem_nil chain.2 inside
  exact payload_previous (chain_payload chain inX inY same) (plain y inY) (plain x inX)

section
variable (chain : Chain mac key [] (before ++ x :: after))
include chain

-- Two equal signatures would lead back to an entry that names "" inside the chain.
theorem chain_no_repeat (member : y ∈ after) : y.signature ≠ x.signature := by
  induction before using reverseRecOn generalizing x after y with
  | nil =>
    intro same
    have previous := chain_previous chain mem_cons_self (mem_cons_of_mem x member) same
    obtain ⟨p,inside,named⟩ := linked_predecessor chain.1 member
    apply signEntry_filled mac p key
    rw [← chain_signature chain inside,← named,previous]
    exact chain.1.1
  | append_singleton before w ih =>
    intro same
    have split : before ++ [w] ++ x :: after = before ++ w :: (x :: after) := by simp
    rw [split] at chain
    have previous := chain_previous chain (by simp) (by simp [member]) same
    have tail := (linked_append.mp chain.1).2
    obtain ⟨p,inside,named⟩ := linked_predecessor tail.2 member
    exact ih chain inside (by rw [← named,previous,tail.2.1])

theorem chain_place (split : before ++ x :: after = front ++ y :: back)
    (same : x.signature = y.signature) : before = front ∧ x = y ∧ after = back := by
  have chain' := chain
  rw [split] at chain'
  rcases append_eq_append_iff.mp split with ⟨c,fronts,tail⟩ | ⟨c,fronts,tail⟩
  · cases c with
    | nil => exact ⟨by simpa using fronts.symm,(cons.inj tail).1,(cons.inj tail).2⟩
    | cons z c =>
      rw [cons_append,cons.injEq] at tail
      exact absurd same.symm (chain_no_repeat chain (by simp [tail.2]))
  · cases c with
    | nil => exact ⟨by simpa using fronts,(cons.inj tail).1.symm,(cons.inj tail).2.symm⟩
    | cons z c =>
      rw [cons_append,cons.injEq] at tail
      exact absurd same (chain_no_repeat chain' (by simp [tail.2]))

theorem linked_from (linked : Linked x.signature rest) (known : ∀ e ∈ rest, e ∈ before ++ x :: after) : rest <+: after := by
  induction rest generalizing before x after with
  | nil => exact nil_prefix
  | cons f rest ih =>
    obtain ⟨front,back,split⟩ := append_of_mem (known f mem_cons_self)
    have whole := chain
    rw [split] at whole
    have tail := (linked_append.mp whole.1).2
    cases front using reverseRecOn with
    | nil =>
      exfalso
      apply signEntry_filled mac x key
      rw [← chain_signature chain (by simp),← linked.1]
      exact tail.1
    | append_singleton front p =>
      have named : p.signature = x.signature := by rw [← linked.1,tail.1]; simp [lastSignature]
      have split' : before ++ x :: after = front ++ p :: (f :: back) := by simpa using split
      obtain ⟨_,_,rfl⟩ := chain_place chain split' named.symm
      have shifted : before ++ x :: f :: back = (before ++ [x]) ++ f :: back := by simp
      rw [shifted] at chain known
      exact prefix_cons_inj f |>.mpr (ih chain linked.2 (forall_mem_cons.mp known).2)

end

theorem linked_infix (chain : Chain mac key [] entries) (linked : Linked prev part) (known : ∀ e ∈ part, e ∈ entries) :
    part <:+: entries := by
  cases part with
  | nil => exact nil_infix
  | cons e rest =>
    obtain ⟨before,after,split⟩ := append_of_mem (known e mem_cons_self)
    rw [split] at chain known ⊢
    have ahead := linked_from chain linked.2 (forall_mem_cons.mp known).2
    exact ((prefix_cons_inj e).mpr ahead).isInfix.trans (suffix_append before (e :: after)).isInfix

end

-- db.SafeText: what Postgres would refuse becomes U+FFFD.
def safeText (s : GoString) : GoString :=
  if validString s ∧ 0 ∉ s then s
  else (toValidUTF8 s).flatMap fun b => if b = 0 then encodeRune runeError else [b]

structure AuditConfig where
  enabled : Bool
  signEntries : Bool
  signatureKey : GoString
  retentionDays : Int
deriving DecidableEq

structure AuditManager where
  config : Option AuditConfig
  lastHash : GoString
  lastStamp : Int
  anchorID : GoString
  anchorAt : Int
  retentionChunk : Nat
deriving DecidableEq

-- One call's arguments, its uuid, and the clock when it is signed.
structure Draft where
  id : GoString
  userID : GoString
  action : GoString
  resource : GoString
  details : GoString
  ip : GoString
  now : Int
  uuid : id.length = 36

def nextStamp (lastStamp now : Int) : Int :=
  let t := now - now % microsecond
  if lastStamp < t then t else lastStamp + microsecond

def auditOff (m : AuditManager) : Bool :=
  match m.config with
  | some cfg => !cfg.enabled
  | none => false

def draftEntry (m : AuditManager) (d : Draft) : AuditEntry :=
  ⟨d.id,d.userID,safeText d.action,safeText d.resource,safeText d.details,nextStamp m.lastStamp d.now,
    safeText d.ip,[],m.lastHash⟩

section
variable (mac : Mac)

def entrySignature (m : AuditManager) (e : AuditEntry) : GoString :=
  match m.config with
  | some cfg => if cfg.signEntries ∧ cfg.signatureKey ≠ [] then signEntry mac e cfg.signatureKey else []
  | none => []

-- What log and signSystem do under the lock.
def signNext (m : AuditManager) (d : Draft) : AuditManager × AuditEntry :=
  let e := draftEntry m d
  let e := { e with signature := entrySignature mac m e }
  ({ m with lastHash := e.signature, lastStamp := e.timestamp },e)

def signEach : AuditManager → List Draft → AuditManager × List AuditEntry
  | m,[] => (m,[])
  | m,d :: ds =>
    let (m,e) := signNext mac m d
    let (m,es) := signEach m ds
    (m,e :: es)

def asUser (d : Draft) : Draft := { d with userID := safeText d.userID }
def asSystem (d : Draft) : Draft := { d with userID := lit "system" }

inductive Call where
  | log (d : Draft)
  | system (batch : List Draft)

def Call.drafts : Call → List Draft
  | .log d => [asUser d]
  | .system batch => batch.map asSystem

def signCall (m : AuditManager) (call : Call) : AuditManager × List AuditEntry :=
  if auditOff m then (m,[]) else signEach mac m call.drafts

def signCalls : AuditManager → List Call → List AuditEntry
  | _,[] => []
  | m,call :: rest => (signCall mac m call).2 ++ signCalls (signCall mac m call).1 rest

structure SigningOn (m : AuditManager) (key : GoString) : Prop where
  configured : ∃ cfg, m.config = some cfg ∧ cfg.enabled ∧ cfg.signEntries ∧ cfg.signatureKey = key
  filled : key ≠ []

theorem signing_not_off (on : SigningOn m key) : auditOff m = false := by
  obtain ⟨cfg,configured,enabled,_⟩ := on.configured
  simp [auditOff,configured,enabled]

theorem signNext_signed (d : Draft) (on : SigningOn m key) : Signed mac key (signNext mac m d).2 := by
  obtain ⟨cfg,configured,_,signing,rfl⟩ := on.configured
  unfold Signed signNext entrySignature
  simp only [configured,signing,on.filled,ne_eq,not_false_eq_true,and_self,↓reduceIte]
  rfl

end

structure Batch (mac : Mac) (key : GoString) (m after : AuditManager) (entries : List AuditEntry) : Prop where
  chain : Chain mac key m.lastHash entries
  hash : after.lastHash = lastSignature m.lastHash entries
  config : after.config = m.config
  anchorID : after.anchorID = m.anchorID
  anchorAt : after.anchorAt = m.anchorAt
  uuids : ∀ e ∈ entries, e.id.length = 36

theorem signEach_batch (mac : Mac) (ds : List Draft) (on : SigningOn m key) :
    Batch mac key m (signEach mac m ds).1 (signEach mac m ds).2 := by
  induction ds generalizing m with
  | nil => exact ⟨⟨trivial,by simp [signEach]⟩,rfl,rfl,rfl,rfl,by simp [signEach]⟩
  | cons d ds ih =>
    have signing : SigningOn (signNext mac m d).1 key := {on with}
    have rest := ih signing
    refine ⟨⟨⟨rfl,rest.chain.1⟩,?_⟩,?_,rest.config,rest.anchorID,rest.anchorAt,?_⟩
    · exact List.forall_mem_cons.mpr ⟨signNext_signed mac d on,rest.chain.2⟩
    · change _ = lastSignature m.lastHash ((signNext mac m d).2 :: (signEach mac (signNext mac m d).1 ds).2)
      rw [lastSignature_cons]
      exact rest.hash
    · exact List.forall_mem_cons.mpr ⟨d.uuid,rest.uuids⟩

-- The times that entries signed one after the other are given.
def stamps : Int → List Int → List Int
  | _,[] => []
  | last,now :: rest => nextStamp last now :: stamps (nextStamp last now) rest

theorem signEach_stamps (mac : Mac) (m : AuditManager) (ds : List Draft) :
    (signEach mac m ds).2.map AuditEntry.timestamp = stamps m.lastStamp (ds.map Draft.now) := by
  induction ds generalizing m with
  | nil => rfl
  | cons d ds ih => exact congrArg (nextStamp m.lastStamp d.now :: ·) (ih (signNext mac m d).1)

theorem batch_signing (batch : Batch mac key m after entries) (on : SigningOn m key) : SigningOn after key :=
  ⟨by rw [batch.config]; exact on.configured,on.filled⟩

theorem signCalls_chain (mac : Mac) (calls : List Call) (on : SigningOn m key) :
    Chain mac key m.lastHash (signCalls mac m calls) := by
  induction calls generalizing m with
  | nil => exact ⟨trivial,by simp [signCalls]⟩
  | cons call rest ih =>
    have batch : Batch mac key m (signCall mac m call).1 (signCall mac m call).2 := by
      simp only [signCall,signing_not_off on,Bool.false_eq_true,↓reduceIte]
      exact signEach_batch mac call.drafts on
    have tail := ih (batch_signing batch on)
    rw [batch.hash] at tail
    exact (chain_append mac).mpr ⟨batch.chain,tail⟩

-- The gateway's local time: AddDate over days, and what the timestamp column holds of a time. SQLite keeps
-- the local text and compares that, Postgres the instant.
structure Zone (K : Type) where
  addDays : Int → Int → Int
  column : Int ↪ K

section
variable {K : Type} [LinearOrder K] (zone : Zone K)

-- ORDER BY timestamp, id.
def ReadsBefore (a b : AuditEntry) : Prop :=
  zone.column a.timestamp < zone.column b.timestamp ∨ a.timestamp = b.timestamp ∧ (compareStrings a.id b.id).isLE

instance : DecidableRel (ReadsBefore zone) := fun _ _ => inferInstanceAs (Decidable (_ ∨ _ ∧ _))

def readBack (rows : List AuditEntry) : List AuditEntry := rows.insertionSort (ReadsBefore zone)

end

-- Entries signed together and inserted later; a batch keeps the hash before it.
structure Job where
  first : AuditEntry
  rest : List AuditEntry
  prevHash : GoString
  system : Bool
  start : first.previousHash = prevHash

def Job.entries (job : Job) : List AuditEntry := job.first :: job.rest
def Job.last (job : Job) : AuditEntry := job.entries.getLast (List.cons_ne_nil _ _)

-- `gone` is a record: what retention has deleted of the present chain.
structure State where
  manager : AuditManager
  logDays : Int
  rows : List AuditEntry
  unsettled : List (Job × Bool)
  gone : List AuditEntry

inductive Event where
  | log (d : Draft)
  | system (batch : List Draft)
  | store (i : Nat)
  | lose (i : Nat)
  | restart
  | setDays (auditDays logDays : Int)
  | retire (now : Int) (chunks : Nat)

def signJob (mac : Mac) (s : State) (system : Bool) (d : Draft) (ds : List Draft) : State :=
  let first := signNext mac s.manager d
  let rest := signEach mac first.1 ds
  { s with
    manager := rest.1
    unsettled := s.unsettled ++ [(⟨first.2,rest.2,s.manager.lastHash,system,rfl⟩,true)] }

def noteStored (m : AuditManager) (e : AuditEntry) : AuditManager :=
  if ¬e.timestamp < m.anchorAt then { m with anchorID := e.id, anchorAt := e.timestamp } else m

-- The id is the table's primary key: an insert that repeats one does not commit.
def Insertable (rows entries : List AuditEntry) : Prop := ((rows ++ entries).map AuditEntry.id).Nodup

instance (rows entries : List AuditEntry) : Decidable (Insertable rows entries) :=
  inferInstanceAs (Decidable ((rows ++ entries).map AuditEntry.id).Nodup)

def store (s : State) (i : Nat) : Option State :=
  match s.unsettled[i]? with
  | some (job,true) =>
    if Insertable s.rows job.entries then
      some { s with
        manager := noteStored s.manager job.last
        rows := s.rows ++ job.entries
        unsettled := s.unsettled.eraseIdx i }
    else none
  | _ => none

-- Only the system writer takes its hash back, while nothing was signed on top.
def lose (s : State) (i : Nat) : Option State :=
  match s.unsettled[i]? with
  | some (job,true) =>
    if job.system ∧ s.manager.lastHash = job.last.signature then
      some { s with
        manager := { s.manager with lastHash := job.prevHash }
        unsettled := s.unsettled.eraseIdx i }
    else some { s with unsettled := s.unsettled.set i (job,false) }
  | _ => none

section
variable {K : Type} [LinearOrder K] (zone : Zone K)

-- Of rows with one time loadLastHash may be given any.
def newest (rows : List AuditEntry) : Option AuditEntry := (readBack zone rows).getLast?

def loadLastHash (rows : List AuditEntry) (m : AuditManager) : AuditManager :=
  match newest zone rows with
  | some e => { m with lastHash := e.signature, anchorID := e.id, anchorAt := e.timestamp }
  | none => m

def restart (s : State) : State :=
  { s with
    manager := loadLastHash zone s.rows { s.manager with lastHash := [], lastStamp := zeroTime, anchorID := [], anchorAt := zeroTime }
    unsettled := []
    gone := if s.rows = [] then [] else s.gone }

def setRetentionDays (m : AuditManager) (days : Int) : AuditManager :=
  { m with config := m.config.map fun cfg => { cfg with retentionDays := days } }

def GetRetentionDays (m : AuditManager) : Int :=
  match m.config with
  | some cfg => cfg.retentionDays
  | none => 0

def effectiveRetentionDays (auditDays logDays : Int) : Int :=
  if auditDays ≤ 0 then max logDays 0 else if logDays ≤ 0 then auditDays else min auditDays logDays
def DefaultRetentionChunk : Nat := 5000
def maxRetentionChunks : Nat := 200
def chunkSize (m : AuditManager) : Nat := if 0 < m.retentionChunk then m.retentionChunk else DefaultRetentionChunk
def readExpired (rows : List AuditEntry) (cutoff : Int) (limit : Nat) : List AuditEntry :=
  ((readBack zone rows).filter fun e => zone.column e.timestamp < zone.column cutoff).take limit
def deleteEntries (rows logs : List AuditEntry) : List AuditEntry :=
  rows.filter fun e => e.id ∉ logs.map AuditEntry.id

-- A chunk that fails ends the run: `chunks` is how many get through.
def retireChunks (cutoff : Int) (size : Nat) : Nat → List AuditEntry → List AuditEntry × List AuditEntry
  | 0,rows => (rows,[])
  | chunks+1,rows =>
    let logs := readExpired zone rows cutoff size
    let left := deleteEntries rows logs
    if logs.length < size then (left,logs)
    else ((retireChunks cutoff size chunks left).1,logs ++ (retireChunks cutoff size chunks left).2)

def checkRetention (s : State) (now : Int) (chunks : Nat) : State :=
  let days := effectiveRetentionDays (GetRetentionDays s.manager) s.logDays
  if days ≤ 0 then s else
  let retired := retireChunks zone (zone.addDays now (-days)) (chunkSize s.manager) (min chunks maxRetentionChunks) s.rows
  { s with rows := retired.1, gone := s.gone ++ retired.2 }

def step (mac : Mac) (s : State) : Event → Option State
  | .log d => some (if auditOff s.manager then s else signJob mac s false (asUser d) [])
  | .system [] => some s
  | .system (d :: ds) => some (if auditOff s.manager then s else signJob mac s true (asSystem d) (ds.map asSystem))
  | .store i => store s i
  | .lose i => lose s i
  | .restart => some (restart zone s)
  | .setDays auditDays logDays => some { s with manager := setRetentionDays s.manager auditDays, logDays := logDays }
  | .retire now chunks => some (checkRetention zone s now chunks)

end

def started (config : AuditConfig) (chunk : Nat) (logDays : Int) : State :=
  ⟨⟨some config,[],zeroTime,[],zeroTime,chunk⟩,logDays,[],[],[]⟩
def State.inFlight (s : State) : List AuditEntry := s.unsettled.flatMap fun job => job.1.entries

-- A signature that is a tag under the key was given out by the manager.
def Unforged (mac : Mac) (key : GoString) (written entries : List AuditEntry) : Prop :=
  ∀ e ∈ entries, ∀ text, e.signature = hexEncode (mac.sum key text) → ∃ w ∈ written, w.signature = e.signature

-- It has the joined text and the signature of a written row and is not that row.
def Altered (written : List AuditEntry) (e : AuditEntry) : Prop := ∃ w ∈ written, e.signature = w.signature ∧ payload e = payload w ∧ e ≠ w

theorem verified_exact {prev} (genesis : GoString) (chain : Chain mac key prev written) (filled : key ≠ []) (unforged : Unforged mac key written entries) :
    VerifyChain mac entries key genesis = none ↔
      Linked genesis entries ∧ ∀ e ∈ entries, ∃ w ∈ written, e.signature = w.signature ∧ payload e = payload w := by
  rw [verifyChain_none]
  constructor
  · rintro ⟨_,linked,signed⟩
    refine ⟨linked,?_⟩
    intro e member
    have tag : e.signature = signEntry mac e key := signed e member
    obtain ⟨w,inside,same⟩ := unforged e member (payload e) tag
    have tags : signEntry mac e key = signEntry mac w key := by rw [← tag,← same,chain_signature chain inside]
    exact ⟨w,inside,same.symm,signEntry_payload mac tags⟩
  · rintro ⟨linked,copies⟩
    refine ⟨filled,linked,?_⟩
    intro e member
    obtain ⟨w,inside,same,text⟩ := copies e member
    unfold Signed
    rw [same,chain_signature chain inside,signEntry,signEntry,text]

-- No signature of a chain comes twice, so an altered row is none of its rows.
theorem altered_unwritten (chain : Chain mac key [] written) (altered : Altered written e) : e ∉ written := by
  obtain ⟨w,inside,same,_,other⟩ := altered
  intro member
  obtain ⟨before,after,whole⟩ := append_of_mem inside
  obtain ⟨front,back,again⟩ := append_of_mem member
  rw [whole] at chain again
  exact other (chain_place chain again same.symm).2.1.symm

-- The lists presented are made of the entries of `pool`, in any order and number.
theorem tamper_evident_exact (mac : Mac) (calls : List Call) (pool : List AuditEntry)
    (on : SigningOn m key) (fresh : m.lastHash = []) (unforged : Unforged mac key (signCalls mac m calls) pool) :
    (∀ entries genesis, entries ⊆ pool → VerifyChain mac entries key genesis = none → entries <:+: signCalls mac m calls) ↔
      ∀ e ∈ pool, ¬Altered (signCalls mac m calls) e := by
  have chain := signCalls_chain mac calls on
  rw [fresh] at chain
  have exact (entries : List AuditEntry) (genesis : GoString) (part : entries ⊆ pool) :=
    verified_exact genesis chain on.filled fun e member => unforged e (part member)
  constructor
  · intro evident e member altered
    have alone : [e] ⊆ pool := cons_subset.mpr ⟨member,nil_subset _⟩
    obtain ⟨w,inside,same,text,_⟩ := id altered
    have verifies := (exact [e] e.previousHash alone).mpr ⟨⟨rfl,trivial⟩,forall_mem_singleton.mpr ⟨w,inside,same,text⟩⟩
    exact altered_unwritten chain altered ((evident [e] _ alone verifies).subset mem_cons_self)
  · intro honest entries genesis part verifies
    obtain ⟨linked,copies⟩ := (exact entries genesis part).mp verifies
    refine linked_infix chain linked fun e member => ?_
    obtain ⟨w,inside,same,text⟩ := copies e member
    by_cases equal : e = w
    · exact equal ▸ inside
    · exact absurd ⟨w,inside,same,text,equal⟩ (honest e (part member))

-- A bar moved from the details into the resource, a timestamp moved within its second.
def auditKey : GoString := lit "k"
def signingManager : AuditManager := ⟨some ⟨true,true,auditKey,0⟩,[],zeroTime,[],zeroTime,0⟩
def firstDraft : Draft :=
  ⟨lit "00000000-0000-0000-0000-000000000001",lit "eve",lit "delete",lit "r",lit "x|y",lit "1.1.1.1",1500000000,by decide⟩
def firstLog : List AuditEntry := signCalls .transparent signingManager [.log firstDraft]
def firstRow : AuditEntry := (signNext .transparent signingManager (asUser firstDraft)).2
def movedBar : AuditEntry := { firstRow with resource := lit "r|x", details := lit "y" }
def movedTime : AuditEntry := { firstRow with timestamp := 1999999999 }

theorem first_written : firstLog = [firstRow] := rfl
theorem first_signing : SigningOn signingManager auditKey := ⟨⟨_,rfl,rfl,rfl,rfl⟩,by decide⟩

theorem first_unforged (same : e.signature = firstRow.signature) : Unforged .transparent auditKey firstLog [e] := by
  intro f member _ _
  rw [mem_singleton.mp member,first_written]
  exact ⟨firstRow,mem_singleton_self _,same.symm⟩

theorem edited_row_verifies : (VerifyChain .transparent [movedBar] auditKey [] = none ∧ ¬[movedBar] <:+: firstLog) ∧
    (VerifyChain .transparent [movedTime] auditKey [] = none ∧ ¬[movedTime] <:+: firstLog) ∧
    SigningOn signingManager auditKey ∧ signingManager.lastHash = [] ∧
    Unforged .transparent auditKey firstLog [movedBar] ∧ Unforged .transparent auditKey firstLog [movedTime] := by
  refine ⟨⟨by decide +kernel,?_⟩,⟨by decide +kernel,?_⟩,first_signing,rfl,first_unforged rfl,first_unforged rfl⟩
  · intro part; exact absurd (part.subset (mem_singleton_self _)) (by rw [first_written]; decide +kernel)
  · intro part; exact absurd (part.subset (mem_singleton_self _)) (by rw [first_written]; decide +kernel)

-- A call and a batch of two: the last two rows are presented from the first one's signature.
def secondDraft : Draft := ⟨lit "00000000-0000-0000-0000-000000000002",[],lit "save",lit "r|s",lit "|",[],1500000000,by decide⟩
def thirdDraft : Draft := ⟨lit "00000000-0000-0000-0000-000000000003",[],lit "save",[],[],[],900000000,by decide⟩
def threeRows : List AuditEntry := signCalls .transparent signingManager [.log firstDraft,.system [secondDraft,thirdDraft]]

theorem tamper_evident_untouched : threeRows.length = 3 ∧
    VerifyChain .transparent (threeRows.drop 1) auditKey firstRow.signature = none ∧ threeRows.drop 1 <:+: threeRows := by
  have accepted : VerifyChain .transparent (threeRows.drop 1) auditKey firstRow.signature = none := by decide +kernel
  refine ⟨rfl,accepted,(tamper_evident_exact .transparent _ threeRows first_signing rfl ?_).mpr ?_ _ _ (drop_subset 1 _) accepted⟩
  · exact fun e member _ _ => ⟨e,member,rfl⟩
  · unfold Altered
    decide +kernel

end Gateon.Audit
