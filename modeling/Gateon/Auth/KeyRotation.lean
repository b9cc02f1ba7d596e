import Gateon.Auth.RecoveryCodes

namespace Gateon.Auth.KeyRotation
open Go Transition RecoveryCodes Option

structure Row where
  id : GoString
  username : GoString
  factor : Factor
deriving DecidableEq

structure Vault where
  key : Key
  rows : List Row
deriving DecidableEq

-- The image fails when the URL is longer than a QR code holds.
structure Images where
  url : GoString → GoString → GoString
  qrcode : GoString → Option GoString

def row (rows : List Row) (id : GoString) : Option Row := rows.find? (·.id == id)
section
variable (c : Cipher)

def plaintext (key : Key) (rows : List Row) (id : GoString) : Option GoString :=
  (row rows id).bind fun r => decryptSecret c (some key) r.factor.secret

structure Fate where
  nonce : GoString
  encrypts : Bool
  writes : Bool

structure Transaction where
  begins : Bool
  queries : Bool
  commits : Bool
  fate : GoString → Fate

structure Report where
  moved : Nat
  unreadable : Nat
deriving DecidableEq

def withSecret (r : Row) (secret : GoString) : Row := { r with factor := { r.factor with secret := secret } }

section
variable (source : Option Key) (target : Key)

-- QueryTwoFactorSecrets leaves out a row without a secret.
def moveRow (fate : Fate) (r : Row) (report : Report) : Option (Row × Report) :=
  if r.factor.secret = [] then some (r,report)
  else if encryptedUnder c target r.factor.secret then some (r,report)
  else
    match decryptSecret c source r.factor.secret with
    | none => some (r,{ report with unreadable := report.unreadable + 1 })
    | some plain =>
      if fate.encrypts && fate.writes then
        some (withSecret r (encryptSecret c target fate.nonce plain),{ report with moved := report.moved + 1 })
      else none

def moveRows (fate : GoString → Fate) : List Row → Report → Option (List Row × Report)
  | [],report => some ([],report)
  | r :: rest,report =>
    (moveRow c source target (fate r.id) r report).bind fun (moved,counted) =>
      (moveRows fate rest counted).map fun (others,total) => (moved :: others,total)

-- none is an error, after which the transaction is rolled back.
def moveSecondFactors (tx : Transaction) (rows : List Row) : Option (List Row × Report) :=
  if tx.begins && tx.queries && tx.commits then moveRows c source target tx.fate rows ⟨0,0⟩ else none

end

def updateSymmetricKey (v : Vault) (key : GoString) (tx : Transaction) : Vault × Bool :=
  match deriveSessionKeys key with
  | none => (v,false)
  | some next =>
    if v.key = next then (v,true)
    else
      match moveSecondFactors c (some v.key) next tx v.rows with
      | none => (v,false)
      | some (rows,_) => (⟨next,rows⟩,true)

def previousSessionKey (previousKey : GoString) : Option (Option Key) :=
  if previousKey = [] then some none else (deriveSessionKeys previousKey).map some

def reconcileSecondFactors (v : Vault) (previousKey : GoString) (tx : Transaction) : Vault × Option Report :=
  match previousSessionKey previousKey with
  | none => (v,none)
  | some previous =>
    match moveSecondFactors c previous v.key tx v.rows with
    | none => (v,none)
    | some (rows,report) => (⟨v.key,rows⟩,some report)

-- The drawn secret, nonce and codes' hashes, and how far the enrolment got.
structure Draw where
  secret : GoString
  nonce : GoString
  hashes : List GoString
  prepared : Bool
  encrypts : Bool
  writes : Bool

def store (id : GoString) (factor : Factor) (rows : List Row) : List Row :=
  rows.map fun r => if r.id == id then { r with factor := factor } else r

variable (images : Images)

def beginTOTPEnrolment (v : Vault) (id : GoString) (draw : Draw) :
    Vault × Option (GoString × GoString) :=
  match row v.rows id with
  | none => (v,none)
  | some user =>
    if draw.prepared && draw.encrypts && draw.writes then
      let factor := ⟨false,encryptSecret c v.key draw.nonce draw.secret,join draw.hashes [comma]⟩
      (⟨v.key,store id factor v.rows⟩,(images.qrcode (images.url user.username draw.secret)).map (draw.secret,·))
    else (v,none)

inductive Event where
  | updateSymmetricKey (key : GoString) (tx : Transaction)
  | reconcileSecondFactors (previousKey : GoString) (tx : Transaction)
  | enrol (id : GoString) (draw : Draw)

def perform (v : Vault) : Event → Vault × Bool
  | .updateSymmetricKey key tx => updateSymmetricKey c v key tx
  | .reconcileSecondFactors previousKey tx =>
    let answer := reconcileSecondFactors c v previousKey tx
    (answer.1,answer.2.isSome)
  | .enrol id draw =>
    let answer := beginTOTPEnrolment c images v id draw
    (answer.1,answer.2.isSome)

-- Each factor when last enrolled, and whether a failed call changed anything.
structure Ledger where
  vault : Vault
  known : GoString → Option GoString
  harmed : Bool

def Ledger.start (v : Vault) : Ledger := ⟨v,plaintext c v.key v.rows,false⟩

def enrolled : Event → Bool → GoString → Option GoString
  | .enrol id draw,true,other => if other = id then some draw.secret else none
  | _,_,_ => none

def step (l : Ledger) (event : Event) : Option Ledger :=
  let answer := perform c images l.vault event
  some
    { vault := answer.1
      known := fun id => (enrolled event answer.2 id).or ((l.known id).or (plaintext c answer.1.key answer.1.rows id))
      harmed := l.harmed || (!answer.2 && answer.1 != l.vault) }

end

-- Every factor stays readable to its secret; no reported error changed one.
structure Kept (c : Cipher) (l : Ledger) : Prop where
  readable : ∀ id secret, l.known id = some secret → plaintext c l.vault.key l.vault.rows id = some secret
  unharmed : l.harmed = false

def imageFits (images : Images) (l : Ledger) : Event → Prop
  | .enrol id draw => ∀ user ∈ row l.vault.rows id, (images.qrcode (images.url user.username draw.secret)).isSome
  | _ => True

instance (images : Images) (l : Ledger) (event : Event) : Decidable (imageFits images l event) := by
  unfold imageFits
  split <;> infer_instance

section Runs
variable {id : GoString} {key target : Key} {source : Option Key} {l next : Ledger} {c : Cipher} {draw : Draw}

theorem moveRow_reads (reader : key = target ∨ source = some key ∧ key ≠ target) (moved : moveRow c source target fate r report = some (r',total))
    (read : decryptSecret c (some key) r.factor.secret = some plain) : decryptSecret c (some target) r'.factor.secret = some plain := by
  unfold moveRow at moved
  split at moved
  · rename_i empty
    cases moved
    simpa [decryptSecret,empty] using read
  rename_i filled
  split at moved
  · rename_i under
    cases moved
    obtain ⟨marked,opens⟩ := Bool.and_eq_true_iff.mp under
    rcases reader with same | ⟨_,apart⟩
    · exact same ▸ read
    · -- Encrypted under the key moved target, the row did not read under the other.
      obtain ⟨other,opened⟩ := isSome_iff_exists.mp opens
      cases marked.symm.trans (decrypt_two_keys apart read opened)
  rename_i under
  have readSource : decryptSecret c source r.factor.secret = some plain := by
    rcases reader with same | ⟨from',_⟩
    · subst same
      have plainText : hasPrefix r.factor.secret encPrefix = false := by
        apply Bool.eq_false_iff.mpr
        intro marked
        simp [encryptedUnder,read,marked] at under
      rw [decrypt_plain plainText source (some key)]
      exact read
    · exact from' ▸ read
  rw [readSource] at moved
  dsimp only at moved
  split at moved
  · cases moved; exact encrypted_opens c target _ plain
  · cases moved

theorem moveRow_id (moved : moveRow c source target fate r report = some (r',total)) : r'.id = r.id := by
  unfold moveRow at moved
  split at moved
  · cases moved; rfl
  split at moved
  · cases moved; rfl
  · split at moved
    · cases moved; rfl
    · obtain ⟨_,⟨⟩⟩ := ite_none_right_eq_some.mp moved; rfl

section
variable (reader : key = target ∨ source = some key ∧ key ≠ target)
include reader

theorem moveRows_reads
    (moved : moveRows c source target fate rows report = some (rows',total)) (read : plaintext c key rows id = some plain) :
    plaintext c target rows' id = some plain := by
  induction rows generalizing rows' report total with
  | nil => cases read
  | cons r rest ih =>
    obtain ⟨⟨one,counted⟩,first,later⟩ := bind_eq_some_iff.mp moved
    obtain ⟨⟨others,sum⟩,following,result⟩ := map_eq_some_iff.mp later
    cases result
    by_cases here : r.id = id
    · have readRow : decryptSecret c (some key) r.factor.secret = some plain := by
        simpa [plaintext,row,here] using read
      simpa [plaintext,row,(moveRow_id first).trans here] using moveRow_reads reader first readRow
    · have readRest : plaintext c key rest id = some plain := by
        simpa [plaintext,row,here] using read
      have away : one.id ≠ id := moveRow_id first ▸ here
      simpa [plaintext,row,away] using ih following readRest

theorem moveSecondFactors_reads
    (moved : moveSecondFactors c source target tx rows = some (rows',total)) (read : plaintext c key rows id = some plain) :
    plaintext c target rows' id = some plain := by
  unfold moveSecondFactors at moved
  split at moved
  · exact moveRows_reads reader moved read
  · cases moved

end

structure Keeps (c : Cipher) (v : Vault) (event : Event) (answer : Vault × Bool) : Prop where
  error : answer.2 = false → answer.1 = v
  reads : ∀ id plain, plaintext c v.key v.rows id = some plain → enrolled event answer.2 id = none →
    plaintext c answer.1.key answer.1.rows id = some plain
  enrols : ∀ id plain, enrolled event answer.2 id = some plain → plaintext c answer.1.key answer.1.rows id = some plain

theorem keeps_unchanged (v : Vault) (ok : Bool) (none : ∀ id, enrolled event ok id = none) : Keeps c v event (v,ok) where
  error := fun _ => rfl
  reads := fun _ _ read _ => read
  enrols := fun id _ some => nomatch (none id).symm.trans some

theorem updateSymmetricKey_keeps (c : Cipher) (v : Vault) (key : GoString) (tx : Transaction) :
    Keeps c v (.updateSymmetricKey key tx) (updateSymmetricKey c v key tx) := by
  unfold updateSymmetricKey
  split
  · exact keeps_unchanged v _ fun _ => rfl
  split
  · exact keeps_unchanged v _ fun _ => rfl
  rename_i next _ apart
  split
  · exact keeps_unchanged v _ fun _ => rfl
  rename_i rows _ moved
  refine ⟨nofun,?_,nofun⟩
  intro id plain read _
  exact moveSecondFactors_reads (.inr ⟨rfl,apart⟩) moved read

theorem reconcileSecondFactors_keeps (c : Cipher) (v : Vault) (previousKey : GoString) (tx : Transaction) :
    Keeps c v (.reconcileSecondFactors previousKey tx)
      ((reconcileSecondFactors c v previousKey tx).1,(reconcileSecondFactors c v previousKey tx).2.isSome) := by
  unfold reconcileSecondFactors
  split
  · exact keeps_unchanged v _ fun _ => rfl
  split
  · exact keeps_unchanged v _ fun _ => rfl
  rename_i rows _ moved
  refine ⟨nofun,?_,nofun⟩
  intro id plain read _
  exact moveSecondFactors_reads (.inl rfl) moved read

theorem row_store (id other : GoString) (factor : Factor) (rows : List Row) :
    row (store id factor rows) other = (row rows other).map fun r => if r.id == id then { r with factor := factor } else r := by
  unfold row store
  rw [List.find?_map]
  congr 2
  funext r
  simp only [Function.comp_apply]
  split <;> rfl

theorem row_id (found : row rows id = some r) : r.id = id := by
  have hit := List.find?_some found
  exact eq_of_beq hit

theorem beginTOTPEnrolment_keeps (c : Cipher) (images : Images) (v : Vault) (id : GoString) (draw : Draw)
    (fits : ∀ user ∈ row v.rows id, (images.qrcode (images.url user.username draw.secret)).isSome = true) :
    Keeps c v (.enrol id draw) ((beginTOTPEnrolment c images v id draw).1,(beginTOTPEnrolment c images v id draw).2.isSome) := by
  unfold beginTOTPEnrolment
  cases found : row v.rows id with
  | none => exact keeps_unchanged v _ fun _ => rfl
  | some user =>
    dsimp only
    split
    · have made := fits user found
      refine ⟨?_,?_,?_⟩
      · intro failed
        rw [isSome_map,made] at failed
        cases failed
      · intro other plain read apart
        rw [isSome_map,made] at apart
        have away : other ≠ id := by intro same; simp [enrolled,same] at apart
        unfold plaintext at read ⊢
        rw [row_store]
        cases held : row v.rows other with
        | none => simp [held] at read
        | some r =>
          have elsewhere : r.id ≠ id := (row_id held).symm ▸ away
          simpa [held,elsewhere] using read
      · intro other plain replaced
        rw [isSome_map,made] at replaced
        simp only [enrolled,ite_none_right_eq_some,Option.some.injEq] at replaced
        obtain ⟨same,drawn⟩ := replaced
        subst same drawn
        unfold plaintext
        rw [row_store,found]
        simp [row_id found,encrypted_opens]
    · exact keeps_unchanged v _ fun _ => rfl

theorem perform_keeps (fits : imageFits images l event) : Keeps c l.vault event (perform c images l.vault event) := by
  cases event with
  | updateSymmetricKey key tx => exact updateSymmetricKey_keeps c l.vault key tx
  | reconcileSecondFactors previousKey tx => exact reconcileSecondFactors_keeps c l.vault previousKey tx
  | enrol id draw => exact beginTOTPEnrolment_keeps c images l.vault id draw fits

theorem start_kept (c : Cipher) (v : Vault) : Kept c (.start c v) := ⟨fun _ _ known => known,rfl⟩

theorem step_preserves (kept : Kept c l) (fits : imageFits images l event) (ran : step c images l event = some next) :
    Kept c next := by
  cases ran
  have keeps := perform_keeps (c := c) fits
  refine ⟨?_,?_⟩
  · intro id secret known
    rcases or_eq_some_iff.mp known with new | ⟨none,old⟩
    · exact keeps.enrols id secret new
    · rcases or_eq_some_iff.mp old with before | ⟨_,now⟩
      · exact keeps.reads id secret (kept.readable id secret before) none
      · exact now
  · dsimp only
    rw [kept.unharmed,Bool.false_or]
    cases ok : (perform c images l.vault event).2 with
    | true => rfl
    | false => simp [keeps.error ok]

theorem secondFactors_survive (path : Reached (step c images) (imageFits images) (.start c v) l) : Kept c l :=
  reached_invariant (Kept c) (start_kept c v) step_preserves path

end Runs

-- The provisioning URL of a name without escapes, and the bytes that the largest code of the medium level holds.
def sampleImages : Images where
  url username secret := lit "otpauth://totp/Gateon:" ++ username ++
    lit "?algorithm=SHA1&digits=6&issuer=Gateon&period=30&secret=" ++ secret
  qrcode url := if url.length ≤ 2331 then some url else none

def sampleKey (b : UInt8) : Key := ⟨List.replicate 32 b,by simp⟩
def sampleTransaction : Transaction := ⟨true,true,true,fun _ => ⟨[],true,true⟩⟩

def sampleVault : Vault where
  key := sampleKey 1
  rows :=
    [⟨lit "1",lit "ann",⟨true,encryptSecret .transparent (sampleKey 1) [] (lit "A"),[]⟩⟩,
      ⟨lit "2",lit "bob",⟨true,lit "B",[]⟩⟩,
      ⟨lit "3",List.replicate 3000 (byte 'm'),⟨true,encryptSecret .transparent (sampleKey 1) [] (lit "C"),[]⟩⟩]

def sampleDraw : Draw := ⟨lit "D",[],[],true,true,true⟩

theorem secondFactors_survive_sample : ∃ l,
    Reached (step .transparent sampleImages) (imageFits sampleImages) (.start .transparent sampleVault) l ∧
      l.vault.key = sampleKey 3 ∧ [lit "1",lit "2",lit "3"].map l.known = [some (lit "D"),some (lit "B"),some (lit "C")] ∧
      Kept .transparent l := by
  refine shown_reached (fun l => (l.vault.key,[lit "1",lit "2",lit "3"].map l.known)) (sampleKey 3,[some (lit "D"),some (lit "B"),some (lit "C")])
    [.updateSymmetricKey (sampleKey 2).val sampleTransaction,
      .updateSymmetricKey (sampleKey 3).val { sampleTransaction with commits := false },
      .enrol (lit "1") sampleDraw,
      .reconcileSecondFactors (sampleKey 1).val sampleTransaction,
      .updateSymmetricKey (sampleKey 3).val sampleTransaction] (by decide +kernel) fun l path shown => ?_
  exact ⟨congrArg Prod.fst shown,congrArg Prod.snd shown,secondFactors_survive path⟩

theorem enrolment_error_replaces_factor :
    (beginTOTPEnrolment .transparent sampleImages sampleVault (lit "3") sampleDraw).2 = none ∧
    plaintext .transparent sampleVault.key sampleVault.rows (lit "3") = some (lit "C") ∧
    (run (step .transparent sampleImages) (.start .transparent sampleVault) [.enrol (lit "3") sampleDraw]).map
      (fun l => (l.harmed,plaintext .transparent l.vault.key l.vault.rows (lit "3"),
        (row l.vault.rows (lit "3")).map (·.factor.enabled))) = some (true,some (lit "D"),some false) := by
  decide +kernel

end Gateon.Auth.KeyRotation
