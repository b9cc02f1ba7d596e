import Gateon.Go.Trim
import Gateon.Lib.Transition
import Mathlib.Data.List.Nodup

namespace Gateon.Auth
open Go

abbrev Key := { k : GoString // k.length = 32 }

-- A text opens under the key it was sealed with, and under no second key.
structure Cipher where
  gcmSeal : Key → GoString → GoString → GoString
  gcmOpen : Key → GoString → Option GoString
  opens : ∀ key nonce plain, gcmOpen key (gcmSeal key nonce plain) = some plain
  only : ∀ key other text p q, gcmOpen key text = some p → gcmOpen other text = some q → key = other

def Cipher.transparent : Cipher where
  gcmSeal key _ plain := key.val ++ plain
  gcmOpen key text := if text.take 32 = key.val then some (text.drop 32) else none
  opens key _ plain := by simp [← key.property]
  only key other text p q left right := by
    split at left
    · split at right
      · rename_i one two; exact Subtype.ext (one.symm.trans two)
      · cases right
    · cases left

def encPrefix : GoString := lit "enc:"
def encryptSecret (c : Cipher) (key : Key) (nonce plaintext : GoString) : GoString :=
  if plaintext = [] then [] else encPrefix ++ c.gcmSeal key nonce plaintext

-- What has no prefix was stored before encryption was introduced.
def decryptSecret (c : Cipher) (key : Option Key) (stored : GoString) : Option GoString :=
  if stored = [] then some []
  else if hasPrefix stored encPrefix then key.bind fun k => c.gcmOpen k (stored.drop encPrefix.length)
  else some stored

def encryptedUnder (c : Cipher) (key : Key) (stored : GoString) : Bool :=
  hasPrefix stored encPrefix && (decryptSecret c (some key) stored).isSome
def deriveSessionKeys (secret : GoString) : Option Key :=
  if long : 32 ≤ secret.length then some ⟨secret.take 32,by simp [long]⟩ else none

theorem encPrefix_filled : encPrefix ≠ [] := by decide +kernel
theorem hasPrefix_append (p s : GoString) : hasPrefix (p ++ s) p = true := by
  simp [hasPrefix]

theorem encrypted_opens (c : Cipher) (key : Key) (nonce plain : GoString) :
    decryptSecret c (some key) (encryptSecret c key nonce plain) = some plain := by
  unfold encryptSecret
  split
  · rename_i empty; simp [empty,decryptSecret]
  · unfold decryptSecret
    rw [if_neg (by simp [encPrefix_filled]),hasPrefix_append]
    simp [c.opens]

theorem decrypt_two_keys (apart : key ≠ other) (left : decryptSecret c (some key) stored = some p)
    (right : decryptSecret c (some other) stored = some q) : hasPrefix stored encPrefix = false := by
  cases marked : hasPrefix stored encPrefix with
  | false => rfl
  | true =>
    have filled : stored ≠ [] := by intro empty; simp [empty,hasPrefix,encPrefix_filled] at marked
    simp only [decryptSecret,filled,marked,↓reduceIte,Option.bind_some] at left right
    exact absurd (c.only key other _ p q left right) apart

theorem decrypt_plain (plain : hasPrefix stored encPrefix = false) (key other : Option Key) :
    decryptSecret c key stored = decryptSecret c other stored := by
  simp [decryptSecret,plain]

namespace RecoveryCodes
open Transition
open List hiding getElem?_eq_some_iff

structure Factor where
  enabled : Bool
  secret : GoString
  recoveryCodes : GoString
deriving DecidableEq

def Factor.cleared : Factor := ⟨false,[],[]⟩

structure Checks where
  cipher : Cipher
  key : Key
  tables : Tables
  validTOTP : GoString → GoString → Int → Bool
  compareHash : GoString → GoString → Bool

def comma : UInt8 := byte ','
def normalizeRecoveryCode (T : Tables) (code : GoString) : GoString :=
  toUpper T ((trimSpace code).filter fun b => b != byte ' ' && b != byte '-')

section
variable (env : Checks)

def matchRecoveryCode (hashes : List GoString) (code : GoString) : Option Nat :=
  let normalized := normalizeRecoveryCode env.tables code
  if normalized = [] then none
  else hashes.findIdx? fun h => h != [] && env.compareHash h normalized

def removeAt (s : List GoString) (i : Nat) : List GoString := s.take i ++ s.drop (i+1)

structure Use where
  code : GoString
  hash : GoString
deriving DecidableEq

structure Outcome where
  write : Option Factor
  spent : Option Use
deriving DecidableEq

def Outcome.nothing : Outcome := ⟨none,none⟩

def spendRecoveryCode (user : Factor) (code : GoString) : Outcome :=
  if user.enabled = false ∨ user.recoveryCodes = [] then .nothing
  else
    let hashes := split user.recoveryCodes comma
    match matchRecoveryCode env hashes code with
    | none => .nothing
    | some i =>
      ⟨some ⟨true,user.secret,join (removeAt hashes i) [comma]⟩,
        hashes[i]?.map (⟨normalizeRecoveryCode env.tables code,·⟩)⟩

def completeEnrolment (user : Factor) : Outcome :=
  if user.enabled then .nothing else ⟨some ⟨true,user.secret,user.recoveryCodes⟩,none⟩
def acceptCode (user : Factor) (plainSecret code : GoString) (now : Int) : Outcome :=
  if env.validTOTP code plainSecret now then completeEnrolment user else spendRecoveryCode env user code

structure Attempt where
  user : Factor
  code : GoString
deriving DecidableEq

def verify2FA (call : Attempt) (now : Int) : Outcome :=
  match decryptSecret env.cipher (some env.key) call.user.secret with
  | none => .nothing
  | some plainSecret => if plainSecret = [] then .nothing else acceptCode env call.user plainSecret call.code now

-- The codes accepted since the enrolment, and whether the factor was reset since.
structure Account where
  factor : Factor
  calls : List Attempt
  uses : List Use
  wasReset : Bool
deriving DecidableEq

-- `leave` ends a call without a write: locked, no hash slot, a database error.
inductive Event where
  | read (code : GoString)
  | finish (i : Nat) (now : Int)
  | leave (i : Nat)
  | resetTwoFactor

def Account.answered (s : Account) (i : Nat) (call : Attempt) (now : Int) : Account :=
  let outcome := verify2FA env call now
  { s with
    factor := outcome.write.getD s.factor
    calls := s.calls.eraseIdx i
    uses := outcome.spent.toList ++ s.uses }

def step (s : Account) : Event → Option Account
  | .read code => some { s with calls := s.calls ++ [⟨s.factor,code⟩] }
  | .finish i now => s.calls[i]?.map fun call => s.answered env i call now
  | .leave i => some { s with calls := s.calls.eraseIdx i }
  | .resetTwoFactor => some { s with factor := .cleared, wasReset := true }

end

def Factor.codeList (factor : Factor) : List GoString :=
  if factor.recoveryCodes = [] then [] else split factor.recoveryCodes comma

structure SpentOnce (env : Checks) (s : Account) : Prop where
  once : s.uses.Pairwise fun a b => a.code ≠ b.code ∧ a.hash ≠ b.hash
  gone : ∀ use ∈ s.uses, ∀ h ∈ s.factor.codeList, h ≠ use.hash ∧ env.compareHash h use.code = false
  cleared : s.wasReset → s.factor = .cleared

def writes (env : Checks) (call : Attempt) (now : Int) : Bool :=
  match decryptSecret env.cipher (some env.key) call.user.secret with
  | none => false
  | some plainSecret =>
    plainSecret != [] &&
      if env.validTOTP call.code plainSecret now then !call.user.enabled
      else call.user.enabled && (matchRecoveryCode env call.user.codeList call.code).isSome

def Current (s : Account) (call : Attempt) : Prop :=
  s.factor.secret = call.user.secret ∧ s.factor.recoveryCodes = call.user.recoveryCodes

def writesCurrent (env : Checks) (s : Account) : Event → Prop
  | .finish i now => ∀ call ∈ s.calls[i]?, writes env call now → Current s call
  | _ => True

instance (env : Checks) (s : Account) (event : Event) : Decidable (writesCurrent env s event) := by
  cases event with
  | finish i now => exact inferInstanceAs (Decidable (∀ call ∈ s.calls[i]?,writes env call now = true → _ ∧ _))
  | read _ | leave _ | resetTwoFactor => exact isTrue trivial

structure Enrolled (env : Checks) (hashes : List GoString) : Prop where
  distinct : hashes.Nodup
  filled : ∀ h ∈ hashes, h ≠ []
  whole : ∀ h ∈ hashes, comma ∉ h
  unique : ∀ h ∈ hashes, ∀ other ∈ hashes, ∀ code,
    env.compareHash h code → env.compareHash other code → h = other

def Account.enrolled (enabled : Bool) (secret : GoString) (hashes : List GoString) : Account :=
  ⟨⟨enabled,secret,join hashes [comma]⟩,[],[],false⟩

theorem removeAt_eq (s : List GoString) (i : Nat) : removeAt s i = s.eraseIdx i := by
  rw [removeAt,eraseIdx_eq_take_drop_succ]

theorem codeList_join (filled : ∀ h ∈ hashes, h ≠ []) (whole : ∀ h ∈ hashes, comma ∉ h) :
    Factor.codeList ⟨enabled,secret,join hashes [comma]⟩ = hashes := by
  unfold Factor.codeList
  split
  · rename_i empty; exact join_inj (q := hashes) (by simp) (fun h mem => ⟨whole h mem,filled h mem⟩) empty.symm
  · rename_i full; exact split_join hashes (fun none => full (by rw [none]; rfl)) whole

theorem matchRecoveryCode_parts (found : matchRecoveryCode env hashes code = some i) :
    ∃ h, hashes[i]? = some h ∧ env.compareHash h (normalizeRecoveryCode env.tables code) := by
  simp only [matchRecoveryCode] at found
  split at found
  · cases found
  · obtain ⟨small,hit,_⟩ := findIdx?_eq_some_iff_getElem.mp found
    refine ⟨hashes[i],getElem?_eq_getElem small,?_⟩
    exact (Bool.and_eq_true_iff.mp hit).2

inductive Answers (env : Checks) (call : Attempt) (now : Int) : Outcome → Prop where
  | quiet (still : writes env call now = false) : Answers env call now .nothing
  | completes (wrote : writes env call now) (secret : call.user.secret ≠ []) :
      Answers env call now ⟨some ⟨true,call.user.secret,call.user.recoveryCodes⟩,none⟩
  | spends (wrote : writes env call now) (secret : call.user.secret ≠ []) (at' : call.user.codeList[i]? = some h)
      (matched : env.compareHash h (normalizeRecoveryCode env.tables call.code)) :
      Answers env call now
        ⟨some ⟨true,call.user.secret,join (call.user.codeList.eraseIdx i) [comma]⟩,
          some ⟨normalizeRecoveryCode env.tables call.code,h⟩⟩

theorem verify2FA_answers (env : Checks) (call : Attempt) (now : Int) : Answers env call now (verify2FA env call now) := by
  unfold verify2FA
  cases plain : decryptSecret env.cipher (some env.key) call.user.secret with
  | none => exact .quiet (by simp [writes,plain])
  | some plainSecret =>
    dsimp only
    split
    · rename_i empty; exact .quiet (by simp [writes,plain,empty])
    rename_i known
    have secret : call.user.secret ≠ [] := by
      intro empty
      simp only [empty,decryptSecret,↓reduceIte,Option.some.injEq] at plain
      exact known plain.symm
    unfold acceptCode
    split
    · rename_i valid
      unfold completeEnrolment
      split
      · rename_i enabled; exact .quiet (by simp [writes,plain,valid,enabled])
      · rename_i pending; exact .completes (by simpa [writes,plain,valid,known] using pending) secret
    rename_i other
    unfold spendRecoveryCode
    split
    · rename_i none
      apply Answers.quiet
      rcases none with disabled | empty
      · simp [writes,plain,other,disabled]
      · simp [writes,plain,other,Factor.codeList,empty,matchRecoveryCode]
    rename_i counted
    push Not at counted
    have list : split call.user.recoveryCodes comma = call.user.codeList := by
      simp [Factor.codeList,counted.2]
    dsimp only
    rw [list]
    cases found : matchRecoveryCode env call.user.codeList call.code with
    | none => exact .quiet (by simp [writes,plain,other,found])
    | some i =>
      obtain ⟨h,place,matched⟩ := matchRecoveryCode_parts found
      have wrote : writes env call now := by
        simpa [writes,plain,other,found,known] using counted.1
      simp only [place,removeAt_eq,Option.map_some]
      exact .spends wrote secret place matched

def remaining (hashes : List GoString) (uses : List Use) : List GoString :=
  hashes.filter fun h => h ∉ uses.map Use.hash

theorem mem_remaining : h ∈ remaining hashes uses ↔ h ∈ hashes ∧ h ∉ uses.map Use.hash := by
  simp [remaining]

theorem remaining_spent (distinct : hashes.Nodup) (place : (remaining hashes uses)[i]? = some use.hash) :
    (remaining hashes uses).eraseIdx i = remaining hashes (use :: uses) := by
  obtain ⟨small,hit⟩ := List.getElem?_eq_some_iff.mp place
  have unique : (remaining hashes uses).Nodup := distinct.filter _
  rw [← unique.erase_getElem i small,hit,unique.erase_eq_filter]
  unfold remaining
  rw [filter_filter]
  congr 1
  funext h
  simp [bne,Bool.beq_eq_decide_eq,not_or]

section Runs
variable {env : Checks} {secret : GoString} {hashes : List GoString} {enabled : Bool}

structure Tracked (env : Checks) (secret : GoString) (hashes : List GoString) (s : Account) : Prop where
  cleared : s.wasReset → s.factor = .cleared
  stored : s.wasReset = false →
    s.factor.secret = secret ∧ s.factor.recoveryCodes = join (remaining hashes s.uses) [comma]
  read : ∀ call ∈ s.calls, call.user = .cleared ∨ call.user.secret = secret ∧
    ∃ earlier, earlier <:+ s.uses ∧ call.user.recoveryCodes = join (remaining hashes earlier) [comma]
  once : (s.uses.map Use.hash).Nodup
  matched : ∀ use ∈ s.uses, use.hash ∈ hashes ∧ env.compareHash use.hash use.code

theorem remaining_join {factor : Factor} (enrolled : Enrolled env hashes)
    (text : factor.recoveryCodes = join (remaining hashes uses) [comma]) : factor.codeList = remaining hashes uses := by
  obtain ⟨on,secret,codes⟩ := factor
  cases text
  apply codeList_join
  · intro h mem; exact enrolled.filled h (mem_remaining.mp mem).1
  · intro h mem; exact enrolled.whole h (mem_remaining.mp mem).1

theorem tracked_enrolled (env : Checks) (enabled : Bool) (secret : GoString) (hashes : List GoString) :
    Tracked env secret hashes (.enrolled enabled secret hashes) where
  cleared := nofun
  stored := by
    intro _
    simp [Account.enrolled,remaining]
  read := nofun
  once := nodup_nil
  matched := nofun

section
variable (enrolled : Enrolled env hashes)
include enrolled

theorem Tracked.spentOnce (tracked : Tracked env secret hashes s) :
    SpentOnce env s where
  once := by
    refine List.Pairwise.imp_of_mem ?_ (pairwise_map.mp tracked.once)
    intro a b left right apart
    refine ⟨?_,apart⟩
    intro same
    obtain ⟨inA,hitA⟩ := tracked.matched a left
    obtain ⟨inB,hitB⟩ := tracked.matched b right
    exact apart (enrolled.unique _ inA _ inB _ hitA (same ▸ hitB))
  gone := by
    intro use used h held
    cases reset : s.wasReset with
    | true => simp [tracked.cleared reset,Factor.codeList,Factor.cleared] at held
    | false =>
      rw [remaining_join enrolled (tracked.stored reset).2] at held
      obtain ⟨known,unused⟩ := mem_remaining.mp held
      have apart : h ≠ use.hash := fun same => unused (same ▸ mem_map_of_mem used)
      refine ⟨apart,?_⟩
      obtain ⟨inUse,hit⟩ := tracked.matched use used
      apply Bool.eq_false_iff.mpr
      intro both
      exact apart (enrolled.unique _ known _ inUse _ both hit)
  cleared := tracked.cleared

theorem answered_preserves (tracked : Tracked env secret hashes s) (current : writes env call now → Current s call) :
    Tracked env secret hashes (s.answered env i call now) := by
  have others : ∀ other ∈ s.calls.eraseIdx i, other ∈ s.calls := fun other mem => (eraseIdx_sublist ..).subset mem
  have answers := verify2FA_answers env call now
  unfold Account.answered
  generalize verify2FA env call now = outcome at answers
  have notReset : writes env call now → call.user.secret ≠ [] → s.wasReset = false := by
    intro wrote filled
    apply Bool.eq_false_iff.mpr
    intro reset
    have same := (current wrote).1
    rw [tracked.cleared reset] at same
    exact filled same.symm
  cases answers with
  | quiet =>
    exact {tracked with read := fun other mem => tracked.read other (others other mem)}
  | completes wrote filled =>
    have open' := notReset wrote filled
    refine ⟨?_,?_,fun other mem => tracked.read other (others other mem),tracked.once,tracked.matched⟩
    · intro reset; cases open'.symm.trans reset
    intro _
    obtain ⟨key,codes⟩ := current wrote
    obtain ⟨keep,text⟩ := tracked.stored open'
    exact ⟨key.symm.trans keep,codes.symm.trans text⟩
  | @spends place h wrote filled found hit =>
    have open' := notReset wrote filled
    obtain ⟨key,codes⟩ := current wrote
    obtain ⟨keep,text⟩ := tracked.stored open'
    rw [remaining_join enrolled (codes.symm.trans text)] at found ⊢
    obtain ⟨known,unused⟩ := mem_remaining.mp (mem_of_getElem? found)
    refine ⟨?_,?_,?_,?_,?_⟩
    · intro reset; cases open'.symm.trans reset
    · intro _
      refine ⟨key.symm.trans keep,?_⟩
      dsimp only [Option.getD_some,Option.toList_some,singleton_append]
      rw [← remaining_spent enrolled.distinct found]
    · intro other mem
      rcases tracked.read other (others other mem) with gone | ⟨same,earlier,before,list⟩
      · exact .inl gone
      · exact .inr ⟨same,earlier,before.trans (suffix_cons ..),list⟩
    · exact nodup_cons.mpr ⟨unused,tracked.once⟩
    · exact forall_mem_cons.mpr ⟨⟨known,hit⟩,tracked.matched⟩

theorem step_preserves (tracked : Tracked env secret hashes s)
    (meets : writesCurrent env s event) (ran : step env s event = some t) : Tracked env secret hashes t := by
  cases event with
  | read code =>
    cases ran
    refine {tracked with read := forall_snoc tracked.read ?_}
    cases reset : s.wasReset with
    | true => exact .inl (tracked.cleared reset)
    | false =>
      obtain ⟨keep,text⟩ := tracked.stored reset
      exact .inr ⟨keep,s.uses,suffix_refl _,text⟩
  | finish i now =>
    obtain ⟨call,pending,result⟩ := Option.map_eq_some_iff.mp ran
    subst result
    exact answered_preserves enrolled tracked (meets call pending)
  | leave i =>
    cases ran
    exact {tracked with read := fun call mem => tracked.read call ((eraseIdx_sublist ..).subset mem)}
  | resetTwoFactor =>
    cases ran
    exact {tracked with cleared := fun _ => rfl,stored := (nomatch ·)}

theorem reached_tracked
    (path : Reached (step env) (writesCurrent env) (.enrolled enabled secret hashes) s) : Tracked env secret hashes s :=
  reached_invariant (Tracked env secret hashes) (tracked_enrolled env enabled secret hashes) (step_preserves enrolled) path

end

theorem recoveryCode_spent_once (enrolled : Enrolled env hashes)
    (path : Reached (step env) (writesCurrent env) (.enrolled enabled secret hashes) s) : SpentOnce env s :=
  (reached_tracked enrolled path).spentOnce enrolled

end Runs

def sample : Checks where
  cipher := .transparent
  key := ⟨replicate 32 0,rfl⟩
  tables := .ascii
  validTOTP code _ _ := code == lit "123456"
  compareHash h code := h == code

def sampleCodes : List GoString := [lit "AAAA",lit "BBBB"]

theorem sample_enrolled : Enrolled sample sampleCodes where
  distinct := by decide +kernel
  filled := by decide +kernel
  whole := by decide +kernel
  unique := by
    intro h _ other _ code left right
    exact (eq_of_beq left).trans (eq_of_beq right).symm

theorem recoveryCode_spent_once_sample : ∃ s,
    Reached (step sample) (writesCurrent sample) (.enrolled true (lit "S") sampleCodes) s ∧
      s.uses = [⟨lit "BBBB",lit "BBBB"⟩,⟨lit "AAAA",lit "AAAA"⟩] ∧ SpentOnce sample s := by
  exact reached_by [.read (lit "aa-aa"),.finish 0 0,.read (lit " bbbb"),.read (lit "aaaa"),.finish 0 0,.finish 0 0] (by decide +kernel)
    fun s => recoveryCode_spent_once sample_enrolled

-- One code spent twice; two codes that leave the first; a spend after a reset.
theorem recoveryCode_spent_twice : (run (step sample) (.enrolled true (lit "S") sampleCodes)
      [.read (lit "AAAA"),.read (lit "AAAA"),.finish 0 0,.finish 0 0]).map Account.uses =
        some [⟨lit "AAAA",lit "AAAA"⟩,⟨lit "AAAA",lit "AAAA"⟩] ∧
    (run (step sample) (.enrolled true (lit "S") sampleCodes)
      [.read (lit "AAAA"),.read (lit "BBBB"),.finish 0 0,.finish 0 0]).map (fun s => (s.uses.length,s.factor.codeList)) =
        some (2,[lit "AAAA"]) ∧ (run (step sample) (.enrolled true (lit "S") sampleCodes)
      [.read (lit "AAAA"),.resetTwoFactor,.finish 0 0]).map (fun s => (s.wasReset,s.factor)) =
        some (true,⟨true,lit "S",lit "BBBB"⟩) := by
  decide +kernel

end RecoveryCodes
end Gateon.Auth
