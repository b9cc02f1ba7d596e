import Gateon.Auth.Sessions
import Gateon.Go.Time
import Gateon.Lib.FixedWindow

namespace Gateon.Auth.Lockout
open Go FixedWindow Transition List Option Function

def PairLimit : Nat := 5
def PairLock : Int := 15 * minute
def AccountLimit : Nat := 20
def AccountWindow : Int := 15 * minute

inductive Decision where
  | allow
  | pairLocked
  | underAttack
deriving DecidableEq

abbrev PairKey := List UInt8 × List UInt8

structure Tracker where
  pairs : PairKey → Option Window
  accounts : List UInt8 → Option Window

section
variable (d : Digest)

def digestOf (s : GoString) : List UInt8 := d.short s
def pairOf (account source : GoString) : PairKey := (digestOf d account,digestOf d source)

section
variable (t : Tracker)

def check (now : Int) (account source : GoString) : Decision :=
  if lockedAt (t.pairs (pairOf d account source)) now then .pairLocked
  else if lockedAt (t.accounts (digestOf d account)) now then .underAttack
  else .allow

def count [DecidableEq K] (table : K → Option Window) (key : K) (now : Int) (limit : Nat) (lock : Int) : K → Option Window :=
  update table key (some (addTo (table key) now limit lock))

def fail (now : Int) (account source : GoString) : Tracker where
  pairs := count t.pairs (pairOf d account source) now PairLimit PairLock
  accounts := count t.accounts (digestOf d account) now AccountLimit AccountWindow

def renew (now : Int) (account : GoString) : Tracker :=
  let key := digestOf d account
  { t with accounts := update t.accounts key ((t.accounts key).map (·.extend now AccountWindow)) }

def succeed (account source : GoString) : Tracker :=
  { t with pairs := update t.pairs (pairOf d account source) none }

end

structure Attempt where
  account : GoString
  source : GoString
  answer : Decision

structure Wrong where
  time : Int
  answer : Decision

-- Admitted attempts, accounts to renew, guesses and failures, newest first.
structure SignIns where
  tracker : Tracker
  now : Int
  trying : List Attempt
  renewing : List GoString
  wrong : GoString → GoString → List Wrong
  failed : GoString → List Int

-- `known` says whether the account has signed in from the source before.
inductive SignInEvent where
  | tick (elapsed : Nat)
  | attempt (account source : GoString) (known : Bool)
  | fail (i : Nat)
  | succeed (i : Nat)
  | abandon (i : Nat)
  | renew (i : Nat)

variable (s : SignIns)

def admitAttempt (account source : GoString) (known : Bool) : SignIns :=
  match check d s.tracker s.now account source with
  | .allow => { s with trying := ⟨account,source,.allow⟩ :: s.trying }
  | .pairLocked => s
  | .underAttack =>
    if known then { s with trying := ⟨account,source,.underAttack⟩ :: s.trying }
    else { s with renewing := account :: s.renewing }

def wrongGuess (i : Nat) (a : Attempt) : SignIns :=
  { s with
    tracker := fail d s.tracker s.now a.account a.source
    trying := s.trying.eraseIdx i
    wrong := fun account source => if account = a.account ∧ source = a.source then ⟨s.now,a.answer⟩ :: s.wrong account source
      else s.wrong account source
    failed := fun account => if account = a.account then s.now :: s.failed account else s.failed account }

def rightGuess (i : Nat) (a : Attempt) : SignIns :=
  { s with
    tracker := succeed d s.tracker a.account a.source
    trying := s.trying.eraseIdx i
    wrong := fun account source => if account = a.account ∧ source = a.source then [] else s.wrong account source }

def signInStep : SignInEvent → Option SignIns
  | .tick elapsed => some { s with now := s.now + elapsed }
  | .attempt account source known => some (admitAttempt d s account source known)
  | .fail i => s.trying[i]?.map (wrongGuess d s i)
  | .succeed i => s.trying[i]?.map (rightGuess d s i)
  | .abandon i => s.trying[i]?.map fun _ => { s with trying := s.trying.eraseIdx i }
  | .renew i => s.renewing[i]?.map fun account =>
    { s with tracker := renew d s.tracker s.now account, renewing := s.renewing.eraseIdx i }

def noAttempts (now : Int) : SignIns := ⟨⟨fun _ => none,fun _ => none⟩,now,[],[],fun _ _ => [],fun _ => []⟩

-- Not counted while locked; a new window starts after a pause as long as the window.
def Paused : SignInEvent → Prop
  | .fail i => ∀ a ∈ s.trying[i]?,
    (∀ w ∈ s.tracker.pairs (pairOf d a.account a.source), w.locked s.now = false ∧
      (w.lapsed s.now PairLock → ∀ g ∈ s.wrong a.account a.source, g.time + PairLock ≤ s.now)) ∧
    ∀ w ∈ s.tracker.accounts (digestOf d a.account), w.lapsed s.now AccountWindow →
      ∀ t ∈ s.failed a.account, t + AccountWindow ≤ s.now
  | _ => True

end

structure Tracked (d : Digest) (s : SignIns) : Prop where
  wrongPast : ∀ account source, ∀ g ∈ s.wrong account source, g.time ≤ s.now
  failedPast : ∀ account, ∀ t ∈ s.failed account, t ≤ s.now
  pairs : ∀ account source, Follows PairLimit PairLock True (s.tracker.pairs (pairOf d account source))
    ((s.wrong account source).map Wrong.time)
  accounts : ∀ account, Follows AccountLimit AccountWindow False (s.tracker.accounts (digestOf d account)) (s.failed account)

theorem noAttempts_tracked (d : Digest) (now : Int) : Tracked d (noAttempts now) where
  wrongPast := by simp [noAttempts]
  failedPast := by simp [noAttempts]
  pairs _ _ := .empty
  accounts _ := .empty

theorem digestOf_injective (same : digestOf d a = digestOf d b) : a = b := d.collisionFree _ _ same
theorem pairOf_injective (same : pairOf d a x = pairOf d b y) : a = b ∧ x = y :=
  ⟨digestOf_injective (Prod.mk.inj same).1,digestOf_injective (Prod.mk.inj same).2⟩

theorem pairs_other (other : ¬(account = a ∧ source = x)) (table : PairKey → Option Window) (w : Option Window) :
    update table (pairOf d a x) w (pairOf d account source) = table (pairOf d account source) :=
  update_of_ne (fun same => other (pairOf_injective same)) ..

theorem accounts_other (other : account ≠ a) (table : List UInt8 → Option Window) (w : Option Window) :
    update table (digestOf d a) w (digestOf d account) = table (digestOf d account) :=
  update_of_ne (fun same => other (digestOf_injective same)) ..

theorem wrongGuess_pairs (tracked : Tracked d s) (found : s.trying[i]? = some a) (paused : Paused d s (.fail i))
    (account source : GoString) :
    Follows PairLimit PairLock True ((wrongGuess d s i a).tracker.pairs (pairOf d account source))
      (((wrongGuess d s i a).wrong account source).map Wrong.time) := by
  have pause := (paused a found).1
  by_cases same : account = a.account ∧ source = a.source
  · obtain ⟨rfl,rfl⟩ := same
    simp only [wrongGuess,and_self,↓reduceIte,map_cons,fail,count,update_self]
    refine addTo_follows (by decide) (tracked.pairs a.account a.source) ?_ ?_ ?_
    · exact forall_mem_map.mpr fun g guess => tracked.wrongPast _ _ g guess
    · intro w window lapsed; exact forall_mem_map.mpr fun g guess => (pause w window).2 lapsed g guess
    · intro _ w window; exact (pause w window).1
  · simp only [wrongGuess,same,↓reduceIte,fail,count,pairs_other same]
    exact tracked.pairs account source

theorem wrongGuess_accounts (tracked : Tracked d s) (found : s.trying[i]? = some a) (paused : Paused d s (.fail i)) (account : GoString) :
    Follows AccountLimit AccountWindow False ((wrongGuess d s i a).tracker.accounts (digestOf d account))
      ((wrongGuess d s i a).failed account) := by
  by_cases same : account = a.account
  · subst same
    simp only [wrongGuess,↓reduceIte,fail,count,update_self]
    refine addTo_follows (by decide) (tracked.accounts a.account) (tracked.failedPast a.account) (paused a found).2 ?_
    intro impossible
    cases impossible
  · simp only [wrongGuess,same,↓reduceIte,fail,count,accounts_other same]
    exact tracked.accounts account

theorem recorded {p : α → Prop} [Decidable c] (new : p x) (old : ∀ y ∈ l, p y) : ∀ y ∈ if c then x :: l else l, p y := by
  split
  · exact forall_mem_cons.mpr ⟨new,old⟩
  · exact old

theorem wrongGuess_tracked (tracked : Tracked d s) (found : s.trying[i]? = some a) (paused : Paused d s (.fail i)) :
    Tracked d (wrongGuess d s i a) where
  wrongPast account source := recorded le_rfl (tracked.wrongPast account source)
  failedPast account := recorded le_rfl (tracked.failedPast account)
  pairs := wrongGuess_pairs tracked found paused
  accounts := wrongGuess_accounts tracked found paused

theorem rightGuess_tracked (tracked : Tracked d s) : Tracked d (rightGuess d s i a) := by
  refine ⟨?_,tracked.failedPast,?_,tracked.accounts⟩
  · intro account source g member
    simp only [rightGuess] at member
    split at member
    · cases member
    · exact tracked.wrongPast account source g member
  · intro account source
    by_cases same : account = a.account ∧ source = a.source
    · obtain ⟨rfl,rfl⟩ := same
      simp only [rightGuess,and_self,↓reduceIte,map_nil,succeed,update_self]
      exact .empty
    · simp only [rightGuess,same,↓reduceIte,succeed,pairs_other same]
      exact tracked.pairs account source

theorem renew_tracked (tracked : Tracked d s) (account : GoString) (waiting : List GoString) :
    Tracked d { s with tracker := renew d s.tracker s.now account, renewing := waiting } := by
  refine {tracked with accounts := ?_}
  intro other
  by_cases same : other = account
  · subst same
    simp only [renew,update_self]
    exact extend_follows (tracked.accounts other) (tracked.failedPast other)
  · simp only [renew,accounts_other same]
    exact tracked.accounts other

theorem admitAttempt_frame (d : Digest) (s : SignIns) (account source : GoString) (known : Bool) :
    ∃ trying renewing, admitAttempt d s account source known = { s with trying := trying, renewing := renewing } := by
  unfold admitAttempt
  split
  · exact ⟨_,_,rfl⟩
  · exact ⟨_,_,rfl⟩
  · split <;> exact ⟨_,_,rfl⟩

theorem signInStep_tracked {next} (tracked : Tracked d s) (paused : Paused d s event) (ran : signInStep d s event = some next) :
    Tracked d next := by
  cases event with
  | tick elapsed =>
    cases ran
    refine ⟨?_,?_,tracked.pairs,tracked.accounts⟩
    · intro account source g member
      have before := tracked.wrongPast account source g member
      simp only
      omega
    · intro account t member
      have before := tracked.failedPast account t member
      simp only
      omega
  | attempt account source known =>
    cases ran
    obtain ⟨trying,renewing,after⟩ := admitAttempt_frame d s account source known
    rw [after]
    exact {tracked with}
  | fail i => obtain ⟨a,found,rfl⟩ := map_eq_some_iff.mp ran; exact wrongGuess_tracked tracked found paused
  | succeed i => obtain ⟨a,_,rfl⟩ := map_eq_some_iff.mp ran; exact rightGuess_tracked tracked
  | abandon i =>
    obtain ⟨a,_,rfl⟩ := map_eq_some_iff.mp ran
    exact {tracked with}
  | renew i => obtain ⟨account,_,rfl⟩ := map_eq_some_iff.mp ran; exact renew_tracked tracked account _

theorem reached_tracked (path : Reached (signInStep d) (Paused d) (noAttempts start) s) : Tracked d s :=
  reached_invariant (Tracked d) (noAttempts_tracked d start) signInStep_tracked path

def guessesIn (s : SignIns) (account source : GoString) (t : Int) : Nat :=
  (s.wrong account source).countP fun g => decide (g.answer = .allow) && inSpan PairLock t g.time
def GuessesBounded (s : SignIns) : Prop := ∀ account source t, guessesIn s account source t ≤ PairLimit
def recentFailures (s : SignIns) (account : GoString) : Nat :=
  (s.failed account).countP fun time => decide (s.now - AccountWindow < time)

def AttackSeen (d : Digest) (s : SignIns) : Prop :=
  ∀ account, (s.failed account).head? = some s.now → AccountLimit ≤ recentFailures s account →
    ∀ source, check d s.tracker s.now account source ≠ .pairLocked → check d s.tracker s.now account source = .underAttack

def Concerns (s : SignIns) (event : SignInEvent) (account source : GoString) : Prop :=
  match event with
  | .fail i => ∃ a, s.trying[i]? = some a ∧ account = a.account ∧ source = a.source
  | .succeed i => ∃ a, s.trying[i]? = some a ∧ account = a.account ∧ source = a.source
  | _ => False

def Undisturbed (d : Digest) (s : SignIns) : Prop :=
  ∀ event next account source, signInStep d s event = some next → ¬Concerns s event account source →
    check d next.tracker next.now account source = .pairLocked → check d s.tracker s.now account source = .pairLocked

theorem tracked_guesses (tracked : Tracked d s) : GuessesBounded s := by
  intro account source t
  have sparse := follows_sparse trivial (tracked.pairs account source) t
  rw [countP_map] at sparse
  refine Nat.le_trans (countP_mono_left ?_) sparse
  intro g _ counted
  exact (Bool.and_eq_true_iff.mp counted).2

theorem tracked_attack (tracked : Tracked d s) : AttackSeen d s := by
  intro account newest burst source unlocked
  have follows := tracked.accounts account
  unfold recentFailures at burst
  cases failed : s.failed account with
  | nil => rw [failed] at newest; cases newest
  | cons last earlier =>
    rw [failed] at newest burst follows
    cases newest
    have locked := follows_burst (by decide) follows burst
    unfold check at unlocked ⊢
    split at unlocked
    · exact absurd rfl unlocked
    · rename_i free; simp [free,locked]

theorem check_pairLocked : check d t now account source = .pairLocked ↔
    lockedAt (t.pairs (pairOf d account source)) now = true := by
  unfold check
  split
  · rename_i locked; simp [locked]
  · rename_i free; split <;> simp [free]

theorem undisturbed (d : Digest) (s : SignIns) : Undisturbed d s := by
  intro event next account source ran elsewhere
  rw [check_pairLocked,check_pairLocked]
  cases event with
  | tick elapsed => cases ran; exact lockedAt_earlier (by simp only; omega)
  | attempt other origin known =>
    cases ran
    obtain ⟨trying,renewing,after⟩ := admitAttempt_frame d s other origin known
    rw [after]
    exact id
  | fail i =>
    obtain ⟨a,found,rfl⟩ := map_eq_some_iff.mp ran
    have other : ¬(account = a.account ∧ source = a.source) := fun same => elsewhere ⟨a,found,same⟩
    simp only [wrongGuess,fail,count,pairs_other other]
    exact id
  | succeed i =>
    obtain ⟨a,found,rfl⟩ := map_eq_some_iff.mp ran
    have other : ¬(account = a.account ∧ source = a.source) := fun same => elsewhere ⟨a,found,same⟩
    simp only [rightGuess,succeed,pairs_other other]
    exact id
  | abandon i => obtain ⟨a,_,rfl⟩ := map_eq_some_iff.mp ran; exact id
  | renew i => obtain ⟨other,_,rfl⟩ := map_eq_some_iff.mp ran; exact id

theorem guessing_bounded (path : Reached (signInStep d) (Paused d) (noAttempts start) s) :
    GuessesBounded s ∧ AttackSeen d s ∧ Undisturbed d s :=
  ⟨tracked_guesses (reached_tracked path),tracked_attack (reached_tracked path),undisturbed d s⟩

instance (d : Digest) (s : SignIns) (event : SignInEvent) : Decidable (Paused d s event) := by
  unfold Paused
  split <;> infer_instance

def guess (source : GoString) : List SignInEvent := [.attempt (lit "u") source false,.fail 0]
def guesses (n : Nat) : List SignInEvent := (List.replicate n (guess (lit "10.0.0.0/24"))).flatten

theorem guessing_bounded_full_rate : ∃ s,
    runAllowed (signInStep .transparent) (Paused .transparent) (noAttempts 0)
      (guesses 5 ++ [.tick PairLock.toNat] ++ guesses 5) = some s ∧
    (s.wrong (lit "u") (lit "10.0.0.0/24")).length = 10 ∧ GuessesBounded s ∧ AttackSeen .transparent s ∧
      Undisturbed .transparent s := shown_run (by decide +kernel) fun s => guessing_bounded

-- The window starts at minute 0, so the guesses of minute 14 are forgotten at 15.
theorem straddling_guesses_allowed : (run (signInStep .transparent) (noAttempts 0)
      (guesses 1 ++ [.tick (14 * minute).toNat] ++ guesses 3 ++ [.tick minute.toNat] ++ guesses 5)).map
      (fun s => guessesIn s (lit "u") (lit "10.0.0.0/24") (14 * minute)) = some 8 := by
  decide +kernel

end Gateon.Auth.Lockout
