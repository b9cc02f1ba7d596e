import Gateon.Lib.Transition
import Mathlib.Data.List.Basic

namespace Gateon.Auth.StoredLock
open Transition Option

def MaxFailedAttempts : Nat := 5
def LockoutDuration : Int := 15 * 60000000000

structure LockRow where
  failedAttempts : Nat
  lockedUntil : Option Int
deriving DecidableEq

def LockRow.locked (row : LockRow) (now : Int) : Bool := row.lockedUntil.any fun expiry => decide (now < expiry)

def handleFailedLogin (row : LockRow) (now : Int) (currentAttempts : Nat) : LockRow where
  failedAttempts := row.failedAttempts + 1
  lockedUntil := if MaxFailedAttempts ≤ currentAttempts + 1 then some (now + LockoutDuration) else none

def resetFailedAttempts : LockRow := ⟨0,none⟩

structure Try where
  row : LockRow
  admitted : Bool

-- With the wrong attempts since the last reset, and whether one weakened a lock.
structure Store where
  row : LockRow
  now : Int
  trying : List Try
  wrong : List Int
  weakened : Bool

inductive TryEvent where
  | tick (elapsed : Nat)
  | read
  | judge (i : Nat)
  | wrong (i : Nat)
  | right (i : Nat)
  | abandon (i : Nat)

def Weakens (now : Int) (before after : LockRow) : Prop :=
  ∃ expiry ∈ before.lockedUntil, now < expiry ∧ ∀ later ∈ after.lockedUntil, later < expiry

instance (now : Int) (before after : LockRow) : Decidable (Weakens now before after) :=
  inferInstanceAs (Decidable (∃ expiry ∈ before.lockedUntil, _))

section
variable (s : Store)

def writeWrong (i : Nat) (a : Try) : Store :=
  let row := handleFailedLogin s.row s.now a.row.failedAttempts
  { s with
    row := row
    trying := s.trying.eraseIdx i
    wrong := s.now :: s.wrong
    weakened := s.weakened || decide (Weakens s.now s.row row) }

def writeRight (i : Nat) : Store :=
  { s with row := resetFailedAttempts, trying := s.trying.eraseIdx i, wrong := [] }

def admitTry (i : Nat) (a : Try) : Store :=
  if a.row.locked s.now then { s with trying := s.trying.eraseIdx i }
  else { s with trying := s.trying.set i { a with admitted := true } }

def tryStep : TryEvent → Option Store
  | .tick elapsed => some { s with now := s.now + elapsed }
  | .read => some { s with trying := ⟨s.row,false⟩ :: s.trying }
  | .judge i => s.trying[i]?.bind fun a => if a.admitted then none else some (admitTry s i a)
  | .wrong i => s.trying[i]?.bind fun a => if a.admitted then some (writeWrong s i a) else none
  | .right i => s.trying[i]?.bind fun a => if a.admitted then some (writeRight s i) else none
  | .abandon i => s.trying[i]?.map fun _ => { s with trying := s.trying.eraseIdx i }

def unlocked (now : Int) : Store := ⟨⟨0,none⟩,now,[],[],false⟩

-- Its count reaches the limit, or the row's does not and no lock is in force.
def Timely : TryEvent → Prop
  | .wrong i => ∀ a ∈ s.trying[i]?, MaxFailedAttempts ≤ a.row.failedAttempts + 1 ∨
      s.row.failedAttempts + 1 < MaxFailedAttempts ∧ s.row.locked s.now = false
  | _ => True

def Locked : Prop :=
  MaxFailedAttempts ≤ s.wrong.length → ∃ last, s.wrong.head? = some last ∧ s.row.lockedUntil = some (last + LockoutDuration)

end

structure StoreValid (s : Store) : Prop where
  counted : s.row.failedAttempts = s.wrong.length
  bounded : ∀ expiry ∈ s.row.lockedUntil, expiry ≤ s.now + LockoutDuration

theorem unlocked_valid (now : Int) : StoreValid (unlocked now) := ⟨rfl,by simp [unlocked]⟩

theorem writeWrong_valid (valid : StoreValid s) (i : Nat) (a : Try) : StoreValid (writeWrong s i a) := by
  refine ⟨?_,?_⟩
  · simp [writeWrong,handleFailedLogin,valid.counted]
  intro expiry locked
  simp only [writeWrong,handleFailedLogin] at locked ⊢
  split at locked
  · cases locked; exact Int.le_refl _
  · cases locked

theorem tryStep_writes (ran : tryStep s event = some next) :
    (∃ i a, event = .wrong i ∧ s.trying[i]? = some a ∧ next = writeWrong s i a) ∨ (∃ i, next = writeRight s i) ∨
    (next.row = s.row ∧ next.wrong = s.wrong ∧ next.weakened = s.weakened ∧ s.now ≤ next.now) := by
  cases event with
  | tick elapsed =>
    cases ran
    refine .inr (.inr ⟨rfl,rfl,rfl,?_⟩)
    simp only
    omega
  | read => cases ran; exact .inr (.inr ⟨rfl,rfl,rfl,Int.le_refl _⟩)
  | judge i =>
    obtain ⟨a,_,done⟩ := bind_eq_some_iff.mp ran
    split at done
    · cases done
    · cases done
      unfold admitTry
      split <;> exact .inr (.inr ⟨rfl,rfl,rfl,Int.le_refl _⟩)
  | wrong i =>
    obtain ⟨a,found,done⟩ := bind_eq_some_iff.mp ran
    split at done
    · cases done; exact .inl ⟨i,a,rfl,found,rfl⟩
    · cases done
  | right i =>
    obtain ⟨a,_,done⟩ := bind_eq_some_iff.mp ran
    split at done
    · cases done; exact .inr (.inl ⟨i,rfl⟩)
    · cases done
  | abandon i => obtain ⟨a,_,rfl⟩ := map_eq_some_iff.mp ran; exact .inr (.inr ⟨rfl,rfl,rfl,Int.le_refl _⟩)

theorem tryStep_valid (valid : StoreValid s) (ran : tryStep s event = some next) : StoreValid next := by
  rcases tryStep_writes ran with ⟨i,a,_,_,rfl⟩ | ⟨i,rfl⟩ | ⟨row,wrong,_,later⟩
  · exact writeWrong_valid valid i a
  · exact ⟨rfl,by simp [writeRight,resetFailedAttempts]⟩
  refine ⟨by rw [row,wrong,valid.counted],?_⟩
  intro expiry locked
  rw [row] at locked
  have bound := valid.bounded expiry locked
  omega

theorem reached_valid (path : Reached tryStep allowed (unlocked start) s) : StoreValid s :=
  reached_invariant StoreValid (unlocked_valid start) (fun valid _ ran => tryStep_valid valid ran) path

theorem writeWrong_exact (valid : StoreValid s) (found : s.trying[i]? = some a) :
    Locked (writeWrong s i a) ∧ ¬Weakens s.now s.row (writeWrong s i a).row ↔ Timely s (.wrong i) := by
  have timely : Timely s (.wrong i) ↔ MaxFailedAttempts ≤ a.row.failedAttempts + 1 ∨
      s.row.failedAttempts + 1 < MaxFailedAttempts ∧ s.row.locked s.now = false := by
    simp [Timely,found]
  rw [timely]
  by_cases reached : MaxFailedAttempts ≤ a.row.failedAttempts + 1
  · refine iff_of_true ⟨?_,?_⟩ (.inl reached)
    · intro _; exact ⟨s.now,rfl,by simp [writeWrong,handleFailedLogin,reached]⟩
    intro weakened
    obtain ⟨expiry,before,_,shorter⟩ := weakened
    have bound := valid.bounded expiry before
    have less := shorter (s.now + LockoutDuration) (by simp [writeWrong,handleFailedLogin,reached])
    omega
  have cleared : (writeWrong s i a).row.lockedUntil = none := by simp [writeWrong,handleFailedLogin,reached]
  have length : (writeWrong s i a).wrong.length = s.row.failedAttempts + 1 := by simp [writeWrong,valid.counted]
  constructor
  · intro sound
    refine .inr ⟨?_,?_⟩
    · by_contra full
      obtain ⟨last,_,locked⟩ := sound.1 (by omega)
      rw [cleared] at locked
      cases locked
    · by_contra inForce
      refine sound.2 ?_
      cases expires : s.row.lockedUntil with
      | none => simp [LockRow.locked,expires] at inForce
      | some expiry =>
        exact ⟨expiry,expires,by simpa [LockRow.locked,expires] using inForce,by simp [cleared]⟩
  · intro either
    obtain ⟨below,free⟩ := either.resolve_left reached
    refine ⟨fun full => absurd full (by omega),?_⟩
    intro weakened
    obtain ⟨expiry,expires,inForce,_⟩ := weakened
    rw [mem_def] at expires
    simp [LockRow.locked,expires] at free
    omega

theorem tryStep_locked (valid : StoreValid s) (locked : Locked s) (kept : s.weakened = false) (timely : Timely s event)
    (ran : tryStep s event = some next) : Locked next ∧ next.weakened = false := by
  rcases tryStep_writes ran with ⟨i,a,rfl,found,rfl⟩ | ⟨i,rfl⟩ | ⟨row,wrong,mark,_⟩
  · obtain ⟨lockedNext,notWeakened⟩ := (writeWrong_exact valid found).mpr timely
    refine ⟨lockedNext,?_⟩
    simp only [writeWrong] at notWeakened ⊢
    simp [kept,notWeakened]
  · refine ⟨?_,kept⟩
    intro full
    simp [writeRight,MaxFailedAttempts] at full
  · refine ⟨?_,by rw [mark,kept]⟩
    unfold Locked
    rw [wrong,row]
    exact locked

theorem stored_lock_holds (path : Reached tryStep Timely (unlocked start) s) : Locked s ∧ s.weakened = false := by
  have all := reached_invariant (fun s => StoreValid s ∧ Locked s ∧ s.weakened = false)
    ⟨unlocked_valid start,fun full => by simp [unlocked,MaxFailedAttempts] at full,rfl⟩
    (fun before timely ran =>
      ⟨tryStep_valid before.1 ran,tryStep_locked before.1 before.2.1 before.2.2 timely ran⟩) path
  exact all.2

instance (s : Store) (event : TryEvent) : Decidable (Timely s event) := by
  unfold Timely
  split <;> infer_instance

def wrongTry : List TryEvent := [.read,.judge 0,.wrong 0]

theorem stored_lock_holds_five : ∃ s,
    runAllowed tryStep Timely (unlocked 0) (List.replicate 5 wrongTry).flatten = some s ∧ s.wrong.length = 5 ∧
    Locked s ∧ s.weakened = false := shown_run (by decide +kernel) fun s => stored_lock_holds

theorem stale_attempt_clears_lock :
    (run tryStep (unlocked 0) ([.read,.judge 0] ++ (List.replicate 5 wrongTry).flatten)).map
      (fun s => (s.wrong.length,s.row.lockedUntil,s.weakened)) = some (5,some LockoutDuration,false) ∧
    (run tryStep (unlocked 0) ([.read,.judge 0] ++ (List.replicate 5 wrongTry).flatten ++ [.wrong 0])).map
      (fun s => (s.wrong.length,s.row.lockedUntil,s.weakened)) = some (6,none,true) := by
  decide +kernel

end Gateon.Auth.StoredLock
