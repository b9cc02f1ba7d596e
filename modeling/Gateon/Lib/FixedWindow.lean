import Mathlib.Data.List.Basic
import Mathlib.Order.Basic

-- A counter over fixed windows that locks for a while once a limit is reached.
namespace FixedWindow
open List Nat

structure Window where
  failures : Nat
  start : Int
  lockedUntil : Option Int
deriving DecidableEq

section
variable (w : Window)

def Window.locked (now : Int) : Bool := w.lockedUntil.any fun expiry => decide (now < expiry)
def Window.lapsed (now lock : Int) : Bool := decide (lock ≤ now - w.start) && !w.locked now
variable (now : Int) (limit : Nat) (lock : Int)

def Window.hit : Window :=
  if limit ≤ w.failures + 1 then ⟨0,now,some (now + lock)⟩ else { w with failures := w.failures + 1 }
def Window.add : Window :=
  if w.lapsed now lock then Window.hit ⟨0,now,none⟩ now limit lock else w.hit now limit lock

end

section
variable (window : Option Window) (now : Int)

def addTo (limit : Nat) (lock : Int) : Window :=
  match window with
  | none => Window.hit ⟨0,now,none⟩ now limit lock
  | some w => w.add now limit lock

def lockedAt : Bool := window.any (·.locked now)

end

def Window.extend (w : Window) (now lock : Int) : Window := { w with lockedUntil := some (now + lock) }

structure Counts (limit : Nat) (lock : Int) (w : Window) (current older : List Int) : Prop where
  filled : current ≠ []
  ordered : current.Pairwise (· ≥ ·)
  spaced : ∀ c ∈ current, ∀ o ∈ older, o + lock ≤ c
  failures : w.failures = current.length % limit
  locks : ∀ last, limit ≤ current.length → current[w.failures]? = some last →
    w.start ≤ last ∧ ∃ expiry, w.lockedUntil = some expiry ∧ last + lock ≤ expiry

def inSpan (lock t time : Int) : Bool := decide (t ≤ time ∧ time < t + lock)
def Sparse (limit : Nat) (lock : Int) (times : List Int) : Prop := ∀ t, times.countP (inSpan lock t) ≤ limit

-- No span of a lock's length has more than `limit` times.
inductive Follows (limit : Nat) (lock : Int) (gated : Prop) : Option Window → List Int → Prop where
  | empty : Follows limit lock gated none []
  | window (counts : Counts limit lock w current older) (short : gated → current.length ≤ limit)
      (sparse : gated → Sparse limit lock (current ++ older)) : Follows limit lock gated (some w) (current ++ older)

variable {limit : Nat} {lock now : Int} {w : Window} {current older : List Int}

theorem lockedAt_earlier (earlier : now ≤ later) (locked : lockedAt window later) : lockedAt window now := by
  cases window with
  | none => cases locked
  | some w =>
    cases expires : w.lockedUntil with
    | none => simp [lockedAt,Window.locked,expires] at locked
    | some expiry =>
      simp only [lockedAt,Window.locked,expires,Option.any_some,decide_eq_true_eq] at locked ⊢
      omega

theorem hit_first (positive : 0 < limit) (spaced : ∀ o ∈ older, o + lock ≤ now) :
    Counts limit lock (Window.hit ⟨0,now,none⟩ now limit lock) [now] older := by
  refine ⟨by simp,by simp,by simpa using spaced,?_,?_⟩
  · unfold Window.hit
    split
    · rename_i reached
      have one : limit = 1 := by simp at reached; omega
      simp [one]
    · rename_i below
      simp at below
      simp [mod_eq_of_lt below]
  · intro last reached found
    have one : limit = 1 := by simp at reached; omega
    subst one
    simp [Window.hit] at found ⊢
    subst found
    simp

section
variable (counts : Counts limit lock w current older)
include counts

theorem hit_next (positive : 0 < limit) (past : ∀ c ∈ current, c ≤ now) :
    Counts limit lock (w.hit now limit lock) (now :: current) older := by
  have small : w.failures < limit := counts.failures ▸ mod_lt _ positive
  obtain ⟨c,rest,rfl⟩ := exists_cons_of_ne_nil counts.filled
  refine ⟨by simp,pairwise_cons.mpr ⟨past,counts.ordered⟩,?_,?_,?_⟩
  · intro d member o before
    rcases mem_cons.mp member with rfl | inside
    · exact Int.le_trans (counts.spaced c mem_cons_self o before) (past c mem_cons_self)
    · exact counts.spaced d inside o before
  · have step : (c :: rest).length + 1 = (now :: c :: rest).length := rfl
    unfold Window.hit
    rw [← step,add_mod,← counts.failures]
    split
    · rename_i reached
      have full : w.failures + 1 = limit := by omega
      by_cases single : limit = 1
      · simp [single,mod_one]
      · rw [mod_eq_of_lt (show 1 < limit by omega),full]; simp
    · rename_i below; rw [mod_eq_of_lt (show 1 < limit by omega),mod_eq_of_lt (by omega)]
  · intro last reached found
    unfold Window.hit at found ⊢
    split
    · rename_i full
      simp [full] at found
      subst found
      simp
    rename_i below
    simp only [below,↓reduceIte,getElem?_cons_succ] at found
    refine counts.locks last ?_ found
    have large : limit ≤ (c :: rest).length + 1 := reached
    have counted := counts.failures
    by_contra short
    rw [mod_eq_of_lt (by omega)] at counted
    omega

theorem extend_counts (past : ∀ c ∈ current, c ≤ now) :
    Counts limit lock (w.extend now lock) current older := by
  refine {counts with locks := ?_}
  intro last reached found
  have before := past last (mem_of_getElem? found)
  exact ⟨(counts.locks last reached found).1,now + lock,rfl,by omega⟩

theorem sparse_next (sparse : Sparse limit lock times) (split : now :: times = current ++ older)
    (short : current.length ≤ limit) : Sparse limit lock (now :: times) := by
  intro t
  by_cases inside : inSpan lock t now
  · -- whatever is before the window is too old for a span that holds now
    have first : now ∈ current := by
      obtain ⟨c,rest,rfl⟩ := exists_cons_of_ne_nil counts.filled
      rw [cons_append] at split
      rw [(List.cons.inj split).1]
      exact mem_cons_self
    have apart : older.countP (inSpan lock t) = 0 := by
      rw [countP_eq_zero]
      intro o member
      have gap := counts.spaced now first o member
      simp only [inSpan,decide_eq_true_eq] at inside ⊢
      omega
    rw [split,countP_append,apart,Nat.add_zero]
    exact Nat.le_trans countP_le_length short
  · rw [countP_cons_of_neg inside]; exact sparse t

theorem full_lapsed (full : current.length = limit)
    (unlocked : w.locked now = false) : w.lapsed now lock := by
  have none : w.failures = 0 := by rw [counts.failures,full,mod_self]
  obtain ⟨c,rest,rfl⟩ := exists_cons_of_ne_nil counts.filled
  obtain ⟨start,expiry,locked,late⟩ := counts.locks c (by omega) (by simp [none])
  have free : expiry ≤ now := by simpa [Window.locked,locked] using unlocked
  simp only [Window.lapsed,unlocked,Bool.not_false,Bool.and_true,decide_eq_true_eq]
  omega

theorem add_counts (positive : 0 < limit) (past : ∀ c ∈ current, c ≤ now)
    (pause : w.lapsed now lock → ∀ t ∈ current ++ older, t + lock ≤ now) :
    ∃ next before, now :: (current ++ older) = next ++ before ∧ Counts limit lock (w.add now limit lock) next before ∧
      (w.locked now = false → current.length ≤ limit → next.length ≤ limit) := by
  unfold Window.add
  split
  · rename_i lapsed
    exact ⟨[now],current ++ older,rfl,hit_first positive (pause lapsed),fun _ _ => positive⟩
  rename_i running
  refine ⟨now :: current,older,rfl,hit_next counts positive past,?_⟩
  intro unlocked short
  by_contra long
  rw [length_cons] at long
  exact running (full_lapsed counts (by omega) unlocked)

theorem burst_locked (positive : 0 < limit) (newest : (current ++ older).head? = some last)
    (burst : limit ≤ (current ++ older).countP fun time => decide (last - lock < time)) : w.locked last := by
  obtain ⟨c,rest,rfl⟩ := exists_cons_of_ne_nil counts.filled
  have same : c = last := Option.some.inj newest
  subst same
  have apart : older.countP (fun time => decide (c - lock < time)) = 0 := by
    rw [countP_eq_zero]
    intro o member
    have gap := counts.spaced c mem_cons_self o member
    simp only [decide_eq_true_eq]
    omega
  rw [countP_append,apart,Nat.add_zero] at burst
  have long : limit ≤ (c :: rest).length := Nat.le_trans burst countP_le_length
  have small : w.failures < limit := counts.failures ▸ mod_lt _ positive
  have inside : w.failures < (c :: rest).length := by omega
  obtain ⟨_,expiry,locked,late⟩ := counts.locks _ long (getElem?_eq_getElem inside)
  have recent : c - lock < (c :: rest)[w.failures] := by
    by_contra old
    have tail : ((c :: rest).drop w.failures).countP (fun time => decide (c - lock < time)) = 0 := by
      rw [countP_eq_zero]
      intro time member
      rw [drop_eq_getElem_cons inside] at member
      have ordered := counts.ordered.drop (i := w.failures)
      rw [drop_eq_getElem_cons inside,pairwise_cons] at ordered
      simp only [decide_eq_true_eq]
      rcases mem_cons.mp member with rfl | later
      · exact old
      · have order := ordered.1 time later; omega
    have split := congrArg (List.countP fun time => decide (c - lock < time)) (take_append_drop w.failures (c :: rest))
    rw [countP_append,tail,Nat.add_zero] at split
    have few := countP_le_length (p := fun time => decide (c - lock < time)) (l := (c :: rest).take w.failures)
    rw [length_take] at few
    omega
  simp only [Window.locked,locked,Option.any_some,decide_eq_true_eq]
  omega

end

theorem follows_sparse (gated : P) (follows : Follows limit lock P window times) : Sparse limit lock times := by
  cases follows with
  | empty => intro t; exact zero_le _
  | window _ _ sparse => exact sparse gated

theorem addTo_follows (positive : 0 < limit) (follows : Follows limit lock P window times) (past : ∀ t ∈ times, t ≤ now)
    (pause : ∀ w ∈ window, w.lapsed now lock → ∀ t ∈ times, t + lock ≤ now) (unlocked : P → ∀ w ∈ window, w.locked now = false) :
    Follows limit lock P (some (addTo window now limit lock)) (now :: times) := by
  cases follows with
  | empty =>
    have counts : Counts limit lock (Window.hit ⟨0,now,none⟩ now limit lock) [now] [] := hit_first positive (by simp)
    have sparse : Sparse limit lock [now] := sparse_next counts (fun _ => zero_le _) rfl positive
    exact .window counts (fun _ => positive) (fun _ => sparse)
  | @window w current older counts short sparse =>
    obtain ⟨next,before,split,added,bound⟩ := add_counts counts positive
      (fun c member => past c (mem_append_left _ member)) (pause w rfl)
    have small (gated : P) : next.length ≤ limit := bound (unlocked gated w rfl) (short gated)
    rw [split]
    exact .window added small (fun gated => split ▸ sparse_next added (sparse gated) split (small gated))

theorem extend_follows (follows : Follows limit lock P window times) (past : ∀ t ∈ times, t ≤ now) :
    Follows limit lock P (window.map (·.extend now lock)) times := by
  cases follows with
  | empty => exact .empty
  | window counts short sparse =>
    exact .window (extend_counts counts fun c member => past c (mem_append_left _ member)) short sparse

theorem follows_burst (positive : 0 < limit) (follows : Follows limit lock P window (last :: times))
    (burst : limit ≤ (last :: times).countP fun time => decide (last - lock < time)) : lockedAt window last := by
  generalize given : last :: times = all at follows burst
  cases follows with
  | empty => cases given
  | window counts _ _ =>
    have newest := congrArg List.head? given.symm
    exact burst_locked counts positive newest burst

end FixedWindow
