import Gateon.Lib.Transition
import Mathlib.Algebra.Order.Ring.Int

namespace Gateon.PerSecond
open Transition Function List

def countMask : Nat := 2^24-1
def window (word : Nat) : Nat := word/2^24
def count (word : Nat) : Nat := word%2^24

-- Of a Duration since the epoch, in nanoseconds: it fits above the count.
def windowOf (d : Int) : Nat := (min d (2^63-1)/10^9).toNat

-- The word Allow swaps in for the one it loaded.
def admits (limit w old : Nat) : Option Nat :=
  if window old < w then some (w*2^24+1) else if min limit countMask ≤ count old then none else some (old+1)

-- The calls that have loaded the word, and the windows of the events admitted, the latest first.
structure State where
  word : Nat
  calls : Nat → Option (Nat × Nat)
  admitted : List Nat

inductive Event where
  | load (call : Nat) (now : Int)
  | swap (call : Nat)

-- A call whose swap fails loads again.
def step (limit : Nat) (s : State) : Event → Option State
  | .load call now => some {s with calls := update s.calls call (some (windowOf now,s.word))}
  | .swap call => (s.calls call).map fun (w,old) =>
    match admits limit w old,decide (s.word = old) with
    | some new,true => ⟨new,update s.calls call none,window new :: s.admitted⟩
    | _,_ => {s with calls := update s.calls call none}

structure Inv (limit : Nat) (s : State) : Prop where
  counted : s.admitted.count (window s.word) = count s.word
  behind : ∀ v ∈ s.admitted, v ≤ window s.word
  ordered : s.admitted.Pairwise (· ≥ ·)
  capped : ∀ v, s.admitted.count v ≤ min limit countMask

theorem Inv.admits (pos : 0 < limit) (h : Inv limit s) (swaps : admits limit w s.word = some new) :
    window s.word ≤ window new ∧ s.admitted.count (window new)+1 = count new ∧ count new ≤ min limit countMask := by
  unfold PerSecond.admits at swaps
  split at swaps
  · rename_i later
    cases swaps
    have none : s.admitted.count w = 0 := count_eq_zero.mpr fun held => Nat.not_lt.mpr (h.behind w held) later
    have named : window (w*2^24+1) = w := by unfold window; omega
    rw [named,none]
    unfold count countMask
    omega
  · split at swaps
    · cases swaps
    cases swaps
    have named : window (s.word+1) = window s.word := by unfold window count countMask at *; omega
    rw [named,h.counted]
    unfold count countMask at *
    omega

theorem step_inv (pos : 0 < limit) (h : Inv limit s) (ran : step limit s e = some t) : Inv limit t := by
  cases e with
  | load call now => cases ran; exact {h with}
  | swap call =>
    obtain ⟨⟨w,old⟩,_,rfl⟩ := Option.map_eq_some_iff.mp ran
    dsimp only
    split
    · rename_i new swaps same
      cases of_decide_eq_true same
      obtain ⟨forward,counts,room⟩ := h.admits pos swaps
      have behind : ∀ v ∈ s.admitted, v ≤ window new := fun v held => Nat.le_trans (h.behind v held) forward
      refine ⟨count_cons_self.trans counts,forall_mem_cons.mpr ⟨Nat.le_refl _,behind⟩,pairwise_cons.mpr ⟨behind,h.ordered⟩,?_⟩
      intro v
      by_cases own : window new = v
      · rw [← own,count_cons_self,counts]; exact room
      · rw [count_cons_of_ne own]; exact h.capped v
    · exact {h with}

-- All loads and swaps in any order.
theorem allow_capped (limit : Nat) (pos : 0 < limit) (s : State) (path : Reached (step limit) (fun _ _ => True) ⟨0,fun _ => none,[]⟩ s) :
    s.admitted.Pairwise (· ≥ ·) ∧ ∀ v, s.admitted.count v ≤ min limit countMask := by
  have h := reached_invariant (Inv limit) ⟨rfl,by simp,.nil,by simp⟩ (fun h _ ran => step_inv pos h ran) path
  exact ⟨h.ordered,h.capped⟩

-- Two calls race, one loads again, a third is refused.
theorem allow_capped_race : ∃ s, Reached (step 2) (fun _ _ => True) ⟨0,fun _ => none,[]⟩ s ∧ s.admitted = [1,1] ∧
    s.admitted.count 1 ≤ min 2 countMask :=
  reached_by [.load 0 (10^9),.load 1 (10^9),.swap 0,.swap 1,.load 1 (10^9),.swap 1,.load 2 0,.swap 2] rfl
    fun s path => (allow_capped 2 (by decide) s path).2 1

end Gateon.PerSecond
