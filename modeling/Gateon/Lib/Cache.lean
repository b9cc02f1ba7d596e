import Mathlib.Data.List.Basic

-- A cache that forgets as it likes, but returns only what was put under the key.
namespace Forgetful
open List

structure Cache (K V : Type) where
  State : Type
  empty : State
  get : State → K → Option V × State
  add : State → K → V → State
  Holds : State → K → V → Prop
  empty_holds : ¬ Holds empty k v
  get_holds : (get s k).1 = some v → Holds s k v
  get_keeps : Holds (get s k).2 k' v' → Holds s k' v'
  add_keeps : Holds (add s k v) k' v' → k' = k ∧ v' = v ∨ Holds s k' v'

variable {K V : Type}

theorem Cache.get_empty (c : Cache K V) (k : K) : (c.get c.empty k).1 = none := by
  cases found : (c.get c.empty k).1 with
  | none => rfl
  | some v => exact absurd (c.get_holds found) c.empty_holds

variable [DecidableEq K]

def recent (capacity : Nat) : Cache K V where
  State := List (K × V)
  empty := []
  get := fun s k => (s.lookup k,s)
  add := fun s k v => ((k,v) :: s).take capacity
  Holds := fun s k v => (k,v) ∈ s
  empty_holds := not_mem_nil
  get_holds := by
    intro s k v found
    obtain ⟨before,after,rfl,_⟩ := lookup_eq_some_iff.mp found
    simp
  get_keeps := id
  add_keeps := by
    intro s k v k' v' held
    rcases mem_cons.mp (mem_of_mem_take held) with same | earlier
    · exact .inl ⟨congrArg Prod.fst same,congrArg Prod.snd same⟩
    · exact .inr earlier

structure Expiring (K V : Type) where
  State : Type
  empty : State
  get : State → Nat → K → Option V × State
  set : State → Nat → K → V → Nat → State
  kept : V → V
  Holds : State → K → V → Nat → Prop
  empty_holds : ¬ Holds empty k v u
  get_holds : (get s now k).1 = some v → ∃ u, Holds s k v u ∧ now ≤ u
  get_keeps : Holds (get s now k).2 k' v' u → Holds s k' v' u
  set_keeps : Holds (set s now k v ttl) k' v' u → k' = k ∧ v' = kept v ∧ u = now + ttl ∨ Holds s k' v' u

end Forgetful
