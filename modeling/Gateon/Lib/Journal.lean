import Mathlib.Data.List.Basic

-- A journal of marked entries, newest first, over a snapshot.
namespace Journal

variable {K V E : Type} [DecidableEq K] {key : E → K} {mark : E → Nat} {effect : E → Option V}

def replay (key : E → K) (mark : E → Nat) (effect : E → Option V) (since : Nat) (start : V) (k : K) : List E → V
  | [] => start
  | e :: older =>
    match if key e = k ∧ since < mark e then effect e else none with
    | some v => v
    | none => replay key mark effect since start k older

theorem replay_other (other : key e ≠ k) :
    replay key mark effect since start k (e :: older) = replay key mark effect since start k older := by
  simp [replay,other]

theorem replay_silent (silent : effect e = none) :
    replay key mark effect since start k (e :: older) = replay key mark effect since start k older := by
  simp [replay,silent]

theorem replay_sets (same : key e = k) (new : since < mark e) (sets : effect e = some v) :
    replay key mark effect since start k (e :: older) = v := by
  simp [replay,same,new,sets]

theorem replay_holds {P : V → Prop} (first : P start) (each : ∀ e ∈ entries, key e = k → since < mark e → ∀ v, effect e = some v → P v) :
    P (replay key mark effect since start k entries) := by
  induction entries with
  | nil => exact first
  | cons e older ih =>
    unfold replay
    split
    · rename_i v sets
      split at sets
      · rename_i counts; exact each e (.head _) counts.1 counts.2 v sets
      · cases sets
    · exact ih fun e mem => each e (.tail _ mem)

theorem replay_start (quiet : ∀ e ∈ entries, key e = k → since < mark e → effect e = none) :
    replay key mark effect since start k entries = start := by
  refine replay_holds (P := (· = start)) rfl ?_
  intro e mem same new v sets
  rw [quiet e mem same new] at sets
  cases sets

theorem replay_after {P : V → Prop} (ordered : entries.Pairwise fun later earlier => mark earlier < mark later)
    (mem : e ∈ entries) (new : since < mark e) (sets : effect e = some v) (first : P v)
    (later : ∀ m ∈ entries, key m = key e → mark e < mark m → ∀ w, effect m = some w → P w) :
    P (replay key mark effect since start (key e) entries) := by
  induction entries with
  | nil => cases mem
  | cons m older ih =>
    obtain ⟨above,rest⟩ := List.pairwise_cons.mp ordered
    rcases List.mem_cons.mp mem with rfl | inside
    · rw [replay_sets rfl new sets]; exact first
    unfold replay
    split
    · rename_i w sets
      split at sets
      · rename_i counts; exact later m (.head _) counts.1 (above e inside) w sets
      · cases sets
    · exact ih rest inside fun m mem => later m (.tail _ mem)

end Journal
