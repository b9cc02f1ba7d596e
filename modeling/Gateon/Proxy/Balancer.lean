import Gateon.Go.Strings
import Mathlib.Data.List.Rotate
import Mathlib.Algebra.Order.Ring.Int
import Gateon.Lib.Transition
import Mathlib.Data.List.Dedup

namespace Gateon.Proxy
open Go List Transition Option Function

structure Target where
  url : GoString
  weight : Int
  deriving DecidableEq, Repr

structure TargetState where
  url : GoString
  weight : Int
  alive : Bool
  activeConn : Int
  deriving DecidableEq, Repr

def newTargetState (rawURL : GoString) (weight : Int) : TargetState := ⟨rawURL,weight,true,0⟩

def newTargetStateFromTarget : Option Target → TargetState
  | none => newTargetState [] 1
  | some target => newTargetState target.url target.weight

def ownShare (t : Option Target) : Int := t.elim 0 fun t => if 0 < t.weight then t.weight else 0

-- Their own weights once any target carries one, and 1 each when none does.
def effectiveShares (targets : List (Option Target)) : List Int :=
  if targets.any fun t => 0 < ownShare t then targets.map ownShare else targets.map fun _ => 1

def maxScheduleLen : Nat := 4096

def richest : Nat → Option (Nat × Int) → List (Nat × Int) → Option Nat
  | _,best,[] => best.map Prod.fst
  | i,best,(w,current) :: rest =>
    if 0 < w && best.all fun b => b.2 < current then richest (i+1) (some (i,current)) rest else richest (i+1) best rest

def gain (row : Nat × Int) : Nat × Int := (row.1,row.2 + row.1)

-- Each turn every target gains its weight, and the richest pays the total.
def interleave (total : Nat) : Nat → List (Nat × Int) → List Nat
  | 0,_ => []
  | turns+1,rows =>
    match richest 0 none (rows.map gain) with
    | none => []
    | some best => best :: interleave total turns ((rows.map gain).modify best fun row => (row.1,row.2 - total))

-- Empty when the cycle would be longer than maxScheduleLen.
def smoothSchedule (shares : List Int) : List Nat :=
  let g := shares.foldl (fun g s => if 0 < s then Nat.gcd g s.toNat else g) 0
  if g = 0 then []
  else
    let reduced := shares.map fun s => if 0 < s then s.toNat / g else 0
    let total := reduced.sum
    if maxScheduleLen < total then [] else interleave total total (reduced.map fun w => (w,0))

theorem richest_found (found : richest i best rows = some j) (heads : ∀ b, best = some b → b.1 < i) :
    best.map Prod.fst = some j ∨ ∃ w current, i ≤ j ∧ rows[j-i]? = some (w,current) ∧ 0 < w := by
  induction rows generalizing i best with
  | nil => exact .inl found
  | cons row rest ih =>
    obtain ⟨w,current⟩ := row
    have onward {best'} (found : richest (i+1) best' rest = some j) (heads' : ∀ b, best' = some b → b.1 < i+1) :
        best'.map Prod.fst = some j ∨ ∃ w' current', i ≤ j ∧ ((w,current) :: rest)[j-i]? = some (w',current') ∧ 0 < w' := by
      rcases ih found heads' with old | ⟨w',current',later,place,positive⟩
      · exact .inl old
      · refine .inr ⟨w',current',by omega,?_,positive⟩
        rw [show j - i = (j - (i+1)) + 1 by omega,getElem?_cons_succ,place]
    rw [richest] at found
    split at found
    · rename_i richer
      rcases onward found (fun b same => by cases same; exact Nat.lt_succ_self i) with here | later
      · cases here
        refine .inr ⟨w,current,Nat.le_refl i,by rw [Nat.sub_self]; rfl,?_⟩
        simp only [Bool.and_eq_true,decide_eq_true_eq] at richer
        exact richer.1
      · exact .inr later
    · exact onward found fun b same => Nat.lt_succ_of_lt (heads b same)

theorem interleave_weights (turns : Nat) (rows : List (Nat × Int)) (same : rows.map Prod.fst = weights) :
    ∀ i ∈ interleave total turns rows, ∃ w, weights[i]? = some w ∧ 0 < w := by
  induction turns generalizing rows with
  | zero => nofun
  | succ turns ih =>
    have gained : (rows.map gain).map Prod.fst = weights := by rw [List.map_map,← same]; rfl
    rw [interleave]
    split
    · nofun
    rename_i best found
    intro i member
    rcases mem_cons.mp member with rfl | later
    · rcases richest_found found (by simp) with none | ⟨w,current,_,place,positive⟩
      · cases none
      refine ⟨w,?_,positive⟩
      rw [Nat.sub_zero] at place
      rw [← gained,getElem?_map,place]
      rfl
    · refine ih _ ?_ i later
      rw [← gained]
      refine ext_getElem? fun k => ?_
      simp only [getElem?_map,getElem?_modify]
      cases (rows[k]?) <;> by_cases here : best = k <;> simp [here]

theorem smoothSchedule_shares (shares : List Int) : ∀ i ∈ smoothSchedule shares, ∃ share, shares[i]? = some share ∧ 0 < share := by
  intro i member
  unfold smoothSchedule at member
  dsimp only at member
  split at member
  · cases member
  split at member
  · cases member
  generalize List.foldl _ 0 shares = g at member
  have weights : ((shares.map fun s => if 0 < s then s.toNat / g else 0).map fun w => (w,(0 : Int))).map Prod.fst =
      shares.map fun s => if 0 < s then s.toNat / g else 0 := by simp [Function.comp_def]
  obtain ⟨w,place,positive⟩ := interleave_weights _ _ weights i member
  rw [getElem?_map] at place
  obtain ⟨share,there,reduced⟩ := Option.map_eq_some_iff.mp place
  refine ⟨share,there,?_⟩
  by_contra none
  rw [if_neg none] at reduced
  omega

def walk (owed : ρ → Nat) : Nat → Nat → List ρ → Option Nat
  | _,_,[] => none
  | i,k,row :: rest => if k < owed row then some i else walk owed (i+1) (k - owed row) rest

def deal (owed : ρ → Nat) (k : Nat) (rows : List ρ) : Option Nat := walk owed 0 (k % (rows.map owed).sum) rows

theorem walk_found {rows : List ρ} (i : Nat) (within : k < (rows.map owed).sum) :
    ∃ d row, walk owed i k rows = some (i+d) ∧ rows[d]? = some row ∧ 0 < owed row := by
  induction rows generalizing i k with
  | nil => simp at within
  | cons row rest ih =>
    rw [map_cons,sum_cons] at within
    rw [walk]
    by_cases here : k < owed row
    · exact ⟨0,row,by rw [if_pos here]; rfl,rfl,by omega⟩
    · obtain ⟨d,other,found,place,positive⟩ := ih (i+1) (k := k - owed row) (by omega)
      exact ⟨d+1,other,by rw [if_neg here,found]; congr 1; omega,place,positive⟩

theorem deal_found {rows : List ρ} (k : Nat) (some_owed : (rows.map owed).sum ≠ 0) :
    ∃ i row, deal owed k rows = some i ∧ rows[i]? = some row ∧ 0 < owed row := by
  obtain ⟨i,row,found,place,positive⟩ := walk_found 0 (Nat.mod_lt k (Nat.pos_of_ne_zero some_owed))
  rw [Nat.zero_add] at found
  exact ⟨i,row,found,place,positive⟩

theorem owed_zero {rows : List ρ} (none_owed : (rows.map owed).sum = 0) : ∀ row ∈ rows, owed row = 0 :=
  forall_mem_map.mp (List.sum_eq_zero_iff_forall_eq_nat.mp none_owed)

-- Every turn of the order is that of a target with a share.
structure RRSet where
  targets : List TargetState
  shares : List Int
  order : List Nat
  paired : shares.length = targets.length
  scheduled : ∀ i ∈ order, ∃ share, shares[i]? = some share ∧ 0 < share

def RRSet.rows (s : RRSet) : List (TargetState × Int) := s.targets.zip s.shares
def standbyTurn (row : TargetState × Int) : Nat := if row.2 ≤ 0 && row.1.alive then 1 else 0
def RRSet.pickStandby (s : RRSet) (k : Nat) : Option Nat := if (s.rows.map standbyTurn).sum = 0 then none else deal standbyTurn k s.rows
def liveShare (row : TargetState × Int) : Nat := if 0 < row.2 && row.1.alive then row.2.toNat else 0
def RRSet.pickLive (s : RRSet) (k : Nat) : Option Nat := if (s.rows.map liveShare).sum = 0 then s.pickStandby k else deal liveShare k s.rows

-- The counters are uint64 and wrap.
def wrap (n : Nat) : Nat := n % 2^64

structure RoundRobinLB where
  set : Option RRSet
  current : Nat
  skipped : Nat

def RoundRobinLB.nextState (lb : RoundRobinLB) : Option Nat × RoundRobinLB :=
  match lb.set with
  | none => (none,lb)
  | some set =>
    if set.targets = [] then (none,lb)
    else
      let n := lb.current
      let lb := {lb with current := wrap (n+1)}
      match set.order[n % set.order.length]? with
      | none => (set.pickLive n,lb)
      | some turn =>
        if (set.targets[turn]?).any fun t => t.alive then (some turn,lb)
        else (set.pickLive lb.skipped,{lb with skipped := wrap (lb.skipped+1)})

theorem effectiveShares_length (targets : List (Option Target)) : (effectiveShares targets).length = targets.length := by
  unfold effectiveShares
  split <;> exact length_map ..

def RoundRobinLB.updateWeightedTargets (targets : List (Option Target)) (lb : RoundRobinLB) : RoundRobinLB :=
  {lb with set := some ⟨targets.map newTargetStateFromTarget,effectiveShares targets,smoothSchedule (effectiveShares targets),
    by rw [effectiveShares_length,length_map],smoothSchedule_shares _⟩}

def markFirst (url : GoString) (alive : Bool) : List TargetState → List TargetState
  | [] => []
  | t :: rest => if t.url = url then {t with alive := alive} :: rest else t :: markFirst url alive rest

theorem markFirst_length (url : GoString) (alive : Bool) (targets : List TargetState) : (markFirst url alive targets).length = targets.length := by
  induction targets with
  | nil => rfl
  | cons t rest ih =>
    rw [markFirst]
    split
    · rfl
    · rw [length_cons,ih,length_cons]

def RRSet.withTargets (s : RRSet) (targets : List TargetState) (same : targets.length = s.targets.length) : RRSet :=
  ⟨targets,s.shares,s.order,by rw [s.paired,same],s.scheduled⟩
def RoundRobinLB.setAlive (url : GoString) (alive : Bool) (lb : RoundRobinLB) : RoundRobinLB :=
  {lb with set := lb.set.map fun s => s.withTargets (markFirst url alive s.targets) (markFirst_length ..)}
def RoundRobinLB.states (lb : RoundRobinLB) : List TargetState := lb.set.elim [] RRSet.targets
def serving (i : Nat) (n : Int) (targets : List TargetState) : List TargetState := targets.modify i fun t => {t with activeConn := n}
def RoundRobinLB.serve (i : Nat) (n : Int) (lb : RoundRobinLB) : RoundRobinLB :=
  {lb with set := lb.set.map fun s => s.withTargets (serving i n s.targets) (length_modify ..)}

structure LeastConnLB where
  targets : Option (List TargetState)
  ties : Nat
  deriving DecidableEq, Repr

def fewer (best : Option (TargetState × Nat)) (row : TargetState × Nat) : Option (TargetState × Nat) :=
  if !row.1.alive then best
  else if best.all fun b => row.1.activeConn < b.1.activeConn then some row else best

-- The scan starts where the ties rotated to.
def LeastConnLB.nextState (lb : LeastConnLB) : Option Nat × LeastConnLB :=
  match lb.targets with
  | none => (none,lb)
  | some targets =>
    if targets = [] then (none,lb)
    else (((targets.zipIdx.rotate (lb.ties % targets.length)).foldl fewer none).map Prod.snd,{lb with ties := wrap (lb.ties+1)})

def LeastConnLB.updateWeightedTargets (targets : List (Option Target)) (lb : LeastConnLB) : LeastConnLB :=
  {lb with targets := some (targets.map newTargetStateFromTarget)}
def LeastConnLB.setAlive (url : GoString) (alive : Bool) (lb : LeastConnLB) : LeastConnLB :=
  {lb with targets := lb.targets.map (markFirst url alive)}
def LeastConnLB.serve (i : Nat) (n : Int) (lb : LeastConnLB) : LeastConnLB := {lb with targets := lb.targets.map (serving i n)}
def LeastConnLB.states (lb : LeastConnLB) : List TargetState := lb.targets.getD []

-- Of a policy that reads no weights: one weight for all, none negative.
def validateWeights (targets : List (Option Target)) : Bool :=
  let weights := targets.map fun t => t.elim 0 Target.weight
  weights.all (fun w => 0 ≤ w) && (weights.dedup.length ≤ 1)

structure LoadBalancer (S : Type) where
  states : S → List TargetState
  setAlive : GoString → Bool → S → S
  updateWeightedTargets : List (Option Target) → S → S
  serve : Nat → Int → S → S
  nextState : S → Option Nat × S

structure Lawful (lb : LoadBalancer S) : Prop where
  marks : ∀ s url alive, lb.states (lb.setAlive url alive s) = markFirst url alive (lb.states s)
  replaces : ∀ s targets, lb.states (lb.updateWeightedTargets targets s) = targets.map newTargetStateFromTarget
  serves : ∀ s i n, lb.states (lb.serve i n s) = serving i n (lb.states s)
  keeps : ∀ s, lb.states (lb.nextState s).2 = lb.states s
  picks : ∀ s i, (lb.nextState s).1 = some i → ∃ t, (lb.states s)[i]? = some t ∧ t.alive
  finds : ∀ s, (lb.nextState s).1 = none → ∀ t ∈ lb.states s, t.alive = false

def roundRobin : LoadBalancer RoundRobinLB where
  states := RoundRobinLB.states
  setAlive := RoundRobinLB.setAlive
  updateWeightedTargets := RoundRobinLB.updateWeightedTargets
  serve := RoundRobinLB.serve
  nextState := RoundRobinLB.nextState

def leastConn : LoadBalancer LeastConnLB where
  states := LeastConnLB.states
  setAlive := LeastConnLB.setAlive
  updateWeightedTargets := LeastConnLB.updateWeightedTargets
  serve := LeastConnLB.serve
  nextState := LeastConnLB.nextState

theorem RRSet.row_place (s : RRSet) {i : Nat} : s.rows[i]? = some (t,share) ↔ s.targets[i]? = some t ∧ s.shares[i]? = some share :=
  getElem?_zip_eq_some

theorem RRSet.target_row (s : RRSet) {i : Nat} (place : s.targets[i]? = some t) : ∃ share, s.rows[i]? = some (t,share) := by
  have inside := (List.getElem?_eq_some_iff.mp place).1
  rw [← s.paired] at inside
  exact ⟨s.shares[i],s.row_place.mpr ⟨place,getElem?_eq_getElem inside⟩⟩

theorem RRSet.pickLive_picks (s : RRSet) (k : Nat) (picked : s.pickLive k = some i) :
    ∃ t share, s.rows[i]? = some (t,share) ∧ t.alive ∧ (share ≤ 0 → ∀ row ∈ s.rows, liveShare row = 0) := by
  unfold RRSet.pickLive at picked
  split at picked
  · rename_i noShare
    obtain ⟨standby,picked⟩ := ite_none_left_eq_some.mp picked
    obtain ⟨j,⟨t,share⟩,found,place,positive⟩ := deal_found k standby
    rw [picked] at found
    cases found
    refine ⟨t,share,place,?_,fun _ => owed_zero noShare⟩
    unfold standbyTurn at positive
    grind
  · rename_i live
    obtain ⟨j,⟨t,share⟩,found,place,positive⟩ := deal_found k live
    rw [picked] at found
    cases found
    unfold liveShare at positive
    refine ⟨t,share,place,?_,?_⟩ <;> grind

theorem RRSet.pickLive_none (s : RRSet) (k : Nat) (picked : s.pickLive k = none) : ∀ row ∈ s.rows, row.1.alive = false := by
  unfold RRSet.pickLive at picked
  split at picked
  · rename_i noShare
    unfold RRSet.pickStandby at picked
    split at picked
    · rename_i noStandby
      intro row member
      have share := owed_zero noShare row member
      have standby := owed_zero noStandby row member
      unfold liveShare at share
      unfold standbyTurn at standby
      grind
    · rename_i standby
      obtain ⟨j,row,found,_⟩ := deal_found k standby
      rw [picked] at found
      cases found
  · rename_i live
    obtain ⟨j,row,found,_⟩ := deal_found k live
    rw [picked] at found
    cases found

def RRSet.Serves (s : RRSet) (i : Nat) : Prop :=
  ∃ t share, s.rows[i]? = some (t,share) ∧ t.alive ∧ (share ≤ 0 → ∀ row ∈ s.rows, liveShare row = 0)

namespace RoundRobinLB
variable (lb : RoundRobinLB)

theorem nextState_picks (picked : lb.nextState.1 = some i) : ∃ s, lb.set = some s ∧ s.Serves i := by
  unfold nextState at picked
  cases held : lb.set with
  | none => rw [held] at picked; cases picked
  | some s =>
    refine ⟨s,rfl,?_⟩
    rw [held] at picked
    dsimp only at picked
    split at picked
    · cases picked
    split at picked
    · exact s.pickLive_picks _ picked
    rename_i turn scheduled
    split at picked
    · rename_i alive
      cases picked
      obtain ⟨share,there,positive⟩ := s.scheduled _ (mem_of_getElem? scheduled)
      cases place : s.targets[i]? with
      | none => simp [place] at alive
      | some t =>
        rw [place] at alive
        exact ⟨t,share,s.row_place.mpr ⟨place,there⟩,alive,fun standby => absurd positive (Int.not_lt.mpr standby)⟩
    · exact s.pickLive_picks _ picked

theorem nextState_none (picked : lb.nextState.1 = none) : ∀ t ∈ lb.states, t.alive = false := by
  unfold nextState at picked
  unfold states
  cases held : lb.set with
  | none => simp
  | some s =>
    rw [held] at picked
    dsimp only at picked
    have dead {k} (picked : s.pickLive k = none) : ∀ t ∈ s.targets, t.alive = false := by
      intro t member
      obtain ⟨i,place⟩ := mem_iff_getElem?.mp member
      obtain ⟨share,row⟩ := s.target_row place
      exact s.pickLive_none k picked _ (mem_of_getElem? row)
    split at picked
    · rename_i empty; simp [empty]
    split at picked
    · exact dead picked
    · split at picked
      · cases picked
      · exact dead picked

theorem states_setAlive : (lb.setAlive url alive).states = markFirst url alive lb.states := by
  unfold states setAlive
  cases lb.set <;> rfl

theorem states_serve : (lb.serve i n).states = serving i n lb.states := by
  unfold states serve
  cases lb.set with
  | none => simp [serving]
  | some s => rfl

theorem nextState_set : lb.nextState.2.set = lb.set := by
  unfold nextState
  split
  · rfl
  split
  · rfl
  dsimp only
  split
  · rfl
  · split <;> rfl

end RoundRobinLB

theorem roundRobin_lawful : Lawful roundRobin where
  marks lb url alive := lb.states_setAlive
  replaces lb targets := rfl
  serves lb i n := lb.states_serve
  keeps lb := congrArg (Option.elim · [] RRSet.targets) lb.nextState_set
  picks lb i picked := by
    obtain ⟨s,held,t,share,row,alive,_⟩ := lb.nextState_picks picked
    refine ⟨t,?_,alive⟩
    show (lb.set.elim [] RRSet.targets)[i]? = some t
    rw [held]
    exact (s.row_place.mp row).1
  finds lb picked := lb.nextState_none picked

section
variable (rows : List (TargetState × Nat)) (best : Option (TargetState × Nat))

theorem fewer_live (found : rows.foldl fewer best = some row) : best = some row ∨ (row ∈ rows ∧ row.1.alive) := by
  induction rows generalizing best with
  | nil => exact .inl found
  | cons first rest ih =>
    rw [foldl_cons] at found
    rcases ih _ found with taken | ⟨later,alive⟩
    · unfold fewer at taken
      split at taken
      · exact .inl taken
      rename_i live
      split at taken
      · cases taken; exact .inr ⟨mem_cons_self ..,by simpa using live⟩
      · exact .inl taken
    · exact .inr ⟨mem_cons_of_mem _ later,alive⟩

theorem fewer_none (found : rows.foldl fewer best = none) : best = none ∧ ∀ row ∈ rows, row.1.alive = false := by
  induction rows generalizing best with
  | nil => exact ⟨found,by simp⟩
  | cons first rest ih =>
    rw [foldl_cons] at found
    obtain ⟨taken,later⟩ := ih _ found
    unfold fewer at taken
    split at taken
    · rename_i dead
      exact ⟨taken,forall_mem_cons.mpr ⟨by simpa using dead,later⟩⟩
    split at taken
    · cases taken
    · rename_i _ kept
      rw [taken] at kept
      exact absurd rfl kept

end

namespace LeastConnLB
variable (lb : LeastConnLB)

theorem states_setAlive : (lb.setAlive url alive).states = markFirst url alive lb.states := by
  unfold states setAlive
  cases lb.targets <;> rfl

theorem states_serve : (lb.serve i n).states = serving i n lb.states := by
  unfold states serve
  cases lb.targets with
  | none => simp [serving]
  | some targets => rfl

theorem nextState_targets : lb.nextState.2.targets = lb.targets := by
  unfold nextState
  split
  · rfl
  · split <;> rfl

theorem nextState_picks (picked : lb.nextState.1 = some i) : ∃ t, lb.states[i]? = some t ∧ t.alive := by
  unfold nextState at picked
  unfold states
  cases held : lb.targets with
  | none => rw [held] at picked; cases picked
  | some targets =>
    rw [held] at picked
    dsimp only at picked
    split at picked
    · cases picked
    obtain ⟨⟨t,j⟩,found,rfl⟩ := map_eq_some_iff.mp picked
    rcases fewer_live _ _ found with none | ⟨member,alive⟩
    · cases none
    · rw [mem_rotate,mem_zipIdx_iff_getElem?] at member; exact ⟨t,member,alive⟩

theorem nextState_none (picked : lb.nextState.1 = none) : ∀ t ∈ lb.states, t.alive = false := by
  unfold nextState at picked
  unfold states
  cases held : lb.targets with
  | none => simp
  | some targets =>
    rw [held] at picked
    dsimp only at picked
    split at picked
    · rename_i empty; simp [empty]
    intro t member
    obtain ⟨i,place⟩ := mem_iff_getElem?.mp member
    refine (fewer_none _ _ (map_eq_none_iff.mp picked)).2 (t,i) ?_
    rw [mem_rotate,mem_zipIdx_iff_getElem?]
    exact place

end LeastConnLB

theorem leastConn_lawful : Lawful leastConn where
  marks lb _ _ := lb.states_setAlive
  replaces _ _ := rfl
  serves lb _ _ := lb.states_serve
  keeps lb := congrArg (Option.getD · []) lb.nextState_targets
  picks lb _ picked := lb.nextState_picks picked
  finds lb picked := lb.nextState_none picked

structure Watched (S : Type) where
  state : S
  shares : List Int
  last : GoString → Option Bool

inductive Event where
  | setAlive (url : GoString) (alive : Bool)
  | update (targets : List (Option Target))
  | serve (i : Nat) (n : Int)
  | next

section
variable (lb : LoadBalancer S) (w : Watched S)

def step : Event → Option (Watched S)
  | .setAlive url alive => some {w with state := lb.setAlive url alive w.state,last := update w.last url (some alive)}
  | .update targets => some ⟨lb.updateWeightedTargets targets w.state,effectiveShares targets,fun _ => none⟩
  | .serve i n => some {w with state := lb.serve i n w.state}
  | .next => some {w with state := (lb.nextState w.state).2}

def started (s : S) : Watched S := ⟨s,[],fun _ => none⟩
def NoneDown : Prop :=
  ∀ i, (lb.nextState w.state).1 = some i → ∃ t, (lb.states w.state)[i]? = some t ∧ w.last t.url ≠ some false
def NilWhenDead : Prop := (lb.nextState w.state).1 = none → ∀ t ∈ lb.states w.state, t.alive = false

def StandbyLast : Prop :=
  ∀ i share, (lb.nextState w.state).1 = some i → w.shares[i]? = some share → share ≤ 0 →
    ∀ (j : Nat) (t : TargetState) (other : Int), (lb.states w.state)[j]? = some t → w.shares[j]? = some other → 0 < other → t.alive = false

def Reported : Prop := ∀ t ∈ lb.states w.state, t.alive ↔ w.last t.url ≠ some false
def listed (url : GoString) (targets : List TargetState) : Nat := (targets.map TargetState.url).count url

def ReportedOnce : Event → Prop
  | .setAlive url alive => alive ∨ listed url (lb.states w.state) ≤ 1
  | _ => True

end

instance (lb : LoadBalancer S) (w : Watched S) : (e : Event) → Decidable (ReportedOnce lb w e) := by
  intros
  unfold ReportedOnce
  split <;> infer_instance

theorem listed_markFirst (url other : GoString) (alive : Bool) (targets : List TargetState) :
    listed other (markFirst url alive targets) = listed other targets := by
  have urls : (markFirst url alive targets).map TargetState.url = targets.map TargetState.url := by
    induction targets with
    | nil => rfl
    | cons t rest ih =>
      rw [markFirst]
      split
      · rfl
      · rw [map_cons,ih,map_cons]
  unfold listed
  rw [urls]

theorem serving_flags (i : Nat) (n : Int) (targets : List TargetState) :
    (serving i n targets).map (fun t => (t.url,t.alive)) = targets.map fun t => (t.url,t.alive) := by
  refine ext_getElem? fun k => ?_
  simp only [serving,getElem?_map,getElem?_modify]
  cases targets[k]? <;> by_cases here : i = k <;> simp [here]

theorem listed_flags (same : other.map (fun t => (t.url,t.alive)) = targets.map fun t => (t.url,t.alive))
    (url : GoString) : listed url other = listed url targets := by
  have urls : other.map TargetState.url = targets.map TargetState.url := by
    have := congrArg (List.map Prod.fst) same
    simpa [comp_def] using this
  unfold listed
  rw [urls]

theorem markFirst_reported {last : GoString → Option Bool} (targets : List TargetState)
    (reported : ∀ t ∈ targets, t.alive ↔ last t.url ≠ some false)
    (once : alive = false ∨ last url = some false → listed url targets ≤ 1) :
    ∀ t ∈ markFirst url alive targets, t.alive ↔ update last url (some alive) t.url ≠ some false := by
  induction targets with
  | nil => simp [markFirst]
  | cons first rest ih =>
    have count : listed url (first :: rest) = listed url rest + if first.url = url then 1 else 0 := by
      simp [listed,count_cons]
    rw [markFirst]
    split
    · rename_i here
      rw [if_pos here] at count
      intro t member
      rcases mem_cons.mp member with rfl | later
      · simp [here]
      have flag := reported t (mem_cons_of_mem _ later)
      by_cases same : t.url = url
      · -- A second entry with the address: nothing was reported down.
        have again : 0 < listed url rest := count_pos_iff.mpr (List.mem_map.mpr ⟨t,later,same⟩)
        have fine : ¬ (alive = false ∨ last url = some false) := fun down => by
          have := once down
          omega
        rw [not_or] at fine
        rw [same] at flag ⊢
        rw [update_self,flag]
        exact ⟨fun _ => by simpa using fine.1,fun _ => fine.2⟩
      · rwa [update_of_ne same]
    · rename_i apart
      rw [if_neg apart,Nat.add_zero] at count
      intro t member
      rcases mem_cons.mp member with rfl | later
      · rw [update_of_ne apart]; exact reported t (mem_cons_self ..)
      · exact ih (forall_mem_cons.mp reported).2 (fun down => count ▸ once down) t later

structure Inv (lb : LoadBalancer S) (w : Watched S) : Prop where
  reported : Reported lb w
  once : ∀ url, w.last url = some false → listed url (lb.states w.state) ≤ 1

theorem step_inv (lawful : Lawful lb) (inv : Inv lb w) (careful : ReportedOnce lb w e) (ran : step lb w e = some w') : Inv lb w' := by
  cases e with
  | setAlive url alive =>
    cases ran
    refine ⟨?_,?_⟩
    · unfold Reported
      rw [lawful.marks]
      refine markFirst_reported _ inv.reported ?_
      rintro (rfl | down)
      · exact careful.resolve_left (by simp)
      · exact inv.once url down
    · intro other down
      dsimp only at down ⊢
      rw [lawful.marks,listed_markFirst]
      by_cases same : other = url
      · subst same
        rw [update_self] at down
        cases down
        exact careful.resolve_left (by simp)
      · rw [update_of_ne same] at down; exact inv.once other down
  | update targets =>
    cases ran
    refine ⟨?_,nofun⟩
    intro t member
    rw [lawful.replaces] at member
    obtain ⟨target,_,rfl⟩ := List.mem_map.mp member
    cases target <;> simp [newTargetStateFromTarget,newTargetState]
  | serve i n =>
    cases ran
    have flags := serving_flags i n (lb.states w.state)
    rw [← lawful.serves] at flags
    refine ⟨?_,fun url down => ?_⟩
    · intro t member
      have pair : (t.url,t.alive) ∈ (lb.states w.state).map fun t => (t.url,t.alive) := flags ▸ List.mem_map_of_mem member
      obtain ⟨other,inside,same⟩ := List.mem_map.mp pair
      obtain ⟨url,alive⟩ := Prod.mk.inj same
      rw [← url,← alive]
      exact inv.reported other inside
    · exact (listed_flags flags url).trans_le (inv.once url down)
  | next =>
    cases ran
    refine ⟨?_,?_⟩
    · unfold Reported
      rw [lawful.keeps]
      exact inv.reported
    · dsimp only
      rw [lawful.keeps]
      exact inv.once

theorem reached_inv {allowed : Watched S → Event → Prop} (lawful : Lawful lb) (fresh : lb.states s = [])
    (once : ∀ w e, allowed w e → ReportedOnce lb w e) (path : Reached (step lb) allowed (started s) w) : Inv lb w := by
  refine reached_invariant (Inv lb) ⟨?_,fun url down => by cases down⟩ ?_ path
  · intro t member
    rw [started,fresh] at member
    cases member
  · intro w e w' inv careful ran; exact step_inv lawful inv (once w e careful) ran

theorem noneDown (lawful : Lawful lb) (inv : Inv lb w) : NoneDown lb w := by
  intro i picked
  obtain ⟨t,place,alive⟩ := lawful.picks _ i picked
  exact ⟨t,place,(inv.reported t (mem_of_getElem? place)).mp alive⟩

section
variable {allowed : Watched RoundRobinLB → Event → Prop} (path : Reached (step roundRobin) allowed (started ⟨none,0,0⟩) w)
include path

theorem roundRobin_shares : ∀ s, w.state.set = some s → s.shares = w.shares := by
  refine reached_invariant (fun w : Watched RoundRobinLB => ∀ s, w.state.set = some s → s.shares = w.shares) (fun s held => by cases held) ?_ path
  intro w e w' same _ ran s held
  cases e with
  | setAlive url alive =>
    cases ran
    obtain ⟨before,there,rfl⟩ := map_eq_some_iff.mp held
    exact same before there
  | update targets =>
    cases ran
    cases held
    rfl
  | serve i n =>
    cases ran
    obtain ⟨before,there,rfl⟩ := map_eq_some_iff.mp held
    exact same before there
  | next => cases ran; exact same s (w.state.nextState_set ▸ held)

theorem roundRobin_standby : StandbyLast roundRobin w := by
  intro i share picked mine standby j t other place theirs positive
  obtain ⟨s,held,t',share',row,_,last⟩ := w.state.nextState_picks picked
  have same := roundRobin_shares path s held
  rw [← same] at mine theirs
  have shared := (s.row_place.mp row).2
  rw [mine] at shared
  cases shared
  have place : s.targets[j]? = some t := by
    have states : roundRobin.states w.state = s.targets := congrArg (Option.elim · [] RRSet.targets) held
    rwa [states] at place
  have dead := last standby (t,other) (mem_of_getElem? (s.row_place.mpr ⟨place,theirs⟩))
  unfold liveShare at dead
  grind

end

def OneWeight : Event → Prop
  | .update targets => validateWeights targets
  | _ => True

instance : (e : Event) → Decidable (OneWeight e)
  | .update targets => inferInstanceAs (Decidable (validateWeights targets = true))
  | .setAlive .. => .isTrue trivial
  | .serve .. => .isTrue trivial
  | .next => .isTrue trivial

theorem validateWeights_same (valid : validateWeights targets) (one : a ∈ targets) (two : b ∈ targets) :
    a.elim 0 Target.weight = b.elim 0 Target.weight := by
  simp only [validateWeights,Bool.and_eq_true,decide_eq_true_eq] at valid
  obtain ⟨_,single⟩ := valid
  have first := mem_dedup.mpr (List.mem_map_of_mem (f := fun t => Option.elim t 0 Target.weight) one)
  have second := mem_dedup.mpr (List.mem_map_of_mem (f := fun t => Option.elim t 0 Target.weight) two)
  generalize (targets.map fun t => Option.elim t 0 Target.weight).dedup = weights at single first second
  rcases weights with _ | ⟨w,_ | ⟨v,rest⟩⟩
  · cases first
  · rw [mem_singleton.mp first,mem_singleton.mp second]
  · simp at single

theorem ownShare_weight (t : Option Target) : 0 < ownShare t ↔ 0 < t.elim 0 Target.weight := by
  cases t with
  | none => simp [ownShare]
  | some t => simp only [ownShare,elim_some]; split <;> omega

theorem effectiveShares_positive (targets : List (Option Target)) (valid : validateWeights targets) :
    ∀ share ∈ effectiveShares targets, 0 < share := by
  intro share member
  unfold effectiveShares at member
  split at member
  · rename_i weighted
    obtain ⟨one,inside,positive⟩ := List.any_eq_true.mp weighted
    obtain ⟨t,there,rfl⟩ := List.mem_map.mp member
    rw [ownShare_weight,validateWeights_same valid there inside,← ownShare_weight]
    exact of_decide_eq_true positive
  · obtain ⟨_,_,rfl⟩ := List.mem_map.mp member; exact Int.one_pos

theorem leastConn_shares (path : Reached (step leastConn) (fun w e => ReportedOnce leastConn w e ∧ OneWeight e) (started ⟨none,0⟩) w) :
    ∀ share ∈ w.shares, 0 < share := by
  refine reached_invariant (fun w : Watched LeastConnLB => ∀ share ∈ w.shares, 0 < share) (by simp [started]) ?_ path
  intro w e w' positive careful ran
  cases e with
  | update targets => cases ran; exact effectiveShares_positive targets careful.2
  | setAlive url alive | serve i n | next => cases ran; exact positive

theorem no_traffic_down (w : Watched RoundRobinLB) (v : Watched LeastConnLB) :
    (Reached (step roundRobin) (ReportedOnce roundRobin) (started ⟨none,0,0⟩) w →
      NoneDown roundRobin w ∧ Reported roundRobin w ∧ NilWhenDead roundRobin w ∧ StandbyLast roundRobin w) ∧
    (Reached (step leastConn) (fun w e => ReportedOnce leastConn w e ∧ OneWeight e) (started ⟨none,0⟩) v →
      NoneDown leastConn v ∧ Reported leastConn v ∧ NilWhenDead leastConn v ∧ StandbyLast leastConn v) ∧
    (Reached (step roundRobin) (fun _ _ => True) (started ⟨none,0,0⟩) w → NilWhenDead roundRobin w ∧ StandbyLast roundRobin w) ∧
    (Reached (step leastConn) (fun _ _ => True) (started ⟨none,0⟩) v → NilWhenDead leastConn v) := by
  refine ⟨fun path => ?_,fun path => ?_,fun path => ⟨roundRobin_lawful.finds _,roundRobin_standby path⟩,fun _ => leastConn_lawful.finds _⟩
  · have inv := reached_inv roundRobin_lawful rfl (fun _ _ careful => careful) path
    exact ⟨noneDown roundRobin_lawful inv,inv.reported,roundRobin_lawful.finds _,roundRobin_standby path⟩
  have inv := reached_inv leastConn_lawful rfl (fun _ _ careful => careful.1) path
  refine ⟨noneDown leastConn_lawful inv,inv.reported,leastConn_lawful.finds _,?_⟩
  intro i share _ mine standby
  have := leastConn_shares path share (mem_of_getElem? mine)
  omega

theorem no_traffic_down_failover : ∃ w, Reached (step roundRobin) (ReportedOnce roundRobin) (started ⟨none,0,0⟩) w ∧
    (roundRobin.nextState w.state).1 = some 1 ∧ NoneDown roundRobin w := by
  exact reached_by [.update [some ⟨lit "a",3⟩,some ⟨lit "b",0⟩],.setAlive (lit "a") false] (by decide +kernel)
    fun w path => ((no_traffic_down w (started ⟨none,0⟩)).1 path).1

-- One backend listed twice: the report reaches its first entry, and the second is served.
theorem second_entry_served :
    ((run (step roundRobin) (started ⟨none,0,0⟩) [.update [some ⟨lit "a",1⟩,some ⟨lit "a",1⟩],.setAlive (lit "a") false]).map fun w =>
      ((roundRobin.nextState w.state).1.bind fun i => (roundRobin.states w.state)[i]?).map fun t => (t.url,w.last t.url)) =
        some (some (lit "a",some false)) ∧
    ((run (step leastConn) (started ⟨none,0⟩) [.update [some ⟨lit "a",1⟩,some ⟨lit "a",1⟩],.setAlive (lit "a") false]).map fun w =>
      ((leastConn.nextState w.state).1.bind fun i => (leastConn.states w.state)[i]?).map fun t => (t.url,w.last t.url)) =
        some (some (lit "a",some false)) := by
  decide +kernel

end Gateon.Proxy
