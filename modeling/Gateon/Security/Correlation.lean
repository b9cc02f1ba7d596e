import Gateon.Go.Time
import Gateon.Lib.SlidingWindow
import Gateon.Lib.Transition
import Gateon.Go.Strings
import Gateon.Lib.KeyedStore
import Mathlib.Algebra.Order.Ring.Int
import Mathlib.Data.List.Dedup

namespace Gateon.Correlation
open Go KeyedStore SlidingWindow Transition
open List hiding after length_filter_le mem_filter


structure Signal (F : Type) where
  type : GoString
  sourceIP : GoString
  fingerprint : GoString
  ja4 : GoString
  score : F
  severity : GoString
  countryCode : GoString
  time : Int

structure Incident (F : Type) where
  sourceKey : GoString
  sourceIP : GoString
  sourceIPs : List GoString
  fingerprint : GoString
  ja4 : GoString
  firstSeen : Int
  lastSeen : Int
  severity : GoString
  score : F
  signalCount : Nat
  signalTypes : List GoString
  countries : List GoString

-- Floating-point scores: their sum, and whether a sum reaches a positive MinScore.
structure Scores (F : Type) where
  zero : F
  add : F → F → F
  reaches : F → Bool

structure Config where
  window : Int
  minSignals : Int
  reAlertInterval : Int
  maxSources : Int
  maxSignalsPerSource : Int

-- An engine's settings, with the identity repid.For gives a fingerprint and an address.
structure Engine (F : Type) where
  window : Int
  minSignals : Nat
  reAlert : Int
  maxSources : Nat
  maxPerSrc : Nat
  room : 0 < maxPerSrc
  scores : Scores F
  identity : GoString → GoString → GoString

def floored (value fallback floor : Int) : Int := if value ≤ 0 then fallback else if value < floor then floor else value
def defaulted (value : Int) (fallback : Nat) : Nat := if value ≤ 0 then fallback else value.toNat

theorem defaulted_pos (value : Int) (pos : 0 < fallback) : 0 < defaulted value fallback := by
  unfold defaulted
  split
  · exact pos
  · omega

def new (cfg : Config) (scores : Scores F) (identity : GoString → GoString → GoString) : Engine F where
  window := floored cfg.window (300*second) (10*second)
  minSignals := defaulted cfg.minSignals 3
  reAlert := floored cfg.reAlertInterval (60*second) (5*second)
  maxSources := defaulted cfg.maxSources 10000
  maxPerSrc := defaulted cfg.maxSignalsPerSource 256
  room := defaulted_pos _ (by decide)
  scores := scores
  identity := identity

structure Source (F : Type) where
  key : GoString
  signals : List (Signal F)
  lastSeen : Int
  lastFire : Int

abbrev Sources (F : Type) : Type := Store (Source.key : Source F → GoString)

section
variable {F : Type}
variable (e : Engine F)

def Engine.sourceKey (s : Signal F) : GoString := if s.sourceIP = [] then [] else e.identity s.fingerprint s.sourceIP
def normalizeSeverity (s : GoString) : GoString :=
  if s = lit "critical" ∨ s = lit "high" ∨ s = lit "medium" ∨ s = lit "low" then s else lit "low"
def severityRank (s : GoString) : Nat :=
  if s = lit "critical" then 4 else if s = lit "high" then 3 else if s = lit "medium" then 2 else 1
def sortedKeys (set : List GoString) : List GoString := sorted set.dedup
def pruneOld (signals : List (Signal F)) (cutoff : Int) : List (Signal F) := prune Signal.time cutoff signals
def Engine.retained (signals : List (Signal F)) (cutoff : Int) (s : Signal F) : List (Signal F) :=
  lastOf e.maxPerSrc (pruneOld signals cutoff ++ [s])

theorem retained_ne (signals : List (Signal F)) (cutoff : Int) (s : Signal F) : e.retained signals cutoff s ≠ [] := by
  have room := e.room
  apply ne_nil_of_length_pos
  rw [Engine.retained,lastOf,length_drop,length_append,length_singleton]
  omega

def Engine.total (signals : List (Signal F)) : F := signals.foldl (fun total s => e.scores.add total s.score) e.scores.zero
def Engine.thresholdMet (signals : List (Signal F)) : Bool :=
  decide (e.minSignals ≤ signals.length) || e.scores.reaches (e.total signals)
def firstGiven (field : Signal F → GoString) (signals : List (Signal F)) : GoString := ((signals.map field).find? fun v => decide (v ≠ [])).getD []

def Engine.buildIncident (key : GoString) (signals : List (Signal F)) (given : signals ≠ []) : Incident F where
  sourceKey := key
  sourceIP := firstGiven Signal.sourceIP signals
  sourceIPs := sortedKeys ((signals.map Signal.sourceIP).filter fun ip => decide (ip ≠ []))
  fingerprint := firstGiven Signal.fingerprint signals
  ja4 := firstGiven Signal.ja4 signals
  firstSeen := signals.foldl (fun first s => if s.time < first then s.time else first) (signals.head given).time
  lastSeen := signals.foldl (fun last s => if last < s.time then s.time else last) (signals.head given).time
  severity := signals.foldl (fun top s => if severityRank top < severityRank s.severity then normalizeSeverity s.severity else top) (lit "low")
  score := e.total signals
  signalCount := signals.length
  signalTypes := sortedKeys (signals.map Signal.type)
  countries := sortedKeys ((signals.map Signal.countryCode).filter fun c => decide (c ≠ []))

def Engine.evictIfFull (sources : Sources F) (victim : GoString) : Option (Sources F) :=
  if sources.rows.length < e.maxSources then some sources
  else match sources.get victim with
    | none => none
    | some st => if ∀ other ∈ sources.rows, st.lastSeen ≤ other.lastSeen then some (sources.remove victim) else none

def Engine.sourceFor (sources : Sources F) (key victim : GoString) : Option (Sources F × Source F) :=
  match sources.get key with
  | some st => some (sources,st)
  | none => (e.evictIfFull sources victim).map fun sources => (sources,⟨key,[],zeroTime,zeroTime⟩)

def Engine.observeLocked (sources : Sources F) (victim : GoString) (now : Int) (key : GoString) (s : Signal F) :
    Option (Sources F × Option (Incident F)) :=
  (e.sourceFor sources key victim).map fun (sources,st) =>
    let signals := e.retained st.signals (now-e.window) s
    let next := {st with signals := signals, lastSeen := now}
    if !e.thresholdMet signals then (sources.put next,none)
    else if st.lastFire ≠ zeroTime ∧ now-st.lastFire < e.reAlert then (sources.put next,none)
    else (sources.put {next with lastFire := now},some (e.buildIncident key signals (retained_ne e st.signals (now-e.window) s)))

structure Raised (F : Type) where
  incident : Incident F
  now : Int
  seen : List (Signal F)

structure State (F : Type) where
  sources : Sources F
  clock : Int
  seen : List (Signal F)
  raised : List (Raised F)

def State.start (clock : Int) : State F := ⟨.empty,clock,[],[]⟩

inductive Event (F : Type) where
  -- `stamp` is the clock's reading for a signal without a time, `now` the one under the lock.
  | observe (s : Signal F) (stamp now : Int) (victim : GoString)
  | gc (now : Int)

def stamped (s : Signal F) (stamp : Int) : Signal F := if s.time = zeroTime then {s with time := stamp} else s

def step (st : State F) : Event F → Option (State F)
  | .observe s stamp now victim =>
    let s := stamped s stamp
    let key := e.sourceKey s
    if key = [] then some st
    else if now < st.clock then none
    else (e.observeLocked st.sources victim now key s).map fun (sources,incident) =>
      let seen := st.seen ++ [s]
      ⟨sources,now,seen,st.raised ++ (incident.map fun inc => (⟨inc,now,seen⟩ : Raised F)).toList⟩
  | .gc now =>
    some {st with sources := st.sources.filter fun src => decide (¬src.lastSeen < now-e.window), clock := max st.clock now}

def Engine.of (key : GoString) (seen : List (Signal F)) : List (Signal F) := seen.filter fun s => decide (e.sourceKey s = key)
def SetOf (names : List GoString) (member : GoString → Prop) : Prop := names.Nodup ∧ names.Pairwise NotAfter ∧ ∀ v, v ∈ names ↔ member v

structure Aggregates (inc : Incident F) (signals : List (Signal F)) : Prop where
  count : inc.signalCount = signals.length
  first : (∃ s ∈ signals, s.time = inc.firstSeen) ∧ ∀ s ∈ signals, inc.firstSeen ≤ s.time
  last : (∃ s ∈ signals, s.time = inc.lastSeen) ∧ ∀ s ∈ signals, s.time ≤ inc.lastSeen
  types : SetOf inc.signalTypes fun v => ∃ s ∈ signals, s.type = v
  ips : SetOf inc.sourceIPs fun v => v ≠ [] ∧ ∃ s ∈ signals, s.sourceIP = v

def Sound (st : State F) : Prop :=
  ∀ r ∈ st.raised, Aggregates r.incident (recent Signal.time e.maxPerSrc (r.now-e.window) (e.of r.incident.sourceKey r.seen))

-- Signals come in order and in time; no source with a recent one is dropped.
def Careful (st : State F) : Event F → Prop
  | .observe s stamp now victim =>
    let s := stamped s stamp
    e.sourceKey s ≠ [] →
      now-e.window ≤ s.time ∧ (∀ src ∈ st.sources.rows, src.key = e.sourceKey s → ∀ old ∈ src.signals, old.time ≤ s.time) ∧
        (st.sources.get (e.sourceKey s) = none → e.maxSources ≤ st.sources.rows.length →
          ∀ src ∈ st.sources.rows, src.key = victim → ∀ old ∈ src.signals, old.time < now-e.window)
  | .gc now => ∀ src ∈ st.sources.rows, src.lastSeen < now-e.window → ∀ old ∈ src.signals, old.time < now-e.window

instance decidableCareful (e : Engine F) (st : State F) (ev : Event F) : Decidable (Careful e st ev) := by
  unfold Careful
  split <;> infer_instance

end

section
variable {F : Type} {e : Engine F} {st t : State F} {sources next : Sources F}

theorem sortedKeys_set (set : List GoString) : SetOf (sortedKeys set) fun v => v ∈ set := by
  refine ⟨?_,List.pairwise_insertionSort NotAfter _,?_⟩
  · exact (List.perm_insertionSort NotAfter _).nodup_iff.mpr (List.nodup_dedup set)
  · intro v; rw [sortedKeys,sorted_mem,List.mem_dedup]

theorem SetOf.congr (of : SetOf names p) (same : ∀ v, p v ↔ q v) : SetOf names q :=
  ⟨of.1,of.2.1,fun v => (of.2.2 v).trans (same v)⟩

theorem buildIncident_aggregates (e : Engine F) (key : GoString) (signals : List (Signal F)) (given : signals ≠ []) :
    Aggregates (e.buildIncident key signals given) signals := by
  have times : ∀ v, v ∈ (signals.head given).time :: signals.map Signal.time ↔ ∃ s ∈ signals, s.time = v := by
    intro v
    rw [List.mem_cons,List.mem_map]
    exact or_iff_right_of_imp fun same => ⟨_,List.head_mem given,same.symm⟩
  have first : ((signals.head given).time :: signals.map Signal.time).min? = some (e.buildIncident key signals given).firstSeen := by
    rw [List.min?_cons',List.foldl_map]
    congr 2
    funext a s
    split <;> omega
  have last : ((signals.head given).time :: signals.map Signal.time).max? = some (e.buildIncident key signals given).lastSeen := by
    rw [List.max?_cons',List.foldl_map]
    congr 2
    funext a s
    split <;> omega
  obtain ⟨found,least⟩ := List.min?_eq_some_iff.mp first
  obtain ⟨found',most⟩ := List.max?_eq_some_iff.mp last
  refine ⟨rfl,⟨(times _).mp found,?_⟩,⟨(times _).mp found',?_⟩,?_,?_⟩
  · intro s member; exact least _ ((times _).mpr ⟨s,member,rfl⟩)
  · intro s member; exact most _ ((times _).mpr ⟨s,member,rfl⟩)
  · apply (sortedKeys_set _).congr
    intro v
    rw [List.mem_map]
  · apply (sortedKeys_set _).congr
    intro v
    rw [List.mem_filter,List.mem_map,decide_eq_true_eq,and_comm]

def heldOf (sources : Sources F) (key : GoString) : List (Signal F) := ((sources.get key).map Source.signals).getD []

theorem heldOf_mem (found : sources.get key = some src) : heldOf sources key = src.signals := by
  simp [heldOf,found]
theorem heldOf_none (missing : sources.get key = none) : heldOf sources key = [] := by
  simp [heldOf,missing]

def Kept (e : Engine F) (seen : List (Signal F)) (clock : Int) (sources : Sources F) : Prop :=
  ∀ key, Keeps Signal.time e.maxPerSrc (clock-e.window) (e.of key seen) (heldOf sources key)

theorem Kept.later (kept : Kept e seen clock sources) (on : clock ≤ now) : Kept e seen now sources :=
  fun key => (kept key).later (by omega)

theorem Kept.lose (kept : Kept e seen clock sources) (lost : ∀ key, heldOf next key = heldOf sources key ∨
      heldOf next key = [] ∧ ∀ old ∈ heldOf sources key, old.time < clock-e.window) : Kept e seen clock next := by
  intro key
  rcases lost key with same | ⟨gone,old⟩
  · rw [same]; exact kept key
  · rw [gone]; exact (kept key).forget e.room old

theorem of_snoc_same : e.of (e.sourceKey s) (seen ++ [s]) = e.of (e.sourceKey s) seen ++ [s] := by
  simp [Engine.of,List.filter_append]
theorem of_snoc_other (apart : key ≠ e.sourceKey s) : e.of key (seen ++ [s]) = e.of key seen := by
  simp [Engine.of,List.filter_append,Ne.symm apart]

theorem sourceFor_cases (found : e.sourceFor sources key victim = some (next,src)) :
    sources.get key = some src ∧ next = sources ∨ sources.get key = none ∧ src = ⟨key,[],zeroTime,zeroTime⟩ ∧
      (sources.rows.length < e.maxSources ∧ next = sources ∨
        e.maxSources ≤ sources.rows.length ∧ (sources.get victim).isSome ∧ next = sources.remove victim) := by
  unfold Engine.sourceFor at found
  split at found
  · rename_i st held; cases found; exact .inl ⟨held,rfl⟩
  rename_i missing
  obtain ⟨left,evicted,⟨⟩⟩ := Option.map_eq_some_iff.mp found
  refine .inr ⟨missing,rfl,?_⟩
  unfold Engine.evictIfFull at evicted
  split at evicted
  · rename_i room; cases evicted; exact .inl ⟨room,rfl⟩
  rename_i full
  split at evicted
  · cases evicted
  · rename_i st held
    obtain ⟨_,⟨⟩⟩ := Option.ite_none_right_eq_some.mp evicted
    exact .inr ⟨Nat.le_of_not_lt full,by rw [held]; rfl,rfl⟩

theorem sourceFor_parts (found : e.sourceFor sources key victim = some (next,src)) :
    src.key = key ∧ (sources.get key).getD ⟨key,[],zeroTime,zeroTime⟩ = src ∧
      ∀ other, next.get other = sources.get other ∨
        other = victim ∧ next.get other = none ∧ sources.get key = none ∧ e.maxSources ≤ sources.rows.length := by
  rcases sourceFor_cases found with ⟨held,rfl⟩ | ⟨missing,rfl,⟨_,rfl⟩ | ⟨full,_,rfl⟩⟩
  · exact ⟨(get_eq_some.mp held).2,by rw [held]; rfl,fun other => .inl rfl⟩
  · exact ⟨rfl,by rw [missing]; rfl,fun other => .inl rfl⟩
  refine ⟨rfl,by rw [missing]; rfl,?_⟩
  intro other
  by_cases same : other = victim
  · exact .inr ⟨same,by rw [same]; exact get_remove_same,missing,full⟩
  · exact .inl (get_remove_other same)

-- An alert is due: none was raised, or none within the interval.
def Due (e : Engine F) (now fire : Int) : Prop := fire ≠ zeroTime → e.reAlert ≤ now-fire

theorem observeLocked_parts (ran : e.observeLocked sources victim now key s = some (after,incident)) :
    ∃ next src fire, e.sourceFor sources key victim = some (next,src) ∧
      after = next.put ⟨src.key,e.retained src.signals (now-e.window) s,now,fire⟩ ∧
      (incident = none ∧ fire = src.lastFire ∨
        incident = some (e.buildIncident key _ (retained_ne e src.signals (now-e.window) s)) ∧ fire = now ∧ Due e now src.lastFire) := by
  obtain ⟨⟨next,src⟩,found,result⟩ := Option.map_eq_some_iff.mp ran
  dsimp only at result
  split at result
  · cases result; exact ⟨next,src,_,found,rfl,.inl ⟨rfl,rfl⟩⟩
  split at result
  · cases result; exact ⟨next,src,_,found,rfl,.inl ⟨rfl,rfl⟩⟩
  · rename_i due
    cases result
    exact ⟨next,src,_,found,rfl,.inr ⟨rfl,rfl,fun fired => Int.not_lt.mp fun soon => due ⟨fired,soon⟩⟩⟩

theorem step_observed (ran : step e st (.observe s stamp now victim) = some t) :
    t = st ∨ ∃ after incident, e.sourceKey (stamped s stamp) ≠ [] ∧ st.clock ≤ now ∧
      e.observeLocked st.sources victim now (e.sourceKey (stamped s stamp)) (stamped s stamp) = some (after,incident) ∧
      t = ⟨after,now,st.seen ++ [stamped s stamp],
        st.raised ++ (incident.map fun inc => (⟨inc,now,st.seen ++ [stamped s stamp]⟩ : Raised F)).toList⟩ := by
  dsimp only [step] at ran
  split at ran
  · cases ran; exact .inl rfl
  split at ran
  · cases ran
  · rename_i named onward
    obtain ⟨⟨after,incident⟩,observed,⟨⟩⟩ := Option.map_eq_some_iff.mp ran
    exact .inr ⟨after,incident,named,Int.not_lt.mp onward,observed,rfl⟩

structure Inv (e : Engine F) (st : State F) : Prop where
  kept : Kept e st.seen st.clock st.sources
  sound : Sound e st

theorem start_inv (e : Engine F) (clock : Int) : Inv e (.start clock) :=
  ⟨fun _ => Keeps.empty,nofun⟩

theorem observe_inv (inv : Inv e st) (careful : Careful e st (.observe s stamp now victim))
    (ran : step e st (.observe s stamp now victim) = some t) : Inv e t := by
  rcases step_observed ran with rfl | ⟨after,incident,named,onward,observed,rfl⟩
  · exact inv
  obtain ⟨inside,ordered,spared⟩ := careful named
  obtain ⟨next,src,fire,found,rfl,made⟩ := observeLocked_parts observed
  generalize stamped s stamp = s at *
  obtain ⟨own_key,from_,left⟩ := sourceFor_parts found
  have before : heldOf st.sources (e.sourceKey s) = src.signals := by
    rw [← from_,heldOf]
    cases st.sources.get (e.sourceKey s) <;> rfl
  have now_kept : Kept e st.seen now st.sources := inv.kept.later onward
  have room : Kept e st.seen now next := by
    apply now_kept.lose
    intro other
    refine (left other).imp (fun same => by rw [heldOf,same,heldOf]) fun ⟨chosen,gone,missing,full⟩ => ⟨heldOf_none gone,?_⟩
    intro old member
    subst chosen
    cases row : st.sources.get other with
    | none => simp [heldOf,row] at member
    | some src =>
      obtain ⟨present,name⟩ := get_eq_some.mp row
      rw [heldOf_mem row] at member
      exact spared missing full src present name old member
  have own := now_kept (e.sourceKey s)
  rw [before] at own
  have order : ∀ old ∈ src.signals, old.time ≤ s.time := by
    intro old member
    rw [← before] at member
    cases row : st.sources.get (e.sourceKey s) with
    | none => simp [heldOf,row] at member
    | some src =>
      obtain ⟨present,name⟩ := get_eq_some.mp row
      rw [heldOf_mem row] at member
      exact ordered src present name old member
  have latest := own.push_recent e.room inside order
  refine ⟨?_,?_⟩
  · intro key
    by_cases mine : key = e.sourceKey s
    · subst mine
      rw [of_snoc_same,← own_key,heldOf_mem (get_put_same (⟨src.key,_,now,fire⟩ : Source F)),own_key]
      exact own.push e.room inside order
    · rw [of_snoc_other mine,heldOf,get_put_other next (⟨src.key,_,now,fire⟩ : Source F) (own_key ▸ mine)]
      exact room key
  · intro r member
    rcases List.mem_append.mp member with earlier | new
    · exact inv.sound r earlier
    obtain ⟨inc,given,rfl⟩ := Option.map_eq_some_iff.mp (Option.mem_toList.mp new)
    rcases made with ⟨rfl,_⟩ | ⟨rfl,_⟩
    · cases given
    cases given
    dsimp only [Engine.buildIncident]
    rw [of_snoc_same,← latest]
    exact buildIncident_aggregates ..

theorem gc_inv (inv : Inv e st) (careful : Careful e st (.gc now)) (ran : step e st (.gc now) = some t) : Inv e t := by
  cases ran
  refine ⟨?_,inv.sound⟩
  apply (inv.kept.later (Int.le_max_left st.clock now)).lose
  intro key
  cases row : st.sources.get key with
  | none =>
    left
    rw [heldOf,heldOf,get_filter,row]
    rfl
  | some src =>
    by_cases idle : src.lastSeen < now-e.window
    · right
      have gone : (st.sources.filter fun src => decide (¬src.lastSeen < now-e.window)).get key = none := by
        rw [get_filter,row]
        simp [Option.filter,idle]
      refine ⟨heldOf_none gone,?_⟩
      intro old member
      rw [heldOf_mem row] at member
      have early := careful src (get_eq_some.mp row).1 idle old member
      have later := Int.le_max_right st.clock now
      omega
    · left
      rw [heldOf,heldOf,get_filter,row]
      simp [Option.filter,idle]

theorem step_inv (inv : Inv e st) (careful : Careful e st ev) (ran : step e st ev = some t) : Inv e t := by
  cases ev with
  | observe s stamp now victim => exact observe_inv inv careful ran
  | gc now => exact gc_inv inv careful ran

theorem incidents_exact (e : Engine F) (path : Reached (step e) (Careful e) (.start clock) st) : Sound e st := by
  have inv : Inv e st := reached_invariant (Inv e) (start_inv e clock) step_inv path
  exact inv.sound

def plain : Engine Nat := new ⟨0,0,0,0,0⟩ ⟨0,(· + ·),fun _ => false⟩ fun _ ip => ip
def scan (time : Int) : Signal Nat := ⟨lit "waf_block",lit "203.0.113.7",[],[],1,lit "high",[],time*second⟩
def observed (time now : Int) : Event Nat := .observe (scan time) (now*second) (now*second) []

theorem incidents_exact_three : ∃ st, Reached (step plain) (Careful plain) (.start 0) st ∧ st.raised.length = 1 ∧ Sound plain st :=
  reached_by [observed 900 1000,observed 1000 1000,observed 1100 1150] (by decide +kernel) fun st => incidents_exact plain

-- At 1150 s the signal of 800 s is outside the window, but behind one that is not.
theorem stale_signal_counted : ∃ st, Reached (step plain) (fun _ _ => True) (.start 0) st ∧ ¬Sound plain st := by
  refine shown_reached (fun st => st.raised.map fun r => (r.incident.signalCount,
    (recent Signal.time plain.maxPerSrc (r.now-plain.window) (plain.of r.incident.sourceKey r.seen)).length)) [(3,2)]
    [observed 1000 1000,observed 800 1000,observed 1150 1150] (by decide +kernel) fun st _ counts sound => ?_
  obtain ⟨r,member,pair⟩ := List.mem_map.mp (counts ▸ List.mem_singleton.mpr rfl : (3,2) ∈ st.raised.map _)
  have count := (sound r member).count
  simp only [Prod.mk.injEq] at pair
  omega

end

variable {F : Type} {e : Engine F} {st t : State F} {sources next : Sources F} {allowed : State F → Event F → Prop}

section
variable (e : Engine F) (st : State F)

def Spaced : Prop :=
  st.raised.Pairwise fun a b => a.incident.sourceKey = b.incident.sourceKey → e.reAlert ≤ b.now-a.now
def Bounded : Prop :=
  st.sources.rows.length ≤ e.maxSources ∧ ∀ src ∈ st.sources.rows, src.signals.length ≤ e.maxPerSrc
def firedAt (sources : Sources F) (key : GoString) : Int := ((sources.get key).map Source.lastFire).getD zeroTime

-- A source that is dropped takes the time of its last alert along.
def Spared : Event F → Prop
  | .observe s stamp now victim => st.sources.get (e.sourceKey (stamped s stamp)) = none → e.maxSources ≤ st.sources.rows.length →
      Due e now (firedAt st.sources victim)
  | .gc now => ∀ src ∈ st.sources.rows, src.lastSeen < now-e.window → Due e (max st.clock now) src.lastFire

instance decidableSpared : ∀ ev, Decidable (Spared e st ev)
  | .observe .. | .gc _ => by dsimp only [Spared,Due]; infer_instance

end

theorem step_bounded (bounded : Bounded e st) (ran : step e st ev = some t) : Bounded e t := by
  cases ev with
  | gc now =>
    cases ran
    exact ⟨(length_filter_le ..).trans bounded.1,fun src member => bounded.2 src (mem_filter.mp member).1⟩
  | observe s stamp now victim =>
    rcases step_observed ran with rfl | ⟨after,incident,_,_,observed,rfl⟩
    · exact bounded
    obtain ⟨next,src,fire,found,rfl,_⟩ := observeLocked_parts observed
    refine ⟨?_,?_⟩
    · rcases sourceFor_cases found with ⟨held,rfl⟩ | ⟨_,_,⟨room,rfl⟩ | ⟨_,held,rfl⟩⟩
      · refine (length_put_held _ ?_).trans bounded.1
        rw [(sourceFor_parts found).1,held]
        rfl
      · exact (length_put_le ..).trans room
      · exact (length_put_le ..).trans ((length_remove_held held).trans_le bounded.1)
    · intro other member
      rcases mem_put.mp member with rfl | ⟨old,_⟩
      · simp only [Engine.retained,lastOf,List.length_drop]
        omega
      have held := get_eq_some.mpr ⟨old,rfl⟩
      rcases (sourceFor_parts found).2.2 other.key with same | ⟨_,gone,_⟩
      · exact bounded.2 other (get_eq_some.mp (same ▸ held)).1
      · rw [gone] at held; cases held

-- What is left of an alert: its age, or a time at its source that holds the next one back.
def Remembered (e : Engine F) (sources : Sources F) (clock : Int) (r : Raised F) : Prop :=
  e.reAlert ≤ clock-r.now ∨ firedAt sources r.incident.sourceKey ≠ zeroTime ∧ r.now ≤ firedAt sources r.incident.sourceKey

theorem Remembered.due (known : Remembered e sources clock r) (on : clock ≤ now) (due : Due e now (firedAt sources r.incident.sourceKey)) :
    e.reAlert ≤ now-r.now := by
  rcases known with old | ⟨fired,recent⟩
  · omega
  · have apart := due fired; omega

theorem Remembered.later (known : Remembered e sources clock r) (on : clock ≤ now)
    (kept : firedAt next r.incident.sourceKey = firedAt sources r.incident.sourceKey ∨ Due e now (firedAt sources r.incident.sourceKey)) :
    Remembered e next now r := by
  rcases kept with same | due
  · rw [Remembered,same]; exact known.imp_left (by omega)
  · exact .inl (known.due on due)

structure Watched (e : Engine F) (st : State F) : Prop where
  begun : zeroTime < st.clock
  spaced : Spaced e st
  remembered : ∀ r ∈ st.raised, Remembered e st.sources st.clock r

theorem observe_watched (watched : Watched e st) (spared : Spared e st (.observe s stamp now victim))
    (ran : step e st (.observe s stamp now victim) = some t) : Watched e t := by
  rcases step_observed ran with rfl | ⟨after,incident,_,onward,observed,rfl⟩
  · exact watched
  obtain ⟨next,src,fire,found,rfl,made⟩ := observeLocked_parts observed
  obtain ⟨named,from_,left⟩ := sourceFor_parts found
  have begun : zeroTime < now := watched.begun.trans_le onward
  have last : firedAt st.sources src.key = src.lastFire := by
    rw [named,← from_,firedAt]
    cases st.sources.get (e.sourceKey (stamped s stamp)) <;> rfl
  have own : firedAt (next.put ⟨src.key,e.retained src.signals (now-e.window) (stamped s stamp),now,fire⟩) src.key = fire := by
    rw [firedAt,get_put_same (⟨src.key,_,now,fire⟩ : Source F)]
    rfl
  have remembered : ∀ r ∈ st.raised, Remembered e
      (next.put ⟨src.key,e.retained src.signals (now-e.window) (stamped s stamp),now,fire⟩) now r := by
    intro r member
    refine (watched.remembered r member).later onward ?_
    by_cases mine : r.incident.sourceKey = src.key
    · rw [mine,own,last]; exact made.imp And.right (·.2.2)
    rw [firedAt,get_put_other next (⟨src.key,_,now,fire⟩ : Source F) mine]
    rcases left r.incident.sourceKey with same | ⟨chosen,_,missing,full⟩
    · exact .inl (by rw [same,firedAt])
    · exact .inr (chosen ▸ spared missing full)
  rcases made with ⟨rfl,_⟩ | ⟨rfl,rfl,due⟩
  · rw [Option.map_none,Option.toList_none,List.append_nil]; exact ⟨begun,watched.spaced,remembered⟩
  refine ⟨begun,List.pairwise_append.mpr ⟨watched.spaced,List.pairwise_singleton ..,?_⟩,forall_snoc remembered ?_⟩
  · intro r member
    refine List.forall_mem_singleton.mpr fun same => (watched.remembered r member).due onward ?_
    rw [same,Engine.buildIncident,← named,last]
    exact due
  · rw [Remembered,Engine.buildIncident,← named,own]
    exact .inr ⟨begun.ne',le_rfl⟩

theorem step_watched (watched : Watched e st) (spared : Spared e st ev) (ran : step e st ev = some t) : Watched e t := by
  cases ev with
  | observe s stamp now victim => exact observe_watched watched spared ran
  | gc now =>
    cases ran
    refine ⟨watched.begun.trans_le (le_max_left ..),watched.spaced,?_⟩
    intro r member
    refine (watched.remembered r member).later (le_max_left ..) ?_
    rw [firedAt,firedAt,get_filter]
    cases held : st.sources.get r.incident.sourceKey with
    | none => exact .inl rfl
    | some src =>
      by_cases idle : src.lastSeen < now-e.window
      · exact .inr (spared src (get_eq_some.mp held).1 idle)
      · left; simp [Option.filter,idle]

theorem alerts_spaced (path : Reached (step e) allowed (.start clock) st) :
    Bounded e st ∧ (zeroTime < clock → (∀ s ev, allowed s ev → Spared e s ev) → Spaced e st) := by
  refine ⟨?_,fun begun sparing => ?_⟩
  · exact reached_invariant (Bounded e) ⟨Nat.zero_le _,List.forall_mem_nil _⟩ (fun bounded _ => step_bounded bounded) path
  · have start : Watched e (.start clock) := ⟨begun,List.Pairwise.nil,List.forall_mem_nil _⟩
    exact (reached_invariant (Watched e) start (fun watched meets => step_watched watched (sparing _ _ meets)) path).spaced

theorem alerts_spaced_collected : ∃ st, Reached (step plain) (Spared plain) (.start 0) st ∧
    st.raised.map Raised.now = [1000*second,2000*second] ∧ Bounded plain st ∧ Spaced plain st := by
  refine reached_by [observed 1000 1000,observed 1000 1000,observed 1000 1000,.gc (2000*second),observed 2000 2000,
    observed 2000 2000,observed 2000 2000] (by decide +kernel) fun st path => ?_
  have both := alerts_spaced path
  exact ⟨both.1,both.2 (by decide) fun _ _ => id⟩

-- One alert an hour and a window of ten seconds: the source is collected, and its alert forgotten.
def hourly : Engine Nat := new ⟨10*second,1,3600*second,0,0⟩ ⟨0,(· + ·),fun _ => false⟩ fun _ ip => ip

theorem collected_source_alerts : ∃ st, Reached (step hourly) (fun _ _ => True) (.start 0) st ∧ ¬Spaced hourly st := by
  refine shown_reached (fun st => st.raised.map fun r => (r.incident.sourceKey,r.now))
    [(lit "203.0.113.7",1000*second),(lit "203.0.113.7",1020*second)]
    [observed 1000 1000,.gc (1020*second),observed 1020 1020] (by decide +kernel) fun st _ shown spaced => ?_
  have close : (st.raised.map fun r => (r.incident.sourceKey,r.now)).Pairwise fun a b => a.1 = b.1 → hourly.reAlert ≤ b.2-a.2 :=
    List.pairwise_map.mpr spaced
  rw [shown] at close
  exact absurd (List.pairwise_pair.mp close rfl) (by decide)

end Gateon.Correlation
