import Gateon.Go.Strings
import Gateon.Lib.KeyedStore
import Gateon.Lib.Transition
import Mathlib.Algebra.Order.Ring.Int

namespace Gateon.L4.UdpSession
open Go KeyedStore Transition Option Function Nat

def DefaultUDPMaxSessions : Nat := 4096

structure Config where
  backendAddrs : List GoString
  timeout : Int
  maxSessions : Nat
  backed : backendAddrs ≠ []
  room : 0 < maxSessions

-- The product of an int and time.Second wraps as an int64 does.
def newUDPSessionProxy (backendAddrs : List GoString) (sessionTimeoutSec maxSessions : Int) : Option Config :=
  if backed : backendAddrs = [] then none
  else some {
    backendAddrs := backendAddrs
    timeout := if 0 < sessionTimeoutSec then (sessionTimeoutSec * 10^9).bmod (2^64) else 60 * 10^9
    maxSessions := if 0 < maxSessions then maxSessions.toNat else DefaultUDPMaxSessions
    backed := backed
    room := by
      split
      · omega
      · exact zero_lt_succ 4095 }

-- A session is known by the number it was created under, and so is its socket.
structure Entry where
  key : GoString
  id : Nat
  deriving DecidableEq, Repr

-- In Read, with something in hand before the lock, past it with a socket to close, gone.
inductive Reader where
  | absent
  | reading
  | received
  | failed
  | closing
  | gone
  deriving DecidableEq, Repr

inductive Stage where
  | running
  | stopping
  | stopped
  deriving DecidableEq, Repr

structure State where
  sessions : Store Entry.key
  client : Nat → GoString
  lastUsed : Nat → Int
  socket : Nat → Bool
  reader : Nat → Reader
  created : Nat
  next : Nat
  dropped : Nat
  now : Int
  waiting : List GoString
  stage : Stage
  cleanup : Bool

def start (now : Int) : State where
  sessions := Store.empty
  client := fun _ => []
  lastUsed := fun _ => 0
  socket := fun _ => false
  reader := fun _ => .absent
  created := 0
  next := 0
  dropped := 0
  now := now
  waiting := []
  stage := .running
  cleanup := true

variable (c : Config)

def idle (s : State) (now : Int) (e : Entry) : Bool := c.timeout < now - s.lastUsed e.id
def closed (s : State) (which : Entry → Bool) (id : Nat) : Bool := s.socket id && !s.sessions.rows.any fun e => e.id == id && which e
def expireLocked (now : Int) (s : State) : State :=
  {s with sessions := s.sessions.filter fun e => !idle c s now e,socket := closed s (idle c s now)}
def pickBackend (s : State) : GoString × State := (c.backendAddrs.getD (s.next % c.backendAddrs.length) [],{s with next := (s.next+1) % 2^64})

def createSession (key : GoString) (s : State) : State :=
  {s with
    sessions := s.sessions.put ⟨key,s.created⟩
    client := update s.client s.created key
    lastUsed := update s.lastUsed s.created s.now
    socket := update s.socket s.created true
    reader := update s.reader s.created .reading
    created := s.created+1}

def makeRoom (sweep : Nat) (s : State) : State :=
  if c.maxSessions ≤ s.sessions.rows.length then {expireLocked c (s.now + sweep) s with now := s.now + sweep} else s

-- `dials` says whether the backend's address resolves and its socket opens.
def handlePacket (key : GoString) (sweep use : Nat) (dials : Bool) (s : State) : State :=
  match s.sessions.get key with
  | some e => {s with now := s.now + use,lastUsed := update s.lastUsed e.id (s.now + use)}
  | none =>
    let s := makeRoom c sweep s
    if c.maxSessions ≤ s.sessions.rows.length then {s with dropped := (s.dropped+1) % 2^64}
    else
      let picked := pickBackend c s
      if picked.1 = [] || !dials then picked.2
      else createSession key {picked.2 with now := s.now + use}

def removeOwn (id : Nat) (s : State) : State :=
  {s with
    sessions := if s.sessions.get (s.client id) = some ⟨s.client id,id⟩ then s.sessions.remove (s.client id) else s.sessions
    reader := update s.reader id .closing}

def stopLocked (s : State) : State := {s with sessions := Store.empty,socket := closed s fun _ => true,stage := .stopped}

inductive Event where
  | wait (d : Nat)
  | arrive (key : GoString)
  | handle (key : GoString) (sweep use : Nat) (dials : Bool)
  | expire
  | cleanupEnds
  | receive (id : Nat)
  | touch (id : Nat)
  | readFails (id : Nat)
  | remove (id : Nat)
  | close (id : Nat)
  | closeStop
  | stop

-- A datagram comes from an open socket, an error from any; a second Stop panics.
def step (s : State) : Event → Option State
  | .wait d => some {s with now := s.now + d}
  | .arrive key => some {s with waiting := key :: s.waiting}
  | .handle key sweep use dials =>
    if key ∈ s.waiting then some (handlePacket c key sweep use dials {s with waiting := s.waiting.erase key}) else none
  | .expire => if s.cleanup then some (expireLocked c s.now s) else none
  | .cleanupEnds => if s.stage = .running then none else some {s with cleanup := false}
  | .receive id => if s.reader id = .reading ∧ s.socket id then some {s with reader := update s.reader id .received} else none
  | .touch id =>
    if s.reader id = .received then
      some {s with reader := update s.reader id .reading,lastUsed := update s.lastUsed id s.now} else none
  | .readFails id => if s.reader id = .reading then some {s with reader := update s.reader id .failed} else none
  | .remove id => if s.reader id = .failed then some (removeOwn id s) else none
  | .close id =>
    if s.reader id = .closing then some {s with reader := update s.reader id .gone,socket := update s.socket id false} else none
  | .closeStop => if s.stage = .running then some {s with stage := .stopping} else none
  | .stop => if s.stage = .stopping then some (stopLocked s) else none

def Reader.holds : Reader → Bool
  | .reading => true
  | .received => true
  | .failed => true
  | _ => false

structure Inv (s : State) : Prop where
  bound : s.sessions.rows.length ≤ c.maxSessions
  fresh : ∀ id, s.created ≤ id → s.socket id = false ∧ s.reader id = .absent
  owner : ∀ e ∈ s.sessions.rows, s.client e.id = e.key
  held : ∀ e ∈ s.sessions.rows, s.socket e.id ∧ (s.reader e.id).holds
  kept : ∀ id, s.socket id → (∃ e ∈ s.sessions.rows, e.id = id) ∨ s.reader id = .closing

variable {c} {id : Nat}

theorem Inv.numbered (inv : Inv c s) (member : e ∈ s.sessions.rows) : e.id < s.created := by
  by_contra beyond
  have := (inv.held e member).1
  rw [(inv.fresh e.id (Nat.le_of_not_lt beyond)).1] at this
  cases this

theorem Inv.single (inv : Inv c s) (one : e ∈ s.sessions.rows) (two : e' ∈ s.sessions.rows) (same : e.id = e'.id) : e = e' := by
  have keys : e.key = e'.key := by rw [← inv.owner e one,← inv.owner e' two,same]
  cases e
  cases e'
  cases same
  cases keys
  rfl

theorem closed_true {which : Entry → Bool} {id : Nat} : closed s which id ↔ s.socket id ∧ ∀ e ∈ s.sessions.rows, e.id = id → which e = false := by
  simp [closed]
theorem start_inv (now : Int) : Inv c (start now) := by
  refine ⟨zero_le _,fun id _ => ⟨rfl,rfl⟩,?_,?_,?_⟩ <;> simp [start,Store.empty]

theorem filter_inv (inv : Inv c s) (which : Entry → Bool) (rows : sessions.rows = s.sessions.rows.filter fun e => !which e) :
    Inv c {s with sessions := sessions,socket := closed s which} := by
  have member {e : Entry} : e ∈ sessions.rows ↔ e ∈ s.sessions.rows ∧ which e = false := by simp [rows]
  refine ⟨?_,?_,?_,?_,?_⟩
  · dsimp only; rw [rows]; exact le_trans (List.length_filter_le _ _) inv.bound
  · intro id beyond
    refine ⟨?_,(inv.fresh id beyond).2⟩
    dsimp only [closed]
    rw [(inv.fresh id beyond).1,Bool.false_and]
  · exact fun e inside => inv.owner e (member.mp inside).1
  · intro e inside
    obtain ⟨before,kept⟩ := member.mp inside
    refine ⟨closed_true.mpr ⟨(inv.held e before).1,?_⟩,(inv.held e before).2⟩
    intro other there shared
    rwa [inv.single there before shared]
  · intro id opened
    obtain ⟨before,none⟩ := closed_true.mp opened
    refine (inv.kept id before).imp_left ?_
    rintro ⟨e,inside,rfl⟩
    exact ⟨e,member.mpr ⟨inside,none e inside rfl⟩,rfl⟩

theorem expireLocked_inv (inv : Inv c s) (now : Int) : Inv c (expireLocked c now s) := filter_inv inv (idle c s now) rfl

theorem stopLocked_inv (inv : Inv c s) : Inv c (stopLocked s) := by
  refine {filter_inv inv (fun _ => true) ?_ with}
  simp [stopLocked,Store.empty]

theorem createSession_inv (inv : Inv c s) (absent : s.sessions.get key = none) (room : s.sessions.rows.length < c.maxSessions) : Inv c (createSession key s) := by
  have other (e : Entry) (member : e ∈ s.sessions.rows) : e.id ≠ s.created := Nat.ne_of_lt (inv.numbered member)
  have rows (e : Entry) (member : e ∈ (createSession key s).sessions.rows) : e = ⟨key,s.created⟩ ∨ e ∈ s.sessions.rows :=
    (mem_put.mp member).imp_right And.left
  refine ⟨?_,?_,?_,?_,?_⟩
  · exact le_trans (length_put_le _ _) room
  · intro id beyond
    have apart : id ≠ s.created := ne_of_gt beyond
    have before := inv.fresh id (le_of_lt beyond)
    simp only [createSession,update_of_ne apart]
    exact before
  · intro e member
    rcases rows e member with rfl | old
    · exact update_self ..
    · simp only [createSession,update_of_ne (other e old)]; exact inv.owner e old
  · intro e member
    rcases rows e member with rfl | old
    · simp [createSession,Reader.holds]
    · simp only [createSession,update_of_ne (other e old)]; exact inv.held e old
  · intro id opened
    by_cases new : id = s.created
    · exact .inl ⟨⟨key,s.created⟩,mem_put.mpr (.inl rfl),new.symm⟩
    simp only [createSession,update_of_ne new] at opened ⊢
    refine (inv.kept id opened).imp_left ?_
    rintro ⟨e,member,same⟩
    exact ⟨e,mem_put.mpr (.inr ⟨member,get_eq_none.mp absent e member⟩),same⟩

theorem Inv.reads (inv : Inv c s) (present : s.reader id ≠ .absent) : id < s.created := by
  by_contra beyond
  exact present (inv.fresh id (Nat.le_of_not_lt beyond)).2

theorem reader_inv (inv : Inv c s) (before : (s.reader id).holds) (after : r.holds) : Inv c {s with reader := update s.reader id r} := by
  have given : id < s.created := inv.reads fun absent => by
    rw [absent] at before
    cases before
  refine {inv with fresh := ?_,held := ?_,kept := ?_} <;> dsimp only
  · intro other beyond
    rw [update_of_ne (by omega)]
    exact inv.fresh other beyond
  · intro e member
    refine ⟨(inv.held e member).1,?_⟩
    by_cases mine : e.id = id
    · rw [mine,update_self]; exact after
    · rw [update_of_ne mine]; exact (inv.held e member).2
  · intro other opened
    refine (inv.kept other opened).imp_right fun closing => ?_
    have apart : other ≠ id := by
      rintro rfl
      rw [closing] at before
      cases before
    rw [update_of_ne apart]
    exact closing

theorem removeOwn_rows (inv : Inv c s) (id : Nat) : ∀ e, e ∈ (removeOwn id s).sessions.rows ↔ e ∈ s.sessions.rows ∧ e.id ≠ id := by
  intro e
  unfold removeOwn
  split
  · rename_i mine
    obtain ⟨inside,_⟩ := get_eq_some.mp mine
    rw [mem_remove]
    refine and_congr_right fun member => ⟨fun apart same => ?_,fun apart same => ?_⟩
    · exact apart (by rw [← inv.owner e member,same])
    have := get_eq_some.mpr ⟨member,same⟩
    rw [mine] at this
    cases this
    exact apart rfl
  · rename_i other
    refine ⟨fun member => ⟨member,fun same => other ?_⟩,And.left⟩
    subst same
    have key := inv.owner e member
    rw [key]
    exact get_eq_some.mpr ⟨member,rfl⟩

theorem removeOwn_length (id : Nat) (s : State) : (removeOwn id s).sessions.rows.length ≤ s.sessions.rows.length := by
  unfold removeOwn
  split
  · exact length_remove_le _ _
  · exact le_rfl

theorem removeOwn_inv (inv : Inv c s) (failed : s.reader id = .failed) : Inv c (removeOwn id s) := by
  have given : id < s.created := inv.reads (by simp [failed])
  have rows := removeOwn_rows inv id
  have reader (other : Nat) (apart : other ≠ id) : (removeOwn id s).reader other = s.reader other := update_of_ne apart ..
  refine ⟨le_trans (removeOwn_length id s) inv.bound,?_,?_,?_,?_⟩
  · intro other beyond
    rw [reader other (ne_of_gt (given.trans_le beyond))]
    exact inv.fresh other beyond
  · intro e member; exact inv.owner e ((rows e).mp member).1
  · intro e member
    obtain ⟨inside,apart⟩ := (rows e).mp member
    rw [reader e.id apart]
    exact inv.held e inside
  · intro other opened
    by_cases mine : other = id
    · subst mine; exact .inr (update_self ..)
    rw [reader other mine]
    refine (inv.kept other opened).imp_left ?_
    rintro ⟨e,member,rfl⟩
    exact ⟨e,(rows e).mpr ⟨member,mine⟩,rfl⟩

theorem close_inv (inv : Inv c s) (closing : s.reader id = .closing) :
    Inv c {s with reader := update s.reader id .gone,socket := update s.socket id false} := by
  have given : id < s.created := inv.reads (by simp [closing])
  refine ⟨inv.bound,?_,inv.owner,?_,?_⟩
  · intro other beyond
    have apart : other ≠ id := ne_of_gt (given.trans_le beyond)
    simp only [update_of_ne apart]
    exact inv.fresh other beyond
  · intro e member
    have apart : e.id ≠ id := by
      intro same
      have := (inv.held e member).2
      rw [same,closing] at this
      cases this
    simp only [update_of_ne apart]
    exact inv.held e member
  · intro other opened
    by_cases mine : other = id
    · simp [mine] at opened
    · simp only [update_of_ne mine] at opened ⊢; exact inv.kept other opened

theorem makeRoom_inv (inv : Inv c s) (sweep : Nat) : Inv c (makeRoom c sweep s) := by
  unfold makeRoom
  split
  · exact {expireLocked_inv inv (s.now + sweep) with}
  · exact inv

theorem makeRoom_absent (absent : s.sessions.get key = none) (sweep : Nat) : (makeRoom c sweep s).sessions.get key = none := by
  unfold makeRoom
  split
  · have gone := get_filter s.sessions (fun e => !idle c s (s.now + sweep) e) key
    rwa [absent] at gone
  · exact absent

theorem makeRoom_keeps (sweep : Nat) (member : e ∈ s.sessions.rows) :
    e ∈ (makeRoom c sweep s).sessions.rows ∨ c.timeout < s.now + sweep - s.lastUsed e.id := by
  unfold makeRoom
  split
  · cases old : idle c s (s.now + sweep) e with
    | false => exact .inl (mem_filter.mpr ⟨member,by rw [old]; rfl⟩)
    | true => exact .inr (of_decide_eq_true old)
  · exact .inl member

theorem handlePacket_inv (inv : Inv c s) : Inv c (handlePacket c key sweep use dials s) := by
  unfold handlePacket
  cases found : s.sessions.get key with
  | some e => exact {inv with}
  | none =>
    have room := makeRoom_inv inv sweep
    have absent := makeRoom_absent (c := c) found sweep
    generalize makeRoom c sweep s = s' at room absent
    dsimp only
    split
    · exact {room with}
    rename_i open_
    split
    · exact {room with}
    · exact createSession_inv {room with} absent (Nat.lt_of_not_le open_)

theorem handlePacket_keeps (member : e ∈ s.sessions.rows) :
    e ∈ (handlePacket c key sweep use dials s).sessions.rows ∨ c.timeout < s.now + sweep - s.lastUsed e.id := by
  unfold handlePacket
  cases found : s.sessions.get key with
  | some _ => exact .inl member
  | none =>
    refine (makeRoom_keeps (c := c) sweep member).imp_left fun kept => ?_
    have absent := makeRoom_absent (c := c) found sweep
    generalize makeRoom c sweep s = s' at kept absent
    dsimp only
    split
    · exact kept
    · split
      · exact kept
      · exact mem_put.mpr (.inr ⟨kept,get_eq_none.mp absent e kept⟩)

theorem step_inv (inv : Inv c s) (ran : step c s e = some t) : Inv c t := by
  cases e with
  | wait d | arrive key => cases ran; exact {inv with}
  | handle key sweep use dials =>
    obtain ⟨_,⟨⟩⟩ := ite_none_right_eq_some.mp ran
    exact handlePacket_inv {inv with}
  | expire =>
    obtain ⟨_,⟨⟩⟩ := ite_none_right_eq_some.mp ran
    exact expireLocked_inv inv s.now
  | cleanupEnds =>
    obtain ⟨_,⟨⟩⟩ := ite_none_left_eq_some.mp ran
    exact {inv with}
  | receive id =>
    obtain ⟨⟨reads,_⟩,⟨⟩⟩ := ite_none_right_eq_some.mp ran
    exact reader_inv inv (by rw [reads]; rfl) rfl
  | touch id | readFails id =>
    obtain ⟨reads,⟨⟩⟩ := ite_none_right_eq_some.mp ran
    exact {reader_inv inv (show (s.reader id).holds by rw [reads]; rfl) rfl with}
  | remove id =>
    obtain ⟨failed,⟨⟩⟩ := ite_none_right_eq_some.mp ran
    exact removeOwn_inv inv failed
  | close id =>
    obtain ⟨closing,⟨⟩⟩ := ite_none_right_eq_some.mp ran
    exact close_inv inv closing
  | closeStop =>
    obtain ⟨_,⟨⟩⟩ := ite_none_right_eq_some.mp ran
    exact {inv with}
  | stop =>
    obtain ⟨_,⟨⟩⟩ := ite_none_right_eq_some.mp ran
    exact stopLocked_inv inv

structure Table (c : Config) (s : State) : Prop where
  bound : s.sessions.rows.length ≤ c.maxSessions
  sockets : ∀ id, s.socket id →
    ((∃ e ∈ s.sessions.rows, e.id = id ∧ ∀ other ∈ s.sessions.rows, other.id = id → other = e) ∧ s.reader id ≠ .closing) ∨
      ((∀ e ∈ s.sessions.rows, e.id ≠ id) ∧ s.reader id = .closing)

theorem inv_table (inv : Inv c s) : Table c s := by
  refine ⟨inv.bound,?_⟩
  intro id opened
  have apart (e : Entry) (member : e ∈ s.sessions.rows) (mine : e.id = id) : s.reader id ≠ .closing := by
    intro closing
    have := (inv.held e member).2
    rw [mine,closing] at this
    cases this
  rcases inv.kept id opened with ⟨e,member,mine⟩ | closing
  · refine .inl ⟨⟨e,member,mine,?_⟩,apart e member mine⟩
    intro other inside same
    exact inv.single inside member (same.trans mine.symm)
  · exact .inr ⟨fun e member mine => apart e member mine closing,closing⟩

def RemovesOwn (c : Config) (s : State) : Prop :=
  ∀ id t, step c s (.remove id) = some t → ∀ e, e ∈ t.sessions.rows ↔ e ∈ s.sessions.rows ∧ e.id ≠ id

def EvictsIdle (c : Config) (s : State) : Prop :=
  ∀ key sweep use dials t, step c s (.handle key sweep use dials) = some t → ∀ e ∈ s.sessions.rows,
    e ∈ t.sessions.rows ∨ c.timeout < s.now + (sweep : Nat) - s.lastUsed e.id

def BeforeStop (s : State) : Event → Prop
  | .handle .. => s.stage ≠ .stopped
  | _ => True

instance (s : State) : (e : Event) → Decidable (BeforeStop s e) := by
  intros
  unfold BeforeStop
  split <;> infer_instance

theorem handlePacket_stage : (handlePacket c key sweep use dials s).stage = s.stage := by
  have room : (makeRoom c sweep s).stage = s.stage := by unfold makeRoom; split <;> rfl
  unfold handlePacket
  cases s.sessions.get key with
  | some e => rfl
  | none =>
    dsimp only
    split
    · exact room
    · split <;> exact room

structure Stopped (c : Config) (s : State) : Prop where
  empty : s.stage = .stopped → s.sessions.rows = []
  stays : s.stage = .stopped → ∀ e t, step c s e = some t → t.stage = .stopped

theorem step_stopped (empty : s.stage = .stopped → s.sessions.rows = []) (ran : step c s e = some t) :
    (s.stage = .stopped → t.stage = .stopped) ∧ (BeforeStop s e → t.stage = .stopped → t.sessions.rows = []) := by
  cases e with
  | handle key sweep use dials =>
    obtain ⟨_,⟨⟩⟩ := ite_none_right_eq_some.mp ran
    rw [handlePacket_stage]
    exact ⟨id,fun before stopped => absurd stopped before⟩
  | expire =>
    obtain ⟨_,⟨⟩⟩ := ite_none_right_eq_some.mp ran
    refine ⟨id,fun _ stopped => ?_⟩
    show s.sessions.rows.filter _ = []
    rw [empty stopped,List.filter_nil]
  | remove id =>
    obtain ⟨_,⟨⟩⟩ := ite_none_right_eq_some.mp ran
    refine ⟨fun stopped => stopped,fun _ stopped => ?_⟩
    have shorter := removeOwn_length id s
    rw [empty stopped] at shorter
    exact List.eq_nil_of_length_eq_zero (le_zero.mp shorter)
  | closeStop =>
    obtain ⟨running,⟨⟩⟩ := ite_none_right_eq_some.mp ran
    rw [running]
    exact ⟨nofun,fun _ => nofun⟩
  | stop =>
    obtain ⟨_,⟨⟩⟩ := ite_none_right_eq_some.mp ran
    exact ⟨fun _ => rfl,fun _ _ => rfl⟩
  | cleanupEnds =>
    obtain ⟨_,⟨⟩⟩ := ite_none_left_eq_some.mp ran
    exact ⟨id,fun _ => empty⟩
  | wait d | arrive key => cases ran; exact ⟨id,fun _ => empty⟩
  | _ =>
    obtain ⟨_,⟨⟩⟩ := ite_none_right_eq_some.mp ran
    exact ⟨fun stopped => stopped,fun _ => empty⟩

theorem udp_sessions (c : Config) (now : Int) :
    (∀ s, Reached (step c) (fun _ _ => True) (start now) s → Table c s ∧ RemovesOwn c s ∧ EvictsIdle c s) ∧
    ∀ s, Reached (step c) BeforeStop (start now) s → Table c s ∧ RemovesOwn c s ∧ EvictsIdle c s ∧ Stopped c s := by
  have steps {allowed : State → Event → Prop} (s : State) (path : Reached (step c) allowed (start now) s) :
      Table c s ∧ RemovesOwn c s ∧ EvictsIdle c s := by
    have inv := reached_invariant (Inv c) (start_inv now) (fun inv _ ran => step_inv inv ran) path
    refine ⟨inv_table inv,?_,?_⟩
    · intro id t ran
      obtain ⟨_,⟨⟩⟩ := ite_none_right_eq_some.mp ran
      exact removeOwn_rows inv id
    · intro key sweep use dials t ran e member
      obtain ⟨_,⟨⟩⟩ := ite_none_right_eq_some.mp ran
      exact handlePacket_keeps (s := {s with waiting := s.waiting.erase key}) member
  refine ⟨steps,fun s path => ?_⟩
  obtain ⟨table,own,idle⟩ := steps s path
  have empty := reached_invariant (fun s => s.stage = .stopped → s.sessions.rows = []) (fun stopped => by cases stopped)
    (fun empty before ran => (step_stopped empty ran).2 before) path
  exact ⟨table,own,idle,empty,fun stopped e t ran => (step_stopped empty ran).1 stopped⟩

def twoSessions : Config := ⟨[lit "10.0.0.1:53"],60,2,by simp,by decide⟩

theorem udp_sessions_stopped : ∃ s, Reached (step twoSessions) BeforeStop (start 0) s ∧ s.created = 1 ∧ s.stage = .stopped ∧ s.sessions.rows = [] := by
  refine shown_reached (fun s => (s.created,s.stage)) (1,.stopped)
    [.arrive (lit "a"),.handle (lit "a") 0 0 true,.closeStop,.stop,.readFails 0,.remove 0,.close 0] (by decide +kernel) fun s path same => ?_
  obtain ⟨created,stage⟩ := Prod.mk.inj same
  exact ⟨created,stage,((udp_sessions twoSessions 0).2 s path).2.2.2.empty stage⟩

-- A packet that waits for the lock while Stop has it leaves a session behind.
theorem session_after_stop :
    (run (step twoSessions) (start 0) [.arrive (lit "a"),.closeStop,.stop,.cleanupEnds,.handle (lit "a") 0 0 true]).map
      (fun s => (s.stage,s.waiting,s.sessions.rows,s.socket 0)) = some (Stage.stopped,[],[⟨lit "a",0⟩],true) := by
  decide +kernel

end Gateon.L4.UdpSession
