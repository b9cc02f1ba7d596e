import Gateon.Go.Netip
import Gateon.Lib.Transition
import Mathlib.Data.List.Count

namespace Gateon.Server.Admission
open Go Transition List Option
open Function (iterate_succ_apply update update_of_ne update_self)

def connKeyIPv6Bits : Nat := 64

def keyOf : Addr → Addr
  | .v4 bytes size => .v4 bytes size
  | .v6 bytes size _ => .v6 (maskBytes bytes connKeyIPv6Bits) (by rw [length_maskBytes,size]) []

-- An IPv4 address as itself, an IPv6 address as its /64.
def connKey (ip : GoString) : Option Addr := (parseAddr ip).map fun a => keyOf a.unmap

structure PerAddrLimiter where
  limit : Nat
  positive : 0 < limit

-- The cap is off when its limit is not positive.
def newPerAddrLimiter (limit : Int) : Option PerAddrLimiter := if on : 0 < limit then some ⟨limit.toNat,Int.pos_iff_toNat_pos.mp on⟩ else none

-- Slots of the entrypoint, the per-address cap, and who is exempt.
structure Listener where
  limit : Nat
  perAddr : Option PerAddrLimiter
  exemptFromEnforcement : GoString → Bool

variable (l : Listener)

def perAddrExempt (ip : GoString) : Bool := ip == [] || l.exemptFromEnforcement ip
def counted (ip : GoString) : Option Addr := if l.perAddr.isNone || perAddrExempt l ip then none else connKey ip

abbrev Counts := Addr → Option Nat

def acquire (counts : Counts) (ip : GoString) : Option Counts :=
  match l.perAddr with
  | none => some counts
  | some p =>
    if perAddrExempt l ip then some counts
    else match connKey ip with
      | none => some counts
      | some key => if p.limit ≤ (counts key).getD 0 then none else some (update counts key (some ((counts key).getD 0 + 1)))

def release (counts : Counts) (ip : GoString) : Counts :=
  match counted l ip with
  | none => counts
  | some key => update counts key (if (counts key).getD 0 ≤ 1 then none else some ((counts key).getD 0 - 1))

-- Between two atomic steps: what the connection holds and still has to give back.
inductive Phase where
  | arrived
  | holding
  | refusing
  | admitted
  | closing
  | releasing
  | closed
  | refused
  deriving DecidableEq, Repr

structure Conn where
  addr : GoString
  phase : Phase
  deriving DecidableEq, Repr

structure State where
  conns : List Conn
  held : Int
  counts : Counts

def start : State := ⟨[],0,fun _ => none⟩
def State.to (s : State) (i : Nat) (conn : Conn) (phase : Phase) : State := {s with conns := s.conns.set i ⟨conn.addr,phase⟩}

def advance (i : Nat) (s : State) : State :=
  match s.conns[i]? with
  | none => s
  | some conn =>
    match conn.phase with
    | .arrived => if s.held < l.limit then {s.to i conn .holding with held := s.held+1} else s.to i conn .refused
    | .holding =>
      match acquire l s.counts conn.addr with
      | none => s.to i conn .refusing
      | some counts => {s.to i conn .admitted with counts := counts}
    | .refusing => {s.to i conn .refused with held := s.held-1}
    | .closing => {s.to i conn .releasing with held := s.held-1}
    | .releasing => {s.to i conn .closed with counts := release l s.counts conn.addr}
    | _ => s

def close (i : Nat) (s : State) : State :=
  match s.conns[i]? with
  | none => s
  | some conn => if conn.phase = .admitted then s.to i conn .closing else s

inductive Event where
  | arrive (addr : GoString)
  | advance (i : Nat)
  | close (i : Nat)

def step (s : State) : Event → Option State
  | .arrive addr => some {s with conns := s.conns ++ [⟨addr,.arrived⟩]}
  | .advance i => some (advance l i s)
  | .close i => some (close i s)

def Phase.slotted : Phase → Bool
  | .holding | .refusing | .admitted | .closing => true
  | _ => false

def Phase.listed : Phase → Bool
  | .admitted | .closing | .releasing => true
  | _ => false

def holdsSlot (conn : Conn) : Bool := conn.phase.slotted
def holdsKey (key : Addr) (conn : Conn) : Bool := conn.phase.listed && decide (counted l conn.addr = some key)

structure Inv (s : State) : Prop where
  held : s.held = s.conns.countP holdsSlot
  bound : s.held ≤ l.limit
  counts : ∀ key, (s.counts key).getD 0 = s.conns.countP (holdsKey l key)
  filled : ∀ key, s.counts key ≠ some 0
  capped : ∀ p, l.perAddr = some p → ∀ key, (s.counts key).getD 0 ≤ p.limit

variable {l}

theorem countP_move {p : Conn → Bool} {conns : List Conn} (place : conns[i]? = some conn) (next : Conn) :
    (conns.set i next).countP p + (if p conn then 1 else 0) = conns.countP p + if p next then 1 else 0 := by
  obtain ⟨inside,same⟩ := List.getElem?_eq_some_iff.mp place
  rw [countP_set inside,same]
  have counted : p conn → 0 < conns.countP p := fun holds => countP_pos_iff.mpr ⟨conn,mem_of_getElem? place,holds⟩
  cases holds : p conn with
  | false => simp
  | true =>
    have := counted holds
    simp only [if_true]
    omega

theorem acquire_counted (counts : Counts) (ip : GoString) : acquire l counts ip =
    (counted l ip).elim (some counts) fun key => if l.perAddr.elim 0 PerAddrLimiter.limit ≤ (counts key).getD 0 then none
      else some (update counts key (some ((counts key).getD 0 + 1))) := by
  unfold acquire counted
  cases l.perAddr with
  | none => rfl
  | some p =>
    dsimp only
    split
    · rename_i exempt; simp [exempt]
    · rename_i enforced
      simp only [enforced]
      cases connKey ip <;> rfl

theorem start_inv : Inv l start :=
  ⟨rfl,Int.natCast_nonneg _,fun _ => rfl,fun _ => by simp [start],fun _ _ _ => Nat.zero_le _⟩

structure Kept (l : Listener) (counts : Counts) : Prop where
  filled : ∀ key, counts key ≠ some 0
  capped : ∀ p, l.perAddr = some p → ∀ key, (counts key).getD 0 ≤ p.limit

theorem getD_update (counts : Counts) (key : Addr) (n : Option Nat) (other : Addr) :
    (update counts key n other).getD 0 = if other = key then n.getD 0 else (counts other).getD 0 := by
  by_cases same : other = key
  · rw [same,update_self,if_pos rfl]
  · rw [update_of_ne same,if_neg same]

theorem acquire_grants (kept : Kept l counts) (got : acquire l counts ip = some counts') :
    Kept l counts' ∧ ∀ key, (counts' key).getD 0 = (counts key).getD 0 + if counted l ip = some key then 1 else 0 := by
  rw [acquire_counted] at got
  cases tracked : counted l ip with
  | none =>
    rw [tracked] at got
    cases got
    exact ⟨kept,fun key => by simp⟩
  | some key =>
    rw [tracked,elim_some] at got
    obtain ⟨room,⟨⟩⟩ := ite_none_left_eq_some.mp got
    refine ⟨⟨fun other => ?_,fun p on other => ?_⟩,fun other => ?_⟩
    · by_cases same : other = key
      · rw [same,update_self]; simp
      · rw [update_of_ne same]; exact kept.filled other
    · rw [on,elim_some] at room
      rw [getD_update]
      split
      · exact Nat.lt_of_not_le room
      · exact kept.capped p on other
    · rw [getD_update]
      by_cases same : other = key
      · simp [same]
      · simp [same,Ne.symm same]

theorem release_returns (kept : Kept l counts) (holds : ∀ key, counted l ip = some key → 0 < (counts key).getD 0) :
    Kept l (release l counts ip) ∧ ∀ key, ((release l counts ip) key).getD 0 + (if counted l ip = some key then 1 else 0) = (counts key).getD 0 := by
  unfold release
  cases tracked : counted l ip with
  | none => exact ⟨kept,fun key => by simp⟩
  | some key =>
    have positive := holds key tracked
    dsimp only
    refine ⟨⟨fun other => ?_,fun p on other => ?_⟩,fun other => ?_⟩
    · by_cases same : other = key
      · rw [same,update_self]
        split
        · simp
        · rw [ne_eq,Option.some.injEq]; omega
      · rw [update_of_ne same]; exact kept.filled other
    · rw [getD_update]
      have before := kept.capped p on
      split
      · have := before key
        split
        · exact Nat.zero_le _
        · rw [getD_some]; omega
      · exact before other
    · rw [getD_update]
      by_cases same : other = key
      · subst same
        simp only [if_true]
        split
        · simp only [getD_none]; omega
        · rw [getD_some]; omega
      · simp [same,Ne.symm same]

section
variable (inv : Inv l s)
include inv

theorem Inv.kept : Kept l s.counts := {inv with}

theorem move_inv (place : s.conns[i]? = some conn) (phase : Phase) (held : Int) (counts : Counts)
    (bound : held ≤ l.limit) (kept : Kept l counts)
    (slots : held + (if holdsSlot conn then 1 else 0 : Nat) = s.held + (if holdsSlot ⟨conn.addr,phase⟩ then 1 else 0 : Nat) := by
      simp [holdsSlot,Phase.slotted])
    (keys : ∀ key, (counts key).getD 0 + (if holdsKey l key conn then 1 else 0) =
      (s.counts key).getD 0 + if holdsKey l key ⟨conn.addr,phase⟩ then 1 else 0 := by simp [holdsKey,Phase.listed]) :
    Inv l ⟨s.conns.set i ⟨conn.addr,phase⟩,held,counts⟩ := by
  refine ⟨?_,bound,?_,kept.filled,kept.capped⟩
  · have moved := countP_move (p := holdsSlot) place ⟨conn.addr,phase⟩
    rw [inv.held] at slots
    dsimp only
    omega
  · intro key
    have moved := countP_move (p := holdsKey l key) place ⟨conn.addr,phase⟩
    have before := inv.counts key
    have now := keys key
    dsimp only
    omega

theorem advance_inv (i : Nat) : Inv l (advance l i s) := by
  unfold advance
  cases place : s.conns[i]? with
  | none => exact inv
  | some conn =>
    obtain ⟨addr,phase⟩ := conn
    cases phase with
    | arrived =>
      dsimp only
      split
      · exact move_inv inv place .holding (s.held+1) s.counts (by omega) inv.kept
      · exact move_inv inv place .refused _ _ inv.bound inv.kept
    | holding =>
      dsimp only
      split
      · exact move_inv inv place .refusing _ _ inv.bound inv.kept
      rename_i counts got
      obtain ⟨kept,granted⟩ := acquire_grants inv.kept got
      refine move_inv inv place .admitted _ _ inv.bound kept rfl fun key => ?_
      rw [granted key]
      simp [holdsKey,Phase.listed]
    | refusing =>
      have := inv.bound
      exact move_inv inv place .refused (s.held-1) s.counts (by omega) inv.kept
    | closing =>
      have := inv.bound
      exact move_inv inv place .releasing (s.held-1) s.counts (by omega) inv.kept
    | releasing =>
      have holds (key : Addr) (mine : counted l addr = some key) : 0 < (s.counts key).getD 0 := by
        rw [inv.counts key]
        exact countP_pos_iff.mpr ⟨_,mem_of_getElem? place,by simp [holdsKey,Phase.listed,mine]⟩
      obtain ⟨kept,returned⟩ := release_returns inv.kept holds
      refine move_inv inv place .closed _ _ inv.bound kept rfl fun key => ?_
      have := returned key
      simpa [holdsKey,Phase.listed] using this
    | admitted | closed | refused => exact inv

theorem close_inv (i : Nat) : Inv l (close i s) := by
  unfold close
  cases place : s.conns[i]? with
  | none => exact inv
  | some conn =>
    obtain ⟨addr,phase⟩ := conn
    dsimp only
    split
    · rename_i open_
      cases open_
      exact move_inv inv place .closing _ _ inv.bound inv.kept
    · exact inv

theorem arrive_inv (addr : GoString) : Inv l {s with conns := s.conns ++ [⟨addr,.arrived⟩]} := by
  refine {inv with held := ?_,counts := fun key => ?_}
  · rw [countP_append]; exact inv.held
  · rw [countP_append]; exact inv.counts key

theorem step_inv (ran : step l s e = some t) : Inv l t := by
  cases e with
  | arrive addr => cases ran; exact arrive_inv inv addr
  | advance i => cases ran; exact advance_inv inv i
  | close i => cases ran; exact close_inv inv i

end

def Phase.left : Phase → Nat
  | .arrived => 3
  | .holding => 2
  | .refusing => 1
  | .closing => 2
  | .releasing => 1
  | _ => 0

def Phase.entering : Phase → Bool
  | .closing | .releasing | .closed => false
  | _ => true

def AtRest (s : State) : Prop := ∀ conn ∈ s.conns, conn.phase.left = 0
def isOpen (conn : Conn) : Bool := conn.phase = .admitted
def isOpenUnder (l : Listener) (key : Addr) (conn : Conn) : Bool := isOpen conn && decide (counted l conn.addr = some key)

structure Exact (l : Listener) (s : State) : Prop where
  held : s.held = s.conns.countP isOpen
  counts : ∀ key, (s.counts key).getD 0 = s.conns.countP (isOpenUnder l key)

theorem rest_exact (inv : Inv l s) (rest : AtRest s) : Exact l s := by
  refine ⟨?_,fun key => ?_⟩
  · rw [inv.held]
    congr 1
    refine countP_congr fun conn member => ?_
    have done := rest conn member
    obtain ⟨addr,phase⟩ := conn
    cases phase <;> simp_all [holdsSlot,isOpen,Phase.slotted,Phase.left]
  · rw [inv.counts key]
    refine countP_congr fun conn member => ?_
    have done := rest conn member
    obtain ⟨addr,phase⟩ := conn
    cases phase <;> simp_all [holdsKey,isOpenUnder,isOpen,Phase.listed,Phase.left]

theorem advance_conns (l : Listener) (place : s.conns[i]? = some conn) :
    ∃ phase, phase.left ≤ conn.phase.left - 1 ∧ (conn.phase.entering → phase.entering) ∧
      (advance l i s).conns = s.conns.set i ⟨conn.addr,phase⟩ := by
  obtain ⟨inside,same⟩ := List.getElem?_eq_some_iff.mp place
  have still : s.conns = s.conns.set i conn := by rw [← same,set_getElem_self]
  unfold advance
  rw [place]
  obtain ⟨addr,phase⟩ := conn
  cases phase with
  | arrived =>
    dsimp only
    split
    · exact ⟨.holding,le_rfl,fun _ => rfl,rfl⟩
    · exact ⟨.refused,Nat.zero_le _,fun _ => rfl,rfl⟩
  | holding =>
    dsimp only
    split
    · exact ⟨.refusing,le_rfl,fun _ => rfl,rfl⟩
    · exact ⟨.admitted,Nat.zero_le _,fun _ => rfl,rfl⟩
  | refusing => exact ⟨.refused,le_rfl,fun _ => rfl,rfl⟩
  | closing => exact ⟨.releasing,le_rfl,id,rfl⟩
  | releasing => exact ⟨.closed,le_rfl,id,rfl⟩
  | admitted => exact ⟨.admitted,le_rfl,id,still⟩
  | closed => exact ⟨.closed,le_rfl,id,still⟩
  | refused => exact ⟨.refused,le_rfl,id,still⟩

theorem settle (l : Listener) (n : Nat) (place : s.conns[i]? = some conn) :
    ∃ phase, phase.left ≤ conn.phase.left - n ∧ (conn.phase.entering → phase.entering) ∧
      ((advance l i)^[n] s).conns = s.conns.set i ⟨conn.addr,phase⟩ := by
  induction n generalizing s conn with
  | zero =>
    obtain ⟨inside,same⟩ := List.getElem?_eq_some_iff.mp place
    exact ⟨conn.phase,le_rfl,id,by rw [← same,set_getElem_self]; rfl⟩
  | succ n ih =>
    obtain ⟨first,fewer,enters,conns⟩ := advance_conns l place
    have there : (advance l i s).conns[i]? = some ⟨conn.addr,first⟩ := by
      rw [conns,getElem?_set_self (List.getElem?_eq_some_iff.mp place).1]
    obtain ⟨phase,few,still,final⟩ := ih there
    refine ⟨phase,by dsimp only at few; omega,still ∘ enters,?_⟩
    rw [iterate_succ_apply,final,conns,set_set]

-- Accept and Close as their callers see them.
inductive Op where
  | accept (addr : GoString)
  | close (i : Nat)

def operate (l : Listener) (s : State) : Op → Option State
  | .accept addr => some ((advance l s.conns.length)^[3] {s with conns := s.conns ++ [⟨addr,.arrived⟩]})
  | .close i => some ((advance l i)^[2] (close i s))

theorem advances_inv (inv : Inv l s) (i n : Nat) : Inv l ((advance l i)^[n] s) := by
  induction n generalizing s with
  | zero => exact inv
  | succ n ih => exact ih (advance_inv inv i)

theorem operate_inv (inv : Inv l s) (ran : operate l s op = some t) : Inv l t := by
  cases op with
  | accept addr => cases ran; exact advances_inv (arrive_inv inv addr) _ 3
  | close i => cases ran; exact advances_inv (close_inv inv i) _ 2

theorem accept_conns (l : Listener) (s : State) (addr : GoString) : ∃ phase, (phase = .admitted ∨ phase = .refused) ∧
    ((advance l s.conns.length)^[3] {s with conns := s.conns ++ [⟨addr,.arrived⟩]}).conns = s.conns ++ [⟨addr,phase⟩] := by
  have place : (s.conns ++ [⟨addr,.arrived⟩])[s.conns.length]? = some ⟨addr,.arrived⟩ := by simp
  obtain ⟨phase,few,enters,final⟩ := settle l 3 (s := {s with conns := s.conns ++ [⟨addr,.arrived⟩]}) place
  refine ⟨phase,?_,?_⟩
  · have entered := enters rfl; cases phase <;> simp_all [Phase.left,Phase.entering]
  · rw [final]; simp

theorem rest_set {next} {conns : List Conn} (rest : ∀ conn ∈ conns, conn.phase.left = 0) (done : next.phase.left = 0) :
    ∀ conn ∈ conns.set i next, conn.phase.left = 0 := by
  intro conn member
  rcases mem_or_eq_of_mem_set member with old | rfl
  · exact rest conn old
  · exact done

theorem close_rest (l : Listener) (rest : AtRest s) (i : Nat) : AtRest ((advance l i)^[2] (close i s)) := by
  cases place : s.conns[i]? with
  | none =>
    have same : close i s = s := by simp [close,place]
    have still : advance l i s = s := by simp [advance,place]
    rw [same,iterate_succ_apply,iterate_succ_apply,still,still]
    exact rest
  | some conn =>
    by_cases opened : conn.phase = .admitted
    · have closing : close i s = s.to i conn .closing := by simp [close,place,opened]
      have there : (s.to i conn .closing).conns[i]? = some ⟨conn.addr,.closing⟩ :=
        getElem?_set_self (List.getElem?_eq_some_iff.mp place).1
      obtain ⟨phase,few,_,final⟩ := settle l 2 there
      unfold AtRest
      rw [closing,final]
      simp only [State.to,set_set]
      exact rest_set rest (Nat.le_zero.mp few)
    · have same : close i s = s := by simp [close,place,opened]
      obtain ⟨phase,few,_,final⟩ := settle l 2 place
      rw [rest conn (mem_of_getElem? place),Nat.zero_sub] at few
      unfold AtRest
      rw [same,final]
      exact rest_set rest (Nat.le_zero.mp few)

theorem operate_rest (rest : AtRest s) (ran : operate l s op = some t) : AtRest t := by
  cases op with
  | accept addr =>
    cases ran
    obtain ⟨phase,done,conns⟩ := accept_conns l s addr
    unfold AtRest
    rw [conns]
    exact forall_snoc rest (by rcases done with rfl | rfl <;> rfl)
  | close i => cases ran; exact close_rest l rest i

def RefusalFree (l : Listener) (s : State) : Prop :=
  ∀ addr t, operate l s (.accept addr) = some t → ∃ phase, t.conns = s.conns ++ [⟨addr,phase⟩] ∧ (phase = .admitted ∨ phase = .refused) ∧
    (phase = .refused → t.held = s.held)

theorem refusal_free (inv : Inv l s) : RefusalFree l s := by
  intro addr t ran
  have after := operate_inv inv ran
  cases ran
  obtain ⟨phase,done,conns⟩ := accept_conns l s addr
  refine ⟨phase,conns,done,?_⟩
  rintro rfl
  have before := inv.held
  have now := after.held
  rw [conns,countP_append] at now
  rw [now,before]
  simp [holdsSlot,Phase.slotted]

-- The bytes of an IPv4 address, mapped or not, and of any other IPv6 address.
def ipv4 (a : Addr) : Option (List UInt8) := match a.unmap with
  | .v4 bytes _ => some bytes
  | .v6 .. => none

def ipv6 (a : Addr) : Option (List UInt8) := match a.unmap with
  | .v4 .. => none
  | .v6 bytes _ _ => some bytes

theorem maskBytes_whole (bytes : List UInt8) (k : Nat) : maskBytes bytes (8*k) = bytes.take k ++ List.replicate (bytes.length - k) 0 := by
  induction bytes generalizing k with
  | nil => simp [maskBytes]
  | cons b rest ih =>
    cases k with
    | zero =>
      have zeros := ih 0
      rw [Nat.mul_zero] at zeros
      simp [maskBytes,zeros,replicate_succ,show ~~~(255 : UInt8) = 0 from rfl]
    | succ k => rw [maskBytes,if_pos (by omega),show 8*(k+1) - 8 = 8*k by omega,ih]; simp

theorem connKey_shared (one : parseAddr a = some x) (two : parseAddr b = some y) : connKey a = connKey b ↔
    (∃ bytes, ipv4 x = some bytes ∧ ipv4 y = some bytes) ∨ ∃ p q, ipv6 x = some p ∧ ipv6 y = some q ∧ p.take 8 = q.take 8 := by
  unfold connKey ipv4 ipv6
  rw [one,two,map_some,map_some,Option.some.injEq]
  cases x.unmap with
  | v4 p _ =>
    cases y.unmap with
    | v4 q _ => simp [keyOf,eq_comm]
    | v6 q _ _ => simp [keyOf]
  | v6 p size _ =>
    cases y.unmap with
    | v4 q _ => simp [keyOf]
    | v6 q size' _ =>
      have mask (bytes : List UInt8) (size : bytes.length = 16) : maskBytes bytes connKeyIPv6Bits = bytes.take 8 ++ List.replicate 8 0 := by
        have := maskBytes_whole bytes 8
        rwa [size] at this
      simp [keyOf,mask p size,mask q size']

theorem caps_hold (l : Listener) :
    (∀ s, Reached (step l) (fun _ _ => True) start s → Inv l s ∧ (AtRest s → Exact l s)) ∧
    (∀ s, Reached (operate l) (fun _ _ => True) start s → Inv l s ∧ Exact l s ∧ RefusalFree l s) ∧
    ∀ a b x y, parseAddr a = some x → parseAddr b = some y → (connKey a = connKey b ↔
      (∃ bytes, ipv4 x = some bytes ∧ ipv4 y = some bytes) ∨ ∃ p q, ipv6 x = some p ∧ ipv6 y = some q ∧ p.take 8 = q.take 8) := by
  refine ⟨fun s path => ?_,fun s path => ?_,fun a b x y => connKey_shared⟩
  · have inv := reached_invariant (Inv l) start_inv (fun inv _ ran => step_inv inv ran) path
    exact ⟨inv,rest_exact inv⟩
  · obtain ⟨inv,rest⟩ := reached_invariant (fun s => Inv l s ∧ AtRest s) ⟨start_inv,nofun⟩
      (fun both _ ran => ⟨operate_inv both.1 ran,operate_rest both.2 ran⟩) path
    exact ⟨inv,rest_exact inv rest,refusal_free inv⟩

def oneEach : Listener := ⟨2,newPerAddrLimiter 1,fun _ => false⟩

-- A mapped address shares the IPv4 address's slot, and a connection closed twice gives it back once.
theorem caps_hold_twice : ∃ s, Reached (operate oneEach) (fun _ _ => True) start s ∧
    s.conns.map Conn.phase = [.closed,.refused,.admitted] ∧ s.held = 1 ∧ Exact oneEach s := by
  refine shown_reached (fun s => (s.conns.map Conn.phase,s.held)) ([.closed,.refused,.admitted],1)
    [.accept (lit "1.2.3.4"),.accept (lit "::ffff:1.2.3.4"),.close 0,.close 0,.accept (lit "1.2.3.4")] (by decide +kernel) fun s path same => ?_
  obtain ⟨phases,held⟩ := Prod.mk.inj same
  exact ⟨phases,held,((caps_hold oneEach).2.1 s path).2.1⟩

end Gateon.Server.Admission
