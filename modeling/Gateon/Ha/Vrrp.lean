import Gateon.Go.Encoding
import Gateon.Go.Netip
import Gateon.Go.Time
import Mathlib.Data.List.Nodup
import Gateon.Lib.Transition

namespace Gateon.Ha
open Go List Transition

def advertBodyLen : Nat := 16
def advertLen : Nat := advertBodyLen+32

structure Mac where
  tag : List UInt8 → List UInt8 → List UInt8
  size : ∀ body key, (tag body key).length = 32

structure Advert where
  vrid : Int32
  priority : Int32
  sent : Int64

inductive AdvertError where
  | noAuthPass
  | malformed (got : Nat)
  | unauthenticated
  | stale (skew : Int)

def body (a : Advert) : List UInt8 :=
  putUint 4 a.vrid.toBitVec.toNat ++ putUint 4 a.priority.toBitVec.toNat ++ putUint 8 a.sent.toBitVec.toNat
def encodeAdvert (mac : Mac) (a : Advert) (key : List UInt8) : Except AdvertError (List UInt8) :=
  if key = [] then .error .noAuthPass else .ok (body a ++ mac.tag (body a) key)

def readBody (buf : List UInt8) : Advert where
  vrid := .ofBitVec (.ofNat 32 (getUint (buf.take 4)))
  priority := .ofBitVec (.ofNat 32 (getUint ((buf.drop 4).take 4)))
  sent := .ofBitVec (.ofNat 64 (getUint ((buf.drop 8).take 8)))

def verifies (mac : Mac) (buf key : List UInt8) : Bool := buf.drop advertBodyLen == mac.tag (buf.take advertBodyLen) key

def parseAdvert (mac : Mac) (buf key : List UInt8) (now window : Int) : Except AdvertError Advert :=
  if key = [] then .error .noAuthPass
  else if buf.length ≠ advertLen then .error (.malformed buf.length)
  else if !verifies mac buf key then .error .unauthenticated
  else
    let a := readBody buf
    let skew := now - a.sent.toInt
    if window < skew ∨ skew < -window then .error (.stale skew) else .ok a

def replayWindow (advertInt : Int) : Int := if 10*second < 3*advertInt then 3*advertInt else 10*second

def peerOutranks (peerPriority myPriority : Int32) (peerIP myIP : Option (List UInt8)) : Bool :=
  if peerPriority ≠ myPriority then decide (myPriority < peerPriority)
  else match myIP,peerIP with
    | none,_ => true
    | some _,none => false
    | some mine,some theirs => decide (to16 mine < to16 theirs)

theorem readBody_body (a : Advert) (tail : List UInt8) : readBody (body a ++ tail) = a := by
  have word (w : Nat) (n : BitVec (8*w)) : BitVec.ofNat (8*w) (getUint (putUint w n.toNat)) = n := by
    have fits : n.toNat < 256^w := (pow_mul 2 8 w ▸ n.isLt :)
    rw [getUint_putUint,Nat.mod_eq_of_lt fits,BitVec.ofNat_toNat,BitVec.setWidth_eq]
  have first : (body a ++ tail).take 4 = putUint 4 a.vrid.toBitVec.toNat := by simp [body]
  have middle : ((body a ++ tail).drop 4).take 4 = putUint 4 a.priority.toBitVec.toNat := by
    simp [body]
  have last : ((body a ++ tail).drop 8).take 8 = putUint 8 a.sent.toBitVec.toNat := by
    simp [body,drop_append,take_append]
  rw [readBody,first,middle,last,word 4,word 4,word 8,Int32.ofBitVec_toBitVec,Int32.ofBitVec_toBitVec,Int64.ofBitVec_toBitVec]

theorem parseAdvert_ok (parsed : parseAdvert mac buf key now window = .ok a) :
    verifies mac buf key ∧ a = readBody buf ∧ now - a.sent.toInt ≤ window ∧ -window ≤ now - a.sent.toInt := by
  unfold parseAdvert at parsed
  split at parsed
  · cases parsed
  split at parsed
  · cases parsed
  split at parsed
  · cases parsed
  rename_i verified
  dsimp only at parsed
  split at parsed
  · cases parsed
  rename_i near
  cases parsed
  refine ⟨by simpa using verified,rfl,?_,?_⟩ <;> omega

theorem encodeAdvert_ok (encoded : encodeAdvert mac a key = .ok buf) : buf = body a ++ mac.tag (body a) key := by
  unfold encodeAdvert at encoded
  split at encoded
  · cases encoded
  · cases encoded; rfl

theorem readBody_encoded (encoded : encodeAdvert mac a key = .ok buf) : readBody buf = a := by
  rw [encodeAdvert_ok encoded,readBody_body]

theorem peerOutranks_parts (outranks : peerOutranks p q theirs mine) :
    q < p ∨ p = q ∧ (mine = none ∨ ∃ a b, mine = some a ∧ theirs = some b ∧ to16 a < to16 b) := by
  unfold peerOutranks at outranks
  split at outranks
  · exact .inl (of_decide_eq_true outranks)
  rename_i same
  refine .inr ⟨not_not.mp same,?_⟩
  split at outranks
  · exact .inl rfl
  · cases outranks
  · exact .inr ⟨_,_,rfl,rfl,of_decide_eq_true outranks⟩

-- A member of a pool as the election sees it, with the address it was found to have.
structure Candidate where
  priority : Int32
  address : List UInt8

def Candidate.outranks (peer self : Candidate) : Bool :=
  peerOutranks peer.priority self.priority (some peer.address) (some self.address)

section
variable {a b c : Candidate}

theorem outranks_iff : a.outranks b ↔
    b.priority.toInt < a.priority.toInt ∨ a.priority = b.priority ∧ to16 b.address < to16 a.address := by
  unfold Candidate.outranks peerOutranks
  split
  · rename_i apart; simp [apart,Int32.lt_iff_toInt_lt]
  · rename_i same; simp [not_not.mp same]

theorem outranks_irrefl (a : Candidate) : ¬a.outranks a := by
  rw [outranks_iff]
  rintro (less | ⟨_,less⟩)
  · exact lt_irrefl _ less
  · exact List.lt_irrefl _ less

theorem outranks_trans (first : a.outranks b) (second : b.outranks c) : a.outranks c := by
  rw [outranks_iff] at *
  rcases first with less | ⟨same,less⟩ <;> rcases second with less' | ⟨same',less'⟩
  · exact .inl (less'.trans less)
  · exact .inl (same' ▸ less)
  · exact .inl (same ▸ less')
  · exact .inr ⟨same.trans same',List.lt_trans less' less⟩

theorem outranks_total (apart : to16 a.address ≠ to16 b.address) : a.outranks b ∨ b.outranks a := by
  rw [outranks_iff,outranks_iff]
  rcases lt_trichotomy a.priority.toInt b.priority.toInt with less | same | more
  · exact .inr (.inl less)
  · have equal := Int32.toInt_inj.mp same
    by_cases less : to16 a.address < to16 b.address
    · exact .inr (.inr ⟨equal.symm,less⟩)
    have more : to16 b.address < to16 a.address := by
      by_contra other
      exact apart (List.le_antisymm (List.not_lt.mp other) (List.not_lt.mp less))
    exact .inl (.inr ⟨equal,more⟩)
  · exact .inl (.inl more)

theorem outranks_asymm (first : a.outranks b) : b.outranks a = false :=
  Bool.eq_false_iff.mpr fun second => outranks_irrefl a (outranks_trans first second)

-- Whoever outranks the best of the others outranks all of them.
theorem unoutranked_exists : ∀ pool : List Candidate, pool ≠ [] → ∃ n ∈ pool, ∀ m ∈ pool, m.outranks n = false := by
  intro pool filled
  induction pool with
  | nil => exact absurd rfl filled
  | cons a rest ih =>
    have self := Bool.eq_false_iff.mpr (outranks_irrefl a)
    by_cases alone : rest = []
    · exact ⟨a,mem_cons_self,by simpa [alone] using self⟩
    obtain ⟨best,mem,held⟩ := ih alone
    cases wins : a.outranks best with
    | true =>
      refine ⟨a,mem_cons_self,forall_mem_cons.mpr ⟨self,?_⟩⟩
      intro m mem'
      apply Bool.eq_false_iff.mpr
      intro above
      cases (outranks_trans above wins).symm.trans (held m mem')
    | false => exact ⟨best,mem_cons_of_mem _ mem,forall_mem_cons.mpr ⟨wins,held⟩⟩

end

theorem election_order (pool : List Candidate) (distinct : (pool.map fun n => to16 n.address).Nodup) :
    (∀ a ∈ pool, a.outranks a = false) ∧ (∀ a ∈ pool, ∀ b ∈ pool, a.outranks b = true → b.outranks a = false) ∧
    (∀ a ∈ pool, ∀ b ∈ pool, ∀ c ∈ pool, a.outranks b = true → b.outranks c = true → a.outranks c = true) ∧
    (∀ a ∈ pool, ∀ b ∈ pool, a ≠ b → a.outranks b = true ∨ b.outranks a = true) ∧
    (pool ≠ [] → ∃! n, n ∈ pool ∧ ∀ m ∈ pool, m.outranks n = false) ∧
    (∀ a ∈ pool, ∀ b ∈ pool, a ≠ b → a.outranks b = !b.outranks a) := by
  have total : ∀ a ∈ pool, ∀ b ∈ pool, a ≠ b → a.outranks b = true ∨ b.outranks a = true :=
    fun a here b there apart => outranks_total fun same => apart (inj_on_of_nodup_map distinct here there same)
  refine ⟨fun a _ => Bool.eq_false_iff.mpr (outranks_irrefl a),fun _ _ _ _ => outranks_asymm,
    fun _ _ _ _ _ _ => outranks_trans,total,?_,?_⟩
  · intro filled
    obtain ⟨best,mem,held⟩ := unoutranked_exists pool filled
    refine ⟨best,⟨mem,held⟩,?_⟩
    intro other ⟨mem',held'⟩
    by_contra apart
    rcases total other mem' best mem apart with above | above
    · cases above.symm.trans (held other mem')
    · cases above.symm.trans (held' best mem)
  · intro a here b there apart
    rcases total a here b there apart with above | above
    · rw [above,outranks_asymm above]; rfl
    · rw [above,outranks_asymm above]; rfl

-- One address held as four bytes and one as sixteen, under one priority.
theorem election_order_pair : ∃ pool : List Candidate, pool.length = 2 ∧ pool ≠ [] ∧
    ∃! n, n ∈ pool ∧ ∀ m ∈ pool, m.outranks n = false := by
  refine ⟨[⟨100,[10,0,0,9]⟩,⟨100,to16 [10,0,0,10]⟩],rfl,by decide,?_⟩
  exact (election_order _ (by decide)).2.2.2.2.1 (by decide)

structure Config where
  priority : Int32
  advertInt : Int32
  localIP : Option (List UInt8)

def Config.interval (c : Config) : Int := if c.advertInt.toInt*second = 0 then second else c.advertInt.toInt*second

structure Cluster (N : Type) where
  mac : Mac
  key : List UInt8
  vrid : Int32
  nodes : N → Config

def Cluster.window (c : Cluster N) (n : N) : Int := replayWindow (c.nodes n).interval

structure Member where
  active : Bool
  lastSeen : Int
  masterSeen : Bool

structure Sent (N : Type) where
  node : N
  time : Int64
  datagram : List UInt8

structure Yield (N : Type) where
  node : N
  now : Int

structure State (N : Type) where
  members : N → Member
  sent : List (Sent N)
  yields : List (Yield N)

def State.start : State N := ⟨fun _ => ⟨false,0,false⟩,[],[]⟩

variable {N : Type} [DecidableEq N]

def State.set (s : State N) (n : N) (m : Member) : State N := {s with members := fun other => if other = n then m else s.members other}

section
variable (c : Cluster N)

variable (s : State N)

def sendAdvert (n : N) (time : Int64) : State N :=
  match encodeAdvert c.mac ⟨c.vrid,(c.nodes n).priority,time⟩ c.key with
  | .error _ => s
  | .ok datagram => {s with sent := s.sent ++ [⟨n,time,datagram⟩]}

-- What step leaves of the node: `acquired` says whether acquireVIPs succeeds.
def Member.claim (m : Member) (interval now : Int) (acquired : Bool) : Member :=
  if 3*interval < now - m.lastSeen ∧ m.active = false ∧ acquired then {m with active := true} else m

-- One turn of listenLoop. The buffer takes no more than advertLen bytes of a datagram.
def listen (n : N) (datagram : List UInt8) (source : Option (List UInt8)) (now seen : Int) : State N :=
  match parseAdvert c.mac (datagram.take advertLen) c.key now (c.window n) with
  | .error _ => s
  | .ok a =>
    if a.vrid ≠ c.vrid then s
    else if peerOutranks a.priority (c.nodes n).priority source (c.nodes n).localIP then
      let s := if (s.members n).active then {s with yields := s.yields ++ [⟨n,now⟩]} else s
      s.set n ⟨false,seen,true⟩
    else s

inductive Event (N : Type) where
  | start (n : N) (now : Int)
  | tick (n : N) (now : Int) (acquired : Bool) (time : Int64)
  | deliver (n : N) (datagram : List UInt8) (source : Option (List UInt8)) (now seen : Int)
  | stop (n : N)

def step : Event N → Option (State N)
  | .start n now => some (s.set n ⟨false,now,false⟩)
  | .tick n now acquired time =>
    let m := (s.members n).claim (c.nodes n).interval now acquired
    let s := s.set n m
    some (if m.active then sendAdvert c s n time else s)
  | .deliver n datagram source now seen => some (listen c s n datagram source now seen)
  | .stop n => some (s.set n {s.members n with active := false})

-- Without the key, only what a node has sent carries a tag that verifies.
def Unforged : Event N → Prop
  | .deliver _ datagram _ _ _ =>
    verifies c.mac (datagram.take advertLen) c.key → ∃ ad ∈ s.sent, ad.datagram = datagram.take advertLen
  | _ => True

def Cluster.Outranks (peer n : N) : Prop :=
  (c.nodes n).priority < (c.nodes peer).priority ∨
    (c.nodes peer).priority = (c.nodes n).priority ∧
      ∃ mine theirs, (c.nodes n).localIP = some mine ∧ (c.nodes peer).localIP = some theirs ∧ to16 mine < to16 theirs

def Justified (sent : List (Sent N)) (y : Yield N) : Prop :=
  ∃ ad ∈ sent, ad.node ≠ y.node ∧ c.Outranks ad.node y.node ∧
    y.now - ad.time.toInt ≤ c.window y.node ∧ -c.window y.node ≤ y.now - ad.time.toInt

def Sound : Prop := ∀ y ∈ s.yields, Justified c s.sent y

-- An advert of the own priority comes from the address of a node that sent it.
def Placed : Event N → Prop
  | .deliver n datagram source _ _ =>
    (readBody (datagram.take advertLen)).priority = (c.nodes n).priority →
      verifies c.mac (datagram.take advertLen) c.key →
        (c.nodes n).localIP.isSome ∧ ∃ ad ∈ s.sent, ad.datagram = datagram.take advertLen ∧ source = (c.nodes ad.node).localIP
  | _ => True

variable (e : Event N)

def Careful : Prop := Unforged c s e ∧ Placed c s e

instance decidableUnforged : Decidable (Unforged c s e) := by
  unfold Unforged
  split <;> infer_instance

instance decidablePlaced : Decidable (Placed c s e) := by
  unfold Placed
  split <;> infer_instance

instance decidableCareful : Decidable (Careful c s e) :=
  inferInstanceAs (Decidable (Unforged c s e ∧ Placed c s e))

end

structure Inv (c : Cluster N) (s : State N) : Prop where
  genuine : ∀ ad ∈ s.sent, encodeAdvert c.mac ⟨c.vrid,(c.nodes ad.node).priority,ad.time⟩ c.key = .ok ad.datagram
  sound : Sound c s

variable {c : Cluster N} {s t : State N} {e : Event N} {n : N}

omit [DecidableEq N] in
theorem Justified.later (justified : Justified c sent y) (more : List (Sent N)) : Justified c (sent ++ more) y := by
  obtain ⟨ad,member,facts⟩ := justified
  exact ⟨ad,mem_append_left more member,facts⟩

omit [DecidableEq N] in
theorem start_inv (c : Cluster N) : Inv c .start :=
  ⟨nofun,nofun⟩

omit [DecidableEq N] in
theorem sendAdvert_inv (inv : Inv c s) (n : N) (time : Int64) : Inv c (sendAdvert c s n time) := by
  unfold sendAdvert
  split
  · exact inv
  · rename_i datagram encoded
    exact ⟨forall_snoc inv.genuine encoded,fun y member => (inv.sound y member).later _⟩

omit [DecidableEq N] in
theorem yield_justified (inv : Inv c s) (careful : Careful c s (.deliver n datagram source now seen))
    (parsed : parseAdvert c.mac (datagram.take advertLen) c.key now (c.window n) = .ok a)
    (outranks : peerOutranks a.priority (c.nodes n).priority source (c.nodes n).localIP) : Justified c s.sent ⟨n,now⟩ := by
  obtain ⟨verified,read,late,early⟩ := parseAdvert_ok parsed
  have known (ad : Sent N) (member : ad ∈ s.sent) (same : ad.datagram = datagram.take advertLen) :
      a = ⟨c.vrid,(c.nodes ad.node).priority,ad.time⟩ := by
    rw [read,← same]
    exact readBody_encoded (inv.genuine ad member)
  rcases peerOutranks_parts outranks with higher | ⟨equal,tie⟩
  · obtain ⟨ad,member,same⟩ := careful.1 verified
    cases known ad member same
    refine ⟨ad,member,?_,.inl higher,late,early⟩
    intro own
    rw [own] at higher
    exact Int32.lt_irrefl higher
  · obtain ⟨addressed,ad,member,same,placed⟩ := careful.2 (by rw [← read]; exact equal) verified
    cases known ad member same
    rcases tie with missing | ⟨mine,theirs,at_,from_,above⟩
    · rw [missing] at addressed; cases addressed
    rw [placed] at from_
    refine ⟨ad,member,?_,.inr ⟨equal,mine,theirs,at_,from_,above⟩,late,early⟩
    intro own
    rw [own,at_] at from_
    cases from_
    exact List.lt_irrefl _ above

theorem listen_inv (inv : Inv c s) (careful : Careful c s (.deliver n datagram source now seen)) :
    Inv c (listen c s n datagram source now seen) := by
  unfold listen
  split
  · exact inv
  rename_i a parsed
  split
  · exact inv
  split
  · rename_i outranks
    have justified := yield_justified inv careful parsed outranks
    split
    · exact ⟨inv.genuine,forall_snoc inv.sound justified⟩
    · exact {inv with}
  · exact inv

theorem step_inv (inv : Inv c s) (careful : Careful c s e) (ran : step c s e = some t) : Inv c t := by
  cases e with
  | start n now => cases ran; exact {inv with}
  | tick n now acquired time =>
    cases ran
    have claimed : Inv c (s.set n ((s.members n).claim (c.nodes n).interval now acquired)) := {inv with}
    split
    · exact sendAdvert_inv claimed n time
    · exact claimed
  | deliver n datagram source now seen => cases ran; exact listen_inv inv careful
  | stop n => cases ran; exact {inv with}

theorem yields_justified (c : Cluster N) (path : Reached (step c) (Careful c) .start s) : Sound c s := by
  have inv : Inv c s := reached_invariant (Inv c) (start_inv c) step_inv path
  exact inv.sound

def pair : Cluster Bool where
  mac := ⟨fun _ _ => List.replicate 32 0,fun _ _ => length_replicate⟩
  key := lit "secret"
  vrid := 51
  nodes n := ⟨100,1,some (if n then [10,0,0,2] else [10,0,0,1])⟩

def heartbeat (time : Int64) : List UInt8 := body ⟨51,100,time⟩ ++ List.replicate 32 0

theorem yields_justified_pair : ∃ s, Reached (step pair) (Careful pair) .start s ∧ s.yields.length = 1 ∧ Sound pair s := by
  exact reached_by
    [.tick false (4*second) true 4000000000,.tick true (4*second) true 4000000000,
      .deliver false (heartbeat 4000000000) (some [10,0,0,2]) (5*second) (5*second)] (by decide +kernel)
    fun s => yields_justified pair

-- The node with the higher address hears its own advert from a made-up address above its own.
theorem own_advert_yields : ∃ s, Reached (step pair) (Unforged pair) .start s ∧ ¬Sound pair s := by
  refine shown_reached (fun s => (s.sent.map Sent.node,s.yields.map Yield.node)) ([true],[true])
    [.tick true (4*second) true 4000000000,.deliver true (heartbeat 4000000000) (some [10,0,0,3]) (5*second) (5*second)]
    (by decide +kernel) fun s _ lists sound => ?_
  simp only [Prod.mk.injEq] at lists
  obtain ⟨y,member,node⟩ : ∃ y ∈ s.yields, y.node = true := by apply List.mem_map.mp; simp [lists.2]
  obtain ⟨ad,sent,other,_⟩ := sound y member
  have only : ad.node ∈ s.sent.map Sent.node := List.mem_map_of_mem sent
  rw [lists.1,mem_singleton] at only
  exact other (only.trans node.symm)

end Gateon.Ha
