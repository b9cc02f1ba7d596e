import Gateon.Go.Netip
import Gateon.Go.Time
import Gateon.Lib.KeyedStore
import Gateon.Lib.Transition
import Mathlib.Logic.Function.Basic

namespace Gateon.Honeypot
open Go KeyedStore Transition Option
open Function (update update_self update_of_ne)

section
open List

def hexDigit (n : Nat) : UInt8 := (lit "0123456789abcdef").getD n 0
def hextet (high low : UInt8) : GoString :=
  [hexDigit (high.toNat/16),hexDigit (high.toNat%16),hexDigit (low.toNat/16),hexDigit (low.toNat%16)]
def appendIPv6Key (a : List UInt8) : GoString :=
  join ([0,2,4,6].map fun i => hextet (a.getD i 0) (a.getD (i+1) 0)) [byte ':'] ++ lit "::"
def ipv6BanBits : Nat := 64
def maskTo (bits : Nat) (a : List UInt8) : List UInt8 := a.take (bits/8) ++ List.replicate (a.length-bits/8) 0

def addrKey : Addr → GoString
  | .v4 bytes _ => formatIPv4 bytes
  | .v6 bytes _ _ => appendIPv6Key (maskTo ipv6BanBits bytes)

def honeypotKey (clientIP : GoString) : GoString :=
  if byte ':' ∉ clientIP then clientIP
  else
    match parseAddr clientIP with
    | none => clientIP
    | some addr => addrKey addr.unmap

-- The same IPv4 address, mapped or not, or one IPv6 /64.
def sharesBan (a b : Addr) : Prop :=
  match a.unmap,b.unmap with
  | .v4 x _,.v4 y _ => x = y
  | .v6 x _ _,.v6 y _ _ => x.take 8 = y.take 8
  | _,_ => False

def honeypotBanLadder : List Int := [900*second,hour,6*hour,24*hour]
def honeypotStrikeWindow : Int := 24*hour
def maxHoneypotBlocklist : Nat := 10000
def banEvictionSample : Nat := 8

structure Strike where
  key : GoString
  count : Nat
  last : Int
  deriving DecidableEq

structure Ban where
  key : GoString
  ends : Int
  deriving DecidableEq

abbrev Strikes := Store Strike.key
abbrev Bans := Store Ban.key

def topRung : Int := honeypotBanLadder.getD (honeypotBanLadder.length-1) 0
def rung (count : Nat) : Int :=
  if honeypotBanLadder.length < count then topRung else honeypotBanLadder.getD (count-1) 0

def strikeCount (st : Option Strike) (now : Int) : Nat :=
  match st with
  | none => 1
  | some st => if honeypotStrikeWindow < now - st.last then 1 else st.count+1

def honeypotBanFor (strikes : Strikes) (key : GoString) (now : Int) : Strikes × Int :=
  let count := strikeCount (strikes.get key) now
  if (strikes.get key).isNone ∧ maxHoneypotBlocklist ≤ strikes.rows.length then
    let swept := strikes.filter fun s => !decide (honeypotStrikeWindow < now - s.last)
    if maxHoneypotBlocklist ≤ swept.rows.length then (swept,topRung) else (swept.put ⟨key,count,now⟩,rung count)
  else (strikes.put ⟨key,count,now⟩,rung count)

def soonest : List Ban → Option Ban
  | [] => none
  | b :: rest => some (rest.foldl (fun victim c => if c.ends < victim.ends then c else victim) b)

def evictSoonestExpiringBan (bans : Bans) (order : List Ban) : Bans :=
  match soonest (order.take banEvictionSample) with
  | some victim => bans.remove victim.key
  | none => bans

-- `order` is the one in which the map happens to be iterated for an eviction.
def blockHoneypotIP (bans : Bans) (key : GoString) (ends now : Int) (order : List Ban) : Option Bans :=
  if (bans.get key).isNone ∧ maxHoneypotBlocklist ≤ bans.rows.length then
    let swept := bans.filter fun b => !decide (b.ends < now)
    if maxHoneypotBlocklist ≤ swept.rows.length then
      if order.Perm swept.rows then some ((evictSoonestExpiringBan swept order).put ⟨key,ends⟩) else none
    else some (swept.put ⟨key,ends⟩)
  else some (bans.put ⟨key,ends⟩)

structure Hit where
  client : GoString
  start : Int
  length : Int

structure Check where
  key : GoString
  ends : Int

structure Sentence where
  start : Int
  length : Int

def Sentence.ends (s : Sentence) : Int := s.start + s.length

-- `promised` is a key's latest end, `log` what it was banned for, last first.
structure Process where
  clock : Int
  strikes : Strikes
  bans : Bans
  hits : List Hit
  checks : List Check
  promised : GoString → Option Int
  log : GoString → List Sentence

def Process.start (clock : Int) : Process := ⟨clock,Store.empty,Store.empty,[],[],fun _ => none,fun _ => []⟩
def Process.full (s : Process) : Bool := maxHoneypotBlocklist ≤ s.strikes.rows.length || maxHoneypotBlocklist ≤ s.bans.rows.length

def promise (old : Option Int) (ends : Int) : Int := match old with | some e => max e ends | none => ends

inductive Event where
  | tick (d : Nat)
  | strike (client : GoString)
  | ban (i : Nat) (order : List Ban)
  | check (client : GoString)
  | pass (i : Nat)
  | delete (i : Nat)
  | release (client : GoString)

def step (exempt : GoString → Bool) (s : Process) : Event → Option Process
  | .tick d => some {s with clock := s.clock + d}
  | .strike client =>
    let (strikes,length) := honeypotBanFor s.strikes (honeypotKey client) s.clock
    some {s with strikes := strikes, hits := ⟨client,s.clock,length⟩ :: s.hits}
  | .ban i order =>
    match s.hits[i]? with
    | none => none
    | some h =>
      if exempt h.client then some {s with hits := s.hits.eraseIdx i}
      else
        let key := honeypotKey h.client
        let kept := if s.full then fun _ => none else s.promised
        (blockHoneypotIP s.bans key (h.start+h.length) s.clock order).map fun bans =>
          {s with
            bans := bans
            hits := s.hits.eraseIdx i
            promised := update kept key (some (promise (kept key) (h.start+h.length)))
            log := update s.log key (⟨h.start,h.length⟩ :: s.log key)}
  | .check client =>
    match s.bans.get (honeypotKey client) with
    | none => some s
    | some b => some {s with checks := ⟨b.key,b.ends⟩ :: s.checks}
  | .pass i =>
    match s.checks[i]? with
    | some c => if s.clock < c.ends then some {s with checks := s.checks.eraseIdx i} else none
    | none => none
  | .delete i =>
    match s.checks[i]? with
    | some c => if s.clock < c.ends then none else some {s with bans := s.bans.remove c.key, checks := s.checks.eraseIdx i}
    | none => none
  | .release client =>
    let key := honeypotKey client
    some {s with bans := s.bans.remove key, strikes := s.strikes.remove key, promised := update s.promised key none}

-- Hits of a key do not overlap each other or a check's delete, and strikes are found.
def Careful (s : Process) : Event → Prop
  | .strike client => (∀ h ∈ s.hits, honeypotKey h.client ≠ honeypotKey client) ∧
      ∀ p ∈ (s.log (honeypotKey client)).head?, s.clock ≤ p.ends + honeypotStrikeWindow →
        ∃ st ∈ s.strikes.get (honeypotKey client), s.clock - st.last ≤ honeypotStrikeWindow
  | .ban i _ => ∀ h ∈ s.hits[i]?, ∀ c ∈ s.checks, c.key ≠ honeypotKey h.client
  | _ => True

def Bounded (s : Process) : Prop := s.strikes.rows.length ≤ maxHoneypotBlocklist ∧ s.bans.rows.length ≤ maxHoneypotBlocklist

-- A ban stays until its end, and the next within the window is no shorter.
structure Sound (s : Process) : Prop where
  stands : ∀ k e, s.promised k = some e → s.clock < e → ∃ b, s.bans.get k = some b ∧ e ≤ b.ends
  climbs : ∀ k, (s.log k).IsChain fun new old => new.start ≤ old.ends + honeypotStrikeWindow → old.length ≤ new.length

theorem hexDigit_inj (small : m < 16) (small' : n < 16) (same : hexDigit m = hexDigit n) : m = n := by
  have check : ∀ a b : Fin 16, hexDigit a = hexDigit b → a = b := by decide +kernel
  exact congrArg Fin.val (check ⟨m,small⟩ ⟨n,small'⟩ same)

theorem hextet_inj (same : hextet a b = hextet c d) : a = c ∧ b = d := by
  have halves : ∀ x y : UInt8, hexDigit (x.toNat/16) = hexDigit (y.toNat/16) → hexDigit (x.toNat%16) = hexDigit (y.toNat%16) → x = y := by
    intro x y high low
    have bound := x.toNat_lt
    have bound' := y.toNat_lt
    have highs := hexDigit_inj (by omega) (by omega) high
    have lows := hexDigit_inj (Nat.mod_lt _ (by decide)) (Nat.mod_lt _ (by decide)) low
    exact UInt8.toNat_inj.mp (by omega)
  simp only [hextet,List.cons.injEq,and_true] at same
  exact ⟨halves a c same.1 same.2.1,halves b d same.2.2.1 same.2.2.2⟩

theorem hextet_colon (a b : UInt8) : byte ':' ∉ hextet a b ∧ hextet a b ≠ [] := by
  have check : ∀ n : Fin 16, byte ':' ≠ hexDigit n := by decide
  have digit : ∀ n < 16, byte ':' ≠ hexDigit n := fun n small => check ⟨n,small⟩
  have high := a.toNat_lt
  have high' := b.toNat_lt
  refine ⟨?_,cons_ne_nil _ _⟩
  simp only [hextet,mem_cons,not_mem_nil,or_false,not_or]
  exact ⟨digit _ (by omega),digit _ (by omega),digit _ (by omega),digit _ (by omega)⟩

theorem maskTo_first (size : x.length = 16) : maskTo ipv6BanBits x = x.take 8 ++ List.replicate 8 0 := by
  simp [maskTo,ipv6BanBits,size]

theorem appendIPv6Key_first (same : appendIPv6Key a = appendIPv6Key b) (small : i < 8) : a.getD i 0 = b.getD i 0 := by
  have texts := append_cancel_right same
  have whole : ∀ z : List UInt8, ∀ part ∈ [0,2,4,6].map fun i => hextet (z.getD i 0) (z.getD (i+1) 0), byte ':' ∉ part ∧ part ≠ [] := by
    intro z part mem
    obtain ⟨i,_,rfl⟩ := List.mem_map.mp mem
    exact hextet_colon _ _
  have parts := join_inj (whole a) (whole b) texts
  simp only [map_cons,map_nil,List.cons.injEq,and_true] at parts
  obtain ⟨one,two,three,four⟩ := parts
  match i,small with
  | 0,_ => exact (hextet_inj one).1
  | 1,_ => exact (hextet_inj one).2
  | 2,_ => exact (hextet_inj two).1
  | 3,_ => exact (hextet_inj two).2
  | 4,_ => exact (hextet_inj three).1
  | 5,_ => exact (hextet_inj three).2
  | 6,_ => exact (hextet_inj four).1
  | 7,_ => exact (hextet_inj four).2

theorem appendIPv6Key_eq (size : x.length = 16) (size' : y.length = 16) :
    appendIPv6Key (maskTo ipv6BanBits x) = appendIPv6Key (maskTo ipv6BanBits y) ↔ x.take 8 = y.take 8 := by
  rw [maskTo_first size,maskTo_first size']
  refine ⟨fun same => ?_,fun same => by rw [same]⟩
  apply ext_getElem (by simp [size,size'])
  intro i here there
  have small : i < 8 := by simp [size] at here; exact here
  have reads := appendIPv6Key_first same small
  rwa [getD_eq_getElem?_getD,getD_eq_getElem?_getD,getElem?_append_left here,getElem?_append_left there,
    getElem?_eq_getElem here,getElem?_eq_getElem there] at reads

theorem appendIPv6Key_colon (a : List UInt8) : byte ':' ∈ appendIPv6Key a := mem_append_right _ (by decide)

theorem honeypotKey_parsed (parsed : parseAddr s = some a) : honeypotKey s = addrKey a.unmap := by
  unfold honeypotKey
  rcases parseAddr_cases parsed with ⟨plain,bytes,size,rfl,text⟩ | ⟨colon,_⟩
  · rw [if_pos plain]; exact text
  · rw [if_neg (not_not.mpr colon),parsed]

theorem addrKey_apart {size size'} : addrKey (.v4 x size) ≠ addrKey (.v6 y size' zone) := by
  intro same
  have colon := appendIPv6Key_colon (maskTo ipv6BanBits y)
  rw [show appendIPv6Key (maskTo ipv6BanBits y) = formatIPv4 x from same.symm] at colon
  exact formatIPv4_colon x colon

theorem honeypotKey_shared (parsed : parseAddr s = some a) (parsed' : parseAddr t = some b) :
    honeypotKey s = honeypotKey t ↔ sharesBan a b := by
  rw [honeypotKey_parsed parsed,honeypotKey_parsed parsed']
  unfold sharesBan
  cases a.unmap with
  | v4 x size =>
    cases b.unmap with
    | v4 y size' => exact ⟨formatIPv4_injective,congrArg formatIPv4⟩
    | v6 y size' zone => exact ⟨addrKey_apart,False.elim⟩
  | v6 x size zone =>
    cases b.unmap with
    | v4 y size' => exact ⟨fun same => addrKey_apart same.symm,False.elim⟩
    | v6 y size' zone' => exact appendIPv6Key_eq size size'

end

theorem rung_bounds (count : Nat) : 0 ≤ rung count ∧ rung count ≤ topRung := by
  unfold rung
  split
  · decide
  have check : ∀ n : Fin 4, 0 ≤ honeypotBanLadder.getD n 0 ∧ honeypotBanLadder.getD n 0 ≤ topRung := by decide
  rename_i few
  have small : honeypotBanLadder.length = 4 := rfl
  exact check ⟨count-1,by omega⟩

theorem rung_mono (count : Nat) : rung count ≤ rung (count+1) := by
  by_cases more : honeypotBanLadder.length < count+1
  · exact (rung_bounds count).2.trans (if_pos more).ge
  · have check : ∀ n : Fin 4, rung n ≤ rung (n+1) := by decide
    have small : honeypotBanLadder.length = 4 := rfl
    exact check ⟨count,by omega⟩

structure Struck (strikes : Strikes) (key : GoString) (now : Int) (next : Strikes) (length : Int) : Prop where
  room : strikes.rows.length ≤ maxHoneypotBlocklist → next.rows.length ≤ maxHoneypotBlocklist
  others : ∀ other st, other ≠ key → next.get other = some st → strikes.get other = some st
  own : ∀ st, next.get key = some st → st.last = now ∧ st.count = strikeCount (strikes.get key) now ∧ length = rung st.count
  given : length = topRung ∨ length = rung (strikeCount (strikes.get key) now)
  known : ∀ st, strikes.get key = some st → length = rung (strikeCount (some st) now)

theorem Struck.put {strikes swept : Strikes} (room : swept.rows.length < maxHoneypotBlocklist ∨ (swept.get key).isSome)
    (fewer : swept.rows.length ≤ strikes.rows.length) (kept : ∀ other st, swept.get other = some st → strikes.get other = some st) :
    Struck strikes key now (swept.put ⟨key,strikeCount (strikes.get key) now,now⟩) (rung (strikeCount (strikes.get key) now)) := by
  refine ⟨?_,?_,?_,.inr rfl,?_⟩
  · intro bounded
    rcases room with free | held
    · exact (length_put_le ..).trans free
    · exact (length_put_held ⟨key,_,_⟩ held).trans (fewer.trans bounded)
  · intro other st apart found
    rw [get_put_other swept ⟨key,_,_⟩ apart] at found
    exact kept other st found
  · intro st found
    cases (get_put_same (s := swept) ⟨key,_,now⟩).symm.trans found
    exact ⟨rfl,rfl,rfl⟩
  · intro st found; rw [found]

theorem honeypotBanFor_struck (strikes : Strikes) (key : GoString) (now : Int) :
    Struck strikes key now (honeypotBanFor strikes key now).1 (honeypotBanFor strikes key now).2 := by
  unfold honeypotBanFor
  dsimp only
  split
  · rename_i crowded
    have missing : strikes.get key = none := isNone_iff_eq_none.mp crowded.1
    split
    · refine ⟨fun bounded => (length_filter_le ..).trans bounded,fun _ _ _ => get_of_filter,?_,.inl rfl,?_⟩
      · intro st found; cases missing.symm.trans (get_of_filter found)
      · intro st found; cases missing.symm.trans found
    · rename_i free; exact .put (.inl (Nat.lt_of_not_le free)) (length_filter_le ..) fun _ _ => get_of_filter
  · rename_i free
    refine .put ?_ le_rfl (fun _ _ found => found)
    rw [not_and_or] at free
    exact free.symm.imp Nat.lt_of_not_le fun held => by simpa [isSome_iff_ne_none] using held

theorem soonest_mem (found : soonest order = some victim) : victim ∈ order := by
  cases order with
  | nil => cases found
  | cons b rest =>
    cases found
    refine List.foldlRecOn rest _ List.mem_cons_self fun v held c inside => ?_
    split
    · exact List.mem_cons_of_mem _ inside
    · exact held

theorem evicted_length (order : List Ban) (perm : order.Perm bans.rows) (some_ : 0 < bans.rows.length) :
    (evictSoonestExpiringBan bans order).rows.length < bans.rows.length := by
  unfold evictSoonestExpiringBan
  have long := perm.length_eq
  cases order with
  | nil => rw [List.length_nil] at long; omega
  | cons b rest =>
    cases found : soonest ((b :: rest).take banEvictionSample) with
    | none => cases found
    | some victim =>
      have mem := perm.subset (List.mem_of_mem_take (soonest_mem found))
      exact length_remove_held (isSome_iff_exists.mpr ⟨victim,get_eq_some.mpr ⟨mem,rfl⟩⟩)

theorem evicted_get (found : (evictSoonestExpiringBan bans order).get k = some b) : bans.get k = some b := by
  unfold evictSoonestExpiringBan at found
  split at found
  · exact get_remove found
  · exact found

structure Banned (bans : Bans) (key : GoString) (ends : Int) (next : Bans) : Prop where
  room : bans.rows.length ≤ maxHoneypotBlocklist → next.rows.length ≤ maxHoneypotBlocklist
  own : next.get key = some ⟨key,ends⟩
  others : ∀ other b, other ≠ key → next.get other = some b → bans.get other = some b
  free : bans.rows.length < maxHoneypotBlocklist → ∀ other, other ≠ key → next.get other = bans.get other

theorem Banned.put {bans left : Bans} (room : bans.rows.length ≤ maxHoneypotBlocklist → (left.put ⟨key,ends⟩).rows.length ≤ maxHoneypotBlocklist)
    (kept : ∀ other b, left.get other = some b → bans.get other = some b) (free : bans.rows.length < maxHoneypotBlocklist → left = bans) :
    Banned bans key ends (left.put ⟨key,ends⟩) := by
  refine ⟨room,get_put_same (⟨key,ends⟩ : Ban),?_,?_⟩
  · intro other b apart found
    rw [get_put_other left ⟨key,ends⟩ apart] at found
    exact kept other b found
  · intro few other apart; rw [get_put_other left ⟨key,ends⟩ apart,free few]

theorem blockHoneypotIP_banned (ran : blockHoneypotIP bans key ends now order = some next) : Banned bans key ends next := by
  unfold blockHoneypotIP at ran
  dsimp only at ran
  split at ran
  · rename_i crowded
    have never : ∀ left : Bans, bans.rows.length < maxHoneypotBlocklist → left = bans := by
      intro left few
      exact absurd crowded.2 (Nat.not_le_of_lt few)
    split at ran
    · split at ran
      · rename_i still perm
        cases ran
        refine .put ?_ (fun _ _ found => get_of_filter (evicted_get found)) (never _)
        intro bounded
        have some_ : 0 < maxHoneypotBlocklist := by decide
        have fewer := evicted_length order perm (some_.trans_le still)
        have less := length_filter_le bans fun b => !decide (b.ends < now)
        exact (length_put_le ..).trans (by omega)
      · cases ran
    · rename_i free
      cases ran
      exact .put (fun _ => (length_put_le ..).trans (Nat.lt_of_not_le free)) (fun _ _ => get_of_filter) (never _)
  · rename_i free
    cases ran
    refine .put ?_ (fun _ _ found => found) (fun _ => rfl)
    intro bounded
    rw [not_and_or] at free
    rcases free with held | few
    · exact (length_put_held (⟨key,ends⟩ : Ban) (by simpa [isSome_iff_ne_none] using held)).trans bounded
    · exact (length_put_le ..).trans (Nat.lt_of_not_le few)

structure Pending (s : Process) (h : Hit) : Prop where
  began : h.start ≤ s.clock
  length : 0 ≤ h.length ∧ h.length ≤ topRung
  strike : ∀ st, s.strikes.get (honeypotKey h.client) = some st → h.length ≤ rung st.count
  after : ∀ p, (s.log (honeypotKey h.client)).head? = some p →
    p.start ≤ h.start ∧ (p.ends + honeypotStrikeWindow < h.start ∨ p.length ≤ h.length)

structure Inv (s : Process) : Prop extends Sound s where
  struck : ∀ k st, s.strikes.get k = some st → st.last ≤ s.clock ∧
    ∀ p, (s.log k).head? = some p → p.ends + honeypotStrikeWindow < st.last ∨ p.length ≤ rung st.count
  lasted : ∀ k p, (s.log k).head? = some p → p.start ≤ s.clock ∧ p.length ≤ topRung
  last : ∀ k e, s.promised k = some e → ∃ p, (s.log k).head? = some p ∧ e ≤ p.ends
  checks : ∀ c ∈ s.checks, ∀ b, s.bans.get c.key = some b → b.ends = c.ends
  apart : (s.hits.map fun h => honeypotKey h.client).Nodup
  hits : ∀ h ∈ s.hits, Pending s h

theorem Inv.tick (h : Inv s) (d : Nat) : Inv {s with clock := s.clock + d} := by
  have later : s.clock ≤ s.clock + d := Int.le_add_of_nonneg_right (Int.natCast_nonneg d)
  refine ⟨⟨?_,h.climbs⟩,?_,?_,h.last,h.checks,h.apart,?_⟩
  · exact fun k e held soon => h.stands k e held (later.trans_lt soon)
  · exact fun k st found => ⟨(h.struck k st found).1.trans later,(h.struck k st found).2⟩
  · exact fun k p found => ⟨(h.lasted k p found).1.trans later,(h.lasted k p found).2⟩
  · intro x mem
    have x_ := h.hits x mem
    exact {x_ with began := x_.began.trans later}

theorem Inv.climb (h : Inv s) (meets : Careful s (.strike client)) (found : (s.log (honeypotKey client)).head? = some p)
    (soon : s.clock ≤ p.ends + honeypotStrikeWindow) :
    p.length ≤ rung (strikeCount (s.strikes.get (honeypotKey client)) s.clock) ∧ (s.strikes.get (honeypotKey client)).isSome := by
  obtain ⟨st,held,recent⟩ := meets.2 p found soon
  obtain ⟨before,rungs⟩ := h.struck _ st held
  rw [show s.strikes.get (honeypotKey client) = some st from held]
  refine ⟨?_,rfl⟩
  have count : strikeCount (some st) s.clock = st.count+1 := if_neg (Int.not_lt.mpr recent)
  rw [count]
  rcases rungs p found with late | low
  · omega
  · exact low.trans (rung_mono _)

theorem Inv.strike (h : Inv s) (meets : Careful s (.strike client)) (spec : Struck s.strikes (honeypotKey client) s.clock next length) :
    Inv {s with strikes := next, hits := ⟨client,s.clock,length⟩ :: s.hits} := by
  have climbed : ∀ p, (s.log (honeypotKey client)).head? = some p → s.clock ≤ p.ends + honeypotStrikeWindow → p.length ≤ length := by
    intro p found soon
    obtain ⟨low,held⟩ := h.climb meets found soon
    obtain ⟨st,held⟩ := isSome_iff_exists.mp held
    rw [spec.known st held,← held]
    exact low
  refine {h with struck := ?_,apart := ?_,hits := ?_}
  · intro k st found
    by_cases same : k = honeypotKey client
    · subst same
      obtain ⟨last,count,given⟩ := spec.own st found
      refine ⟨last.le,fun p first => ?_⟩
      by_cases soon : s.clock ≤ p.ends + honeypotStrikeWindow
      · exact .inr (given ▸ climbed p first soon)
      · exact .inl (last ▸ Int.lt_of_not_ge soon)
    · exact h.struck k st (spec.others k st same found)
  · refine List.nodup_cons.mpr ⟨?_,h.apart⟩
    intro again
    obtain ⟨x,mem,same⟩ := List.mem_map.mp again
    exact meets.1 x mem same
  intro x mem
  rcases List.mem_cons.mp mem with rfl | old
  · refine ⟨le_rfl,?_,?_,?_⟩
    · rcases spec.given with top | some_
      · show 0 ≤ length ∧ length ≤ topRung
        rw [top]
        decide
      · rw [some_]; exact rung_bounds _
    · exact fun st found => (spec.own st found).2.2.le
    intro p found
    refine ⟨(h.lasted _ p found).1,?_⟩
    by_cases soon : s.clock ≤ p.ends + honeypotStrikeWindow
    · exact .inr (climbed p found soon)
    · exact .inl (Int.lt_of_not_ge soon)
  · have x_ := h.hits x old
    exact {x_ with strike := fun st found => x_.strike st (spec.others _ st (meets.1 x old) found)}

theorem erased_apart {xs : List α} {f : α → β} (distinct : (xs.map f).Nodup) (held : xs[i]? = some x) (mem : y ∈ xs.eraseIdx i) : f y ≠ f x := by
  intro same
  obtain ⟨j,other,there⟩ := List.mem_eraseIdx_iff_getElem?.mp mem
  have bound : j < (xs.map f).length := by
    rw [List.length_map]
    exact (List.getElem?_eq_some_iff.mp there).1
  apply other
  apply (List.getElem?_inj bound distinct).mp
  rw [List.getElem?_map,List.getElem?_map,there,held]
  exact congrArg some same

theorem Inv.erase (h : Inv s) (i : Nat) : Inv {s with hits := s.hits.eraseIdx i} := by
  refine {h with apart := h.apart.sublist ((List.eraseIdx_sublist ..).map _),hits := ?_}
  intro x mem
  have x_ := h.hits x (List.mem_of_mem_eraseIdx mem)
  exact {x_ with}

theorem Pending.ends (h : Pending s x) (found : (s.log (honeypotKey x.client)).head? = some p) : p.ends ≤ x.start + x.length := by
  obtain ⟨order,apart⟩ := h.after p found
  have long := h.length.1
  have window : 0 ≤ honeypotStrikeWindow := by decide
  unfold Sentence.ends at *
  omega

theorem Inv.ban {log : GoString → List Sentence} {promised : GoString → Option Int} (h : Inv s) (held : s.hits[i]? = some x)
    (meets : ∀ c ∈ s.checks, c.key ≠ honeypotKey x.client) (spec : Banned s.bans (honeypotKey x.client) (x.start+x.length) next)
    (mine : log (honeypotKey x.client) = {x with} :: s.log (honeypotKey x.client))
    (theirs : ∀ k, k ≠ honeypotKey x.client → log k = s.log k) (own : promised (honeypotKey x.client) = some (x.start+x.length))
    (rest : ∀ k e, k ≠ honeypotKey x.client → promised k = some e → s.full = false ∧ s.promised k = some e) :
    Inv {s with bans := next, hits := s.hits.eraseIdx i, promised := promised, log := log} := by
  have x_ := h.hits x (List.mem_of_getElem? held)
  have first : (log (honeypotKey x.client)).head? = some {x with} := by rw [mine]; rfl
  refine ⟨⟨?_,?_⟩,?_,?_,?_,?_,h.apart.sublist ((List.eraseIdx_sublist ..).map _),?_⟩ <;> dsimp only
  · intro k e found soon
    by_cases same : k = honeypotKey x.client
    · subst same
      cases own.symm.trans found
      exact ⟨_,spec.own,le_rfl⟩
    obtain ⟨free,found⟩ := rest k e same found
    have few : s.bans.rows.length < maxHoneypotBlocklist := by
      simp only [Process.full,Bool.or_eq_false_iff,decide_eq_false_iff_not] at free
      exact Nat.lt_of_not_le free.2
    rw [spec.free few k same]
    exact h.stands k e found soon
  · intro k
    by_cases same : k = honeypotKey x.client
    · subst same
      rw [mine]
      have before := h.climbs (honeypotKey x.client)
      cases log_ : s.log (honeypotKey x.client) with
      | nil => exact .singleton _
      | cons p older =>
        rw [log_] at before
        refine .cons_cons (fun soon => ?_) before
        rcases (x_.after p (congrArg _ log_)).2 with late | low
        · exact absurd soon (Int.not_le_of_gt late)
        · exact low
    · rw [theirs k same]; exact h.climbs k
  · intro k st found
    by_cases same : k = honeypotKey x.client
    · subst same
      refine ⟨(h.struck _ st found).1,fun p last => .inr ?_⟩
      cases first.symm.trans last
      exact x_.strike st found
    · rw [theirs k same]; exact h.struck k st found
  · intro k p last
    by_cases same : k = honeypotKey x.client
    · subst same
      cases first.symm.trans last
      exact ⟨x_.began,x_.length.2⟩
    · rw [theirs k same] at last; exact h.lasted k p last
  · intro k e found
    by_cases same : k = honeypotKey x.client
    · subst same
      cases own.symm.trans found
      exact ⟨_,first,le_rfl⟩
    · rw [theirs k same]; exact h.last k e (rest k e same found).2
  · intro c mem b found; exact h.checks c mem b (spec.others _ b (meets c mem) found)
  intro y mem
  have y_ := h.hits y (List.mem_of_mem_eraseIdx mem)
  have apart := theirs _ (erased_apart (f := fun h => honeypotKey h.client) h.apart held mem)
  exact {y_ with after := fun p last => y_.after p (apart ▸ last)}

theorem Inv.promise (h : Inv s) (x_ : Pending s x) (found : s.promised (honeypotKey x.client) = some e) : e ≤ x.start + x.length := by
  obtain ⟨p,first,before⟩ := h.last _ e found
  exact before.trans (x_.ends first)

theorem Inv.check (h : Inv s) (found : s.bans.get k = some b) : Inv {s with checks := {b with} :: s.checks} := by
  refine {h with checks := ?_,hits := fun x mem => ?_}
  · intro c mem b' found'
    rcases List.mem_cons.mp mem with rfl | old
    · rw [(get_eq_some.mp found).2,found] at found'
      cases found'
      rfl
    · exact h.checks c old b' found'
  · have x_ := h.hits x mem; exact {x_ with}

theorem Inv.fewer {bans : Bans} {strikes : Strikes} {promised : GoString → Option Int} {checks : List Check} (h : Inv s)
    (lifted : ∀ k b, bans.get k = some b → s.bans.get k = some b) (forgot : ∀ k st, strikes.get k = some st → s.strikes.get k = some st)
    (promises : ∀ k e, promised k = some e → s.promised k = some e ∧ (s.clock < e → bans.get k = s.bans.get k))
    (pending : ∀ c ∈ checks, c ∈ s.checks) :
    Inv {s with bans := bans, strikes := strikes, promised := promised, checks := checks} := by
  refine ⟨⟨?_,h.climbs⟩,?_,h.lasted,?_,?_,h.apart,?_⟩
  · intro k e found soon
    obtain ⟨before,same⟩ := promises k e found
    rw [same soon]
    exact h.stands k e before soon
  · exact fun k st found => h.struck k st (forgot k st found)
  · exact fun k e found => h.last k e (promises k e found).1
  · exact fun c mem b found => h.checks c (pending c mem) b (lifted _ b found)
  · intro x mem
    have x_ := h.hits x mem
    exact {x_ with strike := fun st found => x_.strike st (forgot _ st found)}

theorem Inv.pass (h : Inv s) (i : Nat) : Inv {s with checks := s.checks.eraseIdx i} :=
  h.fewer (fun _ _ found => found) (fun _ _ found => found) (fun _ _ found => ⟨found,fun _ => rfl⟩)
    fun _ mem => List.mem_of_mem_eraseIdx mem

theorem Inv.delete (h : Inv s) (held : s.checks[i]? = some c) (past : c.ends ≤ s.clock) :
    Inv {s with bans := s.bans.remove c.key, checks := s.checks.eraseIdx i} := by
  refine h.fewer (fun _ _ found => get_remove found) (fun _ _ found => found) ?_
    fun _ mem => List.mem_of_mem_eraseIdx mem
  intro k e found
  refine ⟨found,fun soon => get_remove_other ?_⟩
  rintro rfl
  obtain ⟨b,there,later⟩ := h.stands _ e found soon
  have read := h.checks c (List.mem_of_getElem? held) b there
  omega

theorem Inv.release (h : Inv s) (k : GoString) :
    Inv {s with bans := s.bans.remove k, strikes := s.strikes.remove k, promised := update s.promised k none} := by
  refine h.fewer (fun _ _ found => get_remove found) (fun _ _ found => get_remove found) ?_
    fun _ mem => mem
  intro other e found
  by_cases same : other = k
  · subst same
    rw [update_self] at found
    cases found
  · rw [update_of_ne same] at found; exact ⟨found,fun _ => get_remove_other same⟩

theorem step_inv (h : Inv s) (meets : Careful s e) (ran : step exempt s e = some t) : Inv t := by
  cases e with
  | tick d => cases ran; exact h.tick d
  | strike client => cases ran; exact h.strike meets (honeypotBanFor_struck ..)
  | ban i order =>
    dsimp only [step] at ran
    split at ran
    · cases ran
    rename_i x held
    split at ran
    · cases ran; exact h.erase i
    obtain ⟨next,recorded,rfl⟩ := map_eq_some_iff.mp ran
    have x_ := h.hits x (List.mem_of_getElem? held)
    refine h.ban held (meets x held) (blockHoneypotIP_banned recorded) (update_self ..) (fun k apart => update_of_ne apart _ _) ?_ ?_
    · rw [update_self]
      apply congrArg some
      split
      · rfl
      · cases old : s.promised (honeypotKey x.client) with
        | none => rfl
        | some e => exact max_eq_right (h.promise x_ old)
    · intro k e apart found
      rw [update_of_ne apart] at found
      split at found
      · cases found
      · exact ⟨Bool.eq_false_of_not_eq_true ‹_›,found⟩
  | check client =>
    dsimp only [step] at ran
    split at ran <;> cases ran
    · exact h
    · exact h.check ‹_›
  | pass i =>
    dsimp only [step] at ran
    split at ran
    · split at ran <;> cases ran; exact h.pass i
    · cases ran
  | delete i =>
    dsimp only [step] at ran
    split at ran
    · split at ran <;> cases ran; exact h.delete ‹_› (Int.le_of_not_gt ‹_›)
    · cases ran
  | release client => cases ran; exact h.release _

theorem Inv.start (clock : Int) : Inv (Process.start clock) :=
  ⟨⟨nofun,fun _ => .nil⟩,nofun,nofun,nofun,nofun,List.nodup_nil,nofun⟩

theorem step_bounded (h : Bounded s) (ran : step exempt s e = some t) : Bounded t := by
  cases e with
  | strike client => cases ran; exact ⟨(honeypotBanFor_struck ..).room h.1,h.2⟩
  | ban i order =>
    dsimp only [step] at ran
    split at ran
    · cases ran
    split at ran
    · cases ran; exact h
    · obtain ⟨next,recorded,rfl⟩ := map_eq_some_iff.mp ran
      exact ⟨h.1,(blockHoneypotIP_banned recorded).room h.2⟩
  | delete i =>
    dsimp only [step] at ran
    split at ran
    · split at ran <;> cases ran; exact ⟨h.1,(length_remove_le ..).trans h.2⟩
    · cases ran
  | release client => cases ran; exact ⟨(length_remove_le ..).trans h.1,(length_remove_le ..).trans h.2⟩
  | tick d => cases ran; exact h
  | check client => dsimp only [step] at ran; split at ran <;> cases ran <;> exact h
  | pass i =>
    dsimp only [step] at ran
    split at ran
    · split at ran <;> cases ran; exact h
    · cases ran

theorem bans_hold (exempt : GoString → Bool) (clock : Int) :
    (∀ s t a b, parseAddr s = some a → parseAddr t = some b → (honeypotKey s = honeypotKey t ↔ sharesBan a b)) ∧
      (∀ s, Reached (step exempt) (fun _ _ => True) (Process.start clock) s → Bounded s) ∧
      ∀ s, Reached (step exempt) Careful (Process.start clock) s → Sound s := by
  refine ⟨fun s t a b parsed parsed' => honeypotKey_shared parsed parsed',?_,?_⟩
  · intro s path
    exact reached_invariant Bounded ⟨Nat.zero_le _,Nat.zero_le _⟩ (fun h _ ran => step_bounded h ran) path
  · intro s path
    exact (reached_invariant Inv (Inv.start clock) step_inv path).toSound

instance decidableCareful : ∀ s e, Decidable (Careful s e) := by
  intros
  unfold Careful
  split <;> infer_instance

def Process.lengths (s : Process) (client : GoString) : List Int := (s.log (honeypotKey client)).map Sentence.length
def sampleClimb : List Event :=
  [.strike (lit "2001:db8::1"),.ban 0 [],.tick 900000000000,.check (lit "2001:db8::2"),.delete 0,.strike (lit "2001:db8::2"),.ban 0 []]

theorem bans_hold_climb : (honeypotKey (lit "2001:db8::1") = honeypotKey (lit "2001:db8::2") ↔
      ∃ a b, parseAddr (lit "2001:db8::1") = some a ∧ parseAddr (lit "2001:db8::2") = some b ∧ sharesBan a b) ∧
    ∃ s, runAllowed (step fun _ => false) Careful (Process.start 0) sampleClimb = some s ∧
      s.lengths (lit "2001:db8::1") = [hour,900*second] ∧ Bounded s ∧ Sound s := by
  have one : parseAddr (lit "2001:db8::1") = some (.v6 ([0x20,1,0xd,0xb8] ++ List.replicate 11 0 ++ [1]) rfl []) := by decide
  have two : parseAddr (lit "2001:db8::2") = some (.v6 ([0x20,1,0xd,0xb8] ++ List.replicate 11 0 ++ [2]) rfl []) := by decide
  refine ⟨?_,?_⟩
  · rw [(bans_hold (fun _ => false) 0).1 _ _ _ _ one two]
    refine ⟨fun shared => ⟨_,_,one,two,shared⟩,?_⟩
    rintro ⟨a,b,parsed,parsed',shared⟩
    cases one.symm.trans parsed
    cases two.symm.trans parsed'
    exact shared
  · refine shown_run (by decide +kernel) fun s path => ?_
    obtain ⟨_,bounded,sound⟩ := bans_hold (fun _ => false) 0
    exact ⟨bounded s (reached_invariant _ .refl (fun before _ ran => .next before trivial ran) path),sound s path⟩

def sampleClient : GoString := lit "192.0.2.1"
def sampleLost : List Event :=
  [.strike sampleClient,.ban 0 [],.tick 900000000000,.check sampleClient,.strike sampleClient,.ban 0 [],.delete 0]
def sampleEased : List Event :=
  [.strike sampleClient,.ban 0 [],.tick 900000000000,.strike sampleClient,.ban 0 [],.tick 90000000000000,.strike sampleClient,.ban 0 []]

theorem bans_lost : (∃ s, run (step fun _ => false) (Process.start 0) sampleLost = some s ∧ ¬ Sound s) ∧
    ∃ s, run (step fun _ => false) (Process.start 0) sampleEased = some s ∧
      s.lengths sampleClient = [900*second,hour,900*second] ∧ ¬ Sound s := by
  refine ⟨⟨_,rfl,fun sound => ?_⟩,⟨_,rfl,by decide,fun sound => ?_⟩⟩
  · obtain ⟨b,found,_⟩ := sound.stands sampleClient (900*second+hour) (by decide) (by decide); cases found
  have chain : List.IsChain (fun new old : Sentence => new.start ≤ old.ends + honeypotStrikeWindow → old.length ≤ new.length)
      [⟨90900*second,900*second⟩,⟨900*second,hour⟩,⟨0,900*second⟩] := sound.climbs sampleClient
  cases chain with
  | cons_cons climbs _ => exact absurd (climbs (by decide)) (by decide)

end Gateon.Honeypot
