import Gateon.Go.Time
import Gateon.Telemetry.BlockList
import Mathlib.Algebra.Order.Ring.Int

namespace Gateon.Shun
open Blocklist Transition List Option
open Go (second minute hour)

def autoShunBase : Int := 15*minute
def autoShunCap : Int := 24*hour
def autoShunMemory : Int := 24*hour
def ipReleaseHold : Int := 24*hour

def sqlUTC (t : Int) : Int := t - t % second

theorem sqlUTC_le (t : Int) : sqlUTC t ≤ t := by
  unfold sqlUTC second
  omega

theorem sqlUTC_near (t : Int) : t < sqlUTC t + second := by
  unfold sqlUTC second
  omega

theorem sqlUTC_mono (le : a ≤ b) : sqlUTC a ≤ sqlUTC b := by
  unfold sqlUTC second
  omega

theorem sqlUTC_whole (whole : second ∣ t) : sqlUTC t = t := by
  unfold sqlUTC
  rw [Int.emod_eq_zero_of_dvd whole,Int.sub_zero]

theorem sqlUTC_dvd (t : Int) : second ∣ sqlUTC t := by
  unfold sqlUTC second
  omega

inductive Status where
  | mitigated
  | unmitigated
  deriving DecidableEq

structure Row where
  status : Status
  mitigatedAt : Option Int
  expiresAt : Option Int
  unmitigatedAt : Option Int
  deriving DecidableEq

-- The row's shun as the cache keeps it: `released` for none, `forever`, or its end.
def Row.ends (r : Row) : Int :=
  match r.status,r.expiresAt with
  | .unmitigated,_ => released
  | .mitigated,none => forever
  | .mitigated,some e => max 1 e

def Row.inForceAt (r : Row) (now : Int) : Bool :=
  match r.status,r.expiresAt with
  | .unmitigated,_ => false
  | .mitigated,none => true
  | .mitigated,some e => decide (now < e)

def Row.held (r : Row) (now : Int) : Bool :=
  match r.status,r.unmitigatedAt with
  | .unmitigated,some u => decide (now - u < ipReleaseHold)
  | _,_ => false

def Row.nextShunDuration (r : Row) (now : Int) : Int :=
  match r.status,r.expiresAt,r.mitigatedAt with
  | .mitigated,some e,some m => if autoShunMemory ≤ now - e then autoShunBase else min autoShunCap (max autoShunBase (2*(e-m)))
  | _,_,_ => autoShunBase

section
variable (r : Option Row)

variable (now : Int)

def inForce : Bool := r.any (·.inForceAt now)
def held : Bool := r.any (·.held now)
def nextShunDuration : Int := (r.map (·.nextShunDuration now)).getD autoShunBase

def shunEnd : Int := (r.map Row.ends).getD released
def unmitigatedAt : Option Int := r.bind Row.unmitigatedAt
def markIPMitigated (expires : Option Int) : Row :=
  ⟨.mitigated,some (sqlUTC now),expires.map sqlUTC,unmitigatedAt r⟩

end

-- The WHERE of QueryWriteAutoShun. A release without a time compares as NULL.
def Row.refuses (r : Row) (now : Int) : Bool :=
  match r.status,r.expiresAt,r.unmitigatedAt with
  | .mitigated,none,_ => true
  | .mitigated,some e,_ => decide (sqlUTC now < e)
  | .unmitigated,_,some u => decide (sqlUTC (now - ipReleaseHold) < u)
  | .unmitigated,_,none => true

def writeAutoShun (r : Option Row) (now ends : Int) : Option Row :=
  if r.any (·.refuses now) then none else some (markIPMitigated r now (some ends))

theorem written_row (lands : writeAutoShun r now ends = some row) : row = markIPMitigated r now (some ends) := by
  unfold writeAutoShun at lands
  split at lands
  · cases lands
  · exact (Option.some.inj lands).symm

def releaseIPMitigation (r : Option Row) (now : Int) : Option Row :=
  r.map fun r => {r with status := .unmitigated, unmitigatedAt := some (sqlUTC now), expiresAt := none}

def Row.spent (r : Row) (lapsed released : Int) : Bool :=
  match r.status,r.expiresAt,r.unmitigatedAt with
  | .mitigated,some e,_ => decide (e < lapsed)
  | .unmitigated,_,some u => decide (u < released)
  | _,_,_ => false

def pruneSpentIPShuns (r : Option Row) (now : Int) : Option Row :=
  r.filter fun r => !r.spent (sqlUTC (now - autoShunMemory)) (sqlUTC (now - ipReleaseHold))

inductive Decision where
  | alreadyInForce
  | exempt
  | apply (now ends : Int)
  deriving DecidableEq

def shunAutomatically (prev : Option Row) (clock : Int) : Decision :=
  let now := sqlUTC clock
  if inForce prev now then .alreadyInForce
  else if held prev now then .exempt
  else .apply now (now + nextShunDuration prev now)

theorem Row.active_ends (r : Row) (after : 1 ≤ now) : active r.ends now = r.inForceAt now := by
  obtain ⟨status,_,expires,_⟩ := r
  cases status with
  | unmitigated => rfl
  | mitigated =>
    cases expires with
    | none => rfl
    | some e =>
      have block : max 1 e ≠ released := by unfold released; omega
      have bounded : max 1 e ≠ forever := by unfold forever; omega
      have ahead : now < max 1 e ↔ now < e := by omega
      unfold active
      rw [show Row.ends _ = max 1 e from rfl,if_neg block,if_neg bounded]
      exact decide_eq_decide.mpr ahead

theorem active_shunEnd (r : Option Row) (after : 1 ≤ now) : active (shunEnd r) now = inForce r now := by
  cases r with
  | none => rfl
  | some r => exact r.active_ends after

structure Pending where
  now : Int
  ends : Int
  turn : Nat
  deriving DecidableEq

structure Rung where
  ends : Int
  repeats : Nat
  deriving DecidableEq

-- With the row and last release it found, and its place in its run.
structure Written where
  clock : Int
  now : Int
  ends : Int
  row : Option Row
  releasedAt : Option Int
  repeats : Nat

-- One address: its row, shuns under way, and what releases and shuns there were.
structure Process where
  clock : Int
  row : Option Row
  pending : List Pending
  operator : Bool
  releasedAt : Option Int
  last : Option Rung
  turn : Nat
  written : List Written

def Process.start (clock : Int) : Process := ⟨clock,none,[],false,none,none,0,[]⟩

inductive Event where
  | tick (d : Nat)
  | block (duration : Option Int)
  | release
  | prune
  | read
  | write (i : Nat)

def repeats (last : Option Rung) (now : Int) : Nat :=
  match last with
  | some l => if now - l.ends < autoShunMemory then l.repeats+1 else 0
  | none => 0

def rungLength (n : Nat) : Int := min autoShunCap (autoShunBase * 2^n)
def blockEnd (clock : Int) (duration : Option Int) : Option Int := duration.map (sqlUTC clock + ·)

section
variable (s : Process)

def Process.shunned (i : Nat) (p : Pending) (row : Row) : Process where
  clock := s.clock
  row := some row
  pending := s.pending.eraseIdx i
  operator := false
  releasedAt := s.releasedAt
  last := some ⟨p.ends,repeats s.last p.now⟩
  turn := s.turn+1
  written := ⟨s.clock,p.now,p.ends,s.row,s.releasedAt,repeats s.last p.now⟩ :: s.written

def step : Event → Option Process
  | .tick d => some {s with clock := s.clock + d}
  | .block duration =>
    if ∀ d ∈ duration, 0 < d then
      some {s with row := some (markIPMitigated s.row (sqlUTC s.clock) (blockEnd s.clock duration)), operator := true}
    else none
  | .release =>
    some {s with row := releaseIPMitigation s.row s.clock, releasedAt := some (sqlUTC s.clock), last := none, turn := s.turn+1}
  | .prune => some {s with row := pruneSpentIPShuns s.row s.clock}
  | .read =>
    match shunAutomatically s.row s.clock with
    | .apply now ends => some {s with pending := ⟨now,ends,s.turn⟩ :: s.pending}
    | _ => some s
  | .write i => s.pending[i]?.map fun p =>
    match writeAutoShun s.row p.now p.ends with
    | none => {s with pending := s.pending.eraseIdx i}
    | some row => s.shunned i p row

-- No block in force is taken away, no hold broken, and the ladder is followed.
structure Keeps (w : Written) : Prop where
  block : inForce w.row w.clock = false
  hold : ∀ u, w.releasedAt = some u → u + ipReleaseHold ≤ w.clock
  ladder : w.ends - w.now = rungLength w.repeats

def Sound : Prop := ∀ w ∈ s.written, Keeps w
def Process.mistaken : Bool :=
  s.operator && s.row.any fun r => r.status = .mitigated && r.expiresAt.any fun e => decide (sqlUTC s.clock - e < autoShunMemory)

-- Releases find a row, and no release or shun comes between a shun's read and write.
def Careful : Event → Prop
  | .block (some d) =>
    (∀ l ∈ s.last, l.ends ≤ sqlUTC (sqlUTC s.clock + d)) ∧ ∀ u ∈ s.releasedAt, u + ipReleaseHold ≤ s.clock
  | .release => s.row.isSome
  | .read => s.mistaken = false
  | .write i => ∀ p ∈ s.pending[i]?, p.turn = s.turn ∨ s.row.any (·.refuses p.now)
  | _ => True

end

structure Remembers (s : Process) : Prop where
  none : s.row = none → ∀ l ∈ s.last, l.ends + autoShunMemory ≤ sqlUTC s.clock
  unmitigated : ∀ r, s.row = some r → r.status = .unmitigated → s.last = .none
  automatic : ∀ r e, s.row = some r → r.status = .mitigated → r.expiresAt = some e → s.operator = false →
    ∃ m n, r.mitigatedAt = some m ∧ s.last = some ⟨e,n⟩ ∧ e - m = rungLength n
  operator : ∀ r e, s.row = some r → r.status = .mitigated → r.expiresAt = some e → s.operator →
    ∀ l ∈ s.last, l.ends ≤ e
  hold : ∀ u, s.releasedAt = some u → u + ipReleaseHold ≤ s.clock ∨
    ∃ r, s.row = some r ∧ (r.status = .unmitigated ∧ r.unmitigatedAt = some u ∨ r.status = .mitigated ∧ r.expiresAt = .none)
  whole : ∀ r e, s.row = some r → r.expiresAt = some e → second ∣ e

structure Inv (s : Process) : Prop where
  remembers : Remembers s
  begun : ∀ p ∈ s.pending, p.now ≤ s.clock ∧ second ∣ p.now
  decided : ∀ p ∈ s.pending, p.turn = s.turn → p.ends - p.now = rungLength (repeats s.last p.now)
  turns : ∀ p ∈ s.pending, p.turn ≤ s.turn
  sound : Sound s

theorem rungLength_next (n : Nat) : min autoShunCap (max autoShunBase (2 * rungLength n)) = rungLength (n+1) := by
  have grows : (0 : Int) < 2^n := pow_pos (by decide) n
  simp only [rungLength,pow_succ]
  unfold autoShunCap autoShunBase hour minute second
  omega

theorem rungLength_first : rungLength 0 = autoShunBase := by decide

theorem Remembers.next (h : Remembers s) (apart : s.mistaken = false) (free : inForce s.row (sqlUTC s.clock) = false) :
    nextShunDuration s.row (sqlUTC s.clock) = rungLength (repeats s.last (sqlUTC s.clock)) := by
  have clean : (∀ l ∈ s.last, l.ends + autoShunMemory ≤ sqlUTC s.clock) → repeats s.last (sqlUTC s.clock) = 0 := by
    intro gone
    cases last : s.last with
    | none => rfl
    | some l => have past := gone l last; exact if_neg (by omega)
  cases row : s.row with
  | none => rw [clean (h.none row),rungLength_first]; rfl
  | some r =>
    cases status : r.status with
    | unmitigated =>
      rw [clean (by simp [h.unmitigated r row status]),rungLength_first]
      simp [nextShunDuration,Row.nextShunDuration,status]
    | mitigated =>
      cases expires : r.expiresAt with
      | none => simp [inForce,row,Row.inForceAt,status,expires] at free
      | some e =>
        cases operator : s.operator with
        | true =>
          have lapsed : autoShunMemory ≤ sqlUTC s.clock - e := by
            simpa [Process.mistaken,operator,row,status,expires] using apart
          have gone : ∀ l ∈ s.last, l.ends + autoShunMemory ≤ sqlUTC s.clock := by
            intro l mem
            have before := h.operator r e row status expires operator l mem
            omega
          rw [clean gone,rungLength_first]
          cases began : r.mitigatedAt with
          | none => simp [nextShunDuration,Row.nextShunDuration,status,expires,began]
          | some m => simp [nextShunDuration,Row.nextShunDuration,status,expires,began,lapsed]
        | false =>
          obtain ⟨m,n,began,last,length⟩ := h.automatic r e row status expires operator
          simp only [nextShunDuration,Row.nextShunDuration,status,expires,began,last,repeats,map_some,getD_some]
          split
          · rw [if_neg (by omega),rungLength_first]
          · rw [if_pos (by omega),length,rungLength_next]

theorem lapsed_of_written (began : now ≤ clock) (lands : writeAutoShun r now ends = some row) :
    inForce r clock = false := by
  obtain ⟨takes,lands⟩ := ite_none_left_eq_some.mp lands
  cases r with
  | none => rfl
  | some r =>
    obtain ⟨status,_,expires,_⟩ := r
    have earlier := sqlUTC_le now
    cases status with
    | unmitigated => rfl
    | mitigated =>
      cases expires with
      | none => exact absurd rfl takes
      | some e =>
        have passed : ¬ sqlUTC now < e := by simpa [Row.refuses] using takes
        exact decide_eq_false (by omega)

theorem Remembers.held (h : Remembers s) (began : now ≤ s.clock) (lands : writeAutoShun s.row now ends = some row)
    (u : Int) (last : s.releasedAt = some u) : u + ipReleaseHold ≤ s.clock := by
  rcases h.hold u last with past | ⟨r,held,⟨status,at_⟩ | ⟨status,expires⟩⟩
  · exact past
  · have takes : ¬ sqlUTC (now - ipReleaseHold) < u := by
      intro refuses
      simp [writeAutoShun,held,Row.refuses,status,at_,refuses] at lands
    have earlier := sqlUTC_le (now - ipReleaseHold)
    omega
  · simp [writeAutoShun,held,Row.refuses,status,expires] at lands

section
variable (h : Inv s)
include h

theorem Inv.tick (d : Nat) : Inv {s with clock := s.clock + d} := by
  have later : s.clock ≤ s.clock + d := by omega
  have seconds := sqlUTC_mono later
  have r := h.remembers
  refine ⟨{r with none := fun row l mem => (r.none row l mem).trans seconds,hold := ?_},?_,h.decided,
    h.turns,h.sound⟩
  · exact fun u last => (r.hold u last).imp_left fun past => past.trans later
  · exact fun p mem => ⟨(h.begun p mem).1.trans later,(h.begun p mem).2⟩

theorem Inv.block (duration : Option Int) (meets : Careful s (.block duration)) :
    Inv {s with row := some (markIPMitigated s.row (sqlUTC s.clock) (blockEnd s.clock duration)), operator := true} := by
  refine {h with remembers := ⟨nofun,?_,?_,?_,?_,?_⟩}
  · rintro _ ⟨⟩ status; cases status
  · rintro _ _ ⟨⟩ _ _ automatic; cases automatic
  · rintro _ e ⟨⟩ _ expires _ l mem
    cases duration with
    | none => cases expires
    | some d => cases expires; exact meets.1 l mem
  · intro u last
    cases duration with
    | none => exact .inr ⟨_,rfl,.inr ⟨rfl,rfl⟩⟩
    | some d => exact .inl (meets.2 u last)
  · rintro _ e ⟨⟩ expires
    obtain ⟨_,_,rfl⟩ := map_eq_some_iff.mp expires
    exact sqlUTC_dvd _

theorem Inv.release (meets : s.row.isSome) :
    Inv {s with row := releaseIPMitigation s.row s.clock, releasedAt := some (sqlUTC s.clock), last := none, turn := s.turn+1} := by
  obtain ⟨old,row⟩ := isSome_iff_exists.mp meets
  have updated : releaseIPMitigation s.row s.clock =
      some ⟨.unmitigated,old.mitigatedAt,none,some (sqlUTC s.clock)⟩ := by
    simp only [releaseIPMitigation,row,map_some]
  rw [updated]
  refine ⟨⟨nofun,fun _ _ _ => rfl,?_,?_,?_,?_⟩,h.begun,?_,fun p mem => (h.turns p mem).trans (Nat.le_succ _),
    h.sound⟩
  · rintro _ _ ⟨⟩ status; cases status
  · rintro _ _ ⟨⟩ status; cases status
  · rintro u ⟨⟩; exact .inr ⟨_,rfl,.inl ⟨rfl,rfl⟩⟩
  · rintro _ _ ⟨⟩ expires; cases expires
  intro p mem turn
  have before := h.turns p mem
  dsimp only at turn
  omega

theorem Inv.prune : Inv {s with row := pruneSpentIPShuns s.row s.clock} := by
  have r := h.remembers
  have kept : ∀ x, pruneSpentIPShuns s.row s.clock = some x → s.row = some x := by
    intro x held
    exact (filter_eq_some_iff.mp held).1
  have gone : ∀ x, s.row = some x → pruneSpentIPShuns s.row s.clock = none →
      x.spent (sqlUTC (s.clock - autoShunMemory)) (sqlUTC (s.clock - ipReleaseHold)) := by
    intro x held left
    unfold pruneSpentIPShuns at left
    rw [held] at left
    by_contra keep
    simp [Option.filter,keep] at left
  refine {h with remembers := ⟨?_,fun x held => r.unmitigated x (kept x held),fun x e held => r.automatic x e (kept x held),
    fun x e held => r.operator x e (kept x held),?_,fun x e held => r.whole x e (kept x held)⟩}
  · intro left l mem
    show l.ends + autoShunMemory ≤ sqlUTC s.clock
    cases held : s.row with
    | none => exact r.none held l mem
    | some x =>
      have spent := gone x held left
      cases status : x.status with
      | unmitigated => rw [r.unmitigated x held status] at mem; cases mem
      | mitigated =>
        cases expires : x.expiresAt with
        | none => simp [Row.spent,status,expires] at spent
        | some e =>
          have lapsed : e < sqlUTC (s.clock - autoShunMemory) := by simpa [Row.spent,status,expires] using spent
          have seconds : sqlUTC (s.clock - autoShunMemory) = sqlUTC s.clock - autoShunMemory := by
            unfold sqlUTC autoShunMemory hour minute second
            omega
          cases operator : s.operator with
          | true => have before := r.operator x e held status expires operator l mem; omega
          | false =>
            obtain ⟨m,n,_,last,_⟩ := r.automatic x e held status expires operator
            cases last.symm.trans mem
            dsimp only
            omega
  · intro u last
    show u + ipReleaseHold ≤ s.clock ∨ ∃ x, pruneSpentIPShuns s.row s.clock = some x ∧ _
    rcases r.hold u last with past | ⟨x,held,kind⟩
    · exact .inl past
    cases left : pruneSpentIPShuns s.row s.clock with
    | some y => cases held.symm.trans (kept y left); exact .inr ⟨x,rfl,kind⟩
    | none =>
      have spent := gone x held left
      rcases kind with ⟨status,at_⟩ | ⟨status,expires⟩
      · have old : u < sqlUTC (s.clock - ipReleaseHold) := by simpa [Row.spent,status,at_] using spent
        have earlier := sqlUTC_le (s.clock - ipReleaseHold)
        exact .inl (by omega)
      · simp [Row.spent,status,expires] at spent

theorem Inv.read (meets : s.mistaken = false) (decides : shunAutomatically s.row s.clock = .apply now ends) :
    Inv {s with pending := ⟨now,ends,s.turn⟩ :: s.pending} := by
  unfold shunAutomatically at decides
  dsimp only at decides
  split at decides
  · cases decides
  rename_i force
  split at decides
  · cases decides
  cases decides
  have length := h.remembers.next meets (by simpa using force)
  refine ⟨{h.remembers with},?_,?_,?_,h.sound⟩
  · rintro p (_ | ⟨_,mem⟩)
    · exact ⟨sqlUTC_le _,sqlUTC_dvd _⟩
    · exact h.begun p mem
  · rintro p (_ | ⟨_,mem⟩) turn
    · exact (add_sub_cancel_left ..).trans length
    · exact h.decided p mem turn
  · rintro p (_ | ⟨_,mem⟩)
    · exact le_rfl
    · exact h.turns p mem

theorem Inv.erase (i : Nat) : Inv {s with pending := s.pending.eraseIdx i} :=
  ⟨{h.remembers with},fun p mem => h.begun p (mem_of_mem_eraseIdx mem),fun p mem => h.decided p (mem_of_mem_eraseIdx mem),
    fun p mem => h.turns p (mem_of_mem_eraseIdx mem),h.sound⟩

end

theorem rungLength_whole (n : Nat) : second ∣ rungLength n := by
  unfold rungLength autoShunCap autoShunBase hour minute second
  rcases min_choice (24*(60*(60*1000000000)) : Int) (15*(60*1000000000) * 2^n) with cap | base
  · rw [cap]; omega
  · rw [base]; omega

theorem Inv.shunned (h : Inv s) (waits : s.pending[i]? = some p) (turn : p.turn = s.turn)
    (lands : writeAutoShun s.row p.now p.ends = some row) : Inv (s.shunned i p row) := by
  have mem := mem_of_getElem? waits
  obtain ⟨began,whole⟩ := h.begun p mem
  have length := h.decided p mem turn
  have ends : second ∣ p.ends := by
    have both := Int.dvd_add whole (length ▸ rungLength_whole (repeats s.last p.now))
    rwa [add_sub_cancel] at both
  have past := h.remembers.held began lands
  cases written_row lands
  refine ⟨⟨nofun,?_,?_,?_,fun u last => .inl (past u last),?_⟩,?_,?_,?_,?_⟩
  · rintro _ ⟨⟩ status; cases status
  · rintro _ e ⟨⟩ _ expires _
    cases expires
    exact ⟨_,_,rfl,by rw [sqlUTC_whole ends]; rfl,by rw [sqlUTC_whole ends,sqlUTC_whole whole]; exact length⟩
  · rintro _ _ ⟨⟩ _ _ operator; cases operator
  · rintro _ e ⟨⟩ expires
    cases expires
    exact sqlUTC_dvd _
  · exact fun q inside => h.begun q (mem_of_mem_eraseIdx inside)
  · intro q inside same
    have before := h.turns q (mem_of_mem_eraseIdx inside)
    have after : q.turn = s.turn+1 := same
    omega
  · exact fun q inside => (h.turns q (mem_of_mem_eraseIdx inside)).trans (Nat.le_succ _)
  · rintro w (_ | ⟨_,inside⟩)
    · exact ⟨lapsed_of_written began lands,past,length⟩
    · exact h.sound w inside

theorem step_inv (h : Inv s) (meets : Careful s e) (ran : step s e = some t) : Inv t := by
  cases e with
  | tick d => cases ran; exact h.tick d
  | block duration =>
    simp only [step] at ran
    split at ran
    · cases ran; exact h.block duration meets
    · cases ran
  | release => cases ran; exact h.release meets
  | prune => cases ran; exact h.prune
  | read =>
    simp only [step] at ran
    split at ran
    · rename_i decides
      cases ran
      exact h.read meets decides
    · cases ran; exact h
  | write i =>
    obtain ⟨p,waits,rfl⟩ := map_eq_some_iff.mp ran
    cases lands : writeAutoShun s.row p.now p.ends with
    | none => exact h.erase i
    | some row =>
      rcases meets p waits with turn | refuses
      · exact h.shunned waits turn lands
      · simp [writeAutoShun,refuses] at lands

theorem ladder_sound (clock : Int) (s : Process) (path : Reached step Careful (Process.start clock) s) : Sound s := by
  have first : Inv (Process.start clock) := by
    refine ⟨⟨?_,?_,?_,?_,?_,?_⟩,?_,?_,?_,?_⟩ <;> exact nofun
  exact (reached_invariant Inv first step_inv path).sound

instance decidableCareful : ∀ s e, Decidable (Careful s e) := by
  intros
  unfold Careful
  split <;> infer_instance

def sampleHistory : List Event :=
  [.read,.write 0,.tick 960000000000,.read,.write 0,.block none,.release,.read,.tick 86400000000000,.prune,.read,.write 0]

theorem ladder_climbs : ∃ s, runAllowed step Careful (Process.start hour) sampleHistory = some s ∧
    s.written.map (fun w => w.ends - w.now) = [15*minute,30*minute,15*minute] ∧ Sound s :=
  shown_run (by decide) fun s path => ladder_sound hour s path

-- A release of an address that has no row returns without error, and the next automatic shun is written at once.
theorem release_not_held : ∃ s, run step (Process.start hour) [.release,.read,.write 0] = some s ∧ ¬ Sound s := by
  refine ⟨_,rfl,fun sound => ?_⟩
  have held := (sound _ (.head _)).hold hour rfl
  exact absurd held (by decide)

end Gateon.Shun
