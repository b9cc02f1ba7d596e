import Gateon.Go.Strings
import Gateon.Lib.KeyedStore
import Gateon.Lib.Transition
import Mathlib.Logic.Function.Basic

namespace Gateon.Ebpf
open Go KeyedStore Transition
open Option (filter isSome_none isSome_some map map_eq_some_iff)
open Function (update update_self update_of_ne)

abbrev End := Option Int

def lapsed (ends : End) (now : Int) : Bool :=
  match ends with
  | none => false
  | some t => decide (t ≤ now)

def latest : End → End → End
  | some a,some b => some (max a b)
  | _,_ => none

theorem lapsed_later (past : lapsed ends clock) (later : clock ≤ now) : lapsed ends now := by
  cases ends with
  | none => cases past
  | some t => exact decide_eq_true ((of_decide_eq_true past).trans later)

theorem latest_lapsed : lapsed (latest a b) now ↔ lapsed a now ∧ lapsed b now := by
  cases a <;> cases b <;> simp [latest,lapsed]

theorem latest_running (past : lapsed a now) (runs : lapsed b now = false) : latest a b = b := by
  cases a with
  | none => cases past
  | some s =>
    cases b with
    | none => rfl
    | some t =>
      simp only [lapsed,decide_eq_true_eq,decide_eq_false_iff_not] at past runs
      exact congrArg some (by omega)

-- A kind of kernel entry with its leases, and how it treats them.
structure Policy (X E : Type) where
  lease : X → Int → E
  keep : E → E → E
  ends : E → End
  again : E → Int → E
  lenient : Bool
  Made : Int → E → Prop
  made_later : Made clock e → clock ≤ now → Made now e
  made_lease : Made clock (lease x clock)
  made_keep : Made clock a → Made clock b → Made clock (keep a b)
  made_again : Made clock e → Made clock (again e now)
  keep_ends : Made clock e → ends (keep e (lease x clock)) = latest (ends e) (ends (lease x clock))
  again_ends : now ≤ clock → lapsed (ends e) clock → lapsed (ends (again e now)) clock

def holdShun (cur ends : End) : End :=
  match cur,ends with
  | none,_ => none
  | some _,none => none
  | some c,some t => if c < t then some t else some c

def shuns : Policy End End where
  lease ends _ := ends
  keep := holdShun
  ends e := e
  again _ now := some now
  lenient := false
  Made _ _ := True
  made_later := fun _ _ => trivial
  made_lease := trivial
  made_keep := fun _ _ => trivial
  made_again := fun _ => trivial
  keep_ends := by
    intro clock e x _
    cases e with
    | none => cases x <;> rfl
    | some c =>
      cases x with
      | none => rfl
      | some t =>
        unfold holdShun latest
        dsimp only
        split <;> exact congrArg some (by omega)
  again_ends := fun past _ => decide_eq_true past

def adaptiveLimitLease : Int := 5*60*1000000000
def maxLimitReasonBytes : Nat := 200

structure Limit where
  interval : Int
  reason : GoString
  deriving DecidableEq

structure AdaptiveLimit extends Limit where
  setAt : Int
  expires : Int
  deriving DecidableEq

def limits : Policy Limit AdaptiveLimit where
  lease l now := ⟨⟨l.interval,l.reason.take maxLimitReasonBytes⟩,now,now + adaptiveLimitLease⟩
  keep _ new := new
  ends l := some l.expires
  again l _ := l
  lenient := true
  Made now l := l.expires ≤ now + adaptiveLimitLease
  made_later := fun made later => made.trans (Int.add_le_add_right later _)
  made_lease := le_rfl
  made_keep := fun _ made => made
  made_again := id
  keep_ends := fun made => congrArg some (max_eq_right made).symm
  again_ends := fun _ past => past

structure Lease (K E : Type) where
  key : K
  value : E

abbrev Leases (K E : Type) := Store (Lease.key : Lease K E → K)

inductive Work (X : Type) where
  | set (x : X)
  | clear

-- `since` is the turn it began in, `clean` whether every removal went through.
structure Sweep (K E : Type) where
  now : Int
  since : Nat
  clean : Bool
  todo : Leases K E
  failed : Option (Lease K E)

structure Due where
  ends : End
  turn : Nat

structure Table (K X E : Type) where
  kernel : K → Bool
  leases : Leases K E
  calls : K → List (Work X)
  sweep : Option (Sweep K E)
  due : K → Option Due
  turn : Nat

section
variable {K X E : Type} [DecidableEq K]

def Table.empty : Table K X E := ⟨fun _ => false,Store.empty,fun _ => [],none,fun _ => none,0⟩

section
variable (p : Policy X E)

def Policy.kept (cur : Option E) (e : E) : E :=
  match cur with
  | some cur => p.keep cur e
  | none => e

def Policy.hold (leases : Leases K E) (k : K) (e : E) : Leases K E :=
  leases.put ⟨k,p.kept ((leases.get k).map Lease.value) e⟩
def Policy.expired (now : Int) (l : Lease K E) : Bool := lapsed (p.ends l.value) now

inductive Op (K X : Type) where
  | set (k : K) (x : X) (ok : Bool)
  | hold (k : K) (i : Nat)
  | clear (k : K) (ok : Bool)
  | drop (k : K) (i : Nat)
  | sweep
  | lift (k : K) (ok : Bool)
  | back

def Sweep.done (w : Sweep K E) : Bool := w.todo.rows.isEmpty && w.failed.isNone
def Policy.due (old : Option Due) (e : E) (turn : Nat) : Due :=
  ⟨match old with | some d => latest d.ends (p.ends e) | none => p.ends e,turn⟩

def Policy.held (clock : Int) (t : Table K X E) (k : K) (i : Nat) (x : X) : Table K X E :=
  {t with
    leases := p.hold t.leases k (p.lease x clock)
    calls := update t.calls k ((t.calls k).eraseIdx i)
    due := update t.due k (some (p.due (t.due k) (p.lease x clock) (t.turn+1)))
    turn := t.turn+1}

def Policy.taken (clock : Int) (t : Table K X E) : Table K X E :=
  {t with
    leases := t.leases.filter fun l => !p.expired clock l
    sweep := some ⟨clock,t.turn,true,t.leases.filter (p.expired clock),none⟩}

def Policy.step (clock : Int) (t : Table K X E) : Op K X → Option (Table K X E)
  | .set k x ok =>
    if ok then some {t with kernel := update t.kernel k true, calls := update t.calls k (.set x :: t.calls k)} else some t
  | .hold k i =>
    match (t.calls k)[i]? with
    | some (.set x) =>
      some (p.held clock t k i x)
    | _ => none
  | .clear k ok =>
    if ok && (t.kernel k || p.lenient) then
      some {t with kernel := update t.kernel k false, calls := update t.calls k (.clear :: t.calls k), due := update t.due k none}
    else some t
  | .drop k i =>
    match (t.calls k)[i]? with
    | some .clear => some {t with leases := t.leases.remove k, calls := update t.calls k ((t.calls k).eraseIdx i)}
    | _ => none
  | .sweep =>
    if t.sweep.all Sweep.done then
      some (p.taken clock t)
    else none
  | .lift k ok =>
    match t.sweep with
    | some w =>
      match w.failed,w.todo.get k with
      | none,some l =>
        if ok then some {t with kernel := update t.kernel k false, sweep := some {w with todo := w.todo.remove k}}
        else some {t with sweep := some {w with clean := false, todo := w.todo.remove k, failed := some l}}
      | _,_ => none
    | none => none
  | .back =>
    match t.sweep with
    | some w =>
      match w.failed with
      | some l => some {t with leases := p.hold t.leases l.key (p.again l.value w.now), sweep := some {w with failed := none}}
      | none => none
    | none => none

def lifting (sweep : Option (Sweep K E)) (k : K) : Option E := (sweep.bind fun w => w.todo.get k).map Lease.value
def failing (sweep : Option (Sweep K E)) (k : K) : Option E :=
  (sweep.bind fun w => w.failed.filter fun l => decide (l.key = k)).map Lease.value
def Table.idle (t : Table K X E) (k : K) : Bool := (t.calls k).isEmpty && (lifting t.sweep k).isNone && (failing t.sweep k).isNone

-- Kernel and leases agree, set entries stay to their end, a sweep leaves no others.
structure Sound (clock : Int) (t : Table K X E) : Prop where
  agree : (∀ k, t.idle k) → ∀ k, t.kernel k = (t.leases.get k).isSome
  stays : ∀ k d, t.due k = some d → lapsed d.ends clock = false → t.kernel k
  swept : ∀ w, t.sweep = some w → w.done → w.clean → ∀ k d, t.idle k → t.due k = some d → d.turn ≤ w.since →
    lapsed d.ends w.now → t.kernel k = false

-- The calls of one key do not overlap.
def Policy.Careful (clock : Int) (t : Table K X E) : Op K X → Prop
  | .set k _ _ | .clear k _ => t.idle k
  | .sweep => ∀ l ∈ t.leases.rows, p.expired clock l → t.calls l.key = []
  | _ => True

end

structure Node (K : Type) where
  clock : Int
  shuns : Table K End End
  limits : Table K Limit AdaptiveLimit

inductive Event (K : Type) where
  | tick (d : Nat)
  | shun (op : Op K End)
  | limit (op : Op K Limit)

def step (s : Node K) : Event K → Option (Node K)
  | .tick d => some {s with clock := s.clock + d}
  | .shun op => (shuns.step s.clock s.shuns op).map fun t => {s with shuns := t}
  | .limit op => (limits.step s.clock s.limits op).map fun t => {s with limits := t}

def Careful (s : Node K) : Event K → Prop
  | .tick _ => True
  | .shun op => shuns.Careful s.clock s.shuns op
  | .limit op => limits.Careful s.clock s.limits op

end

section

variable {K X E : Type} {p : Policy X E}

structure Tracks (p : Policy X E) (clock : Int) (kernel : Bool) (lease : Option E) (due : Option Due) : Prop where
  leased : ∀ e, lease = some e → p.Made clock e ∧
    ∃ d, due = some d ∧ (p.ends e = d.ends ∨ lapsed (p.ends e) clock ∧ lapsed d.ends clock)
  kept : ∀ d, due = some d → lapsed d.ends clock ∨ kernel ∧ ∃ e, lease = some e ∧ p.ends e = d.ends

def Swept (sweep : Option (Sweep K E)) (kernel : Bool) (due : Option Due) : Prop :=
  ∀ w, sweep = some w → w.clean → ∀ d, due = some d → d.turn ≤ w.since → lapsed d.ends w.now → kernel = false

inductive Holds (p : Policy X E) (clock : Int) (sweep : Option (Sweep K E)) :
    Bool → Option E → Option Due → List (Work X) → Option E → Option E → Prop where
  | idle (same : kernel = lease.isSome) (tracks : Tracks p clock kernel lease due) (swept : Swept sweep kernel due) :
      Holds p clock sweep kernel lease due [] none none
  | set (x : X) (tracks : Tracks p clock true lease due) : Holds p clock sweep true lease due [.set x] none none
  | clear (made : ∀ e, lease = some e → p.Made clock e) : Holds p clock sweep false lease none [.clear] none none
  | lift (past : ∀ d, due = some d → lapsed d.ends clock) (set : due.isSome) (made : p.Made clock e)
      (ends : lapsed (p.ends e) clock) : Holds p clock sweep true none due [] (some e) none
  | back (past : ∀ d, due = some d → lapsed d.ends clock) (set : due.isSome) (made : p.Made clock e)
      (ends : lapsed (p.ends e) clock) (unclean : ∀ w, sweep = some w → w.clean = false) :
      Holds p clock sweep true none due [] none (some e)

theorem Tracks.later (h : Tracks p clock here lent owed) (later : clock ≤ now) : Tracks p now here lent owed := by
  refine ⟨?_,?_⟩
  · intro e held
    obtain ⟨made,d,due,same⟩ := h.leased e held
    refine ⟨p.made_later made later,d,due,same.imp_right fun both => ?_⟩
    exact ⟨lapsed_later both.1 later,lapsed_later both.2 later⟩
  · exact fun d held => (h.kept d held).imp_left fun past => lapsed_later past later

variable {sweep : Option (Sweep K E)} {w : Sweep K E}

theorem Holds.later (h : Holds p clock sweep here lent owed work lifts fails) (later : clock ≤ now) :
    Holds p now sweep here lent owed work lifts fails := by
  cases h with
  | idle same tracks swept => exact .idle same (tracks.later later) swept
  | set x tracks => exact .set x (tracks.later later)
  | clear made => exact .clear fun e held => p.made_later (made e held) later
  | lift past set made ends =>
    exact .lift (fun d held => lapsed_later (past d held) later) set (p.made_later made later) (lapsed_later ends later)
  | back past set made ends unclean =>
    exact .back (fun d held => lapsed_later (past d held) later) set (p.made_later made later) (lapsed_later ends later) unclean

theorem Holds.idle_parts (h : Holds p clock sweep here lent owed [] none none) :
    here = lent.isSome ∧ Tracks p clock here lent owed ∧ Swept sweep here owed := by
  cases h with
  | idle same tracks swept => exact ⟨same,tracks,swept⟩

theorem Holds.running (h : Holds p clock sweep here lent (some d) work lifts fails)
    (running : lapsed d.ends clock = false) : here := by
  cases h with
  | idle _ tracks _ =>
    rcases tracks.kept d rfl with past | ⟨held,_⟩
    · rw [past] at running; cases running
    · exact held
  | set | lift | back => rfl

theorem Holds.set_parts (h : Holds p clock sweep here lent owed work lifts fails) (waits : work[i]? = some (.set x)) :
    work.eraseIdx i = [] ∧ here ∧ Tracks p clock true lent owed ∧ lifts = none ∧ fails = none := by
  cases h with
  | set y tracks =>
    cases i with
    | zero => exact ⟨rfl,rfl,tracks,rfl,rfl⟩
    | succ i => cases waits
  | clear => cases i <;> cases waits
  | _ => cases waits

theorem Holds.clear_parts (h : Holds p clock sweep here lent owed work lifts fails) (waits : work[i]? = some .clear) :
    work.eraseIdx i = [] ∧ here = false ∧ owed = none ∧ lifts = none ∧ fails = none := by
  cases h with
  | clear =>
    cases i with
    | zero => exact ⟨rfl,rfl,rfl,rfl,rfl⟩
    | succ i => cases waits
  | set => cases i <;> cases waits
  | _ => cases waits

theorem Holds.take (h : Holds p clock sweep here lent owed work none none)
    (careful : ∀ e, lent = some e → lapsed (p.ends e) clock → work = []) (now : w.now = clock) :
    Holds p clock (some w) here (lent.filter fun e => !lapsed (p.ends e) clock) owed work
      (lent.filter fun e => lapsed (p.ends e) clock) none := by
  have kept : work ≠ [] → ∀ e, lent = some e → lapsed (p.ends e) clock = false := by
    intro busy e held
    exact Bool.of_not_eq_true fun past => busy (careful e held past)
  cases h with
  | idle same tracks swept =>
    cases lent with
    | none => exact .idle same tracks fun _ _ _ _ _ _ _ => same
    | some e =>
      obtain ⟨made,d,due,ends⟩ := tracks.leased e rfl
      cases past : lapsed (p.ends e) clock with
      | true =>
        cases same
        simp only [filter,past]
        refine .lift (fun d' held => ?_) (by simp [due]) made past
        cases due.symm.trans held
        exact ends.elim (fun equal => equal ▸ past) And.right
      | false =>
        simp only [filter,past]
        refine .idle same tracks ?_
        rintro _ ⟨⟩ _ d' held _ gone
        cases due.symm.trans held
        rw [now] at gone
        rcases ends with equal | ⟨also,_⟩
        · rw [equal,gone] at past; cases past
        · rw [also] at past; cases past
  | set x tracks =>
    cases lent with
    | none => exact .set x tracks
    | some e => simp only [filter,kept nofun e rfl]; exact .set x tracks
  | clear made =>
    cases lent with
    | none => exact .clear made
    | some e => simp only [filter,kept nofun e rfl]; exact .clear made

theorem Holds.resweep {sweep next : Option (Sweep K E)} (h : Holds p clock sweep here lent owed work lifts fails)
    (same : ∀ w, next = some w → ∃ v, sweep = some v ∧ v.now = w.now ∧ v.since = w.since ∧ (w.clean → v.clean)) :
    Holds p clock next here lent owed work lifts fails := by
  cases h with
  | idle equal tracks swept =>
    refine .idle equal tracks ?_
    intro w held clean d due turn past
    obtain ⟨v,old,now,since,cleaner⟩ := same w held
    exact swept v old (cleaner clean) d due (since ▸ turn) (now ▸ past)
  | set x tracks => exact .set x tracks
  | clear made => exact .clear made
  | lift past set made ends => exact .lift past set made ends
  | back past set made ends unclean =>
    refine .back past set made ends ?_
    intro w held
    obtain ⟨v,old,_,_,cleaner⟩ := same w held
    cases clean : w.clean with
    | false => rfl
    | true => exact (cleaner clean).symm.trans (unclean v old)

theorem Holds.lift_parts (h : Holds p clock sweep here lent owed work (some e) fails) :
    here ∧ lent = none ∧ work = [] ∧ fails = none ∧ (∀ d, owed = some d → lapsed d.ends clock) ∧
      owed.isSome ∧ p.Made clock e ∧ lapsed (p.ends e) clock := by
  cases h with
  | lift past set made ends => exact ⟨rfl,rfl,rfl,rfl,past,set,made,ends⟩

theorem Holds.back_parts (h : Holds p clock sweep here lent owed work lifts (some e)) :
    here ∧ lent = none ∧ work = [] ∧ lifts = none ∧ (∀ d, owed = some d → lapsed d.ends clock) ∧
      owed.isSome ∧ p.Made clock e ∧ lapsed (p.ends e) clock ∧ ∀ w, sweep = some w → w.clean = false := by
  cases h with
  | back past set made ends unclean => exact ⟨rfl,rfl,rfl,rfl,past,set,made,ends,unclean⟩

variable [DecidableEq K]

def Table.At (p : Policy X E) (clock : Int) (t : Table K X E) (k : K) : Prop :=
  Holds p clock t.sweep (t.kernel k) ((t.leases.get k).map Lease.value) (t.due k) (t.calls k) (lifting t.sweep k) (failing t.sweep k)

structure Inv (p : Policy X E) (clock : Int) (t : Table K X E) : Prop where
  keys : ∀ k, t.At p clock k
  turns : ∀ k d, t.due k = some d → d.turn ≤ t.turn
  sweeps : ∀ w, t.sweep = some w → w.now ≤ clock ∧ w.since ≤ t.turn

variable {t : Table K X E}

theorem Inv.later (h : Inv p clock t) (later : clock ≤ now) : Inv p now t :=
  ⟨fun k => (h.keys k).later later,h.turns,fun w held => ⟨(h.sweeps w held).1.trans later,(h.sweeps w held).2⟩⟩
theorem Table.idle_iff : t.idle k ↔ t.calls k = [] ∧ lifting t.sweep k = none ∧ failing t.sweep k = none := by
  simp [Table.idle,and_assoc]

theorem Inv.idle (h : Inv p clock t) (idle : t.idle k) :
    t.kernel k = (t.leases.get k).isSome ∧ Tracks p clock (t.kernel k) ((t.leases.get k).map Lease.value) (t.due k) ∧
      Swept t.sweep (t.kernel k) (t.due k) := by
  obtain ⟨calls,lifting,failing⟩ := Table.idle_iff.mp idle
  have at_ := h.keys k
  unfold Table.At at at_
  rw [calls,lifting,failing] at at_
  simpa using at_.idle_parts

theorem Inv.sound (h : Inv p clock t) : Sound clock t := by
  refine ⟨fun idle k => (h.idle (idle k)).1,?_,?_⟩
  · intro k d due running
    have at_ := h.keys k
    unfold Table.At at at_
    rw [due] at at_
    exact at_.running running
  · intro w held _ clean k d idle due turn past; exact (h.idle idle).2.2 w held clean d due turn past

theorem Table.At.frame {t u : Table K X E} (h : t.At p clock k) (kernel : u.kernel k = t.kernel k) (lease : u.leases.get k = t.leases.get k)
    (due : u.due k = t.due k) (calls : u.calls k = t.calls k) (sweep : u.sweep = t.sweep) : u.At p clock k := by
  unfold Table.At at *
  rw [kernel,lease,due,calls,sweep]
  exact h

theorem Table.At.of (h : Holds p clock t.sweep here lent owed work lifts fails) (kernel : t.kernel k = here)
    (lease : (t.leases.get k).map Lease.value = lent) (due : t.due k = owed) (calls : t.calls k = work)
    (lifted : lifting t.sweep k = lifts) (failed : failing t.sweep k = fails) : t.At p clock k := by
  unfold Table.At
  rw [kernel,lease,due,calls,lifted,failed]
  exact h

theorem Inv.set (h : Inv p clock t) (idle : t.idle k) (x : X) :
    Inv p clock {t with kernel := update t.kernel k true, calls := update t.calls k (.set x :: t.calls k)} := by
  refine ⟨?_,h.turns,h.sweeps⟩
  intro other
  by_cases same : other = k
  · subst same
    obtain ⟨calls,lifts,fails⟩ := Table.idle_iff.mp idle
    obtain ⟨_,tracks,_⟩ := h.idle idle
    have held : Tracks p clock true ((t.leases.get other).map Lease.value) (t.due other) :=
      ⟨tracks.leased,fun d held => (tracks.kept d held).imp_right fun both => ⟨rfl,both.2⟩⟩
    refine .of (.set x held) (update_self ..) rfl rfl ?_ lifts fails
    exact (update_self ..).trans (congrArg _ calls)
  · exact (h.keys other).frame (update_of_ne same _ _) rfl rfl (update_of_ne same _ _) rfl

theorem Inv.clear (h : Inv p clock t) (idle : t.idle k) :
    Inv p clock {t with kernel := update t.kernel k false, calls := update t.calls k (.clear :: t.calls k), due := update t.due k none} := by
  refine ⟨?_,?_,h.sweeps⟩
  · intro other
    by_cases same : other = k
    · subst same
      obtain ⟨calls,lifts,fails⟩ := Table.idle_iff.mp idle
      obtain ⟨_,tracks,_⟩ := h.idle idle
      refine .of (.clear fun e held => (tracks.leased e held).1) (update_self ..) rfl (update_self ..) ?_ lifts fails
      exact (update_self ..).trans (congrArg _ calls)
    · exact (h.keys other).frame (update_of_ne same _ _) rfl (update_of_ne same _ _) (update_of_ne same _ _) rfl
  · intro other d held
    by_cases same : other = k
    · subst same; cases (update_self ..).symm.trans held
    · exact h.turns other d ((update_of_ne same _ _).symm.trans held)

theorem Tracks.hold (h : Tracks p clock here lent owed) (x : X) :
    Tracks p clock true (some (p.kept lent (p.lease x clock))) (some (p.due owed (p.lease x clock) turn)) := by
  have fresh : p.Made clock (p.lease x clock) := p.made_lease
  have both : ∀ e, p.kept lent (p.lease x clock) = e →
      p.Made clock e ∧ (p.ends e = (p.due owed (p.lease x clock) turn).ends ∨
        lapsed (p.ends e) clock ∧ lapsed (p.due owed (p.lease x clock) turn).ends clock) := by
    rintro _ rfl
    cases lent with
    | none =>
      refine ⟨fresh,?_⟩
      cases owed with
      | none => exact .inl rfl
      | some d =>
        have past : lapsed d.ends clock := by
          rcases h.kept d rfl with past | ⟨_,_,held,_⟩
          · exact past
          · cases held
        cases runs : lapsed (p.ends (p.lease x clock)) clock with
        | true => exact .inr ⟨runs,latest_lapsed.mpr ⟨past,runs⟩⟩
        | false => exact .inl (latest_running past runs).symm
    | some cur =>
      obtain ⟨made,d,rfl,same⟩ := h.leased cur rfl
      refine ⟨p.made_keep made fresh,?_⟩
      have ends : p.ends (p.kept (some cur) (p.lease x clock)) = latest (p.ends cur) (p.ends (p.lease x clock)) := p.keep_ends made
      rcases same with same | ⟨past,gone⟩
      · exact .inl (by rw [ends,same]; rfl)
      · cases runs : lapsed (p.ends (p.lease x clock)) clock with
        | true => exact .inr ⟨ends ▸ latest_lapsed.mpr ⟨past,runs⟩,latest_lapsed.mpr ⟨gone,runs⟩⟩
        | false => exact .inl (by rw [ends,latest_running past runs]; exact (latest_running gone runs).symm)
  obtain ⟨made,same⟩ := both _ rfl
  refine ⟨?_,?_⟩
  · rintro _ ⟨⟩; exact ⟨made,_,rfl,same⟩
  rintro _ ⟨⟩
  rcases same with equal | ⟨_,past⟩
  · exact .inr ⟨rfl,_,rfl,equal⟩
  · exact .inl past

section
variable (p : Policy X E) (leases : Leases K E)

theorem Policy.hold_same (k : K) (e : E) :
    ((p.hold leases k e).get k).map Lease.value = some (p.kept ((leases.get k).map Lease.value) e) := by
  unfold Policy.hold
  rw [get_put_same (⟨k,_⟩ : Lease K E)]
  rfl

theorem Policy.hold_other (e : E) (apart : other ≠ k) :
    (p.hold leases k e).get other = leases.get other := get_put_other leases ⟨k,_⟩ apart

end

theorem Inv.hold (h : Inv p clock t) (waits : (t.calls k)[i]? = some (.set x)) : Inv p clock (p.held clock t k i x) := by
  obtain ⟨alone,kernel,tracks,lifts,fails⟩ := (h.keys k).set_parts waits
  refine ⟨?_,?_,fun w held => ⟨(h.sweeps w held).1,(h.sweeps w held).2.trans (Nat.le_succ _)⟩⟩
  · intro other
    by_cases same : other = k
    · subst same
      refine .of (.idle (isSome_some ..).symm (tracks.hold x) ?_) kernel (p.hold_same ..) (update_self ..) ((update_self ..).trans alone) lifts fails
      rintro w held _ _ ⟨⟩ early
      have before := (h.sweeps w held).2
      have late : t.turn+1 ≤ w.since := early
      omega
    · exact (h.keys other).frame rfl (p.hold_other _ _ same) (update_of_ne same _ _) (update_of_ne same _ _) rfl
  · intro other d held
    by_cases same : other = k
    · subst same
      cases (update_self ..).symm.trans held
      exact le_rfl
    · exact (h.turns other d ((update_of_ne same _ _).symm.trans held)).trans (Nat.le_succ _)

theorem Inv.drop (h : Inv p clock t) (waits : (t.calls k)[i]? = some .clear) :
    Inv p clock {t with leases := t.leases.remove k, calls := update t.calls k ((t.calls k).eraseIdx i)} := by
  obtain ⟨alone,kernel,due,lifts,fails⟩ := (h.keys k).clear_parts waits
  refine ⟨?_,h.turns,h.sweeps⟩
  intro other
  by_cases same : other = k
  · subst same
    have nothing : Tracks p clock false none none := ⟨nofun,nofun⟩
    refine .of (.idle (isSome_none ..).symm nothing nofun) kernel ?_ due ((update_self ..).trans alone) lifts fails
    exact congrArg (map Lease.value) get_remove_same
  · exact (h.keys other).frame rfl (get_remove_other same) rfl (update_of_ne same _ _) rfl

theorem value_filter (leases : Leases K E) (k : K) (keep : E → Bool) :
    ((leases.filter fun l => keep l.value).get k).map Lease.value = ((leases.get k).map Lease.value).filter keep := by
  rw [get_filter,Option.filter_map]
  rfl

theorem Inv.take (h : Inv p clock t) (done : t.sweep.all Sweep.done)
    (careful : ∀ l ∈ t.leases.rows, p.expired clock l → t.calls l.key = []) : Inv p clock (p.taken clock t) := by
  refine ⟨?_,h.turns,?_⟩
  · intro k
    have rest : lifting t.sweep k = none ∧ failing t.sweep k = none := by
      cases sweep : t.sweep with
      | none => exact ⟨rfl,rfl⟩
      | some w =>
        have spent : w.todo.rows = [] ∧ w.failed = none := by simpa [sweep,Sweep.done] using done
        simp [lifting,failing,Store.get,spent]
    have before := h.keys k
    unfold Table.At at before
    rw [rest.1,rest.2] at before
    refine .of (before.take ?_ rfl) rfl ?_ rfl rfl ?_ rfl
    · intro e held past
      obtain ⟨l,found,rfl⟩ := map_eq_some_iff.mp held
      obtain ⟨mem,rfl⟩ := get_eq_some.mp found
      exact careful l mem past
    · exact value_filter t.leases k fun e => !lapsed (p.ends e) clock
    · exact value_filter t.leases k fun e => lapsed (p.ends e) clock
  · rintro _ ⟨⟩; exact ⟨le_rfl,le_rfl⟩

theorem Table.At.pass {w next : Sweep K E} (h : t.At p clock k)
    (sweep : t.sweep = some w) (now : w.now = next.now) (since : w.since = next.since) (clean : next.clean → w.clean)
    (kernel : heres k = t.kernel k) (lease : lents.get k = t.leases.get k) (todo : next.todo.get k = w.todo.get k)
    (failed : failing (some next) k = failing (some w) k) :
    ({t with kernel := heres, leases := lents, sweep := some next} : Table K X E).At p clock k := by
  refine .of (h.resweep ?_) kernel (congrArg _ lease) rfl rfl ?_ ?_
  · rintro _ ⟨⟩; exact ⟨w,sweep,now,since,clean⟩
  · rw [sweep]; exact congrArg _ todo
  · rw [sweep]; exact failed

theorem Inv.lifting (h : Inv p clock t) (sweep : t.sweep = some w) (taken : w.todo.get k = some l) :
    Holds p clock t.sweep (t.kernel k) ((t.leases.get k).map Lease.value) (t.due k) (t.calls k) (some l.value) (failing t.sweep k) := by
  have before := h.keys k
  unfold Table.At at before
  have lifts : Ebpf.lifting t.sweep k = some l.value := by
    rw [sweep]
    exact congrArg (map Lease.value) taken
  rwa [lifts] at before

theorem lifting_removed (w : Sweep K E) (clean : Bool) (failed : Option (Lease K E)) (k : K) :
    lifting (some {w with clean := clean, todo := w.todo.remove k, failed := failed}) k = none :=
  congrArg (map Lease.value) get_remove_same

theorem Inv.lift (h : Inv p clock t) (sweep : t.sweep = some w) (taken : w.todo.get k = some l) :
    Inv p clock {t with kernel := update t.kernel k false, sweep := some {w with todo := w.todo.remove k}} := by
  obtain ⟨_,lent,work,fails,past,_⟩ := (h.lifting sweep taken).lift_parts
  refine ⟨?_,h.turns,?_⟩
  · intro other
    by_cases same : other = k
    · subst same
      have nothing : Tracks p clock false none (t.due other) := ⟨nofun,fun d held => .inl (past d held)⟩
      refine .of (.idle (isSome_none ..).symm nothing fun _ _ _ _ _ _ _ => rfl) (update_self ..) lent rfl work
        (lifting_removed ..) ?_
      rwa [sweep] at fails
    · exact (h.keys other).pass sweep rfl rfl id (update_of_ne same _ _) rfl (get_remove_other same) rfl
  · rintro _ ⟨⟩; exact h.sweeps w sweep

theorem Inv.fail (h : Inv p clock t) (sweep : t.sweep = some w) (none_ : w.failed = none) (taken : w.todo.get k = some l) :
    Inv p clock {t with sweep := some {w with clean := false, todo := w.todo.remove k, failed := some l}} := by
  obtain ⟨kernel,lent,work,_,past,set,made,ends⟩ := (h.lifting sweep taken).lift_parts
  have key : l.key = k := (get_eq_some.mp taken).2
  refine ⟨?_,h.turns,?_⟩
  · intro other
    by_cases same : other = k
    · subst same
      refine .of (.back past set made ends ?_) kernel lent rfl work (lifting_removed ..) ?_
      · rintro _ ⟨⟩; rfl
      · simp [failing,key]
    · refine (h.keys other).pass sweep rfl rfl nofun rfl rfl (get_remove_other same) ?_
      simp [failing,none_,key,Ne.symm same]
  · rintro _ ⟨⟩; exact h.sweeps w sweep

theorem Inv.back (h : Inv p clock t) (sweep : t.sweep = some w) (failed : w.failed = some l) :
    Inv p clock {t with leases := p.hold t.leases l.key (p.again l.value w.now), sweep := some {w with failed := none}} := by
  have before := h.keys l.key
  unfold Table.At at before
  have fails : failing t.sweep l.key = some l.value := by simp [failing,sweep,failed]
  rw [fails] at before
  obtain ⟨kernel,lent,work,lifts,past,set,made,ends,unclean⟩ := before.back_parts
  refine ⟨?_,h.turns,?_⟩
  · intro other
    by_cases same : other = l.key
    · subst same
      obtain ⟨d,due⟩ := Option.isSome_iff_exists.mp set
      have held : Tracks p clock true (some (p.again l.value w.now)) (t.due l.key) := by
        refine ⟨?_,fun d held => .inl (past d held)⟩
        rintro _ ⟨⟩
        exact ⟨p.made_again made,d,due,.inr ⟨p.again_ends (h.sweeps w sweep).1 ends,past d due⟩⟩
      refine .of (.idle (isSome_some ..).symm held ?_) kernel ?_ rfl work ?_ rfl
      · rintro _ ⟨⟩ clean
        rw [show w.clean = false from unclean w sweep] at clean
        cases clean
      · exact (p.hold_same ..).trans (by rw [lent]; rfl)
      · rw [sweep] at lifts; exact lifts
    · refine (h.keys other).pass sweep rfl rfl id rfl (p.hold_other _ _ same) rfl ?_
      simp [failing,failed,Ne.symm same]
  · rintro _ ⟨⟩; exact h.sweeps w sweep

theorem Policy.step_inv (h : Inv p clock t) (careful : p.Careful clock t op) (stepped : p.step clock t op = some u) :
    Inv p clock u := by
  cases op with
  | set k x ok =>
    cases ok <;> cases stepped
    · exact h
    · exact h.set careful x
  | hold k i =>
    dsimp only [Policy.step] at stepped
    split at stepped <;> cases stepped
    exact h.hold ‹_›
  | clear k ok =>
    dsimp only [Policy.step] at stepped
    split at stepped <;> cases stepped
    · exact h.clear careful
    · exact h
  | drop k i =>
    dsimp only [Policy.step] at stepped
    split at stepped <;> cases stepped
    exact h.drop ‹_›
  | sweep =>
    dsimp only [Policy.step] at stepped
    split at stepped <;> cases stepped
    exact h.take ‹_› careful
  | lift k ok =>
    dsimp only [Policy.step] at stepped
    split at stepped
    · rename_i w sweep
      split at stepped
      · rename_i l failed taken
        cases ok <;> cases stepped
        · exact h.fail sweep failed taken
        · exact h.lift sweep taken
      · cases stepped
    · cases stepped
  | back =>
    dsimp only [Policy.step] at stepped
    split at stepped
    · rename_i w sweep
      split at stepped <;> cases stepped
      exact h.back sweep ‹_›
    · cases stepped

theorem Inv.empty : Inv p clock (Table.empty : Table K X E) := by
  refine ⟨?_,nofun,nofun⟩
  intro k
  have nothing : Tracks p clock false none none := ⟨nofun,nofun⟩
  exact .idle rfl nothing nofun

def Node.start (clock : Int) : Node K := ⟨clock,.empty,.empty⟩

theorem step_inv {s t : Node K} (h : Inv shuns s.clock s.shuns ∧ Inv limits s.clock s.limits) (meets : Careful s e)
    (ran : step s e = some t) : Inv shuns t.clock t.shuns ∧ Inv limits t.clock t.limits := by
  cases e with
  | tick d =>
    cases ran
    have later : s.clock ≤ s.clock + d := Int.le_add_of_nonneg_right (Int.natCast_nonneg d)
    exact ⟨h.1.later later,h.2.later later⟩
  | shun op =>
    obtain ⟨u,stepped,rfl⟩ := map_eq_some_iff.mp ran
    exact ⟨Policy.step_inv h.1 meets stepped,h.2⟩
  | limit op =>
    obtain ⟨u,stepped,rfl⟩ := map_eq_some_iff.mp ran
    exact ⟨h.1,Policy.step_inv h.2 meets stepped⟩

theorem leases_sound (clock : Int) (s : Node K) (path : Reached step Careful (Node.start clock) s) :
    Sound s.clock s.shuns ∧ Sound s.clock s.limits := by
  have inv : Inv shuns s.clock s.shuns ∧ Inv limits s.clock s.limits := by
    refine reached_invariant (fun s => Inv shuns s.clock s.shuns ∧ Inv limits s.clock s.limits) ?_ ?_ path
    · exact ⟨.empty,.empty⟩
    · exact step_inv
  exact ⟨inv.1.sound,inv.2.sound⟩

instance Policy.decidableCareful (p : Policy X E) (clock : Int) : ∀ (t : Table K X E) op, Decidable (p.Careful clock t op) := by
  intros
  unfold Policy.Careful
  split <;> infer_instance

instance decidableCareful : ∀ (s : Node K) e, Decidable (Careful s e) := by
  intros
  unfold Careful
  split <;> infer_instance

def sampleRetry : List (Event Nat) :=
  [.shun (.set 1 (some 10) true),.shun (.hold 1 0),.shun (.set 2 none true),.limit (.set 1 ⟨5,[]⟩ true),.limit (.hold 1 0),.tick 10,
    .shun .sweep,.shun (.lift 1 false),.shun (.hold 2 0),.shun .back,.tick 1,.shun .sweep,.shun (.lift 1 true)]

def Node.keys (s : Node Nat) : List Bool × List Bool := ([1,2].map s.shuns.kernel,[1,2].map s.limits.kernel)

theorem leases_sound_retry : ∃ s, runAllowed step Careful (Node.start 0) sampleRetry = some s ∧
    s.keys = ([false,true],[true,false]) ∧ Sound s.clock s.shuns ∧ Sound s.clock s.limits := shown_run (by decide) (leases_sound 0)

def sampleLost : List (Event Nat) :=
  [.shun (.set 1 (some 10) true),.shun (.hold 1 0),.tick 10,.shun .sweep,.shun (.set 1 none true),.shun (.hold 1 0),.shun (.lift 1 true)]

theorem shun_lost : ∃ s, run step (Node.start 0) sampleLost = some s ∧ (∀ k, s.shuns.idle k = true) ∧
    s.shuns.kernel 1 = false ∧ (s.shuns.leases.get 1).map Lease.value = some none ∧
    ¬ (Sound s.clock s.shuns ∧ Sound s.clock s.limits) := by
  refine ⟨_,rfl,?_,rfl,rfl,fun sound => ?_⟩
  · intro k
    apply Table.idle_iff.mpr
    refine ⟨?_,rfl,rfl⟩
    by_cases same : k = 1
    · subst same; rfl
    · simp only [Policy.held,Policy.taken,update_of_ne same]; rfl
  · exact absurd (sound.1.stays 1 ⟨none,2⟩ rfl rfl) Bool.false_ne_true

end

variable {K : Type} [DecidableEq K]

structure Holder (K : Type) where
  kernel : K → Bool
  shuns : Leases K End

def Holder.empty : Holder K := ⟨fun _ => false,Store.empty⟩
def Holder.lease (h : Holder K) (k : K) : Option End := (h.shuns.get k).map Lease.value
def Holder.shun (h : Holder K) (k : K) (ends : End) : Holder K := ⟨update h.kernel k true,Ebpf.shuns.hold h.shuns k ends⟩

-- The kernel refuses to remove an entry it does not hold, and the lease is then left alone.
def Holder.unshunIP (h : Holder K) (k : K) : Holder K :=
  if h.kernel k then ⟨update h.kernel k false,h.shuns.remove k⟩ else h

def removed (kernel : K → Bool) (taken : List (Lease K End)) : K → Bool := taken.foldl (fun kernel l => update kernel l.key false) kernel
def Holder.expireShuns (h : Holder K) (now : Int) : Holder K :=
  ⟨removed h.kernel (h.shuns.filter (Ebpf.shuns.expired now)).rows,h.shuns.filter fun l => !Ebpf.shuns.expired now l⟩
def Table.holder (t : Table K End End) : Holder K := ⟨t.kernel,t.leases⟩

variable (t : Table K End End)

theorem shun_run (k : K) (ends : End) :
    ∃ u, run (shuns.step clock) t [.set k ends true,.hold k 0] = some u ∧ u.holder = t.holder.shun k ends := by
  simp only [run,Policy.step,if_true,Option.bind_some,update_self]
  exact ⟨_,rfl,rfl⟩

theorem unshunIP_run (held : t.kernel k) :
    ∃ u, run (shuns.step clock) t [.clear k true,.drop k 0] = some u ∧ u.holder = t.holder.unshunIP k := by
  simp only [run,Policy.step,held,Bool.true_or,Bool.and_self,if_true,Option.bind_some,update_self]
  exact ⟨_,rfl,(if_pos held).symm⟩

theorem lifts_run {w : Sweep K End} (sweep : t.sweep = some w) (failed : w.failed = none) (todo : w.todo.rows = taken) :
    ∃ u, run (shuns.step clock) t (taken.map fun l => .lift l.key true) = some u ∧ u.holder = ⟨removed t.kernel taken,t.leases⟩ := by
  induction taken generalizing t w with
  | nil => exact ⟨t,rfl,rfl⟩
  | cons l rest ih =>
    have found : w.todo.get l.key = some l := get_eq_some.mpr ⟨todo ▸ List.mem_cons_self,rfl⟩
    have others : ∀ m ∈ rest, m.key ≠ l.key := by
      have distinct := w.todo.distinct
      rw [todo] at distinct
      intro m mem same
      exact (List.nodup_cons.mp distinct).1 (same ▸ List.mem_map_of_mem mem)
    have left : (w.todo.remove l.key).rows = rest := by
      show without w.todo.rows Lease.key l.key = rest
      rw [todo]
      simpa [without] using others
    simp only [List.map_cons,run,Policy.step,sweep,failed,found,if_true,Option.bind_some]
    exact ih _ rfl rfl left

theorem expireShuns_run (done : t.sweep.all Sweep.done) :
    ∃ u, run (shuns.step clock) t (.sweep :: (t.leases.filter (shuns.expired clock)).rows.map fun l => .lift l.key true) = some u ∧
      u.holder = t.holder.expireShuns clock := by
  simp only [run,Policy.step,done,if_true,Option.bind_some]
  exact lifts_run _ rfl rfl rfl

theorem removed_apply (kernel : K → Bool) (taken : List (Lease K End)) (k : K) :
    removed kernel taken k = (kernel k && taken.all fun l => decide (l.key ≠ k)) := by
  induction taken generalizing kernel with
  | nil => simp [removed]
  | cons l rest ih =>
    have later : removed kernel (l :: rest) = removed (update kernel l.key false) rest := rfl
    rw [later,ih]
    by_cases same : k = l.key
    · simp [same,update_self]
    · simp [update_of_ne same,Ne.symm same]

variable (h : Holder K)

theorem lease_shun (k : K) (ends : End) : (h.shun k ends).lease k = some (Ebpf.shuns.kept (h.lease k) ends) :=
  Ebpf.shuns.hold_same ..
theorem lease_shun_other (ends : End) (apart : other ≠ k) : (h.shun k ends).lease other = h.lease other :=
  congrArg _ (Ebpf.shuns.hold_other _ _ apart)

theorem unshunIP_same {h : Holder K} (held : h.kernel k = (h.lease k).isSome) :
    (h.unshunIP k).kernel k = false ∧ (h.unshunIP k).lease k = none := by
  unfold Holder.unshunIP
  split
  · exact ⟨update_self ..,congrArg _ get_remove_same⟩
  · rename_i missing
    have no : h.kernel k = false := Bool.eq_false_of_not_eq_true missing
    exact ⟨no,Option.isNone_iff_eq_none.mp (by simpa [no] using held)⟩

theorem unshunIP_other (apart : other ≠ k) :
    (h.unshunIP k).kernel other = h.kernel other ∧ (h.unshunIP k).lease other = h.lease other := by
  unfold Holder.unshunIP
  split
  · exact ⟨update_of_ne apart _ _,congrArg _ (get_remove_other apart)⟩
  · exact ⟨rfl,rfl⟩

theorem lease_expired (now : Int) (k : K) : (h.expireShuns now).lease k = (h.lease k).filter fun e => !lapsed e now :=
  value_filter h.shuns k fun e => !lapsed e now

theorem kernel_expired (now : Int) (k : K) :
    (h.expireShuns now).kernel k = (h.kernel k && !(h.lease k).any fun e => lapsed e now) := by
  have taken : ((h.shuns.filter (shuns.expired now)).rows.all fun l => decide (l.key ≠ k)) = !(h.lease k).any fun e => lapsed e now := by
    apply Bool.eq_iff_iff.mpr
    rw [List.all_eq_true,Bool.not_eq_true']
    have missing := get_eq_none (s := h.shuns.filter (shuns.expired now)) (k := k)
    simp only [decide_eq_true_eq,← missing,get_filter]
    unfold Holder.lease
    cases h.shuns.get k <;> simp [Policy.expired,shuns]
  exact (removed_apply ..).trans (congrArg _ taken)

end Gateon.Ebpf
