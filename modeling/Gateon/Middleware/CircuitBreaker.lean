import Mathlib.Algebra.Group.Nat.Defs
import Mathlib.Data.List.Basic
import Gateon.Lib.Transition

namespace Gateon.CircuitBreaker

inductive Kind where
  | closed
  | opened
  | halfOpen
  deriving DecidableEq

structure Phase where
  generation : Nat
  kind : Kind
  deriving DecidableEq

def generations : Nat := 2^62
def Phase.next (p : Phase) (k : Kind) : Phase := ⟨(p.generation + 1) % generations,k⟩

def Kind.bits : Kind → Nat
  | .closed => 0
  | .opened => 1
  | .halfOpen => 2

def Phase.word (p : Phase) : Nat := 4 * p.generation + p.kind.bits

theorem Kind.bits_lt (k : Kind) : k.bits < 4 := by
  cases k <;> decide

theorem Phase.word_next (p : Phase) (k : Kind) : (p.next k).word = (p.word - p.word % 4 + 4) % 2^64 + k.bits := by
  have low := p.kind.bits_lt
  simp only [Phase.word,Phase.next,generations]
  omega

theorem Phase.word_injective {p q : Phase} (same : p.word = q.word) : p = q := by
  obtain ⟨g,k⟩ := p
  obtain ⟨g',k'⟩ := q
  have low := k.bits_lt
  have low' := k'.bits_lt
  simp only [Phase.word] at same
  have generation : g = g' := by omega
  have bits : k.bits = k'.bits := by omega
  rw [generation]
  cases k <;> cases k' <;> first | rfl | cases bits

-- CircuitBreakerConfig; `rate` is what the two counts are compared with the threshold for.
structure Config where
  minRequests : Nat
  windowSize : Int
  sleepWindow : Int
  rate : Nat → Nat → Bool

-- `counted` is not in the code: outcomes added with a ticket of this generation.
structure Breaker where
  phase : Phase
  changed : Int
  window : Int
  requests : Nat
  errors : Nat
  probing : Bool
  counted : Nat

def Breaker.new (now : Int) : Breaker := ⟨⟨0,.closed⟩,now,now,0,0,false,0⟩

structure Ticket where
  phase : Phase
  probe : Bool
  deriving DecidableEq

def Breaker.transition (b : Breaker) (src : Phase) (dst : Kind) (now : Int) : Breaker :=
  if b.phase ≠ src then b else ⟨src.next dst,now,now,0,0,false,0⟩
def Breaker.abandon (b : Breaker) (t : Ticket) : Breaker :=
  if t.probe ∧ b.phase = t.phase then {b with probing := false} else b

inductive Stage where
  | arrived
  | asleep (p : Phase)
  | waking (p : Phase) (now : Int)
  | woken
  | claiming (p : Phase)
  | refused
  | serving (t : Ticket)
  | checked (t : Ticket) (failed : Bool)
  | rolling (t : Ticket) (failed : Bool) (start now : Int)
  | clearing (t : Ticket) (failed : Bool) (now : Int)
  | cleared (t : Ticket) (failed : Bool) (now : Int)
  | counting (t : Ticket) (failed : Bool) (now : Int)
  | failing (t : Ticket) (now : Int) (requests : Nat)
  | tripping (t : Ticket) (now : Int) (requests : Nat)
  | settled (t : Ticket)
  | done
  deriving DecidableEq

inductive Action where
  | next (now : Int)
  | answer (failed : Bool) (now : Int)
  | panics

section
variable (cfg : Config)

def Breaker.load (b : Breaker) : Stage :=
  match b.phase.kind with
  | .closed => .serving ⟨b.phase,false⟩
  | .opened => .asleep b.phase
  | .halfOpen => .claiming b.phase

def advance (b : Breaker) : Stage → Action → Option (Breaker × Stage)
  | .arrived,.next _ => some (b,b.load)
  | .asleep p,.next now => some (b,if now - b.changed < cfg.sleepWindow then .refused else .waking p now)
  | .waking p now,.next _ => some (b.transition p .halfOpen now,.woken)
  | .woken,.next _ => some (b,if b.phase.kind = .halfOpen then .claiming b.phase else .arrived)
  | .claiming p,.next _ => some (if b.probing then (b,.refused) else ({b with probing := true},.serving ⟨p,true⟩))
  | .serving t,.answer failed now =>
    some (if t.probe then (b.transition t.phase (if failed then .opened else .closed) now,.settled t)
      else (b,if b.phase ≠ t.phase then .done else .checked t failed))
  | .serving t,.panics => some (b.abandon t,.done)
  | .settled t,.panics => some (b.abandon t,.done)
  | .checked t failed,.next now =>
    some (b,if cfg.windowSize ≤ now - b.window then .rolling t failed b.window now else .counting t failed now)
  | .rolling t failed start now,.next _ =>
    some (if b.window = start then ({b with window := now},.clearing t failed now) else (b,.counting t failed now))
  | .clearing t failed now,.next _ => some ({b with requests := 0},.cleared t failed now)
  | .cleared t failed now,.next _ => some ({b with errors := 0},.counting t failed now)
  | .counting t failed now,.next _ =>
    some ({b with requests := b.requests + 1,counted := if t.phase = b.phase then b.counted + 1 else b.counted},
      if failed then .failing t now (b.requests + 1) else .done)
  | .failing t now requests,.next _ =>
    some ({b with errors := b.errors + 1},
      if cfg.minRequests ≤ requests ∧ cfg.rate (b.errors + 1) requests then .tripping t now requests else .done)
  | .tripping t now _,.next _ => some (b.transition t.phase .opened now,.done)
  | _,_ => none

end

structure Flight where
  cfg : Config
  stage : Stage

structure Process where
  breaker : Breaker
  flights : List Flight

inductive Event where
  | arrive (cfg : Config)
  | act (i : Nat) (a : Action)

def Process.start (now : Int) : Process := ⟨Breaker.new now,[]⟩

def step (s : Process) : Event → Option Process
  | .arrive cfg => some {s with flights := s.flights ++ [⟨cfg,.arrived⟩]}
  | .act i a => (s.flights[i]?).bind fun f =>
      (advance f.cfg s.breaker f.stage a).map fun next => ⟨next.1,s.flights.set i ⟨f.cfg,next.2⟩⟩

def Process.stage (s : Process) (i : Nat) : Option Stage := (s.flights[i]?).map Flight.stage

def Stage.outcome : Stage → Option Ticket
  | .serving t | .checked t _ | .rolling t _ _ _ | .clearing t _ _ | .cleared t _ _ | .counting t _ _ | .failing t _ _ | .tripping t _ _
  | .settled t => some t
  | _ => none

def Stage.admitted : Stage → Bool
  | .serving _ => true
  | _ => false

def Process.Probes (s : Process) (i : Nat) (p : Phase) : Prop := s.stage i = some (.serving ⟨p,true⟩)

def Process.ProbesNext (s : Process) : Prop := ∀ cfg now now', ∃ t,
  Transition.run step s [.arrive cfg,.act s.flights.length (.next now),.act s.flights.length (.next now')] = some t ∧
    t.Probes s.flights.length s.breaker.phase

structure Sound (s : Process) : Prop where
  admits : ∀ i f now t, s.flights[i]? = some f → step s (.act i (.next now)) = some t → (t.stage i).any Stage.admitted →
    s.breaker.phase.kind = .opened → f.cfg.sleepWindow ≤ now - s.breaker.changed
  sleeps : ∀ i cfg p now a t, s.flights[i]? = some ⟨cfg,.waking p now⟩ → step s (.act i a) = some t → t.breaker.phase ≠ s.breaker.phase →
    s.breaker.phase.kind = .opened ∧ cfg.sleepWindow ≤ now - s.breaker.changed
  probe : ∀ i j p, s.Probes i p → s.Probes j p → i = j
  stale : ∀ i a t stage ticket, s.stage i = some stage → stage.outcome = some ticket → ticket.phase ≠ s.breaker.phase →
    step s (.act i a) = some t → t.breaker = s.breaker
  trips : ∀ i f a t, s.flights[i]? = some f → step s (.act i a) = some t → s.breaker.phase.kind = .closed →
    t.breaker.phase.kind = .opened → f.cfg.minRequests ≤ s.breaker.counted
  lives : s.breaker.phase.kind = .halfOpen → (∀ i, ¬ s.Probes i s.breaker.phase) → s.ProbesNext

def Stage.midway : Stage → Bool
  | .claiming _ | .checked .. | .rolling .. | .clearing .. | .cleared .. | .counting .. | .failing .. => true
  | _ => false

def Stage.moves : Stage → Action → Option Phase
  | .waking p _,.next _ => some p
  | .serving t,.answer _ _ => if t.probe then some t.phase else none
  | .tripping t _ _,.next _ => some t.phase
  | _,_ => none

-- A transition meets no request midway, and the generations have not run out.
def Careful (s : Process) : Event → Prop
  | .arrive _ => True
  | .act i a => (s.stage i).bind (·.moves a) = some s.breaker.phase →
      (∀ f ∈ s.flights, f.stage.midway = false) ∧ s.breaker.phase.generation + 1 < generations

open Transition List Option Nat

def Earlier (p q : Phase) : Prop := p = q ∨ p.generation < q.generation

theorem Earlier.before (earlier : Earlier p q) (other : q ≠ p) : p.generation < q.generation :=
  earlier.resolve_left fun same => other same.symm

def Fits (cfg : Config) (b : Breaker) : Stage → Prop
  | .arrived | .woken | .refused | .done => True
  | .asleep p => p.kind = .opened ∧ Earlier p b.phase
  | .waking p now => p.kind = .opened ∧ Earlier p b.phase ∧ (p = b.phase → cfg.sleepWindow ≤ now - b.changed)
  | .claiming p => p = b.phase ∧ p.kind = .halfOpen
  | .serving t => Earlier t.phase b.phase ∧ t.phase.kind = (if t.probe then .halfOpen else .closed) ∧
      (t = ⟨b.phase,true⟩ → b.probing)
  | .checked t _ | .rolling t _ _ _ | .clearing t _ _ | .cleared t _ _ | .counting t _ _ => t.phase = b.phase ∧ t.phase.kind = .closed
  | .failing t _ requests => t.phase = b.phase ∧ t.phase.kind = .closed ∧ requests ≤ b.counted
  | .tripping t _ requests => Earlier t.phase b.phase ∧ t.phase.kind = .closed ∧ cfg.minRequests ≤ requests ∧
      (t.phase = b.phase → requests ≤ b.counted)
  | .settled t => t.phase.generation < b.phase.generation

structure Calm (b b' : Breaker) : Prop where
  phase : b'.phase = b.phase
  changed : b'.changed = b.changed
  probing : b'.probing = b.probing
  counted : b.counted ≤ b'.counted
  requests : b.requests ≤ b.counted → b'.requests ≤ b'.counted

theorem Calm.refl (b : Breaker) : Calm b b := ⟨rfl,rfl,rfl,Nat.le_refl _,id⟩

def Breaker.moved (b : Breaker) (k : Kind) (now : Int) : Breaker := ⟨b.phase.next k,now,now,0,0,false,0⟩
def Stage.probing (stage : Stage) (p : Phase) : Prop := stage = .serving ⟨p,true⟩

inductive Effect (cfg : Config) (b : Breaker) (stage : Stage) (a : Action) : Breaker → Stage → Prop where
  | calm (still : Calm b b') (fits : Fits cfg b' stage') (other : ¬ stage.probing b.phase) (none' : ∀ p, ¬ stage'.probing p) :
      Effect cfg b stage a b' stage'
  | claim (waits : stage = .claiming b.phase) (free : b.probing = false) (half : b.phase.kind = .halfOpen) :
      Effect cfg b stage a {b with probing := true} (.serving ⟨b.phase,true⟩)
  | free (probes : stage.probing b.phase) : Effect cfg b stage a {b with probing := false} .done
  | move (k : Kind) (now : Int) (tries : stage.moves a = some b.phase) (left : stage' = .woken ∨ stage' = .done ∨ stage' = .settled ⟨b.phase,true⟩) :
      Effect cfg b stage a (b.moved k now) stage'

theorem transition_late {b : Breaker} (other : b.phase ≠ src) : b.transition src k now = b := if_pos other

theorem transition_now {b : Breaker} (same : b.phase = src) : b.transition src k now = b.moved k now := by
  rw [Breaker.transition,if_neg (not_not.mpr same),← same]
  rfl

section
variable (cfg : Config) (b : Breaker)

theorem load_effect (a : Action) : Effect cfg b .arrived a b b.load := by
  refine .calm (.refl _) ?_ nofun ?_
  · unfold Breaker.load
    split
    · rename_i kind; exact ⟨.inl rfl,kind,nofun⟩
    · rename_i kind; exact ⟨kind,.inl rfl⟩
    · rename_i kind; exact ⟨rfl,kind⟩
  · intro p
    unfold Breaker.load
    split <;> nofun

theorem serving_effect (t : Ticket) (fits : Fits cfg b (.serving t)) (a : Action)
    (ran : advance cfg b (.serving t) a = some (b',stage')) : Effect cfg b (.serving t) a b' stage' := by
  obtain ⟨earlier,kind,_⟩ := fits
  obtain ⟨p,probe⟩ := t
  cases a with
  | next now => cases ran
  | answer failed now =>
    cases probe with
    | true =>
      cases ran
      by_cases same : b.phase = p
      · subst same
        rw [transition_now rfl]
        exact .move _ _ rfl (.inr (.inr rfl))
      · rw [transition_late same]
        exact .calm (.refl _) (earlier.before same) (fun probes => same (by cases probes; rfl)) nofun
    | false =>
      cases ran
      refine .calm (.refl _) ?_ nofun ?_
      · split
        · trivial
        · rename_i same; exact ⟨(not_not.mp same).symm,kind⟩
      · intro q; split <;> nofun
  | panics =>
    cases ran
    by_cases probes : probe ∧ b.phase = p
    · obtain ⟨rfl,rfl⟩ := probes
      rw [Breaker.abandon,if_pos ⟨rfl,rfl⟩]
      exact .free rfl
    · rw [Breaker.abandon,if_neg probes]
      exact .calm (.refl _) trivial (fun probing => probes (by cases probing; exact ⟨rfl,rfl⟩)) nofun

theorem settled_effect (fits : Fits cfg b (.settled t)) (ran : advance cfg b (.settled t) a = some (b',stage')) :
    Effect cfg b (.settled t) a b' stage' := by
  cases a with
  | panics =>
    cases ran
    have moved : ¬ (t.probe ∧ b.phase = t.phase) := by
      rintro ⟨_,same⟩
      have older : t.phase.generation < b.phase.generation := fits
      rw [same] at older
      exact Nat.lt_irrefl _ older
    rw [Breaker.abandon,if_neg moved]
    exact .calm (.refl _) trivial nofun nofun
  | _ => cases ran

end

theorem advance_acts {next} (ran : advance cfg b stage a = some next) :
    (∃ now, a = .next now) ∨ (∃ t, stage = .serving t) ∨ ∃ t, stage = .settled t := by
  cases a with
  | next now => exact .inl ⟨now,rfl⟩
  | _ =>
    cases stage with
    | serving t => exact .inr (.inl ⟨t,rfl⟩)
    | settled t => exact .inr (.inr ⟨t,rfl⟩)
    | _ => cases ran

theorem advance_effect (cfg : Config) (b : Breaker) (fits : Fits cfg b stage) (few : b.requests ≤ b.counted)
    (ran : advance cfg b stage a = some (b',stage')) : Effect cfg b stage a b' stage' := by
  obtain ⟨now,rfl⟩ | ⟨t,rfl⟩ | ⟨t,rfl⟩ := advance_acts ran
  rotate_left
  · exact serving_effect cfg b t fits a ran
  · exact settled_effect cfg b fits ran
  cases stage with
  | arrived => cases ran; exact load_effect ..
  | asleep p =>
    cases ran
    obtain ⟨kind,earlier⟩ := fits
    refine .calm (.refl _) ?_ nofun ?_
    · split
      · trivial
      · rename_i passed; exact ⟨kind,earlier,fun _ => Int.not_lt.mp passed⟩
    · intro q; split <;> nofun
  | waking p read =>
    cases ran
    by_cases same : b.phase = p
    · rw [transition_now same]; exact .move _ _ (congrArg some same.symm) (.inl rfl)
    · rw [transition_late same]; exact .calm (.refl _) trivial nofun nofun
  | woken =>
    cases ran
    refine .calm (.refl _) ?_ nofun ?_
    · split
      · rename_i half; exact ⟨rfl,half⟩
      · trivial
    · intro q; split <;> nofun
  | claiming p =>
    obtain ⟨rfl,half⟩ := fits
    cases free : b.probing with
    | true =>
      simp only [advance,free,if_true] at ran
      cases ran
      exact .calm (.refl _) trivial nofun nofun
    | false =>
      simp only [advance,free] at ran
      cases ran
      exact .claim rfl free half
  | checked t failed =>
    cases ran
    refine .calm (.refl _) ?_ nofun ?_
    · split <;> exact fits
    · intro q; split <;> nofun
  | rolling t failed start read =>
    by_cases rolled : b.window = start
    · simp only [advance,rolled,if_true] at ran
      cases ran
      exact .calm ⟨rfl,rfl,rfl,Nat.le_refl _,id⟩ fits nofun nofun
    · simp only [advance,rolled,if_false] at ran
      cases ran
      exact .calm (.refl _) fits nofun nofun
  | clearing t failed read =>
    cases ran
    exact .calm ⟨rfl,rfl,rfl,Nat.le_refl _,fun _ => Nat.zero_le _⟩ fits nofun nofun
  | cleared t failed read =>
    cases ran
    exact .calm ⟨rfl,rfl,rfl,Nat.le_refl _,id⟩ fits nofun nofun
  | counting t failed read =>
    obtain ⟨same,kind⟩ := fits
    simp only [advance,same,if_true] at ran
    cases ran
    refine .calm ⟨rfl,rfl,rfl,le_succ _,succ_le_succ⟩ ?_ nofun ?_
    · split
      · exact ⟨same,kind,succ_le_succ few⟩
      · trivial
    · intro q; split <;> nofun
  | failing t read requests =>
    cases ran
    obtain ⟨same,kind,counted⟩ := fits
    refine .calm ⟨rfl,rfl,rfl,Nat.le_refl _,id⟩ ?_ nofun ?_
    · split
      · rename_i reached; exact ⟨.inl same,kind,reached.1,fun _ => counted⟩
      · trivial
    · intro q; split <;> nofun
  | tripping t read requests =>
    cases ran
    by_cases same : b.phase = t.phase
    · rw [transition_now same]; exact .move _ _ (congrArg some same.symm) (.inr (.inl rfl))
    · rw [transition_late same]; exact .calm (.refl _) trivial nofun nofun
  | _ => cases ran

theorem Fits.calm (fits : Fits cfg b stage) (still : Calm b b') : Fits cfg b' stage := by
  obtain ⟨phase,changed,probing,counted,_⟩ := still
  unfold Fits at fits ⊢
  cases stage <;> simp only [phase,changed,probing] <;> first | exact fits | skip
  case failing => exact ⟨fits.1,fits.2.1,Nat.le_trans fits.2.2 counted⟩
  case tripping => exact ⟨fits.1,fits.2.1,fits.2.2.1,fun same => Nat.le_trans (fits.2.2.2 same) counted⟩

theorem Fits.claimed (fits : Fits cfg b stage) : Fits cfg {b with probing := true} stage := by
  cases stage with
  | serving t => exact ⟨fits.1,fits.2.1,fun _ => rfl⟩
  | _ => exact fits

theorem Fits.freed (fits : Fits cfg b stage) (other : ¬ stage.probing b.phase) : Fits cfg {b with probing := false} stage := by
  cases stage with
  | serving t => exact ⟨fits.1,fits.2.1,fun same => absurd (congrArg Stage.serving same) other⟩
  | _ => exact fits

theorem next_later {p : Phase} (more : p.generation + 1 < generations) (k : Kind) : (p.next k).generation = p.generation + 1 := mod_eq_of_lt more

theorem Earlier.moved {b : Breaker} (earlier : Earlier p b.phase) (more : b.phase.generation + 1 < generations) (k : Kind) (now : Int) :
    p.generation < (b.moved k now).phase.generation := by
  have later : (b.moved k now).phase.generation = b.phase.generation + 1 := next_later more k
  rcases earlier with rfl | before <;> omega

theorem Fits.moved (fits : Fits cfg b stage) (clear : stage.midway = false) (more : b.phase.generation + 1 < generations)
    (k : Kind) (now : Int) : Fits cfg (b.moved k now) stage := by
  have ne : ∀ {p}, p.generation < (b.moved k now).phase.generation → p ≠ (b.moved k now).phase := by
    rintro p before rfl
    exact Nat.lt_irrefl _ before
  cases stage with
  | asleep p => exact ⟨fits.1,.inr (fits.2.moved more k now)⟩
  | waking p read =>
    have before := fits.2.1.moved more k now
    exact ⟨fits.1,.inr before,fun same => absurd same (ne before)⟩
  | serving t =>
    have before := fits.1.moved more k now
    exact ⟨.inr before,fits.2.1,fun same => absurd (congrArg Ticket.phase same) (ne before)⟩
  | tripping t read requests =>
    have before := fits.1.moved more k now
    exact ⟨.inr before,fits.2.1,fits.2.2.1,fun same => absurd same (ne before)⟩
  | settled t => exact Earlier.moved (p := t.phase) (.inr fits) more k now
  | _ => trivial

structure Inv (s : Process) : Prop where
  fits : ∀ (i : Nat) (f : Flight), s.flights[i]? = some f → Fits f.cfg s.breaker f.stage
  few : s.breaker.requests ≤ s.breaker.counted
  probing : s.breaker.probing → s.breaker.phase.kind = .halfOpen ∧ ∃ i, s.Probes i s.breaker.phase
  probe : ∀ i j p, s.Probes i p → s.Probes j p → i = j

section
variable {s : Process} {f f' : Flight}

theorem stage_here (here : s.flights[i]? = some f) : s.stage i = some f.stage := by
  rw [Process.stage,here]
  rfl

theorem set_here (here : s.flights[i]? = some f) (f' : Flight) : (s.flights.set i f')[i]? = some f' := by
  rw [getElem?_set_self (List.getElem?_eq_some_iff.mp here).1]

theorem probes_set (here : s.flights[i]? = some f) (probes : Process.Probes ⟨b,s.flights.set i f'⟩ j p) :
    (j = i ∧ f'.stage.probing p) ∨ (j ≠ i ∧ s.Probes j p) := by
  unfold Process.Probes Process.stage at probes
  by_cases same : j = i
  · subst same
    rw [set_here here f'] at probes
    exact .inl ⟨rfl,Option.some.inj probes⟩
  · rw [getElem?_set_ne (Ne.symm same)] at probes; exact .inr ⟨same,probes⟩

theorem probes_kept (b : Breaker) (f' : Flight) (other : j ≠ i) (probes : s.Probes j p) : Process.Probes ⟨b,s.flights.set i f'⟩ j p := by
  unfold Process.Probes Process.stage at probes ⊢
  rw [getElem?_set_ne (Ne.symm other)]
  exact probes

theorem fits_set (here : s.flights[i]? = some f) (own : Fits f'.cfg b' f'.stage)
    (others : ∀ (j : Nat) (g : Flight), j ≠ i → s.flights[j]? = some g → Fits g.cfg b' g.stage) :
    ∀ (j : Nat) (g : Flight), (s.flights.set i f')[j]? = some g → Fits g.cfg b' g.stage := by
  intro j g at'
  by_cases same : j = i
  · subst same
    rw [set_here here f'] at at'
    exact Option.some.inj at' ▸ own
  · rw [getElem?_set_ne (Ne.symm same)] at at'; exact others j g same at'

theorem probe_dropped (inv : Inv s) (here : s.flights[i]? = some f) (none' : ∀ p, ¬ f'.stage.probing p) (b : Breaker) :
    ∀ j k p, Process.Probes ⟨b,s.flights.set i f'⟩ j p → Process.Probes ⟨b,s.flights.set i f'⟩ k p → j = k := by
  intro j k p one two
  obtain ⟨_,probes⟩ | ⟨_,one⟩ := probes_set here one
  · exact absurd probes (none' p)
  · obtain ⟨_,probes⟩ | ⟨_,two⟩ := probes_set here two
    · exact absurd probes (none' p)
    · exact inv.probe j k p one two

theorem act_inv (inv : Inv s) (meets : Careful s (.act i a)) (here : s.flights[i]? = some f)
    (ran : advance f.cfg s.breaker f.stage a = some (b',stage')) : Inv ⟨b',s.flights.set i ⟨f.cfg,stage'⟩⟩ := by
  have effect := advance_effect f.cfg s.breaker (inv.fits i f here) inv.few ran
  cases effect with
  | calm still fits other none' =>
    refine ⟨fits_set here fits fun j g _ at' => (inv.fits j g at').calm still,still.requests inv.few,?_,probe_dropped inv here none' b'⟩
    intro probing
    obtain ⟨half,j,probes⟩ := inv.probing (still.probing ▸ probing)
    rw [still.phase]
    refine ⟨half,j,probes_kept b' _ ?_ probes⟩
    rintro rfl
    exact other (Option.some.inj ((stage_here here).symm.trans probes))
  | claim waits free half =>
    have vacant : ∀ k, ¬ s.Probes k s.breaker.phase := by
      intro k probes
      obtain ⟨g,at',stage⟩ := map_eq_some_iff.mp probes
      have fits := inv.fits k g at'
      rw [stage] at fits
      exact Bool.false_ne_true (free.symm.trans (fits.2.2 rfl))
    refine ⟨fits_set here ⟨.inl rfl,half,fun _ => rfl⟩ fun j g _ at' => (inv.fits j g at').claimed,inv.few,fun _ => ⟨half,i,?_⟩,?_⟩
    · exact stage_here (s := ⟨{s.breaker with probing := true},s.flights.set i ⟨f.cfg,.serving ⟨s.breaker.phase,true⟩⟩⟩)
        (set_here here ⟨f.cfg,.serving ⟨s.breaker.phase,true⟩⟩)
    intro j k p one two
    obtain ⟨first,probes⟩ | ⟨_,one⟩ := probes_set here one
    · obtain ⟨second,_⟩ | ⟨_,two⟩ := probes_set here two
      · exact first.trans second.symm
      · cases probes; exact absurd two (vacant k)
    · obtain ⟨_,probes⟩ | ⟨_,two⟩ := probes_set here two
      · cases probes; exact absurd one (vacant j)
      · exact inv.probe j k p one two
  | free probes =>
    refine ⟨fits_set here trivial ?_,inv.few,nofun,probe_dropped inv here (fun _ probing => Stage.noConfusion probing) _⟩
    intro j g other at'
    refine (inv.fits j g at').freed fun probing => other ?_
    exact inv.probe j i s.breaker.phase ((stage_here at').trans (congrArg some probing)) ((stage_here here).trans (congrArg some probes))
  | move k now tries left =>
    obtain ⟨clear,more⟩ := meets (by rw [stage_here here]; exact tries)
    refine ⟨fits_set here ?_ ?_,Nat.le_refl _,nofun,probe_dropped inv here ?_ _⟩
    · rcases left with rfl | rfl | rfl
      · trivial
      · trivial
      · exact Earlier.moved (.inl rfl) more k now
    · intro j g _ at'; exact (inv.fits j g at').moved (clear g (mem_of_getElem? at')) more k now
    · rcases left with rfl | rfl | rfl <;> nofun

theorem arrived_cases {g : Flight} {j : Nat} (at' : (s.flights ++ [⟨cfg,.arrived⟩])[j]? = some g) : s.flights[j]? = some g ∨ g = ⟨cfg,.arrived⟩ := by
  rcases Nat.lt_or_ge j s.flights.length with old | new
  · rw [getElem?_append_left old] at at'; exact .inl at'
  · rw [getElem?_append_right new] at at'; exact .inr (mem_singleton.mp (mem_of_getElem? at'))

theorem arrive_inv (inv : Inv s) (cfg : Config) : Inv {s with flights := s.flights ++ [⟨cfg,.arrived⟩]} := by
  have old : ∀ {j p}, Process.Probes {s with flights := s.flights ++ [⟨cfg,.arrived⟩]} j p → s.Probes j p := by
    intro j p probes
    obtain ⟨g,at',stage⟩ := map_eq_some_iff.mp probes
    rcases arrived_cases at' with at' | rfl
    · exact (stage_here at').trans (congrArg some stage)
    · cases stage
  refine ⟨?_,inv.few,?_,fun j k p one two => inv.probe j k p (old one) (old two)⟩
  · intro j g at'
    rcases arrived_cases at' with at' | rfl
    · exact inv.fits j g at'
    · trivial
  · intro probing
    obtain ⟨half,j,probes⟩ := inv.probing probing
    obtain ⟨g,at',stage⟩ := map_eq_some_iff.mp probes
    have inside := (List.getElem?_eq_some_iff.mp at').1
    refine ⟨half,j,?_⟩
    rw [Process.Probes,Process.stage,getElem?_append_left inside]
    exact probes

theorem act_parts (ran : step s (.act i a) = some t) : ∃ f b' stage', s.flights[i]? = some f ∧
    advance f.cfg s.breaker f.stage a = some (b',stage') ∧ t = ⟨b',s.flights.set i ⟨f.cfg,stage'⟩⟩ := by
  obtain ⟨f,here,mapped⟩ := bind_eq_some_iff.mp ran
  obtain ⟨next,moved,rfl⟩ := map_eq_some_iff.mp mapped
  exact ⟨f,next.1,next.2,here,moved,rfl⟩

theorem step_inv (inv : Inv s) (meets : Careful s e) (ran : step s e = some t) : Inv t := by
  cases e with
  | arrive cfg => cases ran; exact arrive_inv inv cfg
  | act i a => obtain ⟨f,b',stage',here,moved,rfl⟩ := act_parts ran; exact act_inv inv meets here moved

theorem admitted_from (ran : advance cfg b stage (.next now) = some (b',stage')) (admitted : stage'.admitted) :
    (stage = .arrived ∧ stage' = b.load) ∨ ∃ p, stage = .claiming p := by
  cases stage with
  | arrived => exact .inl ⟨rfl,by cases ran; rfl⟩
  | claiming p => exact .inr ⟨p,rfl⟩
  | asleep p | woken | checked t failed => cases ran; split at admitted <;> cases admitted
  | rolling t failed start read =>
    simp only [advance] at ran
    split at ran <;> (cases ran; cases admitted)
  | counting t failed read | failing t read requests => cases ran; split at admitted <;> cases admitted
  | waking p read | clearing t failed read | cleared t failed read | tripping t read requests => cases ran; cases admitted
  | _ => cases ran

theorem admits_awake (fits : Fits cfg b stage) (ran : advance cfg b stage (.next now) = some (b',stage')) (admitted : stage'.admitted) :
    b.phase.kind ≠ .opened := by
  intro opened
  obtain ⟨rfl,rfl⟩ | ⟨p,rfl⟩ := admitted_from ran admitted
  · rw [Breaker.load,opened] at admitted; cases admitted
  · obtain ⟨rfl,half⟩ := fits; cases opened.symm.trans half

theorem moves_cases (tries : Stage.moves stage a = some p) :
    (∃ now, stage = .waking p now) ∨ stage = .serving ⟨p,true⟩ ∨ ∃ t now requests, stage = .tripping t now requests ∧ t.phase = p := by
  unfold Stage.moves at tries
  split at tries
  · exact .inl ⟨_,by rw [Option.some.inj tries]⟩
  · rename_i t _ _
    obtain ⟨probe,tries⟩ := ite_none_right_eq_some.mp tries
    obtain ⟨q,_⟩ := t
    cases probe
    cases tries
    exact .inr (.inl rfl)
  · exact .inr (.inr ⟨_,_,_,rfl,Option.some.inj tries⟩)
  · cases tries

theorem moved_from (cfg : Config) (b : Breaker) (fits : Fits cfg b stage) (few : b.requests ≤ b.counted)
    (ran : advance cfg b stage a = some (b',stage')) (moved : b'.phase ≠ b.phase) :
    (∃ now, stage = .waking b.phase now) ∨ stage = .serving ⟨b.phase,true⟩ ∨
      ∃ t now requests, stage = .tripping t now requests ∧ t.phase = b.phase := by
  cases advance_effect cfg b fits few ran with
  | calm still => exact absurd still.phase moved
  | claim | free => exact absurd rfl moved
  | move _ _ tries => exact moves_cases tries

theorem stale_outcome (fits : Fits cfg b stage) (owns : stage.outcome = some t) (stale : t.phase ≠ b.phase)
    (ran : advance cfg b stage a = some (b',stage')) : b' = b := by
  cases stage with
  | serving t' =>
    cases owns
    cases a with
    | next _ => cases ran
    | answer failed now =>
      obtain ⟨p,probe⟩ := t
      cases probe with
      | true => cases ran; exact transition_late stale.symm
      | false => cases ran; rfl
    | panics => cases ran; exact if_neg fun same => stale same.2.symm
  | settled t' =>
    cases owns
    cases a with
    | panics => cases ran; exact if_neg fun same => stale same.2.symm
    | _ => cases ran
  | tripping t' now requests =>
    cases owns
    cases a with
    | next _ => cases ran; exact transition_late stale.symm
    | _ => cases ran
  | _ => cases owns <;> exact absurd fits.1 stale

theorem act_ran (here : s.flights[i]? = some f) (ran : advance f.cfg s.breaker f.stage a = some (b',stage')) :
    step s (.act i a) = some ⟨b',s.flights.set i ⟨f.cfg,stage'⟩⟩ := by
  rw [step,here,bind_some,ran]
  rfl

theorem probes_next (half : s.breaker.phase.kind = .halfOpen) (free : s.breaker.probing = false) : s.ProbesNext := by
  intro cfg now now'
  let came : Process := {s with flights := s.flights ++ [⟨cfg,.arrived⟩]}
  have here : came.flights[s.flights.length]? = some ⟨cfg,.arrived⟩ := getElem?_concat_length ..
  have load : advance cfg s.breaker .arrived (.next now) = some (s.breaker,.claiming s.breaker.phase) := by
    simp only [advance,Breaker.load,half]
  let loaded : Process := ⟨s.breaker,came.flights.set s.flights.length ⟨cfg,.claiming s.breaker.phase⟩⟩
  have there : loaded.flights[s.flights.length]? = some ⟨cfg,.claiming s.breaker.phase⟩ := set_here here _
  have claim : advance cfg s.breaker (.claiming s.breaker.phase) (.next now') =
      some ({s.breaker with probing := true},.serving ⟨s.breaker.phase,true⟩) := by
    simp [advance,free]
  refine ⟨⟨{s.breaker with probing := true},loaded.flights.set s.flights.length ⟨cfg,.serving ⟨s.breaker.phase,true⟩⟩⟩,?_,?_⟩
  · have first : step s (.arrive cfg) = some came := rfl
    have second : step came (.act s.flights.length (.next now)) = some loaded := act_ran here load
    simp only [run,first,second,act_ran there claim,bind_some]
  · rw [Process.Probes,Process.stage,set_here there]; rfl

theorem Inv.sound (inv : Inv s) : Sound s := by
  refine ⟨?_,?_,inv.probe,?_,?_,?_⟩
  · intro i f now t here ran admitted opened
    obtain ⟨g,b',stage',here',moved,rfl⟩ := act_parts ran
    cases here.symm.trans here'
    rw [stage_here (s := ⟨b',s.flights.set i ⟨f.cfg,stage'⟩⟩) (set_here here _)] at admitted
    exact absurd opened (admits_awake (inv.fits i f here) moved admitted)
  · intro i cfg p read a t here ran moved
    obtain ⟨f,b',stage',here',ran',rfl⟩ := act_parts ran
    cases here.symm.trans here'
    have fits := inv.fits i _ here
    obtain ⟨now,same⟩ | same | ⟨_,_,_,same,_⟩ := moved_from cfg s.breaker fits inv.few ran' moved
    · cases same; exact ⟨fits.1,fits.2.2 rfl⟩
    · cases same
    · cases same
  · intro i a t stage ticket here owns stale ran
    obtain ⟨f,b',stage',here',ran',rfl⟩ := act_parts ran
    cases here.symm.trans (stage_here here')
    exact stale_outcome (inv.fits i f here') owns stale ran'
  · intro i f a t here ran closed opened
    obtain ⟨g,b',stage',here',ran',rfl⟩ := act_parts ran
    cases here.symm.trans here'
    have fits := inv.fits i f here
    have moved : b'.phase ≠ s.breaker.phase := fun same => by
      cases closed.symm.trans (same ▸ opened)
    obtain ⟨now,same⟩ | same | ⟨ticket,now,requests,same,current⟩ := moved_from f.cfg s.breaker fits inv.few ran' moved
    · rw [same] at fits; cases closed.symm.trans fits.1
    · rw [same] at fits; cases closed.symm.trans fits.2.1
    · rw [same] at fits; exact Nat.le_trans fits.2.2.1 (fits.2.2.2 current)
  · intro half none'
    refine probes_next half (Bool.eq_false_iff.mpr fun probing => ?_)
    obtain ⟨_,i,probes⟩ := inv.probing probing
    exact none' i probes

theorem probes_mem (probes : s.Probes i p) : ∃ f ∈ s.flights, f.stage = .serving ⟨p,true⟩ := by
  obtain ⟨f,here,stage⟩ := map_eq_some_iff.mp probes
  exact ⟨f,mem_of_getElem? here,stage⟩

theorem breaker_sound (now : Int) : ∀ s, Reached step Careful (Process.start now) s → Sound s := by
  intro s path
  have first : Inv (Process.start now) := ⟨nofun,Nat.le_refl _,nofun,
    nofun⟩
  exact (reached_invariant Inv first step_inv path).sound

end

instance : ∀ s e, Decidable (Careful s e) := by
  intros
  unfold Careful
  split <;> infer_instance

def sampleConfig : Config := ⟨1,10,5,fun _ _ => true⟩
def acts (i count : Nat) (now : Int) : List Event := List.replicate count (.act i (.next now))
def sampleTrip : List Event := .arrive sampleConfig :: acts 0 1 0 ++ .act 0 (.answer true 1) :: acts 0 4 1
def sampleProbe : List Event := sampleTrip ++ .arrive sampleConfig :: acts 1 5 7

theorem breaker_recovers :
    ∃ s, runAllowed step Careful (Process.start 0) (sampleProbe ++ .arrive sampleConfig :: acts 2 2 8 ++ [.act 1 (.answer false 9)]) = some s ∧
      s.breaker.phase = ⟨3,.closed⟩ ∧ Sound s := shown_run (by decide) (breaker_sound 0)

def sampleCrossing : List Event :=
  sampleProbe ++ .arrive sampleConfig :: .arrive sampleConfig :: acts 2 1 8 ++ acts 3 1 8 ++ [.act 1 (.answer true 8)]
def sampleAgain : List Event := .arrive sampleConfig :: acts 4 3 20

-- Four crossings: a probe of a circuit open again, one probe claimed twice, a probe never
-- handed back, an outcome counted in a later generation.
theorem breaker_crossed : (∃ s, run step (Process.start 0) sampleCrossing = some s ∧ ¬ Sound s) ∧
    (∃ s, run step (Process.start 0) (sampleCrossing ++ acts 2 1 8 ++ sampleAgain ++ acts 3 1 20) = some s ∧ ¬ Sound s) ∧
    (∃ s, run step (Process.start 0) (sampleCrossing ++ sampleAgain ++ acts 2 1 20 ++ [.act 2 (.answer false 21)]) = some s ∧ ¬ Sound s) ∧
    ∃ s, run step (Process.start 0) (.arrive sampleConfig :: .arrive sampleConfig :: acts 0 1 0 ++ acts 1 1 0 ++
      [.act 1 (.answer true 1),.act 0 (.answer true 1)] ++ acts 0 4 1 ++ acts 1 1 1) = some s ∧ ¬ Sound s := by
  refine ⟨⟨_,rfl,fun sound => ?_⟩,⟨_,rfl,fun sound => ?_⟩,⟨_,rfl,fun sound => ?_⟩,⟨_,rfl,fun sound => ?_⟩⟩
  · exact absurd (sound.admits 2 _ 8 _ rfl rfl rfl rfl) (by decide)
  · exact absurd (sound.probe 2 3 ⟨2,.halfOpen⟩ rfl rfl) (by decide)
  · obtain ⟨t,ran,probes⟩ := sound.lives rfl (fun i probes => absurd (probes_mem probes) (by decide)) sampleConfig 21 21
    cases ran
    exact absurd (probes_mem probes) (by decide)
  · exact absurd (congrArg Breaker.requests (sound.stale 1 (.next 1) _ _ _ rfl rfl (by decide) rfl)) (by decide)

end Gateon.CircuitBreaker
