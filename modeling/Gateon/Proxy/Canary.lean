import Gateon.Go.Strings
import Gateon.Lib.Transition
import Mathlib.Logic.Function.Basic

namespace Gateon.Canary
open Go Transition Function Option

structure Target where
  url : GoString
  weight : Int
deriving DecidableEq

-- A service in a registry has an id: SaveService gives one to a new service that comes without.
structure Service where
  id : GoString
  targets : List Target
deriving DecidableEq

-- How SaveService ends: refused by a check or the guard, not written by the store, or saved.
inductive Outcome where
  | refused
  | unwritten
  | saved
deriving DecidableEq

-- `held` is the service the step under way was handed, and the target of it that is next.
structure Rollout where
  service : GoString
  wanted : List Target
  steps : Nat
  original : Service
  done : Nat
  held : Option (Nat × Nat)

-- A registry maps ids to services in memory; `saved` is what the last successful save of each id stored.
structure State where
  objects : Nat → Service
  created : Nat
  services : GoString → Option Nat
  saved : GoString → Option Service
  rollouts : Nat → Option Rollout

def start : State := ⟨fun _ => ⟨[],[]⟩,0,fun _ => none,fun _ => none,fun _ => none⟩

namespace State
variable (s : State)

def get (id : GoString) : Option Service := (s.services id).map s.objects
def write (p : Nat) (svc : Service) : State := {s with objects := update s.objects p svc}
def new (svc : Service) : State := {s.write s.created svc with created := s.created+1}
def roll (r : Nat) (x : Option Rollout) : State := {s with rollouts := update s.rollouts r x}

-- The file's registry changes its map before it writes; `db` tells the database's from it.
def store (db : Bool) (id : GoString) (p : Option Nat) (written : Bool) : State :=
  let changed := {s with services := update s.services id p}
  if written then {changed with saved := update s.saved id (p.map s.objects)} else if db then s else changed

end State

def initialWeight (svc : Service) (url : GoString) : Int := ((svc.targets.reverse.find? (·.url = url)).map Target.weight).getD 0

-- `blend` is the float64 arithmetic of a step.
variable (blend : Int → Int → Nat → Nat → Int) (db : Bool) (s : State)

def stepped (x : Rollout) (t : Target) : Target :=
  match x.wanted.find? (·.url = t.url) with
  | some tw => {t with weight := blend (initialWeight x.original t.url) tw.weight (x.done+1) x.steps}
  | none => t

def saveService (p : Nat) (o : Outcome) : State :=
  if o = .refused then s else s.store db (s.objects p).id (some p) (o = .saved)

-- `save` is anyone's, a rollback's clone among them.
inductive Event where
  | save (svc : Service) (o : Outcome)
  | delete (id : GoString) (written : Bool)
  | begin (r : Nat) (id : GoString) (wanted : List Target) (steps : Nat)
  | take (r : Nat)
  | edit (r : Nat)
  | submit (r : Nat) (o : Outcome)

def step : Event → Option State
  | .save svc o => some (saveService db (s.new svc) s.created o)
  | .delete id written => some (s.store db id none written)
  | .begin r id wanted steps => (s.get id).map fun svc => s.roll r (some ⟨id,wanted,steps,svc,0,none⟩)
  | .take r => (s.rollouts r).bind fun x =>
    if x.held = none ∧ x.done < x.steps then (s.services x.service).map fun p => s.roll r (some {x with held := some (p,0)}) else none
  | .edit r => (s.rollouts r).bind fun x => x.held.bind fun (p,j) => (s.objects p).targets[j]?.map fun t =>
    (s.write p {s.objects p with targets := (s.objects p).targets.set j (stepped blend x t)}).roll r (some {x with held := some (p,j+1)})
  | .submit r o => (s.rollouts r).bind fun x => x.held.bind fun (p,j) =>
    if j < (s.objects p).targets.length then none
    else some (saveService db (s.roll r (if o = .saved then some {x with done := x.done+1,held := none} else none)) p o)

-- What the file's registry fails to write is what was saved last.
def Kept (o : Outcome) (svc : Service) : Prop := o = .unwritten → db = true ∨ s.saved svc.id = some svc

-- A weight is set to what it is already, or in a service the registry no longer holds.
def Quiet : Event → Prop
  | .edit r => ∀ x ∈ s.rollouts r, ∀ h ∈ x.held, s.services (s.objects h.1).id = some h.1 →
    ∀ t ∈ (s.objects h.1).targets[h.2]?, stepped blend x t = t
  | .save svc o => Kept db s o svc
  | .submit r o => ∀ x ∈ s.rollouts r, ∀ h ∈ x.held, Kept db s o (s.objects h.1)
  | .delete id written => written = true ∨ db = true ∨ s.saved id = none
  | _ => True

instance (o : Outcome) (svc : Service) : Decidable (Kept db s o svc) :=
  inferInstanceAs (Decidable (o = .unwritten → db = true ∨ s.saved svc.id = some svc))

instance (e : Event) : Decidable (Quiet blend db s e) := by
  cases e <;> dsimp only [Quiet] <;> infer_instance

def Event.succeeds : Event → Bool
  | .save _ o | .submit _ o => o = .saved
  | .delete _ written => written
  | _ => false

structure Inv : Prop where
  known : ∀ id, ∀ p ∈ s.services id, p < s.created ∧ (s.objects p).id = id
  held : ∀ r, ∀ x ∈ s.rollouts r, ∀ h ∈ x.held, h.1 < s.created
  settled : ∀ id, s.get id = s.saved id

-- What an event leaves; nothing is newly saved unless it succeeds.
def Settles (t : State) (succeeds : Bool) : Prop := Inv t ∧ (succeeds = false → t.saved = s.saved)

variable {blend} {db} {s}

theorem Inv.write (h : Inv s) (free : s.services (s.objects p).id = some p → svc = s.objects p) : Inv (s.write p svc) := by
  have same : ∀ id, ∀ q ∈ s.services id, (s.write p svc).objects q = s.objects q := by
    intro id q live
    by_cases here : q = p
    · subst here
      exact (update_self ..).trans (free ((h.known id q live).2 ▸ live))
    · exact update_of_ne here ..
  refine ⟨fun id q live => ?_,h.held,fun id => (map_congr fun q live => same id q live).trans (h.settled id)⟩
  rw [same id q live]
  exact h.known id q live

theorem Inv.new (h : Inv s) (svc : Service) : Inv (s.new svc) := by
  have fresh : Inv (s.write s.created svc) := h.write fun live => absurd (h.known _ _ live).1 (Nat.lt_irrefl _)
  refine {fresh with known := fun id p live => ?_,held := fun r x row y held => Nat.lt_succ_of_lt (h.held r x row y held)}
  obtain ⟨small,own⟩ := fresh.known id p live
  exact ⟨Nat.lt_succ_of_lt small,own⟩

theorem Inv.roll (h : Inv s) (small : ∀ y ∈ x, ∀ z ∈ y.held, z.1 < s.created) : Inv (s.roll r x) := by
  refine {h with held := fun r' y row => ?_}
  by_cases same : r' = r
  · subst same; exact small y (update_self r' x s.rollouts ▸ row)
  · exact h.held r' y (update_of_ne same x s.rollouts ▸ row)

theorem Inv.store {name : GoString} (h : Inv s) (written : Bool) (entry : ∀ q ∈ p, q < s.created ∧ (s.objects q).id = name)
    (kept : written = true ∨ db = true ∨ s.saved name = p.map s.objects) : Settles s (s.store db name p written) written := by
  have changed : ∀ saved : GoString → Option Service, saved name = p.map s.objects → (∀ id, id ≠ name → saved id = s.saved id) →
      Inv {s with services := update s.services name p,saved := saved} := by
    intro saved own others
    refine ⟨fun id q live => ?_,h.held,fun id => ?_⟩
    · by_cases here : id = name
      · subst here; exact entry q (update_self id p s.services ▸ live)
      · exact h.known id q (update_of_ne here p s.services ▸ live)
    · by_cases here : id = name
      · subst here; simp [State.get,own]
      · simpa [State.get,here,others id here] using h.settled id
  cases written with
  | true => exact ⟨changed _ (update_self ..) fun id other => update_of_ne other ..,nofun⟩
  | false =>
    cases db with
    | true => exact ⟨h,fun _ => rfl⟩
    | false => exact ⟨changed _ ((kept.resolve_left nofun).resolve_left nofun) fun _ _ => rfl,fun _ => rfl⟩

theorem Inv.save (h : Inv s) (small : p < s.created) (kept : Kept db s o (s.objects p)) : Settles s (saveService db s p o) (o = .saved) := by
  have entry : ∀ q ∈ some p, q < s.created ∧ (s.objects q).id = (s.objects p).id := by
    rintro _ ⟨⟩
    exact ⟨small,rfl⟩
  cases o with
  | refused => exact ⟨h,fun _ => rfl⟩
  | unwritten => exact h.store false entry (.inr (kept rfl))
  | saved => exact h.store true entry (show _ ∨ db = true ∨ _ from .inl rfl)

theorem step_settles (h : Inv s) (quiet : Quiet blend db s e) (ran : step blend db s e = some t) : Settles s t e.succeeds := by
  cases e with
  | save svc o =>
    cases ran
    refine (h.new svc).save (Nat.lt_succ_self _) ?_
    rw [show (s.new svc).objects s.created = svc from update_self ..]
    exact quiet
  | delete id written => cases ran; exact h.store written nofun quiet
  | begin r id wanted steps =>
    obtain ⟨svc,_,rfl⟩ := map_eq_some_iff.mp ran
    exact ⟨h.roll (by simp),fun _ => rfl⟩
  | take r =>
    obtain ⟨x,_,ran⟩ := bind_eq_some_iff.mp ran
    obtain ⟨_,ran⟩ := ite_none_right_eq_some.mp ran
    obtain ⟨p,live,rfl⟩ := map_eq_some_iff.mp ran
    exact ⟨h.roll (by simpa using (h.known _ _ live).1),fun _ => rfl⟩
  | edit r =>
    obtain ⟨x,row,ran⟩ := bind_eq_some_iff.mp ran
    obtain ⟨⟨p,j⟩,held,ran⟩ := bind_eq_some_iff.mp ran
    obtain ⟨t,there,rfl⟩ := map_eq_some_iff.mp ran
    refine ⟨Inv.roll (h.write fun live => ?_) (by rintro _ ⟨⟩ _ ⟨⟩; exact h.held r x row (p,j) held),fun _ => rfl⟩
    rw [quiet x row _ held live t there]
    obtain ⟨inside,rfl⟩ := List.getElem?_eq_some_iff.mp there
    rw [List.set_getElem_self]
  | submit r o =>
    obtain ⟨x,row,ran⟩ := bind_eq_some_iff.mp ran
    obtain ⟨⟨p,j⟩,held,ran⟩ := bind_eq_some_iff.mp ran
    obtain ⟨_,⟨⟩⟩ := ite_none_left_eq_some.mp ran
    refine Inv.save (h.roll ?_) (h.held r x row _ held) (quiet x row _ held)
    split <;> simp

theorem start_inv : Inv start := by
  constructor <;> simp [start,State.get]

theorem canary_settled (blend : Int → Int → Nat → Nat → Int) (db : Bool) :
    (∀ s, Reached (step blend db) (Quiet blend db) start s → ∀ id, s.get id = s.saved id) ∧
    ∀ s t, Reached (step blend db) (Quiet blend db) start s →
      Reached (step blend db) (fun s e => Quiet blend db s e ∧ e.succeeds = false) s t → ∀ id, t.get id = s.get id := by
  have inv {s : State} (path : Reached (step blend db) (Quiet blend db) start s) : Inv s :=
    reached_invariant Inv start_inv (fun h quiet ran => (step_settles h quiet ran).1) path
  refine ⟨fun s path => (inv path).settled,fun s t path failing id => ?_⟩
  have kept : Inv t ∧ t.saved = s.saved := by
    refine reached_invariant (fun u => Inv u ∧ u.saved = s.saved) ⟨inv path,rfl⟩ ?_ failing
    intro u e v ⟨h,same⟩ ⟨quiet,failed⟩ ran
    obtain ⟨next,unsaved⟩ := step_settles h quiet ran
    exact ⟨next,(unsaved failed).trans same⟩
  rw [kept.1.settled,(inv path).settled,kept.2]

-- Exact arithmetic, cut off towards zero.
def exactly (initial target : Int) (i steps : Nat) : Int := (initial*steps + (target-initial)*i).tdiv steps
def svc (weight : Int) : Service := ⟨lit "a",[⟨lit "u",weight⟩]⟩

-- A step whose weights are there already is saved. Of the next, another save takes the service away, and its own is refused.
theorem canary_settled_run : ∃ s, Reached (step exactly false) (Quiet exactly false) start s ∧
    ∃ t, Reached (step exactly false) (fun s e => Quiet exactly false s e ∧ e.succeeds = false) s t ∧
      t.get (lit "a") = some (svc 3) ∧ s.get (lit "a") = s.saved (lit "a") ∧ t.get (lit "a") = s.get (lit "a") := by
  refine shown_reached (fun s => (runAllowed (step exactly false) (fun s e => Quiet exactly false s e ∧ e.succeeds = false) s
      [.edit 1,.submit 1 .refused]).map (·.get (lit "a"))) (some (some (svc 3)))
    [.save (svc 1) .saved,.begin 0 (lit "a") [⟨lit "u",1⟩] 1,.take 0,.edit 0,.submit 0 .saved,
      .begin 1 (lit "a") [⟨lit "u",5⟩] 2,.take 1,.save (svc 3) .saved] (by decide) ?_
  intro s path shown
  exact reached_by _ shown fun t failing =>
    ⟨(canary_settled exactly false).1 s path _,(canary_settled exactly false).2 s t path failing _⟩

-- A step that is refused, in either registry, and a save that the file's registry fails to write.
theorem failed_step_applied :
    (∀ db, (run (step exactly db) start [.save (svc 1) .saved,.begin 0 (lit "a") [⟨lit "u",-5⟩] 1,.take 0,.edit 0,.submit 0 .refused]).map
      (fun s => (s.get (lit "a"),s.saved (lit "a"))) = some (some (svc (-5)),some (svc 1))) ∧
    (run (step exactly false) start [.save (svc 1) .saved,.save (svc 2) .unwritten]).map
      (fun s => (s.get (lit "a"),s.saved (lit "a"))) = some (some (svc 2),some (svc 1)) := by
  decide

end Gateon.Canary
