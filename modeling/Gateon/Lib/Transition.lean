import Mathlib.Logic.Basic

-- Runs of a step function, and invariants of every state they reach.
namespace Transition

variable {S E : Type} {step : S → E → Option S} {allowed : S → E → Prop}

inductive Reached (step : S → E → Option S) (allowed : S → E → Prop) (start : S) : S → Prop where
  | refl : Reached step allowed start start
  | next (path : Reached step allowed start s) (meets : allowed s e) (ran : step s e = some t) :
      Reached step allowed start t

theorem reached_invariant (inv : S → Prop) (initial : inv start) (kept : ∀ {s e t}, inv s → allowed s e → step s e = some t → inv t)
    (path : Reached step allowed start s) : inv s := by
  induction path with
  | refl => exact initial
  | next _ meets ran ih => exact kept ih meets ran

-- What a log holds, after an event that adds one record to it.
theorem forall_snoc {p : α → Prop} (old : ∀ x ∈ l, p x) (new : p a) : ∀ x ∈ l ++ [a], p x :=
  List.forall_mem_append.mpr ⟨old,List.forall_mem_singleton.mpr new⟩

def run (step : S → E → Option S) : S → List E → Option S
  | s,[] => some s
  | s,e :: rest => (step s e).bind fun t => run step t rest

def runAllowed (step : S → E → Option S) (allowed : S → E → Prop) [∀ s e, Decidable (allowed s e)] (s : S)
    (events : List E) : Option S :=
  run (fun s e => if allowed s e then step s e else none) s events

theorem runAllowed_reached [∀ s e, Decidable (allowed s e)] (ran : runAllowed step allowed s events = some t) :
    Reached step allowed s t := by
  suffices extend : ∀ start, Reached step allowed start s → Reached step allowed start t from extend s .refl
  induction events generalizing s with
  | nil =>
    intro start path
    cases ran
    exact path
  | cons e rest ih =>
    intro start path
    obtain ⟨middle,first,later⟩ := Option.bind_eq_some_iff.mp ran
    dsimp only at first
    split at first
    · rename_i meets; exact ih later start (.next path meets first)
    · cases first

-- A state too large to write down, by what is shown of it.
theorem shown_some {o : Option S} {p : S → Prop} (f : S → β) (v : β) (shown : o.map f = some v)
    (holds : ∀ t, o = some t → f t = v → p t) : ∃ t, o = some t ∧ p t := by
  obtain ⟨t,ran,same⟩ := Option.map_eq_some_iff.mp shown
  exact ⟨t,ran,holds t ran same⟩

theorem shown_run {p : S → Prop} {f : S → β} [∀ s e, Decidable (allowed s e)] (shown : (runAllowed step allowed s events).map f = some v)
    (holds : ∀ t, Reached step allowed s t → p t) : ∃ t, runAllowed step allowed s events = some t ∧ f t = v ∧ p t :=
  shown_some f v shown fun t ran same => ⟨same,holds t (runAllowed_reached ran)⟩

theorem shown_reached {p : S → Prop} [∀ s e, Decidable (allowed s e)] (f : S → β) (v : β) (events : List E)
    (shown : (runAllowed step allowed s events).map f = some v) (holds : ∀ t, Reached step allowed s t → f t = v → p t) :
    ∃ t, Reached step allowed s t ∧ p t := by
  obtain ⟨t,ran,same⟩ := Option.map_eq_some_iff.mp shown
  have path := runAllowed_reached ran
  exact ⟨t,path,holds t path same⟩

theorem reached_by {p : S → Prop} {f : S → β} [∀ s e, Decidable (allowed s e)] (events : List E)
    (shown : (runAllowed step allowed s events).map f = some v) (holds : ∀ t, Reached step allowed s t → p t) :
    ∃ t, Reached step allowed s t ∧ f t = v ∧ p t :=
  shown_reached f v events shown fun t path same => ⟨same,holds t path⟩

end Transition
