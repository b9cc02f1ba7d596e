import Mathlib.Data.List.Basic

-- A part of a value that can be read and replaced where it is present.
namespace PartialLens
open List

structure Lens (S A : Type) where
  get : S → Option A
  set : S → A → S
  get_set : ∀ s a, get (set s a) = (get s).map fun _ => a
  set_get : ∀ s a, get s = some a → set s a = s
  set_set : ∀ s a b, set (set s a) b = set s b

def field (read : S → A) (write : S → A → S) (read_write : ∀ s a, read (write s a) = a := by intros; rfl)
    (write_read : ∀ s, write s (read s) = s := by intros; rfl)
    (write_write : ∀ s a b, write (write s a) b = write s b := by intros; rfl) : Lens S A where
  get s := some (read s)
  set := write
  get_set s a := by rw [read_write]; rfl
  set_get s a here := by
    cases here
    exact write_read s
  set_set := write_write

def optional (read : S → Option A) (write : S → Option A → S) (read_write : ∀ s a, read (write s a) = a := by intros; rfl)
    (write_read : ∀ s, write s (read s) = s := by intros; rfl)
    (write_write : ∀ s a b, write (write s a) b = write s b := by intros; rfl) : Lens S A where
  get := read
  set s a := write s ((read s).map fun _ => a)
  get_set s a := read_write ..
  set_get s a here := by
    rw [here,Option.map_some,← here]
    exact write_read s
  set_set s a b := by
    rw [write_write,read_write,Option.map_map]
    rfl

def comp (p : Lens S A) (q : Lens A B) : Lens S B where
  get s := (p.get s).bind q.get
  set s b := match p.get s with
    | none => s
    | some a => p.set s (q.set a b)
  get_set s b := by
    cases here : p.get s with
    | none => simp [here]
    | some a => simp [p.get_set,here,q.get_set]
  set_get s b inner := by
    cases here : p.get s with
    | none => rfl
    | some a =>
      rw [here] at inner
      rw [Option.bind_some] at inner
      dsimp only
      rw [q.set_get a b inner,p.set_get s a here]
  set_set s b c := by
    cases here : p.get s with
    | none => simp [here]
    | some a => simp [p.get_set,here,p.set_set,q.set_set]

def Lens.update (p : Lens S A) (f : A → A) (s : S) : S :=
  match p.get s with
  | none => s
  | some a => p.set s (f a)

structure Apart (p : Lens S A) (q : Lens S B) : Prop where
  get_left : ∀ s b, p.get (q.set s b) = p.get s
  get_right : ∀ s a, q.get (p.set s a) = q.get s
  comm : ∀ s a b, p.set (q.set s b) a = q.set (p.set s a) b

variable {p : Lens S A}

theorem Apart.inside {q : Lens S B} (apart : Apart p q) (r : Lens A C) (t : Lens B D) : Apart (comp p r) (comp q t) where
  get_left s b := by
    simp only [comp]
    cases q.get s with
    | none => rfl
    | some x => rw [apart.get_left]
  get_right s a := by
    simp only [comp]
    cases p.get s with
    | none => rfl
    | some x => rw [apart.get_right]
  comm s a b := by
    simp only [comp]
    cases left : p.get s <;> cases right : q.get s <;> simp [left,right,apart.get_left,apart.get_right,apart.comm]

theorem Apart.within (p : Lens S A) (apart : Apart q r) : Apart (comp p q) (comp p r) where
  get_left s b := by
    simp only [comp]
    cases here : p.get s <;> simp [here,p.get_set,apart.get_left]
  get_right s a := by
    simp only [comp]
    cases here : p.get s <;> simp [here,p.get_set,apart.get_right]
  comm s a b := by
    simp only [comp]
    cases here : p.get s <;> simp [here,p.get_set,p.set_set,apart.comm]

theorem Apart.right {q : Lens S B} (apart : Apart p q) (r : Lens B C) : Apart p (comp q r) where
  get_left s b := by
    simp only [comp]
    cases q.get s with
    | none => rfl
    | some x => exact apart.get_left s _
  get_right s a := by simp only [comp,apart.get_right]
  comm s a b := by
    simp only [comp,apart.get_right]
    cases q.get s with
    | none => rfl
    | some x => exact apart.comm s a _

theorem comp_keeps {q : Lens A B} {g : S → C} (keeps : ∀ s a, g (p.set s a) = g s) (s : S) (b : B) :
    g ((comp p q).set s b) = g s := by
  simp only [comp]
  cases p.get s with
  | none => rfl
  | some a => exact keeps s _

section
variable (p : Lens S A)

theorem get_update (f : A → A) (s : S) : p.get (p.update f s) = (p.get s).map f := by
  unfold Lens.update
  cases here : p.get s with
  | none => exact here
  | some a => simp [p.get_set,here]

theorem set_update (f : A → A) (s : S) (a : A) : p.set (p.update f s) a = p.set s a := by
  unfold Lens.update
  cases here : p.get s with
  | none => rfl
  | some b => exact p.set_set ..

theorem update_same (same : ∀ a, p.get s = some a → f a = a) : p.update f s = s := by
  unfold Lens.update
  cases here : p.get s with
  | none => rfl
  | some a =>
    dsimp only
    rw [same a here]
    exact p.set_get s a here

theorem update_keeps {g : S → B} (keeps : ∀ s a, g (p.set s a) = g s) (f : A → A) (s : S) : g (p.update f s) = g s := by
  unfold Lens.update
  cases p.get s with
  | none => rfl
  | some a => exact keeps s (f a)

end

section
variable {q : Lens S B} (apart : Apart p q)
include q apart

theorem Apart.get_update (f : B → B) (s : S) : p.get (q.update f s) = p.get s :=
  update_keeps q apart.get_left f s

theorem Apart.set_update (f : B → B) (s : S) (a : A) : p.set (q.update f s) a = q.update f (p.set s a) := by
  unfold Lens.update
  rw [apart.get_right]
  cases q.get s with
  | none => rfl
  | some b => exact apart.comm s a (f b)

theorem Apart.update_update (f : A → A) (g : B → B) (s : S) :
    q.update g (p.update f s) = p.update f (q.update g s) := by
  have left := apart.get_update g s
  cases here : p.get s with
  | none =>
    rw [here] at left
    rw [show p.update f s = s by rw [Lens.update,here],show p.update f (q.update g s) = q.update g s by rw [Lens.update,left]]
  | some a =>
    rw [here] at left
    rw [show p.update f s = p.set s (f a) by rw [Lens.update,here],
      show p.update f (q.update g s) = p.set (q.update g s) (f a) by rw [Lens.update,left],apart.set_update]

end

section Sweep

variable {P S A : Type} (part : P → Lens S A) (f : P → A → A)

def sweep (ps : List P) (s : S) : S := ps.foldl (fun s p => (part p).update (f p) s) s

variable {ps : List P}

theorem sweep_cons (p : P) (s : S) : sweep part f (p :: ps) s = sweep part f ps ((part p).update (f p) s) := rfl

theorem update_sweep {q : Lens S B} (apart : ∀ p ∈ ps, Apart (part p) q) (g : B → B) (s : S) :
    q.update g (sweep part f ps s) = sweep part f ps (q.update g s) := by
  induction ps generalizing s with
  | nil => rfl
  | cons p ps ih =>
    rw [sweep_cons,ih (forall_mem_cons.mp apart).2,(apart p (mem_cons_self ..)).update_update,sweep_cons]

theorem sweep_keeps {g : S → B} (keeps : ∀ q ∈ ps, ∀ s a, g ((part q).set s a) = g s) (s : S) : g (sweep part f ps s) = g s := by
  induction ps generalizing s with
  | nil => rfl
  | cons q ps ih =>
    rw [sweep_cons,ih (forall_mem_cons.mp keeps).2,update_keeps (part q) (keeps q (mem_cons_self ..))]

section
variable {p : P} (apart : ∀ q ∈ ps, Apart (part p) (part q))
include apart

theorem get_sweep (s : S) : (part p).get (sweep part f (p :: ps) s) = ((part p).get s).map (f p) := by
  rw [sweep_cons,sweep_keeps part f fun q member => (apart q member).get_left,get_update]

theorem set_sweep (here : (part p).get s = some a) : (part p).set (sweep part f (p :: ps) s) a = sweep part f ps s := by
  have passed (s : S) : (part p).set (sweep part f ps s) a = sweep part f ps ((part p).set s a) := by
    induction ps generalizing s with
    | nil => rfl
    | cons q ps ih =>
      rw [sweep_cons,ih (forall_mem_cons.mp apart).2,(apart q (mem_cons_self ..)).set_update,sweep_cons]
  rw [sweep_cons,passed,set_update,(part p).set_get s a here]

end

theorem unsweep {step : S × E → P → S × E} {s : S} {e : E}
    (each : ∀ before p after, ps = before ++ p :: after → step (sweep part f (p :: after) s,e) p = (sweep part f after s,e)) :
    ps.foldl step (sweep part f ps s,e) = (s,e) := by
  induction ps with
  | nil => rfl
  | cons p ps ih =>
    rw [foldl_cons,each [] p ps rfl]
    refine ih ?_
    intro before q after shape
    exact each (p :: before) q after (by rw [shape]; rfl)

end Sweep

end PartialLens
