import Gateon.Go.Strings

namespace Gateon.Authz.GlobalBound
open Go List

inductive Class where
  | unclassified
  | operational
  | section'
  | boundary
deriving DecidableEq

-- The fields of a message: a singular message has fields of its own, any other field is a leaf.
inductive Fields where
  | nil
  | leaf (name : GoString) (cls : Class) (rest : Fields)
  | message (name : GoString) (cls : Class) (sub rest : Fields)

-- The value at each path; what is absent has its zero value.
abbrev Config (V : Type) := List GoString → V

structure Triple (V : Type) where
  stored : Config V
  view : Config V
  proposed : Config V

variable {V : Type} [DecidableEq V]

def Triple.child (t : Triple V) (name : GoString) : Triple V :=
  ⟨fun path => t.stored (name :: path),fun path => t.view (name :: path),fun path => t.proposed (name :: path)⟩
def Triple.changed (t : Triple V) (name : GoString) : Bool :=
  t.proposed [name] ≠ t.stored [name] && t.proposed [name] ≠ t.view [name]

inductive Action where
  | skip
  | descend
  | compare

def effective (cls : Class) (singularMessage : Bool) : Class :=
  match cls,singularMessage with
  | .unclassified,_ | .section',false => .boundary
  | c,_ => c

def boundaryPick (cls : Class) (singularMessage inherited : Bool) : Action × Bool :=
  match inherited,effective cls singularMessage with
  | false,.operational => (.skip,false)
  | false,.section' => (.descend,false)
  | _,_ => (if singularMessage then .descend else .compare,true)

def pathOf (above name : GoString) : GoString := if above = [] then name else above ++ lit "." ++ name

def walk (t : Triple V) (above : GoString) (inherited : Bool) : Fields → List GoString
  | .nil => []
  | .leaf name cls rest =>
    (match boundaryPick cls false inherited with
      | (.compare,_) => if t.changed name then [pathOf above name] else []
      | _ => []) ++ walk t above inherited rest
  | .message name cls sub rest =>
    (match boundaryPick cls true inherited with
      | (.descend,within) => walk (t.child name) (pathOf above name) within sub
      | _ => []) ++ walk t above inherited rest

structure Change (V : Type) where
  stored : Option (Config V)
  view : Option (Config V)
  proposed : Option (Config V)

def newTriple (zero : Config V) (ch : Change V) : Option (Triple V) :=
  ch.proposed.map fun proposed => ⟨ch.stored.getD zero,ch.view.getD (ch.stored.getD zero),proposed⟩
section
variable (schema : Fields) (zero : Config V)

def changedBoundary (ch : Change V) : List GoString :=
  ((newTriple zero ch).map fun t => walk t [] false schema).getD []

structure Caller where
  role : Option GoString
  claimsPresent : Bool
  authEnforced : Bool

def Caller.restricted (c : Caller) : Bool := if c.claimsPresent then c.role ≠ some (lit "admin") else c.authEnforced

-- The fields a refusal names.
def authorize (c : Caller) (ch : Change V) : Option (List GoString) :=
  if c.restricted ∧ changedBoundary schema zero ch ≠ [] then some (changedBoundary schema zero ch) else none

-- A leaf with the messages it is inside of, the outermost first.
structure Leaf where
  front : List (GoString × Class)
  name : GoString
  cls : Class

def Leaf.path (l : Leaf) : List GoString := l.front.map Prod.fst ++ [l.name]

def Fields.leaves : Fields → List Leaf
  | .nil => []
  | .leaf name cls rest => ⟨[],name,cls⟩ :: rest.leaves
  | .message name cls sub rest => (sub.leaves.map fun l => {l with front := (name,cls) :: l.front}) ++ rest.leaves

-- What is not operational, inside nothing but sections up to a message that is neither.
def held : List (GoString × Class) → Class → Bool
  | [],cls => cls ≠ .operational
  | (_,.operational) :: _,_ => false
  | (_,.section') :: front,cls => held front cls
  | _,_ => true

def Kept (t : Triple V) (path : List GoString) : Prop := t.proposed path = t.stored path ∨ t.proposed path = t.view path

theorem walk_quiet (t : Triple V) (above : GoString) (inherited : Bool) (fields : Fields) :
    walk t above inherited fields = [] ↔ ∀ l ∈ fields.leaves, inherited ∨ held l.front l.cls → Kept t l.path := by
  induction fields generalizing t above inherited with
  | nil => simp [walk,Fields.leaves]
  | leaf name cls rest ih =>
    rw [walk,append_eq_nil_iff,ih,Fields.leaves,forall_mem_cons]
    refine and_congr_left fun _ => ?_
    have changed : (if t.changed name then [pathOf above name] else []) = [] ↔ Kept t [name] := by
      simp [Triple.changed,Kept,or_iff_not_imp_left]
    cases inherited <;> cases cls <;> simp [boundaryPick,effective,held,Leaf.path,changed]
  | message name cls sub rest subIh restIh =>
    rw [walk,append_eq_nil_iff,restIh,Fields.leaves,forall_mem_append,forall_mem_map]
    refine and_congr_left fun _ => ?_
    have inner := subIh (t.child name) (pathOf above name)
    cases inherited <;> cases cls <;> simp [boundaryPick,effective,held,inner] <;> rfl

theorem authorize_exact (c : Caller) (restricted : c.restricted = true)
    (stored view : Option (Config V)) (proposed : Config V) :
    let before := stored.getD zero
    (authorize schema zero c ⟨stored,view,some proposed⟩ = none ↔
      ∀ l ∈ schema.leaves, held l.front l.cls = true → proposed l.path = before l.path ∨ proposed l.path = view.getD before l.path) ∧
    ∀ other : Config V, (∀ l ∈ schema.leaves, held l.front l.cls = true → other l.path = proposed l.path) →
      authorize schema zero c ⟨stored,view,some proposed⟩ = none → authorize schema zero c ⟨stored,view,some other⟩ = none := by
  have accepts : ∀ p : Config V, authorize schema zero c ⟨stored,view,some p⟩ = none ↔
      ∀ l ∈ schema.leaves, held l.front l.cls = true → Kept ⟨stored.getD zero,view.getD (stored.getD zero),p⟩ l.path := by
    intro p
    have quiet := walk_quiet ⟨stored.getD zero,view.getD (stored.getD zero),p⟩ [] false schema
    simpa [authorize,restricted,changedBoundary,newTriple] using quiet
  refine ⟨accepts proposed,fun other same accepted => (accepts other).mpr fun l member counts => ?_⟩
  have kept := (accepts proposed).mp accepted l member counts
  dsimp only [Kept] at kept ⊢
  rwa [same l member counts]

end

def viewer : Caller := ⟨some (lit "viewer"),true,true⟩
def only (path : List GoString) : Config Nat := fun other => if other = path then 1 else 0

theorem authorize_exact_viewer :
    authorize (.message (lit "log") .section' (.leaf (lit "path") .boundary (.leaf (lit "level") .operational .nil)) .nil) (fun _ => 0)
      viewer ⟨none,none,some (only [lit "log",lit "level"])⟩ = none :=
  (authorize_exact _ _ viewer (by decide) none none _).1.mpr (by decide)

-- A boundary field inside an operational message, a section that is no message, and a message put together from both references.
theorem boundary_missed :
    authorize (.message (lit "m") .operational (.leaf (lit "b") .boundary .nil) .nil) (fun _ => 0) viewer
      ⟨none,none,some (only [lit "m",lit "b"])⟩ = none ∧
    authorize (.leaf (lit "s") .section' .nil) (fun _ => 0) viewer ⟨none,none,some (only [lit "s"])⟩ = some [lit "s"] ∧
    authorize (.message (lit "m") .boundary (.leaf (lit "a") .boundary (.leaf (lit "b") .boundary .nil)) .nil) (fun _ => 0) viewer
      ⟨none,some fun _ => 1,some (only [lit "m",lit "b"])⟩ = none := by
  decide

end Gateon.Authz.GlobalBound
