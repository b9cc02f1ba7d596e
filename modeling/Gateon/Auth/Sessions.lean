import Gateon.Go.Unicode
import Gateon.Lib.Transition

namespace Gateon.Auth
open Go Transition Option Function
open List hiding after

abbrev Text := { s : GoString // s.length < 2 ^ 63 }

def RoleViewer : Text := ⟨lit "viewer",by decide⟩

@[ext] structure AccountState where
  passwordHash : Text
  role : Text
  disabled : Bool
  sessionEpoch : Nat
deriving DecidableEq

-- The first sixteen bytes of SHA-256, as a function without collisions.
structure Digest where
  short : GoString → List UInt8
  filled : ∀ text, short text ≠ []
  collisionFree : ∀ p q, short p = short q → p = q

def Digest.transparent : Digest where
  short text := 0 :: text
  filled _ := cons_ne_nil _ _
  collisionFree _ _ same := (List.cons.inj same).2

def lengthByte (n i : Nat) : UInt8 := (n / 256 ^ i % 256).toUInt8
def writeField (s : GoString) : GoString := (List.range 8).map (lengthByte s.length) ++ s

def bindingText (a : AccountState) : GoString :=
  writeField a.passwordHash ++ (writeField a.role ++ (writeField (lit (if a.disabled then "1" else "0")) ++
    if 0 < a.sessionEpoch then writeField (decimal a.sessionEpoch) else []))

section
variable (d : Digest)

def AccountState.binding (a : AccountState) : GoString := hexEncode (d.short (bindingText a))

inductive AuthError where
  | sessionRevoked
  | accountDisabled
deriving DecidableEq

def effective (a : AccountState) : AccountState := if a.role.val = [] then { a with role := RoleViewer } else a

def rowBinding : Option AccountState → Except AuthError GoString
  | none => .error .sessionRevoked
  | some row => if row.disabled then .error .accountDisabled else .ok ((effective row).binding d)

def liveBinding (row : Option AccountState) : Option GoString := (rowBinding d row).toOption

structure CachedBinding where
  binding : GoString
  expires : Int
deriving DecidableEq

def cacheGet (entry : Option CachedBinding) (now : Int) : Option GoString :=
  match entry with
  | some e => if now < e.expires then some e.binding else none
  | none => none

def cachePut (now ttl : Int) (binding : GoString) : CachedBinding := ⟨binding,now + ttl⟩
def revokeSessions (cache : GoString → Option CachedBinding) (id : GoString) : GoString → Option CachedBinding :=
  if id = [] then cache else Function.update cache id none

-- What ends an account's sessions: one statement, then the cached binding is dropped.
inductive Mutation where
  | endSessions
  | resetTwoFactor
  | setPassword (hash : Text)
  | updateUser (role : Text) (hash : Option Text)
  | setUserDisabled (disabled : Bool)
  | deleteUser

section
variable (m : Mutation) (row : Option AccountState)

def Mutation.apply : Option AccountState :=
  match m with
  | .endSessions => row.map fun a => { a with sessionEpoch := a.sessionEpoch + 1 }
  | .resetTwoFactor => row.map fun a => { a with sessionEpoch := a.sessionEpoch + 1 }
  | .setPassword hash => row.map fun a => { a with passwordHash := hash }
  | .updateUser role hash => row.map fun a => { a with role := role, passwordHash := hash.getD a.passwordHash }
  | .setUserDisabled disabled => row.map fun a => { a with disabled := disabled }
  | .deleteUser => none

-- updateUser and ResetTwoFactor answer before the invalidation when they change no row.
def Mutation.invalidates : Bool :=
  match m with
  | .updateUser .. => row.isSome
  | .resetTwoFactor => row.isSome
  | _ => true

end

def Mutation.hashes : Mutation → List Text
  | .setPassword hash => [hash]
  | .updateUser _ (some hash) => [hash]
  | _ => []

def Mutation.cuts : Mutation → Bool
  | .endSessions | .resetTwoFactor | .setPassword _ | .updateUser _ (some _) | .deleteUser => true
  | .updateUser _ none | .setUserDisabled _ => false

theorem digits_mod (same : ∀ i < k, m / 256 ^ i % 256 = n / 256 ^ i % 256) : m % 256 ^ k = n % 256 ^ k := by
  induction k with
  | zero => simp [Nat.mod_one]
  | succ k ih =>
    rw [Nat.pow_succ,Nat.mod_mul,Nat.mod_mul,ih fun i inside => same i (Nat.lt_succ_of_lt inside),same k (Nat.lt_succ_self k)]

theorem lengthByte_injective (m n : Nat) (smallM : m < 2 ^ 63) (smallN : n < 2 ^ 63)
    (same : (List.range 8).map (lengthByte m) = (List.range 8).map (lengthByte n)) : m = n := by
  have digits : m % 256 ^ 8 = n % 256 ^ 8 := by
    refine digits_mod fun i inside => ?_
    have here := map_inj_left.mp same i (mem_range.mpr inside)
    simpa [lengthByte] using congrArg UInt8.toNat here
  rwa [Nat.mod_eq_of_lt (by omega),Nat.mod_eq_of_lt (by omega)] at digits

theorem writeField_inj (fitsA : a.length < 2 ^ 63) (fitsB : b.length < 2 ^ 63)
    (same : writeField a ++ x = writeField b ++ y) : a = b ∧ x = y := by
  unfold writeField at same
  rw [append_assoc,append_assoc] at same
  obtain ⟨lengths,rest⟩ := append_inj same (by simp)
  exact append_inj rest (lengthByte_injective _ _ fitsA fitsB lengths)

theorem flag_injective : ∀ a b : Bool, lit (if a then "1" else "0") = lit (if b then "1" else "0") → a = b := by decide

theorem epoch_injective (same : (if 0 < m then writeField (decimal m) else []) = if 0 < n then writeField (decimal n) else []) :
    m = n := by
  have filled (k : Nat) : writeField (decimal k) ≠ [] := by
    intro empty
    have length := congrArg List.length empty
    simp [writeField] at length
  split at same <;> split at same
  · exact decimal_injective (append_inj same (by simp)).2
  · exact absurd same (filled m)
  · exact absurd same.symm (filled n)
  · omega

theorem bindingText_injective (same : bindingText a = bindingText b) : a = b := by
  have flagFits (c : Bool) : (lit (if c then "1" else "0")).length < 2 ^ 63 := by cases c <;> decide
  obtain ⟨hashes,afterHash⟩ := writeField_inj a.passwordHash.property b.passwordHash.property same
  obtain ⟨roles,afterRole⟩ := writeField_inj a.role.property b.role.property afterHash
  obtain ⟨flags,epochs⟩ := writeField_inj (flagFits _) (flagFits _) afterRole
  have disabled := flag_injective _ _ flags
  have epoch := epoch_injective epochs
  exact AccountState.ext (Subtype.ext hashes) (Subtype.ext roles) disabled epoch

theorem binding_injective (same : AccountState.binding d a = AccountState.binding d b) : a = b :=
  bindingText_injective (d.collisionFree _ _ (hexEncode_injective same))

theorem binding_filled (a : AccountState) : a.binding d ≠ [] := by
  intro empty
  exact d.filled (bindingText a) (hexEncode_injective (empty.trans rfl))

end

@[simp] theorem effective_disabled (a : AccountState) : (effective a).disabled = a.disabled := by
  unfold effective
  split <;> rfl

@[simp] theorem effective_hash (a : AccountState) : (effective a).passwordHash = a.passwordHash := by
  unfold effective
  split <;> rfl

@[simp] theorem effective_epoch (a : AccountState) : (effective a).sessionEpoch = a.sessionEpoch := by
  unfold effective
  split <;> rfl

theorem liveBinding_some : liveBinding d row = some b ↔
    ∃ a, row = some a ∧ a.disabled = false ∧ b = (effective a).binding d := by
  cases row with
  | none => simp [liveBinding,rowBinding,Except.toOption]
  | some a =>
    cases off : a.disabled
    · simp only [liveBinding,rowBinding,off,Except.toOption,Bool.false_eq_true,↓reduceIte,Option.some.injEq,exists_eq_left',
        true_and]
      exact eq_comm
    · simp [liveBinding,rowBinding,off,Except.toOption]

theorem cacheGet_entry (hit : cacheGet entry now = some b) : ∃ e, entry = some e ∧ e.binding = b := by
  unfold cacheGet at hit
  split at hit
  · rename_i e
    split at hit
    · exact ⟨e,rfl,Option.some.inj hit⟩
    · cases hit
  · cases hit

section
variable (m : Mutation)

@[simp] theorem apply_none : m.apply none = none := by
  cases m <;> rfl

theorem apply_parts (applied : m.apply row = some b) :
    ∃ a, row = some a ∧ (b.passwordHash = a.passwordHash ∨ b.passwordHash ∈ m.hashes) ∧
      a.sessionEpoch ≤ b.sessionEpoch ∧
      (m.cuts = true → b.passwordHash ∈ m.hashes ∨ a.sessionEpoch < b.sessionEpoch) := by
  cases row with
  | none => simp at applied
  | some a =>
    refine ⟨a,rfl,?_⟩
    cases m with
    | endSessions | resetTwoFactor => cases applied; simp [Mutation.cuts]
    | setPassword hash => cases applied; simp [Mutation.hashes]
    | updateUser role hash =>
      cases applied
      cases hash with
      | none => simp [Mutation.cuts]
      | some hash => simp [Mutation.hashes]
    | setUserDisabled disabled => cases applied; simp [Mutation.cuts]
    | deleteUser => cases applied

theorem apply_uncut (kept : m.cuts = false) (a : AccountState) :
    ∃ b, m.apply (some a) = some b ∧ b.passwordHash = a.passwordHash ∧ b.sessionEpoch = a.sessionEpoch := by
  cases m with
  | updateUser role hash =>
    cases hash with
    | none => exact ⟨_,rfl,rfl,rfl⟩
    | some hash => cases kept
  | setUserDisabled disabled => exact ⟨_,rfl,rfl,rfl⟩
  | endSessions | resetTwoFactor | setPassword hash | deleteUser => cases kept

end

-- Barred: the binding it presents had ended before it started.
structure Reader where
  id : GoString
  presented : Option GoString
  barred : Bool
  fetched : Option GoString

structure Writer where
  id : GoString
  old : Option GoString

structure Answer where
  id : GoString
  presented : GoString
  barred : Bool
  accepted : Bool
deriving DecidableEq

structure Node where
  rows : GoString → Option AccountState
  cache : GoString → Option CachedBinding
  now : Int
  readers : List Reader
  writers : List Writer
  ended : List (GoString × GoString)
  answers : List Answer

inductive NodeEvent where
  | tick (elapsed : Nat)
  | verify (id presented : GoString)
  | issue (id : GoString)
  | read (i : Nat)
  | put (i : Nat)
  | insertUser (id : GoString) (hash role : Text)
  | write (id : GoString) (m : Mutation)
  | invalidate (i : Nat)

section
variable (d : Digest)

def stateBinding (row : Option AccountState) : Option GoString := row.map fun a => (effective a).binding d
def taken (before after : Option AccountState) : Option GoString :=
  if stateBinding d after = stateBinding d before then none else stateBinding d before

def Reader.answer (r : Reader) (current : Option GoString) : List Answer :=
  match r.presented with
  | some presented => [⟨r.id,presented,r.barred,decide (current = some presented)⟩]
  | none => []

def lookup (s : Node) (r : Reader) : Node :=
  match cacheGet (s.cache r.id) s.now with
  | some b => { s with answers := r.answer (some b) ++ s.answers }
  | none => { s with readers := r :: s.readers }

def verify (s : Node) (id presented : GoString) : Node :=
  let barred := decide ((id,presented) ∈ s.ended)
  if id = [] ∨ presented = [] then { s with answers := ⟨id,presented,barred,false⟩ :: s.answers }
  else lookup s ⟨id,some presented,barred,none⟩

def readRow (s : Node) (i : Nat) (r : Reader) : Node :=
  match rowBinding d (s.rows r.id) with
  | .error _ => { s with readers := s.readers.eraseIdx i, answers := r.answer none ++ s.answers }
  | .ok b => { s with readers := s.readers.set i { r with fetched := some b } }

def putBinding (ttl : Int) (s : Node) (i : Nat) (r : Reader) (b : GoString) : Node :=
  { s with
    cache := update s.cache r.id (some (cachePut s.now ttl b))
    readers := s.readers.eraseIdx i
    answers := r.answer (some b) ++ s.answers }

def writeRow (s : Node) (id : GoString) (m : Mutation) : Node :=
  { s with
    rows := update s.rows id (m.apply (s.rows id))
    writers := if m.invalidates (s.rows id) then ⟨id,taken d (s.rows id) (m.apply (s.rows id))⟩ :: s.writers else s.writers }

def invalidate (s : Node) (i : Nat) (w : Writer) : Node :=
  { s with
    cache := revokeSessions s.cache w.id
    writers := s.writers.eraseIdx i
    ended := w.old.toList.map (fun b => (w.id,b)) ++ s.ended }

def nodeStep (ttl : Int) (s : Node) : NodeEvent → Option Node
  | .tick elapsed => some { s with now := s.now + elapsed }
  | .verify id presented => some (verify s id presented)
  | .issue id => some (lookup s ⟨id,none,false,none⟩)
  | .read i => match s.readers[i]? with
    | some r => if r.fetched = none then some (readRow d s i r) else none
    | none => none
  | .put i => match s.readers[i]? with
    | some r => r.fetched.map (putBinding ttl s i r)
    | none => none
  | .insertUser id hash role =>
    if id ≠ [] ∧ s.rows id = none then some { s with rows := update s.rows id (some ⟨hash,role,false,0⟩) } else none
  | .write id m => some (writeRow d s id m)
  | .invalidate i => s.writers[i]?.map (invalidate s i)

def emptyNode : Node := ⟨fun _ => none,fun _ => none,0,[],[],[],[]⟩
def Lost (s : Node) (id b : GoString) : Prop := (id,b) ∈ s.ended ∨ ∃ w ∈ s.writers, w.id = id ∧ w.old = some b
def Gone (s : Node) (id : GoString) (row : Option AccountState) : Prop :=
  ∀ b ∈ liveBinding d row, ¬Lost s id b

-- Nothing ended is cached, and no write gives back a binding that was lost.
def Guarded (s : Node) : NodeEvent → Prop
  | .put i => ∀ r ∈ s.readers[i]?, ∀ b ∈ r.fetched, (r.id,b) ∉ s.ended
  | .insertUser id hash role => Gone d s id (some ⟨hash,role,false,0⟩)
  | .write id m => Gone d s id (m.apply (s.rows id))
  | _ => True

end

section
variable {id key : GoString} {m : Mutation}

structure Refusing (d : Digest) (s : Node) : Prop where
  rows : ∀ id b, Lost s id b → liveBinding d (s.rows id) ≠ some b
  cached : ∀ id b e, id ≠ [] → (id,b) ∈ s.ended → s.cache id = some e → e.binding ≠ b
  readers : ∀ r ∈ s.readers, r.barred → ∃ p, r.presented = some p ∧ (r.id,p) ∈ s.ended ∧ r.fetched ≠ some p
  answers : ∀ a ∈ s.answers, a.barred → a.accepted = false

theorem emptyNode_refusing (d : Digest) : Refusing d emptyNode where
  rows := by
    intro id b lost
    simp [Lost,emptyNode] at lost
  cached := by simp [emptyNode]
  readers := by simp [emptyNode]
  answers := by simp [emptyNode]

theorem liveBinding_state (live : liveBinding d row = some b) : stateBinding d row = some b := by
  obtain ⟨a,found,_,bound⟩ := liveBinding_some.mp live
  simp [stateBinding,found,bound]

theorem taken_apart (took : taken d before after = some b) : liveBinding d after ≠ some b := by
  intro live
  unfold taken at took
  split at took
  · cases took
  · rename_i changed; exact changed ((liveBinding_state live).trans took.symm)

theorem answer_refused (r : Reader) (differs : r.barred → ∃ p, r.presented = some p ∧ current ≠ some p) :
    ∀ a ∈ r.answer current, a.barred → a.accepted = false := by
  intro a member barred
  unfold Reader.answer at member
  split at member
  · rename_i presented shown
    cases mem_singleton.mp member
    obtain ⟨p,same,apart⟩ := differs barred
    cases shown.symm.trans same
    simpa using apart
  · cases member

theorem answers_append (r : Reader) (refusing : Refusing d s) (differs : r.barred → ∃ p, r.presented = some p ∧ current ≠ some p) :
    ∀ a ∈ r.answer current ++ s.answers, a.barred → a.accepted = false :=
  forall_mem_append.mpr ⟨answer_refused r differs,refusing.answers⟩

section
variable (refusing : Refusing d s)
include refusing

theorem lookup_preserves (r : Reader) (started : r.barred → ∃ p, r.presented = some p ∧ r.id ≠ [] ∧ (r.id,p) ∈ s.ended)
    (unread : r.fetched = none) : Refusing d (lookup s r) := by
  unfold lookup
  split
  · rename_i b hit
    refine {refusing with answers := answers_append r refusing ?_}
    intro barred
    obtain ⟨p,shown,named,ended⟩ := started barred
    obtain ⟨e,entry,bound⟩ := cacheGet_entry hit
    refine ⟨p,shown,?_⟩
    intro same
    exact refusing.cached r.id p e named ended entry (bound.trans (some.inj same))
  · refine {refusing with readers := ?_}
    intro other member barred
    rcases mem_cons.mp member with rfl | earlier
    · obtain ⟨p,shown,_,ended⟩ := started barred; exact ⟨p,shown,ended,by simp [unread]⟩
    · exact refusing.readers other earlier barred

theorem verify_preserves (id presented : GoString) : Refusing d (verify s id presented) := by
  unfold verify
  simp only
  split
  · refine {refusing with answers := ?_}
    intro a member barred
    rcases mem_cons.mp member with rfl | earlier
    · rfl
    · exact refusing.answers a earlier barred
  · rename_i usable
    refine lookup_preserves refusing _ ?_ rfl
    intro barred
    exact ⟨presented,rfl,fun empty => usable (.inl empty),of_decide_eq_true barred⟩

theorem readRow_preserves (found : s.readers[i]? = some r) : Refusing d (readRow d s i r) := by
  have known := refusing.readers r (mem_of_getElem? found)
  unfold readRow
  split
  · refine ⟨refusing.rows,refusing.cached,?_,answers_append r refusing ?_⟩
    · intro other member; exact refusing.readers other (mem_of_mem_eraseIdx member)
    · intro barred
      obtain ⟨p,shown,_⟩ := known barred
      exact ⟨p,shown,by simp⟩
  rename_i b answered
  refine {refusing with readers := ?_}
  intro other member barred
  rcases mem_or_eq_of_mem_set member with earlier | rfl
  · exact refusing.readers other earlier barred
  obtain ⟨p,shown,ended,_⟩ := known barred
  refine ⟨p,shown,ended,?_⟩
  intro same
  refine refusing.rows r.id p (.inl ended) ?_
  simp [liveBinding,answered,Except.toOption,some.inj same]

theorem putBinding_preserves (found : s.readers[i]? = some r) (fetched : r.fetched = some b)
    (current : (r.id,b) ∉ s.ended) : Refusing d (putBinding ttl s i r b) := by
  refine ⟨refusing.rows,?_,?_,answers_append r refusing ?_⟩
  · intro key p e named ended entry
    by_cases same : key = r.id
    · subst key
      simp only [putBinding,update_self,some.injEq] at entry
      subst entry
      intro bound
      change b = p at bound
      exact current (bound ▸ ended)
    · simp only [putBinding,update_of_ne same] at entry
      exact refusing.cached key p e named ended entry
  · intro other member; exact refusing.readers other (mem_of_mem_eraseIdx member)
  · intro barred
    obtain ⟨p,shown,_,apart⟩ := refusing.readers r (mem_of_getElem? found) barred
    exact ⟨p,shown,fetched ▸ apart⟩

theorem row_update (gone : Gone d s id row) (lost : Lost s key b) : liveBinding d (update s.rows id row key) ≠ some b := by
  by_cases same : key = id
  · subst key
    rw [update_self]
    intro live
    exact gone b live lost
  · rw [update_of_ne same]; exact refusing.rows key b lost

theorem writeRow_preserves (gone : Gone d s id (m.apply (s.rows id))) : Refusing d (writeRow d s id m) := by
  refine {refusing with rows := ?_}
  intro key b lost
  have split : Lost s key b ∨ key = id ∧ taken d (s.rows id) (m.apply (s.rows id)) = some b := by
    rcases lost with ended | ⟨w,member,owner,old⟩
    · exact .inl (.inl ended)
    simp only [writeRow] at member
    split at member
    · rcases mem_cons.mp member with rfl | earlier
      · exact .inr ⟨owner.symm,old⟩
      · exact .inl (.inr ⟨w,earlier,owner,old⟩)
    · exact .inl (.inr ⟨w,member,owner,old⟩)
  rcases split with before | ⟨rfl,took⟩
  · exact row_update refusing gone before
  · simp only [writeRow,update_self]; exact taken_apart took

end

theorem invalidate_lost (found : s.writers[i]? = some w) (lost : Lost (invalidate s i w) key b) : Lost s key b := by
  rcases lost with ended | ⟨other,member,facts⟩
  · rcases mem_append.mp ended with new | earlier
    · obtain ⟨old,took,same⟩ := mem_map.mp new
      cases same
      exact .inr ⟨w,mem_of_getElem? found,rfl,mem_toList.mp took⟩
    · exact .inl earlier
  · exact .inr ⟨other,mem_of_mem_eraseIdx member,facts⟩

theorem invalidate_preserves (refusing : Refusing d s) (found : s.writers[i]? = some w) : Refusing d (invalidate s i w) := by
  refine ⟨?_,?_,?_,refusing.answers⟩
  · intro key b lost; exact refusing.rows key b (invalidate_lost found lost)
  · intro key b e named ended entry
    by_cases same : key = w.id
    · -- the entry of the account has just been dropped
      subst key
      simp [invalidate,revokeSessions,named] at entry
    have kept : s.cache key = some e := by
      simp only [invalidate,revokeSessions] at entry
      split at entry
      · exact entry
      · rwa [update_of_ne same] at entry
    rcases mem_append.mp ended with new | earlier
    · obtain ⟨old,_,owner⟩ := mem_map.mp new
      cases owner
      exact absurd rfl same
    · exact refusing.cached key b e named earlier kept
  · intro r member barred
    obtain ⟨p,shown,ended,apart⟩ := refusing.readers r member barred
    exact ⟨p,shown,mem_append_right _ ended,apart⟩

theorem read_parts {next} (ran : nodeStep d ttl s (.read i) = some next) : ∃ r, s.readers[i]? = some r ∧ next = readRow d s i r := by
  simp only [nodeStep] at ran
  split at ran
  · rename_i r found
    split at ran
    · cases ran; exact ⟨r,found,rfl⟩
    · cases ran
  · cases ran

theorem put_parts {next} (ran : nodeStep d ttl s (.put i) = some next) :
    ∃ r b, s.readers[i]? = some r ∧ r.fetched = some b ∧ next = putBinding ttl s i r b := by
  simp only [nodeStep] at ran
  split at ran
  · rename_i r found
    obtain ⟨b,fetched,rfl⟩ := map_eq_some_iff.mp ran
    exact ⟨r,b,found,fetched,rfl⟩
  · cases ran

theorem insertUser_parts {next} {hash role : Text} (ran : nodeStep d ttl s (.insertUser id hash role) = some next) :
    id ≠ [] ∧ next = { s with rows := update s.rows id (some ⟨hash,role,false,0⟩) } := by
  obtain ⟨ready,⟨⟩⟩ := ite_none_right_eq_some.mp ran
  exact ⟨ready.1,rfl⟩

theorem nodeStep_preserves {next} (refusing : Refusing d s) (guarded : Guarded d s event) (ran : nodeStep d ttl s event = some next) :
    Refusing d next := by
  cases event with
  | tick elapsed => cases ran; exact {refusing with}
  | verify id presented => cases ran; exact verify_preserves refusing id presented
  | issue id =>
    cases ran
    refine lookup_preserves refusing _ ?_ rfl
    intro barred
    cases barred
  | read i => obtain ⟨r,found,rfl⟩ := read_parts ran; exact readRow_preserves refusing found
  | put i =>
    obtain ⟨r,b,found,fetched,rfl⟩ := put_parts ran
    exact putBinding_preserves refusing found fetched (guarded r found b fetched)
  | insertUser id hash role =>
    obtain ⟨_,rfl⟩ := insertUser_parts ran
    exact {refusing with rows := fun key b lost => row_update refusing guarded lost}
  | write id m => cases ran; exact writeRow_preserves refusing guarded
  | invalidate i =>
    obtain ⟨w,found,rfl⟩ := map_eq_some_iff.mp ran
    exact invalidate_preserves refusing found

theorem reached_refusing (path : Reached (nodeStep d ttl) (Guarded d) emptyNode s) : Refusing d s :=
  reached_invariant (Refusing d) (emptyNode_refusing d) nodeStep_preserves path

theorem returned_mutation_refused (path : Reached (nodeStep d ttl) (Guarded d) emptyNode s) (member : a ∈ s.answers)
    (barred : a.barred = true) : a.accepted = false :=
  (reached_refusing path).answers a member barred

instance (s : Node) (id b : GoString) : Decidable (Lost s id b) := inferInstanceAs (Decidable (_ ∨ _))
instance (d : Digest) (s : Node) (id : GoString) (row : Option AccountState) : Decidable (Gone d s id row) :=
  inferInstanceAs (Decidable (∀ b ∈ liveBinding d row, ¬Lost s id b))

instance (d : Digest) (s : Node) (event : NodeEvent) : Decidable (Guarded d s event) := by
  unfold Guarded
  split <;> infer_instance

def accountHash : Text := ⟨lit "hash",by decide⟩
def signedIn : GoString := AccountState.binding .transparent ⟨accountHash,RoleViewer,false,0⟩

def apart : List NodeEvent :=
  [.insertUser (lit "u") accountHash RoleViewer,.verify (lit "u") signedIn,.read 0,.put 0,
    .write (lit "u") .endSessions,.invalidate 0,.verify (lit "u") signedIn,.read 0,.put 0]

theorem returned_mutation_refused_apart : ∃ s a,
    runAllowed (nodeStep .transparent 30) (Guarded .transparent) emptyNode apart = some s ∧
    a ∈ s.answers ∧ a.barred = true ∧ a.accepted = false := by
  have first : (runAllowed (nodeStep .transparent 30) (Guarded .transparent) emptyNode apart).bind
      (fun s => s.answers.head?.map (·.barred)) = some true := by
    decide +kernel
  obtain ⟨s,ran,newest⟩ := bind_eq_some_iff.mp first
  obtain ⟨a,head,barred⟩ := map_eq_some_iff.mp newest
  have member := mem_of_mem_head? head
  exact ⟨s,a,ran,member,barred,returned_mutation_refused (runAllowed_reached ran) member barred⟩

def overtaken : List NodeEvent :=
  [.insertUser (lit "u") accountHash RoleViewer,.verify (lit "u") signedIn,.read 0,
    .write (lit "u") .endSessions,.invalidate 0,.put 0,.verify (lit "u") signedIn]

theorem stale_put_revives_session : (run (nodeStep .transparent 30) emptyNode overtaken).map Node.answers =
      some [⟨lit "u",signedIn,true,true⟩,⟨lit "u",signedIn,false,true⟩] := by
  decide +kernel

end

-- `changed` since it was issued, and `cut` by a new password, sign-out or deletion.
structure Minted where
  id : GoString
  binding : GoString
  account : AccountState
  ended : Bool
  cut : Bool

structure History where
  rows : GoString → Option AccountState
  cache : GoString → Option CachedBinding
  now : Int
  used : List Text
  minted : List Minted

section
variable (d : Digest) (ttl : Int)

variable (s : History)

def currentBinding (id : GoString) : Except AuthError GoString × History :=
  match cacheGet (s.cache id) s.now with
  | some b => (.ok b,s)
  | none => match rowBinding d (s.rows id) with
    | .error e => (.error e,s)
    | .ok b => (.ok b,{ s with cache := update s.cache id (some (cachePut s.now ttl b)) })

def checkSessionBinding (id presented : GoString) : Except AuthError Unit × History :=
  if id = [] ∨ presented = [] then (.error .sessionRevoked,s) else
  match currentBinding d ttl s id with
  | (.error .accountDisabled,s) => (.error .sessionRevoked,s)
  | (.error e,s) => (.error e,s)
  | (.ok current,s) => if current = presented then (.ok (),s) else (.error .sessionRevoked,s)

inductive Op where
  | tick (elapsed : Nat)
  | create (id : GoString) (hash role : Text)
  | issueToken (id : GoString)
  | check (id presented : GoString)
  | mutate (id : GoString) (m : Mutation)

section
variable (id : GoString)

def Minted.after (m : Mutation) (row : Option AccountState) (t : Minted) : Minted :=
  if t.id = id then
    { t with ended := t.ended || decide ((m.apply row).map effective ≠ row.map effective), cut := t.cut || m.cuts }
  else t

def mutate (m : Mutation) : History :=
  { s with
    rows := update s.rows id (m.apply (s.rows id))
    cache := if m.invalidates (s.rows id) then revokeSessions s.cache id else s.cache
    used := m.hashes ++ s.used
    minted := s.minted.map (Minted.after id m (s.rows id)) }

def issueToken : History :=
  match (currentBinding d ttl s id).1,s.rows id with
  | .ok b,some a => { (currentBinding d ttl s id).2 with minted := ⟨id,b,effective a,false,false⟩ :: s.minted }
  | _,_ => (currentBinding d ttl s id).2

def insertUser (hash role : Text) : History :=
  { s with rows := update s.rows id (some ⟨hash,role,false,0⟩), used := hash :: s.used }

end

-- Every hash has its own salt: one that was written before is not made again.
def opStep : Op → Option History
  | .tick elapsed => some { s with now := s.now + elapsed }
  | .create id hash role =>
    if id ≠ [] ∧ s.rows id = none ∧ hash ∉ s.used then some (insertUser s id hash role) else none
  | .issueToken id => some (issueToken d ttl s id)
  | .check id presented => some (checkSessionBinding d ttl s id presented).2
  | .mutate id m => if ∀ hash ∈ m.hashes, hash ∉ s.used then some (mutate s id m) else none

end

variable {id key : GoString} {hash role : Text} {m : Mutation}

def noAccounts : History := ⟨fun _ => none,fun _ => none,0,[],[]⟩

structure TokenValid (d : Digest) (s : History) (t : Minted) : Prop where
  bound : t.binding = t.account.binding d
  enabled : t.account.disabled = false
  used : t.account.passwordHash ∈ s.used
  epochs : ∀ a, s.rows t.id = some a → a.passwordHash = t.account.passwordHash →
    t.account.sessionEpoch ≤ a.sessionEpoch ∧ (t.cut → t.account.sessionEpoch < a.sessionEpoch)
  whole : t.cut = false → ∃ a, s.rows t.id = some a ∧ a.passwordHash = t.account.passwordHash ∧
    a.sessionEpoch = t.account.sessionEpoch
  standing : t.ended = false → (s.rows t.id).map effective = some t.account
  named : t.id ≠ []

structure HistoryValid (d : Digest) (s : History) : Prop where
  unnamed : s.rows [] = none
  coherent : ∀ id e, s.cache id = some e → liveBinding d (s.rows id) = some e.binding
  known : ∀ id a, s.rows id = some a → a.passwordHash ∈ s.used
  tokens : ∀ t ∈ s.minted, TokenValid d s t

theorem noAccounts_valid (d : Digest) : HistoryValid d noAccounts where
  unnamed := rfl
  coherent := by simp [noAccounts]
  known := by simp [noAccounts]
  tokens := by simp [noAccounts]

theorem currentBinding_row (ttl : Int) (valid : HistoryValid d s) (id : GoString) :
    (currentBinding d ttl s id).1 = rowBinding d (s.rows id) := by
  unfold currentBinding
  cases hit : cacheGet (s.cache id) s.now with
  | none => cases row : rowBinding d (s.rows id) <;> rfl
  | some b =>
    obtain ⟨e,entry,bound⟩ := cacheGet_entry hit
    have live := valid.coherent id e entry
    cases row : rowBinding d (s.rows id) with
    | error refused => simp [liveBinding,row,Except.toOption] at live
    | ok c => simp only [liveBinding,row,Except.toOption,Option.some.injEq] at live; rw [live,bound]

theorem cache_preserves (valid : HistoryValid d s) (coherent : ∀ id e, cache id = some e → liveBinding d (s.rows id) = some e.binding) :
    HistoryValid d { s with cache := cache } :=
  {valid with coherent := coherent,tokens := fun t member => {valid.tokens t member with}}

theorem currentBinding_frame (d : Digest) (ttl : Int) (s : History) (id : GoString) :
    ∃ cache, (currentBinding d ttl s id).2 = { s with cache := cache } := by
  unfold currentBinding
  cases cacheGet (s.cache id) s.now with
  | some b => exact ⟨s.cache,rfl⟩
  | none => cases rowBinding d (s.rows id) <;> exact ⟨_,rfl⟩

section
variable (ttl : Int) (valid : HistoryValid d s)
include ttl valid

theorem currentBinding_preserves (id : GoString) : HistoryValid d (currentBinding d ttl s id).2 := by
  unfold currentBinding
  cases cacheGet (s.cache id) s.now with
  | some b => exact valid
  | none =>
    cases row : rowBinding d (s.rows id) with
    | error e => exact valid
    | ok b =>
      refine cache_preserves valid ?_
      intro other e entry
      by_cases same : other = id
      · subst other
        rw [update_self] at entry
        cases entry
        simp [liveBinding,row,Except.toOption,cachePut]
      · rw [update_of_ne same] at entry; exact valid.coherent other e entry

theorem check_preserves (id presented : GoString) : HistoryValid d (checkSessionBinding d ttl s id presented).2 := by
  have looked := currentBinding_preserves ttl valid id
  unfold checkSessionBinding
  split
  · exact valid
  split
  · rename_i found; simpa [found] using looked
  · rename_i found; simpa [found] using looked
  · rename_i found; split <;> simpa [found] using looked

theorem issueToken_preserves (id : GoString) : HistoryValid d (issueToken d ttl s id) := by
  have looked := currentBinding_preserves ttl valid id
  obtain ⟨cache,after⟩ := currentBinding_frame d ttl s id
  unfold issueToken
  rw [currentBinding_row ttl valid id]
  split
  · rename_i b a answered row
    rw [after] at looked ⊢
    refine {looked with tokens := ?_}
    intro t member
    rcases mem_cons.mp member with rfl | earlier
    · have live : liveBinding d (s.rows id) = some b := by simp [liveBinding,answered,Except.toOption]
      obtain ⟨found,same,enabled,bound⟩ := liveBinding_some.mp live
      cases row.symm.trans same
      refine ⟨bound,by simpa using enabled,?_,?_,?_,?_,?_⟩
      · simpa using valid.known id a row
      · intro other present _
        cases row.symm.trans present
        simp
      · intro _; exact ⟨a,row,by simp,by simp⟩
      · intro _; simp [row]
      intro empty
      subst empty
      rw [valid.unnamed] at row
      cases row
    · exact {looked.tokens t earlier with}
  · exact looked

end

theorem insertUser_self : (insertUser s id hash role).rows id = some ⟨hash,role,false,0⟩ := update_self ..
theorem insertUser_other (other : key ≠ id) : (insertUser s id hash role).rows key = s.rows key :=
  update_of_ne other ..

theorem vacant_other {s : History} (vacant : s.rows id = none) (row : s.rows key = some a) : key ≠ id := by
  intro same
  rw [same,vacant] at row
  cases row

theorem insertUser_token (vacant : s.rows id = none) (fresh : hash ∉ s.used) (old : TokenValid d s t) :
    TokenValid d (insertUser s id hash role) t := by
  refine ⟨old.bound,old.enabled,mem_cons_of_mem _ old.used,?_,?_,?_,old.named⟩
  · intro a row kept
    by_cases same : t.id = id
    · rw [same,insertUser_self] at row
      cases row
      have stale : hash ∈ s.used := by change hash = t.account.passwordHash at kept; exact kept ▸ old.used
      exact absurd stale fresh
    · rw [insertUser_other same] at row; exact old.epochs a row kept
  · intro whole
    obtain ⟨a,row,facts⟩ := old.whole whole
    exact ⟨a,(insertUser_other (vacant_other vacant row)).trans row,facts⟩
  · intro standing
    obtain ⟨a,row,_⟩ := map_eq_some_iff.mp (old.standing standing)
    rw [insertUser_other (vacant_other vacant row)]
    exact old.standing standing

theorem insertUser_preserves (valid : HistoryValid d s) (named : id ≠ []) (vacant : s.rows id = none) (fresh : hash ∉ s.used) :
    HistoryValid d (insertUser s id hash role) where
  unnamed := (insertUser_other (Ne.symm named)).trans valid.unnamed
  coherent := by
    intro key e entry
    have live := valid.coherent key e entry
    by_cases same : key = id
    · subst key
      rw [vacant] at live
      cases live
    · rw [insertUser_other same]; exact live
  known := by
    intro key a row
    by_cases same : key = id
    · subst key
      rw [insertUser_self] at row
      cases row
      exact mem_cons_self
    · rw [insertUser_other same] at row; exact mem_cons_of_mem _ (valid.known key a row)
  tokens t member := insertUser_token vacant fresh (valid.tokens t member)

theorem mutate_coherent (valid : HistoryValid d s) (id : GoString) (m : Mutation) :
    ∀ other e, (mutate s id m).cache other = some e → liveBinding d ((mutate s id m).rows other) = some e.binding := by
  intro other e entry
  have kept : s.cache other = some e := by
    simp only [mutate] at entry
    split at entry
    · unfold revokeSessions at entry
      split at entry
      · exact entry
      · rw [update_apply] at entry; exact (ite_none_left_eq_some.mp entry).2
    · exact entry
  by_cases same : other = id
  · subst other
    have row : s.rows id = none := by
      by_cases empty : id = []
      · subst empty; exact valid.unnamed
      cases row : s.rows id with
      | none => rfl
      | some a =>
        have drops : m.invalidates (s.rows id) := by rw [row]; cases m <;> rfl
        simp [mutate,drops,revokeSessions,empty] at entry
    have live := valid.coherent id e kept
    rw [row] at live
    cases live
  · simpa [mutate,same] using valid.coherent other e kept

theorem mutate_token (fresh : ∀ hash ∈ m.hashes, hash ∉ s.used) (old : TokenValid d s t) :
    TokenValid d (mutate s id m) (t.after id m (s.rows id)) := by
  by_cases same : t.id = id
  · subst same
    refine ⟨?_,?_,?_,?_,?_,?_,?_⟩ <;> simp only [Minted.after,↓reduceIte,mutate,update_self]
    · exact old.bound
    · exact old.enabled
    · exact mem_append_right _ old.used
    · intro b applied kept
      obtain ⟨a,row,hash,grows,cuts⟩ := apply_parts m applied
      have unwritten : b.passwordHash ∉ m.hashes := fun written => fresh _ written (kept ▸ old.used)
      obtain ⟨least,cut⟩ := old.epochs a row ((hash.resolve_right unwritten).symm.trans kept)
      refine ⟨least.trans grows,?_⟩
      intro either
      rcases Bool.or_eq_true_iff.mp either with before | now
      · exact Nat.lt_of_lt_of_le (cut before) grows
      · exact least.trans_lt ((cuts now).resolve_left unwritten)
    · intro whole
      obtain ⟨before,now⟩ := Bool.or_eq_false_iff.mp whole
      obtain ⟨a,row,hash,epoch⟩ := old.whole before
      obtain ⟨b,applied,sameHash,sameEpoch⟩ := apply_uncut m now a
      exact ⟨b,row ▸ applied,sameHash.trans hash,sameEpoch.trans epoch⟩
    · intro standing
      obtain ⟨before,now⟩ := Bool.or_eq_false_iff.mp standing
      exact (not_not.mp (of_decide_eq_false now)).trans (old.standing before)
    · exact old.named
  · simp only [Minted.after,same,↓reduceIte]
    refine ⟨old.bound,old.enabled,mem_append_right _ old.used,?_,?_,?_,old.named⟩ <;>
      simp only [mutate,update_of_ne same]
    · exact old.epochs
    · exact old.whole
    · exact old.standing

theorem mutate_preserves (valid : HistoryValid d s) (fresh : ∀ hash ∈ m.hashes, hash ∉ s.used) :
    HistoryValid d (mutate s id m) where
  unnamed := by
    by_cases same : [] = id
    · subst same; simp [mutate,valid.unnamed]
    · simpa [mutate,same] using valid.unnamed
  coherent := mutate_coherent valid id m
  known := by
    intro other b row
    by_cases same : other = id
    · subst other
      simp only [mutate,update_self] at row
      obtain ⟨a,found,hash,_⟩ := apply_parts m row
      rcases hash with kept | written
      · exact mem_append_right _ (kept ▸ valid.known id a found)
      · exact mem_append_left _ written
    · simp only [mutate,update_of_ne same] at row
      exact mem_append_right _ (valid.known other b row)
  tokens := forall_mem_map.mpr fun before earlier => mutate_token fresh (valid.tokens before earlier)

theorem opStep_preserves {next} (valid : HistoryValid d s) (ran : opStep d ttl s op = some next) : HistoryValid d next := by
  cases op with
  | tick elapsed =>
    cases ran
    exact {valid with tokens := fun t member => {valid.tokens t member with}}
  | create id hash role =>
    obtain ⟨ready,⟨⟩⟩ := ite_none_right_eq_some.mp ran
    exact insertUser_preserves valid ready.1 ready.2.1 ready.2.2
  | issueToken id => cases ran; exact issueToken_preserves ttl valid id
  | check id presented => cases ran; exact check_preserves ttl valid id presented
  | mutate id m =>
    obtain ⟨fresh,⟨⟩⟩ := ite_none_right_eq_some.mp ran
    exact mutate_preserves valid fresh

theorem reached_history (path : Reached (opStep d ttl) (fun _ _ => True) noAccounts s) : HistoryValid d s :=
  reached_invariant (HistoryValid d) (noAccounts_valid d) (fun valid _ ran => opStep_preserves valid ran) path

theorem check_accepted_exact (ttl : Int) (valid : HistoryValid d s) (named : id ≠ []) (filled : presented ≠ []) :
    (checkSessionBinding d ttl s id presented).1 = .ok () ↔ liveBinding d (s.rows id) = some presented := by
  have row := currentBinding_row ttl valid id
  unfold checkSessionBinding liveBinding
  rw [if_neg (by simp [named,filled]),← row]
  split
  · rename_i found; simp [found,Except.toOption]
  · rename_i found; simp [found,Except.toOption]
  · rename_i current after found
    simp only [found,Except.toOption,Option.some.injEq]
    split <;> simp_all

theorem check_error (d : Digest) (ttl : Int) (s : History) (id presented : GoString) :
    (checkSessionBinding d ttl s id presented).1 = .error .sessionRevoked ↔
      (checkSessionBinding d ttl s id presented).1 ≠ .ok () := by
  unfold checkSessionBinding
  split
  · simp
  split
  · simp
  · rename_i e _ other _
    cases e with
    | sessionRevoked => simp
    | accountDisabled => simp_all
  · split <;> simp

theorem token_accepted_exact (ttl : Int) (valid : HistoryValid d s) (member : t ∈ s.minted) :
    (checkSessionBinding d ttl s t.id t.binding).1 = .ok () ↔
      t.cut = false ∧ ∃ a, s.rows t.id = some a ∧ a.disabled = false ∧ (effective a).role = t.account.role := by
  have token := valid.tokens t member
  have filled : t.binding ≠ [] := token.bound ▸ binding_filled d t.account
  rw [check_accepted_exact ttl valid token.named filled,liveBinding_some,token.bound]
  constructor
  · intro live
    obtain ⟨a,row,enabled,same⟩ := live
    have account : t.account = effective a := binding_injective d same
    refine ⟨?_,a,row,enabled,by rw [account]⟩
    cases cut : t.cut with
    | false => rfl
    | true => have later := (token.epochs a row (by simp [account])).2 cut; simp [account] at later
  · intro back
    obtain ⟨whole,a,row,enabled,role⟩ := back
    obtain ⟨other,found,hash,epoch⟩ := token.whole whole
    cases row.symm.trans found
    have account : t.account = effective a := by
      refine AccountState.ext ?_ role.symm ?_ ?_
      · rw [effective_hash,hash]
      · rw [effective_disabled,token.enabled,enabled]
      · rw [effective_epoch,epoch]
    exact ⟨a,row,enabled,by rw [account]⟩

theorem unended_session_accepted (path : Reached (opStep d ttl) (fun _ _ => True) noAccounts s) (member : t ∈ s.minted)
    (standing : t.ended = false) : (checkSessionBinding d ttl s t.id t.binding).1 = .ok () := by
  have valid := reached_history path
  have token := valid.tokens t member
  have filled : t.binding ≠ [] := token.bound ▸ binding_filled d t.account
  rw [check_accepted_exact ttl valid token.named filled,liveBinding_some,token.bound]
  obtain ⟨a,row,account⟩ := map_eq_some_iff.mp (token.standing standing)
  have enabled := token.enabled
  rw [← account,effective_disabled] at enabled
  exact ⟨a,row,enabled,by rw [account]⟩

theorem ended_session_refused_exact (path : Reached (opStep d ttl) (fun _ _ => True) noAccounts s) (member : t ∈ s.minted) :
    (checkSessionBinding d ttl s t.id t.binding).1 = .error .sessionRevoked ↔ t.ended = true ∧
        (t.cut = true ∨ ∀ a, s.rows t.id = some a → a.disabled = true ∨ (effective a).role ≠ t.account.role) := by
  rw [check_error,Ne]
  constructor
  · intro refused
    have ended : t.ended = true := by
      by_contra standing
      exact refused (unended_session_accepted path member (Bool.eq_false_iff.mpr standing))
    refine ⟨ended,?_⟩
    rw [token_accepted_exact ttl (reached_history path) member] at refused
    by_contra back
    push Not at back
    obtain ⟨whole,a,row,enabled,role⟩ := back
    exact refused ⟨Bool.eq_false_iff.mpr whole,a,row,Bool.eq_false_iff.mpr enabled,role⟩
  · intro held accepted
    obtain ⟨whole,a,row,enabled,role⟩ := (token_accepted_exact ttl (reached_history path) member).mp accepted
    rcases held.2 with cut | apart
    · simp [whole] at cut
    · rcases apart a row with disabled | other
      · simp [enabled] at disabled
      · exact other role

def someHash : Text := ⟨lit "h",by decide⟩
def admin : Text := ⟨lit "admin",by decide⟩
def issued : List Op := [.create (lit "u") someHash admin,.issueToken (lit "u")]

theorem ended_session_refused_sign_out : ∃ s t,
    runAllowed (opStep .transparent 30) (fun _ _ => True) noAccounts (issued ++ [.mutate (lit "u") .endSessions,.tick 60]) = some s ∧
    t ∈ s.minted ∧ t.cut = true ∧ (checkSessionBinding .transparent 30 s t.id t.binding).1 = .error .sessionRevoked := by
  have marks : (runAllowed (opStep .transparent 30) (fun _ _ => True) noAccounts
      (issued ++ [.mutate (lit "u") .endSessions,.tick 60])).map (fun s => s.minted.map fun t => (t.ended,t.cut)) =
      some [(true,true)] := by
    decide +kernel
  obtain ⟨s,ran,tokens⟩ := map_eq_some_iff.mp marks
  obtain ⟨t,only,mark⟩ := map_eq_singleton_iff.mp tokens
  obtain ⟨ended,cut⟩ := Prod.mk.inj mark
  have member : t ∈ s.minted := by simp [only]
  exact ⟨s,t,ran,member,cut,(ended_session_refused_exact (runAllowed_reached ran) member).mpr ⟨ended,.inl cut⟩⟩

def standing (ops : List Op) : Option (List (Bool × Option Unit)) :=
  (run (opStep .transparent 30) noAccounts (issued ++ ops)).map fun s =>
    s.minted.map fun t => (t.ended,(checkSessionBinding .transparent 30 s t.id t.binding).1.toOption)

theorem disabled_session_revived : standing [.mutate (lit "u") (.setUserDisabled true)] = some [(true,none)] ∧
    standing [.mutate (lit "u") (.setUserDisabled true),.mutate (lit "u") (.setUserDisabled false)] = some [(true,some ())] := by
  decide +kernel

end Gateon.Auth
