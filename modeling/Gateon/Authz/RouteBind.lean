import Gateon.Config.MiddlewareSecret
import Gateon.Lib.Transition
import Mathlib.Data.List.Perm.Subperm

namespace Gateon.Authz
open Go KeyedStore Security Config Transition List Option

structure Route where
  id : GoString
  name : GoString
  serviceId : GoString
  middlewares : List GoString
deriving DecidableEq

structure Service where
  id : GoString
  targets : List GoString
  discoveryUrl : GoString
deriving DecidableEq

structure Stores where
  routes : Store Route.id
  services : Store Service.id
  middlewares : Store Middleware.id

def trimmedIDs (rt : Route) : List GoString := (rt.middlewares.map trimSpace).filter (· ≠ [])

section
variable (u : Tables)

def forwardsRequestOffRoute (mw : Middleware) : Bool :=
  let mwType := canonicalType u mw
  if mwType = lit "forwardauth" ∨ mwType = lit "wasm" then true
  else if mwType = lit "auth" then
    let kind := toLower u (trimSpace (Settings.at mw.config (lit "type")))
    kind == lit "oauth2" || kind == lit "oauth2_introspection"
  else false

def sameSettings (a b : Settings) : Bool :=
  a.rows.length == b.rows.length && a.rows.all fun (k,v) => Settings.lookup b k == some v

def sameForwarding (stored updated : Middleware) : Bool :=
  trimSpace stored.type == trimSpace updated.type && sameSettings stored.config updated.config &&
    stored.wasmBlob == updated.wasmBlob

def targetURLs (svc : Service) : List GoString := sorted (svc.targets.map trimSpace)
def targetsChanged (stored updated : Service) : Bool :=
  trimSpace stored.discoveryUrl != trimSpace updated.discoveryUrl || targetURLs stored != targetURLs updated
variable (s : Stores)

def credentialAt (id : GoString) : Bool := (s.middlewares.get id).any (injectsCredentialUpstream u)
def routeCarriesCredential (rt : Route) : Bool := (trimmedIDs rt).any (credentialAt u s)
def storedRoute (id : GoString) : Option Route := if id = [] then none else s.routes.get id
section
variable (stored : Option Route)

def storedIDs : List GoString := (stored.map trimmedIDs).getD []
variable (updated : Route)

def newlyBindsCredential : Bool :=
  (trimmedIDs updated).any fun id => id ∉ storedIDs stored && credentialAt u s id
def repointsCredentialRoute : Bool :=
  stored.any (fun rt => rt.serviceId ≠ updated.serviceId) && routeCarriesCredential u s updated

def runsBefore (ids : List GoString) (first second : GoString) : Bool :=
  match ids.findIdx? (· == first) with
  | none => false
  | some i => (ids.drop (i+1)).contains second

def exposesLoop (before : List GoString) : List GoString → List GoString → Bool
  | [],_ => false
  | id :: rest,saw =>
    match s.middlewares.get id with
    | none => exposesLoop before rest saw
    | some mw =>
      if injectsCredentialUpstream u mw then exposesLoop before rest (saw ++ [id])
      else if forwardsRequestOffRoute u mw && saw.any (fun cred => !runsBefore before cred id) then true
      else exposesLoop before rest saw

def exposesCredentialToForwarder : Bool :=
  exposesLoop u s (storedIDs stored) (trimmedIDs updated) []

end

def authorizeRouteSave (updated : Route) : Bool :=
  let stored := storedRoute s updated.id
  !newlyBindsCredential u s stored updated && !repointsCredentialRoute u s stored updated &&
    !exposesCredentialToForwarder u s stored updated

def authorizeMiddlewareSave (updated : Middleware) : Bool :=
  let id := trimSpace updated.id
  !forwardsRequestOffRoute u updated || id == [] || (s.middlewares.get id).any (fun stored => sameForwarding stored updated) ||
    !s.routes.rows.any (fun rt => (trimmedIDs rt).contains id && routeCarriesCredential u s rt)

-- A service with no stored one of its id is not looked at.
def authorizeServiceSave (updated : Service) : Bool :=
  match s.services.get updated.id with
  | none => true
  | some stored =>
    !targetsChanged stored updated ||
      !s.routes.rows.any (fun rt => rt.serviceId == updated.id && routeCarriesCredential u s rt)

end

-- The checks of a save that do not look at bindings.
structure Validators where
  tables : Tables
  fingerprint : GoString → GoString → GoString
  route : Route → Bool
  service : Service → Bool
  middleware : Middleware → Bool

def label (rt : Route) : GoString := if rt.name ≠ [] then rt.name else rt.id
def nameIsFree (s : Stores) (rt : Route) : Bool := s.routes.rows.all fun other => other.id == rt.id || label other != label rt
def assignRoute (rt : Route) (fresh : GoString) : Route := if rt.id = [] then { rt with id := fresh } else rt
def assignService (svc : Service) (fresh : GoString) : Service := if svc.id = [] then { svc with id := fresh } else svc
def assignMiddleware (mw : Middleware) (fresh : GoString) : Middleware := if mw.id = [] then { mw with id := fresh } else mw

section
variable (env : Validators) (s : Stores)

def saveRoute (rt : Route) (fresh : GoString) (writes : Bool) : Stores :=
  let assigned := assignRoute rt fresh
  if rt.serviceId ≠ [] && env.route rt && authorizeRouteSave env.tables s assigned && nameIsFree s assigned && writes then
    { s with routes := s.routes.put assigned }
  else s

def saveService (svc : Service) (fresh : GoString) (writes : Bool) : Stores :=
  let assigned := assignService svc fresh
  if env.service svc && authorizeServiceSave env.tables s assigned && writes then
    { s with services := s.services.put assigned }
  else s

def restoredMiddleware (mw : Middleware) : Option Middleware :=
  restore env.tables env.fingerprint mw (if mw.id = [] then none else s.middlewares.get mw.id)

def saveMiddleware (mw : Middleware) (fresh : GoString) (writes : Bool) : Stores :=
  match restoredMiddleware env s mw with
  | none => s
  | some restored =>
    let assigned := assignMiddleware restored fresh
    if authorizeMiddlewareSave env.tables s restored && env.middleware restored && held restored.config == [] && writes then
      { s with middlewares := s.middlewares.put assigned }
    else s

end

def clearReference (id : GoString) (writes : GoString → Bool) (routes : Store Route.id) (rt : Route) : Store Route.id :=
  if rt.serviceId = id ∧ writes rt.id then routes.put { rt with serviceId := [] } else routes

def deleteService (s : Stores) (id : GoString) (writes : GoString → Bool) (deletes : Bool) : Stores :=
  if id = [] then s
  else
    { s with
      routes := s.routes.rows.foldl (clearReference id writes) s.routes
      services := if deletes then s.services.remove id else s.services }

def deleteRoute (s : Stores) (id : GoString) (deletes : Bool) : Stores :=
  if id ≠ [] && deletes then { s with routes := s.routes.remove id } else s

inductive Event where
  | saveRoute (rt : Route) (fresh : GoString) (writes : Bool)
  | saveService (svc : Service) (fresh : GoString) (writes : Bool)
  | saveMiddleware (mw : Middleware) (fresh : GoString) (writes : Bool)
  | deleteService (id : GoString) (writes : GoString → Bool) (deletes : Bool)
  | deleteRoute (id : GoString) (deletes : Bool)

def unnamed (s : Stores) (fresh : GoString) : Bool :=
  s.routes.rows.all fun rt => rt.serviceId != fresh && !(trimmedIDs rt).contains fresh

def step (env : Validators) (s : Stores) : Event → Option Stores
  | .saveRoute rt fresh writes => some (saveRoute env s rt fresh writes)
  | .saveService svc fresh writes => if unnamed s fresh then some (saveService env s svc fresh writes) else none
  | .saveMiddleware mw fresh writes => if unnamed s fresh then some (saveMiddleware env s mw fresh writes) else none
  | .deleteService id writes deletes => some (deleteService s id writes deletes)
  | .deleteRoute id deletes => some (deleteRoute s id deletes)

inductive Destination where
  | target (url : GoString)
  | discovery (url : GoString)
  | forwarder (type : GoString) (setting : GoString → Option GoString) (wasmBlob : GoString)

def backend (s : Stores) (rt : Route) : Option Service := if rt.serviceId = [] then none else s.services.get rt.serviceId

inductive Leads (svc : Service) : Destination → Prop where
  | target (listed : url ∈ svc.targets) : Leads svc (.target (trimSpace url))
  | discovery (named : trimSpace svc.discoveryUrl ≠ []) : Leads svc (.discovery (trimSpace svc.discoveryUrl))

def forwards (mw : Middleware) : Destination := .forwarder (trimSpace mw.type) (Settings.lookup mw.config) mw.wasmBlob

inductive Delivers (u : Tables) (s : Stores) (c : GoString) (rt : Route) : Destination → Prop where
  | backend (bound : c ∈ trimmedIDs rt) (found : backend s rt = some svc) (leads : Leads svc d) : Delivers u s c rt d
  | forwarder (after : [c,f].Sublist (trimmedIDs rt)) (found : s.middlewares.get f = some mw)
      (off : forwardsRequestOffRoute u mw) : Delivers u s c rt (forwards mw)

def Reaches (u : Tables) (s : Stores) (c : GoString) (d : Destination) : Prop :=
  credentialAt u s c ∧ ∃ rt ∈ s.routes.rows, Delivers u s c rt d

-- No service is created under a named id, no credential made while bound.
def bindsNothingNew (env : Validators) (c : GoString) (s : Stores) : Event → Prop
  | .saveService svc fresh _ => (s.services.get (assignService svc fresh).id).isNone → credentialAt env.tables s c →
      ∀ rt ∈ s.routes.rows, rt.serviceId = (assignService svc fresh).id → c ∉ trimmedIDs rt
  | .saveMiddleware mw _ _ => mw.id = c → credentialAt env.tables s c = false →
      ∀ restored ∈ restoredMiddleware env s mw, injectsCredentialUpstream env.tables restored →
        ∀ rt ∈ s.routes.rows, c ∉ trimmedIDs rt
  | _ => True

instance (env : Validators) (c : GoString) (s : Stores) (event : Event) : Decidable (bindsNothingNew env c s event) := by
  cases event with
  | saveService svc fresh _ => exact inferInstanceAs (Decidable (_ = true → _ = true → ∀ rt ∈ s.routes.rows,_ = _ → _ ∉ _))
  | saveMiddleware mw _ _ =>
    exact inferInstanceAs (Decidable (_ = _ → _ = false → ∀ restored ∈ restoredMiddleware env s mw,_ = true → ∀ rt ∈ s.routes.rows,_ ∉ _))
  | saveRoute _ _ _ | deleteService _ _ _ | deleteRoute _ _ => exact isTrue trivial

section Steps
variable {u : Tables} {env : Validators} {s t start : Stores} {c f id k v : GoString} {rt : Route} {svc : Service} {d : Destination}

theorem trimmedIDs_trimmed (mem : id ∈ trimmedIDs rt) : trimSpace id = id ∧ id ≠ [] := by
  obtain ⟨known,filled⟩ := List.mem_filter.mp mem
  obtain ⟨raw,_,same⟩ := List.mem_map.mp known
  rw [← same]
  exact ⟨trimSpace_idem raw,by simpa [same] using filled⟩

theorem runsBefore_sublist (ids : List GoString) (first second : GoString) :
    runsBefore ids first second ↔ [first,second].Sublist ids := by
  induction ids with
  | nil => simp [runsBefore]
  | cons id rest ih =>
    by_cases here : id = first
    · subst here
      simp only [runsBefore,findIdx?_cons,beq_self_eq_true,↓reduceIte,Nat.zero_add,drop_succ_cons,drop_zero,
        contains_iff_mem]
      constructor
      · intro later; exact (singleton_sublist.mpr later).cons_cons id
      intro both
      cases both with
      | cons _ later => exact later.subset (by simp)
      | cons_cons _ later => exact singleton_sublist.mp later
    · have skip : runsBefore (id :: rest) first second = runsBefore rest first second := by
        unfold runsBefore
        rw [findIdx?_cons,if_neg (by simpa using here)]
        cases rest.findIdx? (· == first) <;> rfl
      rw [skip,ih]
      constructor
      · intro later; exact later.cons id
      intro both
      cases both with
      | cons _ later => exact later
      | cons_cons => exact absurd rfl here

theorem forwards_plain (off : forwardsRequestOffRoute u mw) : injectsCredentialUpstream u mw = false := by
  unfold forwardsRequestOffRoute at off
  have headers : lit "headers" ≠ lit "forwardauth" ∧ lit "headers" ≠ lit "wasm" ∧ lit "headers" ≠ lit "auth" := by decide +kernel
  have rewrites : lit "rewrite" ≠ lit "forwardauth" ∧ lit "rewrite" ≠ lit "wasm" ∧ lit "rewrite" ≠ lit "auth" := by decide +kernel
  apply Bool.eq_false_iff.mpr
  intro injects
  obtain ⟨kind,_⟩ := Bool.and_eq_true_iff.mp injects
  rcases Bool.or_eq_true_iff.mp kind with same | same
  · simp [eq_of_beq same,headers] at off
  · simp [eq_of_beq same,rewrites] at off

-- Every forwarder passed over ran after each credential seen so far.
theorem exposesLoop_covers (quiet : exposesLoop u s before ids saw = false) (found : s.middlewares.get f = some mw)
    (off : forwardsRequestOffRoute u mw) : (f ∈ ids → ∀ cred ∈ saw, runsBefore before cred f) ∧
      ∀ cred, credentialAt u s cred → [cred,f].Sublist ids → runsBefore before cred f := by
  induction ids generalizing saw with
  | nil => exact ⟨nofun,nofun⟩
  | cons id rest ih =>
    have extend : ∀ more, exposesLoop u s before rest more = false → (∀ cred ∈ saw, cred ∈ more) →
        (credentialAt u s id → id ∈ more) → (f = id → ∀ cred ∈ saw, runsBefore before cred f) →
        (f ∈ id :: rest → ∀ cred ∈ saw, runsBefore before cred f) ∧
          ∀ cred, credentialAt u s cred → [cred,f].Sublist (id :: rest) → runsBefore before cred f := by
      intro more later keeps adds here
      obtain ⟨seen,pairs⟩ := ih later
      refine ⟨?_,?_⟩
      · intro mem cred old
        rcases mem_cons.mp mem with now | after
        · exact here now cred old
        · exact seen after cred (keeps cred old)
      · intro cred injects both
        cases both with
        | cons _ after => exact pairs cred injects after
        | cons_cons _ after => exact seen (singleton_sublist.mp after) id (adds injects)
    unfold exposesLoop at quiet
    split at quiet
    · rename_i missing
      apply extend saw quiet (fun _ old => old)
      · intro injects; simp [credentialAt,missing] at injects
      · intro same; simp [← same,found] at missing
    rename_i here present
    split at quiet
    · rename_i injects
      apply extend (saw ++ [id]) quiet
      · intro cred old; exact mem_append_left _ old
      · intro _; simp
      intro same
      rw [← same,found] at present
      cases present
      rw [forwards_plain off] at injects
      cases injects
    · rename_i plain
      split at quiet
      · cases quiet
      rename_i covered
      apply extend saw quiet (fun _ old => old)
      · intro injects; simp [credentialAt,present,plain] at injects
      intro same cred old
      rw [← same,found] at present
      cases present
      simp only [off,Bool.true_and,Bool.not_eq_true,List.any_eq_false] at covered
      simpa [same] using covered cred old

theorem Delivers.bound (delivers : Delivers u s c rt d) : c ∈ trimmedIDs rt := by
  cases delivers with
  | backend bound => exact bound
  | forwarder after => exact after.subset (by simp)

theorem Delivers.transfer (delivers : Delivers u t c rt d) (services : ∀ k svc, t.services.get k = some svc → s.services.get k = some svc)
    (middlewares : t.middlewares = s.middlewares) : Delivers u s c rt d := by
  cases delivers with
  | backend bound found leads =>
    obtain ⟨named,found⟩ := ite_none_left_eq_some.mp found
    exact .backend bound (ite_none_left_eq_some.mpr ⟨named,services _ _ found⟩) leads
  | forwarder after found off => exact .forwarder after (middlewares ▸ found) off

theorem saveRoute_reaches (reaches : Reaches env.tables (saveRoute env s updated fresh writes) c d) : Reaches env.tables s c d := by
  unfold saveRoute at reaches
  dsimp only at reaches
  split at reaches
  · rename_i passed
    obtain ⟨injects,rt,held,delivers⟩ := reaches
    have injects : credentialAt env.tables s c := injects
    have delivers : Delivers env.tables s c rt d := delivers.transfer (fun _ _ => id) rfl
    refine ⟨injects,?_⟩
    rcases mem_put.mp held with now | ⟨old,_⟩
    · rw [← now] at passed
      simp only [Bool.and_eq_true,authorizeRouteSave,Bool.not_eq_true'] at passed
      obtain ⟨⟨⟨⟨_,_⟩,⟨newly,repoints⟩,exposes⟩,_⟩,_⟩ := passed
      have kept : c ∈ storedIDs (storedRoute s rt.id) := by
        have binding := List.any_eq_false.mp newly c delivers.bound
        simpa [injects] using binding
      cases found : storedRoute s rt.id with
      | none => simp [found,storedIDs] at kept
      | some stored =>
        rw [found] at kept repoints exposes
        have inStore : stored ∈ s.routes.rows := by
          unfold storedRoute at found
          split at found
          · cases found
          · exact (get_eq_some.mp found).1
        refine ⟨stored,inStore,?_⟩
        cases delivers with
        | backend bound reached leads =>
          have carries : routeCarriesCredential env.tables s rt := List.any_eq_true.mpr ⟨c,bound,injects⟩
          have same : stored.serviceId = rt.serviceId := by simpa [repointsCredentialRoute,carries] using repoints
          refine .backend kept ?_ leads
          simpa [Authz.backend,same] using reached
        | forwarder after reached off =>
          have before := (exposesLoop_covers exposes reached off).2 c injects after
          exact .forwarder ((runsBefore_sublist _ _ _).mp before) reached off
    · exact ⟨rt,old,delivers⟩
  · exact reaches

theorem targets_same (unchanged : targetsChanged stored updated = false) (leads : Leads updated d) : Leads stored d := by
  simp only [targetsChanged,Bool.or_eq_false_iff,bne_eq_false_iff_eq] at unchanged
  obtain ⟨discovery,targets⟩ := unchanged
  cases leads with
  | target listed =>
    have mem := List.mem_map_of_mem (f := trimSpace) listed
    unfold targetURLs at targets
    rw [← sorted_mem,← targets,sorted_mem] at mem
    obtain ⟨url,old,same⟩ := List.mem_map.mp mem
    exact same ▸ .target old
  | discovery named => rw [← discovery] at named ⊢; exact .discovery named

theorem saveService_reaches (meets : bindsNothingNew env c s (.saveService svc fresh writes))
    (reaches : Reaches env.tables (saveService env s svc fresh writes) c d) : Reaches env.tables s c d := by
  unfold saveService at reaches
  dsimp only at reaches
  split at reaches
  · rename_i passed
    obtain ⟨injects,rt,held,delivers⟩ := reaches
    refine ⟨injects,rt,held,?_⟩
    cases delivers with
    | forwarder after found off => exact .forwarder after found off
    | backend bound found leads =>
      obtain ⟨named,found⟩ := ite_none_left_eq_some.mp found
      by_cases here : rt.serviceId = (assignService svc fresh).id
      · rw [here,get_put_same] at found
        cases found
        simp only [Bool.and_eq_true,authorizeServiceSave] at passed
        obtain ⟨⟨_,allowed⟩,_⟩ := passed
        cases stored : s.services.get (assignService svc fresh).id with
        | none => exact absurd bound (meets (by simp [stored]) injects rt held here)
        | some old =>
          simp only [stored,Bool.or_eq_true,Bool.not_eq_true'] at allowed
          have carries : routeCarriesCredential env.tables s rt := List.any_eq_true.mpr ⟨c,bound,injects⟩
          have unchanged : targetsChanged old (assignService svc fresh) = false := by
            rcases allowed with same | none
            · exact same
            · have away := List.any_eq_false.mp none rt held; simp [here,carries] at away
          refine .backend bound ?_ (targets_same unchanged leads)
          rw [backend,if_neg named,here,stored]
      · rw [get_put_other _ _ here] at found
        refine .backend bound ?_ leads
        rw [backend,if_neg named,found]
  · exact reaches

theorem sameSettings_lookup (same : sameSettings a b) : Settings.lookup a = Settings.lookup b := by
  obtain ⟨sizes,entries⟩ := Bool.and_eq_true_iff.mp same
  have into : ∀ entry ∈ a.rows, entry ∈ b.rows := by
    intro entry held
    have found := List.all_eq_true.mp entries entry held
    exact lookup_row.mp (eq_of_beq found)
  have perm : a.rows.Perm b.rows :=
    (subperm_of_subset (List.Nodup.of_map _ a.distinct) into).perm_of_length_le (Nat.le_of_eq (eq_of_beq sizes).symm)
  funext k
  ext v
  rw [lookup_row,lookup_row,perm.mem_iff]

theorem sameForwarding_exact (same : sameForwarding stored updated) :
    forwards stored = forwards updated ∧ forwardsRequestOffRoute u stored = forwardsRequestOffRoute u updated := by
  simp only [sameForwarding,Bool.and_eq_true,beq_iff_eq] at same
  obtain ⟨⟨type,settings⟩,blob⟩ := same
  have lookups := sameSettings_lookup settings
  refine ⟨by simp [forwards,type,lookups,blob],?_⟩
  unfold forwardsRequestOffRoute canonicalType Settings.at
  rw [type,lookups]

theorem saveMiddleware_reaches (meets : bindsNothingNew env c s (.saveMiddleware mw fresh writes)) (drawn : unnamed s fresh)
    (reaches : Reaches env.tables (saveMiddleware env s mw fresh writes) c d) : Reaches env.tables s c d := by
  unfold saveMiddleware at reaches
  split at reaches
  · exact reaches
  rename_i restored restoring
  split at reaches
  · rename_i passed
    obtain ⟨injects,rt,held,delivers⟩ := reaches
    have fields := restore_fields restoring
    have bound := delivers.bound
    have named : ∀ id ∈ trimmedIDs rt, (assignMiddleware restored fresh).id = id → restored.id ≠ [] := by
      intro id mem same blank
      have away := List.all_eq_true.mp drawn rt held
      simp only [assignMiddleware,blank,↓reduceIte] at same
      subst same
      simp [mem] at away
    have given : restored.id ≠ [] → assignMiddleware restored fresh = restored := by
      intro filled
      simp [assignMiddleware,filled]
    have before : credentialAt env.tables s c := by
      by_cases here : c = (assignMiddleware restored fresh).id
      · have same := given (named c bound here.symm)
        rw [same] at here injects
        have now : injectsCredentialUpstream env.tables restored := by
          rw [here] at injects
          simpa [credentialAt,get_put_same] using injects
        cases plain : credentialAt env.tables s c with
        | true => rfl
        | false => exact absurd bound (meets (here.trans fields.1).symm plain restored restoring now rt held)
      · simpa [credentialAt,get_put_other _ _ here] using injects
    refine ⟨before,rt,held,?_⟩
    cases delivers with
    | backend bound found leads => exact .backend bound found leads
    | @forwarder f fw after found off =>
      have placed : f ∈ trimmedIDs rt := after.subset (by simp)
      by_cases here : f = (assignMiddleware restored fresh).id
      · have same := given (named f placed here.symm)
        rw [same] at here found
        rw [here,get_put_same] at found
        cases found
        obtain ⟨trimmed,filled⟩ := trimmedIDs_trimmed placed
        rw [here] at trimmed filled
        simp only [Bool.and_eq_true,authorizeMiddlewareSave,off,trimmed,filled,beq_iff_eq,Bool.or_eq_true,Bool.not_true,
          Bool.false_eq_true,false_or] at passed
        obtain ⟨⟨⟨allowed,_⟩,_⟩,_⟩ := passed
        rcases allowed with kept | none
        · cases stored : s.middlewares.get restored.id with
          | none => simp [stored] at kept
          | some old =>
            simp only [stored,any_some] at kept
            obtain ⟨destination,kind⟩ := sameForwarding_exact (u := env.tables) kept
            rw [← destination]
            exact .forwarder (here ▸ after) stored (kind.trans off)
        · have carries : routeCarriesCredential env.tables s rt := List.any_eq_true.mpr ⟨c,bound,before⟩
          have away := List.any_eq_false.mp (Bool.not_eq_true' _ ▸ none) rt held
          simp [← here,placed,carries] at away
      · rw [get_put_other _ _ here] at found; exact .forwarder after found off
  · exact reaches

theorem clearReference_rows {list : List Route} {routes : Store Route.id} (held : rt ∈ (list.foldl (clearReference id writes) routes).rows) :
    rt ∈ routes.rows ∨ ∃ old ∈ list, rt = { old with serviceId := [] } := by
  induction list generalizing routes with
  | nil => exact .inl held
  | cons first rest ih =>
    rcases ih held with before | ⟨old,mem,same⟩
    · unfold clearReference at before
      split at before
      · rcases mem_put.mp before with now | ⟨older,_⟩
        · exact .inr ⟨first,mem_cons_self ..,now⟩
        · exact .inl older
      · exact .inl before
    · exact .inr ⟨old,mem_cons_of_mem _ mem,same⟩

theorem deleteService_reaches (reaches : Reaches u (deleteService s id writes deletes) c d) : Reaches u s c d := by
  unfold deleteService at reaches
  split at reaches
  · exact reaches
  obtain ⟨injects,rt,held,delivers⟩ := reaches
  refine ⟨injects,?_⟩
  have fewer : ∀ k svc, (if deletes then s.services.remove id else s.services).get k = some svc → s.services.get k = some svc := by
    intro k svc found
    split at found
    · exact get_remove found
    · exact found
  rcases clearReference_rows held with old | ⟨old,mem,same⟩
  · exact ⟨rt,old,delivers.transfer fewer rfl⟩
  refine ⟨old,mem,?_⟩
  subst same
  cases delivers with
  | forwarder after found off => exact .forwarder after found off
  | backend bound found leads => simp [backend] at found

theorem deleteRoute_reaches (reaches : Reaches u (deleteRoute s id deletes) c d) : Reaches u s c d := by
  unfold deleteRoute at reaches
  split at reaches
  · obtain ⟨injects,rt,held,delivers⟩ := reaches
    exact ⟨injects,rt,(mem_remove.mp held).1,delivers.transfer (fun _ _ same => same) rfl⟩
  · exact reaches

theorem step_reaches (meets : bindsNothingNew env c s event) (ran : step env s event = some t)
    (reaches : Reaches env.tables t c d) : Reaches env.tables s c d := by
  cases event with
  | saveRoute rt fresh writes => cases ran; exact saveRoute_reaches reaches
  | saveService svc fresh writes =>
    simp only [step] at ran
    split at ran
    · cases ran; exact saveService_reaches meets reaches
    · cases ran
  | saveMiddleware mw fresh writes =>
    obtain ⟨drawn,⟨⟩⟩ := ite_none_right_eq_some.mp ran
    exact saveMiddleware_reaches meets drawn reaches
  | deleteService id writes deletes => cases ran; exact deleteService_reaches reaches
  | deleteRoute id deletes => cases ran; exact deleteRoute_reaches reaches

theorem credential_reaches_nothing_new (path : Reached (step env) (bindsNothingNew env c) start s) (apart : ¬ Reaches env.tables start c d) :
    ¬ Reaches env.tables s c d := by
  refine reached_invariant (fun s => ¬ Reaches env.tables s c d) apart ?_ path
  intro before event after away meets ran reaches
  exact away (step_reaches meets ran reaches)

theorem created_service_reached (injects : credentialAt env.tables s c) (held : rt ∈ s.routes.rows) (bound : c ∈ trimmedIDs rt)
    (named : rt.serviceId = svc.id) (filled : svc.id ≠ []) (absent : s.services.get svc.id = none) (valid : env.service svc)
    (listed : url ∈ svc.targets) :
    Reaches env.tables (saveService env s svc fresh true) c (.target (trimSpace url)) := by
  have assigned : assignService svc fresh = svc := by simp [assignService,filled]
  have saved : saveService env s svc fresh true = { s with services := s.services.put svc } := by
    simp [saveService,assigned,valid,authorizeServiceSave,absent]
  rw [saved]
  refine ⟨injects,rt,held,.backend bound ?_ (.target listed)⟩
  rw [backend,if_neg (named ▸ filled),named]
  exact get_put_same svc

end Steps

def sampleValidators : Validators := ⟨.ascii,fun _ _ => [],fun _ => true,fun _ => true,fun _ => true⟩
def sampleCredential : Middleware :=
  ⟨lit "cred",[],lit "headers",Store.empty.put (lit "set_request_Authorization",lit "Bearer s3cret"),[]⟩
def sampleRoute : Route := ⟨lit "r",[],lit "svc",[lit "cred"]⟩
def sampleService (url : GoString) : Service := ⟨lit "svc",[url],[]⟩
def trusted : GoString := lit "http://backend"
def foreign : GoString := lit "http://elsewhere"

def sampleStores : Stores where
  routes := Store.empty.put sampleRoute
  services := Store.empty.put (sampleService trusted)
  middlewares := Store.empty.put sampleCredential

theorem sample_apart : ¬ Reaches sampleValidators.tables sampleStores (lit "cred") (.target foreign) := by
  intro ⟨_,rt,held,delivers⟩
  have only : rt = sampleRoute := by simpa [sampleStores,Store.empty] using held
  subst only
  generalize aim : Destination.target foreign = d at delivers
  cases delivers with
  | backend _ found leads =>
    have service : backend sampleStores sampleRoute = some (sampleService trusted) := rfl
    cases Option.some.inj (service.symm.trans found)
    cases leads with
    | target listed =>
      cases mem_singleton.mp listed
      have same := Destination.target.inj aim
      exact absurd same (by decide +kernel)
    | discovery => cases aim
  | forwarder => cases aim

theorem credential_reaches_nothing_new_sample : ∃ s,
    Reached (step sampleValidators) (bindsNothingNew sampleValidators (lit "cred")) sampleStores s ∧
      s.services.rows.map Service.targets = [[foreign],[trusted]] ∧ ¬ Reaches sampleValidators.tables s (lit "cred") (.target foreign) := by
  exact reached_by
    [.saveService ⟨lit "mine",[foreign],[]⟩ (lit "u1") true,
      .saveRoute { sampleRoute with serviceId := lit "mine" } (lit "u2") true,
      .saveRoute ⟨[],lit "copy",lit "mine",[lit "cred"]⟩ (lit "u3") true,
      .saveService (sampleService foreign) (lit "u4") true] (by decide +kernel)
    fun s path => credential_reaches_nothing_new path sample_apart

-- Deleted while the route cannot be written, then created again under the id.
theorem recreated_service_captures : ¬ Reaches sampleValidators.tables sampleStores (lit "cred") (.target foreign) ∧
    ∃ s, run (step sampleValidators) sampleStores
      [.deleteService (lit "svc") (fun _ => false) true,.saveService (sampleService foreign) (lit "u1") true] = some s ∧
        Reaches sampleValidators.tables s (lit "cred") (.target foreign) := by
  refine ⟨sample_apart,_,rfl,?_⟩
  have held : sampleRoute ∈ (deleteService sampleStores (lit "svc") (fun _ => false) true).routes.rows := by decide +kernel
  have listed : foreign ∈ (sampleService foreign).targets := by simp [sampleService]
  have reaches : Reaches sampleValidators.tables
      (saveService sampleValidators (deleteService sampleStores (lit "svc") (fun _ => false) true) (sampleService foreign)
        (lit "u1") true) (lit "cred") (.target (trimSpace foreign)) :=
    created_service_reached rfl held (by decide +kernel) rfl (by decide +kernel) rfl rfl listed
  have trimmed : trimSpace foreign = foreign := by decide +kernel
  exact trimmed ▸ reaches

end Gateon.Authz
