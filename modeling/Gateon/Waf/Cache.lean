import Gateon.Config.Routes
import Gateon.Waf.Inherit

namespace Gateon.Waf
open Go Security KeyedStore Transition Option
open List (forall_mem_cons mem_map mem_map_of_mem)

-- What the builders use besides the configuration.
structure Site (F : Type) where
  floats : Floats F
  tables : Tables
  env : Env
  sha : GoString → GoString
  collisionFree : ∀ a b, sha a = sha b → a = b
  confined : GoString → Option GoString
  compiles : WAFConfig F → Bool
  marshal : WafProto F → Option GoString

abbrev Cache (F : Type) := Store (Prod.fst : GoString × WAFConfig F → GoString)

-- `served` keeps every build with what it would compute at that moment.
structure Gateway (F : Type) where
  stored : Option (Global F)
  routes : Settings
  wafCache : Cache F
  globalWAFCache : Cache F
  served : List (WAFConfig F × Option (WAFConfig F))

inductive Event (F : Type) where
  | newWAF (cfg : Settings) (grpc : Bool)
  | newGlobalWAF (grpc : Bool)
  | saveGlobal (stored : Option (Global F))
  | saveMiddleware (waf : Bool)
  | saveRoute (id rule : GoString)
  | deleteRoute (id : GoString)
  | invalidateWAF

def Tier.name : Tier → GoString
  | .minimal => lit "minimal"
  | .standard => lit "standard"
  | .enterprise => lit "enterprise"

def routeOrigins (u : Tables) (routes : Settings) : List GoString :=
  sorted ((routes.rows.map fun row => Config.hostFromRule u row.2).filter fun h => h != [] && !contains h (lit "*")).dedup
def settingsText (cfg : Settings) : GoString :=
  (sorted (Settings.keys cfg)).flatMap fun k => k ++ byte '=' :: (cfg.at k ++ [byte ';'])

variable {F : Type} (t : Site F)

def wafConfigKey (cfg : Settings) : GoString := lit "waf:" ++ hexEncode (t.sha (settingsText cfg))
def routeKey (cfg : Settings) (directives : GoString) (grpc : Bool) : GoString :=
  wafConfigKey t cfg ++ byte ':' :: (directives ++ (lit ":grpc=" ++ formatBool grpc))

def hashWAFProto (w : WafProto F) : GoString :=
  match t.marshal w with
  | none => lit "nohash"
  | some b => hexEncode (t.sha b)

def globalKey (g : Global F) (grpc : Bool) : GoString :=
  lit "global-waf:" ++ g.tier.name ++ lit ":" ++ formatBool grpc ++ lit ":" ++ hashWAFProto t g.waf ++
    lit ":git=" ++ formatBool (gitSmartHTTP t.tables t.env [])

section
variable (s : Gateway F)

def Gateway.hosts : List GoString := routeOrigins t.tables s.routes
def merged (cfg : Settings) : Settings :=
  mergeGlobalWAFDefaults t.floats t.tables t.env (s.hosts t) s.stored cfg
def freshRoute (cfg : Settings) : Option (WAFConfig F) :=
  newWAFConfig t.floats t.tables t.env t.confined (s.hosts t) s.stored cfg

def newWAF (cfg : Settings) (grpc : Bool) : Gateway F :=
  if checkRouteCloudflareTrust t.tables t.env s.stored cfg then
    let directives := ((enabledWAF s.stored).map (·.waf.customDirectives)).getD []
    let key := routeKey t (merged t s cfg) directives grpc
    match s.wafCache.get key with
    | some cached => {s with served := (cached.2,freshRoute t s cfg) :: s.served}
    | none =>
      let c := confineRouteAuditLog t.confined (parseWAFConfig t.floats t.tables t.env (s.hosts t) (merged t s cfg))
        (cfg.at (lit "audit_log_path"))
      if t.compiles c then
        {s with wafCache := s.wafCache.put (key,c),served := (c,freshRoute t s cfg) :: s.served}
      else s
  else s

def freshGlobal (g : Global F) : WAFConfig F := globalWAFConfig t.tables t.env (s.hosts t) g.waf g.tier

def newGlobalWAF (grpc : Bool) : Gateway F :=
  match enabledWAF s.stored with
  | none => s
  | some g =>
    let key := globalKey t g grpc
    match s.globalWAFCache.get key with
    | some cached => {s with served := (cached.2,some (freshGlobal t s g)) :: s.served}
    | none =>
      let c := freshGlobal t s g
      if t.compiles c then
        {s with globalWAFCache := s.globalWAFCache.put (key,c),served := (c,some c) :: s.served}
      else s

def invalidateWAFCache : Gateway F := {s with wafCache := Store.empty,globalWAFCache := Store.empty}

-- A save of a WAF drops the caches, a route's save does not.
def step : Event F → Option (Gateway F)
  | .newWAF cfg grpc => some (newWAF t s cfg grpc)
  | .newGlobalWAF grpc => some (newGlobalWAF t s grpc)
  | .saveGlobal stored =>
    let s := {s with stored := stored}
    some (if stored.isSome then invalidateWAFCache s else s)
  | .saveMiddleware waf => some (if waf then invalidateWAFCache s else s)
  | .saveRoute id rule => some {s with routes := s.routes.put (id,rule)}
  | .deleteRoute id => some {s with routes := s.routes.remove id}
  | .invalidateWAF => some (invalidateWAFCache s)

def boot : Gateway F := ⟨none,Store.empty,Store.empty,Store.empty,[]⟩
def Separable (cfg : Settings) : Prop := ∀ row ∈ cfg.rows, byte '=' ∉ row.1 ∧ byte ';' ∉ row.2

instance (cfg : Settings) : Decidable (Separable cfg) := inferInstanceAs (Decidable (∀ row ∈ cfg.rows, _))

def SameOrigins (hosts hosts' : List GoString) : Prop := resolveOrigins t.tables hosts [] = resolveOrigins t.tables hosts' []

instance (hosts hosts' : List GoString) : Decidable (SameOrigins t hosts hosts') := inferInstanceAs (Decidable (_ = _))

def uncached : Bool := s.wafCache.rows.isEmpty && s.globalWAFCache.rows.isEmpty

end

-- `kept` are the gateway's audit logs; hosts change only while nothing is cached.
def Careful (kept : List GoString) (s : Gateway F) : Event F → Prop
  | .newWAF cfg _ => Separable (merged t s cfg) ∧ (blank cfg (lit "audit_log_path") ∨ cfg.at (lit "audit_log_path") ∉ kept)
  | .saveGlobal stored => ∀ g ∈ stored, trimSpace g.waf.auditLogPath = [] ∨ g.waf.auditLogPath ∈ kept
  | .saveRoute id rule => uncached s ∨ SameOrigins t (s.hosts t) (routeOrigins t.tables (s.routes.put (id,rule)))
  | .deleteRoute id => uncached s ∨ SameOrigins t (s.hosts t) (routeOrigins t.tables (s.routes.remove id))
  | _ => True

instance (kept : List GoString) (s : Gateway F) (e : Event F) : Decidable (Careful t kept s e) := by
  unfold Careful
  split <;> infer_instance

theorem entries_inj {a b : List (GoString × GoString)} (clean : ∀ row ∈ a, byte '=' ∉ row.1 ∧ byte ';' ∉ row.2)
    (clean' : ∀ row ∈ b, byte '=' ∉ row.1 ∧ byte ';' ∉ row.2) (same : a.flatMap (fun row => row.1 ++ byte '=' :: (row.2 ++ [byte ';'])) =
      b.flatMap fun row => row.1 ++ byte '=' :: (row.2 ++ [byte ';'])) : a = b := by
  refine flatMap_inj (by simp) ?_ same
  intro row held row' held' x y same
  simp only [List.append_assoc,List.cons_append,List.nil_append] at same
  obtain ⟨keys,same⟩ := before_inj (clean row held).1 (clean' row' held').1 same
  exact Prod.ext keys (before_inj (clean row held).2 (clean' row' held').2 same).1

theorem keys_at (mem : k ∈ Settings.keys cfg) : (k,cfg.at k) ∈ cfg.rows := by
  obtain ⟨row,held,same⟩ := mem_map.mp mem
  have found : cfg.get k = some row := get_eq_some.mpr ⟨held,same⟩
  have value : cfg.at k = row.2 := by
    simp [Settings.at,Settings.lookup,found]
  rw [value,← same]
  exact held

theorem other_at (missing : k ∉ Settings.keys cfg) : cfg.at k = [] := by
  cases found : cfg.get k with
  | none => simp [Settings.at,Settings.lookup,found]
  | some row =>
    obtain ⟨held,same⟩ := get_eq_some.mp found
    exact absurd (mem_map.mpr ⟨row,held,same⟩) missing

theorem settingsText_inj {a b : Settings} (clean : Separable a) (clean' : Separable b) (same : settingsText a = settingsText b) (k : GoString) :
    a.at k = b.at k := by
  have rows : ∀ cfg : Settings, Separable cfg → ∀ row ∈ (sorted (Settings.keys cfg)).map (fun k => (k,cfg.at k)),
      byte '=' ∉ row.1 ∧ byte ';' ∉ row.2 := by
    intro cfg clean row mem
    obtain ⟨key,held,shape⟩ := mem_map.mp mem
    exact clean row (shape ▸ keys_at (sorted_mem.mp held))
  have equal := entries_inj (rows a clean) (rows b clean') (by simpa only [List.flatMap_map,settingsText] using same)
  have entry {a b : Settings} (equal : (sorted (Settings.keys a)).map (fun k => (k,a.at k)) = (sorted (Settings.keys b)).map fun k => (k,b.at k))
      (held : k ∈ Settings.keys a) : k ∈ Settings.keys b ∧ a.at k = b.at k := by
    have mem := mem_map_of_mem (f := fun k => (k,a.at k)) (sorted_mem.mpr held)
    rw [equal] at mem
    obtain ⟨key,inside,shape⟩ := mem_map.mp mem
    obtain ⟨rfl,value⟩ := Prod.mk.inj shape
    exact ⟨sorted_mem.mp inside,value.symm⟩
  by_cases held : k ∈ Settings.keys a
  · exact (entry equal held).2
  · rw [other_at held,other_at fun mem => held (entry equal.symm mem).1]

theorem hexEncode_free (digest : List UInt8) : byte ':' ∉ hexEncode digest := by
  intro mem
  obtain ⟨n,small,same⟩ := hexEncode_digits mem
  have digits : ∀ n < 16, byte ':' ≠ hexDigit n := by decide
  exact digits n small same

theorem routeKey_inj (same : routeKey t a directives grpc = routeKey t b directives' grpc') : settingsText a = settingsText b := by
  simp only [routeKey,wafConfigKey,List.append_assoc,List.append_cancel_left_eq] at same
  exact t.collisionFree _ _ (hexEncode_injective (before_inj (hexEncode_free _) (hexEncode_free _) same).1)

theorem SameOrigins.declared (same : SameOrigins t a b) (declared : List GoString) :
    resolveOrigins t.tables a declared = resolveOrigins t.tables b declared := by
  apply resolveOrigins_ext
  intro o
  have hosts : o ≠ [] ∧ (∃ h ∈ a, originOf t.tables h = o) ↔ o ≠ [] ∧ ∃ h ∈ b, originOf t.tables h = o := by
    have mem : o ∈ resolveOrigins t.tables a [] ↔ o ∈ resolveOrigins t.tables b [] := by rw [same]
    simpa [mem_resolveOrigins] using mem
  rw [mem_resolveOrigins,mem_resolveOrigins,and_or_left,and_or_left,hosts]

theorem parse_same (origins : SameOrigins t a b) (same : ∀ k, cfg.at k = cfg'.at k) :
    parseWAFConfig t.floats t.tables t.env a cfg = parseWAFConfig t.floats t.tables t.env b cfg' := by
  simp only [parseWAFConfig,parseRouteID,same,origins.declared]

theorem global_same (origins : SameOrigins t a b) (w : WafProto F) (tier : Tier) :
    globalWAFConfig t.tables t.env a w tier = globalWAFConfig t.tables t.env b w tier := by
  simp only [globalWAFConfig,globalBaseline,origins.declared]

-- Whose audit log a map names: a route's own, or none or the gateway's.
def Owned (kept : List GoString) (own : GoString) (cfg : Settings) : Prop :=
  trimSpace own = [] ∧ (blank cfg (lit "audit_log_path") ∨ cfg.at (lit "audit_log_path") ∈ kept) ∨
    trimSpace own ≠ [] ∧ cfg.at (lit "audit_log_path") = own ∧ own ∉ kept

inductive Built (kept now : List GoString) : GoString × WAFConfig F → Prop where
  | built (clean : Separable cfg) (origins : SameOrigins t hosts now) (owned : Owned kept own cfg) :
      Built kept now (routeKey t cfg directives grpc,
        confineRouteAuditLog t.confined (parseWAFConfig t.floats t.tables t.env hosts cfg) own)

structure Inv (kept : List GoString) (s : Gateway F) : Prop where
  paths : ∀ g ∈ s.stored, trimSpace g.waf.auditLogPath = [] ∨ g.waf.auditLogPath ∈ kept
  routes : ∀ row ∈ s.wafCache.rows, Built t kept (s.hosts t) row
  globals : ∀ row ∈ s.globalWAFCache.rows, ∀ g ∈ s.stored,
    ∃ hosts, SameOrigins t hosts (s.hosts t) ∧ row.2 = globalWAFConfig t.tables t.env hosts g.waf g.tier
  served : ∀ p ∈ s.served, p.2 = some p.1

theorem Owned.same (owned : Owned kept own cfg) (owned' : Owned kept own' cfg') (same : ∀ k, cfg.at k = cfg'.at k)
    (confined : GoString → Option GoString) (c : WAFConfig F) :
    confineRouteAuditLog confined c own = confineRouteAuditLog confined c own' := by
  unfold Owned blank at owned owned'
  rw [same] at owned
  rcases owned with ⟨empty,path⟩ | ⟨filled,own,free⟩
  · rcases owned' with ⟨empty',_⟩ | ⟨filled',own',free'⟩
    · simp [confineRouteAuditLog,empty,empty']
    rw [own'] at path
    rcases path with nothing | held
    · exact absurd nothing filled'
    · exact absurd held free'
  · rcases owned' with ⟨empty',path⟩ | ⟨filled',own',free'⟩
    · rw [own] at path
      rcases path with nothing | held
      · exact absurd nothing filled
      · exact absurd held free
    · rw [← own,← own']

theorem Built.same (built : Built t kept now row) (key : row.1 = routeKey t cfg directives grpc) (clean : Separable cfg)
    (owned : Owned kept own cfg) :
    row.2 = confineRouteAuditLog t.confined (parseWAFConfig t.floats t.tables t.env now cfg) own := by
  cases built with
  | built clean' origins owned' =>
    have same := settingsText_inj clean' clean (routeKey_inj t key)
    rw [parse_same t origins same]
    exact owned'.same owned same _ _

theorem merged_owned (inv : Inv t kept s) (careful : blank cfg (lit "audit_log_path") ∨ cfg.at (lit "audit_log_path") ∉ kept) :
    Owned kept (cfg.at (lit "audit_log_path")) (merged t s cfg) := by
  unfold merged mergeGlobalWAFDefaults
  split
  · by_cases empty : blank cfg (lit "audit_log_path")
    · exact .inl ⟨empty,.inl empty⟩
    · exact .inr ⟨empty,rfl,careful.resolve_left empty⟩
  rename_i g on
  have stored : g ∈ s.stored := (filter_eq_some_iff.mp on).1
  have path := fill_at (rendered_distinct t.floats t.tables t.env (s.hosts t) g.waf g.tier) 29 rfl cfg
  unfold Owned blank
  rw [show mergeGlobalWAF t.floats t.tables t.env (s.hosts t) g cfg = fill cfg (rendered t.floats t.tables t.env (s.hosts t) g.waf g.tier) from rfl,
    path]
  by_cases empty : blank cfg (lit "audit_log_path")
  · left
    refine ⟨empty,?_⟩
    split
    · exact inv.paths g stored
    · exact .inl empty
  · right
    rw [if_neg fun both => empty both.2]
    exact ⟨empty,rfl,careful.resolve_left empty⟩

theorem newWAF_inv (inv : Inv t kept s) (careful : Careful t kept s (.newWAF cfg grpc)) : Inv t kept (newWAF t s cfg grpc) := by
  obtain ⟨clean,own⟩ := careful
  have owned := merged_owned t inv own
  unfold newWAF
  split
  · rename_i trusted
    have fresh : freshRoute t s cfg = some (confineRouteAuditLog t.confined
        (parseWAFConfig t.floats t.tables t.env (s.hosts t) (merged t s cfg)) (cfg.at (lit "audit_log_path"))) := if_pos trusted
    dsimp only
    split
    · rename_i cached found
      obtain ⟨held,key⟩ := get_eq_some.mp found
      refine {inv with served := forall_mem_cons.mpr ⟨?_,inv.served⟩}
      rw [fresh,(inv.routes cached held).same t key clean owned]
    · split
      · refine ⟨inv.paths,?_,inv.globals,forall_mem_cons.mpr ⟨fresh,inv.served⟩⟩
        intro row mem
        rcases mem_put.mp mem with new | ⟨old,_⟩
        · rw [new]; exact .built clean rfl owned
        · exact inv.routes row old
      · exact inv
  · exact inv

theorem newGlobalWAF_inv (inv : Inv t kept s) (grpc : Bool) : Inv t kept (newGlobalWAF t s grpc) := by
  unfold newGlobalWAF
  split
  · exact inv
  rename_i g on
  have stored : g ∈ s.stored := (filter_eq_some_iff.mp on).1
  dsimp only
  split
  · rename_i cached found
    obtain ⟨held,_⟩ := get_eq_some.mp found
    obtain ⟨hosts,origins,same⟩ := inv.globals cached held g stored
    refine {inv with served := forall_mem_cons.mpr ⟨?_,inv.served⟩}
    rw [same,global_same t origins]
    rfl
  · split
    · refine ⟨inv.paths,inv.routes,?_,forall_mem_cons.mpr ⟨rfl,inv.served⟩⟩
      intro row mem g' stored'
      rcases mem_put.mp mem with new | ⟨old,_⟩
      · cases mem_unique stored stored'; exact ⟨s.hosts t,rfl,by rw [new]; rfl⟩
      · exact inv.globals row old g' stored'
    · exact inv

theorem invalidate_inv (paths : ∀ g ∈ s.stored, trimSpace g.waf.auditLogPath = [] ∨ g.waf.auditLogPath ∈ kept)
    (served : ∀ p ∈ s.served, p.2 = some p.1) : Inv t kept (invalidateWAFCache s) := by
  refine ⟨paths,?_,?_,served⟩
  · intro row mem; exact absurd mem List.not_mem_nil
  · intro row mem; exact absurd mem List.not_mem_nil

theorem routes_inv (inv : Inv t kept s) (routes : Settings)
    (careful : uncached s ∨ SameOrigins t (s.hosts t) (routeOrigins t.tables routes)) : Inv t kept {s with routes := routes} := by
  rcases careful with nothing | same
  · simp only [uncached,Bool.and_eq_true,List.isEmpty_iff] at nothing
    exact ⟨inv.paths,by simp [nothing.1],by simp [nothing.2],inv.served⟩
  refine ⟨inv.paths,?_,?_,inv.served⟩
  · intro row mem
    cases inv.routes row mem with
    | built clean origins owned => exact .built clean (origins.trans same) owned
  · intro row mem g stored
    obtain ⟨hosts,origins,equal⟩ := inv.globals row mem g stored
    exact ⟨hosts,origins.trans same,equal⟩

theorem step_inv (inv : Inv t kept s) (careful : Careful t kept s e) (ran : step t s e = some next) : Inv t kept next := by
  cases e with
  | newWAF cfg grpc => exact some.inj ran ▸ newWAF_inv t inv careful
  | newGlobalWAF grpc => exact some.inj ran ▸ newGlobalWAF_inv t inv grpc
  | saveGlobal stored =>
    rw [← some.inj ran]
    cases stored with
    | none =>
      refine ⟨?_,inv.routes,?_,inv.served⟩
      · intro g none; exact absurd none (not_mem_none g)
      · intro row mem g none; exact absurd none (not_mem_none g)
    | some g => exact invalidate_inv t careful inv.served
  | saveMiddleware waf =>
    rw [← some.inj ran]
    cases waf with
    | false => exact inv
    | true => exact invalidate_inv t inv.paths inv.served
  | saveRoute id rule | deleteRoute id => exact some.inj ran ▸ routes_inv t inv _ careful
  | invalidateWAF => exact some.inj ran ▸ invalidate_inv t inv.paths inv.served

theorem cached_is_fresh (kept : List GoString) (path : Reached (step t) (Careful t kept) boot s) :
    ∀ p ∈ s.served, p.2 = some p.1 := by
  have start : Inv t kept (boot : Gateway F) :=
    invalidate_inv t (s := boot) (by simp [boot]) (by simp [boot])
  have inv : Inv t kept s := reached_invariant (Inv t kept) start (step_inv t) path
  exact inv.served

def sampleSite : Site Nat where
  floats := sampleFloats
  tables := .ascii
  env := sampleEnv
  sha := id
  collisionFree := fun _ _ same => same
  confined := fun name => some (lit "/audit/" ++ name)
  compiles := fun _ => true
  marshal := fun w => some w.tier

def settings (rows : List (GoString × GoString)) : Settings := rows.foldl Store.put Store.empty
def logging : Global Nat := ⟨{sampleProto with auditLogPath := lit "waf.log"},true,.standard⟩
def agreeing (s : Gateway Nat) : List Bool := s.served.map fun p => p.2 == some p.1

theorem cached_is_fresh_history :
    ∃ s, runAllowed (step sampleSite) (Careful sampleSite [lit "waf.log"]) boot
        [.saveGlobal (some logging),.saveRoute (lit "r") (lit "Host(`a.example`)"),.newGlobalWAF false,.newWAF (settings []) false,
          .newWAF (settings []) false,.newGlobalWAF true,.saveMiddleware true,.saveRoute (lit "q") (lit "Host(`b.example`)"),
          .newGlobalWAF false] = some s ∧
      s.served.length = 5 ∧ ∀ p ∈ s.served, p.2 = some p.1 :=
  shown_run (by decide +kernel) fun s path => cached_is_fresh sampleSite [lit "waf.log"] path

-- A host saved between builds, two maps of one text, a route with the gateway's log.
theorem cached_is_stale :
    (run (step sampleSite) boot [.saveGlobal (some logging),.saveRoute (lit "r") (lit "Host(`a.example`)"),.newGlobalWAF false,
      .saveRoute (lit "q") (lit "Host(`b.example`)"),.newGlobalWAF false]).map agreeing = some [false,true] ∧
    (run (step sampleSite) boot [.newWAF (settings [(lit "audit_only",lit "no;dlp=true")]) false,
      .newWAF (settings [(lit "audit_only",lit "no"),(lit "dlp",lit "true")]) false]).map agreeing = some [false,true] ∧
    (run (step sampleSite) boot [.saveGlobal (some logging),.newWAF (settings []) false,
      .newWAF (settings [(lit "audit_log_path",lit "waf.log")]) false]).map agreeing = some [false,true] := by
  refine ⟨?_,?_,?_⟩ <;> decide +kernel

end Gateon.Waf
