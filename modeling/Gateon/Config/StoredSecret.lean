import Gateon.Config.MiddlewareSecret
import Gateon.Lib.PartialLens

namespace Gateon.Config.StoredSecret
open Go Security PartialLens

-- The sections of the global configuration that hold a credential.
structure DatabaseConfig where
  driver : GoString
  host : GoString
  port : Int
  password : GoString

structure AuthConfig where
  pasetoSecret : GoString
  databaseUrl : GoString
  databaseConfig : Option DatabaseConfig

structure AuditConfig where
  signatureKey : GoString
  databaseUrl : GoString
  databaseConfig : Option DatabaseConfig

structure RedisConfig where
  addr : GoString
  password : GoString

structure HaConfig where
  authPass : GoString

structure GeoipConfig where
  maxmindLicenseKey : GoString

structure GitopsConfig where
  repositoryUrl : GoString
  authToken : GoString

structure ManagementConfig where
  gitops : Option GitopsConfig

structure BotManagement where
  secretKey : GoString

structure WafConfig where
  botManagement : Option BotManagement

structure DeceptionConfig where
  canaryToken : GoString

structure PowConfig where
  secret : GoString

structure Integration where
  id : GoString
  name : GoString
  type : GoString
  apiKey : GoString

structure IpReputation where
  integrations : List (Option Integration)

structure SecurityAdvanced where
  deception : Option DeceptionConfig
  pow : Option PowConfig
  ipReputation : Option IpReputation

structure AiConfig where
  provider : GoString
  baseUrl : GoString
  apiKey : GoString

structure Dispatcher where
  id : GoString
  name : GoString
  type : GoString
  webhookUrl : GoString
  telegramBotToken : GoString

structure AlertingConfig where
  dispatchers : List (Option Dispatcher)

structure GlobalConfig where
  auth : Option AuthConfig
  audit : Option AuditConfig
  redis : Option RedisConfig
  ha : Option HaConfig
  geoip : Option GeoipConfig
  management : Option ManagementConfig
  waf : Option WafConfig
  securityAdvanced : Option SecurityAdvanced
  ai : Option AiConfig
  alerting : Option AlertingConfig

def auth : Lens GlobalConfig AuthConfig := optional GlobalConfig.auth fun c v => { c with auth := v }
def audit : Lens GlobalConfig AuditConfig := optional GlobalConfig.audit fun c v => { c with audit := v }
def redis : Lens GlobalConfig RedisConfig := optional GlobalConfig.redis fun c v => { c with redis := v }
def ha : Lens GlobalConfig HaConfig := optional GlobalConfig.ha fun c v => { c with ha := v }
def geoip : Lens GlobalConfig GeoipConfig := optional GlobalConfig.geoip fun c v => { c with geoip := v }
def management : Lens GlobalConfig ManagementConfig := optional GlobalConfig.management fun c v => { c with management := v }
def gitops : Lens ManagementConfig GitopsConfig := optional ManagementConfig.gitops fun c v => { c with gitops := v }
def waf : Lens GlobalConfig WafConfig := optional GlobalConfig.waf fun c v => { c with waf := v }
def botManagement : Lens WafConfig BotManagement := optional WafConfig.botManagement fun c v => { c with botManagement := v }
def securityAdvanced : Lens GlobalConfig SecurityAdvanced :=
  optional GlobalConfig.securityAdvanced fun c v => { c with securityAdvanced := v }
def deception : Lens SecurityAdvanced DeceptionConfig := optional SecurityAdvanced.deception fun c v => { c with deception := v }
def pow : Lens SecurityAdvanced PowConfig := optional SecurityAdvanced.pow fun c v => { c with pow := v }
def ipReputation : Lens SecurityAdvanced IpReputation := optional SecurityAdvanced.ipReputation fun c v => { c with ipReputation := v }
def ai : Lens GlobalConfig AiConfig := optional GlobalConfig.ai fun c v => { c with ai := v }
def alerting : Lens GlobalConfig AlertingConfig := optional GlobalConfig.alerting fun c v => { c with alerting := v }
def databasePassword : Lens DatabaseConfig GoString := field DatabaseConfig.password fun c v => { c with password := v }

-- url.Parse of scheme and host, any function here.
section
variable (urlParse : GoString → Option (GoString × GoString))

def cutScheme (v : GoString) : Option (GoString × GoString) :=
  (index (lit "://") v).map fun i => (v.take i,v.drop (i+3))
def authorityEnd (rest : GoString) : Nat := rest.findIdx fun b => b == byte '/' || b == byte '?' || b == byte '#'

def urlOrigin (u : Tables) (raw : GoString) : GoString :=
  let v := trimSpace raw
  match cutScheme v with
  | none => v
  | some (scheme,rest) =>
    let host := rest.take (authorityEnd rest)
    let host := match lastIndexByte host (byte '@') with
      | none => host
      | some i => host.drop (i+1)
    match urlParse (scheme ++ lit "://" ++ host) with
    | none => v
    | some (s,h) => if h = [] then v else toLower u (s ++ lit "://" ++ h)

def databaseAddress (u : Tables) : Option DatabaseConfig → GoString
  | none => []
  | some d => toLower u d.driver ++ lit "|" ++ toLower u (trimSpace d.host) ++ lit "|" ++ formatInt d.port

structure Field where
  name : GoString
  ptr : Lens GlobalConfig GoString
  required : Bool
  url : Bool
  destination : Option (GlobalConfig → GoString)

def fields (u : Tables) : List Field := [
  ⟨lit "auth.paseto_secret",comp auth (field AuthConfig.pasetoSecret fun c v => { c with pasetoSecret := v }),true,false,none⟩,
  ⟨lit "auth.database_url",comp auth (field AuthConfig.databaseUrl fun c v => { c with databaseUrl := v }),false,true,none⟩,
  ⟨lit "auth.database_config.password",
    comp auth (comp (optional AuthConfig.databaseConfig fun c v => { c with databaseConfig := v }) databasePassword),false,false,
    some fun c => databaseAddress u (c.auth.bind AuthConfig.databaseConfig)⟩,
  ⟨lit "audit.signature_key",comp audit (field AuditConfig.signatureKey fun c v => { c with signatureKey := v }),true,false,none⟩,
  ⟨lit "audit.database_url",comp audit (field AuditConfig.databaseUrl fun c v => { c with databaseUrl := v }),false,true,none⟩,
  ⟨lit "audit.database_config.password",
    comp audit (comp (optional AuditConfig.databaseConfig fun c v => { c with databaseConfig := v }) databasePassword),false,false,
    some fun c => databaseAddress u (c.audit.bind AuditConfig.databaseConfig)⟩,
  ⟨lit "redis.password",comp redis (field RedisConfig.password fun c v => { c with password := v }),false,false,
    some fun c => toLower u (trimSpace ((c.redis.map RedisConfig.addr).getD []))⟩,
  ⟨lit "ha.auth_pass",comp ha (field HaConfig.authPass fun c v => { c with authPass := v }),false,false,none⟩,
  ⟨lit "geoip.maxmind_license_key",comp geoip (field GeoipConfig.maxmindLicenseKey fun c v => { c with maxmindLicenseKey := v }),false,false,
    none⟩,
  ⟨lit "management.gitops.repository_url",comp management (comp gitops (field GitopsConfig.repositoryUrl fun c v => { c with repositoryUrl := v })),false,true,
    none⟩,
  ⟨lit "management.gitops.auth_token",comp management (comp gitops (field GitopsConfig.authToken fun c v => { c with authToken := v })),false,false,
    some fun c => urlOrigin urlParse u (((c.management.bind ManagementConfig.gitops).map GitopsConfig.repositoryUrl).getD [])⟩,
  ⟨lit "waf.bot_management.secret_key",comp waf (comp botManagement (field BotManagement.secretKey fun c v => { c with secretKey := v })),false,false,
    none⟩,
  ⟨lit "security_advanced.deception.canary_token",comp securityAdvanced (comp deception (field DeceptionConfig.canaryToken fun c v => { c with canaryToken := v })),
    false,false,none⟩,
  ⟨lit "ai.api_key",comp ai (field AiConfig.apiKey fun c v => { c with apiKey := v }),false,false,
    some fun c => (c.ai.map AiConfig.provider).getD [] ++ lit "|" ++ urlOrigin urlParse u ((c.ai.map AiConfig.baseUrl).getD [])⟩,
  ⟨lit "security_advanced.pow.secret",comp securityAdvanced (comp pow (field PowConfig.secret fun c v => { c with secret := v })),true,false,none⟩]

structure Shape (α : Type) where
  id : α → GoString
  name : α → GoString
  destination : α → GoString
  secrets : List (GoString × Lens α GoString)

structure Listing (α : Type) where
  name : GoString
  entries : Lens GlobalConfig (List (Option α))
  shape : Shape α

-- The provider, and so the address the key goes to, is the integration's type.
def integrations : Listing Integration where
  name := lit "security_advanced.ip_reputation.integrations"
  entries := comp securityAdvanced (comp ipReputation (field IpReputation.integrations fun c v => { c with integrations := v }))
  shape := ⟨Integration.id,Integration.name,Integration.type,[(lit "api_key",field Integration.apiKey fun c v => { c with apiKey := v })]⟩

def dispatchers : Listing Dispatcher where
  name := lit "alerting.dispatchers"
  entries := comp alerting (field AlertingConfig.dispatchers fun c v => { c with dispatchers := v })
  shape := ⟨Dispatcher.id,Dispatcher.name,fun _ => [],[(lit "webhook_url",field Dispatcher.webhookUrl fun c v => { c with webhookUrl := v }),
    (lit "telegram_bot_token",field Dispatcher.telegramBotToken fun c v => { c with telegramBotToken := v })]⟩

def mentionsPassword (u : Tables) (s : GoString) : Bool := contains (toLower u s) (lit "password")

-- A value that may carry a credential in a way that cannot be taken apart is hidden whole.
def maskURL (u : Tables) (v : GoString) : GoString :=
  match cutScheme v with
  | none => if v.contains (byte '@') || mentionsPassword u v then Placeholder else v
  | some (scheme,rest) =>
    let authority := rest.take (authorityEnd rest)
    let tail := rest.drop (authorityEnd rest)
    if mentionsPassword u tail || tail.contains (byte '@') then Placeholder
    else match lastIndexByte authority (byte '@') with
      | none => v
      | some i =>
        let userinfo := cut (authority.take i) (byte ':')
        if !userinfo.2.2 then v
        else scheme ++ lit "://" ++ userinfo.1 ++ lit ":" ++ Placeholder ++ authority.drop i ++ tail

def masked (u : Tables) (v : GoString) (url : Bool) : GoString :=
  if v == [] || isReference v then v
  else if url then maskURL u v
  else Placeholder

def maskElement (u : Tables) (shape : Shape α) (e : α) : α := sweep Prod.snd (fun _ v => masked u v false) shape.secrets e
def maskList (u : Tables) (listing : Listing α) (c : GlobalConfig) : GlobalConfig :=
  listing.entries.update (List.map (Option.map (maskElement u listing.shape))) c
def Mask (u : Tables) (c : GlobalConfig) : GlobalConfig :=
  maskList u dispatchers (maskList u integrations (sweep Field.ptr (fun f v => masked u v f.url) (fields urlParse u) c))

inductive FieldError where
  | nothingStored
  | moved
  | partialPlaceholder

def FieldError.text : FieldError → GoString
  | .nothingStored => lit "the placeholder keeps a stored secret, and none is stored here; enter the value"
  | .moved => lit ("the stored secret is kept only for the destination it was entered for, and this update " ++
      "changes that destination; enter the secret again")
  | .partialPlaceholder => lit ("the value contains the stored-secret placeholder but is not it; send the " ++
      "placeholder alone to keep the stored secret, or a complete new value")

def keepURL (u : Tables) (f : Field) (update : GlobalConfig) (p kept : GoString) : GlobalConfig × Option FieldError :=
  let shown := masked u kept true
  if !f.url then (update,some .partialPlaceholder)
  else if shown = p then (f.ptr.set update kept,none)
  else if contains shown Placeholder then (update,some .moved)
  else (update,some .partialPlaceholder)

def restoreField (u : Tables) (f : Field) (update stored : GlobalConfig) : GlobalConfig × Option FieldError :=
  match f.ptr.get update with
  | none => (update,none)
  | some p =>
    let kept := (f.ptr.get stored).getD []
    if p == [] && f.required then (f.ptr.set update kept,none)
    else if !contains p Placeholder then (update,none)
    else if kept = [] then (update,some .nothingStored)
    else if p ≠ Placeholder then keepURL u f update p kept
    else if f.destination.any fun destination => destination update ≠ destination stored then (update,some .moved)
    else (f.ptr.set update kept,none)

inductive ElementError where
  | noID
  | notStored
  | shared (count : Nat)
  | moved
  | secrets (errs : List (GoString × FieldError))

def ElementError.text : ElementError → GoString
  | .noID => lit "it has no id, so no stored element can be matched to it; enter its secrets again"
  | .notStored => lit "no stored element has this id, so there is no stored secret to keep; enter its secrets again"
  | .shared count => decimal count ++ lit " stored elements share this id, so which secret to keep is ambiguous; enter its secrets again"
  | .moved => FieldError.moved.text
  | .secrets errs => join (errs.map fun err => err.1 ++ lit ": " ++ err.2.text) [10]

def restoreSecret (stored : α) (state : α × List (GoString × FieldError)) (secret : GoString × Lens α GoString) :
    α × List (GoString × FieldError) :=
  let p := (secret.2.get state.1).getD []
  let kept := (secret.2.get stored).getD []
  if !contains p Placeholder then state
  else if p ≠ Placeholder then (state.1,state.2 ++ [(secret.1,.partialPlaceholder)])
  else if kept = [] then (state.1,state.2 ++ [(secret.1,.nothingStored)])
  else (secret.2.set state.1 kept,state.2)

def restoreElement (shape : Shape α) (e : α) (found : List α) : α × Option ElementError :=
  if shape.id e = [] then (e,some .noID)
  else match found with
    | [] => (e,some .notStored)
    | [stored] =>
      if shape.destination stored ≠ shape.destination e then (e,some .moved)
      else
        let restored := shape.secrets.foldl (restoreSecret stored) (e,[])
        (restored.1,if restored.2.isEmpty then none else some (.secrets restored.2))
    | found => (e,some (.shared found.length))

def keepsASecret (shape : Shape α) (e : α) : Bool := shape.secrets.any fun secret => (secret.2.get e).any (contains · Placeholder)

-- indexByID: an element without an id is not in it.
def withID (shape : Shape α) (stored : List α) (id : GoString) : List α := stored.filter fun e => shape.id e ≠ [] && shape.id e == id

def describe (u : Tables) (listing : Listing α) (position : Nat) (e : α) : GoString :=
  if listing.shape.id e = [] then
    listing.name ++ lit "[" ++ decimal position ++ lit "] (name " ++ quote u (listing.shape.name e) ++ lit ")"
  else listing.name ++ lit "[id " ++ quote u (listing.shape.id e) ++ lit ", name " ++ quote u (listing.shape.name e) ++ lit "]"

def restoreElements (u : Tables) (listing : Listing α) (stored : List α) : Nat → List (Option α) → List (Option α) × List GoString
  | _,[] => ([],[])
  | i,none :: rest =>
    let (later,errs) := restoreElements u listing stored i rest
    (none :: later,errs)
  | i,some e :: rest =>
    let (later,errs) := restoreElements u listing stored (i+1) rest
    if keepsASecret listing.shape e then
      let (restored,err) := restoreElement listing.shape e (withID listing.shape stored (listing.shape.id e))
      (some restored :: later,(err.toList.map fun err => describe u listing i e ++ lit ": " ++ err.text) ++ errs)
    else (some e :: later,errs)

def Listing.elements (listing : Listing α) (c : GlobalConfig) : List α := ((listing.entries.get c).getD []).filterMap id

def restoreList (u : Tables) (listing : Listing α) (stored : GlobalConfig) (state : GlobalConfig × List GoString) :
    GlobalConfig × List GoString :=
  match listing.entries.get state.1 with
  | none => state
  | some entries =>
    let (restored,errs) := restoreElements u listing (listing.elements stored) 0 entries
    (listing.entries.set state.1 restored,state.2 ++ errs)

def restoreFields (u : Tables) (stored update : GlobalConfig) : GlobalConfig × List GoString :=
  (fields urlParse u).foldl (fun state f =>
    let (next,err) := restoreField u f state.1 stored
    (next,state.2 ++ err.toList.map fun err => f.name ++ lit ": " ++ err.text)) (update,[])

def Restore (u : Tables) (update stored : GlobalConfig) : GlobalConfig × List GoString :=
  restoreList u dispatchers stored (restoreList u integrations stored (restoreFields urlParse u stored update))

-- No "://" begins within another, so the first is the one that was written.
theorem cutScheme_written (free : contains scheme (lit "://") = false) (rest : GoString) :
    cutScheme (scheme ++ (lit "://" ++ rest)) = some (scheme,rest) := by
  have found : index (lit "://") (scheme ++ (lit "://" ++ rest)) = some scheme.length := by
    induction scheme with
    | nil => rfl
    | cons x s ih =>
      have later : contains s (lit "://") = false := by
        apply Bool.eq_false_iff.mpr
        intro inside
        rw [contains_iff.mpr ((contains_iff.mp inside).trans (List.suffix_cons x s).isInfix)] at free
        cases free
      have here : (lit "://").isPrefixOf (x :: (s ++ (lit "://" ++ rest))) = false := by
        apply Bool.eq_false_iff.mpr
        intro starts
        rw [ List.isPrefixOf_iff_prefix] at starts
        have long : ¬3 ≤ (x :: s).length := by
          intro long
          have whole : lit "://" <+: x :: s := List.prefix_of_prefix_length_le starts (List.prefix_append (x :: s) _) long
          rw [contains_iff.mpr whole.isInfix] at free
          cases free
        have apart : byte '/' ≠ byte ':' := by decide
        rcases s with _ | ⟨y,_ | ⟨z,s⟩⟩
        · simp [show lit "://" = [byte ':',byte '/',byte '/'] from rfl,apart] at starts
        · simp [show lit "://" = [byte ':',byte '/',byte '/'] from rfl,apart] at starts
        · simp at long
      rw [List.cons_append,index,here,ih later]
      rfl
  rw [cutScheme,found]
  simp [show (lit "://").length = 3 from rfl]

def endsAuthority (b : UInt8) : Bool := b == byte '/' || b == byte '?' || b == byte '#'
def connectionURL (scheme user pw host tail : GoString) : GoString :=
  scheme ++ (lit "://" ++ (user ++ byte ':' :: pw ++ byte '@' :: host ++ tail))

theorem maskURL_blind (u : Tables) (named : contains scheme (lit "://") = false)
    (userFree : ∀ b ∈ user, b ≠ byte ':' ∧ b ≠ byte '@' ∧ endsAuthority b = false)
    (hostFree : ∀ b ∈ host, b ≠ byte '@' ∧ endsAuthority b = false) (tailed : ∀ b, tail.head? = some b → endsAuthority b = true)
    (pw : GoString) : maskURL u (connectionURL scheme user pw host tail) = Placeholder ∨
      maskURL u (connectionURL scheme user pw host tail) = connectionURL scheme user Placeholder host tail := by
  rw [maskURL,connectionURL,cutScheme_written named]
  dsimp only
  split
  · exact .inl rfl
  right
  rename_i clear
  rw [Bool.or_eq_true,not_or] at clear
  -- A delimiter in the password leaves the '@' after it outside the authority.
  have plain : ∀ b ∈ user ++ byte ':' :: pw, endsAuthority b = false := by
    intro b mem
    by_contra found
    have early := List.findIdx_lt_length_of_exists ⟨b,mem,Bool.not_eq_false _ ▸ found⟩
    have cutoff : authorityEnd (user ++ byte ':' :: pw ++ (byte '@' :: host ++ tail)) = (user ++ byte ':' :: pw).findIdx endsAuthority :=
      List.findIdx_append.trans (if_pos early)
    apply clear.2
    rw [List.append_assoc,cutoff,List.drop_append_of_le_length early.le]
    simp
  have none : ∀ b ∈ user ++ byte ':' :: pw ++ byte '@' :: host, endsAuthority b = false := by
    intro b mem
    rcases List.mem_append.mp mem with front | behind
    · exact plain b front
    · rcases List.mem_cons.mp behind with rfl | inside
      · decide
      · exact (hostFree b inside).2
  have ends : authorityEnd (user ++ byte ':' :: pw ++ byte '@' :: host ++ tail) = (user ++ byte ':' :: pw ++ byte '@' :: host).length := by
    have all := List.findIdx_eq_length_of_false none
    refine List.findIdx_append.trans ((if_neg (Nat.not_lt.mpr (Nat.le_of_eq all.symm))).trans ?_)
    cases tail with
    | nil => exact Nat.zero_add _
    | cons b tail =>
      rw [List.findIdx_cons,show (b == byte '/' || b == byte '?' || b == byte '#') = true from tailed b rfl]
      exact Nat.zero_add _
  rw [ends,List.take_left,List.drop_left,lastIndexByte_found fun mem => (hostFree _ mem).1 rfl]
  dsimp only
  rw [List.take_left,List.drop_left,cut_append fun mem => (userFree _ mem).1 rfl]
  simp [connectionURL,show lit ":" = [byte ':'] from rfl]

-- The password holds delimiters of every kind.
theorem maskURL_blind_delimiters :
    maskURL .ascii (connectionURL (lit "postgres") (lit "g") (lit "p@:/?#w") (lit "db") (lit "/x?y")) = Placeholder ∨
      maskURL .ascii (connectionURL (lit "postgres") (lit "g") (lit "p@:/?#w") (lit "db") (lit "/x?y")) =
        connectionURL (lit "postgres") (lit "g") Placeholder (lit "db") (lit "/x?y") :=
  maskURL_blind .ascii (by decide +kernel) (by decide +kernel) (by decide +kernel) (by rintro b ⟨rfl⟩; rfl) (lit "p@:/?#w")

end

open Option
open List hiding contains

variable (urlParse : GoString → Option (GoString × GoString))

-- A field is apart from those after it, and its destination does not depend on them.
structure Before (f g : Field) : Prop where
  apart : Apart f.ptr g.ptr
  destination : ∀ d, f.destination = some d → ∀ c v, d (g.ptr.set c v) = d c

section
variable (u : Tables)

theorem fields_before : (fields urlParse u).Pairwise Before := by
  unfold fields
  simp only [pairwise_cons,forall_mem_cons,not_mem_nil,false_imp_iff,implies_true,and_true,List.Pairwise.nil]
  repeat' apply And.intro
  all_goals
    constructor
    · -- Two sections, or two fields of one section.
      first
        | exact Apart.inside ⟨fun _ _ => rfl,fun _ _ => rfl,fun _ _ _ => rfl⟩ ..
        | exact Apart.within _ ⟨fun _ _ => rfl,fun _ _ => rfl,fun _ _ _ => rfl⟩
        | exact Apart.within _ (Apart.right ⟨fun _ _ => rfl,fun _ _ => rfl,fun _ _ _ => rfl⟩ _)
        | exact Apart.within _ (Apart.inside ⟨fun _ _ => rfl,fun _ _ => rfl,fun _ _ _ => rfl⟩ ..)
        | exact Apart.within _ (Apart.within _ ⟨fun _ _ => rfl,fun _ _ => rfl,fun _ _ _ => rfl⟩)
    · intro d here c v; exact comp_keeps (g := d) (fun _ _ => by cases here <;> rfl) c v

theorem fields_own : ∀ f ∈ fields urlParse u, ∀ d, f.destination = some d → ∀ c v, d (f.ptr.set c v) = d c := by
  unfold fields
  simp only [forall_mem_cons,not_mem_nil,false_imp_iff,implies_true,and_true,reduceCtorEq,true_and,some.injEq]
  refine ⟨?_,?_,?_,?_,?_⟩ <;> rintro d rfl ⟨auth,audit,redis,_,_,management,_,_,ai,_⟩ v
  · cases auth with
    | none => rfl
    | some a => rcases a with ⟨_,_,_ | _⟩ <;> rfl
  · cases audit with
    | none => rfl
    | some a => rcases a with ⟨_,_,_ | _⟩ <;> rfl
  · cases redis <;> rfl
  · cases management with
    | none => rfl
    | some m => rcases m with ⟨_ | _⟩ <;> rfl
  · cases ai <;> rfl

-- A list of sections beside a field, which its destination does not read either.
structure Beside (f : Field) (listing : Listing α) : Prop where
  apart : Apart f.ptr listing.entries
  destination : ∀ d, f.destination = some d → ∀ c v, d (listing.entries.set c v) = d c

theorem fields_beside : ∀ f ∈ fields urlParse u, Beside f integrations ∧ Beside f dispatchers := by
  unfold fields
  simp only [forall_mem_cons,not_mem_nil,false_imp_iff,implies_true,and_true]
  repeat' apply And.intro
  all_goals
    constructor
    · first
        | exact Apart.inside ⟨fun _ _ => rfl,fun _ _ => rfl,fun _ _ _ => rfl⟩ ..
        | exact Apart.within _ (Apart.inside ⟨fun _ _ => rfl,fun _ _ => rfl,fun _ _ _ => rfl⟩ ..)
    · intro d here c v; exact comp_keeps (g := d) (fun _ _ => by cases here <;> rfl) c v

theorem lists_apart : Apart integrations.entries dispatchers.entries :=
  Apart.inside ⟨fun _ _ => rfl,fun _ _ => rfl,fun _ _ _ => rfl⟩ ..

theorem maskURL_cases (v : GoString) : maskURL u v = v ∨ contains (maskURL u v) Placeholder := by
  have marked : contains Placeholder Placeholder := by decide
  unfold maskURL
  cases cutScheme v with
  | none =>
    dsimp only
    split
    · exact .inr marked
    · exact .inl rfl
  | some parts =>
    dsimp only
    split
    · exact .inr marked
    cases lastIndexByte (parts.2.take (authorityEnd parts.2)) (byte '@') with
    | none => exact .inl rfl
    | some i =>
      dsimp only
      split
      · exact .inl rfl
      refine .inr (contains_iff.mpr ?_)
      simp only [append_assoc]
      iterate 4 refine List.IsInfix.trans ?_ (suffix_append _ _).isInfix
      exact (prefix_append _ _).isInfix

theorem masked_cases (v : GoString) (url : Bool) : masked u v url = v ∨
    v ≠ [] ∧ contains (masked u v url) Placeholder ∧ (masked u v url = Placeholder ∨ url) := by
  unfold masked
  split
  · exact .inl rfl
  rename_i plain
  have filled : v ≠ [] := by rintro rfl; simp at plain
  split
  · rename_i isURL
    rcases maskURL_cases u v with same | marked
    · exact .inl same
    · exact .inr ⟨filled,marked,.inr isURL⟩
  · exact .inr ⟨filled,show contains Placeholder Placeholder by decide,.inl rfl⟩

def maskedField (f : Field) (v : GoString) : GoString := masked u v f.url

end

theorem restoreField_masked {f : Field} {after : List Field} {base stored : GlobalConfig} (u : Tables) (later : ∀ g ∈ after, Before f g)
    (own : ∀ d, f.destination = some d → ∀ c v, d (f.ptr.set c v) = d c) (same : f.ptr.get base = f.ptr.get stored)
    (destination : ∀ d, f.destination = some d → d base = d stored)
    (free : ∀ v, f.ptr.get stored = some v → contains v Placeholder = false) :
    restoreField u f (sweep Field.ptr (maskedField u) (f :: after) base) stored = (sweep Field.ptr (maskedField u) after base,none) := by
  have apart : ∀ g ∈ after, Apart f.ptr g.ptr := fun g member => (later g member).apart
  have shown := get_sweep Field.ptr (maskedField u) apart base
  have goes : ∀ d, f.destination = some d → d (sweep Field.ptr (maskedField u) (f :: after) base) = d stored := by
    intro d here
    rw [sweep_keeps Field.ptr (maskedField u) (g := d),destination d here]
    intro g member
    rcases mem_cons.mp member with rfl | tail
    · exact own d here
    · exact (later g tail).destination d here
  cases here : f.ptr.get base with
  | none =>
    rw [restoreField,shown,here,sweep_cons,update_same f.ptr fun v found => by rw [here] at found; cases found]
    rfl
  | some v =>
    have kept : f.ptr.get stored = some v := same ▸ here
    have undone := set_sweep Field.ptr (maskedField u) apart here
    unfold restoreField
    rw [shown,here,kept]
    simp only [map_some,getD_some]
    rcases masked_cases u v f.url with fixed | ⟨filled,marked,shape⟩
    · have same : maskedField u f v = v := fixed
      rw [same,undone,free v kept,sweep_cons,update_same f.ptr fun w found => by
        cases here.symm.trans found
        exact same]
      simp
    have differs : maskedField u f v ≠ [] := by
      intro empty
      rw [show masked u v f.url = [] from empty] at marked
      exact absurd marked (by decide)
    have moved : (f.destination.any fun d => decide (d (sweep Field.ptr (maskedField u) (f :: after) base) ≠ d stored)) = false := by
      cases where_ : f.destination with
      | none => rfl
      | some d => simp [goes d where_]
    rw [undone,moved]
    simp only [beq_eq_false_iff_ne.mpr differs,show contains (maskedField u f v) Placeholder from marked,Bool.false_and,
      Bool.false_eq_true,if_false,Bool.not_true,filled]
    split
    · rename_i partly
      have isURL : f.url := shape.resolve_left partly
      rw [keepURL,undone]
      simp [isURL,maskedField]
    · rfl

theorem restoreFields_masked {base stored : GlobalConfig} (u : Tables) (same : ∀ f ∈ fields urlParse u, f.ptr.get base = f.ptr.get stored)
    (destination : ∀ f ∈ fields urlParse u, ∀ d, f.destination = some d → d base = d stored)
    (free : ∀ f ∈ fields urlParse u, ∀ v, f.ptr.get stored = some v → contains v Placeholder = false) :
    restoreFields urlParse u stored (sweep Field.ptr (maskedField u) (fields urlParse u) base) = (base,[]) := by
  refine unsweep Field.ptr (maskedField u) ?_
  intro before f after shape
  have member : f ∈ fields urlParse u := shape ▸ mem_append_right before (mem_cons_self ..)
  have later : ∀ g ∈ after, Before f g := by
    have ordered := fields_before urlParse u
    rw [shape,pairwise_append,pairwise_cons] at ordered
    exact ordered.2.1.1
  rw [restoreField_masked u later (fields_own urlParse u f member) (same f member) (destination f member) (free f member)]
  rfl

structure Shape.Lawful (shape : Shape α) : Prop where
  apart : shape.secrets.Pairwise fun s t => Apart s.2 t.2
  id : ∀ s ∈ shape.secrets, ∀ e v, shape.id (s.2.set e v) = shape.id e
  destination : ∀ s ∈ shape.secrets, ∀ e v, shape.destination (s.2.set e v) = shape.destination e

theorem integrations_lawful : integrations.shape.Lawful := by
  refine ⟨?_,?_,?_⟩ <;> simp only [integrations,pairwise_singleton,forall_mem_cons,not_mem_nil,false_imp_iff,implies_true,and_true]
  · exact fun _ _ => rfl
  · exact fun _ _ => rfl

theorem dispatchers_lawful : dispatchers.shape.Lawful := by
  refine ⟨?_,?_,?_⟩ <;> simp only [dispatchers,pairwise_cons,forall_mem_cons,not_mem_nil,false_imp_iff,implies_true,and_true,
    List.Pairwise.nil]
  · exact ⟨fun _ _ => rfl,fun _ _ => rfl,fun _ _ _ => rfl⟩
  · exact ⟨fun _ _ => rfl,fun _ _ => rfl⟩

def Unheld (shape : Shape α) (e : α) : Prop := ∀ s ∈ shape.secrets, ∀ v, s.2.get e = some v → contains v Placeholder = false

theorem restoreSecret_masked {s : GoString × Lens α GoString} {after : List (GoString × Lens α GoString)} (u : Tables) (e : α)
    (apart : ∀ t ∈ after, Apart s.2 t.2) (free : ∀ v, s.2.get e = some v → contains v Placeholder = false) :
    restoreSecret e (sweep Prod.snd (fun _ v => masked u v false) (s :: after) e,[]) s =
      (sweep Prod.snd (fun _ v => masked u v false) after e,[]) := by
  unfold restoreSecret
  rw [get_sweep Prod.snd _ apart]
  cases here : s.2.get e with
  | none =>
    rw [sweep_cons,update_same s.2 fun v found => by rw [here] at found; cases found]
    exact if_pos (show (!contains [] Placeholder) by decide)
  | some v =>
    simp only [map_some,getD_some]
    rcases masked_cases u v false with fixed | ⟨filled,marked,shape⟩
    · rw [fixed,free v here,sweep_cons,update_same s.2 fun w found => by
        cases here.symm.trans found
        exact fixed]
      rfl
    · have whole : masked u v false = Placeholder := by simpa using shape
      rw [marked,whole]
      simp only [Bool.not_true,Bool.false_eq_true,if_false,ne_eq,not_true_eq_false,filled]
      rw [set_sweep Prod.snd _ apart here]

section
variable {shape : Shape α} (u : Tables) (lawful : shape.Lawful) (free : Unheld shape e)
include shape u lawful free

theorem restoreSecrets_masked : shape.secrets.foldl (restoreSecret e) (maskElement u shape e,[]) = (e,[]) := by
  refine unsweep Prod.snd (fun _ v => masked u v false) ?_
  intro before s after split
  have ordered := lawful.apart
  rw [split,pairwise_append,pairwise_cons] at ordered
  exact restoreSecret_masked u e ordered.2.1.1 (free s (split ▸ mem_append_right before (mem_cons_self ..)))

theorem maskElement_same (plain : keepsASecret shape (maskElement u shape e) = false) : maskElement u shape e = e := by
  have idle : ∀ secrets : List (GoString × Lens α GoString), (∀ s ∈ secrets, (s.2.get (maskElement u shape e)).any (contains · Placeholder) = false) →
      secrets.foldl (restoreSecret e) (maskElement u shape e,[]) = (maskElement u shape e,[]) := by
    intro secrets
    induction secrets with
    | nil => exact fun _ => rfl
    | cons s rest ih =>
      intro none
      have clear : contains ((s.2.get (maskElement u shape e)).getD []) Placeholder = false := by
        have here := none s (mem_cons_self ..)
        cases found : s.2.get (maskElement u shape e) with
        | none => decide
        | some v => simpa [found] using here
      rw [foldl_cons,show restoreSecret e (maskElement u shape e,[]) s = (maskElement u shape e,[]) by simp [restoreSecret,clear]]
      exact ih (forall_mem_cons.mp none).2
  have shown := idle shape.secrets (by simpa [keepsASecret] using plain)
  rw [restoreSecrets_masked u lawful free] at shown
  exact (congrArg Prod.fst shown).symm

end

theorem filter_id {α : Type} {f : α → GoString} {list : List α} {e : α} (distinct : (list.map f).Nodup) (member : e ∈ list) :
    list.filter (fun x => f x == f e) = [e] := by
  refine perm_singleton.mp ((perm_ext_iff_of_nodup (distinct.of_map.filter _) (nodup_singleton e)).mpr fun x => ?_)
  rw [mem_filter,mem_singleton,beq_iff_eq]
  refine ⟨fun ⟨held,same⟩ => inj_on_of_nodup_map distinct held member same,?_⟩
  rintro rfl
  exact ⟨member,rfl⟩

structure CleanList (listing : Listing α) (c : GlobalConfig) : Prop where
  unheld : ∀ e ∈ listing.elements c, Unheld listing.shape e
  named : ∀ e ∈ listing.elements c, listing.shape.id e ≠ []
  distinct : ((listing.elements c).map listing.shape.id).Nodup

section
variable {listing : Listing α} (u : Tables) (lawful : listing.shape.Lawful) (clean : CleanList listing c)
include lawful clean

theorem restoreElement_masked (member : e ∈ listing.elements c) : restoreElement listing.shape (maskElement u listing.shape e)
      (withID listing.shape (listing.elements c) (listing.shape.id (maskElement u listing.shape e))) = (e,none) := by
  have id : listing.shape.id (maskElement u listing.shape e) = listing.shape.id e := sweep_keeps Prod.snd _ lawful.id e
  have destination : listing.shape.destination (maskElement u listing.shape e) = listing.shape.destination e :=
    sweep_keeps Prod.snd _ lawful.destination e
  have found : withID listing.shape (listing.elements c) (listing.shape.id e) = [e] := by
    rw [withID,← filter_id clean.distinct member]
    refine filter_congr ?_
    intro x inside
    simp [clean.named x inside]
  unfold restoreElement
  rw [id,if_neg (clean.named e member),found]
  dsimp only
  rw [destination,if_neg (by simp),restoreSecrets_masked u lawful (clean.unheld e member)]
  rfl

theorem restoreElements_masked (entries : List (Option α)) (inside : ∀ e, some e ∈ entries → e ∈ listing.elements c) (i : Nat) :
    restoreElements u listing (listing.elements c) i (entries.map (Option.map (maskElement u listing.shape))) = (entries,[]) := by
  induction entries generalizing i with
  | nil => rfl
  | cons entry rest ih =>
    have later := ih fun e member => inside e (mem_cons_of_mem _ member)
    cases entry with
    | none =>
      rw [map_cons,map_none,restoreElements,later]
    | some e =>
      have member := inside e (mem_cons_self ..)
      rw [map_cons,map_some,restoreElements,later]
      cases keeps : keepsASecret listing.shape (maskElement u listing.shape e) with
      | true => rw [restoreElement_masked u lawful clean member]; rfl
      | false => rw [maskElement_same u lawful (clean.unheld e member) keeps]; rfl

end

theorem restoreList_masked {listing : Listing α} {base c : GlobalConfig} (u : Tables) (lawful : listing.shape.Lawful) (clean : CleanList listing c)
    (same : listing.entries.get base = listing.entries.get c) : restoreList u listing c (maskList u listing base,[]) = (base,[]) := by
  unfold restoreList maskList
  rw [get_update]
  cases here : listing.entries.get base with
  | none => rw [update_same listing.entries fun v found => by rw [here] at found; cases found]; rfl
  | some entries =>
    have inside : ∀ e, some e ∈ entries → e ∈ listing.elements c := by
      intro e member
      rw [Listing.elements,← same,here]
      exact mem_filterMap.mpr ⟨some e,member,rfl⟩
    rw [map_some]
    dsimp only
    rw [restoreElements_masked u lawful clean entries inside,set_update,listing.entries.set_get base entries here]
    rfl

structure CleanConfig (u : Tables) (c : GlobalConfig) : Prop where
  fields : ∀ f ∈ fields urlParse u, ∀ v, f.ptr.get c = some v → contains v Placeholder = false
  integrations : CleanList integrations c
  dispatchers : CleanList dispatchers c

theorem mask_restore (u : Tables) (c : GlobalConfig) (clean : CleanConfig urlParse u c) :
    Restore urlParse u (Mask urlParse u c) c = (c,[]) := by
  let base := maskList u dispatchers (maskList u integrations c)
  have shown : Mask urlParse u c = sweep Field.ptr (maskedField u) (fields urlParse u) base := by
    change maskList u dispatchers (maskList u integrations (sweep Field.ptr (maskedField u) (fields urlParse u) c)) = _
    rw [maskList,maskList,update_sweep Field.ptr _ fun f member => (fields_beside urlParse u f member).1.apart,
      update_sweep Field.ptr _ fun f member => (fields_beside urlParse u f member).2.apart]
    rfl
  have same : ∀ f ∈ fields urlParse u, f.ptr.get base = f.ptr.get c := by
    intro f member
    change f.ptr.get (dispatchers.entries.update _ (integrations.entries.update _ c)) = _
    obtain ⟨integrated,dispatched⟩ := fields_beside urlParse u f member
    rw [dispatched.apart.get_update,integrated.apart.get_update]
  have destination : ∀ f ∈ fields urlParse u, ∀ d, f.destination = some d → d base = d c := by
    intro f member d here
    obtain ⟨integrated,dispatched⟩ := fields_beside urlParse u f member
    have one := update_keeps dispatchers.entries (g := d) (dispatched.destination d here)
    have two := update_keeps integrations.entries (g := d) (integrated.destination d here)
    exact (one ..).trans (two ..)
  have swapped : base = maskList u integrations (maskList u dispatchers c) := lists_apart.update_update ..
  have untouched : integrations.entries.get (maskList u dispatchers c) = integrations.entries.get c := lists_apart.get_update ..
  unfold Restore
  rw [shown,restoreFields_masked urlParse u same destination clean.fields,swapped,
    restoreList_masked u integrations_lawful clean.integrations untouched,restoreList_masked u dispatchers_lawful clean.dispatchers rfl]

def sampleConfig : GlobalConfig where
  auth := some ⟨lit "k1",lit "postgres://g:pw@db/g",none⟩
  audit := none
  redis := some ⟨lit "cache:6379",lit "$env:REDIS"⟩
  ha := none
  geoip := none
  management := some ⟨some ⟨lit "https://bot:pw@git/conf",lit "t1"⟩⟩
  waf := none
  securityAdvanced := some ⟨none,some ⟨lit "k2"⟩,some ⟨[none,some ⟨lit "a",lit "A",lit "abuseipdb",lit "k3"⟩]⟩⟩
  ai := none
  alerting := some ⟨[some ⟨lit "s",lit "S",lit "slack",lit "https://hook",[]⟩]⟩

theorem CleanList.checked {listing : Listing α} (free : ∀ e ∈ listing.elements c, ∀ s ∈ listing.shape.secrets,
      (s.2.get e).all (fun v => !contains v Placeholder)) (named : ∀ e ∈ listing.elements c, listing.shape.id e ≠ [])
    (distinct : ((listing.elements c).map listing.shape.id).Nodup) : CleanList listing c := by
  refine ⟨fun e inside s member v held => ?_,named,distinct⟩
  simpa [held] using free e inside s member

theorem sampleConfig_clean : CleanConfig (fun _ => none) Tables.ascii sampleConfig where
  fields := by
    have free : ∀ f ∈ fields (fun _ => none) Tables.ascii, (f.ptr.get sampleConfig).all (fun v => !contains v Placeholder) := by decide +kernel
    intro f member v held
    simpa [held] using free f member
  integrations := .checked (by decide +kernel) (by decide) (by decide)
  dispatchers := .checked (by decide +kernel) (by decide) (by decide)

theorem mask_restore_sample : CleanConfig (fun _ => none) Tables.ascii sampleConfig ∧
    Restore (fun _ => none) Tables.ascii (Mask (fun _ => none) Tables.ascii sampleConfig) sampleConfig = (sampleConfig,[]) :=
  ⟨sampleConfig_clean,mask_restore (fun _ => none) Tables.ascii sampleConfig sampleConfig_clean⟩

end Gateon.Config.StoredSecret
