import Gateon.Waf.Config

namespace Gateon.Waf
open Go Security KeyedStore List

-- The stored gateway-wide WAF with the tier resolveWAFTier finds for it.
structure Global (F : Type) where
  waf : WafProto F
  enabled : Bool
  tier : Tier

def blank (cfg : Settings) (key : GoString) : Prop := trimSpace (cfg.at key) = []

instance (cfg : Settings) (key : GoString) : Decidable (blank cfg key) := inferInstanceAs (Decidable (_ = _))

def setIfMissing (cfg : Settings) (key val : GoString) : Settings := if blank cfg key then cfg.put (key,val) else cfg

abbrev Rows := List (Bool × GoString × GoString)

def fill (cfg : Settings) (rows : Rows) : Settings :=
  rows.foldl (fun cfg row => if row.1 then setIfMissing cfg row.2.1 row.2.2 else cfg) cfg

variable {F : Type} (fl : Floats F) (u : Tables) (env : Env)

def inheritedSettings (c : WAFConfig F) : Rows :=
  [(true,lit "sqli",formatBool !c.disableSQLI),
    (true,lit "xss",formatBool !c.disableXSS),
    (true,lit "lfi",formatBool !c.disableLFI),
    (true,lit "rce",formatBool !c.disableRCE),
    (true,lit "php",formatBool !c.disablePHP),
    (true,lit "scanner",formatBool !c.disableScanner),
    (true,lit "protocol",formatBool !c.disableProtocol),
    (true,lit "java",formatBool !c.disableJava),
    (true,lit "nodejs",formatBool !c.disableNodeJS),
    (true,lit "wordpress",formatBool !c.disableWordPress),
    (true,lit "ip_reputation",formatBool c.enableIPReputation),
    (true,lit "malware_detection",formatBool c.enableMalwareDetection),
    (true,lit "ransomware_detection",formatBool c.enableRansomwareDetection),
    (true,lit "dlp",formatBool c.enableDLP),
    (true,lit "audit_only",formatBool c.auditOnly),
    (true,lit "paranoia_level",formatInt c.paranoiaLevel),
    (true,lit "ssrf_protection",formatBool c.enableSSRFProtection),
    (true,lit "trust_cloudflare_headers",formatBool c.trustCloudflare),
    (true,lit "audit_log_relevant_only",formatBool c.auditLogRelevantOnly),
    (true,lit "disable_entropy",formatBool c.disableEntropy),
    (true,lit "enable_body_entropy",formatBool c.enableBodyEntropy),
    (true,lit "enable_fingerprint_validation",formatBool c.enableFingerprintValidation),
    (true,lit "enable_confidence_scoring",formatBool c.enableConfidenceScoring),
    (c.appProfiles ≠ [],lit "app_profiles",join c.appProfiles [byte ',']),
    (c.origins ≠ [],lit "origins",join c.origins [byte ','])]

-- applyGlobalCRSTunables without the rules directory, whose key nothing reads.
def crsTunables (w : WafProto F) : Rows :=
  [(w.dlpAction ≠ [],lit "dlp_action",w.dlpAction),
    (0 < w.anomalyThreshold.toInt,lit "anomaly_threshold",formatInt w.anomalyThreshold.toInt),
    (0 < w.requestBodyLimit.toInt,lit "request_body_limit",formatInt w.requestBodyLimit.toInt),
    (0 < w.responseBodyLimit.toInt,lit "response_body_limit",formatInt w.responseBodyLimit.toInt),
    (w.auditLogPath ≠ [],lit "audit_log_path",w.auditLogPath),
    (w.allowedAdminIps ≠ [],lit "allowed_admin_ips",join w.allowedAdminIps [byte ',']),
    (fl.positive w.entropyThreshold,lit "entropy_threshold",fl.format w.entropyThreshold)]

def mergeGlobalWAF (hosts : List GoString) (g : Global F) (cfg : Settings) : Settings :=
  fill cfg (inheritedSettings (globalWAFConfig u env hosts g.waf g.tier) ++ crsTunables fl g.waf)
def trustCloudflare (stored : Option (Global F)) : Bool :=
  isYes u env.trustCloudflare || (stored.map (·.waf.trustCloudflareHeaders)).getD false

def checkRouteCloudflareTrust (stored : Option (Global F)) (cfg : Settings) : Bool :=
  let v := trimSpace (cfg.at (lit "trust_cloudflare_headers"))
  v == [] || isYes u v == trustCloudflare u env stored

-- `confined` is the path a route's own name stands for under the audit directory.
def confineRouteAuditLog (confined : GoString → Option GoString) (c : WAFConfig F) (own : GoString) : WAFConfig F :=
  let own := trimSpace own
  if own = [] then c
  else
    match confined own with
    | none => {c with auditLogPath := []}
    | some path => {c with auditLogPath := path,auditLogConfined := true}

def enabledWAF (stored : Option (Global F)) : Option (Global F) := stored.filter (·.enabled)

def mergeGlobalWAFDefaults (hosts : List GoString) (stored : Option (Global F)) (cfg : Settings) : Settings :=
  match enabledWAF stored with
  | none => cfg
  | some g => mergeGlobalWAF fl u env hosts g cfg

-- What NewWAF builds an engine from; none where it returns an error.
def newWAFConfig (confined : GoString → Option GoString) (hosts : List GoString) (stored : Option (Global F)) (cfg : Settings) :
    Option (WAFConfig F) :=
  if checkRouteCloudflareTrust u env stored cfg then
    some (confineRouteAuditLog confined (parseWAFConfig fl u env hosts (mergeGlobalWAFDefaults fl u env hosts stored cfg))
      (cfg.at (lit "audit_log_path")))
  else none

def threshold (x : F) : F := if fl.nonPositive x then fl.standard else x

def verdict (c : WAFConfig F) : WAFConfig F :=
  {c with
    routeID := []
    enableDOSProtection := false
    enableConfidenceScoring := false
    auditLogPath := []
    auditLogConfined := false
    auditLogRelevantOnly := false
    entropyThreshold := threshold fl c.entropyThreshold}

def chosen (cfg : Settings) (key : GoString) (read : GoString → α) (inherited : α) : α :=
  if blank cfg key then inherited else read (cfg.at key)

-- What a route is meant to run: every field read from its own key, or the gateway's.
def inheriting (hosts : List GoString) (g : WAFConfig F) (cfg : Settings) : WAFConfig F where
  paranoiaLevel := chosen cfg (lit "paranoia_level") parseParanoiaLevel g.paranoiaLevel
  trustCloudflare := chosen cfg (lit "trust_cloudflare_headers") (parseTrustCloudflare u env) g.trustCloudflare
  auditOnly := chosen cfg (lit "audit_only") (isTrueOrOne u) g.auditOnly
  allowedMethods := chosen cfg (lit "allowed_methods") (parseAllowedMethods u) g.allowedMethods
  disableProtocolChecks := chosen cfg (lit "protocol") (isFalse u) g.disableProtocolChecks
  failOpen := chosen cfg (lit "fail_open") (isTrueOrOne u) g.failOpen
  allowGitSmartHTTP := chosen cfg (lit "git_smart_http") (gitSmartHTTP u env) g.allowGitSmartHTTP
  routeID := g.routeID
  disableSQLI := chosen cfg (lit "sqli") (isFalse u) g.disableSQLI
  disableXSS := chosen cfg (lit "xss") (isFalse u) g.disableXSS
  disableLFI := chosen cfg (lit "lfi") (isFalse u) g.disableLFI
  disableRCE := chosen cfg (lit "rce") (isFalse u) g.disableRCE
  disablePHP := chosen cfg (lit "php") (isFalse u) g.disablePHP
  disableScanner := chosen cfg (lit "scanner") (isFalse u) g.disableScanner
  disableProtocol := chosen cfg (lit "protocol") (isFalse u) g.disableProtocol
  disableJava := chosen cfg (lit "java") (isFalse u) g.disableJava
  disableNodeJS := chosen cfg (lit "nodejs") (isFalse u) g.disableNodeJS
  disableWordPress := chosen cfg (lit "wordpress") (isFalse u) g.disableWordPress
  enableIPReputation := chosen cfg (lit "ip_reputation") (isTrue u) g.enableIPReputation
  enableDOSProtection := g.enableDOSProtection
  enableMalwareDetection := chosen cfg (lit "malware_detection") (isTrue u) g.enableMalwareDetection
  enableRansomwareDetection := chosen cfg (lit "ransomware_detection") (isTrue u) g.enableRansomwareDetection
  enableDLP := chosen cfg (lit "dlp") (isTrue u) g.enableDLP
  dlpAction := chosen cfg (lit "dlp_action") (parseDLPAction u env) g.dlpAction
  enableResponseInspection := chosen cfg (lit "dlp") (isTrue u) g.enableResponseInspection
  anomalyThreshold := chosen cfg (lit "anomaly_threshold") intVal g.anomalyThreshold
  entropyThreshold := chosen cfg (lit "entropy_threshold") (parseEntropyThreshold fl) g.entropyThreshold
  disableEntropy := chosen cfg (lit "disable_entropy") (isTrueOrOne u) g.disableEntropy
  enableBodyEntropy := chosen cfg (lit "enable_body_entropy") (isTrue u) g.enableBodyEntropy
  enableFingerprintValidation := chosen cfg (lit "enable_fingerprint_validation") (isTrue u) g.enableFingerprintValidation
  enableConfidenceScoring := g.enableConfidenceScoring
  requestBodyLimit := chosen cfg (lit "request_body_limit") intVal g.requestBodyLimit
  responseBodyLimit := chosen cfg (lit "response_body_limit") intVal g.responseBodyLimit
  auditLogPath := g.auditLogPath
  auditLogConfined := g.auditLogConfined
  auditLogRelevantOnly := g.auditLogRelevantOnly
  allowedAdminIps := chosen cfg (lit "allowed_admin_ips") parseCSV g.allowedAdminIps
  appProfiles := chosen cfg (lit "app_profiles") parseCSV g.appProfiles
  appProfileScopePaths := chosen cfg (lit "app_profile_scope_paths") parseCSV g.appProfileScopePaths
  appProfileScopeFields := chosen cfg (lit "app_profile_scope_fields") parseCSV g.appProfileScopeFields
  enableSSRFProtection := chosen cfg (lit "ssrf_protection") (isTrue u) g.enableSSRFProtection
  origins := chosen cfg (lit "origins") (fun v => resolveOrigins u hosts (parseCSV v)) g.origins

def Listed (entry : GoString) : Prop := entry ≠ [] ∧ trimSpace entry = entry ∧ byte ',' ∉ entry

structure Settled (hosts declared : List GoString) : Prop where
  sound : ∀ o ∈ resolveOrigins u hosts declared, ∀ part ∈ parseCSV o, originOf u part ≠ [] →
    originOf u part ∈ resolveOrigins u hosts declared
  complete : ∀ h ∈ declared, originOf u h ≠ [] → (∃ host ∈ hosts, originOf u host = originOf u h) ∨
    ∃ o ∈ resolveOrigins u hosts declared, ∃ part ∈ parseCSV o, originOf u part = originOf u h

-- Where the route leaves a key out, the gateway's setting is one its key can say.
@[mk_iff]
structure Sayable (hosts : List GoString) (w : WafProto F) (tier : Tier) (cfg : Settings) : Prop where
  paranoia : blank cfg (lit "paranoia_level") → tier = .minimal ∨ w.paranoiaLevel.toInt ≤ 4
  protocol : blank cfg (lit "protocol") → w.categories.bind (·.protocol) ≠ some false
  anomaly : blank cfg (lit "anomaly_threshold") → 0 ≤ w.anomalyThreshold.toInt
  entropy : blank cfg (lit "entropy_threshold") → fl.positive w.entropyThreshold ∨ fl.nonPositive w.entropyThreshold
  request : blank cfg (lit "request_body_limit") → 0 ≤ w.requestBodyLimit.toInt
  response : blank cfg (lit "response_body_limit") → 0 ≤ w.responseBodyLimit.toInt
  admins : blank cfg (lit "allowed_admin_ips") → ∀ ip ∈ w.allowedAdminIps, Listed ip
  profiles : blank cfg (lit "app_profiles") → ∀ name ∈ w.appProfiles, Listed name
  paths : blank cfg (lit "app_profile_scope_paths") → parseCSV env.scopePaths = []
  fields : blank cfg (lit "app_profile_scope_fields") → parseCSV env.scopeFields = []
  origins : blank cfg (lit "origins") → Settled u hosts w.origins

theorem put_at (cfg : Settings) (key val k : GoString) : Settings.at (cfg.put (key,val)) k = if k = key then val else cfg.at k := by
  unfold Settings.at Settings.lookup
  split
  · rename_i same
    rw [same,get_put_same (key,val)]
    rfl
  · rename_i apart
    rw [get_put_other _ _ apart]

theorem setIfMissing_at (cfg : Settings) (key val k : GoString) :
    (setIfMissing cfg key val).at k = if k = key ∧ blank cfg key then val else cfg.at k := by
  unfold setIfMissing
  split
  · rename_i missing; simp [put_at,missing]
  · rename_i present; simp [present]

theorem fill_cons (cfg : Settings) (on : Bool) (key val : GoString) (rows : Rows) :
    fill cfg ((on,key,val) :: rows) = fill (if on then setIfMissing cfg key val else cfg) rows := rfl

theorem fill_other {rows : Rows} (missing : k ∉ rows.map (·.2.1)) (cfg : Settings) : (fill cfg rows).at k = cfg.at k := by
  induction rows generalizing cfg with
  | nil => rfl
  | cons row rows ih =>
    obtain ⟨on,key,val⟩ := row
    simp only [map_cons,mem_cons,not_or] at missing
    rw [fill_cons,ih missing.2]
    split
    · simp [setIfMissing_at,missing.1]
    · rfl

theorem fill_at {rows : Rows} (distinct : (rows.map (·.2.1)).Nodup) (i : Nat) (row : rows[i]? = some (on,k,v)) (cfg : Settings) :
    (fill cfg rows).at k = if on ∧ blank cfg k then v else cfg.at k := by
  induction rows generalizing cfg i with
  | nil => simp at row
  | cons first rows ih =>
    obtain ⟨on',key,val⟩ := first
    simp only [map_cons,nodup_cons] at distinct
    rw [fill_cons]
    cases i with
    | zero =>
      simp only [getElem?_cons_zero,Option.some.injEq,Prod.mk.injEq] at row
      obtain ⟨rfl,rfl,rfl⟩ := row
      rw [fill_other distinct.1]
      cases on' with
      | true => simp [setIfMissing_at]
      | false => simp
    | succ i =>
      rw [getElem?_cons_succ] at row
      have apart : k ≠ key := by
        intro same
        have held := List.mem_map_of_mem (f := fun row : Bool × GoString × GoString => row.2.1) (mem_of_getElem? row)
        exact distinct.1 (same ▸ held)
      rw [ih distinct.2 i row]
      cases on' with
      | true =>
        have unchanged : (setIfMissing cfg key val).at k = cfg.at k := by simp [setIfMissing_at,apart]
        have missing : blank (setIfMissing cfg key val) k ↔ blank cfg k := by rw [blank,blank,unchanged]
        simp only [↓reduceIte,missing,unchanged]
      | false => rfl

section
variable (b : Bool)

theorem folded_formatBool : folded u (formatBool b) = formatBool b := by
  cases b <;> rfl

theorem isFalse_formatBool : isFalse u (formatBool b) = !b := by
  rw [isFalse,folded_formatBool]
  cases b <;> decide

theorem isTrue_formatBool : isTrue u (formatBool b) = b := by
  rw [isTrue,folded_formatBool]
  cases b <;> decide

theorem isTrueOrOne_formatBool : isTrueOrOne u (formatBool b) = b := by
  rw [isTrueOrOne,isTrue_formatBool,folded_formatBool]
  cases b <;> decide

theorem parseTrustCloudflare_formatBool : parseTrustCloudflare u env (formatBool b) = b := by
  simp only [parseTrustCloudflare,isYes,isTrueOrOne_formatBool,folded_formatBool]
  cases b <;> rfl

end

section
variable (kept : Tables.SpacesKept u) (empty : trimSpace v = [])
include kept empty

theorem folded_blank : folded u v = [] := by
  rw [folded,toLower_blank kept empty,empty]

theorem isTrueOrOne_blank : isTrueOrOne u v = false := by
  rw [isTrueOrOne,isTrue,folded_blank u kept empty]
  decide

theorem parseDLPAction_blank : parseDLPAction u env v = parseDLPAction u env [] := by
  have nothing : folded u [] = [] := rfl
  simp only [parseDLPAction,folded_blank u kept empty,nothing]

end

theorem parseAllowedMethods_blank (v : GoString) (empty : trimSpace v = []) : parseAllowedMethods u v = [] := by
  simp [parseAllowedMethods,empty]

theorem gitSmartHTTP_blank (v : GoString) (empty : trimSpace v = []) : gitSmartHTTP u env v = gitSmartHTTP u env [] := by
  have nothing : trimSpace [] = [] := rfl
  simp only [gitSmartHTTP,empty,nothing,↓reduceIte]

theorem formatInt_nonneg (n : Nat) : formatInt n = decimal n := by
  simp [formatInt]
theorem intVal_blank (empty : trimSpace v = []) : intVal v = 0 := by
  simp [intVal,empty,atoi]
theorem intVal_formatInt (small : n ≤ maxInt) : intVal (formatInt n) = n := by
  simp [intVal,formatInt_nonneg,decimal_filled,trimSpace_decimal,atoi_decimal small]

theorem parseParanoiaLevel_formatInt (some : 1 ≤ n) (small : n ≤ maxInt) : parseParanoiaLevel (formatInt n) = (n : Int) ↔ n ≤ 4 := by
  have positive : (1 : Int) ≤ n := by omega
  simp only [parseParanoiaLevel,formatInt_nonneg,decimal_filled,trimSpace_decimal,atoi_decimal small,↓reduceIte,Bool.true_and,
    positive,decide_true]
  split
  · rename_i low
    simp only [decide_eq_true_eq] at low
    omega
  · rename_i high
    simp only [decide_eq_true_eq] at high
    omega

theorem parseCSV_parts (v : GoString) : parseCSV v = ((split v (byte ',')).map trimSpace).filter fun p => p != [] := by
  unfold parseCSV
  split
  · rename_i empty
    rw [split_none (blank_free empty (by decide))]
    simp [empty]
  · rfl

theorem mem_parseCSV (mem : p ∈ parseCSV v) : Listed p := by
  rw [parseCSV_parts] at mem
  obtain ⟨held,filled⟩ := List.mem_filter.mp mem
  obtain ⟨raw,part,trimmed⟩ := List.mem_map.mp held
  obtain ⟨_,_,_,free,_⟩ := mem_split.mp part
  refine ⟨by simpa using filled,?_,?_⟩
  · rw [← trimmed,trimSpace_idem]
  · rw [← trimmed]; exact fun inside => free ((trimSpace_inside raw).subset inside)

theorem parseCSV_listed (listed : Listed p) : parseCSV p = [p] := by
  obtain ⟨filled,trimmed,free⟩ := listed
  rw [parseCSV_parts,split_none free]
  simp [trimmed,filled]

theorem parseCSV_join (list : List GoString) : parseCSV (join list [byte ',']) = list.flatMap parseCSV := by
  unfold join
  induction list with
  | nil => rfl
  | cons first rest ih =>
    cases rest with
    | nil => simp
    | cons next rest =>
      have parts := @splitOnP_append_cons _ (· == byte ',') first (List.intercalate [byte ','] (next :: rest)) (byte ',') (by decide)
      rw [intercalate_cons_cons,append_assoc,singleton_append,flatMap_cons,← ih]
      simp only [parseCSV_parts,split,List.splitOn,parts,map_append,filter_append]

theorem parseCSV_join_same (list : List GoString) : parseCSV (join list [byte ',']) = list ↔ ∀ p ∈ list, Listed p := by
  rw [parseCSV_join]
  constructor
  · intro same p mem
    rw [← same] at mem
    obtain ⟨_,_,inside⟩ := mem_flatMap.mp mem
    exact mem_parseCSV inside
  · intro listed
    have each : ∀ p ∈ list, parseCSV p = [p] := fun p mem => parseCSV_listed (listed p mem)
    rw [flatMap_congr each]
    simp

theorem mem_resolveOrigins : o ∈ resolveOrigins u hosts declared ↔
    o ≠ [] ∧ ((∃ h ∈ declared, originOf u h = o) ∨ ∃ h ∈ hosts, originOf u h = o) := by
  simp only [resolveOrigins,sorted_mem,mem_dedup,List.mem_filter,map_append,mem_append,List.mem_map,bne_iff_ne]
  exact and_comm

theorem resolveOrigins_ext (same : ∀ o, o ∈ resolveOrigins u hosts declared ↔ o ∈ resolveOrigins u hosts' declared') :
    resolveOrigins u hosts declared = resolveOrigins u hosts' declared' := by
  apply sorted_perm
  rw [perm_ext_iff_of_nodup (nodup_dedup _) (nodup_dedup _)]
  intro o
  exact sorted_mem.symm.trans ((same o).trans sorted_mem)

theorem origins_settled (hosts declared : List GoString) :
    resolveOrigins u hosts (parseCSV (join (resolveOrigins u hosts declared) [byte ','])) = resolveOrigins u hosts declared ↔
      Settled u hosts declared := by
  rw [parseCSV_join]
  constructor
  · intro same
    constructor
    · intro o held part inside filled
      rw [← same,mem_resolveOrigins]
      exact ⟨filled,.inl ⟨part,mem_flatMap.mpr ⟨o,held,inside⟩,rfl⟩⟩
    intro h declares filled
    have held : originOf u h ∈ resolveOrigins u hosts declared := (mem_resolveOrigins u).mpr ⟨filled,.inl ⟨h,declares,rfl⟩⟩
    rw [← same,mem_resolveOrigins] at held
    rcases held.2 with ⟨part,mem,equal⟩ | host
    · obtain ⟨o,known,inside⟩ := mem_flatMap.mp mem; exact .inr ⟨o,known,part,inside,equal⟩
    · exact .inl host
  · intro settled
    apply resolveOrigins_ext
    intro o
    constructor
    · intro held
      obtain ⟨filled,⟨part,mem,equal⟩ | host⟩ := (mem_resolveOrigins u).mp held
      · obtain ⟨source,known,inside⟩ := mem_flatMap.mp mem
        exact equal ▸ settled.sound source known part inside (equal ▸ filled)
      · exact (mem_resolveOrigins u).mpr ⟨filled,.inr host⟩
    · intro held
      obtain ⟨filled,⟨h,declares,equal⟩ | host⟩ := (mem_resolveOrigins u).mp held
      · rw [mem_resolveOrigins]
        refine ⟨filled,?_⟩
        rcases settled.complete h declares (equal ▸ filled) with ⟨host,known,same⟩ | ⟨source,known,part,inside,same⟩
        · exact .inr ⟨host,known,same.trans equal⟩
        · exact .inl ⟨part,mem_flatMap.mpr ⟨source,known,inside⟩,same.trans equal⟩
      · exact (mem_resolveOrigins u).mpr ⟨filled,.inr host⟩

section
variable {rows : Rows}

theorem read_own (missing : k ∉ rows.map (·.2.1))
    (read : GoString → α) (same : ∀ s, trimSpace s = [] → read s = inherited) (cfg : Settings) :
    read ((fill cfg rows).at k) = chosen cfg k read inherited := by
  rw [fill_other missing,chosen]
  split
  · rename_i empty; exact same _ empty
  · rfl

theorem scope_chosen (missing : k ∉ rows.map (·.2.1)) (var : GoString) (cfg : Settings) :
    parseScopeList ((fill cfg rows).at k) var = chosen cfg k parseCSV [] ↔ (blank cfg k → parseCSV var = []) := by
  rw [fill_other missing,chosen,parseScopeList]
  by_cases empty : blank cfg k
  · have nothing : trimSpace (cfg.at k) = [] := empty; simp [empty,nothing]
  · have something : trimSpace (cfg.at k) ≠ [] := empty; simp [empty,something]

variable (distinct : (rows.map (·.2.1)).Nodup) (i : Nat)
include distinct

theorem read_chosen {cond : Prop} (row : rows[i]? = some (on,k,v)) (read : GoString → α) (inherited : α)
    (written : on → (read v = inherited ↔ cond)) (unwritten : on = false → ∀ s, trimSpace s = [] → (read s = inherited ↔ cond))
    (cfg : Settings) : read ((fill cfg rows).at k) = chosen cfg k read inherited ↔ (blank cfg k → cond) := by
  rw [fill_at distinct i row,chosen]
  by_cases empty : blank cfg k
  · cases on with
    | true => simp [empty,written rfl]
    | false => simpa [empty] using unwritten rfl _ empty
  · simp [empty]

theorem read_always (row : rows[i]? = some (on,k,v)) (read : GoString → α) (written : on → read v = inherited)
    (unwritten : on = false → ∀ s, trimSpace s = [] → read s = inherited) (cfg : Settings) :
    read ((fill cfg rows).at k) = chosen cfg k read inherited := by
  have fields := read_chosen distinct i row read inherited (fun written' => iff_of_true (written written') trivial)
    (fun off s empty => iff_of_true (unwritten off s empty) trivial) cfg
  exact fields.mpr fun _ => trivial

theorem read_written (row : rows[i]? = some (true,k,v)) (read : GoString → α) (same : read v = inherited) (cfg : Settings) :
    read ((fill cfg rows).at k) = chosen cfg k read inherited :=
  read_always distinct i row read (fun _ => same) nofun cfg

theorem limit_chosen {n : Int32} (row : rows[i]? = some (decide (0 < n.toInt),k,formatInt n.toInt)) (cfg : Settings) :
    intVal ((fill cfg rows).at k) = chosen cfg k intVal n.toInt ↔ (blank cfg k → 0 ≤ n.toInt) := by
  have bound : n.toInt < 2^31 := Int32.toInt_lt n
  have most : maxInt = 2^63-1 := rfl
  apply read_chosen distinct i row
  · intro positive
    have positive := of_decide_eq_true positive
    obtain ⟨m,equal⟩ : ∃ m : Nat, n.toInt = m := ⟨n.toInt.toNat,by omega⟩
    rw [equal,intVal_formatInt (by omega)]
    exact iff_of_true rfl (by omega)
  · intro none v empty
    have none := of_decide_eq_false none
    rw [intVal_blank empty]
    omega

theorem list_chosen (row : rows[i]? = some (decide (list ≠ []),k,join list [byte ','])) (cfg : Settings) :
    parseCSV ((fill cfg rows).at k) = chosen cfg k parseCSV list ↔ (blank cfg k → ∀ p ∈ list, Listed p) := by
  apply read_chosen distinct i row
  · exact fun _ => parseCSV_join_same list
  · intro none v empty
    have none : list = [] := not_not.mp (of_decide_eq_false none)
    simp [none,parseCSV,empty]

theorem origins_chosen (hosts declared : List GoString)
    (row : rows[i]? = some (decide (resolveOrigins u hosts declared ≠ []),k,join (resolveOrigins u hosts declared) [byte ',']))
    (cfg : Settings) : resolveOrigins u hosts (parseCSV ((fill cfg rows).at k)) =
        chosen cfg k (fun v => resolveOrigins u hosts (parseCSV v)) (resolveOrigins u hosts declared) ↔
      (blank cfg k → Settled u hosts declared) := by
  apply read_chosen distinct i row (fun v => resolveOrigins u hosts (parseCSV v))
  · exact fun _ => origins_settled u hosts declared
  intro none v empty
  have none : resolveOrigins u hosts declared = [] := not_not.mp (of_decide_eq_false none)
  have again := origins_settled u hosts declared
  rw [none,parseCSV_join] at again
  rw [none,parseCSV,if_pos empty]
  exact again

theorem entropy_chosen (row : rows[i]? = some (fl.positive x,k,fl.format x)) (cfg : Settings) :
    threshold fl (parseEntropyThreshold fl ((fill cfg rows).at k)) =
        threshold fl (chosen cfg k (parseEntropyThreshold fl) x) ↔
      (blank cfg k → fl.positive x ∨ fl.nonPositive x) := by
  have inside : threshold fl (chosen cfg k (parseEntropyThreshold fl) x) =
      chosen cfg k (fun v => threshold fl (parseEntropyThreshold fl v)) (threshold fl x) := apply_ite ..
  rw [inside]
  apply read_chosen distinct i row fun v => threshold fl (parseEntropyThreshold fl v)
  · intro positive
    have filled : fl.format x ≠ [] := by
      intro empty
      have nothing := fl.parse_blank [] rfl
      rw [← empty,fl.parse_format x positive] at nothing
      cases nothing
    rw [parseEntropyThreshold,if_neg filled,fl.parse_format x positive]
    exact iff_of_true rfl (.inl positive)
  intro other v empty
  have standard : parseEntropyThreshold fl v = fl.standard := by
    unfold parseEntropyThreshold
    split
    · rfl
    · rw [fl.parse_blank v empty]; rfl
  have fixed : threshold fl fl.standard = fl.standard := ite_self _
  rw [standard,fixed,threshold]
  split
  · rename_i low; exact iff_of_true rfl (.inr low)
  rename_i high
  constructor
  · intro same
    rw [← same,fl.standard_positive] at other
    cases other
  · intro either
    rcases either with positive | low
    · rw [positive] at other; cases other
    · exact absurd low high

end

section
variable (hosts : List GoString) (w : WafProto F) (tier : Tier)

def rendered : Rows :=
  inheritedSettings (globalWAFConfig u env hosts w tier) ++ crsTunables fl w

def renderedKeys : List GoString :=
  [lit "sqli",lit "xss",lit "lfi",lit "rce",lit "php",lit "scanner",lit "protocol",lit "java",lit "nodejs",lit "wordpress",
    lit "ip_reputation",lit "malware_detection",lit "ransomware_detection",lit "dlp",lit "audit_only",lit "paranoia_level",
    lit "ssrf_protection",lit "trust_cloudflare_headers",lit "audit_log_relevant_only",lit "disable_entropy",
    lit "enable_body_entropy",lit "enable_fingerprint_validation",lit "enable_confidence_scoring",lit "app_profiles",lit "origins",
    lit "dlp_action",lit "anomaly_threshold",lit "request_body_limit",lit "response_body_limit",lit "audit_log_path",
    lit "allowed_admin_ips",lit "entropy_threshold"]

theorem rendered_keys :
    (rendered fl u env hosts w tier).map (·.2.1) = renderedKeys := rfl

theorem rendered_distinct : ((rendered fl u env hosts w tier).map (·.2.1)).Nodup := by
  rw [rendered_keys]
  decide +kernel

end

structure Untouched (hosts : List GoString) (w : WafProto F) (g : WAFConfig F) : Prop where
  methods : g.allowedMethods = []
  checks : g.disableProtocolChecks = false
  failOpen : g.failOpen = false
  git : g.allowGitSmartHTTP = gitSmartHTTP u env []
  action : g.dlpAction = parseDLPAction u env w.dlpAction
  anomaly : g.anomalyThreshold = w.anomalyThreshold.toInt
  entropy : g.entropyThreshold = w.entropyThreshold
  request : g.requestBodyLimit = w.requestBodyLimit.toInt
  response : g.responseBodyLimit = w.responseBodyLimit.toInt
  admins : g.allowedAdminIps = w.allowedAdminIps
  profiles : g.appProfiles = w.appProfiles
  paths : g.appProfileScopePaths = []
  fields : g.appProfileScopeFields = []
  origins : g.origins = resolveOrigins u hosts w.origins

theorem Untouched.tier (same : Untouched u env hosts w c) (tier : Tier) : Untouched u env hosts w (applyWAFTier c tier) := by
  cases tier <;> exact {same with}

theorem Untouched.categories (same : Untouched u env hosts w c)
    (categories : Option WafCategories) : Untouched u env hosts w (applyGlobalCategories c categories) := by
  cases categories <;> exact {same with}

section
variable (hosts : List GoString) (w : WafProto F) (tier : Tier)

theorem global_untouched : Untouched u env hosts w (globalWAFConfig u env hosts w tier) := by
  have baseline : Untouched u env hosts w (globalBaseline u env hosts w) :=
    ⟨rfl,rfl,rfl,rfl,rfl,rfl,rfl,rfl,rfl,rfl,rfl,rfl,rfl,rfl⟩
  have same := (baseline.tier u env tier).categories u env w.categories
  unfold globalWAFConfig
  split
  · exact {same with}
  · exact same

theorem global_inspection :
    (globalWAFConfig u env hosts w tier).enableResponseInspection = (globalWAFConfig u env hosts w tier).enableDLP := by
  unfold globalWAFConfig applyGlobalCategories applyWAFTier
  cases leak : w.dlp with
  | true => rfl
  | false => cases tier <;> cases w.categories <;> simp [globalBaseline,leak]

theorem global_protocol : isFalse u (formatBool !(globalWAFConfig u env hosts w tier).disableProtocol) =
    (globalWAFConfig u env hosts w tier).disableProtocolChecks ↔ w.categories.bind (·.protocol) ≠ some false := by
  have value : (globalWAFConfig u env hosts w tier).disableProtocol = switched (w.categories.bind (·.protocol)) false := by
    unfold globalWAFConfig applyGlobalCategories applyWAFTier
    cases w.dlp <;> cases tier <;> cases w.categories <;> rfl
  rw [isFalse_formatBool,Bool.not_not,(global_untouched u env hosts w tier).checks,value]
  cases w.categories.bind (·.protocol) <;> simp [switched]

theorem global_paranoia : parseParanoiaLevel (formatInt (globalWAFConfig u env hosts w tier).paranoiaLevel) =
    (globalWAFConfig u env hosts w tier).paranoiaLevel ↔ tier = .minimal ∨ w.paranoiaLevel.toInt ≤ 4 := by
  have value : (globalWAFConfig u env hosts w tier).paranoiaLevel = (applyWAFTier (globalBaseline u env hosts w) tier).paranoiaLevel := by
    unfold globalWAFConfig applyGlobalCategories
    cases w.dlp <;> cases w.categories <;> rfl
  have bound : w.paranoiaLevel.toInt < 2^31 := Int32.toInt_lt w.paranoiaLevel
  have most : maxInt = 2^63-1 := rfl
  have clamped : ∃ n : Nat, (globalBaseline u env hosts w).paranoiaLevel = n ∧ 1 ≤ n ∧ n ≤ maxInt ∧ (n ≤ 4 ↔ w.paranoiaLevel.toInt ≤ 4) := by
    refine ⟨(globalBaseline u env hosts w).paranoiaLevel.toNat,?_⟩
    unfold globalBaseline
    dsimp only
    split <;> exact ⟨by omega,by omega,by omega,by omega⟩
  obtain ⟨n,equal,least,small,low⟩ := clamped
  rw [value]
  cases tier with
  | minimal => exact (parseParanoiaLevel_formatInt (n := 1) le_rfl (by omega)).trans (by simp)
  | standard => simp only [applyWAFTier,equal,parseParanoiaLevel_formatInt least small,low,reduceCtorEq,false_or]
  | enterprise =>
    simp only [applyWAFTier,equal,reduceCtorEq,false_or]
    split
    · exact (parseParanoiaLevel_formatInt (n := 2) (by omega) (by omega)).trans (by omega)
    · exact (parseParanoiaLevel_formatInt least small).trans low

end

theorem parsed_inherits (kept : Tables.SpacesKept u) (hosts : List GoString) (w : WafProto F) (tier : Tier) (cfg : Settings) :
    verdict fl (parseWAFConfig fl u env hosts (fill cfg (rendered fl u env hosts w tier))) =
        verdict fl (inheriting fl u env hosts (globalWAFConfig u env hosts w tier) cfg) ↔
      Sayable fl u env hosts w tier cfg := by
  have same := global_untouched u env hosts w tier
  have distinct := rendered_distinct fl u env hosts w tier
  have off (i : Nat) {k : GoString} {b : Bool} (row : (rendered fl u env hosts w tier)[i]? = some (true,k,formatBool !b)) :=
    read_written distinct i row (isFalse u) ((isFalse_formatBool u _).trans (Bool.not_not b)) cfg
  have on (i : Nat) {k : GoString} {b : Bool} (row : (rendered fl u env hosts w tier)[i]? = some (true,k,formatBool b)) :=
    read_written distinct i row (isTrue u) (isTrue_formatBool u b) cfg
  have one (i : Nat) {k : GoString} {b : Bool} (row : (rendered fl u env hosts w tier)[i]? = some (true,k,formatBool b)) :=
    read_written distinct i row (isTrueOrOne u) (isTrueOrOne_formatBool u b) cfg
  have paranoia := read_chosen distinct 15 rfl parseParanoiaLevel _ (fun _ => global_paranoia u env hosts w tier) nofun cfg
  have checks := read_chosen distinct 6 rfl (isFalse u) _ (fun _ => global_protocol u env hosts w tier) nofun cfg
  have silent (none : decide (w.dlpAction ≠ []) = false) (v : GoString) (empty : trimSpace v = []) :
      parseDLPAction u env v = parseDLPAction u env w.dlpAction := by
    rw [not_not.mp (of_decide_eq_false none),parseDLPAction_blank u env kept empty]
  have action := read_always distinct 25 rfl (parseDLPAction u env) (fun _ => rfl) silent cfg
  have own {k : GoString} (missing : k ∉ renderedKeys) : k ∉ (rendered fl u env hosts w tier).map (·.2.1) := missing
  have methods := read_own (own (k := lit "allowed_methods") (by decide)) (parseAllowedMethods u)
    (parseAllowedMethods_blank u) cfg
  have failOpen := read_own (own (k := lit "fail_open") (by decide)) (isTrueOrOne u) (fun s => isTrueOrOne_blank u kept) cfg
  have git := read_own (own (k := lit "git_smart_http") (by decide)) (gitSmartHTTP u env) (gitSmartHTTP_blank u env) cfg
  have paths := scope_chosen (own (k := lit "app_profile_scope_paths") (by decide)) env.scopePaths cfg
  have fields := scope_chosen (own (k := lit "app_profile_scope_fields") (by decide)) env.scopeFields cfg
  have trust := read_written distinct 17 rfl (parseTrustCloudflare u env) (parseTrustCloudflare_formatBool u env _) cfg
  have profiles := list_chosen distinct 23 rfl cfg
  have origins := origins_chosen u distinct 24 hosts w.origins (by rw [← same.origins]; rfl) cfg
  rw [same.profiles] at profiles
  simp only [verdict,parseWAFConfig,inheriting,WAFConfig.mk.injEq,paranoia,checks,trust,same.methods,methods,same.failOpen,failOpen,
    same.git,git,off 0 rfl,off 1 rfl,off 2 rfl,off 3 rfl,off 4 rfl,off 5 rfl,eq_true (off 6 rfl),off 7 rfl,off 8 rfl,off 9 rfl,
    on 10 rfl,on 11 rfl,on 12 rfl,on 13 rfl,one 14 rfl,on 16 rfl,one 19 rfl,on 20 rfl,on 21 rfl,same.action,action,
    global_inspection,same.anomaly,limit_chosen distinct 26 rfl,same.request,limit_chosen distinct 27 rfl,same.response,
    limit_chosen distinct 28 rfl,same.entropy,entropy_chosen fl distinct 31 rfl,same.admins,list_chosen distinct 30 rfl,
    same.profiles,profiles,same.paths,paths,same.fields,fields,same.origins,origins,true_and]
  exact (sayable_iff ..).symm

theorem verdict_confined (confined : GoString → Option GoString) (c : WAFConfig F) (own : GoString) :
    verdict fl (confineRouteAuditLog confined c own) = verdict fl c := by
  unfold confineRouteAuditLog
  dsimp only
  split
  · rfl
  · split <;> rfl

theorem inheriting_empty (empty : ∀ k, blank cfg k) : inheriting fl u env hosts g cfg = g := by
  simp only [inheriting,chosen,empty,↓reduceIte]

theorem route_inherits (kept : Tables.SpacesKept u) (confined : GoString → Option GoString) (hosts : List GoString) (w : WafProto F)
    (tier : Tier) (cfg : Settings) (c : WAFConfig F) (built : newWAFConfig fl u env confined hosts (some ⟨w,true,tier⟩) cfg = some c) :
    (verdict fl c = verdict fl (inheriting fl u env hosts (globalWAFConfig u env hosts w tier) cfg) ↔ Sayable fl u env hosts w tier cfg) ∧
    ((∀ k, blank cfg k) → (verdict fl c = verdict fl (globalWAFConfig u env hosts w tier) ↔ Sayable fl u env hosts w tier cfg)) := by
  have law : verdict fl c = verdict fl (inheriting fl u env hosts (globalWAFConfig u env hosts w tier) cfg) ↔
      Sayable fl u env hosts w tier cfg := by
    unfold newWAFConfig at built
    split at built
    · rw [← Option.some.inj built,verdict_confined]; exact parsed_inherits fl u env kept hosts w tier cfg
    · cases built
  refine ⟨law,?_⟩
  intro empty
  rwa [inheriting_empty fl u env empty] at law

def sampleProto : WafProto Nat where
  tier := lit "standard"
  paranoiaLevel := 2
  customDirectives := []
  wordpress := false
  ipReputation := true
  dosProtection := false
  dlp := true
  dlpAction := []
  anomalyThreshold := 5
  requestBodyLimit := 0
  responseBodyLimit := 0
  auditLogPath := []
  auditLogRelevantOnly := true
  allowedAdminIps := [lit "10.0.0.1",lit "10.0.0.2"]
  entropyThreshold := 0
  disableEntropy := false
  trustCloudflareHeaders := false
  enableBodyEntropy := false
  enableFingerprintValidation := false
  enableConfidenceScoring := true
  auditOnly := false
  appProfiles := [lit "wordpress"]
  ssrfProtection := true
  origins := [lit "shop.example:8443"]
  categories := none

theorem route_inherits_sample :
    (newWAFConfig sampleFloats .ascii sampleEnv some [] (some ⟨sampleProto,true,.standard⟩) Store.empty).map (verdict sampleFloats) =
      some (verdict sampleFloats (globalWAFConfig .ascii sampleEnv [] sampleProto .standard)) := by
  have say : Sayable sampleFloats .ascii sampleEnv [] sampleProto .standard Store.empty := by
    refine ⟨?_,?_,?_,?_,?_,?_,?_,?_,?_,?_,?_⟩
    · exact fun _ => .inr (by decide)
    · exact fun _ => by decide
    · exact fun _ => by decide
    · exact fun _ => .inr (by decide)
    · exact fun _ => by decide
    · exact fun _ => by decide
    · exact fun _ => (parseCSV_join_same _).mp (by decide)
    · exact fun _ => (parseCSV_join_same _).mp (by decide)
    · exact fun _ => rfl
    · exact fun _ => rfl
    · exact fun _ => (origins_settled .ascii _ _).mp (by decide +kernel)
  have kept : Tables.SpacesKept .ascii := show ∀ r ∈ whiteSpace, asciiLower r = r by decide
  exact congrArg some (((route_inherits sampleFloats .ascii sampleEnv kept some [] sampleProto .standard Store.empty _ rfl).2
    (fun _ => rfl)).mpr say)

theorem inheritance_lost :
    (newWAFConfig sampleFloats .ascii sampleEnv some [] (some ⟨{sampleProto with
        categories := some ⟨none,none,none,none,none,none,none,none,some false,none⟩},true,.standard⟩) Store.empty).map
        (·.disableProtocolChecks) = some true ∧
      (globalWAFConfig .ascii sampleEnv [] {sampleProto with
        categories := some ⟨none,none,none,none,none,none,none,none,some false,none⟩} .standard).disableProtocolChecks = false ∧
    (newWAFConfig sampleFloats .ascii sampleEnv some [] (some ⟨{sampleProto with paranoiaLevel := 5},true,.standard⟩) Store.empty).map
        (·.paranoiaLevel) = some 1 ∧
      (globalWAFConfig .ascii sampleEnv [] {sampleProto with paranoiaLevel := 5} .standard).paranoiaLevel = 5 ∧
    (newWAFConfig sampleFloats .ascii {sampleEnv with scopePaths := lit "/admin"} some [] (some ⟨sampleProto,true,.standard⟩) Store.empty).map
        (·.appProfileScopePaths) = some [lit "/admin"] ∧
      (globalWAFConfig .ascii {sampleEnv with scopePaths := lit "/admin"} [] sampleProto .standard).appProfileScopePaths = [] := by
  refine ⟨?_,?_,?_,?_,?_,?_⟩ <;> decide +kernel

end Gateon.Waf
