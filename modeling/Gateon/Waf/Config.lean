import Gateon.Security.SecretMask
import Gateon.Go.Http

namespace Gateon.Waf
open Go Security KeyedStore

-- What is done with a float64; FormatFloat gives a text ParseFloat reads back.
structure Floats (F : Type) where
  parse : GoString → Option F
  format : F → GoString
  positive : F → Bool
  nonPositive : F → Bool
  hundredths : F → Int
  standard : F
  parse_blank : ∀ s, trimSpace s = [] → parse s = none
  parse_format : ∀ x, positive x → parse (format x) = some x
  standard_positive : positive standard

inductive DLPAction where
  | block
  | redact
  | audit
deriving DecidableEq

inductive Tier where
  | minimal
  | standard
  | enterprise
deriving DecidableEq

structure Env where
  trustCloudflare : GoString
  gitSmartHTTP : GoString
  dlpAction : GoString
  scopePaths : GoString
  scopeFields : GoString

-- Without what neither translation sets and the handles all instances share.
structure WAFConfig (F : Type) where
  paranoiaLevel : Int
  trustCloudflare : Bool
  auditOnly : Bool
  allowedMethods : List GoString
  disableProtocolChecks : Bool
  failOpen : Bool
  allowGitSmartHTTP : Bool
  routeID : GoString
  disableSQLI : Bool
  disableXSS : Bool
  disableLFI : Bool
  disableRCE : Bool
  disablePHP : Bool
  disableScanner : Bool
  disableProtocol : Bool
  disableJava : Bool
  disableNodeJS : Bool
  disableWordPress : Bool
  enableIPReputation : Bool
  enableDOSProtection : Bool
  enableMalwareDetection : Bool
  enableRansomwareDetection : Bool
  enableDLP : Bool
  dlpAction : DLPAction
  enableResponseInspection : Bool
  anomalyThreshold : Int
  entropyThreshold : F
  disableEntropy : Bool
  enableBodyEntropy : Bool
  enableFingerprintValidation : Bool
  enableConfidenceScoring : Bool
  requestBodyLimit : Int
  responseBodyLimit : Int
  auditLogPath : GoString
  auditLogConfined : Bool
  auditLogRelevantOnly : Bool
  allowedAdminIps : List GoString
  appProfiles : List GoString
  appProfileScopePaths : List GoString
  appProfileScopeFields : List GoString
  enableSSRFProtection : Bool
  origins : List GoString
deriving DecidableEq

structure WafCategories where
  sqli : Option Bool
  xss : Option Bool
  lfi : Option Bool
  rce : Option Bool
  php : Option Bool
  java : Option Bool
  nodejs : Option Bool
  scanner : Option Bool
  protocol : Option Bool
  ransomwareDetection : Option Bool
deriving DecidableEq

-- The settings of gateonv1.WafConfig the WAF is built from.
structure WafProto (F : Type) where
  tier : GoString
  paranoiaLevel : Int32
  customDirectives : GoString
  wordpress : Bool
  ipReputation : Bool
  dosProtection : Bool
  dlp : Bool
  dlpAction : GoString
  anomalyThreshold : Int32
  requestBodyLimit : Int32
  responseBodyLimit : Int32
  auditLogPath : GoString
  auditLogRelevantOnly : Bool
  allowedAdminIps : List GoString
  entropyThreshold : F
  disableEntropy : Bool
  trustCloudflareHeaders : Bool
  enableBodyEntropy : Bool
  enableFingerprintValidation : Bool
  enableConfidenceScoring : Bool
  auditOnly : Bool
  appProfiles : List GoString
  ssrfProtection : Bool
  origins : List GoString
  categories : Option WafCategories
deriving DecidableEq

section
variable {F : Type} (fl : Floats F) (u : Tables) (env : Env)

section
variable (v : GoString)

def folded : GoString := trimSpace (toLower u v)
def isTrue : Bool := folded u v == lit "true"
def isFalse : Bool := folded u v == lit "false"
def isTrueOrOne : Bool := isTrue u v || folded u v == lit "1"
def isYes : Bool := isTrueOrOne u v || folded u v == lit "yes"
def parseTrustCloudflare (val : GoString) : Bool := if folded u val = [] then isYes u env.trustCloudflare else isYes u val

def gitSmartHTTP : Bool :=
  let v := if trimSpace v = [] then env.gitSmartHTTP else v
  let v := toLower u (trimSpace v)
  v == lit "true" || v == lit "1"

end

def parseDLPAction (value : GoString) : DLPAction :=
  let v := if folded u value = [] then folded u env.dlpAction else folded u value
  if v = lit "redact" then .redact
  else if v ∈ [lit "audit",lit "log",lit "detect"] then .audit
  else .block

section
variable (v : GoString)

def parseCSV : List GoString :=
  if trimSpace v = [] then [] else ((split v (byte ',')).map trimSpace).filter fun p => p != []
def parseScopeList (value var : GoString) : List GoString := parseCSV (if trimSpace value = [] then var else value)
def intVal : Int := if v = [] then 0 else (atoi (trimSpace v)).1

-- A map used as a set of upper-case names.
def parseAllowedMethods (csv : GoString) : List GoString :=
  let csv := trimSpace csv
  if csv = [] then [] else ((split csv (byte ',')).map fun m => toUpper u (trimSpace m)).filter fun m => m != []

def originOf (h : GoString) : GoString :=
  let h := folded u h
  match lastIndexByte h (byte ':') with
  | some i => if 0 < i && !contains (h.drop (i+1)) (lit ".") then h.take i else h
  | none => h

-- `hosts` are the names the routing table declares at that moment.
def resolveOrigins (hosts declared : List GoString) : List GoString :=
  sorted (((declared ++ hosts).map (originOf u)).filter fun h => h != []).dedup

def parseParanoiaLevel : Int :=
  if v = [] then 1
  else
    let read := atoi (trimSpace v)
    if read.2 && 1 ≤ read.1 && read.1 ≤ 4 then read.1 else 1

def parseEntropyThreshold : F := if v = [] then fl.standard else (fl.parse v).getD fl.standard

end

def parseRouteID (cfg : Settings) : GoString :=
  if cfg.at (lit "route") ≠ [] then cfg.at (lit "route")
  else if cfg.at (lit "route_id") ≠ [] then cfg.at (lit "route_id")
  else lit "unknown"

section
variable (hosts : List GoString)

def parseWAFConfig (cfg : Settings) : WAFConfig F where
  paranoiaLevel := parseParanoiaLevel (cfg.at (lit "paranoia_level"))
  trustCloudflare := parseTrustCloudflare u env (cfg.at (lit "trust_cloudflare_headers"))
  auditOnly := isTrueOrOne u (cfg.at (lit "audit_only"))
  allowedMethods := parseAllowedMethods u (cfg.at (lit "allowed_methods"))
  disableProtocolChecks := isFalse u (cfg.at (lit "protocol"))
  failOpen := isTrueOrOne u (cfg.at (lit "fail_open"))
  allowGitSmartHTTP := gitSmartHTTP u env (cfg.at (lit "git_smart_http"))
  routeID := parseRouteID cfg
  disableSQLI := isFalse u (cfg.at (lit "sqli"))
  disableXSS := isFalse u (cfg.at (lit "xss"))
  disableLFI := isFalse u (cfg.at (lit "lfi"))
  disableRCE := isFalse u (cfg.at (lit "rce"))
  disablePHP := isFalse u (cfg.at (lit "php"))
  disableScanner := isFalse u (cfg.at (lit "scanner"))
  disableProtocol := isFalse u (cfg.at (lit "protocol"))
  disableJava := isFalse u (cfg.at (lit "java"))
  disableNodeJS := isFalse u (cfg.at (lit "nodejs"))
  disableWordPress := isFalse u (cfg.at (lit "wordpress"))
  enableIPReputation := isTrue u (cfg.at (lit "ip_reputation"))
  enableDOSProtection := isTrue u (cfg.at (lit "dos_protection"))
  enableMalwareDetection := isTrue u (cfg.at (lit "malware_detection"))
  enableRansomwareDetection := isTrue u (cfg.at (lit "ransomware_detection"))
  enableDLP := isTrue u (cfg.at (lit "dlp"))
  dlpAction := parseDLPAction u env (cfg.at (lit "dlp_action"))
  enableResponseInspection := isTrue u (cfg.at (lit "dlp"))
  anomalyThreshold := intVal (cfg.at (lit "anomaly_threshold"))
  entropyThreshold := parseEntropyThreshold fl (cfg.at (lit "entropy_threshold"))
  disableEntropy := isTrueOrOne u (cfg.at (lit "disable_entropy"))
  enableBodyEntropy := isTrue u (cfg.at (lit "enable_body_entropy"))
  enableFingerprintValidation := isTrue u (cfg.at (lit "enable_fingerprint_validation"))
  enableConfidenceScoring := !isFalse u (cfg.at (lit "enable_confidence_scoring"))
  requestBodyLimit := intVal (cfg.at (lit "request_body_limit"))
  responseBodyLimit := intVal (cfg.at (lit "response_body_limit"))
  auditLogPath := trimSpace (cfg.at (lit "audit_log_path"))
  auditLogConfined := false
  auditLogRelevantOnly := !isFalse u (cfg.at (lit "audit_log_relevant_only"))
  -- The list of admin addresses is read by a loop of its own, to the same effect.
  allowedAdminIps := parseCSV (cfg.at (lit "allowed_admin_ips"))
  appProfiles := parseCSV (cfg.at (lit "app_profiles"))
  appProfileScopePaths := parseScopeList (cfg.at (lit "app_profile_scope_paths")) env.scopePaths
  appProfileScopeFields := parseScopeList (cfg.at (lit "app_profile_scope_fields")) env.scopeFields
  enableSSRFProtection := isTrue u (cfg.at (lit "ssrf_protection"))
  origins := resolveOrigins u hosts (parseCSV (cfg.at (lit "origins")))

def applyWAFTier (cfg : WAFConfig F) (tier : Tier) : WAFConfig F :=
  match tier with
  | .minimal =>
    {cfg with
      paranoiaLevel := 1
      disableLFI := true
      disableRCE := true
      disablePHP := true
      disableJava := true
      disableNodeJS := true
      disableScanner := true
      enableMalwareDetection := false
      enableRansomwareDetection := false
      enableDLP := false
      enableResponseInspection := false}
  | .enterprise =>
    {cfg with
      paranoiaLevel := if cfg.paranoiaLevel < 2 then 2 else cfg.paranoiaLevel
      enableMalwareDetection := true
      enableRansomwareDetection := true
      enableDLP := true
      enableResponseInspection := true}
  | .standard => {cfg with enableResponseInspection := false}

-- A switch that is set decides; one that is not leaves what the tier chose.
def switched (set : Option Bool) (disable : Bool) : Bool := (set.map (!·)).getD disable

def applyGlobalCategories (cfg : WAFConfig F) (categories : Option WafCategories) : WAFConfig F :=
  match categories with
  | none => cfg
  | some c =>
    {cfg with
      disableSQLI := switched c.sqli cfg.disableSQLI
      disableXSS := switched c.xss cfg.disableXSS
      disableLFI := switched c.lfi cfg.disableLFI
      disableRCE := switched c.rce cfg.disableRCE
      disablePHP := switched c.php cfg.disablePHP
      disableJava := switched c.java cfg.disableJava
      disableNodeJS := switched c.nodejs cfg.disableNodeJS
      disableScanner := switched c.scanner cfg.disableScanner
      disableProtocol := switched c.protocol cfg.disableProtocol
      enableRansomwareDetection := c.ransomwareDetection.getD cfg.enableRansomwareDetection}

def globalBaseline (w : WafProto F) : WAFConfig F where
  paranoiaLevel := if w.paranoiaLevel.toInt < 1 then 1 else w.paranoiaLevel.toInt
  trustCloudflare := isYes u env.trustCloudflare || w.trustCloudflareHeaders
  auditOnly := w.auditOnly
  allowedMethods := []
  disableProtocolChecks := false
  failOpen := false
  allowGitSmartHTTP := gitSmartHTTP u env []
  routeID := lit "gateon-global-waf"
  disableSQLI := false
  disableXSS := false
  disableLFI := false
  disableRCE := false
  disablePHP := false
  disableScanner := false
  disableProtocol := false
  disableJava := false
  disableNodeJS := false
  disableWordPress := !w.wordpress
  enableIPReputation := w.ipReputation
  enableDOSProtection := w.dosProtection
  enableMalwareDetection := true
  enableRansomwareDetection := true
  enableDLP := w.dlp
  dlpAction := parseDLPAction u env w.dlpAction
  enableResponseInspection := false
  anomalyThreshold := w.anomalyThreshold.toInt
  entropyThreshold := w.entropyThreshold
  disableEntropy := w.disableEntropy
  enableBodyEntropy := w.enableBodyEntropy
  enableFingerprintValidation := w.enableFingerprintValidation
  enableConfidenceScoring := w.enableConfidenceScoring
  requestBodyLimit := w.requestBodyLimit.toInt
  responseBodyLimit := w.responseBodyLimit.toInt
  auditLogPath := w.auditLogPath
  auditLogConfined := false
  auditLogRelevantOnly := w.auditLogRelevantOnly
  allowedAdminIps := w.allowedAdminIps
  appProfiles := w.appProfiles
  appProfileScopePaths := []
  appProfileScopeFields := []
  enableSSRFProtection := w.ssrfProtection
  origins := resolveOrigins u hosts w.origins

def globalWAFConfig (w : WafProto F) (tier : Tier) : WAFConfig F :=
  let cfg := applyGlobalCategories (applyWAFTier (globalBaseline u env hosts w) tier) w.categories
  if w.dlp then {cfg with enableDLP := true,enableResponseInspection := true} else cfg

end

def sampleFloats : Floats Nat where
  parse := fun s => if trimSpace s ≠ [] ∧ (atoi s).2 then some (atoi s).1.toNat else none
  format := decimal
  positive := fun x => 0 < x && x ≤ maxInt
  nonPositive := fun x => x == 0
  hundredths := fun x => x
  standard := 580
  parse_blank := by
    intro s blank
    simp [blank]
  parse_format := by
    intro x positive
    simp only [Bool.and_eq_true,decide_eq_true_eq] at positive
    simp [trimSpace_decimal,decimal_filled,atoi_decimal positive.2]
  standard_positive := by decide

def sampleEnv : Env := ⟨[],[],[],[],[]⟩

end

inductive Encoding where
  | identity
  | gzip
  | deflate
deriving DecidableEq

-- The second part is false where the body cannot be read; the first is then the empty text.
def decodableEncoding (u : Tables) (contentEncoding : GoString) : Encoding × Bool :=
  let enc := trimSpace contentEncoding
  if enc = [] then (.identity,true)
  else if (indexByte enc (byte ',')).isSome then (.identity,false)
  else
    let name := toLower u enc
    if name = lit "identity" then (.identity,true)
    else if name = lit "gzip" ∨ name = lit "x-gzip" then (.gzip,true)
    else if name = lit "deflate" then (.deflate,true)
    else (.identity,false)

def applicationSubtypeInspectable (sub : GoString) : Bool :=
  let tail := ((lastIndexByte sub (byte '+')).map fun i => sub.drop (i+1)).getD []
  if tail ∈ [lit "json",lit "xml",lit "yaml",lit "text"] then true
  else if tail ∈ [lit "zip",lit "gzip"] then false
  else if sub ∈ [lit "json",lit "xml",lit "javascript",lit "ecmascript",lit "x-javascript",lit "x-www-form-urlencoded",
      lit "graphql",lit "ld+json",lit "yaml",lit "x-yaml",lit "x-ndjson",lit "csv",lit "sql",lit "x-sh",lit "x-httpd-php"] then true
  else if sub ∈ [lit "octet-stream",lit "pdf",lit "zip",lit "gzip",lit "x-gzip",lit "x-tar",lit "x-bzip2",
      lit "x-7z-compressed",lit "x-rar-compressed",lit "wasm",lit "java-archive",lit "vnd.ms-fontobject",
      lit "x-protobuf",lit "protobuf",lit "grpc",lit "grpc+proto"] then false
  else true

def responseBodyInspectable (u : Tables) (contentType : GoString) : Bool :=
  let mediaType := toLower u (trimSpace (cut contentType (byte ';')).1)
  if mediaType = [] then true
  else
    let base := (cut mediaType (byte '/')).1
    if base = lit "text" then true
    else if base ∈ [lit "image",lit "audio",lit "video",lit "font"] then false
    else if base = lit "application" then applicationSubtypeInspectable (cut mediaType (byte '/')).2.1
    else true

-- At the end of its stream, where the source ran out, or at foreign bytes.
inductive Ending where
  | whole
  | short
  | corrupt
deriving DecidableEq

-- What they give and how they stop, nothing where Reset refuses the source.
structure Readers where
  gzip : GoString → Option (GoString × Ending)
  flate : GoString → Option (GoString × Ending)

-- The deflate stream within the zlib header, where there is one.
def rawDeflate : GoString → GoString
  | a :: b :: rest => if a &&& 0x0f = 0x08 ∧ (a.toNat * 256 + b.toNat) % 31 = 0 then rest else a :: b :: rest
  | src => src

def Readers.read (r : Readers) : Encoding → GoString → Option (GoString × Ending)
  | .gzip,src => r.gzip src
  | .deflate,src => r.flate (rawDeflate src)
  | .identity,_ => none

structure Inflated where
  plain : GoString
  truncated : Bool
  failed : Bool

-- The copy stops one byte past the limit, so how a longer stream ends is never seen.
def inflateForInspection (r : Readers) (enc : Encoding) (src : GoString) (limit : Nat) : Inflated :=
  if src = [] then ⟨[],false,false⟩
  else
    match r.read enc src with
    | none => ⟨[],false,true⟩
    | some (plain,ending) =>
      if limit < plain.length then ⟨plain.take limit,true,false⟩ else ⟨plain,false,ending == .corrupt⟩

theorem inflate_whole (uncut : (inflateForInspection r enc src limit).truncated = false)
    (sound : (inflateForInspection r enc src limit).failed = false) (filled : src ≠ []) :
    ∃ ending, r.read enc src = some ((inflateForInspection r enc src limit).plain,ending) ∧ ending ≠ .corrupt := by
  unfold inflateForInspection at uncut sound ⊢
  rw [if_neg filled] at uncut sound ⊢
  split at uncut
  · rename_i refused; simp [refused] at sound
  rename_i plain ending opened
  simp only [opened] at sound ⊢
  by_cases long : limit < plain.length
  · simp [long] at uncut
  · rw [if_neg long] at sound ⊢; exact ⟨ending,rfl,by simpa using sound⟩

end Gateon.Waf
