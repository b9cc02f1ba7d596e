import Gateon.Waf.Config
import Gateon.Traffic.Retry

namespace Gateon.Waf
open Go Security List

def DLPAction.name : DLPAction → GoString
  | .block => lit "block"
  | .redact => lit "redact"
  | .audit => lit "audit"

def firsts (seen : List GoString) : List GoString → List GoString
  | [] => []
  | v :: rest => if v ∈ seen then firsts seen rest else v :: firsts (v :: seen) rest

def profileNames : List GoString := [lit "wordpress",lit "drupal",lit "laravel",lit "issue_tracker"]

def profileAlias (name : GoString) : GoString :=
  if name ∈ [lit "issuetracker",lit "jira",lit "gitlab"] then lit "issue_tracker"
  else if name = lit "wp" then lit "wordpress"
  else name

section
variable (u : Tables)

def parseProfile (s : GoString) : Option GoString :=
  let normalised := (toLower u (trimSpace s)).map fun b => if b == byte '-' || b == byte ' ' then byte '_' else b
  let p := profileAlias normalised
  if p ∈ profileNames then some p else none

section
variable (names : List GoString)

def normaliseProfiles : List GoString := firsts [] (names.filterMap (parseProfile u))
def unknownProfiles : List GoString :=
  names.filter fun name => trimSpace name != [] && (parseProfile u name).isNone
def normaliseScopeList (list : List GoString) : List GoString := firsts [] ((list.map trimSpace).filter fun v => v != [])
def comma : GoString := [byte ',']
def bar : UInt8 := byte '|'
def newline : UInt8 := byte '\n'
def profileFingerprint : GoString :=
  join (normaliseProfiles u names) comma ++ bar :: join (sorted (unknownProfiles u names)) comma

end

def scopeFingerprint (paths fields : List GoString) : GoString :=
  if paths = [] ∧ fields = [] then []
  else join (sorted (normaliseScopeList paths)) comma ++ bar :: join (sorted (normaliseScopeList fields)) comma

variable {F : Type} (fl : Floats F) (u : Tables)

section
variable (c : WAFConfig F)

def switches : List Bool :=
  [c.trustCloudflare,c.auditOnly,c.disableSQLI,c.disableXSS,c.disableLFI,c.disableRCE,c.disablePHP,c.disableScanner,
    c.disableProtocol,c.disableJava,c.disableNodeJS,c.disableWordPress,c.enableIPReputation,c.enableDOSProtection,
    c.enableMalwareDetection,c.enableRansomwareDetection,c.enableDLP,c.enableResponseInspection,c.disableEntropy,
    c.enableBodyEntropy,c.enableFingerprintValidation,c.enableConfidenceScoring]

def numbers : List Int := [c.paranoiaLevel,c.anomalyThreshold,c.requestBodyLimit,c.responseBodyLimit]
def switchLine : GoString := (switches c).flatMap formatBool

def numberLine : GoString :=
  (numbers c).flatMap formatInt ++
    (formatInt (fl.hundredths c.entropyThreshold) ++ (formatBool c.failOpen ++ formatBool c.allowGitSmartHTTP))

def textLine : GoString :=
  (c.auditLogPath ++ bar :: formatBool c.auditLogConfined) ++ bar :: c.dlpAction.name

def profileLine : GoString :=
  profileFingerprint u c.appProfiles ++ bar :: (formatBool c.enableSSRFProtection ++
    bar :: scopeFingerprint c.appProfileScopePaths c.appProfileScopeFields)

def listLine (tag : GoString) (entries : List GoString) : GoString :=
  if entries = [] then [] else tag ++ (join entries comma ++ [newline])

def textLines : GoString :=
  textLine c ++ newline :: (listLine (lit "a:") c.allowedAdminIps ++ (lit "p:" ++ (profileLine u c ++ newline ::
    listLine (lit "o:") (sorted c.origins))))

def fingerprintText : GoString :=
  lit "b:" ++ (switchLine c ++ newline :: (lit "i:" ++ (numberLine fl c ++ newline :: (lit "s:" ++ textLines u c))))

end

def fingerprint (sha : GoString → GoString) (c : WAFConfig F) : GoString := hexEncode (sha (fingerprintText fl u c))
def defaultAllowedMethods : List GoString :=
  [lit "GET",lit "HEAD",lit "POST",lit "PUT",lit "PATCH",lit "DELETE",lit "OPTIONS"]

-- The methods checkProtocol lets through, where it runs.
def methodsAllowed (c : WAFConfig F) : List GoString :=
  if c.disableProtocolChecks then []
  else sorted (if c.allowedMethods = [] then defaultAllowedMethods else c.allowedMethods).dedup

-- The configuration without what only logs and metrics read.
def policy (c : WAFConfig F) : WAFConfig F :=
  {c with
    routeID := []
    enableDOSProtection := false
    enableConfidenceScoring := false
    auditLogPath := []
    auditLogConfined := false
    auditLogRelevantOnly := false
    allowedMethods := methodsAllowed c
    allowedAdminIps := (c.allowedAdminIps.map trimSpace).filter fun ip => ip != []
    appProfiles := normaliseProfiles u c.appProfiles
    appProfileScopePaths := sorted (normaliseScopeList c.appProfileScopePaths)
    appProfileScopeFields := sorted (normaliseScopeList c.appProfileScopeFields)
    origins := sorted c.origins}

structure Plain (c : WAFConfig F) : Prop where
  audit : newline ∉ c.auditLogPath
  admins : ∀ ip ∈ c.allowedAdminIps, byte ',' ∉ ip ∧ newline ∉ ip
  profiles : ∀ name ∈ c.appProfiles, bar ∉ name ∧ newline ∉ name
  paths : ∀ path ∈ c.appProfileScopePaths, byte ',' ∉ path ∧ bar ∉ path ∧ newline ∉ path
  fields : ∀ field ∈ c.appProfileScopeFields, byte ',' ∉ field ∧ newline ∉ field
  origins : ∀ host ∈ c.origins, byte ',' ∉ host ∧ newline ∉ host

-- The parts of the policy that stand on the lines with free text.
structure SameTexts (c d : WAFConfig F) : Prop where
  action : c.dlpAction = d.dlpAction
  admins : (policy u c).allowedAdminIps = (policy u d).allowedAdminIps
  profiles : normaliseProfiles u c.appProfiles = normaliseProfiles u d.appProfiles
  ssrf : c.enableSSRFProtection = d.enableSSRFProtection
  paths : sorted (normaliseScopeList c.appProfileScopePaths) = sorted (normaliseScopeList d.appProfileScopePaths)
  fields : sorted (normaliseScopeList c.appProfileScopeFields) = sorted (normaliseScopeList d.appProfileScopeFields)
  origins : sorted c.origins = sorted d.origins

-- They agree where the fingerprint says nothing or too little: int(x*100) is 509 for 5.1 and for 5.09,
-- nothing stands between the numbers, and free text may hold a separator.
structure Agree (c d : WAFConfig F) : Prop where
  checks : c.disableProtocolChecks = d.disableProtocolChecks
  methods : methodsAllowed c = methodsAllowed d
  widths : (numbers c).map (fun n => (formatInt n).length) = (numbers d).map fun n => (formatInt n).length
  entropy : c.entropyThreshold = d.entropyThreshold
  texts : Plain c ∧ Plain d ∨ SameTexts u c d

theorem firsts_mem (mem : v ∈ firsts seen list) : v ∈ list := by
  induction list generalizing seen with
  | nil => cases mem
  | cons x rest ih =>
    unfold firsts at mem
    split at mem
    · exact mem_cons_of_mem _ (ih mem)
    · rcases mem_cons.mp mem with same | later
      · exact same ▸ mem_cons_self ..
      · exact mem_cons_of_mem _ (ih later)

variable {c : WAFConfig F}

theorem methodsAllowed_mem (on : c.disableProtocolChecks = false) :
    m ∈ methodsAllowed c ↔ m ∈ if c.allowedMethods = [] then defaultAllowedMethods else c.allowedMethods := by
  rw [methodsAllowed,on,if_neg (by decide),sorted_mem,mem_dedup]

theorem scopeList_mem (mem : v ∈ normaliseScopeList list) : v ≠ [] ∧ ∃ raw ∈ list, trimSpace raw = v := by
  obtain ⟨held,filled⟩ := List.mem_filter.mp (firsts_mem mem)
  exact ⟨by simpa using filled,List.mem_map.mp held⟩

theorem scopeList_free (free : ∀ v ∈ list, b ∉ v) (mem : part ∈ sorted (normaliseScopeList list)) : b ∉ part ∧ part ≠ [] := by
  obtain ⟨filled,raw,held,rfl⟩ := scopeList_mem (sorted_mem.mp mem)
  exact ⟨fun inside => free raw held ((trimSpace_inside raw).subset inside),filled⟩

theorem profiles_mem (mem : v ∈ normaliseProfiles u names) : v ∈ profileNames := by
  obtain ⟨raw,_,parsed⟩ := mem_filterMap.mp (firsts_mem mem)
  unfold parseProfile at parsed
  dsimp only at parsed
  split at parsed
  · rename_i known; exact Option.some.inj parsed ▸ known
  · cases parsed

theorem profileNames_plain : ∀ name ∈ profileNames, byte ',' ∉ name ∧ name ≠ [] := by decide

theorem join_free (apart : b ≠ byte ',') (free : ∀ part ∈ parts, b ∉ part) : b ∉ join parts comma := by
  intro mem
  rcases mem_join mem with between | ⟨part,held,inside⟩
  · exact apart (mem_singleton.mp between)
  · exact free part held inside

theorem formatBool_free : newline ∉ formatBool b ∧ bar ∉ formatBool b := by
  cases b <;> decide
theorem action_free : newline ∉ DLPAction.name a ∧ bar ∉ DLPAction.name a := by
  cases a <;> decide

theorem action_inj (same : DLPAction.name a = DLPAction.name b) : a = b := by
  revert same
  cases a <;> cases b <;> decide

theorem formatInt_free (n : Int) : newline ∉ formatInt n := by
  intro mem
  exact absurd (formatInt_bytes mem) (by decide)

theorem switchLine_free (c : WAFConfig F) : newline ∉ switchLine c := by
  intro mem
  obtain ⟨b,_,inside⟩ := mem_flatMap.mp mem
  exact formatBool_free.1 inside

theorem numberLine_free (c : WAFConfig F) : newline ∉ numberLine fl c := by
  simp only [numberLine,mem_append,mem_flatMap,not_or,not_exists,not_and]
  exact ⟨fun n _ => formatInt_free n,formatInt_free _,formatBool_free.1,formatBool_free.1⟩

theorem textLine_free (plain : Plain c) : newline ∉ textLine c := by
  simp only [textLine,mem_append,mem_cons,not_or]
  exact ⟨⟨plain.audit,by decide,formatBool_free.1⟩,by decide,action_free.1⟩

theorem knownJoin_free (apart : b ≠ byte ',') (names : ∀ name ∈ profileNames, b ∉ name) :
    b ∉ join (normaliseProfiles u list) comma := join_free apart fun part mem => names part (profiles_mem u mem)

theorem unknownJoin_free (apart : b ≠ byte ',') (free : ∀ name ∈ list, b ∉ name) :
    b ∉ join (sorted (unknownProfiles u list)) comma :=
  join_free apart fun part mem => free part (List.mem_filter.mp (sorted_mem.mp mem)).1

theorem scopeJoin_free (apart : b ≠ byte ',') (free : ∀ v ∈ list, b ∉ v) : b ∉ join (sorted (normaliseScopeList list)) comma :=
  join_free apart fun _ mem => (scopeList_free free mem).1

theorem scopeFingerprint_free (plain : Plain c) : newline ∉ scopeFingerprint c.appProfileScopePaths c.appProfileScopeFields := by
  unfold scopeFingerprint
  split
  · simp
  · simp only [mem_append,mem_cons,not_or]
    exact ⟨scopeJoin_free (by decide) fun path mem => (plain.paths path mem).2.2,by decide,
      scopeJoin_free (by decide) fun field mem => (plain.fields field mem).2⟩

theorem profileLine_free (plain : Plain c) : newline ∉ profileLine u c := by
  simp only [profileLine,profileFingerprint,mem_append,mem_cons,not_or]
  exact ⟨⟨knownJoin_free u (by decide) (by decide),by decide,unknownJoin_free u (by decide) fun name mem =>
    (plain.profiles name mem).2⟩,by decide,formatBool_free.1,by decide,scopeFingerprint_free plain⟩

theorem listLine_inj (whole : ∀ e ∈ p, byte ',' ∉ e ∧ newline ∉ e) (whole' : ∀ e ∈ q, byte ',' ∉ e ∧ newline ∉ e)
    (other : ∀ t, tag ++ t ≠ x) (other' : ∀ t, tag ++ t ≠ y) (same : listLine tag p ++ x = listLine tag q ++ y) : p = q ∧ x = y := by
  unfold listLine at same
  by_cases empty : p = []
  · by_cases empty' : q = []
    · simpa [empty,empty'] using same
    · simp only [empty,empty',↓reduceIte,nil_append,append_assoc] at same; exact absurd same.symm (other _)
  by_cases empty' : q = []
  · simp only [empty,empty',↓reduceIte,nil_append,append_assoc] at same; exact absurd same (other' _)
  simp only [empty,empty',↓reduceIte,append_assoc,append_cancel_left_eq,singleton_append] at same
  obtain ⟨joined,rest⟩ := before_inj (join_free (by decide) fun e mem => (whole e mem).2)
    (join_free (by decide) fun e mem => (whole' e mem).2) same
  refine ⟨?_,rest⟩
  rw [← split_join p empty fun e mem => (whole e mem).1,← split_join q empty' fun e mem => (whole' e mem).1]
  exact congrArg (split · (byte ',')) joined

theorem switches_inj {a b : List Bool} (same : a.flatMap formatBool = b.flatMap formatBool) : a = b :=
  flatMap_inj (by decide) (fun _ _ _ _ _ _ same => (formatBool_inj same).1) same

theorem numbers_inj {a b : List Int} {x y : GoString} (widths : a.map (fun n => (formatInt n).length) = b.map fun n => (formatInt n).length)
    (same : a.flatMap formatInt ++ x = b.flatMap formatInt ++ y) : a = b ∧ x = y := by
  induction a generalizing b with
  | nil =>
    cases b with
    | nil => exact ⟨rfl,by simpa using same⟩
    | cons n rest => simp at widths
  | cons n rest ih =>
    cases b with
    | nil => simp at widths
    | cons m rest' =>
      simp only [map_cons,List.cons.injEq] at widths
      simp only [flatMap_cons,append_assoc] at same
      obtain ⟨head,tail⟩ := append_inj same widths.1
      obtain ⟨later,rest⟩ := ih widths.2 tail
      exact ⟨by rw [formatInt_injective head,later],rest⟩

theorem hundredths_inj (same : formatInt n ++ (formatBool a ++ x) = formatInt m ++ (formatBool b ++ y)) :
    n = m ∧ a = b ∧ x = y := by
  let digit : UInt8 → Bool := fun b => b == byte '-' || isDigit b
  have cut : ∀ (k : Int) (b : Bool) (t : GoString), (formatInt k ++ (formatBool b ++ t)).takeWhile digit = formatInt k := by
    intro k b t
    rw [takeWhile_append_of_pos]
    · have stop : (formatBool b ++ t).takeWhile digit = [] := by
        cases b <;> rfl
      rw [stop,append_nil]
    · intro c mem
      rcases formatInt_bytes mem with minus | ⟨low,high⟩
      · simp [digit,minus]
      · simp only [digit,isDigit,Bool.or_eq_true,Bool.and_eq_true,decide_eq_true_eq,UInt8.le_iff_toNat_le]
        exact .inr ⟨low,high⟩
  have number : formatInt n = formatInt m := by
    rw [← cut n a x,same,cut]
  rw [number,append_cancel_left_eq] at same
  exact ⟨formatInt_injective number,formatBool_inj same⟩

theorem textLine_inj (same : textLine c = textLine d) : c.dlpAction = d.dlpAction :=
  action_inj (after_inj action_free.2 action_free.2 same).1

theorem scopeLists_inj (whole : ∀ v ∈ p, byte ',' ∉ v) (whole' : ∀ v ∈ q, byte ',' ∉ v)
    (same : join (sorted (normaliseScopeList p)) comma = join (sorted (normaliseScopeList q)) comma) :
    sorted (normaliseScopeList p) = sorted (normaliseScopeList q) :=
  join_inj (fun _ mem => scopeList_free whole mem) (fun _ mem => scopeList_free whole' mem) same

theorem scope_inj (plain : Plain c) (plain' : Plain d) (same : scopeFingerprint c.appProfileScopePaths c.appProfileScopeFields =
      scopeFingerprint d.appProfileScopePaths d.appProfileScopeFields) :
    sorted (normaliseScopeList c.appProfileScopePaths) = sorted (normaliseScopeList d.appProfileScopePaths) ∧
      sorted (normaliseScopeList c.appProfileScopeFields) = sorted (normaliseScopeList d.appProfileScopeFields) := by
  unfold scopeFingerprint at same
  split at same
  · rename_i empty
    split at same
    · rename_i empty'
      rw [empty.1,empty.2,empty'.1,empty'.2]
      exact ⟨rfl,rfl⟩
    · simp at same
  · split at same
    · simp at same
    obtain ⟨paths,fields⟩ := before_inj (scopeJoin_free (by decide) fun path mem => (plain.paths path mem).2.1)
      (scopeJoin_free (by decide) fun path mem => (plain'.paths path mem).2.1) same
    exact ⟨scopeLists_inj (fun path mem => (plain.paths path mem).1) (fun path mem => (plain'.paths path mem).1) paths,
      scopeLists_inj (fun field mem => (plain.fields field mem).1) (fun field mem => (plain'.fields field mem).1) fields⟩

theorem profileLine_inj (plain : Plain c) (plain' : Plain d) (same : profileLine u c = profileLine u d) :
    normaliseProfiles u c.appProfiles = normaliseProfiles u d.appProfiles ∧
      c.enableSSRFProtection = d.enableSSRFProtection ∧ scopeFingerprint c.appProfileScopePaths c.appProfileScopeFields =
        scopeFingerprint d.appProfileScopePaths d.appProfileScopeFields := by
  simp only [profileLine,profileFingerprint,append_assoc,cons_append] at same
  obtain ⟨known,same⟩ := before_inj (knownJoin_free u (by decide) (by decide)) (knownJoin_free u (by decide) (by decide)) same
  obtain ⟨_,same⟩ := before_inj (unknownJoin_free u (by decide) fun name mem => (plain.profiles name mem).1)
    (unknownJoin_free u (by decide) fun name mem => (plain'.profiles name mem).1) same
  have parts : ∀ names, ∀ part ∈ normaliseProfiles u names, byte ',' ∉ part ∧ part ≠ [] :=
    fun _ part mem => profileNames_plain part (profiles_mem u mem)
  obtain ⟨ssrf,rest⟩ := formatBool_inj same
  exact ⟨join_inj (parts _) (parts _) known,ssrf,(List.cons.inj rest).2⟩

-- The first two lines hold no free text.
theorem fingerprint_lines {c d : WAFConfig F} (same : fingerprintText fl u c = fingerprintText fl u d) :
    switchLine c = switchLine d ∧ numberLine fl c = numberLine fl d ∧ textLines u c = textLines u d := by
  obtain ⟨switch,same⟩ := before_inj (switchLine_free c) (switchLine_free d) (append_cancel_left same)
  obtain ⟨number,same⟩ := before_inj (numberLine_free fl c) (numberLine_free fl d) (append_cancel_left same)
  exact ⟨switch,number,append_cancel_left same⟩

theorem plain_texts {c d : WAFConfig F} (plain : Plain c) (plain' : Plain d) (same : fingerprintText fl u c = fingerprintText fl u d) :
    SameTexts u c d := by
  have origins : ∀ {c : WAFConfig F}, Plain c → ∀ e ∈ sorted c.origins, byte ',' ∉ e ∧ newline ∉ e :=
    fun plain e mem => plain.origins e (sorted_mem.mp mem)
  have tags : ∀ t x : GoString, lit "a:" ++ t ≠ lit "p:" ++ x := by
    intro t x equal
    exact absurd (append_inj equal (by decide)).1 (by decide)
  have tag : ∀ t : GoString, lit "o:" ++ t ≠ [] := fun t none => absurd (append_eq_nil_iff.mp none).1 (by decide)
  obtain ⟨_,_,same⟩ := fingerprint_lines fl u same
  obtain ⟨text,same⟩ := before_inj (textLine_free plain) (textLine_free plain') same
  obtain ⟨admins,same⟩ := listLine_inj plain.admins plain'.admins (fun t => tags t _) (fun t => tags t _) same
  obtain ⟨profile,same⟩ := before_inj (profileLine_free u plain) (profileLine_free u plain') (append_cancel_left same)
  have last : listLine (lit "o:") (sorted c.origins) ++ [] = listLine (lit "o:") (sorted d.origins) ++ [] := by
    rw [append_nil,append_nil,same]
  obtain ⟨hosts,_⟩ := listLine_inj (origins plain) (origins plain') tag tag last
  obtain ⟨known,ssrf,scope⟩ := profileLine_inj u plain plain' profile
  obtain ⟨paths,fields⟩ := scope_inj plain plain' scope
  exact ⟨textLine_inj text,by simp only [policy,admins],known,ssrf,paths,fields,hosts⟩

theorem agree_of_policy {c d : WAFConfig F} (same : policy u c = policy u d) : Agree u c d := by
  have admins := congrArg WAFConfig.allowedAdminIps same
  simp only [policy,WAFConfig.mk.injEq] at same
  refine ⟨by simp only [same],by simp only [same],by simp only [numbers,same],by simp only [same],.inr ⟨?_,admins,?_,?_,?_,?_,?_⟩⟩ <;>
    simp only [same]

theorem fingerprint_policy {c d : WAFConfig F} (same : fingerprintText fl u c = fingerprintText fl u d) :
    policy u c = policy u d ↔ Agree u c d := by
  constructor
  · exact agree_of_policy u
  intro agree
  have texts : SameTexts u c d := agree.texts.elim (fun plain => plain_texts fl u plain.1 plain.2 same) id
  obtain ⟨switch,number,_⟩ := fingerprint_lines fl u same
  obtain ⟨limits,number⟩ := numbers_inj agree.widths number
  obtain ⟨_,open',git⟩ := hundredths_inj number
  have smart : c.allowGitSmartHTTP = d.allowGitSmartHTTP := (formatBool_inj (congrArg (· ++ ([] : GoString)) git)).1
  have rules : switches c = switches d := switches_inj switch
  have admins := texts.admins
  simp only [switches,List.cons.injEq,and_true] at rules
  simp only [numbers,List.cons.injEq,and_true] at limits
  simp only [policy] at admins
  simp only [policy,rules,limits,agree.entropy,open',smart,texts.action,admins,texts.profiles,texts.ssrf,texts.paths,
    texts.fields,texts.origins,agree.checks,agree.methods]

end

-- With what the engine reads besides.
structure Sent (α : Type) extends Transform.Request where
  rest : α

structure Reply (β : Type) where
  status : Nat
  content : β
deriving DecidableEq

-- A data-leak action other than redact hands on the response it was given.
structure Engine (F α β : Type) where
  request : WAFConfig F → Sent α → Option Nat
  response : WAFConfig F → Sent α → Reply β → Option (Reply β)
  unchanged : ∀ c r x y, c.dlpAction ≠ .redact → response c r x = some y → y = x

structure RequestState where
  isManagement : Bool
  executedWAFs : List GoString

inductive Stage (F : Type) where
  | waf (c : WAFConfig F)
  | retry (attempts : Int)

-- `gone n` is a client that left while the n-th failed attempt waited.
structure Traffic (F α β : Type) where
  floats : Floats F
  tables : Tables
  sha : GoString → GoString
  collisionFree : ∀ a b, sha a = sha b → a = b
  engine : Engine F α β
  request : Sent α
  backend : Nat → Reply β
  gone : Nat → Bool

-- `skipped` holds the stages that skipped themselves and passed the request on.
structure World (F : Type) where
  state : Option RequestState
  calls : Nat
  discarded : Nat
  skipped : List (WAFConfig F)

-- With the stages that skipped themselves, each with the response it let through.
inductive Answer (F β : Type) where
  | refused (status : Nat)
  | answered (reply : Reply β) (skipped : List (WAFConfig F × Reply β))
  | abandoned
deriving DecidableEq

def alreadyInspected (fp : GoString) : Option RequestState → Bool × Option RequestState
  | none => (false,none)
  | some rs =>
    if rs.isManagement then (true,some rs)
    else if fp ∈ rs.executedWAFs then (true,some rs)
    else (false,some {rs with executedWAFs := rs.executedWAFs ++ [fp]})

variable {F α β : Type}

def Answer.retried : Answer F β → Bool
  | .refused status => Traffic.retryableStatus status
  | .answered reply _ => Traffic.retryableStatus reply.status
  | .abandoned => false

variable (t : Traffic F α β)

section
variable (c : WAFConfig F)

def Traffic.fp : GoString := fingerprint t.floats t.tables t.sha c
def Traffic.policy : WAFConfig F := Waf.policy t.tables c

def passedBy : Answer F β → Answer F β
  | .answered reply skipped => .answered reply ((c,reply) :: skipped)
  | other => other

def inspected : Answer F β → Answer F β
  | .answered reply skipped =>
    match t.engine.response (t.policy c) t.request reply with
    | some handed => .answered handed skipped
    | none => .refused 403
  | other => other

end

-- serveWithRetries: `left` attempts remain after this one.
def attempts (serve : World F → Answer F β × World F) : Nat → World F → Answer F β × World F
  | 0,w => serve w
  | left+1,w =>
    let out := serve w
    if out.1.retried then
      let waiting := {out.2 with discarded := out.2.discarded+1}
      if t.gone out.2.discarded then (.abandoned,waiting) else attempts serve left waiting
    else out

def serve : List (Stage F) → World F → Answer F β × World F
  | [],w => (.answered (t.backend w.calls) [],{w with calls := w.calls+1})
  | .waf c :: rest,w =>
    let inspection := alreadyInspected (t.fp c) w.state
    if inspection.1 then
      let out := serve rest {w with skipped := c :: w.skipped}
      (passedBy c out.1,out.2)
    else
      let w := {w with state := inspection.2}
      match t.engine.request (t.policy c) t.request with
      | some status => (.refused status,w)
      | none =>
        let out := serve rest w
        (inspected t c out.1,out.2)
  | .retry n :: rest,w =>
    if (Traffic.retryableRequest t.request.toRequest n).isSome then attempts t (serve rest) (n-1).toNat w else serve rest w

def arrival (tracked : Bool) : World F := ⟨if tracked then some ⟨false,[]⟩ else none,0,0,[]⟩

def wafs (chain : List (Stage F)) : List (WAFConfig F) :=
  chain.filterMap fun stage => match stage with
    | .waf c => some c
    | .retry _ => none

-- All that a skipping stage let through would have passed its checks.
structure NothingLost (out : Answer F β × World F) : Prop where
  requests : ∀ c ∈ out.2.skipped, t.engine.request (t.policy c) t.request = none
  responses : ∀ reply skipped, out.1 = .answered reply skipped →
    ∀ p ∈ skipped, (t.engine.response (t.policy p.1) t.request p.2).isSome

-- Fingerprints tell policies apart, retried stages are covered, nothing redacts between.
structure Sound (chain : List (Stage F)) : Prop where
  agree : ∀ c ∈ wafs chain, ∀ d ∈ wafs chain, t.fp c = t.fp d → Agree t.tables c d
  retries : ∀ pre n post, chain = pre ++ .retry n :: post → (Traffic.retryableRequest t.request.toRequest n).isSome →
    ∀ c ∈ wafs post, ∃ d ∈ wafs pre, t.policy d = t.policy c
  redaction : ∀ pre e post, chain = pre ++ .waf e :: post → e.dlpAction = .redact →
    ∀ d ∈ wafs pre, ∀ c ∈ wafs post, t.policy d = t.policy c → t.policy e = t.policy c

def Marked (among : WAFConfig F → Prop) (w : World F) : Prop :=
  ∀ rs, w.state = some rs → rs.isManagement = false ∧ ∀ f ∈ rs.executedWAFs, ∃ d, among d ∧ t.fp d = f
def Cleared (w : World F) : Prop := ∀ c ∈ w.skipped, t.engine.request (t.policy c) t.request = none
def Covered (chain pre : List (Stage F)) (d : WAFConfig F) : Prop := d ∈ wafs chain ∧ ∃ e ∈ wafs pre, t.policy e = t.policy d

-- Its policy passes the response, or a stage further out still will.
def Accounted (pre rest : List (Stage F)) (a : Answer F β) : Prop :=
  ∀ reply skipped, a = .answered reply skipped → ∀ p ∈ skipped, p.1 ∈ wafs rest ∧
    ((t.engine.response (t.policy p.1) t.request p.2).isSome ∨ p.2 = reply ∧ ∃ d ∈ wafs pre, t.policy d = t.policy p.1)

theorem wafs_append (a b : List (Stage F)) : wafs (a ++ b) = wafs a ++ wafs b := filterMap_append ..
theorem wafs_waf (c : WAFConfig F) (rest : List (Stage F)) : wafs (.waf c :: rest) = c :: wafs rest := rfl
theorem wafs_retry (n : Int) (rest : List (Stage F)) : wafs (.retry n :: rest) = wafs rest := rfl

theorem Marked.mono {among among' : WAFConfig F → Prop} (marked : Marked t among w) (wider : ∀ d, among d → among' d) : Marked t among' w := by
  intro rs held
  obtain ⟨traffic,marks⟩ := marked rs held
  refine ⟨traffic,?_⟩
  intro f mem
  obtain ⟨d,inside,same⟩ := marks f mem
  exact ⟨d,wider d inside,same⟩

theorem alreadyInspected_cases {among : WAFConfig F → Prop} (marked : Marked t among w) (c : WAFConfig F) :
    ((alreadyInspected (t.fp c) w.state).1 ∧ ∃ d, among d ∧ t.fp d = t.fp c) ∨
    ((alreadyInspected (t.fp c) w.state).1 = false ∧
      Marked t (fun d => among d ∨ d = c) {w with state := (alreadyInspected (t.fp c) w.state).2}) := by
  cases state : w.state with
  | none =>
    right
    refine ⟨rfl,?_⟩
    intro rs held
    cases held
  | some rs =>
    obtain ⟨traffic,marks⟩ := marked rs state
    by_cases again : t.fp c ∈ rs.executedWAFs
    · left; exact ⟨by simp [alreadyInspected,traffic,again],marks _ again⟩
    right
    refine ⟨by simp [alreadyInspected,traffic,again],?_⟩
    intro after held
    simp only [alreadyInspected,traffic,again,Bool.false_eq_true,↓reduceIte,Option.some.injEq] at held
    subst held
    refine ⟨rfl,?_⟩
    intro f mem
    rcases mem_append.mp mem with old | new
    · obtain ⟨d,inside,same⟩ := marks f old; exact ⟨d,.inl inside,same⟩
    · exact ⟨c,.inr rfl,(mem_singleton.mp new).symm⟩

theorem fp_policy {c d : WAFConfig F} (same : t.fp c = t.fp d) : t.policy c = t.policy d ↔ Agree t.tables c d :=
  fingerprint_policy t.floats t.tables (t.collisionFree _ _ (hexEncode_injective same))

theorem attempts_rule (serve : World F → Answer F β × World F) (inv : World F → Prop) (good : Answer F β → Prop)
    (step : ∀ w, inv w → good (serve w).1 ∧ inv (serve w).2) (counted : ∀ w n, inv w → inv {w with discarded := n})
    (left : good .abandoned) (n : Nat) (start : inv w) : good (attempts t serve n w).1 ∧ inv (attempts t serve n w).2 := by
  induction n generalizing w with
  | zero => exact step w start
  | succ n ih =>
    obtain ⟨fine,after⟩ := step w start
    have waiting := counted _ ((serve w).2.discarded+1) after
    simp only [attempts]
    split
    · split
      · exact ⟨left,waiting⟩
      · exact ih waiting
    · exact ⟨fine,after⟩

theorem accounted_passedBy (accounted : Accounted t (pre ++ [.waf c]) rest a) (covered : ∃ d ∈ wafs pre, t.policy d = t.policy c) :
    Accounted t pre (.waf c :: rest) (passedBy c a) := by
  intro reply skipped shape p mem
  cases a with
  | refused status | abandoned => cases shape
  | answered x s =>
    simp only [passedBy,Answer.answered.injEq] at shape
    obtain ⟨rfl,rfl⟩ := shape
    rcases mem_cons.mp mem with here | later
    · subst here; exact ⟨mem_cons_self ..,.inr ⟨rfl,covered⟩⟩
    obtain ⟨inside,passes | ⟨same,d,held,equal⟩⟩ := accounted x s rfl p later
    · exact ⟨mem_cons_of_mem _ inside,.inl passes⟩
    refine ⟨mem_cons_of_mem _ inside,.inr ⟨same,?_⟩⟩
    rw [wafs_append] at held
    rcases mem_append.mp held with outer | last
    · exact ⟨d,outer,equal⟩
    · obtain ⟨e,outer,cover⟩ := covered; exact ⟨e,outer,by rw [cover,← equal,mem_singleton.mp last]⟩

theorem accounted_inspected (sound : Sound t chain) (parts : chain = pre ++ .waf c :: rest)
    (accounted : Accounted t (pre ++ [.waf c]) rest a) : Accounted t pre (.waf c :: rest) (inspected t c a) := by
  intro reply skipped shape p mem
  cases a with
  | refused status | abandoned => cases shape
  | answered x s =>
    simp only [inspected] at shape
    split at shape
    · rename_i handed verdict
      obtain ⟨rfl,rfl⟩ := Answer.answered.inj shape
      obtain ⟨inside,passes | ⟨same,d,held,equal⟩⟩ := accounted x s rfl p mem
      · exact ⟨mem_cons_of_mem _ inside,.inl passes⟩
      refine ⟨mem_cons_of_mem _ inside,?_⟩
      by_cases own : t.policy c = t.policy p.1
      · left
        rw [← own,same,verdict]
        rfl
      right
      rw [wafs_append] at held
      rcases mem_append.mp held with outer | last
      · have plain : (t.policy c).dlpAction ≠ .redact := fun redact =>
          own (sound.redaction pre c rest parts redact d outer p.1 inside equal)
        exact ⟨same.trans (t.engine.unchanged _ _ _ _ plain verdict).symm,d,outer,equal⟩
      · exact absurd ((mem_singleton.mp last) ▸ equal) own
    · cases shape

abbrev Passes (c : WAFConfig F) : Prop := t.engine.request (t.policy c) t.request = none

theorem passed_snoc (passed : ∀ d ∈ wafs pre, Passes t d) (verdict : Passes t c) : ∀ d ∈ wafs (pre ++ [.waf c]), Passes t d := by
  rw [wafs_append]
  exact forall_mem_append.mpr ⟨passed,forall_mem_singleton.mpr verdict⟩

-- What the rest of a chain keeps, behind stages that let the request pass.
def Keeps (chain pre rest : List (Stage F)) : Prop :=
  (∀ d ∈ wafs pre, Passes t d) → ∀ w, Marked t (Covered t chain pre) w → Cleared t w →
    Accounted t pre rest (serve t rest w).1 ∧ Marked t (· ∈ wafs chain) (serve t rest w).2 ∧ Cleared t (serve t rest w).2

theorem waf_keeps (sound : Sound t chain) (parts : chain = pre ++ .waf c :: rest) (keeps : Keeps t chain (pre ++ [.waf c]) rest) :
    Keeps t chain pre (.waf c :: rest) := by
  intro passed w marked cleared
  have held : c ∈ wafs chain := by simp [parts,wafs_append,wafs_waf]
  have widen : ∀ d, Covered t chain pre d → Covered t chain (pre ++ [.waf c]) d := by
    intro d ⟨inside,e,outer,equal⟩
    exact ⟨inside,e,by simp [wafs_append,outer],equal⟩
  simp only [serve]
  rcases alreadyInspected_cases t marked c with ⟨skips,d,⟨inside,e,outer,cover⟩,same⟩ | ⟨runs,marks⟩
  · have covered : t.policy e = t.policy c := cover.trans ((fp_policy t same).mpr (sound.agree d inside c held same))
    have verdict : Passes t c := by rw [Passes,← covered]; exact passed e outer
    rw [if_pos skips]
    obtain ⟨accounted,after⟩ := keeps (passed_snoc t passed verdict) {w with skipped := c :: w.skipped} (marked.mono t widen)
      (forall_mem_cons.mpr ⟨verdict,cleared⟩)
    exact ⟨accounted_passedBy t accounted ⟨e,outer,covered⟩,after⟩
  have marks' : Marked t (Covered t chain (pre ++ [.waf c])) {w with state := (alreadyInspected (t.fp c) w.state).2} := by
    apply marks.mono t
    intro d either
    rcases either with old | own
    · exact widen d old
    · exact ⟨own ▸ held,c,by simp [wafs_append,wafs_waf],own ▸ rfl⟩
  rw [if_neg (by simp [runs])]
  split
  · exact ⟨nofun,marks'.mono t fun d covered => covered.1,cleared⟩
  · rename_i verdict
    obtain ⟨accounted,after⟩ := keeps (passed_snoc t passed verdict) _ marks' cleared
    exact ⟨accounted_inspected t sound parts accounted,after⟩

-- Each attempt starts from marks that stages in front of the Retry cover.
theorem retry_keeps (sound : Sound t chain) (parts : chain = pre ++ .retry n :: rest) (keeps : Keeps t chain (pre ++ [.retry n]) rest) :
    Keeps t chain pre (.retry n :: rest) := by
  intro passed w marked cleared
  have once : Keeps t chain pre rest := by
    have same : wafs (pre ++ [.retry n]) = wafs pre := by simp [wafs]
    have covers : Covered t chain (pre ++ [.retry n]) = Covered t chain pre := by
      funext d
      simp only [Covered,same]
    simpa only [Keeps,Accounted,covers,same] using keeps
  simp only [serve]
  split
  · rename_i effective
    have cover : ∀ d ∈ wafs chain, Covered t chain pre d := by
      intro d mem
      refine ⟨mem,?_⟩
      rw [parts,wafs_append,wafs_retry] at mem
      rcases mem_append.mp mem with outer | inner
      · exact ⟨d,outer,rfl⟩
      · exact sound.retries pre n rest parts effective d inner
    have looped := attempts_rule t (serve t rest) (fun w => Marked t (Covered t chain pre) w ∧ Cleared t w)
      (Accounted t pre rest) ?_ ?_ ?_ (n-1).toNat ⟨marked,cleared⟩
    · exact ⟨looped.1,looped.2.1.mono t fun d covered => covered.1,looped.2.2⟩
    · intro w ⟨marked,cleared⟩
      obtain ⟨accounted,marks,clear⟩ := once passed w marked cleared
      exact ⟨accounted,marks.mono t cover,clear⟩
    · exact fun w n kept => kept
    · nofun
  · exact once passed w marked cleared

-- Induction on the chain that is left: what was marked covers every stage that skips.
theorem serve_keeps (sound : Sound t chain) (rest : List (Stage F)) (parts : chain = pre ++ rest) : Keeps t chain pre rest := by
  induction rest generalizing pre with
  | nil =>
    intro _ w marked cleared
    refine ⟨?_,marked.mono t fun d covered => covered.1,cleared⟩
    intro reply skipped shape p mem
    simp only [serve,Answer.answered.injEq] at shape
    rw [← shape.2] at mem
    cases mem
  | cons stage rest ih =>
    have next : Keeps t chain (pre ++ [stage]) rest := ih (by simp [parts])
    cases stage with
    | waf c => exact waf_keeps t sound parts next
    | retry n => exact retry_keeps t sound parts next

def sampleRoute (rows : List (GoString × GoString)) : WAFConfig Nat :=
  parseWAFConfig sampleFloats .ascii sampleEnv [] (rows.foldl KeyedStore.Store.put KeyedStore.Store.empty)

def sampleEngine : Engine Nat (Option Nat) GoString where
  request := fun _ r => r.rest
  response := fun c _ x => if c.enableResponseInspection && contains x.content (lit "secret") then none else some x
  unchanged := by
    intro c r x y _ passed
    split at passed
    · cases passed
    · exact (Option.some.inj passed).symm

def sampleTraffic (verdict : Option Nat) (replies : List (Reply GoString)) : Traffic Nat (Option Nat) GoString where
  floats := sampleFloats
  tables := .ascii
  sha := id
  collisionFree := fun _ _ same => same
  engine := sampleEngine
  request := ⟨⟨lit "GET",⟨lit "/",[]⟩,fun _ => [],.none,0⟩,verdict⟩
  backend := fun n => replies.getD n ⟨200,[]⟩
  gone := fun _ => false

def guarded : WAFConfig Nat := sampleRoute [(lit "dlp",lit "true")]

def routed : WAFConfig Nat := {guarded with routeID := lit "r"}

-- One fingerprint: the comma inside the only address reads as the one between two.
def office : WAFConfig Nat := {guarded with allowedAdminIps := [lit "10.0.0.1,10.0.0.2"]}
def offices : WAFConfig Nat := {guarded with allowedAdminIps := [lit "10.0.0.1",lit "10.0.0.2"]}

-- One fingerprint each: the methods are not in it, and the numbers are run together.
def reading : WAFConfig Nat := sampleRoute [(lit "allowed_methods",lit "GET")]
def strict : WAFConfig Nat := sampleRoute [(lit "anomaly_threshold",lit "1"),(lit "request_body_limit",lit "23")]
def lenient : WAFConfig Nat := sampleRoute [(lit "anomaly_threshold",lit "12"),(lit "request_body_limit",lit "3")]

def quietTraffic := sampleTraffic none []

def retriedTraffic (body : GoString) := sampleTraffic none [⟨502,[]⟩,⟨200,body⟩]

end Gateon.Waf
