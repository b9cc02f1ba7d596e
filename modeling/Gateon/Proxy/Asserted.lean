import Gateon.Request.Forwarded

namespace Gateon.Proxy
open Go Config Request List Function

def gatewayJA4Header : GoString := lit "X-Gateon-Ja4"

def gatewayAssertedHeaders : List GoString :=
  [lit "X-Real-IP",lit "X-Forwarded-For",lit "X-Forwarded-Host",lit "X-Forwarded-Proto",lit "X-Forwarded-Ssl",
    gatewayJA4Header,lit "X-Gateon-Reputation",lit "X-Gateon-Fingerprint"]

def strippedHeaders : List GoString :=
  [lit "X-Gateon-Reputation",lit "X-Gateon-Test-Reputation",lit "X-Gateon-Anomaly-Score",lit "X-Gateon-Threat-Type",
    lit "X-Gateon-WAF-Matched",gatewayJA4Header]
def stripGatewayHeaders (h : Header) : Header := strippedHeaders.foldl Header.del h

def normalizeHost (p : Peer) (h : Header) : Peer × Header :=
  let host := if p.host = [] then Header.get h (lit "Host") else p.host
  ({p with host := host},if host = [] then h else update h (lit "Host") [host])

def applyCloudflareTrust (trustCloudflare : Bool) (p : Peer) : Peer :=
  if !trustCloudflare then p
  else
    match lastIndexByte p.remoteAddr (byte ':') with
    | some last =>
      if !hasSuffix p.remoteAddr (lit "]") then {p with remoteAddr := clientAddr p ++ p.remoteAddr.drop last}
      else {p with remoteAddr := clientAddr p}
    | none => {p with remoteAddr := clientAddr p}

def wafPass (trustCloudflare : Bool) (p : Peer) (h : Header) : Peer × Header :=
  let named := normalizeHost p h
  let p := applyCloudflareTrust trustCloudflare named.1
  let h := Header.set (stripGatewayHeaders named.2) (lit "X-Gateon-Reputation") p.reputation
  let h := Header.set h gatewayJA4Header p.ja4h
  (p,Header.set h (lit "X-Gateon-Fingerprint") p.ja4h)

def arrive (waf : Option Bool) (p : Peer) (h : Header) : Peer × Header :=
  match waf with
  | none => (p,h)
  | some trustCloudflare => wafPass trustCloudflare p h

def connectionNames (h : Header) : List GoString :=
  ((h (lit "Connection")).flatMap fun line => (split line (byte ',')).map trimString).filter fun name => name != []

def hopHeaders : List GoString :=
  [lit "Connection",lit "Proxy-Connection",lit "Keep-Alive",lit "Proxy-Authenticate",lit "Proxy-Authorization",lit "Te",
    lit "Trailer",lit "Transfer-Encoding",lit "Upgrade"]

-- The header of ProxyRequest.Out when httputil.ReverseProxy calls Rewrite.
def outHeader (h : Header) : Header :=
  [lit "Forwarded",lit "X-Forwarded-For",lit "X-Forwarded-Host",lit "X-Forwarded-Proto"].foldl Header.del
    ((connectionNames h ++ hopHeaders).foldl Header.del h)

def setGatewayJA4 (out : Header) (p : Peer) : Header :=
  let out := Header.del out gatewayJA4Header
  if p.ja4h ≠ [] then Header.set out gatewayJA4Header p.ja4h else out

variable {Addr : Type} (known : Proxies Addr) (u : Tables)

-- rewriteRequest, as far as it writes the headers of gatewayAssertedHeaders.
def rewriteRequest (p : Peer) (h out : Header) : Header :=
  let out := stripHeaderAliases out gatewayAssertedHeaders
  let clientIP := getClientIP known p h false
  let prior := Header.get h (lit "X-Forwarded-For")
  let xff := if prior ≠ [] then prior ++ lit ", " ++ clientIP else clientIP
  let scheme := scheme known u p h
  let out := update out (lit "X-Real-Ip") [clientIP]
  let out := update out (lit "X-Forwarded-For") [xff]
  let out := update out (lit "X-Forwarded-Host") [p.host]
  let out := update out (lit "X-Forwarded-Proto") [scheme]
  let out := if scheme = lit "https" then update out (lit "X-Forwarded-Ssl") [lit "on"] else out
  setGatewayJA4 out p

def upgradeForwardedFor (p : Peer) (h : Header) : GoString :=
  let connected := p.conn.getD []
  let peerIP := if connected = [] then stripPort p.remoteAddr else connected
  let xff := Header.get h (lit "X-Forwarded-For")
  if xff = [] then peerIP else xff ++ lit ", " ++ peerIP

def newUpgradeRequest (p : Peer) (h : Header) : Header :=
  let out := stripHeaderAliases h gatewayAssertedHeaders
  let out := Header.set out (lit "X-Real-IP") (getClientIP known p h false)
  let out := Header.set out (lit "X-Forwarded-Host") p.host
  let out := Header.del out (lit "Forwarded")
  let out := Header.set out (lit "X-Forwarded-Proto") (scheme known u p h)
  let out := if scheme known u p h = lit "https" then Header.set out (lit "X-Forwarded-Ssl") (lit "on") else out
  let out := Header.set out (lit "X-Forwarded-For") (upgradeForwardedFor p h)
  let out := setGatewayJA4 out p
  Header.set out (lit "Connection") (lit "upgrade")

def proxied (waf : Option Bool) (p : Peer) (lines : List (GoString × GoString)) : Header :=
  let got := arrive waf p (Header.ofLines lines)
  rewriteRequest known u got.1 got.2 (outHeader got.2)

def upgraded (waf : Option Bool) (p : Peer) (lines : List (GoString × GoString)) : Header :=
  let got := arrive waf p (Header.ofLines lines)
  newUpgradeRequest known u got.1 got.2

def asserted : List GoString := gatewayAssertedHeaders.filter fun name => name != lit "X-Forwarded-For"
def assertedKeys : List GoString := asserted.map canonicalMIMEHeaderKey
def Reads (key : GoString) : Prop := foldHeaderName key ∈ asserted.map foldHeaderName

instance (key : GoString) : Decidable (Reads key) := inferInstanceAs (Decidable (_ ∈ _))

def others (lines : List (GoString × GoString)) : List (GoString × GoString) := lines.filter fun line => !decide (Reads line.1)
def SameAsserted (a b : Header) : Prop := ∀ key, Reads key → a key = b key
def NoAlias (a : Header) : Prop := ∀ key, Reads key → key ∉ assertedKeys → a key = []
def EndsIn (a : Header) (own : GoString) : Prop :=
  ∃ before, a (lit "X-Forwarded-For") = [before ++ own] ∧ (before = [] ∨ ∃ prior, before = prior ++ lit ", ")
def ownHop (p : Peer) : GoString := if p.conn.getD [] = [] then stripPort p.remoteAddr else p.conn.getD []

-- Whatever asserted lines the client adds, the backend gets the same ones.
def Independent (waf : Option Bool) (p : Peer) (rest : List (GoString × GoString)) : Prop :=
  ∀ lines lines', others lines = others rest → others lines' = others rest →
    let got := arrive waf p (Header.ofLines lines)
    SameAsserted (proxied known u waf p lines) (proxied known u waf p lines') ∧
    SameAsserted (upgraded known u waf p lines) (upgraded known u waf p lines') ∧
    SameAsserted (proxied known u waf p lines) (upgraded known u waf p lines) ∧
    NoAlias (proxied known u waf p lines) ∧ NoAlias (upgraded known u waf p lines) ∧
    EndsIn (proxied known u waf p lines) (getClientIP known got.1 got.2 false) ∧
    (isTrustedProxy known got.1.remoteAddr = false → getClientIP known got.1 got.2 false = clientAddr got.1) ∧
    EndsIn (upgraded known u waf p lines) (ownHop got.1)

section
variable {known : Proxies Addr} {u : Tables} {p : Peer} {h out : Header} {key : GoString}

theorem assertedKeys_eq : assertedKeys =
    [lit "X-Real-Ip",lit "X-Forwarded-Host",lit "X-Forwarded-Proto",lit "X-Forwarded-Ssl",lit "X-Gateon-Ja4",
      lit "X-Gateon-Reputation",lit "X-Gateon-Fingerprint"] := by
  decide

theorem written_canonical :
    (∀ key ∈ lit "Host" :: lit "Connection" :: lit "Forwarded" :: lit "X-Forwarded-For" :: assertedKeys,
      canonicalMIMEHeaderKey key = key) ∧ canonicalMIMEHeaderKey (lit "X-Real-IP") = lit "X-Real-Ip" := by
  decide

theorem strip_asserted (filed : Filed h) (reads : Reads key) :
    stripHeaderAliases h gatewayAssertedHeaders key = if key ∈ assertedKeys then h key else [] := by
  have tokens : ∀ name ∈ asserted, name.all isTokenByte ∧ isSeparated name = false := by decide
  have plainKeys : ∀ key ∈ assertedKeys, isSeparated key = false := by decide
  have swept : foldHeaderName key ∈ gatewayAssertedHeaders.map foldHeaderName := by
    obtain ⟨name,mem,same⟩ := List.mem_map.mp reads
    exact List.mem_map.mpr ⟨name,mem_of_mem_filter mem,same⟩
  cases separated : isSeparated key with
  | true =>
    rw [strip_alias separated swept,if_neg]
    intro mem
    cases separated.symm.trans (plainKeys key mem)
  | false =>
    rw [strip_plain separated]
    split
    · rfl
    rename_i other
    by_contra present
    obtain ⟨name,mem,same⟩ := List.mem_map.mp reads
    have canonical := canonical_plain (tokens name mem).1 (tokens name mem).2 separated same.symm
    rw [filed key present] at canonical
    exact other (List.mem_map.mpr ⟨name,mem,canonical.symm⟩)

def written (p : Peer) (clientIP proto : GoString) (base : Header) (key : GoString) : List GoString :=
  if key = lit "X-Gateon-Ja4" then if p.ja4h = [] then [] else [p.ja4h]
  else if key = lit "X-Forwarded-Ssl" ∧ proto = lit "https" then [lit "on"]
  else if key = lit "X-Forwarded-Proto" then [proto]
  else if key = lit "X-Forwarded-Host" then [p.host]
  else if key = lit "X-Real-Ip" then [clientIP]
  else if key ∈ assertedKeys then base key
  else []

theorem setGatewayJA4_apply (out : Header) (p : Peer) (key : GoString) : setGatewayJA4 out p key =
      if key = lit "X-Gateon-Ja4" then if p.ja4h = [] then [] else [p.ja4h] else out key := by
  have named : canonicalMIMEHeaderKey gatewayJA4Header = lit "X-Gateon-Ja4" := by decide
  by_cases absent : p.ja4h = []
  · simp [setGatewayJA4,absent,del_apply,named]
  · by_cases same : key = lit "X-Gateon-Ja4"
    · simp [setGatewayJA4,absent,set_apply,named,same]
    · simp [setGatewayJA4,absent,set_apply,del_apply,named,same]

theorem apart_asserted : ¬ Reads (lit "X-Forwarded-For") ∧ ¬ Reads (lit "Connection") ∧ ¬ Reads (lit "Forwarded") ∧
    ¬ Reads (lit "Host") := by
  decide

theorem rewrite_written (filed : Filed out) (reads : Reads key) :
    rewriteRequest known u p h out key = written p (getClientIP known p h false) (scheme known u p h) out key := by
  have apart : key ≠ lit "X-Forwarded-For" := fun same => apart_asserted.1 (same ▸ reads)
  unfold rewriteRequest written
  by_cases secure : scheme known u p h = lit "https" <;>
    simp [secure,setGatewayJA4_apply,update_apply,strip_asserted filed reads,apart]

theorem upgrade_written (filed : Filed h) (reads : Reads key) :
    newUpgradeRequest known u p h key = written p (getClientIP known p h false) (scheme known u p h) h key := by
  obtain ⟨forwardedFor,connection,forwarded,_⟩ := apart_asserted
  have apart : key ≠ lit "X-Forwarded-For" := fun same => forwardedFor (same ▸ reads)
  have apart' : key ≠ lit "Connection" := fun same => connection (same ▸ reads)
  have apart'' : key ≠ lit "Forwarded" := fun same => forwarded (same ▸ reads)
  obtain ⟨canonical,real⟩ := written_canonical
  simp only [assertedKeys_eq,forall_mem_cons] at canonical
  unfold newUpgradeRequest written
  by_cases secure : scheme known u p h = lit "https" <;>
    simp [secure,set_apply,del_apply,setGatewayJA4_apply,strip_asserted filed reads,apart,apart',apart'',canonical,real]

def own (p : Peer) (clientIP key : GoString) : List GoString :=
  written p clientIP (lit "https") (fun key => if key = lit "X-Gateon-Reputation" then [p.reputation] else [p.ja4h]) key

theorem written_own (reputation : base (lit "X-Gateon-Reputation") = [p.reputation])
    (fingerprint : base (lit "X-Gateon-Fingerprint") = [p.ja4h]) (clientIP key : GoString) :
    written p clientIP (lit "https") base key = own p clientIP key := by
  have apart : lit "X-Gateon-Fingerprint" ≠ lit "X-Gateon-Reputation" := by decide
  unfold own written
  simp only [assertedKeys_eq,mem_cons,not_mem_nil]
  grind

theorem own_other (clientIP : GoString) (other : key ∉ assertedKeys) : own p clientIP key = [] := by
  unfold own written
  simp only [assertedKeys_eq,mem_cons,not_mem_nil] at other ⊢
  grind

theorem endsIn_added (prior : GoString) (found : out (lit "X-Forwarded-For") = [if prior = [] then added else prior ++ lit ", " ++ added]) :
    EndsIn out added := by
  by_cases none : prior = []
  · exact ⟨[],by simp [found,none],.inl rfl⟩
  · exact ⟨prior ++ lit ", ",by simp [found,none],.inr ⟨_,rfl⟩⟩

theorem rewrite_forwardedFor : EndsIn (rewriteRequest known u p h out) (getClientIP known p h false) := by
  obtain ⟨ja4,ssl,proto,host⟩ : lit "X-Forwarded-For" ≠ lit "X-Gateon-Ja4" ∧ lit "X-Forwarded-For" ≠ lit "X-Forwarded-Ssl" ∧
      lit "X-Forwarded-For" ≠ lit "X-Forwarded-Proto" ∧ lit "X-Forwarded-For" ≠ lit "X-Forwarded-Host" := by
    decide
  apply endsIn_added (Header.get h (lit "X-Forwarded-For"))
  unfold rewriteRequest
  by_cases secure : scheme known u p h = lit "https"
  · simp [secure,setGatewayJA4_apply,ja4,ssl,proto,host]
  · simp [secure,setGatewayJA4_apply,ja4,proto,host]

theorem upgrade_forwardedFor : EndsIn (newUpgradeRequest known u p h) (ownHop p) := by
  obtain ⟨ja4,connection⟩ : lit "X-Forwarded-For" ≠ lit "X-Gateon-Ja4" ∧ lit "X-Forwarded-For" ≠ lit "Connection" := by
    decide
  obtain ⟨canonical,_⟩ := written_canonical
  apply endsIn_added (Header.get h (lit "X-Forwarded-For"))
  simp [newUpgradeRequest,set_apply,setGatewayJA4_apply,ja4,connection,canonical,upgradeForwardedFor,ownHop]

variable (trustCloudflare : Bool)

theorem cloudflare_address (p : Peer) : ∃ address, applyCloudflareTrust trustCloudflare p = {p with remoteAddr := address} := by
  unfold applyCloudflareTrust
  split
  · exact ⟨p.remoteAddr,rfl⟩
  · split
    · split <;> exact ⟨_,rfl⟩
    · exact ⟨_,rfl⟩

theorem wafPass_peer (p : Peer) (h : Header) :
    ∃ address host, (wafPass trustCloudflare p h).1 = {p with remoteAddr := address,host := host} := by
  obtain ⟨address,same⟩ := cloudflare_address trustCloudflare (normalizeHost p h).1
  exact ⟨address,(normalizeHost p h).1.host,same⟩

theorem wafPass_header (p : Peer) (h : Header) (key : GoString) : (wafPass trustCloudflare p h).2 key =
      if key = lit "X-Gateon-Fingerprint" then [p.ja4h] else if key = lit "X-Gateon-Ja4" then [p.ja4h]
      else if key = lit "X-Gateon-Reputation" then [p.reputation]
      else if key ∈ [lit "X-Gateon-Test-Reputation",lit "X-Gateon-Anomaly-Score",lit "X-Gateon-Threat-Type",
          lit "X-Gateon-Waf-Matched"] then [] else (normalizeHost p h).2 key := by
  have deleted : strippedHeaders.map canonicalMIMEHeaderKey =
      [lit "X-Gateon-Reputation",lit "X-Gateon-Test-Reputation",lit "X-Gateon-Anomaly-Score",
        lit "X-Gateon-Threat-Type",lit "X-Gateon-Waf-Matched",lit "X-Gateon-Ja4"] := by
    decide
  obtain ⟨fingerprint,reputation,ja4⟩ : canonicalMIMEHeaderKey (lit "X-Gateon-Fingerprint") = lit "X-Gateon-Fingerprint" ∧
      canonicalMIMEHeaderKey (lit "X-Gateon-Reputation") = lit "X-Gateon-Reputation" ∧
      canonicalMIMEHeaderKey gatewayJA4Header = lit "X-Gateon-Ja4" := by
    decide
  obtain ⟨address,host,peer⟩ := wafPass_peer trustCloudflare p h
  have peer' : applyCloudflareTrust trustCloudflare (normalizeHost p h).1 = {p with remoteAddr := address,host := host} := peer
  simp only [wafPass,set_apply,stripGatewayHeaders,dels_apply,deleted,fingerprint,reputation,ja4,peer']
  grind

theorem normalizeHost_other (p : Peer) (h : Header) (other : key ≠ lit "Host") : (normalizeHost p h).2 key = h key := by
  unfold normalizeHost
  generalize (if p.host = [] then Header.get h (lit "Host") else p.host) = host
  dsimp only
  split
  · rfl
  · rw [update_of_ne other]

theorem arrive_other (waf : Option Bool) (p : Peer) (h : Header)
    (other : key ∈ [lit "X-Forwarded-For",lit "X-Forwarded-Proto",lit "X-Forwarded-Ssl",lit "Connection"]) :
    (arrive waf p h).2 key = h key := by
  cases waf with
  | none => rfl
  | some trustCloudflare =>
    have apart : ∀ key ∈ [lit "X-Forwarded-For",lit "X-Forwarded-Proto",lit "X-Forwarded-Ssl",lit "Connection"],
        key ∉ [lit "X-Gateon-Fingerprint",lit "X-Gateon-Ja4",lit "X-Gateon-Reputation",lit "X-Gateon-Test-Reputation",
          lit "X-Gateon-Anomaly-Score",lit "X-Gateon-Threat-Type",lit "X-Gateon-Waf-Matched",lit "Host"] := by
      decide
    have away := apart key other
    simp only [mem_cons,not_mem_nil,or_false,not_or] at away
    rw [arrive,wafPass_header]
    simp [away,normalizeHost_other]

theorem arrive_filed (filed : Filed h) (waf : Option Bool) (p : Peer) : Filed (arrive waf p h).2 := by
  cases waf with
  | none => exact filed
  | some trustCloudflare =>
    have named : Filed (normalizeHost p h).2 := by
      unfold normalizeHost
      generalize (if p.host = [] then Header.get h (lit "Host") else p.host) = host
      dsimp only
      split
      · exact filed
      · exact update_filed filed (by decide) _
    exact set_filed (set_filed (set_filed (dels_filed named _) _ _) _ _) _ _

theorem arrive_secured (waf : Option Bool) (p : Peer) (h : Header) : secured u (arrive waf p h).1 = secured u p := by
  cases waf with
  | none => rfl
  | some trustCloudflare =>
    obtain ⟨address,host,peer⟩ := wafPass_peer trustCloudflare p h
    rw [arrive,peer]
    rfl

theorem arrive_peer (same : h (lit "Host") = h' (lit "Host")) (waf : Option Bool) (p : Peer) :
    (arrive waf p h).1 = (arrive waf p h').1 := by
  cases waf with
  | none => rfl
  | some trustCloudflare =>
    have canonical : canonicalMIMEHeaderKey (lit "Host") = lit "Host" := written_canonical.1 _ (by simp)
    have read : Header.get h (lit "Host") = Header.get h' (lit "Host") := by
      rw [Header.get,Header.get,Header.values,Header.values,canonical,same]
    simp only [arrive,wafPass,normalizeHost,read]

theorem arrive_asserts (p : Peer) (h : Header) :
    let got := arrive (some trustCloudflare) p h
    got.2 (lit "X-Gateon-Reputation") = [got.1.reputation] ∧ got.2 (lit "X-Gateon-Fingerprint") = [got.1.ja4h] := by
  have apart : lit "X-Gateon-Reputation" ≠ lit "X-Gateon-Fingerprint" ∧ lit "X-Gateon-Reputation" ≠ lit "X-Gateon-Ja4" := by
    decide
  obtain ⟨address,host,peer⟩ := wafPass_peer trustCloudflare p h
  simp only [arrive,wafPass_header,peer,apart,↓reduceIte,and_self]

theorem ofLines_apart (line : GoString × GoString) (reads : Reads line.1 ↔ ¬ Reads key) :
    (canonicalMIMEHeaderKey line.1 == key) = false := by
  rw [beq_eq_false_iff_ne]
  intro named
  have fold : foldHeaderName line.1 = foldHeaderName key := by rw [← named,canonical_fold]
  have alike : Reads line.1 ↔ Reads key := by rw [Reads,Reads,fold]
  tauto

section
variable (lines : List (GoString × GoString))

theorem ofLines_others (unread : ¬ Reads key) : Header.ofLines (others lines) key = Header.ofLines lines key := by
  unfold Header.ofLines others
  rw [List.filter_filter]
  congr 1
  apply filter_congr
  intro line _
  by_cases reads : Reads line.1
  · have apart : (canonicalMIMEHeaderKey line.1 == key) = false := ofLines_apart line (by tauto)
    simp [apart]
  · simp [reads]

theorem others_read (reads : Reads key) : Header.ofLines (others lines) key = [] := by
  unfold Header.ofLines
  rw [map_eq_nil_iff,filter_eq_nil_iff]
  intro line mem
  have away : ¬ Reads line.1 := by simpa using (List.mem_filter.mp mem).2
  rw [ofLines_apart line (by tauto)]
  simp

theorem others_added (reads : Reads name) (value : GoString) : others (others lines ++ [(name,value)]) = others lines := by
  simp [others,reads]

theorem others_idem : others (others lines) = others lines := by
  simp [others]

theorem ofLines_added (reads : Reads key) (canonical : canonicalMIMEHeaderKey name = name) (value : GoString) :
    Header.ofLines (others lines ++ [(name,value)]) key = if name = key then [value] else [] := by
  have before := others_read lines reads
  unfold Header.ofLines at before ⊢
  rw [filter_append,map_append,before]
  by_cases same : name = key
  · subst same; simp [canonical]
  · simp [canonical,same]

end

theorem outHeader_filed (filed : Filed h) : Filed (outHeader h) := dels_filed (dels_filed filed _) _

abbrev marked : List GoString := [lit "X-Gateon-Reputation",lit "X-Gateon-Fingerprint"]

theorem outHeader_kept (named : key ∈ marked) :
    outHeader h key = if key ∈ (connectionNames h).map canonicalMIMEHeaderKey then [] else h key := by
  have apart : ∀ key ∈ marked, key ∉ hopHeaders.map canonicalMIMEHeaderKey ∧
      key ∉ [lit "Forwarded",lit "X-Forwarded-For",lit "X-Forwarded-Host",lit "X-Forwarded-Proto"].map canonicalMIMEHeaderKey := by
    decide
  obtain ⟨hop,forwarding⟩ := apart key named
  rw [outHeader,dels_apply,if_neg forwarding,dels_apply]
  simp only [map_append,mem_append,hop,or_false]

theorem arrive_connection (waf : Option Bool) (p : Peer) (same : others lines = others rest) :
    connectionNames (arrive waf p (Header.ofLines lines)).2 = connectionNames (Header.ofLines rest) := by
  unfold connectionNames
  rw [arrive_other waf p _ (by simp),← ofLines_others lines apart_asserted.2.1,same,ofLines_others rest apart_asserted.2.1]

variable {waf : Option Bool} {rest : List (GoString × GoString)}

-- The headers an upgrade takes over where nothing of its own replaces them.
def passed : List GoString := [lit "X-Forwarded-Ssl",lit "X-Gateon-Reputation",lit "X-Gateon-Fingerprint"]

theorem passed_key : ∀ key ∈ passed, Reads key ∧ key ∈ assertedKeys ∧
    key ∉ [lit "X-Gateon-Ja4",lit "X-Forwarded-Proto",lit "X-Forwarded-Host",lit "X-Real-Ip"] ∧ canonicalMIMEHeaderKey key = key := by
  decide

theorem upgrade_passes (named : key ∈ passed) (plain : key = lit "X-Forwarded-Ssl" →
      scheme known u (arrive waf p (Header.ofLines lines)).1 (arrive waf p (Header.ofLines lines)).2 ≠ lit "https") :
    upgraded known u waf p lines key = (arrive waf p (Header.ofLines lines)).2 key := by
  obtain ⟨reads,mem,unset,_⟩ := passed_key key named
  rw [upgraded,upgrade_written (arrive_filed (ofLines_filed lines) waf p) reads]
  simp only [mem_cons,not_mem_nil,or_false,not_or] at unset
  simp only [written,unset,not_and.mpr plain,mem,↓reduceIte]

section
variable (independent : Independent known u waf p rest)
include independent

theorem independent_added (key : GoString) (named : key ∈ passed) (value : GoString)
    (through : ∀ lines, lines = others rest ∨ lines = others rest ++ [(key,value)] →
      upgraded known u waf p lines key = Header.ofLines lines key) : False := by
  obtain ⟨reads,_,_,canonical⟩ := passed_key key named
  have same := (independent (others rest) (others rest ++ [(key,value)]) (others_idem rest) (others_added rest reads _)).2.1 key reads
  rw [through _ (.inl rfl),through _ (.inr rfl),others_read rest reads,ofLines_added rest reads canonical,if_pos rfl] at same
  cases same

theorem independent_secured : secured u p := by
  by_contra insecure
  rw [Bool.not_eq_true] at insecure
  have proto : Reads (lit "X-Forwarded-Proto") := by decide
  refine independent_added independent (lit "X-Forwarded-Ssl") (by decide) (lit "on") fun lines added => ?_
  rw [upgrade_passes (by decide),arrive_other waf p _ (by simp)]
  intro _
  apply scheme_unsecured known
  · rw [arrive_secured,insecure]
  rw [arrive_other waf p _ (by simp)]
  rcases added with rfl | rfl
  · exact others_read rest proto
  · rw [ofLines_added rest proto (by decide),if_neg (by decide)]

theorem independent_waf : waf.isSome := by
  cases waf with
  | some trustCloudflare => rfl
  | none =>
    refine (independent_added independent (lit "X-Gateon-Reputation") (by decide) (lit "100") fun lines _ => ?_).elim
    rw [upgrade_passes (by decide) (fun same => absurd same (by decide))]
    rfl

theorem independent_unlisted : ∀ key ∈ marked,
    key ∉ (connectionNames (Header.ofLines rest)).map canonicalMIMEHeaderKey := by
  intro key named listed
  cases waf with
  | none => cases independent_waf independent
  | some trustCloudflare =>
    have other : ∀ key ∈ marked, key ≠ lit "X-Forwarded-Ssl" := by decide
    have apart := other key named
    obtain ⟨reads,mem,unset,_⟩ := passed_key key (.tail _ named)
    have same := (independent rest rest rfl rfl).2.2.1 key reads
    have dropped : proxied known u (some trustCloudflare) p rest key = [] := by
      rw [proxied,rewrite_written (outHeader_filed (arrive_filed (ofLines_filed rest) _ p)) reads]
      simp only [mem_cons,not_mem_nil,or_false,not_or] at unset
      simp only [written,unset,apart,mem,false_and,↓reduceIte]
      rw [outHeader_kept named,arrive_connection _ p rfl,if_pos listed]
    have present : (arrive (some trustCloudflare) p (Header.ofLines rest)).2 key ≠ [] := by
      obtain ⟨reputation,fingerprint⟩ := arrive_asserts trustCloudflare p (Header.ofLines rest)
      simp only [mem_cons,not_mem_nil,or_false] at named
      rcases named with rfl | rfl
      · simp [reputation]
      · simp [fingerprint]
    rw [dropped,upgrade_passes (.tail _ named) (fun same => absurd same apart)] at same
    exact present same.symm

end

theorem builders_own (known : Proxies Addr) (secure : secured u p) (trustCloudflare : Bool)
    (unlisted : ∀ key ∈ marked,
      key ∉ (connectionNames (Header.ofLines rest)).map canonicalMIMEHeaderKey) (same : others lines = others rest) (reads : Reads key) :
    let got := arrive (some trustCloudflare) p (Header.ofLines rest)
    proxied known u (some trustCloudflare) p lines key = own got.1 (getClientIP known got.1 got.2 false) key ∧
    upgraded known u (some trustCloudflare) p lines key = own got.1 (getClientIP known got.1 got.2 false) key := by
  intro got
  have agree : ∀ key, ¬ Reads key → Header.ofLines lines key = Header.ofLines rest key := by
    intro key unread
    rw [← ofLines_others lines unread,same,ofLines_others rest unread]
  obtain ⟨forwardedFor,connection,_,host⟩ := apart_asserted
  have peer : (arrive (some trustCloudflare) p (Header.ofLines lines)).1 = got.1 := arrive_peer (agree _ host) _ p
  have client : getClientIP known got.1 (arrive (some trustCloudflare) p (Header.ofLines lines)).2 false =
      getClientIP known got.1 got.2 false := by
    apply getClientIP_agree
    rw [arrive_other _ p _ (by simp),arrive_other _ p _ (by simp),agree _ forwardedFor]
  have secured' : secured u got.1 := by rw [arrive_secured,secure]
  have filed := arrive_filed (ofLines_filed lines) (some trustCloudflare) p
  obtain ⟨reputation,fingerprint⟩ := arrive_asserts trustCloudflare p (Header.ofLines lines)
  rw [peer] at reputation fingerprint
  have kept : ∀ key ∈ marked,
      outHeader (arrive (some trustCloudflare) p (Header.ofLines lines)).2 key =
        (arrive (some trustCloudflare) p (Header.ofLines lines)).2 key := by
    intro key named
    rw [outHeader_kept named,arrive_connection _ p same,if_neg (unlisted key named)]
  constructor
  · rw [proxied,rewrite_written (outHeader_filed filed) reads,peer,client,scheme_secured known secured']
    apply written_own
    · rw [kept _ (by simp),reputation]
    · rw [kept _ (by simp),fingerprint]
  · rw [upgraded,upgrade_written filed reads,peer,client,scheme_secured known secured']
    exact written_own reputation fingerprint _ key

end

theorem asserted_independent (waf : Option Bool) (p : Peer) (rest : List (GoString × GoString)) :
    Independent known u waf p rest ↔
      secured u p = true ∧ waf.isSome = true ∧ ∀ key ∈ [lit "X-Gateon-Reputation",lit "X-Gateon-Fingerprint"],
        key ∉ (connectionNames (Header.ofLines rest)).map canonicalMIMEHeaderKey := by
  constructor
  · intro independent
    exact ⟨independent_secured independent,independent_waf independent,independent_unlisted independent⟩
  intro ⟨secure,present,unlisted⟩ lines lines' same same'
  obtain ⟨trustCloudflare,rfl⟩ := Option.isSome_iff_exists.mp present
  have first := fun key (reads : Reads key) => builders_own known secure trustCloudflare unlisted same reads
  have second := fun key (reads : Reads key) => builders_own known secure trustCloudflare unlisted same' reads
  refine ⟨?_,?_,?_,?_,?_,rewrite_forwardedFor,fun untrusted => getClientIP_untrusted known untrusted _,upgrade_forwardedFor⟩
  · intro key reads; rw [(first key reads).1,(second key reads).1]
  · intro key reads; rw [(first key reads).2,(second key reads).2]
  · intro key reads; rw [(first key reads).1,(first key reads).2]
  · intro key reads other; rw [(first key reads).1,own_other _ other]
  · intro key reads other; rw [(first key reads).2,own_other _ other]

def sampleProxies : Proxies Unit := {parseAddr := fun _ => some (),trusted := fun _ => false,cloudflare := fun _ => false}

def samplePeer (tls : Bool) : Peer :=
  {remoteAddr := lit "203.0.113.9:40000",tls := tls,host := lit "shop.example",conn := none,clientRemoteAddr := lit "203.0.113.9",
    forwardedProto := [],protoOverride := [],ja4h := lit "ge11nn05enus",reputation := lit "10"}

-- Over http, without a WAF, and by a Connection line that lists the WAF's header.
theorem asserted_leak :
    ((proxied sampleProxies .ascii (some false) (samplePeer false) [(lit "X-Forwarded-Ssl",lit "on")] (lit "X-Forwarded-Ssl") =
        [lit "on"] ∧ proxied sampleProxies .ascii (some false) (samplePeer false) [] (lit "X-Forwarded-Ssl") = []) ∧
      upgraded sampleProxies .ascii (some false) (samplePeer false) [(lit "X-Forwarded-Ssl",lit "on")] (lit "X-Forwarded-Ssl") =
        [lit "on"]) ∧
    (proxied sampleProxies .ascii none (samplePeer true) [(lit "X-Gateon-Reputation",lit "100")] (lit "X-Gateon-Reputation") =
        [lit "100"] ∧
      upgraded sampleProxies .ascii none (samplePeer true) [(lit "X-Gateon-Reputation",lit "100")] (lit "X-Gateon-Reputation") =
        [lit "100"]) ∧
    (proxied sampleProxies .ascii (some false) (samplePeer true) [(lit "Connection",lit "x-gateon-reputation")]
        (lit "X-Gateon-Reputation") = [] ∧
      upgraded sampleProxies .ascii (some false) (samplePeer true) [(lit "Connection",lit "x-gateon-reputation")]
        (lit "X-Gateon-Reputation") = [lit "10"]) := by
  decide

end Gateon.Proxy
