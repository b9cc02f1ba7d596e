import Gateon.Auth.Sessions
import Gateon.Traffic.CacheStore
import Gateon.Traffic.Recorder

namespace Gateon.Traffic
open Go Forgetful Transition List Option

-- `uri` is URL.RequestURI, `routeName` what GetRouteName finds.
structure Request where
  method : GoString
  host : GoString
  uri : GoString
  header : Header
  routeName : GoString
  skip : Bool

structure CacheRuntime where
  routeID : GoString
  routeKey : GoString
  maxBody : Nat
  ttl : Nat
  keyed : routeKey ≠ []

def credentialHeaders : List GoString := [lit "Authorization",lit "Proxy-Authorization",lit "Cookie",lit "Range"]
def cacheBypass (r : Request) : Bool := credentialHeaders.any fun name => Header.get r.header name ≠ []
def writeKeyPart (part : GoString) : GoString := decimal part.length ++ byte ':' :: part
def cacheKey (routeID : GoString) (r : Request) : GoString :=
  writeKeyPart routeID ++ writeKeyPart r.method ++ writeKeyPart r.host ++ writeKeyPart r.uri
def cmpOr (a b : GoString) : GoString := if a = [] then b else a
def CacheRuntime.key (c : CacheRuntime) (r : Request) : GoString := cacheKey (cmpOr c.routeKey (cmpOr r.routeName c.routeID)) r
def eligible (r : Request) : Bool := !r.skip && (r.method == lit "GET" || r.method == lit "HEAD") && !cacheBypass r

def replayCached (w : Client) (r : Request) (stored : Stored) : Client :=
  let w := {w with header := fun k => w.header k ++ stored.headers k}.writeHeader stored.status
  if r.method = lit "GET" ∧ stored.body ≠ [] then w.write stored.body else w

def refusingWords : List GoString := [lit "no-store",lit "no-cache",lit "private"]

section
variable (u : Tables)

def refuses (line : GoString) : Bool := refusingWords.any fun word => contains (toLower u line) word

def varyMember (field : GoString) : Bool :=
  let f := toLower u (trimSpace field)
  f == [] || f == lit "accept-encoding"

def varyAllowed (h : Header) : Bool := (Header.values h (lit "Vary")).all fun v => (split v (byte ',')).all (varyMember u)

def responseAllowsCaching (h : Header) : Bool :=
  if Header.get h (lit "Set-Cookie") ≠ [] ∨ Header.get h (lit "Content-Encoding") ≠ [] then false
  else if refuses u (Header.get h (lit "Cache-Control")) then false
  else varyAllowed u h

def Recorder.cacheable (r : Recorder) : Bool :=
  if r.status ≠ 200 ∨ r.truncated ∨ r.body = [] then false else responseAllowsCaching u r.header

end

-- With, for the record, the headers when they were written and the whole body.
structure Flight where
  cache : CacheRuntime
  request : Request
  recorder : Recorder
  written : Option Header
  bytes : GoString

-- The headers as they were written, and the map the handler left.
structure Reply where
  cache : CacheRuntime
  request : Request
  status : Nat
  header : Header
  left : Header
  body : GoString
  time : Nat

structure Hit where
  cache : CacheRuntime
  request : Request
  stored : Stored
  client : Client
  time : Nat

structure Process (backend : Expiring GoString Stored) where
  now : Nat
  held : backend.State
  flights : List Flight
  replies : List Reply
  hits : List Hit

inductive Event where
  | tick (d : Nat)
  | arrive (c : CacheRuntime) (r : Request) (w : Client)
  | call (i : Nat) (made : Call)
  | returns (i : Nat)
  | panics (i : Nat)

def Flight.new (c : CacheRuntime) (r : Request) (w : Client) : Flight := ⟨c,r,Recorder.new w c.maxBody,none,[]⟩
def Flight.settle (f : Flight) (after : Recorder) : Option Header :=
  if f.recorder.wroteHeader = false ∧ after.wroteHeader then some f.recorder.header else f.written

def Call.bytes : Call → GoString
  | .write b => b
  | _ => []

def Flight.call (f : Flight) (made : Call) : Flight :=
  let after := f.recorder.call made
  {f with recorder := after,written := f.settle after,bytes := f.bytes ++ Call.bytes made}

def Flight.commit (f : Flight) : Flight :=
  let after := f.recorder.commitHeader
  {f with recorder := after,written := f.settle after}

def Flight.reply (f : Flight) (now : Nat) : Reply :=
  ⟨f.cache,f.request,f.recorder.status,f.written.getD f.recorder.header,f.recorder.header,f.bytes,now⟩

section
variable (u : Tables) (backend : Expiring GoString Stored)

def Process.start : Process backend := ⟨0,backend.empty,[],[],[]⟩

variable (s : Process backend)

def Process.arrive (c : CacheRuntime) (r : Request) (w : Client) : Process backend :=
  if eligible r then
    let (found,held) := backend.get s.held s.now (c.key r)
    match found with
    | some stored => {s with held := held,hits := s.hits ++ [⟨c,r,stored,replayCached w r stored,s.now⟩]}
    | none => {s with held := held,flights := s.flights ++ [Flight.new c r w]}
  else s

def Process.finish (i : Nat) (f : Flight) : Process backend :=
  let f := f.commit
  let rec' := f.recorder
  let held := if rec'.cacheable u then backend.set s.held s.now (f.cache.key f.request) ⟨rec'.status,rec'.header,rec'.body⟩ f.cache.ttl else s.held
  {s with held := held,flights := s.flights.eraseIdx i,replies := s.replies ++ [f.reply s.now]}

def step : Event → Option (Process backend)
  | .tick d => some {s with now := s.now + d}
  | .arrive c r w => some (s.arrive backend c r w)
  | .call i made => s.flights[i]?.map fun f => {s with flights := s.flights.set i (f.call made)}
  | .returns i => s.flights[i]?.map fun f => s.finish u backend i f
  | .panics i => s.flights[i]?.map fun _ => {s with flights := s.flights.eraseIdx i}

end

def directives (line : GoString) : List GoString :=
  (split line (byte ',')).map fun member => (trimString (cut member (byte '=')).1).map lowerByte
def Anonymous (r : Request) : Prop := ∀ name ∈ credentialHeaders, Header.values r.header name = []

structure Shareable (u : Tables) (h : Header) : Prop where
  cookie : Header.values h (lit "Set-Cookie") = []
  encoding : Header.values h (lit "Content-Encoding") = []
  vary : ∀ line ∈ Header.values h (lit "Vary"), ∀ field ∈ split line (byte ','), varyMember u field
  control : ∀ line ∈ Header.values h (lit "Cache-Control"), ∀ word ∈ refusingWords, word ∉ directives line

-- The reply `y` may answer the request `r` on the route of `c` at the time `now`.
structure Answers (u : Tables) (c : CacheRuntime) (r : Request) (now : Nat) (y : Reply) : Prop where
  route : y.cache.routeKey = c.routeKey
  method : y.request.method = r.method
  host : y.request.host = r.host
  uri : y.request.uri = r.uri
  after : y.time ≤ now
  within : now ≤ y.time + y.cache.ttl
  ok : y.status = 200
  asked : Anonymous y.request
  asks : Anonymous r
  shared : Shareable u y.header

def Process.Sound (u : Tables) (s : Process backend) : Prop :=
  ∀ x ∈ s.hits, ∃ y ∈ s.replies, Answers u x.cache x.request x.time y ∧ x.stored = backend.kept ⟨y.status,y.left,y.body⟩
def watched : List GoString := [lit "Set-Cookie",lit "Content-Encoding",lit "Cache-Control",lit "Vary"]

@[mk_iff] structure FirstSpeaks (u : Tables) (h : Header) : Prop where
  cookie : Header.values h (lit "Set-Cookie") ≠ [] → Header.get h (lit "Set-Cookie") ≠ []
  encoding : Header.values h (lit "Content-Encoding") ≠ [] → Header.get h (lit "Content-Encoding") ≠ []
  control : (∃ line ∈ (Header.values h (lit "Cache-Control")).tail, ∃ word ∈ refusingWords, word ∈ directives line) →
    refuses u (Header.get h (lit "Cache-Control"))

instance (u : Tables) (h : Header) : Decidable (FirstSpeaks u h) := decidable_of_iff _ (firstSpeaks_iff u h).symm

instance (r : Request) : Decidable (Anonymous r) := inferInstanceAs (Decidable (∀ name ∈ credentialHeaders, _ = _))

def Timely (f : Flight) : Call → Prop
  | .edit name change => f.recorder.wroteHeader → canonicalMIMEHeaderKey name ∈ watched →
      change (f.recorder.header (canonicalMIMEHeaderKey name)) = f.recorder.header (canonicalMIMEHeaderKey name)
  | _ => True

instance (f : Flight) : ∀ c, Decidable (Timely f c) := by
  intros
  unfold Timely
  split <;> infer_instance

-- First lines speak for the others, and no watched header is edited late.
def Careful (u : Tables) (s : Process backend) : Event → Prop
  | .arrive _ r _ => eligible r → Anonymous r
  | .call i made => ∀ f ∈ s.flights[i]?, Timely f made
  | .returns i => ∀ f ∈ s.flights[i]?, FirstSpeaks u f.recorder.header
  | _ => True

instance (u : Tables) (s : Process backend) : ∀ e, Decidable (Careful u s e) := by
  intros
  unfold Careful
  split <;> infer_instance

theorem writeKeyPart_inj (same : writeKeyPart a ++ x = writeKeyPart b ++ y) : a = b ∧ x = y := by
  unfold writeKeyPart at same
  simp only [append_assoc,cons_append] at same
  have digits (n : Nat) (z : GoString) : (decimal n ++ byte ':' :: z).takeWhile isDigit = decimal n := by
    rw [takeWhile_append_of_pos (List.all_eq_true.mp (decimal_isDigit n)),takeWhile_cons_of_neg (by decide),append_nil]
  have lengths : decimal a.length = decimal b.length := by
    rw [← digits a.length (a ++ x),← digits b.length (b ++ y),same]
  rw [lengths] at same
  have rest := (List.cons.inj (append_cancel_left same)).2
  exact append_inj rest (decimal_injective lengths)

theorem cacheKey_inj (same : cacheKey a r = cacheKey b q) : a = b ∧ r.method = q.method ∧ r.host = q.host ∧ r.uri = q.uri := by
  have parts : [a,r.method,r.host,r.uri] = [b,q.method,q.host,q.uri] :=
    flatMap_inj (by simp [writeKeyPart]) (fun _ _ _ _ _ _ same => (writeKeyPart_inj same).1) (by simpa [cacheKey] using same)
  simpa using parts

theorem keys_injective :
    (∀ a b r q, cacheKey a r = cacheKey b q → a = b ∧ r.method = q.method ∧ r.host = q.host ∧ r.uri = q.uri) ∧
    (∀ p q, Auth.bindingText p = Auth.bindingText q → p = q) ∧
    ∀ p : Auth.AccountState, p.sessionEpoch = 0 → Auth.bindingText p =
      Auth.writeField p.passwordHash ++ (Auth.writeField p.role ++ Auth.writeField (lit (if p.disabled then "1" else "0"))) := by
  refine ⟨fun _ _ _ _ => cacheKey_inj,fun _ _ => Auth.bindingText_injective,fun p zero => ?_⟩
  simp [Auth.bindingText,zero]

theorem key_inj (same : CacheRuntime.key c r = CacheRuntime.key d q) :
    c.routeKey = d.routeKey ∧ r.method = q.method ∧ r.host = q.host ∧ r.uri = q.uri := by
  unfold CacheRuntime.key cmpOr at same
  rw [if_neg c.keyed,if_neg d.keyed] at same
  exact cacheKey_inj same

theorem cut_inside (s : GoString) (c : UInt8) : (cut s c).1 <:+: s := by
  have parts := (cut_parts s c).2
  split at parts
  · exact ⟨[],_,by simpa using parts.symm⟩
  · exact ⟨[],[],by simpa using parts.symm⟩

theorem trimString_inside (s : GoString) : trimString s <:+: s := by
  obtain ⟨pad,tail,whole,_⟩ := trimString_split s
  exact ⟨pad,tail,whole.symm⟩

theorem lowered_ascii (small : isASCII (w.map lowerByte)) : isASCII w := by
  have byte : ∀ b : UInt8, lowerByte b < 0x80 → b < 0x80 := every_byte (by decide +kernel)
  simp only [isASCII,List.all_map,List.all_eq_true,Function.comp_apply,decide_eq_true_eq] at small ⊢
  exact fun b mem => byte b (small b mem)

theorem directive_refused (u : Tables) (listed : word ∈ refusingWords) (found : word ∈ directives line) : refuses u line := by
  have words : ∀ word ∈ refusingWords, isASCII word ∧ word ≠ [] := by decide
  obtain ⟨member,mem,rfl⟩ := List.mem_map.mp found
  obtain ⟨before,after,whole,_⟩ := mem_split.mp mem
  obtain ⟨small,filled⟩ := words _ listed
  obtain ⟨pre,post,inside⟩ := (trimString_inside _).trans ((cut_inside member (byte '=')).trans ⟨before,after,whole.symm⟩)
  have lowered := toLower_word u (lowered_ascii small) (fun empty => filled (by rw [empty]; rfl)) pre post
  rw [← append_assoc,inside] at lowered
  exact List.any_eq_true.mpr ⟨_,listed,contains_iff.mpr lowered⟩

section
variable {u : Tables}

theorem shareable_cached (allowed : responseAllowsCaching u h) (speaks : FirstSpeaks u h) : Shareable u h := by
  unfold responseAllowsCaching at allowed
  split at allowed
  · cases allowed
  rename_i plain
  split at allowed
  · cases allowed
  rename_i open'
  refine ⟨?_,?_,?_,?_⟩
  · exact Classical.not_not.mp fun lines => plain (.inl (speaks.cookie lines))
  · exact Classical.not_not.mp fun lines => plain (.inr (speaks.encoding lines))
  · intro line mem field part
    exact List.all_eq_true.mp (List.all_eq_true.mp allowed line mem) field part
  intro line mem word listed found
  rcases lines : Header.values h (lit "Cache-Control") with _ | ⟨first,others⟩
  · simp [lines] at mem
  rw [lines] at mem
  have get : Header.get h (lit "Cache-Control") = first := by simp [Header.get,lines]
  rcases mem_cons.mp mem with rfl | later
  · exact open' (get ▸ directive_refused u listed found)
  · exact open' (speaks.control ⟨line,by simpa [lines] using later,word,listed,found⟩)

theorem shareable_congr (same : ∀ k ∈ watched, h k = g k) (shared : Shareable u g) : Shareable u h := by
  have names : canonicalMIMEHeaderKey (lit "Set-Cookie") ∈ watched ∧ canonicalMIMEHeaderKey (lit "Content-Encoding") ∈ watched ∧
      canonicalMIMEHeaderKey (lit "Vary") ∈ watched ∧ canonicalMIMEHeaderKey (lit "Cache-Control") ∈ watched := by decide
  obtain ⟨cookie,encoding,vary,control⟩ := names
  constructor
  · exact (same _ cookie).trans shared.cookie
  · exact (same _ encoding).trans shared.encoding
  · unfold Header.values
    rw [same _ vary]
    exact shared.vary
  · unfold Header.values
    rw [same _ control]
    exact shared.control

section
variable (r : Recorder) (code : Nat)

@[simp] theorem writeHeader_header : (r.writeHeader code).header = r.header := by
  unfold Recorder.writeHeader
  split <;> rfl

@[simp] theorem writeHeader_wrote : (r.writeHeader code).wroteHeader := by
  unfold Recorder.writeHeader
  split <;> simp_all

@[simp] theorem writeHeader_body : (r.writeHeader code).body = r.body := by
  unfold Recorder.writeHeader
  split <;> rfl

@[simp] theorem writeHeader_truncated : (r.writeHeader code).truncated = r.truncated := by
  unfold Recorder.writeHeader
  split <;> rfl

end

@[simp] theorem record_header (r : Recorder) (p : GoString) : (r.record p).header = r.header ∧ (r.record p).wroteHeader = r.wroteHeader := by
  unfold Recorder.record
  split <;> exact ⟨rfl,rfl⟩

theorem record_body (r : Recorder) (p : GoString) (whole : (r.record p).truncated = false) :
    r.truncated = false ∧ (r.record p).body = r.body ++ p := by
  unfold Recorder.record at whole ⊢
  split at whole
  · cases whole
  · rename_i fits
    rw [if_neg fits]
    exact ⟨whole,rfl⟩

-- Watched headers stay as written, and the body is whole unless it was cut.
structure Flown (f : Flight) : Prop where
  asked : Anonymous f.request
  written : f.recorder.wroteHeader → ∃ h, f.written = some h ∧ ∀ k ∈ watched, h k = f.recorder.header k
  body : f.recorder.truncated = false → f.recorder.body = f.bytes

theorem new_flown (asked : Anonymous r) (c : CacheRuntime) (w : Client) : Flown (Flight.new c r w) := ⟨asked,nofun,fun _ => rfl⟩

theorem settle_flown {f : Flight} (flown : Flown f) {after : Recorder} (header : after.header = f.recorder.header)
    (wrote : after.wroteHeader) : ∃ h, f.settle after = some h ∧ ∀ k ∈ watched, h k = after.header k := by
  unfold Flight.settle
  by_cases before : f.recorder.wroteHeader
  · rw [if_neg (by simp [before]),header]; exact flown.written before
  · rw [if_pos ⟨by simpa using before,wrote⟩,header]; exact ⟨_,rfl,fun _ _ => rfl⟩

theorem commit_flown (flown : Flown f) : Flown f.commit where
  asked := flown.asked
  written := settle_flown flown (writeHeader_header ..)
  body := by
    intro whole
    have same := flown.body (by simpa [Flight.commit,Recorder.commitHeader] using whole)
    simpa [Flight.commit,Recorder.commitHeader] using same

theorem call_flown (flown : Flown f) (timely : Timely f made) : Flown (f.call made) := by
  cases made with
  | edit name change =>
    refine ⟨flown.asked,?_,?_⟩
    · intro wrote
      obtain ⟨h,written,same⟩ := flown.written wrote
      have unsettled : f.settle (f.recorder.call (.edit name change)) = f.written := by
        rw [Flight.settle,if_neg]
        rintro ⟨before,_⟩
        cases before.symm.trans wrote
      refine ⟨h,unsettled.trans written,?_⟩
      intro k mem
      have kept : (f.recorder.call (.edit name change)).header k = f.recorder.header k := by
        simp only [Recorder.call,Header.edit,Function.update_apply]
        split
        · rename_i here
          subst here
          exact timely wrote mem
        · rfl
      exact (same k mem).trans kept.symm
    · intro whole; exact (flown.body whole).trans (append_nil _).symm
  | writeHeader code =>
    refine ⟨flown.asked,settle_flown flown (writeHeader_header ..),?_⟩
    intro whole
    have same := flown.body (by simpa [Flight.call,Recorder.call] using whole)
    simpa [Flight.call,Recorder.call,Call.bytes] using same
  | write b =>
    have header : (f.recorder.call (.write b)).header = f.recorder.header := by simp [Recorder.call,Recorder.write]
    refine ⟨flown.asked,settle_flown flown header,?_⟩
    · intro whole
      obtain ⟨before,grown⟩ := record_body _ b whole
      have same := flown.body (by simpa using before)
      simpa [Flight.call,Recorder.call,Recorder.write,Call.bytes,same] using grown
  | flush =>
    refine ⟨flown.asked,settle_flown flown rfl,?_⟩
    · intro whole; exact (flown.body whole).trans (append_nil _).symm

variable {backend : Expiring GoString Stored}

def Origin (u : Tables) (backend : Expiring GoString Stored) (replies : List Reply) (now : Nat) (k : GoString) (v : Stored) (until' : Nat) : Prop :=
  ∃ y ∈ replies, k = y.cache.key y.request ∧ v = backend.kept ⟨y.status,y.left,y.body⟩ ∧ until' = y.time + y.cache.ttl ∧
    y.time ≤ now ∧ y.status = 200 ∧ Anonymous y.request ∧ Shareable u y.header

theorem Origin.later (origin : Origin u backend replies now k v until') (le : now ≤ now') (sub : replies ⊆ replies') :
    Origin u backend replies' now' k v until' := by
  obtain ⟨y,mem,key,value,lapse,before,rest⟩ := origin
  exact ⟨y,sub mem,key,value,lapse,before.trans le,rest⟩

structure Inv (u : Tables) (s : Process backend) : Prop where
  held : ∀ k v until', backend.Holds s.held k v until' → Origin u backend s.replies s.now k v until'
  flights : ∀ f ∈ s.flights, Flown f
  sound : s.Sound u

theorem origin_answers (origin : Origin u backend replies now (CacheRuntime.key c r) v until') (fresh : now ≤ until') (asks : Anonymous r) :
    ∃ y ∈ replies, Answers u c r now y ∧ v = backend.kept ⟨y.status,y.left,y.body⟩ := by
  obtain ⟨y,mem,key,value,rfl,before,ok,asked,shared⟩ := origin
  obtain ⟨route,method,host,uri⟩ := key_inj key
  exact ⟨y,mem,⟨route.symm,method.symm,host.symm,uri.symm,before,fresh,ok,asked,asks,shared⟩,value⟩

theorem arrive_inv (inv : Inv u s) (careful : eligible r → Anonymous r) (c : CacheRuntime) (w : Client) :
    Inv u (s.arrive backend c r w) := by
  unfold Process.arrive
  by_cases looks : eligible r
  · have asks := careful looks
    rw [if_pos looks]
    have held : ∀ k v until', backend.Holds (backend.get s.held s.now (c.key r)).2 k v until' → Origin u backend s.replies s.now k v until' :=
      fun k v until' holds => inv.held k v until' (backend.get_keeps holds)
    cases found : (backend.get s.held s.now (c.key r)).1 with
    | none =>
      simp only [found]
      exact ⟨held,forall_snoc inv.flights (new_flown asks c w),inv.sound⟩
    | some stored =>
      simp only [found]
      obtain ⟨until',holds,fresh⟩ := backend.get_holds found
      exact ⟨held,inv.flights,forall_snoc inv.sound (origin_answers (inv.held _ _ _ holds) fresh asks)⟩
  · rwa [if_neg looks]

theorem finish_origin (flown : Flown f) (speaks : FirstSpeaks u f.recorder.header) (now : Nat)
    (stores : f.commit.recorder.cacheable u) :
    Origin u backend (replies ++ [f.commit.reply now]) now (f.cache.key f.request)
      (backend.kept ⟨f.commit.recorder.status,f.commit.recorder.header,f.commit.recorder.body⟩) (now + f.cache.ttl) := by
  have landed := commit_flown flown
  unfold Recorder.cacheable at stores
  split at stores
  · cases stores
  rename_i whole
  simp only [not_or,ne_eq,Classical.not_not,Bool.not_eq_true] at whole
  obtain ⟨h,written,same⟩ := landed.written (by simp [Flight.commit,Recorder.commitHeader])
  have header : f.commit.recorder.header = f.recorder.header := by simp [Flight.commit,Recorder.commitHeader]
  have shared := shareable_congr same (shareable_cached stores (header ▸ speaks))
  refine ⟨f.commit.reply now,mem_append_right _ mem_cons_self,rfl,?_,rfl,le_rfl,whole.1,flown.asked,?_⟩
  · rw [landed.body whole.2.1]; rfl
  · simpa [Flight.reply,written] using shared

theorem finish_inv (inv : Inv u s) (there : s.flights[i]? = some f) (speaks : FirstSpeaks u f.recorder.header) :
    Inv u (s.finish u backend i f) := by
  have old : ∀ k v until', backend.Holds s.held k v until' → Origin u backend (s.replies ++ [f.commit.reply s.now]) s.now k v until' :=
    fun k v until' holds => (inv.held k v until' holds).later le_rfl (subset_append_left ..)
  constructor
  · intro k v until' holds
    simp only [Process.finish] at holds ⊢
    split at holds
    · rename_i stores
      rcases backend.set_keeps holds with ⟨rfl,rfl,rfl⟩ | before
      · exact finish_origin (inv.flights f (mem_of_getElem? there)) speaks s.now stores
      · exact old k v until' before
    · exact old k v until' holds
  · intro g mem; exact inv.flights g (mem_of_mem_eraseIdx mem)
  · intro x mem
    obtain ⟨y,made,answers⟩ := inv.sound x mem
    exact ⟨y,mem_append_left _ made,answers⟩

theorem step_inv (s : Process backend) (e : Event) (t : Process backend) (inv : Inv u s) (careful : Careful u s e)
    (ran : step u backend s e = some t) : Inv u t := by
  cases e with
  | tick d =>
    cases ran
    exact {inv with held := fun k v until' holds => (inv.held k v until' holds).later (Nat.le_add_right ..) (List.Subset.refl _)}
  | arrive c r w => cases ran; exact arrive_inv inv careful c w
  | call i made =>
    obtain ⟨f,there,rfl⟩ := map_eq_some_iff.mp ran
    refine ⟨inv.held,?_,inv.sound⟩
    intro g mem
    rcases mem_or_eq_of_mem_set mem with old | rfl
    · exact inv.flights g old
    · exact call_flown (inv.flights f (mem_of_getElem? there)) (careful f there)
  | returns i =>
    obtain ⟨f,there,rfl⟩ := map_eq_some_iff.mp ran
    exact finish_inv inv there (careful f there)
  | panics i =>
    obtain ⟨f,there,rfl⟩ := map_eq_some_iff.mp ran
    exact ⟨inv.held,fun g mem => inv.flights g (mem_of_mem_eraseIdx mem),inv.sound⟩

theorem start_inv : Inv u (Process.start backend) where
  held := fun _ _ _ holds => absurd holds backend.empty_holds
  flights := nofun
  sound := nofun

theorem cache_sound (path : Reached (step u backend) (Careful u) (Process.start backend) s) : s.Sound u :=
  (reached_invariant (Inv u) start_inv (step_inv _ _ _) path).sound

end

def sampleRoute : CacheRuntime := ⟨lit "shop",lit "r1",262144,60,by decide⟩
def sampleRequest (lines : List (GoString × GoString)) : Request := ⟨lit "GET",lit "a.example",lit "/p",Header.ofLines lines,lit "shop",false⟩

def sampleRun (lines : List (GoString × GoString)) (calls : List Call) : List Event :=
  .arrive sampleRoute (sampleRequest lines) (Client.new fun _ => []) ::
    (calls.map (.call 0) ++ [.returns 0,.tick 30,.arrive sampleRoute (sampleRequest []) (Client.new fun _ => [])])

def setTo (values : List GoString) : List GoString → List GoString := fun _ => values

theorem cache_sound_runs :
    ∃ s, runAllowed (step Tables.ascii (memoryCacheBackend 1024)) (Careful Tables.ascii) (Process.start _)
        (sampleRun [(lit "Accept",lit "*/*")] [.edit (lit "Cache-Control") (setTo [lit "max-age=60",lit "public"]),.write (lit "x")]) = some s ∧
      s.hits.map (fun x => x.client.body) = [lit "x"] ∧ s.Sound Tables.ascii :=
  shown_run (by decide +kernel) fun s path => cache_sound path

-- A run with one hit and one reply that may not be shared.
theorem unsound_run (view : Reply → List GoString)
    (ends : (run (step Tables.ascii (memoryCacheBackend 1024)) (Process.start _) events).map (fun s => (s.hits.length,s.replies.map view)) =
      some (1,[shown])) (bad : ∀ c r now y, view y = shown → ¬ Answers Tables.ascii c r now y) :
    ∃ s, run (step Tables.ascii (memoryCacheBackend 1024)) (Process.start _) events = some s ∧ ¬ s.Sound Tables.ascii := by
  refine shown_some _ _ ends fun s _ pair sound => ?_
  obtain ⟨one,replies⟩ := Prod.mk.inj pair
  obtain ⟨x,only⟩ := length_eq_one_iff.mp one
  obtain ⟨y,made,answers,_⟩ := sound x (by simp [only])
  have seen : view y ∈ [shown] := replies ▸ List.mem_map_of_mem made
  exact bad _ _ _ y (mem_singleton.mp seen) answers

-- A second Cache-Control line, a credential behind an empty one, a cookie removed late.
theorem cache_unsound : (∃ s, run (step Tables.ascii (memoryCacheBackend 1024)) (Process.start _)
      (sampleRun [] [.edit (lit "Cache-Control") (setTo [lit "max-age=60",lit "private"]),.write (lit "x")]) = some s ∧ ¬ s.Sound Tables.ascii) ∧
    (∃ s, run (step Tables.ascii (memoryCacheBackend 1024)) (Process.start _)
      (sampleRun [(lit "Authorization",[]),(lit "Authorization",lit "Bearer x")] [.write (lit "x")]) = some s ∧ ¬ s.Sound Tables.ascii) ∧
    ∃ s, run (step Tables.ascii (memoryCacheBackend 1024)) (Process.start _)
      (sampleRun [] [.edit (lit "Set-Cookie") (setTo [lit "id=1"]),.write (lit "x"),.edit (lit "Set-Cookie") (setTo [])]) = some s ∧
        ¬ s.Sound Tables.ascii := by
  refine ⟨?_,?_,?_⟩
  · apply unsound_run (fun y => Header.values y.header (lit "Cache-Control")) (by decide +kernel : _ = some (1,[[lit "max-age=60",lit "private"]]))
    intro c r now y lines answers
    exact answers.shared.control (lit "private") (by simp [lines]) (lit "private") (by decide) (by decide)
  · apply unsound_run (fun y => Header.values y.request.header (lit "Authorization")) (by decide +kernel : _ = some (1,[[[],lit "Bearer x"]]))
    intro c r now y lines answers
    have none := answers.asked (lit "Authorization") (by decide)
    cases none.symm.trans lines
  · apply unsound_run (fun y => Header.values y.header (lit "Set-Cookie")) (by decide +kernel : _ = some (1,[[lit "id=1"]]))
    intro c r now y lines answers
    cases answers.shared.cookie.symm.trans lines

end Gateon.Traffic
