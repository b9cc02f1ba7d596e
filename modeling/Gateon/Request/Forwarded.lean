import Gateon.Go.Http
import Gateon.Config.Host
import Gateon.Go.Netip

namespace Gateon.Request
open Go Config
open List hiding all

def foldByte (b : UInt8) : UInt8 := if b == byte '-' || b == byte '.' then byte '_' else upperByte b
def foldHeaderName (name : GoString) : GoString := name.map foldByte
def isSeparated (key : GoString) : Bool := key.any fun b => b == byte '_' || b == byte '.'

-- The keys of a request's header are canonical.
def stripHeaderAliases (h : Header) (canonical : List GoString) : Header := fun key =>
  if isSeparated key && (canonical.map foldHeaderName).contains (foldHeaderName key) then [] else h key

def Filed (h : Header) : Prop := ∀ key, h key ≠ [] → canonicalMIMEHeaderKey key = key

theorem foldByte_case : ∀ b, foldByte (upperByte b) = foldByte b ∧ foldByte (lowerByte b) = foldByte b :=
  every_byte (by decide +kernel)

theorem byte_token : ∀ b, isTokenByte (foldByte b) = isTokenByte b ∧ isTokenByte (upperByte b) = isTokenByte b ∧
    isTokenByte (lowerByte b) = isTokenByte b :=
  every_byte (by decide +kernel)

theorem foldByte_plain : ∀ b, b ≠ byte '_' → b ≠ byte '.' →
    lowerByte (foldByte b) = (if b = byte '-' then byte '_' else lowerByte b) ∧ (foldByte b = byte '_' ↔ b = byte '-') :=
  every_byte (by decide +kernel)

theorem titled_byte : ∀ b, upperByte (lowerByte b) = upperByte b ∧
    (upperByte (upperByte b) = upperByte b ∧ lowerByte (lowerByte b) = lowerByte b) ∧
    (upperByte b == byte '-') = (b == byte '-') ∧ (lowerByte b == byte '-') = (b == byte '-') :=
  every_byte (by decide +kernel)

section
variable (upper : Bool)
variable (s : GoString)

theorem titleCase_map {f : UInt8 → α} (same : ∀ b, f (upperByte b) = f b ∧ f (lowerByte b) = f b) : (titleCase upper s).map f = s.map f := by
  induction s generalizing upper with
  | nil => rfl
  | cons b t ih =>
    have rest := ih (b == byte '-')
    cases upper with
    | true => simpa [titleCase,(same b).1] using rest
    | false => simpa [titleCase,(same b).2] using rest

theorem titleCase_tokens : (titleCase upper s).all isTokenByte = s.all isTokenByte := by
  have same := congrArg (·.all id) (titleCase_map upper s fun b => (byte_token b).2)
  simpa [List.all_map] using same

theorem titleCase_idem : titleCase upper (titleCase upper s) = titleCase upper s := by
  induction s generalizing upper with
  | nil => rfl
  | cons b t ih =>
    have rest := ih (b == byte '-')
    cases upper with
    | true => simp only [titleCase,↓reduceIte,(titled_byte b).2.2.1,(titled_byte b).2.1.1,rest]
    | false => simp only [titleCase,Bool.false_eq_true,↓reduceIte,(titled_byte b).2.2.2,(titled_byte b).2.1.2,rest]

theorem titleCase_plain (a b : GoString) (plainA : isSeparated a = false) (plainB : isSeparated b = false)
    (same : foldHeaderName a = foldHeaderName b) : titleCase upper a = titleCase upper b := by
  induction a generalizing upper b with
  | nil =>
    cases b with
    | nil => rfl
    | cons y b => cases same
  | cons x a ih =>
    cases b with
    | nil => cases same
    | cons y b =>
      simp only [isSeparated,any_cons,Bool.or_eq_false_iff,beq_eq_false_iff_ne] at plainA plainB
      simp only [foldHeaderName,map_cons,List.cons.injEq] at same
      obtain ⟨⟨underX,dotX⟩,restA⟩ := plainA
      obtain ⟨⟨underY,dotY⟩,restB⟩ := plainB
      obtain ⟨lowX,hyphenX⟩ := foldByte_plain x underX dotX
      obtain ⟨lowY,hyphenY⟩ := foldByte_plain y underY dotY
      have hyphens : x = byte '-' ↔ y = byte '-' := by rw [← hyphenX,← hyphenY,same.1]
      have lower : lowerByte x = lowerByte y := by
        by_cases hyphen : x = byte '-'
        · rw [hyphen,hyphens.mp hyphen]
        · rw [same.1,lowY,if_neg (mt hyphens.mpr hyphen)] at lowX
          rw [if_neg hyphen] at lowX
          exact lowX.symm
      have upperEq : upperByte x = upperByte y := by rw [← (titled_byte x).1,lower,(titled_byte y).1]
      have next : (x == byte '-') = (y == byte '-') := by rw [Bool.eq_iff_iff,beq_iff_eq,beq_iff_eq]; exact hyphens
      have rest := ih (x == byte '-') b restA restB same.2
      simp only [titleCase,lower,upperEq,List.cons.injEq,true_and]
      rw [rest,next]

theorem canonical_fold : foldHeaderName (canonicalMIMEHeaderKey s) = foldHeaderName s := by
  unfold canonicalMIMEHeaderKey
  split
  · exact titleCase_map true s foldByte_case
  · rfl

theorem canonical_idem : canonicalMIMEHeaderKey (canonicalMIMEHeaderKey s) = canonicalMIMEHeaderKey s := by
  unfold canonicalMIMEHeaderKey
  by_cases token : s.all isTokenByte
  · rw [if_pos token,titleCase_tokens,if_pos token,titleCase_idem]
  · rw [if_neg token,if_neg token]

theorem fold_tokens (same : foldHeaderName a = foldHeaderName b) : a.all isTokenByte = b.all isTokenByte := by
  have through : ∀ s : GoString, (foldHeaderName s).all isTokenByte = s.all isTokenByte := by
    intro s
    simp [foldHeaderName,List.all_map,Function.comp_def,byte_token]
  rw [← through a,← through b,same]

theorem canonical_plain (token : name.all isTokenByte) (plain : isSeparated name = false)
    (kept : isSeparated key = false) (same : foldHeaderName key = foldHeaderName name) :
    canonicalMIMEHeaderKey key = canonicalMIMEHeaderKey name := by
  have keyToken : key.all isTokenByte := (fold_tokens same).trans token
  rw [canonicalMIMEHeaderKey,canonicalMIMEHeaderKey,if_pos keyToken,if_pos token]
  exact titleCase_plain true key name kept plain same

theorem ofLines_present (present : Header.ofLines lines key ≠ []) : ∃ line ∈ lines, canonicalMIMEHeaderKey line.1 = key := by
  obtain ⟨value,held⟩ := exists_mem_of_ne_nil _ present
  obtain ⟨line,mem,_⟩ := List.mem_map.mp held
  obtain ⟨listed,named⟩ := List.mem_filter.mp mem
  exact ⟨line,listed,beq_iff_eq.mp named⟩

theorem ofLines_filed (lines : List (GoString × GoString)) : Filed (Header.ofLines lines) := by
  intro key present
  obtain ⟨line,_,named⟩ := ofLines_present present
  rw [← named,canonical_idem]

section
variable {h : Header} (filed : Filed h)
include h filed

theorem update_filed (named : canonicalMIMEHeaderKey name = name) (values : List GoString) :
    Filed (Function.update h name values) := by
  intro key present
  by_cases same : key = name
  · rw [same,named]
  · rw [Function.update_of_ne same] at present; exact filed key present

theorem set_filed (name value : GoString) : Filed (Header.set h name value) :=
  update_filed filed (canonical_idem name) [value]

theorem dels_filed (names : List GoString) : Filed (names.foldl Header.del h) := by
  intro key present
  rw [dels_apply] at present
  split at present
  · cases present rfl
  · exact filed key present

end

theorem strip_alias (separated : isSeparated key) (named : foldHeaderName key ∈ names.map foldHeaderName) :
    stripHeaderAliases h names key = [] := by
  rw [stripHeaderAliases,separated,contains_iff_mem.mpr named]
  rfl

theorem strip_plain (plain : isSeparated key = false) : stripHeaderAliases h names key = h key := by
  rw [stripHeaderAliases,plain]
  rfl

theorem strip_other (other : foldHeaderName key ∉ names.map foldHeaderName) : stripHeaderAliases h names key = h key := by
  have missing : (names.map foldHeaderName).contains (foldHeaderName key) = false := by
    rw [Bool.eq_false_iff]
    exact fun found => other (contains_iff_mem.mp found)
  rw [stripHeaderAliases,missing,Bool.and_false]
  rfl

end

-- The last five stand in the request's state or context.
structure Peer where
  remoteAddr : GoString
  tls : Bool
  host : GoString
  conn : Option GoString
  clientRemoteAddr : GoString
  forwardedProto : GoString
  protoOverride : GoString
  ja4h : GoString
  reputation : GoString

structure Proxies (Addr : Type) where
  parseAddr : GoString → Option Addr
  trusted : Addr → Bool
  cloudflare : Addr → Bool

section
variable {Addr : Type} (known : Proxies Addr)

def isTrusted (remoteAddr : GoString) (trustCloudflare : Bool) : Bool :=
  match known.parseAddr (stripPort remoteAddr) with
  | none => false
  | some ip => known.trusted ip || (trustCloudflare && known.cloudflare ip)

def isTrustedProxy (remoteAddr : GoString) : Bool := isTrusted known remoteAddr false

def forwardedClient (part : GoString) (chainStart : Bool) : Option GoString :=
  let token := trimSpace part
  if token = [] then none
  else
    let cleanIP := stripPort token
    match known.parseAddr cleanIP with
    | none => none
    | some ip => if !known.trusted ip || chainStart then some cleanIP else none

def forwardedParts (firstLine : Bool) : List GoString → Option GoString
  | [] => none
  | [part] => forwardedClient known part firstLine
  | part :: rest => (forwardedClient known part false).or (forwardedParts firstLine rest)

def clientFromForwardedLine (xff : GoString) (firstLine : Bool) : Option GoString :=
  forwardedParts known firstLine (split xff (byte ',')).reverse

def forwardedLines : List GoString → Option GoString
  | [] => none
  | [line] => clientFromForwardedLine known line true
  | line :: rest => (clientFromForwardedLine known line false).or (forwardedLines rest)

def clientFromForwardedFor (lines : List GoString) : Option GoString := forwardedLines known lines.reverse
def clientAddr (p : Peer) : GoString := if p.clientRemoteAddr ≠ [] then p.clientRemoteAddr else stripPort p.remoteAddr

def getClientIP (p : Peer) (h : Header) (trustCloudflare : Bool) : GoString :=
  if p.clientRemoteAddr ≠ [] then p.clientRemoteAddr
  else
    let host := stripPort p.remoteAddr
    if !isTrusted known p.remoteAddr trustCloudflare then host
    else
      let cf := Header.get h (lit "CF-Connecting-IP")
      let connecting := trimSpace cf
      if trustCloudflare && cf ≠ [] && (known.parseAddr connecting).isSome then connecting
      else (clientFromForwardedFor known (h (lit "X-Forwarded-For"))).getD host

def normalizeProto (u : Tables) (v : GoString) : GoString :=
  if v = [] then []
  else
    let token := toLower u (trimSpace (cut v (byte ',')).1)
    if token = lit "https" then lit "https" else if token = lit "http" then lit "http" else []

def scheme (u : Tables) (p : Peer) (h : Header) : GoString :=
  let override := normalizeProto u p.protoOverride
  if override ≠ [] then override
  else if p.forwardedProto ≠ [] then p.forwardedProto
  else if p.tls then lit "https"
  else if isTrustedProxy known p.remoteAddr then
    let forwarded := normalizeProto u (Header.get h (lit "X-Forwarded-Proto"))
    if forwarded ≠ [] then forwarded else lit "http"
  else lit "http"

-- No header line is read for the scheme.
def secured (u : Tables) (p : Peer) : Bool :=
  let override := normalizeProto u p.protoOverride
  if override ≠ [] then override == lit "https"
  else if p.forwardedProto ≠ [] then p.forwardedProto == lit "https"
  else p.tls

theorem scheme_secured (secure : secured u p) (h : Header) : scheme known u p h = lit "https" := by
  unfold secured at secure
  unfold scheme
  by_cases override : normalizeProto u p.protoOverride = []
  · by_cases recorded : p.forwardedProto = []
    · simp_all
    · simpa [override,recorded] using secure
  · simpa [override] using secure

theorem scheme_unsecured (insecure : secured u p = false) (absent : h (lit "X-Forwarded-Proto") = []) :
    scheme known u p h ≠ lit "https" := by
  have nothing : normalizeProto u (Header.get h (lit "X-Forwarded-Proto")) = [] := by
    have named : canonicalMIMEHeaderKey (lit "X-Forwarded-Proto") = lit "X-Forwarded-Proto" := by decide
    rw [Header.get,Header.values,named,absent]
    rfl
  have other : lit "http" ≠ lit "https" := by decide
  unfold secured at insecure
  unfold scheme
  rw [nothing]
  by_cases override : normalizeProto u p.protoOverride = []
  · by_cases recorded : p.forwardedProto = []
    · simp_all
    · simpa [override,recorded] using insecure
  · simpa [override] using insecure

theorem getClientIP_untrusted (untrusted : isTrusted known p.remoteAddr cloudflare = false) (h : Header) :
    getClientIP known p h cloudflare = clientAddr p := by
  unfold getClientIP clientAddr
  split
  · rfl
  · simp [untrusted]

theorem getClientIP_agree (same : h (lit "X-Forwarded-For") = h' (lit "X-Forwarded-For")) :
    getClientIP known p h false = getClientIP known p h' false := by
  simp [getClientIP,same]

end

section
variable {Addr : Type} (known : Proxies Addr)

variable (lines : List GoString)

def tokens : List GoString := lines.flatMap fun line => split line (byte ',')

theorem forwardedParts_append (flag : Bool) (right left : List GoString) (more : left ≠ []) :
    forwardedParts known flag (right ++ left) =
      (right.findSome? fun part => forwardedClient known part false).or (forwardedParts known flag left) := by
  induction right with
  | nil => rfl
  | cons part rest ih =>
    have longer : rest ++ left ≠ [] := by simp [more]
    rw [cons_append,forwardedParts,ih,findSome?_cons]
    · cases forwardedClient known part false <;> rfl
    · exact longer

theorem forwardedParts_false (parts : List GoString) :
    forwardedParts known false parts = parts.findSome? fun part => forwardedClient known part false := by
  cases parts with
  | nil => rfl
  | cons part rest =>
    induction rest generalizing part with
    | nil =>
      rw [findSome?_cons]
      cases only : forwardedClient known part false <;> simp [forwardedParts,only]
    | cons next rest ih =>
      rw [forwardedParts,ih next]
      · rw [findSome?_cons (a := part)]; cases forwardedClient known part false <;> rfl
      · simp

theorem forwardedLines_parts :
    forwardedLines known lines = forwardedParts known true (lines.flatMap fun line => (split line (byte ',')).reverse) := by
  cases lines with
  | nil => rfl
  | cons line rest =>
    induction rest generalizing line with
    | nil => rw [forwardedLines,clientFromForwardedLine,flatMap_cons,flatMap_nil,append_nil]
    | cons next rest ih =>
      have more : ((next :: rest).flatMap fun line => (split line (byte ',')).reverse) ≠ [] := by
        have filled := split_filled next (byte ',')
        simp [filled]
      rw [forwardedLines,ih next,flatMap_cons (x := line),forwardedParts_append known true _ _ more,clientFromForwardedLine,forwardedParts_false]
      simp

theorem clientFromForwardedFor_tokens :
    clientFromForwardedFor known lines = forwardedParts known true (tokens lines).reverse := by
  rw [clientFromForwardedFor,forwardedLines_parts,tokens,reverse_flatMap]
  rfl

end

def proxiesOf (trusted : Addr → Bool) : Proxies Addr := ⟨parseAddr,trusted,fun _ => false⟩
def tokenAddress (token : GoString) : GoString := stripPort (trimSpace token)
def Outside (trusted : Addr → Bool) (token : GoString) : Prop := ∃ ip, parseAddr (tokenAddress token) = some ip ∧ trusted ip = false

-- To a line that was there, after a comma, and in lines of their own.
structure Appended where
  after : Option GoString
  lines : List GoString

def Appended.tokens (s : Appended) : List GoString := Request.tokens (s.after.toList ++ s.lines)

def Appended.onto (s : Appended) (lines : List GoString) (line : GoString) : List GoString :=
  match s.after with
  | none => lines ++ s.lines
  | some text => lines ++ (line ++ byte ',' :: text) :: s.lines

theorem onto_tokens (s : Appended) (lines : List GoString) (line : GoString) : ∃ chosen, tokens (s.onto lines line) = chosen ++ s.tokens := by
  unfold Appended.onto Appended.tokens
  cases s.after with
  | none => exact ⟨tokens lines,flatMap_append⟩
  | some text =>
    refine ⟨tokens lines ++ split line (byte ','),?_⟩
    simp only [tokens,flatMap_append,flatMap_cons,split_joined,Option.toList_some,cons_append,nil_append,append_assoc]

theorem forwardedClient_outside (outside : Outside trusted token) (flag : Bool) :
    forwardedClient (proxiesOf trusted) token flag = some (tokenAddress token) := by
  obtain ⟨ip,parsed,untrusted⟩ := outside
  have filled : trimSpace token ≠ [] := by
    intro empty
    rw [tokenAddress,empty] at parsed
    cases parsed
  unfold tokenAddress at parsed
  simp [forwardedClient,proxiesOf,filled,parsed,untrusted,tokenAddress]

theorem forwardedClient_inside (inside : ¬ Outside trusted token) : forwardedClient (proxiesOf trusted) token false = none := by
  unfold forwardedClient
  dsimp only
  split
  · rfl
  cases parsed : (proxiesOf trusted).parseAddr (stripPort (trimSpace token)) with
  | none => rfl
  | some ip =>
    have listed : trusted ip := by
      by_contra other
      exact inside ⟨ip,parsed,Bool.eq_false_iff.mpr other⟩
    simp [proxiesOf,listed]

structure Rightmost (trusted : Addr → Bool) (all : List GoString) (token : GoString) : Prop where
  outside : Outside trusted token
  last : ∃ left right, all = left ++ token :: right ∧ ∀ t ∈ right, ¬ Outside trusted t

theorem exists_rightmost (all : List GoString) (some_ : ∃ t ∈ all, Outside trusted t) : ∃ token, Rightmost trusted all token := by
  induction all with
  | nil => obtain ⟨t,member,_⟩ := some_; cases member
  | cons x rest ih =>
    by_cases later : ∃ t ∈ rest, Outside trusted t
    · obtain ⟨token,outside,left,right,rfl,none_⟩ := ih later
      exact ⟨token,outside,x :: left,right,rfl,none_⟩
    obtain ⟨t,member,outside⟩ := some_
    rcases mem_cons.mp member with rfl | inRest
    · exact ⟨t,outside,[],rest,rfl,fun y held out => later ⟨y,held,out⟩⟩
    · exact absurd ⟨t,inRest,outside⟩ later

theorem rightmost_found (trusted : Addr → Bool) (chosen : List GoString) (found : Rightmost trusted all token) :
    forwardedParts (proxiesOf trusted) true (chosen ++ all).reverse = some (tokenAddress token) := by
  obtain ⟨outside,left,right,rfl,none_⟩ := found
  have skipped : (right.reverse.findSome? fun part => forwardedClient (proxiesOf trusted) part false) = none := by
    rw [findSome?_eq_none_iff]
    intro part member
    exact forwardedClient_inside (none_ part (mem_reverse.mp member))
  have order : (chosen ++ (left ++ token :: right)).reverse = right.reverse ++ token :: (chosen ++ left).reverse := by simp
  rw [order,forwardedParts_append _ _ _ _ (cons_ne_nil _ _),skipped,Option.none_or]
  cases (chosen ++ left).reverse with
  | nil => exact forwardedClient_outside outside true
  | cons next rest => rw [forwardedParts,forwardedClient_outside outside false] <;> simp

theorem client_not_chosen (trusted : Addr → Bool) (s : Appended) (some_ : ∃ t ∈ s.tokens, Outside trusted t) :
    ∃ token, Rightmost trusted s.tokens token ∧
      ∀ lines line, clientFromForwardedFor (proxiesOf trusted) (s.onto lines line) = some (tokenAddress token) := by
  obtain ⟨token,found⟩ := exists_rightmost s.tokens some_
  refine ⟨token,found,?_⟩
  intro lines line
  obtain ⟨chosen,split⟩ := onto_tokens s lines line
  rw [clientFromForwardedFor_tokens,split]
  exact rightmost_found trusted chosen found

theorem client_not_chosen_proxy :
    ∃ token, Rightmost (fun ip => decide (ip = .v4 [10,0,0,1] rfl)) (Appended.tokens ⟨some (lit " 10.0.0.1"),[lit "8.8.8.8:80, 10.0.0.1"]⟩) token ∧
      ∀ lines line, clientFromForwardedFor (proxiesOf fun ip => decide (ip = .v4 [10,0,0,1] rfl))
        (Appended.onto ⟨some (lit " 10.0.0.1"),[lit "8.8.8.8:80, 10.0.0.1"]⟩ lines line) = some (tokenAddress token) :=
  client_not_chosen _ _ ⟨lit "8.8.8.8:80",by decide +kernel,.v4 [8,8,8,8] rfl,by decide +kernel,by decide +kernel⟩

end Gateon.Request
