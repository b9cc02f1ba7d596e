import Gateon.Go.Http
import Mathlib.Algebra.Order.BigOperators.Group.List

namespace Gateon.Auth.Withhold
open Go
open List hiding tail

structure Request where
  method : GoString
  header : Header
  rawQuery : GoString

def sessionCookieName : GoString := lit "gateon_session"
def hostSessionCookieName : GoString := lit "__Host-" ++ sessionCookieName
def pasetoLocalPrefix : GoString := lit "v4.local."
def tokenPrefix : GoString := lit "gateon_tok_"
def encodedLen : Nat := tokenPrefix.length + 43
def isBase64URLByte (b : UInt8) : Bool :=
  (65 ≤ b && b ≤ 90) || (97 ≤ b && b ≤ 122) || (48 ≤ b && b ≤ 57) || b == byte '-' || b == byte '_'
def looksLikeToken (s : GoString) : Bool :=
  s.length == encodedLen && hasPrefix s tokenPrefix && (s.drop tokenPrefix.length).all isBase64URLByte

-- PASETO v4.local tokens with a body, whatever blanks are around them.
structure TokenVerifier where
  accepts : GoString → Bool
  shaped : ∀ token, accepts token → hasPrefix token pasetoLocalPrefix ∧ pasetoLocalPrefix.length < token.length
  trimmed : ∀ token, accepts token → accepts (trimSpace token)

def isManagementToken (token : GoString) (sessions : Option TokenVerifier) : Bool :=
  looksLikeToken token || sessions.any fun v => hasPrefix token pasetoLocalPrefix && v.accepts token
section
variable (u : Tables)

section
variable (value : GoString)

def afterBearer : Option GoString :=
  if 7 < value.length && equalFold u (value.take 7) (lit "bearer ") then some (trimSpace (value.drop 7)) else none
def isManagementBearer (sessions : Option TokenVerifier) : Bool :=
  (afterBearer u value).any fun token => isManagementToken token sessions
def bearsToken : Bool := (afterBearer u value).any looksLikeToken
def pasetoLocalBearer : Bool :=
  7 + pasetoLocalPrefix.length < value.length && (afterBearer u value).any fun token => hasPrefix token pasetoLocalPrefix

end

def isSessionCookiePart (part : GoString) : Bool :=
  let name := trimSpace (cut part (byte '=')).1
  name == sessionCookieName || name == hostSessionCookieName

section
variable (line : GoString)

def cookieParts : List GoString := split line (byte ';')
def hasSessionCookie : Bool := (cookieParts line).any isSessionCookiePart
def keptParts : List GoString :=
  ((cookieParts line).map trimSpace).filter fun part => part != [] && !isSessionCookiePart part
def withoutSessionCookie : GoString × Bool :=
  if hasSessionCookie line then (join (keptParts line) (lit "; "),true) else (line,false)

def stripLine : List GoString :=
  if contains line sessionCookieName then
    let rest := (withoutSessionCookie line).1
    if rest = [] then [] else [rest]
  else [line]

end

def stripSessionCookie (h : Header) : Header :=
  let lines := h (lit "Cookie")
  let changed := lines.any fun line => contains line sessionCookieName && (withoutSessionCookie line).2
  if changed then Function.update h (lit "Cookie") (lines.flatMap stripLine) else h

def withholdManagementCredentials (h : Header) (sessions : Option TokenVerifier) : Header :=
  let h := stripSessionCookie h
  Function.update h (lit "Authorization") ((h (lit "Authorization")).filter fun v => !isManagementBearer u v sessions)

def mayCarryManagementCredential (h : Header) : Bool :=
  (h (lit "Cookie")).any (fun line => contains line sessionCookieName && hasSessionCookie line) ||
    (h (lit "Authorization")).any fun v => bearsToken u v || pasetoLocalBearer u v

variable (sessions : TokenVerifier)

def withholdFromDataPlane (h : Header) : Header :=
  if mayCarryManagementCredential u h then withholdManagementCredentials u h (some sessions) else h
def forwardedHeader (marked : Bool) (h : Header) : Header :=
  withholdManagementCredentials u (withholdFromDataPlane u sessions h) (if marked then none else some sessions)
def forwarded (marked : Bool) (r : Request) : Request :=
  { r with header := forwardedHeader u sessions marked r.header }

variable (h : Header)

def sessionCookieValue : GoString :=
  let host := (cookie h hostSessionCookieName).getD []
  if host ≠ [] then host else (cookie h sessionCookieName).getD []

def bearerOf (authHeader : GoString) : GoString :=
  if authHeader.length < 7 || !equalFold u (authHeader.take 7) (lit "bearer ") then [] else authHeader.drop 7
def bearerToken : GoString := bearerOf u ((h (lit "Authorization")).headD [])
def headerHasToken (name token : GoString) : Bool :=
  (h name).any fun v => (split v (byte ',')).any fun part => equalFold u (trimSpace part) token

def isWebSocketHandshake (r : Request) : Bool :=
  r.method == lit "GET" && headerHasToken u r.header (lit "Upgrade") (lit "websocket") &&
    headerHasToken u r.header (lit "Connection") (lit "upgrade") &&
    (r.header (lit "Sec-Websocket-Key")).headD [] != []

def queryToken (query : GoString) : GoString :=
  (([lit "token",lit "access_token",lit "auth"].map (queryGet query)).find? (· ≠ [])).getD []

def requestToken (r : Request) : GoString :=
  let bearer := bearerToken u r.header
  if bearer ≠ [] then bearer
  else if isWebSocketHandshake u r then queryToken r.rawQuery
  else []

def extractToken (r : Request) : GoString :=
  let session := sessionCookieValue r.header
  if session ≠ [] then session else requestToken u r

def managementToken (token : GoString) : Bool := looksLikeToken token || sessions.accepts token
def pairsOf (line : GoString) : List GoString :=
  (((cookieParts line).filter fun part => !isSessionCookiePart part).map trimString).filter (· ≠ [])
def otherPairs : List GoString := (h (lit "Cookie")).flatMap pairsOf
def otherCredentials : List GoString :=
  (h (lit "Authorization")).filter fun v => !(afterBearer u v).any (managementToken sessions)

end

structure Withheld (u : Tables) (sessions : TokenVerifier) (sent received : Request) : Prop where
  token : managementToken sessions (extractToken u received) = false
  cookies : otherPairs received.header = otherPairs sent.header
  credentials : received.header (lit "Authorization") = otherCredentials u sessions sent.header

def Tidy (part : GoString) : Prop := trimSpace part = trimString part
def NoBearer (u : Tables) (sessions : TokenVerifier) (h : Header) : Prop :=
  ∀ v, (otherCredentials u sessions h).head? = some v → bearerOf u v = []

-- No token in a handshake's query, and only blanks around a session line's pairs.
structure Withholdable (u : Tables) (sessions : TokenVerifier) (r : Request) : Prop where
  query : isWebSocketHandshake u r → NoBearer u sessions r.header → managementToken sessions (queryToken r.rawQuery) = false
  tidy : ∀ line ∈ r.header (lit "Cookie"), hasSessionCookie line →
    ∀ part ∈ cookieParts line, isSessionCookiePart part = false → Tidy part

theorem equals_space : ∀ p ∈ spaces, byte '=' ∉ p := by decide
theorem equals_blank : isASCIISpace (byte '=') = false := by decide

theorem isSessionCookiePart_trimSpace (part : GoString) : isSessionCookiePart (trimSpace part) = isSessionCookiePart part := by
  suffices same : trimSpace (cut (trimSpace part) (byte '=')).1 = trimSpace (cut part (byte '=')).1 by
    simp only [isSessionCookiePart,same]
  obtain ⟨gone,tail,whole,before,after,drops⟩ := trimSpace_split part
  have free (list : GoString) (blank : ∀ b ∈ list, ∃ p ∈ spaces, b ∈ p) : byte '=' ∉ list := by
    intro mem
    obtain ⟨p,known,inside⟩ := blank _ mem
    exact equals_space p known inside
  generalize core : trimSpace part = text at whole
  by_cases named : byte '=' ∈ text
  · obtain ⟨name,value,shape,absent⟩ := eq_append_cons_of_mem named
    have outer : part = (gone ++ name) ++ byte '=' :: (value ++ tail) := by rw [whole,shape]; simp
    rw [outer,shape,cut_append absent,cut_append (by simp [free gone before,absent])]
    exact (drops name).symm
  · have absent : byte '=' ∉ part := by
      rw [whole]
      simp [free gone before,free tail after,named]
    rw [cut_none named,cut_none absent,← core]
    exact trimSpace_idem part

theorem isSessionCookiePart_blank (part : GoString) : isSessionCookiePart (byte ' ' :: part) = isSessionCookiePart part := by
  have blank : isASCIISpace (byte ' ') := by decide
  have apart : (byte ' ' == byte '=') = false := by decide
  simp [isSessionCookiePart,cut,apart,trimSpace_blank blank]

def Named (name : GoString) : Prop := name = sessionCookieName ∨ name = hostSessionCookieName

theorem named_padded (named : Named name) (left : ∀ b ∈ pad, isASCIISpace b) (right : ∀ b ∈ tail, isASCIISpace b) :
    trimSpace (pad ++ name ++ tail) = name := by
  rcases named with same | same
  · subst same
    exact trimSpace_padded (b := byte 'g') (c := byte 'n') left right (by decide) (by decide) rfl rfl
  · subst same
    exact trimSpace_padded (b := byte '_') (c := byte 'n') left right (by decide) (by decide) rfl rfl

theorem readCookie_session (read : readCookie part = some (name,value)) (named : Named name)
    (left : ∀ b ∈ pad, isASCIISpace b) (right : ∀ b ∈ tail, isASCIISpace b) :
    isSessionCookiePart (pad ++ part ++ tail) := by
  obtain ⟨before,after,whole,blankBefore,blankAfter⟩ := trimString_split part
  have name_eq : trimString (cut (trimString part) (byte '=')).1 = name := by
    unfold readCookie at read
    dsimp only at read
    split at read
    · cases read
    · split at read
      · obtain ⟨_,_,pair⟩ := Option.map_eq_some_iff.mp read; exact congrArg Prod.fst pair
      · cases read
  obtain ⟨absent,found⟩ := cut_parts (trimString part) (byte '=')
  generalize trimString part = core at whole name_eq absent found
  generalize (cut core (byte '=')).1 = text at name_eq absent found
  obtain ⟨near,far,inner,blankNear,blankFar⟩ := trimString_split text
  rw [name_eq] at inner
  have free : ∀ list : GoString, (∀ b ∈ list, isASCIISpace b) → byte '=' ∉ list := by
    intro list blank held
    cases equals_blank.symm.trans (blank _ held)
  have blanks : ∀ b ∈ pad ++ before ++ near, isASCIISpace b :=
    forall_mem_append.mpr ⟨forall_mem_append.mpr ⟨left,blankBefore⟩,blankNear⟩
  have first : trimSpace (cut (pad ++ part ++ tail) (byte '=')).1 = name := by
    split at found
    · -- The name ends at the first equals sign.
      have outer : pad ++ part ++ tail = (pad ++ before ++ text) ++ byte '=' :: ((cut core (byte '=')).2.1 ++ after ++ tail) := by
        rw [whole]
        nth_rewrite 1 [found]
        simp
      rw [outer,cut_append (by simp [free pad left,free before blankBefore,absent])]
      have inside : pad ++ before ++ text = (pad ++ before ++ near) ++ name ++ far := by rw [inner]; simp
      rw [inside]
      exact named_padded named blanks blankFar
    · have outer : pad ++ part ++ tail = (pad ++ before ++ near) ++ name ++ (far ++ after ++ tail) := by
        rw [whole,found,inner]
        simp
      have missing : byte '=' ∉ pad ++ part ++ tail := by
        rw [whole,found]
        simp [free pad left,free before blankBefore,free after blankAfter,free tail right,absent]
      rw [cut_none missing,outer]
      exact named_padded named blanks (forall_mem_append.mpr ⟨forall_mem_append.mpr ⟨blankFar,blankAfter⟩,right⟩)
  unfold isSessionCookiePart
  rw [first]
  rcases named with same | same <;> simp [same]

theorem cookie_none {h : Header} (clean : ∀ line ∈ h (lit "Cookie"), hasSessionCookie line = false) (named : Named name) :
    cookie h name = none := by
  unfold cookie
  rw [Option.map_eq_none_iff,find?_eq_none]
  intro ⟨other,value⟩ mem same
  cases eq_of_beq same
  obtain ⟨line,held,read⟩ := mem_flatMap.mp mem
  obtain ⟨part,among,reads⟩ := mem_filterMap.mp read
  obtain ⟨pad,tail,piece,left,right⟩ := split_trimmed among (by decide)
  have session := readCookie_session reads named left right
  exact any_eq_false.mp (clean line held) _ piece session

theorem split_written (first : GoString) (rest : List GoString) (free : ∀ part ∈ first :: rest, byte ';' ∉ part) :
    split (join (first :: rest) (lit "; ")) (byte ';') = first :: rest.map (byte ' ' :: ·) := by
  have sep : lit "; " = [byte ';',byte ' '] := by decide
  have apart : byte ';' ≠ byte ' ' := by decide
  induction rest generalizing first with
  | nil =>
    simp only [join,intercalate,intersperse,flatten_singleton,map_nil]
    exact split_none (free first (mem_cons_self ..))
  | cons next rest ih =>
    have later := ih next (forall_mem_cons.mp free).2
    rw [join_cons,append_assoc]
    nth_rewrite 1 [sep]
    rw [cons_append,singleton_append,split_append (free first (mem_cons_self ..)),split_byte (Ne.symm apart) later]
    rfl

theorem keptParts_free (mem : part ∈ keptParts line) : byte ';' ∉ part ∧ part ≠ [] ∧ isSessionCookiePart part = false ∧
    trimString part = part := by
  obtain ⟨among,kept⟩ := mem_filter.mp mem
  obtain ⟨raw,held,same⟩ := mem_map.mp among
  obtain ⟨_,_,_,free,_⟩ := mem_split.mp held
  simp only [Bool.and_eq_true,bne_iff_ne,ne_eq,Bool.not_eq_true'] at kept
  refine ⟨?_,kept.1,kept.2,?_⟩
  · intro inside; exact free ((trimSpace_inside raw).subset (same ▸ inside))
  · rw [← same]; exact trimString_trimSpace raw

theorem written_parts (line : GoString) (written : join (keptParts line) (lit "; ") ≠ []) :
    hasSessionCookie (join (keptParts line) (lit "; ")) = false ∧ pairsOf (join (keptParts line) (lit "; ")) = keptParts line := by
  have free := fun part (mem : part ∈ keptParts line) => keptParts_free mem
  generalize keptParts line = kept at written free
  cases kept with
  | nil => exact absurd rfl written
  | cons first rest =>
    have parts := split_written first rest fun part mem => (free part mem).1
    have blank : isASCIISpace (byte ' ') := by decide
    have sessions : ∀ part ∈ cookieParts (join (first :: rest) (lit "; ")), isSessionCookiePart part = false := by
      intro part mem
      rw [cookieParts,parts] at mem
      rcases mem_cons.mp mem with same | later
      · exact same ▸ (free first (mem_cons_self ..)).2.2.1
      · obtain ⟨inner,held,same⟩ := mem_map.mp later
        rw [← same,isSessionCookiePart_blank]
        exact (free inner (mem_cons_of_mem _ held)).2.2.1
    refine ⟨?_,?_⟩
    · apply any_eq_false.mpr
      intro part mem
      simp [sessions part mem]
    have all : (cookieParts (join (first :: rest) (lit "; "))).filter (fun part => !isSessionCookiePart part) =
        first :: rest.map (byte ' ' :: ·) := by
      rw [← parts]
      exact filter_eq_self.mpr fun part mem => by simp [sessions part mem]
    unfold pairsOf
    rw [all]
    have trimmed : (rest.map (byte ' ' :: ·)).map trimString = rest := by
      rw [map_map]
      conv => rhs; rw [← map_id rest]
      apply map_congr_left
      intro part mem
      simp [trimString_blank blank,(free part (mem_cons_of_mem _ mem)).2.2.2]
    rw [map_cons,trimmed,(free first (mem_cons_self ..)).2.2.2]
    apply filter_eq_self.mpr
    intro part mem
    simp [(free part mem).2.1]

theorem session_contains (session : hasSessionCookie line) : contains line sessionCookieName := by
  obtain ⟨part,mem,named⟩ := any_eq_true.mp session
  obtain ⟨u,v,whole,_⟩ := mem_split.mp mem
  have inside : sessionCookieName <:+: trimSpace (cut part (byte '=')).1 := by
    have host : sessionCookieName <:+: hostSessionCookieName := ⟨lit "__Host-",[],by simp [hostSessionCookieName]⟩
    simp only [isSessionCookiePart,Bool.or_eq_true,beq_iff_eq] at named
    rcases named with same | same
    · exact same ▸ infix_rfl
    · exact same ▸ host
  have before : (cut part (byte '=')).1 <:+: part := by
    obtain ⟨_,found⟩ := cut_parts part (byte '=')
    split at found
    · exact ⟨[],byte '=' :: (cut part (byte '=')).2.1,by rw [nil_append]; exact found.symm⟩
    · exact found ▸ infix_rfl
  apply contains_iff.mpr
  exact ((inside.trans (trimSpace_inside _)).trans before).trans ⟨u,v,whole.symm⟩

theorem stripLine_plain (plain : hasSessionCookie line = false) : stripLine line = [line] := by
  unfold stripLine
  split
  · rename_i has
    have full : line ≠ [] := by
      intro empty
      rw [empty] at has
      exact absurd has (by decide)
    simp [withoutSessionCookie,plain,full]
  · rfl

theorem stripLine_session (session : hasSessionCookie line) :
    stripLine line = if join (keptParts line) (lit "; ") = [] then [] else [join (keptParts line) (lit "; ")] := by
  simp [stripLine,session_contains session,withoutSessionCookie,session]

theorem keptParts_pairs (line : GoString) : keptParts line =
    (((cookieParts line).filter fun part => !isSessionCookiePart part).map trimSpace).filter (· ≠ []) := by
  unfold keptParts
  rw [filter_map,filter_map,filter_filter]
  congr 1
  apply filter_congr
  intro part _
  by_cases empty : trimSpace part = [] <;> simp [isSessionCookiePart_trimSpace,empty]

theorem join_nothing (empty : join (keptParts line) (lit "; ") = []) : keptParts line = [] := by
  have free := fun part (mem : part ∈ keptParts line) => keptParts_free mem
  generalize keptParts line = kept at empty free
  cases kept with
  | nil => rfl
  | cons first rest =>
    have full := (free first (mem_cons_self ..)).2.1
    cases rest with
    | nil => simp [join] at empty; exact absurd empty full
    | cons next rest => rw [join_cons] at empty; simp [full] at empty

theorem stripLine_clean (mem : kept ∈ stripLine line) : hasSessionCookie kept = false := by
  cases session : hasSessionCookie line with
  | false => rw [stripLine_plain session,mem_singleton] at mem; exact mem ▸ session
  | true =>
    rw [stripLine_session session] at mem
    split at mem
    · cases mem
    · rename_i written
      rw [mem_singleton] at mem
      exact mem ▸ (written_parts line written).1

theorem stripLine_pairs (line : GoString) : (stripLine line).flatMap pairsOf = if hasSessionCookie line then keptParts line else pairsOf line := by
  cases session : hasSessionCookie line with
  | false => simp [stripLine_plain session]
  | true =>
    rw [stripLine_session session]
    split
    · rename_i empty; simp [join_nothing empty]
    · rename_i written; simp [(written_parts line written).2]

variable (h : Header)

theorem stripSessionCookie_lines : stripSessionCookie h (lit "Cookie") = (h (lit "Cookie")).flatMap stripLine := by
  unfold stripSessionCookie
  split
  · simp
  rename_i same
  have plain : ∀ line ∈ h (lit "Cookie"), stripLine line = [line] := by
    intro line mem
    apply stripLine_plain
    apply Bool.eq_false_iff.mpr
    intro session
    apply same
    apply any_eq_true.mpr
    exact ⟨line,mem,by simp [session_contains session,withoutSessionCookie,session]⟩
  rw [flatMap_congr plain]
  simp

theorem stripSessionCookie_other (apart : name ≠ lit "Cookie") : stripSessionCookie h name = h name := by
  unfold stripSessionCookie
  split
  · simp [apart]
  · rfl

def size (texts : List GoString) : Nat := (texts.map length).sum

theorem size_filled (texts : List GoString) : size (texts.filter (· ≠ [])) = size texts := by
  induction texts with
  | nil => rfl
  | cons text rest ih =>
    by_cases empty : text = [] <;> simpa [size,empty] using ih

theorem size_flatMap (lines : List GoString) (f : GoString → List GoString) : size (lines.flatMap f) = (lines.map fun line => size (f line)).sum := by
  induction lines with
  | nil => rfl
  | cons line rest ih => simp_all [size]

theorem each_of_sum {l : List α} {f g : α → Nat} (fewer : ∀ x ∈ l, f x ≤ g x) (same : (l.map f).sum = (l.map g).sum) : ∀ x ∈ l, f x = g x := by
  intro x mem
  by_contra apart
  exact (sum_lt_sum f g fewer ⟨x,mem,lt_of_le_of_ne (fewer x mem) apart⟩).ne same

def otherParts (line : GoString) : List GoString := (cookieParts line).filter fun part => !isSessionCookiePart part

theorem size_kept (line : GoString) : size (keptParts line) = ((otherParts line).map fun part => (trimSpace part).length).sum := by
  rw [keptParts_pairs,size_filled,size,map_map]
  rfl

theorem size_pairs (line : GoString) : size (pairsOf line) = ((otherParts line).map fun part => (trimString part).length).sum := by
  rw [pairsOf,size_filled,size,map_map]
  rfl

theorem stripped_pairs : otherPairs (stripSessionCookie h) = otherPairs h ↔
    ∀ line ∈ h (lit "Cookie"), hasSessionCookie line → ∀ part ∈ cookieParts line, isSessionCookiePart part = false → Tidy part := by
  have after : otherPairs (stripSessionCookie h) =
      (h (lit "Cookie")).flatMap fun line => if hasSessionCookie line then keptParts line else pairsOf line := by
    rw [otherPairs,stripSessionCookie_lines,flatMap_assoc]
    exact flatMap_congr fun line _ => stripLine_pairs line
  rw [after]
  constructor
  · intro same line mem session part among other
    have within : ∀ line, ∀ part ∈ otherParts line, (trimSpace part).length ≤ (trimString part).length :=
      fun _ part _ => (trimSpace_within part).length_le
    have shorter : ∀ line ∈ h (lit "Cookie"), size (if hasSessionCookie line then keptParts line else pairsOf line) ≤ size (pairsOf line) := by
      intro line _
      split
      · rw [size_kept,size_pairs]; exact sum_le_sum (within line)
      · exact le_rfl
    have total := congrArg size same
    rw [otherPairs,size_flatMap,size_flatMap] at total
    have equal := each_of_sum shorter total line mem
    rw [if_pos session,size_kept,size_pairs] at equal
    exact (trimSpace_within part).eq_of_length (each_of_sum (within line) equal part (mem_filter.mpr ⟨among,by simp [other]⟩))
  · intro tidy
    apply flatMap_congr
    intro line mem
    split
    · rename_i session
      rw [keptParts_pairs,pairsOf]
      congr 1
      apply map_congr_left
      intro part among
      obtain ⟨held,other⟩ := mem_filter.mp among
      exact tidy line mem session part held (by simpa using other)
    · rfl

theorem stripped_clean : ∀ line ∈ stripSessionCookie h (lit "Cookie"), hasSessionCookie line = false := by
  intro line mem
  rw [stripSessionCookie_lines] at mem
  obtain ⟨old,_,kept⟩ := mem_flatMap.mp mem
  exact stripLine_clean kept

theorem stripSessionCookie_clean {h : Header} (clean : ∀ line ∈ h (lit "Cookie"), hasSessionCookie line = false) :
    stripSessionCookie h = h := by
  unfold stripSessionCookie
  rw [if_neg]
  intro changed
  obtain ⟨line,mem,both⟩ := any_eq_true.mp changed
  simp [withoutSessionCookie,clean line mem] at both

section Credentials
variable {u : Tables} {sessions : TokenVerifier}

theorem isManagementBearer_exact (v : GoString) :
    isManagementBearer u v (some sessions) = (afterBearer u v).any (managementToken sessions) := by
  unfold isManagementBearer
  congr 1
  funext token
  unfold isManagementToken managementToken
  cases accepted : sessions.accepts token with
  | false => simp [accepted]
  | true => simp [accepted,(sessions.shaped token accepted).1]

theorem isManagementBearer_shape (v : GoString) (shaped : isManagementBearer u v none) :
    isManagementBearer u v (some sessions) := by
  obtain ⟨token,after,plain⟩ := (Option.any_eq_true ..).mp shaped
  apply (Option.any_eq_true ..).mpr
  refine ⟨token,after,?_⟩
  simp only [isManagementToken,Option.any_none,Bool.or_false] at plain
  simp [isManagementToken,plain]

theorem afterBearer_long (after : afterBearer u v = some token) : 7 + token.length ≤ v.length := by
  unfold afterBearer at after
  split at after
  · rename_i bearer
    simp only [Bool.and_eq_true,decide_eq_true_eq] at bearer
    cases after
    have within := (trimSpace_inside (v.drop 7)).length_le
    rw [length_drop] at within
    omega
  · cases after

theorem plain_value (sessions : TokenVerifier) (none : bearsToken u v = false) (local' : pasetoLocalBearer u v = false) :
    (afterBearer u v).any (managementToken sessions) = false := by
  cases after : afterBearer u v with
  | none => rfl
  | some token =>
    simp only [bearsToken,after,Option.any_some] at none
    simp only [Option.any_some,managementToken,none,Bool.false_or]
    apply Bool.eq_false_iff.mpr
    intro accepted
    obtain ⟨begins,long⟩ := sessions.shaped token accepted
    have fits := afterBearer_long after
    simp only [pasetoLocalBearer,after,Option.any_some,begins,Bool.and_true,decide_eq_false_iff_not] at local'
    omega

theorem withhold_credentials (sessions : Option TokenVerifier) :
    withholdManagementCredentials u h sessions (lit "Authorization") =
      (h (lit "Authorization")).filter fun v => !isManagementBearer u v sessions := by
  simp [withholdManagementCredentials,stripSessionCookie_other h (show lit "Authorization" ≠ lit "Cookie" by decide)]

theorem withhold_other (sessions : Option TokenVerifier) (apart : name ≠ lit "Authorization") :
    withholdManagementCredentials u h sessions name = stripSessionCookie h name := by
  simp [withholdManagementCredentials,apart]

theorem entry_credentials : withholdFromDataPlane u sessions h (lit "Authorization") = otherCredentials u sessions h := by
  unfold withholdFromDataPlane otherCredentials
  split
  · rw [withhold_credentials]; simp only [isManagementBearer_exact]
  rename_i nothing
  simp only [mayCarryManagementCredential,Bool.or_eq_true,not_or,Bool.not_eq_true,any_eq_false,Bool.or_eq_true] at nothing
  apply (filter_eq_self.mpr _).symm
  intro v mem
  obtain ⟨none,local'⟩ := nothing.2 v mem
  simp [plain_value sessions none local']

theorem entry_other (apart : name ≠ lit "Authorization") :
    withholdFromDataPlane u sessions h name = stripSessionCookie h name := by
  unfold withholdFromDataPlane
  split
  · exact withhold_other h _ apart
  rename_i nothing
  simp only [mayCarryManagementCredential,Bool.or_eq_true,not_or,Bool.not_eq_true,any_eq_false] at nothing
  rw [stripSessionCookie_clean]
  intro line mem
  apply Bool.eq_false_iff.mpr
  intro session
  have both := nothing.1 line mem
  simp [session_contains session,session] at both

variable (marked : Bool)

theorem forwarded_credentials (h : Header) :
    forwardedHeader u sessions marked h (lit "Authorization") = otherCredentials u sessions h := by
  unfold forwardedHeader
  rw [withhold_credentials,entry_credentials]
  apply filter_eq_self.mpr
  intro v mem
  have other : isManagementBearer u v (some sessions) = false := by
    rw [isManagementBearer_exact]
    simpa using (mem_filter.mp mem).2
  cases marked with
  | false => simp [other]
  | true =>
    have shape : isManagementBearer u v none = false := by
      apply Bool.eq_false_iff.mpr
      intro shaped
      cases other.symm.trans (isManagementBearer_shape v shaped)
    simp [shape]

theorem forwarded_other (h : Header) (apart : name ≠ lit "Authorization") :
    forwardedHeader u sessions marked h name = stripSessionCookie h name := by
  have cookies : ∀ line ∈ withholdFromDataPlane u sessions h (lit "Cookie"), hasSessionCookie line = false := by
    rw [entry_other h (by decide)]
    exact stripped_clean h
  unfold forwardedHeader
  rw [withhold_other _ _ apart,stripSessionCookie_clean cookies,entry_other h apart]

theorem base64_solid : ∀ b, isBase64URLByte b → solid b := every_byte (by decide +kernel)

theorem looksLikeToken_trimmed (shaped : looksLikeToken token) : trimSpace token = token := by
  simp only [looksLikeToken,Bool.and_eq_true,beq_iff_eq] at shaped
  obtain ⟨⟨long,begins⟩,plain⟩ := shaped
  obtain ⟨body,whole⟩ := isPrefixOf_iff_prefix.mp begins
  have first : token = byte 'g' :: token.tail := by rw [← whole]; rfl
  have bytes : ∀ b ∈ body, isBase64URLByte b := by
    rw [← whole,drop_left] at plain
    exact all_eq_true.mp plain
  have some : body ≠ [] := by
    intro empty
    rw [← whole,empty] at long
    exact absurd long (by decide)
  obtain ⟨c,less,ends⟩ := exists_cons_of_ne_nil (mt reverse_eq_nil_iff.mp some)
  have last : token.reverse = c :: (less ++ tokenPrefix.reverse) := by
    rw [← whole,reverse_append,ends,cons_append]
  have inside : c ∈ body := mem_reverse.mp (ends ▸ mem_cons_self ..)
  have trimmed : trimSpace ([] ++ token ++ []) = token := trimSpace_padded nofun nofun
    (show solid (byte 'g') by decide) (base64_solid c (bytes c inside)) first last
  simpa using trimmed

theorem nothing_accepted : managementToken sessions [] = false := by
  have plain : looksLikeToken [] = false := by decide
  apply Bool.eq_false_iff.mpr
  intro accepted
  have long := (sessions.shaped [] accepted).2
  simp at long

theorem kept_bearer (other : (afterBearer u v).any (managementToken sessions) = false) :
    managementToken sessions (bearerOf u v) = false := by
  unfold bearerOf
  cases bears : decide (v.length < 7) || !equalFold u (v.take 7) (lit "bearer ") with
  | true => rw [if_pos rfl]; exact nothing_accepted
  | false =>
    rw [if_neg Bool.false_ne_true]
    simp only [Bool.or_eq_false_iff,decide_eq_false_iff_not,Bool.not_eq_false',not_lt] at bears
    rcases lt_or_ge 7 v.length with long | short
    · have after : afterBearer u v = some (trimSpace (v.drop 7)) := by simp [afterBearer,long,bears.2]
      rw [after,Option.any_some] at other
      simp only [managementToken,Bool.or_eq_false_iff] at other ⊢
      refine ⟨?_,?_⟩
      · apply Bool.eq_false_iff.mpr
        intro shaped
        rw [looksLikeToken_trimmed shaped] at other
        cases shaped.symm.trans other.1
      · apply Bool.eq_false_iff.mpr
        intro accepted
        cases (sessions.trimmed _ accepted).symm.trans other.2
    · rw [drop_eq_nil_of_le short]; exact nothing_accepted

theorem bearerToken_head : bearerToken u h = match (h (lit "Authorization")).head? with
    | none => []
    | some v => bearerOf u v := by
  unfold bearerToken
  cases h (lit "Authorization") <;> rfl

theorem forwarded_bearer (u : Tables) (sessions : TokenVerifier) (marked : Bool) (h : Header) :
    managementToken sessions (bearerToken u (forwardedHeader u sessions marked h)) = false ∧
      (bearerToken u (forwardedHeader u sessions marked h) = [] ↔ NoBearer u sessions h) := by
  rw [bearerToken_head,forwarded_credentials]
  unfold NoBearer
  cases first : (otherCredentials u sessions h).head? with
  | none => exact ⟨nothing_accepted,by simp⟩
  | some v =>
    have mem := mem_of_mem_head? first
    have other := (mem_filter.mp mem).2
    exact ⟨kept_bearer (by simpa using other),by simp⟩

theorem forwarded_handshake (r : Request) :
    isWebSocketHandshake u (forwarded u sessions marked r) = isWebSocketHandshake u r := by
  have same : ∀ name, name ≠ lit "Authorization" → name ≠ lit "Cookie" → forwardedHeader u sessions marked r.header name = r.header name := by
    intro name one two
    rw [forwarded_other marked r.header one,stripSessionCookie_other r.header two]
  simp only [isWebSocketHandshake,headerHasToken,forwarded,
    same (lit "Upgrade") (by decide) (by decide),same (lit "Connection") (by decide) (by decide),
    same (lit "Sec-Websocket-Key") (by decide) (by decide)]

theorem forwarded_session (h : Header) : sessionCookieValue (forwardedHeader u sessions marked h) = [] := by
  have clean : ∀ line ∈ forwardedHeader u sessions marked h (lit "Cookie"), hasSessionCookie line = false := by
    rw [forwarded_other marked h (by decide)]
    exact stripped_clean h
  simp [sessionCookieValue,cookie_none clean (.inl rfl),cookie_none clean (.inr rfl)]

theorem forwarded_token (r : Request) : managementToken sessions (extractToken u (forwarded u sessions marked r)) = false ↔
    (isWebSocketHandshake u r → NoBearer u sessions r.header → managementToken sessions (queryToken r.rawQuery) = false) := by
  obtain ⟨harmless,bare⟩ := forwarded_bearer u sessions marked r.header
  have session : sessionCookieValue (forwarded u sessions marked r).header = [] := forwarded_session marked r.header
  simp only [extractToken,session,ne_eq,not_true_eq_false,↓reduceIte,requestToken,forwarded_handshake]
  change managementToken sessions (if ¬ bearerToken u (forwardedHeader u sessions marked r.header) = [] then _ else _) = false ↔ _
  by_cases empty : bearerToken u (forwardedHeader u sessions marked r.header) = []
  · rw [if_neg (not_not.mpr empty)]
    have none := bare.mp empty
    cases handshake : isWebSocketHandshake u r with
    | true => simp [forwarded,none]
    | false => simp [nothing_accepted]
  · rw [if_pos empty]
    constructor
    · intro _ _ none; exact absurd (bare.mpr none) empty
    · intro _; exact harmless

theorem forwarded_pairs (h : Header) : otherPairs (forwardedHeader u sessions marked h) = otherPairs (stripSessionCookie h) := by
  unfold otherPairs
  rw [forwarded_other marked h (by decide)]

end Credentials

theorem withheld_exact (u : Tables) (sessions : TokenVerifier) (marked : Bool) (r : Request) :
    Withheld u sessions r (forwarded u sessions marked r) ↔ Withholdable u sessions r := by
  constructor
  · intro withheld
    have cookies := withheld.cookies
    change otherPairs (forwardedHeader u sessions marked r.header) = _ at cookies
    rw [forwarded_pairs] at cookies
    exact ⟨(forwarded_token marked r).mp withheld.token,(stripped_pairs r.header).mp cookies⟩
  · intro able
    refine ⟨(forwarded_token marked r).mpr able.query,?_,forwarded_credentials marked r.header⟩
    change otherPairs (forwardedHeader u sessions marked r.header) = _
    rw [forwarded_pairs]
    exact (stripped_pairs r.header).mpr able.tidy

def sampleVerifier : TokenVerifier where
  accepts token := token == lit "v4.local.S"
  shaped := by
    intro token same
    rw [eq_of_beq same]
    decide
  trimmed := by
    intro token same
    rw [eq_of_beq same]
    decide

def sampleUpgrade (lines : List (GoString × GoString)) (rawQuery : GoString) : Request where
  method := lit "GET"
  header := Header.ofLines ([(lit "upgrade",lit "websocket"),(lit "connection",lit "Upgrade"),(lit "Sec-WebSocket-Key",lit "k")] ++ lines)
  rawQuery := rawQuery

-- A no-break space is lost beside the session; a query's session is passed on.
theorem withheld_incomplete :
    otherPairs (Header.ofLines [(lit "Cookie",lit "a=x\u00a0; gateon_session=v4.local.S")]) = [lit "a=x\u00a0"] ∧
    otherPairs (forwardedHeader .ascii sampleVerifier true
      (Header.ofLines [(lit "Cookie",lit "a=x\u00a0; gateon_session=v4.local.S")])) = [lit "a=x"] ∧
    extractToken .ascii (forwarded .ascii sampleVerifier true (sampleUpgrade [] (lit "token=v4.local.S"))) = lit "v4.local.S" ∧
    sampleVerifier.accepts (lit "v4.local.S") = true := by
  decide

end Gateon.Auth.Withhold
