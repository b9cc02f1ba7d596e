import Gateon.Security.SecretMask

namespace Gateon.Config
open Go KeyedStore Security
open List hiding contains contains_iff

structure Middleware where
  id : GoString
  name : GoString
  type : GoString
  config : Settings
  wasmBlob : GoString

inductive Kind where
  | plain
  | scalar
  | userList
  | keyName
deriving DecidableEq

def apiKeyPrefix : GoString := lit "key_"
def usersKey : GoString := lit "users"
def headerPrefixes : List GoString := [lit "add_request_",lit "set_request_",lit "add_response_",lit "set_response_"]
def upstreamRequestPrefixes : List GoString := [lit "add_request_",lit "set_request_"]
def cutAny (prefixes : List GoString) (key : GoString) : Option GoString :=
  prefixes.findSome? fun p => (cutPrefix key p).filter (· ≠ [])

def nameSet (prefixes : List GoString) (mwType key : GoString) : Option GoString :=
  if mwType = lit "headers" then cutAny prefixes key
  else if mwType = lit "rewrite" then cutAny [lit "query_"] key
  else none

def setName (mwType key : GoString) : Option GoString := nameSet headerPrefixes mwType key
def upstreamSetName (mwType key : GoString) : Option GoString := nameSet upstreamRequestPrefixes mwType key

def classify (u : Tables) (mwType key : GoString) : Kind :=
  if (cutPrefix key apiKeyPrefix).any (· ≠ []) then .keyName
  else if key = usersKey then .userList
  else if isSecret u key then .scalar
  else if (setName mwType key).any (isCredentialName u) then .scalar
  else .plain

def canonicalType (u : Tables) (mw : Middleware) : GoString := toLower u (trimSpace mw.type)

def injectsCredentialUpstream (u : Tables) (mw : Middleware) : Bool :=
  let mwType := canonicalType u mw
  (mwType == lit "headers" || mwType == lit "rewrite") &&
    mw.config.rows.any fun (k,v) => trimSpace v != [] && (upstreamSetName mwType k).any (isCredentialName u)

def identity (mw : Middleware) : GoString :=
  if mw.type = lit "auth" then lit "auth/" ++ trimSpace (Settings.at mw.config (lit "type")) else mw.type

def destinationKey (mw : Middleware) : GoString :=
  if identity mw = lit "auth/oauth2" ∨ identity mw = lit "auth/oauth2_introspection" then lit "introspection_url"
  else if identity mw = lit "oidc" then lit "issuer"
  else if identity mw = lit "forwardauth" then lit "address"
  else []

def referencePrefixes : List GoString := [lit "$env:",lit "$vault:",lit "$aws-sm:"]
def isReference (s : GoString) : Bool := referencePrefixes.any (hasPrefix s)
def isOpaque (v : GoString) : Bool := isReference v || hasPrefix v (lit "enc:")

structure User where
  name : GoString
  password : GoString
deriving DecidableEq

def readUser (part : GoString) : Option User :=
  let pieces := cut part (byte ':')
  if pieces.2.2 then some ⟨pieces.1,pieces.2.1⟩ else none

def parseUsers (v : GoString) : Option (List User) := (((split v (byte ',')).map trimSpace).filter (· ≠ [])).mapM readUser

def joinUsers (users : List User) : GoString :=
  join (users.map fun user => user.name ++ [byte ':'] ++ user.password) [byte ',']

def usersByName (v name : GoString) : Option GoString :=
  if isOpaque v then none
  else (parseUsers v).bind fun users => (users.reverse.find? (·.name = name)).map User.password

def restoreScalar (stored : Settings) (k v : GoString) (out : Settings) : Option Settings :=
  let kept := Settings.at stored k
  if v ≠ Placeholder then none
  else if kept = [] then none
  else some (out.put (k,kept))

def restoreUser (stored : Settings) (k : GoString) (user : User) : Option User :=
  if contains user.name Placeholder || (user.password != Placeholder && contains user.password Placeholder) then none
  else if user.password ≠ Placeholder then some user
  else ((usersByName (Settings.at stored k) user.name).filter (· ≠ [])).map fun kept => { user with password := kept }

def restoreUsers (stored : Settings) (k v : GoString) (out : Settings) : Option Settings :=
  if v = Placeholder then restoreScalar stored k v out
  else ((parseUsers v).bind fun users => users.mapM (restoreUser stored k)).map fun users => out.put (k,joinUsers users)

def markerFingerprint (key : GoString) : Option GoString :=
  (cutPrefix key (apiKeyPrefix ++ Placeholder ++ lit "_")).filter fun fp =>
    fp.length = 16 && fp.all fun b => (48 ≤ b && b ≤ 57) || (97 ≤ b && b ≤ 102)

section
variable (fingerprint : GoString → GoString → GoString) (middlewareID : GoString) (stored : Settings)
include fingerprint middlewareID stored

def storedAPIKey (fp : GoString) :
    Option GoString :=
  (Settings.keys stored).findSome? fun k =>
    (cutPrefix k apiKeyPrefix).filter fun apiKey =>
      apiKey ≠ [] && !contains apiKey Placeholder && fingerprint middlewareID apiKey == fp

def restoreAPIKey (marker label : GoString)
    (out : Settings) : Option Settings :=
  (markerFingerprint marker).bind fun fp =>
    if contains label Placeholder then none
    else (storedAPIKey fingerprint middlewareID stored fp).bind fun apiKey =>
      if (out.get (apiKeyPrefix ++ apiKey)).isSome then none else some (out.put (apiKeyPrefix ++ apiKey,label))

end

section
variable (u : Tables) (fingerprint : GoString → GoString → GoString)

def restoreEntry (update : Middleware) (stored : Settings) (k : GoString)
    (out : Settings) : Option Settings :=
  let v := Settings.at update.config k
  if contains k Placeholder then restoreAPIKey fingerprint update.id stored k v out
  else if !contains v Placeholder then if (out.get k).isSome then none else some (out.put (k,v))
  else match classify u update.type k with
    | .userList => restoreUsers stored k v out
    | .scalar => restoreScalar stored k v out
    | _ => none

def keepable (update stored : Middleware) : Bool :=
  identity update == identity stored &&
    let key := destinationKey update
    key == [] || trimSpace (Settings.at update.config key) == trimSpace (Settings.at stored.config key)

def restore (update : Middleware) (stored : Option Middleware) :
    Option Middleware :=
  if held update.config = [] then some update
  else stored.bind fun kept =>
    if keepable update kept then
      ((sorted (Settings.keys update.config)).foldlM (fun out k => restoreEntry u fingerprint update kept.config k out) Store.empty).map
        fun config => { update with config := config }
    else none

end

theorem restore_fields (restored : restore u fingerprint update stored = some mw) :
    mw.id = update.id ∧ mw.type = update.type ∧ mw.wasmBlob = update.wasmBlob := by
  unfold restore at restored
  split at restored
  · cases restored; exact ⟨rfl,rfl,rfl⟩
  obtain ⟨kept,_,rest⟩ := Option.bind_eq_some_iff.mp restored
  split at rest
  · obtain ⟨config,_,⟨⟩⟩ := Option.map_eq_some_iff.mp rest
    exact ⟨rfl,rfl,rfl⟩
  · cases rest

theorem mapM_some_iff {f : α → Option β} {xs : List α} {ys : List β} : xs.mapM f = some ys ↔ xs.map f = ys.map some := by
  rw [mapM_forall₂,← forall₂_eq_eq_eq,forall₂_map_left_iff,forall₂_map_right_iff]

theorem mapM_isSome_iff {f : α → Option β} {xs : List α} : (xs.mapM f).isSome ↔ ∀ x ∈ xs, (f x).isSome := by
  induction xs with
  | nil => simp
  | cons x xs ih => rw [mapM_cons,forall_mem_cons,← ih]; cases f x <;> cases xs.mapM f <;> simp

structure User.Plain (user : User) : Prop where
  colon : byte ':' ∉ user.name
  comma : byte ',' ∉ user.name ∧ byte ',' ∉ user.password
  lead : ∀ p ∈ spaces, ¬ p <+: user.name
  trail : ∀ p ∈ spaces, ¬ p <:+ user.password

def User.entry (user : User) : GoString := user.name ++ byte ':' :: user.password

theorem joinUsers_entries (users : List User) : joinUsers users = join (users.map User.entry) [byte ','] := by
  unfold joinUsers User.entry
  simp only [append_assoc,singleton_append]

theorem space_colon : ∀ p ∈ spaces, byte ':' ∉ p := by decide

theorem prefix_before (free : c ∉ p) : p <+: a ++ c :: b ↔ p <+: a := by
  constructor
  · intro ⟨rest,whole⟩
    rcases append_eq_append_iff.mp whole with ⟨more,same,_⟩ | ⟨more,same,after⟩
    · exact ⟨more,same.symm⟩
    cases more with
    | nil => exact ⟨[],by simpa using same⟩
    | cons d more =>
      rw [cons_append,cons.injEq] at after
      exact absurd (by simp [same,after.1]) free
  · intro begins; exact begins.trans (prefix_append a _)

theorem suffix_after (free : c ∉ p) : p <:+ a ++ c :: b ↔ p <:+ b := by
  have mirrored := prefix_before (a := b.reverse) (b := a.reverse) (p := p.reverse) (c := c) (by simpa using free)
  rw [← reverse_prefix,← @ reverse_prefix _ _ b,← mirrored]
  simp

theorem User.Plain.trimmed {user : User} (plain : user.Plain) : trimSpace user.entry = user.entry := by
  refine trimSpace_fixed.mpr ⟨?_,?_⟩
  · intro p member begins; exact plain.lead p member ((prefix_before (space_colon p member)).mp begins)
  · intro p member ends; exact plain.trail p member ((suffix_after (space_colon p member)).mp ends)

theorem User.Plain.separate {user : User} (plain : user.Plain) : byte ',' ∉ user.entry := by
  have apart : byte ',' ≠ byte ':' := by decide
  simp [User.entry,plain.comma.1,plain.comma.2,apart]

theorem readUser_entry (plain : user.Plain) : readUser user.entry = some user := by
  simp [readUser,User.entry,cut_append plain.colon]
theorem entry_filled (user : User) : user.entry ≠ [] := by simp [User.entry]

theorem parse_join (users : List User) (plain : ∀ user ∈ users, User.Plain user) : parseUsers (joinUsers users) = some users := by
  rw [parseUsers,joinUsers_entries]
  cases users with
  | nil => rfl
  | cons first rest =>
    have parts : split (join ((first :: rest).map User.entry) [byte ',']) (byte ',') = (first :: rest).map User.entry :=
      split_join _ (by simp) (forall_mem_map.mpr fun user inside => (plain user inside).separate)
    rw [parts,map_map,map_congr_left (f := trimSpace ∘ User.entry) fun user inside => (plain user inside).trimmed,filter_eq_self.mpr (by simp [entry_filled]),
      mapM_forall₂,forall₂_map_left_iff,forall₂_same]
    exact fun user inside => readUser_entry (plain user inside)

theorem readUser_plain (trimmed : trimSpace part = part) (separate : byte ',' ∉ part) (read : readUser part = some user) :
    user.Plain ∧ part = user.entry := by
  obtain ⟨missing,whole⟩ := cut_parts part (byte ':')
  obtain ⟨found,⟨⟩⟩ := Option.ite_none_right_eq_some.mp read
  rw [if_pos found] at whole
  obtain ⟨front,back⟩ := trimSpace_fixed.mp trimmed
  have inside : ∀ b, b ∉ part → b ∉ (cut part (byte ':')).1 ∧ b ∉ (cut part (byte ':')).2.1 := by
    intro b absent
    rw [whole] at absent
    simp only [mem_append,mem_cons,not_or] at absent
    exact ⟨absent.1,absent.2.2⟩
  refine ⟨⟨missing,inside _ separate,?_,?_⟩,whole⟩
  · intro p member begins
    exact front p member (whole ▸ (prefix_before (space_colon p member)).mpr begins)
  · intro p member ends; exact back p member (whole ▸ (suffix_after (space_colon p member)).mpr ends)

theorem parse_plain (parsed : parseUsers v = some users) : ∀ user ∈ users, User.Plain user ∧ user.entry <:+: v := by
  rw [parseUsers,mapM_some_iff] at parsed
  intro user member
  have found : some user ∈ users.map some := mem_map_of_mem member
  rw [← parsed,mem_map] at found
  obtain ⟨part,inside,read⟩ := found
  obtain ⟨raw,isPart,rfl⟩ := mem_map.mp (mem_filter.mp inside).1
  obtain ⟨before,after,whole,free,_⟩ := mem_split.mp isPart
  have separate : byte ',' ∉ trimSpace raw := fun held => free ((trimSpace_inside raw).subset held)
  obtain ⟨plain,same⟩ := readUser_plain (trimSpace_idem raw) separate read
  exact ⟨plain,same ▸ (trimSpace_inside raw).trans ⟨before,after,whole.symm⟩⟩

theorem infix_around (free : c ∉ p) : p <:+: a ++ c :: b ↔ p <:+: a ∨ p <:+: b := by
  constructor
  · intro ⟨before,after,whole⟩
    rcases append_eq_append_iff.mp whole with ⟨more,same,_⟩ | ⟨more,same,rest⟩
    · exact .inl ⟨before,more,same.symm⟩
    cases more with
    | nil => exact .inl ⟨before,[],by simpa using same⟩
    | cons d more =>
      rw [cons_append,cons.injEq] at rest
      obtain ⟨rfl,tail⟩ := rest
      have ends : p <:+ a ++ c :: more := ⟨before,same⟩
      exact .inr (((suffix_after free).mp ends).isInfix.trans ⟨[],after,tail.symm⟩)
  · rintro (left | right)
    · exact left.trans (prefix_append a _).isInfix
    · exact right.trans ⟨a ++ [c],[],by simp⟩

theorem placeholder_colon : byte ':' ∉ Placeholder := by decide
theorem placeholder_comma : byte ',' ∉ Placeholder := by decide

theorem contains_entry (user : User) :
    contains user.entry Placeholder ↔ contains user.name Placeholder ∨ contains user.password Placeholder := by
  rw [contains_iff,contains_iff,contains_iff,User.entry,infix_around placeholder_colon]

theorem contains_joinUsers (users : List User) : contains (joinUsers users) Placeholder ↔
    ∃ user ∈ users, contains user.name Placeholder ∨ contains user.password Placeholder := by
  rw [joinUsers_entries]
  induction users with
  | nil => simp [join,intercalate,contains,index,Placeholder,show lit "__gateon_redacted__" ≠ [] by decide]
  | cons user users ih =>
    cases users with
    | nil =>
      rw [map_singleton,show join [user.entry] [byte ','] = user.entry by simp [join,intercalate],contains_entry]
      simp
    | cons next rest =>
      rw [map_cons] at ih
      rw [map_cons,map_cons,join_cons,append_assoc,singleton_append,contains_iff,infix_around placeholder_comma,
        ← contains_iff,← contains_iff,contains_entry,ih]
      simp

-- What the middleware makes of a list: the last entry of a name wins.
def lastPassword (users : List User) (name : GoString) : Option GoString :=
  (users.reverse.find? (·.name = name)).map User.password

-- The user names that make a joined list read as a reference or an encrypted value.
def opaqueNames : List GoString := [lit "$env",lit "$vault",lit "$aws-sm",lit "enc"]

theorem isOpaque_names (v : GoString) : isOpaque v = opaqueNames.any fun n => hasPrefix v (n ++ [byte ':']) := by
  have known : [lit "$env:",lit "$vault:",lit "$aws-sm:",lit "enc:"] = opaqueNames.map (· ++ [byte ':']) := by decide
  simp only [map_cons,map_nil,opaqueNames,cons.injEq,and_true] at known
  obtain ⟨env,vault,aws,enc⟩ := known
  simp [isOpaque,isReference,referencePrefixes,opaqueNames,env,vault,aws,enc,Bool.or_assoc]

theorem opaque_colon : ∀ n ∈ opaqueNames, byte ':' ∉ n := by decide

theorem isOpaque_join (plain : user.Plain) (rest : List User) :
    isOpaque (joinUsers (user :: rest)) ↔ user.name ∈ opaqueNames := by
  obtain ⟨tail,shape⟩ : ∃ tail, joinUsers (user :: rest) = user.name ++ byte ':' :: tail := by
    rw [joinUsers_entries]
    cases rest with
    | nil => exact ⟨user.password,by simp [join,intercalate,User.entry]⟩
    | cons next rest =>
      refine ⟨user.password ++ byte ',' :: join ((next :: rest).map User.entry) [byte ','],?_⟩
      rw [map_cons,map_cons,join_cons,User.entry]
      simp
  rw [isOpaque_names,shape,any_eq_true]
  constructor
  · rintro ⟨n,member,begins⟩
    obtain ⟨more,whole⟩ := isPrefixOf_iff_prefix.mp begins
    rw [append_assoc,singleton_append] at whole
    rwa [← (before_inj (opaque_colon n member) plain.colon whole).1]
  · intro member
    refine ⟨user.name,member, isPrefixOf_iff_prefix.mpr ⟨tail,?_⟩⟩
    rw [append_assoc,singleton_append]

end Gateon.Config
