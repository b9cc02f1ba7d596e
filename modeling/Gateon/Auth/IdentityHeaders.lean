import Gateon.Request.Forwarded
import Mathlib.Data.List.Induction

namespace Gateon.Auth.IdentityHeaders
open Go Request List Option

def parseListStrict (val : GoString) : List GoString :=
  if val = [] then [] else ((split val (byte ',')).map trimSpace).filter fun s => s != []

-- A preflight, or a request the auth service answered with 2xx and these lines.
def forwardAuth (authResponseHeaders : List GoString) (answer : Option (List (GoString × GoString))) (h : Header) : Header :=
  let authResponseSet := authResponseHeaders.map fun h => canonicalMIMEHeaderKey (trimSpace h)
  let h := authResponseSet.foldl Header.del h
  let h := stripHeaderAliases h authResponseHeaders
  match answer with
  | none => h
  | some lines => fun key =>
    if authResponseSet.contains key then
      -- Set once for each value of the answer: the last remains.
      match (Header.ofLines lines key).getLast? with
      | some value => [value]
      | none => h key
    else h key

-- One round of MapClaimsToHeaders; the claims are as fmt prints them.
def mapClaim (claims : GoString → Option GoString) (h : Header) (mapping : GoString × GoString) : Header :=
  let h := stripHeaderAliases h [mapping.2]
  match claims mapping.1 with
  | some value => Header.set h mapping.2 value
  | none => Header.del h mapping.2

-- The mapping is a Go map: the list is the order of one iteration over it.
def mapClaimsToHeaders (mappings : List (GoString × GoString)) (claims : GoString → Option GoString) (h : Header) : Header :=
  mappings.foldl (mapClaim claims) h

def stripMappedHeaders (mappings : List (GoString × GoString)) (h : Header) : Header :=
  mappings.foldl (fun h mapping => stripHeaderAliases (Header.del h mapping.2) [mapping.2]) h
def oidcHeaders : List GoString := [lit "X-Forwarded-User",lit "X-Forwarded-Email",lit "X-Forwarded-Name"]

structure Session where
  sub : Option GoString
  email : Option GoString
  name : Option GoString

def oidcServe (session : Option Session) (h : Header) : Header :=
  let h := oidcHeaders.foldl Header.del h
  match session with
  | none => h
  | some claims =>
    let h := Header.set h (lit "X-Forwarded-User") (claims.sub.getD [])
    let h := Header.set h (lit "X-Forwarded-Email") (claims.email.getD [])
    Header.set h (lit "X-Forwarded-Name") (claims.name.getD [])

variable {Cert : Type} (xfccHeader : Cert → GoString)

def xfcc (cert : Option Cert) (h : Header) : Header :=
  let h := Header.del h (lit "X-Forwarded-Client-Cert")
  match cert with
  | none => h
  | some cert => if xfccHeader cert ≠ [] then Header.set h (lit "X-Forwarded-Client-Cert") (xfccHeader cert) else h

inductive ClaimExit where
  | preflight
  | dryRun
  | verified (claims : GoString → Option GoString)

inductive Pass (Cert : Type) where
  | forwardAuth (authResponseHeaders : GoString) (answer : Option (List (GoString × GoString)))
  | claims (mappings : List (GoString × GoString)) (exit : ClaimExit)
  | oidc (session : Option Session)
  | xfcc (cert : Option Cert)

def passedOn : Pass Cert → Header → Header
  | .forwardAuth text answer,h => forwardAuth (parseListStrict text) answer h
  | .claims mappings .preflight,h => stripMappedHeaders mappings h
  | .claims mappings .dryRun,h => mapClaimsToHeaders mappings (fun _ => none) h
  | .claims mappings (.verified claims),h => mapClaimsToHeaders mappings claims h
  | .oidc session,h => oidcServe session h
  | .xfcc cert,h => xfcc xfccHeader cert h

def managed : Pass Cert → List GoString
  | .forwardAuth text _ => parseListStrict text
  | .claims mappings _ => mappings.map Prod.snd
  | .oidc _ => oidcHeaders
  | .xfcc _ => [lit "X-Forwarded-Client-Cert"]

def mappedValues (mappings : List (GoString × GoString)) (claims : GoString → Option GoString) (key : GoString) : List GoString :=
  mappings.filterMap fun mapping => if canonicalMIMEHeaderKey mapping.2 = key then claims mapping.1 else none

def taken : Pass Cert → Header
  | .forwardAuth text answer => fun key =>
    if key ∈ (parseListStrict text).map canonicalMIMEHeaderKey then Header.ofLines (answer.getD []) key else []
  | .claims mappings (.verified claims) => mappedValues mappings claims
  | .claims _ _ => fun _ => []
  | .oidc session => fun key =>
    match session with
    | none => []
    | some claims =>
      if key = lit "X-Forwarded-User" then claims.sub.toList
      else if key = lit "X-Forwarded-Email" then claims.email.toList
      else if key = lit "X-Forwarded-Name" then claims.name.toList
      else []
  | .xfcc cert => fun key => if key = lit "X-Forwarded-Client-Cert" then (cert.map xfccHeader).toList else []

def Reads (names : List GoString) (key : GoString) : Prop := foldHeaderName key ∈ names.map foldHeaderName

-- Every spelling of a managed name has the gateway's values only.
def Vouched (pass : Pass Cert) (h : Header) : Prop := ∀ key, Reads (managed pass) key → ∀ value ∈ h key, value ∈ taken xfccHeader pass key

-- The alias sweep runs in ForwardAuth and in the claim mapping only.
def swept : Pass Cert → Bool
  | .forwardAuth _ _ | .claims _ _ => true
  | .oidc _ | .xfcc _ => false

def Handled (pass : Pass Cert) (key : GoString) : Prop :=
  key ∈ (managed pass).map canonicalMIMEHeaderKey ∨ (swept pass ∧ isSeparated key)

def Complete : Pass Cert → Prop
  | .oidc (some session) => session.sub.isSome ∧ session.email.isSome ∧ session.name.isSome
  | _ => True

section
variable {h : Header} {key : GoString} {xfccHeader : Cert → GoString}

theorem parseListStrict_trimmed (mem : name ∈ parseListStrict text) : trimSpace name = name := by
  unfold parseListStrict at mem
  split at mem
  · cases mem
  · obtain ⟨piece,_,rfl⟩ := List.mem_map.mp (mem_of_mem_filter mem); exact trimSpace_idem piece

section
variable {names : List GoString} (trimmed : ∀ name ∈ names, trimSpace name = name)

theorem cleared_plain (plain : isSeparated key = false) : stripHeaderAliases ((names.map canonicalMIMEHeaderKey).foldl Header.del h) names key =
    if key ∈ names.map canonicalMIMEHeaderKey then [] else h key := by
  have twice : (names.map canonicalMIMEHeaderKey).map canonicalMIMEHeaderKey = names.map canonicalMIMEHeaderKey := by simp [canonical_idem]
  rw [strip_plain plain,dels_apply,twice]

include trimmed

theorem authResponseSet_trimmed : (names.map fun h => canonicalMIMEHeaderKey (trimSpace h)) = names.map canonicalMIMEHeaderKey := by
  apply map_congr_left
  intro name mem
  rw [trimmed name mem]

theorem forwardAuth_handled (reads : Reads names key) (handled : key ∈ names.map canonicalMIMEHeaderKey ∨ isSeparated key) :
    ∀ value ∈ forwardAuth names answer h key, key ∈ names.map canonicalMIMEHeaderKey ∧ value ∈ Header.ofLines (answer.getD []) key := by
  have cleared : stripHeaderAliases ((names.map canonicalMIMEHeaderKey).foldl Header.del h) names key = [] := by
    cases separated : isSeparated key with
    | true => exact strip_alias separated reads
    | false => rw [cleared_plain separated,if_pos (handled.resolve_right (by simp [separated]))]
  intro value mem
  unfold forwardAuth at mem
  rw [authResponseSet_trimmed trimmed] at mem
  cases answer with
  | none => simp only [cleared] at mem; cases mem
  | some lines =>
    simp only [cleared] at mem
    split at mem
    · rename_i listed
      refine ⟨by simpa using listed,?_⟩
      split at mem
      · rename_i last found
        rw [mem_singleton.mp mem]
        exact mem_of_getLast? found
      · cases mem
    · cases mem

theorem forwardAuth_unhandled (plain : isSeparated key = false) (unmanaged : key ∉ names.map canonicalMIMEHeaderKey) :
    forwardAuth names answer h key = h key := by
  have kept := (cleared_plain (h := h) plain).trans (if_neg unmanaged)
  unfold forwardAuth
  rw [authResponseSet_trimmed trimmed]
  cases answer with
  | none => exact kept
  | some lines =>
    simp only [kept]
    rw [if_neg]
    simpa using unmanaged

end

section
variable {mappings : List (GoString × GoString)}

theorem mapClaim_apply (claims : GoString → Option GoString) (h : Header) (mapping : GoString × GoString) (key : GoString) :
    mapClaim claims h mapping key =
      if key = canonicalMIMEHeaderKey mapping.2 then (claims mapping.1).toList else stripHeaderAliases h [mapping.2] key := by
  unfold mapClaim
  cases claims mapping.1 with
  | some value => simp [set_apply]
  | none => simp [del_apply]

theorem mapClaims_handled (reads : Reads (mappings.map Prod.snd) key)
    (handled : key ∈ (mappings.map Prod.snd).map canonicalMIMEHeaderKey ∨ isSeparated key) :
    ∀ value ∈ mapClaimsToHeaders mappings claims h key, value ∈ mappedValues mappings claims key := by
  induction mappings using List.reverseRecOn with
  | nil => cases reads
  | append_singleton mappings last ih =>
    intro value mem
    unfold mapClaimsToHeaders at mem ih
    rw [foldl_append,foldl_cons,foldl_nil,mapClaim_apply] at mem
    unfold mappedValues at ih ⊢
    rw [filterMap_append,mem_append]
    split at mem
    · rename_i same
      right
      simpa [← same] using mem
    rename_i other
    left
    cases separated : isSeparated key with
    | true =>
      by_cases folds : foldHeaderName key = foldHeaderName last.2
      · rw [strip_alias separated (by simp [folds])] at mem; cases mem
      · rw [strip_other (by simp [folds])] at mem
        refine ih ?_ (.inr separated) value mem
        simpa [Reads,folds] using reads
    | false =>
      rw [strip_plain separated] at mem
      have earlier : key ∈ (mappings.map Prod.snd).map canonicalMIMEHeaderKey := by
        rw [separated] at handled
        simpa [other] using handled
      refine ih ?_ (.inl earlier) value mem
      obtain ⟨name,listed,rfl⟩ := List.mem_map.mp earlier
      exact List.mem_map.mpr ⟨name,listed,(canonical_fold name).symm⟩

theorem mapClaims_unhandled (plain : isSeparated key = false) (unmanaged : key ∉ (mappings.map Prod.snd).map canonicalMIMEHeaderKey) :
    mapClaimsToHeaders mappings claims h key = h key := by
  unfold mapClaimsToHeaders
  induction mappings generalizing h with
  | nil => rfl
  | cons mapping mappings ih =>
    simp only [map_cons,mem_cons,not_or] at unmanaged
    rw [foldl_cons,ih unmanaged.2,mapClaim_apply,if_neg unmanaged.1,strip_plain plain]

theorem mappedValues_unmanaged (unmanaged : key ∉ (mappings.map Prod.snd).map canonicalMIMEHeaderKey) :
    mappedValues mappings claims key = [] := by
  unfold mappedValues
  rw [filterMap_eq_nil_iff]
  intro mapping mem
  rw [if_neg]
  intro same
  exact unmanaged (List.mem_map.mpr ⟨_,List.mem_map_of_mem mem,same⟩)

end

theorem stripMapped_eq (mappings : List (GoString × GoString)) (h : Header) :
    stripMappedHeaders mappings h = mapClaimsToHeaders mappings (fun _ => none) h := by
  have round : ∀ h mapping, stripHeaderAliases (Header.del h mapping.2) [mapping.2] = mapClaim (fun _ => none) h mapping := by
    intro h mapping
    funext key
    rw [mapClaim_apply]
    simp only [stripHeaderAliases,del_apply]
    split
    · split <;> rfl
    · rfl
  unfold stripMappedHeaders mapClaimsToHeaders
  congr 1
  funext h mapping
  exact round h mapping

theorem mappedValues_none : mappedValues mappings (fun _ => none) key = [] := by
  simp [mappedValues]
theorem oidcHeaders_canonical : oidcHeaders.map canonicalMIMEHeaderKey = oidcHeaders ∧ oidcHeaders.Nodup := by decide

theorem oidcServe_apply (session : Session) (h : Header) (key : GoString) : oidcServe (some session) h key =
      if key = lit "X-Forwarded-Name" then [session.name.getD []]
      else if key = lit "X-Forwarded-Email" then [session.email.getD []]
      else if key = lit "X-Forwarded-User" then [session.sub.getD []] else h key := by
  obtain ⟨canonical,_⟩ := oidcHeaders_canonical
  simp only [oidcHeaders,map_cons,map_nil,List.cons.injEq,and_true] at canonical
  obtain ⟨user,email,name⟩ := canonical
  simp only [oidcServe,set_apply,dels_apply,oidcHeaders,map_cons,map_nil,user,email,name,mem_cons,
    not_mem_nil,or_false]
  grind

theorem oidc_dels (h : Header) (key : GoString) : oidcServe none h key = if key ∈ oidcHeaders then [] else h key := by
  simp only [oidcServe,dels_apply,oidcHeaders_canonical.1]
theorem xfcc_named : canonicalMIMEHeaderKey (lit "X-Forwarded-Client-Cert") = lit "X-Forwarded-Client-Cert" := by decide

theorem passedOn_handled (pass : Pass Cert) (complete : Complete pass) (reads : Reads (managed pass) key)
    (handled : Handled pass key) : ∀ value ∈ passedOn xfccHeader pass h key, value ∈ taken xfccHeader pass key := by
  unfold Handled at handled
  cases pass with
  | forwardAuth text answer =>
    intro value mem
    obtain ⟨listed,answered⟩ := forwardAuth_handled (fun _ => parseListStrict_trimmed) reads (by simpa [managed,swept] using handled) value mem
    simpa [taken,listed] using answered
  | claims mappings exit =>
    have covered : key ∈ (mappings.map Prod.snd).map canonicalMIMEHeaderKey ∨ isSeparated key := by
      simpa [managed,swept] using handled
    have unmapped : ∀ value ∈ mapClaimsToHeaders mappings (fun _ => none) h key, value ∈ [] :=
      mappedValues_none ▸ mapClaims_handled reads covered
    cases exit with
    | preflight => rw [passedOn,stripMapped_eq]; exact unmapped
    | dryRun => exact unmapped
    | verified claims => exact mapClaims_handled reads covered
  | oidc session =>
    have listed : key ∈ oidcHeaders := by simpa [managed,swept,oidcHeaders_canonical.1] using handled
    cases session with
    | none => simp [passedOn,oidc_dels,listed]
    | some session =>
      obtain ⟨sub,email,name⟩ := complete
      rw [passedOn,oidcServe_apply]
      simp only [oidcHeaders,mem_cons,not_mem_nil,or_false] at listed
      obtain ⟨_,apart⟩ := oidcHeaders_canonical
      simp only [oidcHeaders,nodup_cons,mem_cons,not_mem_nil,or_false,not_or] at apart
      obtain ⟨sub',subAt⟩ := isSome_iff_exists.mp sub
      obtain ⟨email',emailAt⟩ := isSome_iff_exists.mp email
      obtain ⟨name',nameAt⟩ := isSome_iff_exists.mp name
      rcases listed with rfl | rfl | rfl
      · simp [taken,apart,subAt]
      · simp [taken,apart,Ne.symm apart.1.1,emailAt]
      · simp [taken,Ne.symm apart.1.2,Ne.symm apart.2.1,nameAt]
  | xfcc cert =>
    have listed : key = lit "X-Forwarded-Client-Cert" := by simpa [managed,swept,xfcc_named] using handled
    cases cert with
    | none => simp [passedOn,xfcc,del_apply,xfcc_named,listed]
    | some cert =>
      by_cases empty : xfccHeader cert = []
      · simp [passedOn,xfcc,del_apply,xfcc_named,listed,empty]
      · simp [passedOn,xfcc,set_apply,xfcc_named,listed,empty,taken]

theorem passedOn_unhandled (xfccHeader : Cert → GoString) (pass : Pass Cert) (h : Header) (unhandled : ¬ Handled pass key) :
    passedOn xfccHeader pass h key = h key ∧ taken xfccHeader pass key = [] := by
  unfold Handled at unhandled
  cases pass with
  | forwardAuth text answer =>
    simp only [managed,swept,true_and,not_or,Bool.not_eq_true] at unhandled
    obtain ⟨unmanaged,plain⟩ := unhandled
    exact ⟨forwardAuth_unhandled (fun _ => parseListStrict_trimmed) plain unmanaged,by simp only [taken,unmanaged,if_false]⟩
  | claims mappings exit =>
    simp only [managed,swept,true_and,not_or,Bool.not_eq_true] at unhandled
    obtain ⟨unmanaged,plain⟩ := unhandled
    cases exit with
    | preflight => rw [passedOn,stripMapped_eq]; exact ⟨mapClaims_unhandled plain unmanaged,rfl⟩
    | dryRun => exact ⟨mapClaims_unhandled plain unmanaged,rfl⟩
    | verified claims => exact ⟨mapClaims_unhandled plain unmanaged,mappedValues_unmanaged unmanaged⟩
  | oidc session =>
    have unlisted : key ∉ oidcHeaders := by simpa [managed,swept,oidcHeaders_canonical.1] using unhandled
    cases session with
    | none => simp [passedOn,oidc_dels,unlisted,taken]
    | some session =>
      simp only [oidcHeaders,mem_cons,not_mem_nil,or_false,not_or] at unlisted
      simp [passedOn,oidcServe_apply,unlisted,taken]
  | xfcc cert =>
    have unlisted : key ≠ lit "X-Forwarded-Client-Cert" := by simpa [managed,swept,xfcc_named] using unhandled
    cases cert with
    | none => simp [passedOn,xfcc,del_apply,xfcc_named,unlisted,taken]
    | some cert =>
      by_cases empty : xfccHeader cert = []
      · simp [passedOn,xfcc,del_apply,xfcc_named,unlisted,empty,taken]
      · simp [passedOn,xfcc,set_apply,del_apply,xfcc_named,unlisted,empty,taken]

theorem vouched_complete (pass : Pass Cert) (vouched : Vouched xfccHeader pass (passedOn xfccHeader pass h)) : Complete pass := by
  cases pass with
  | forwardAuth text answer | claims mappings exit | xfcc cert => trivial
  | oidc session =>
    cases session with
    | none => trivial
    | some session =>
      have all : ∀ key ∈ oidcHeaders, ∀ claim : Option GoString,
          (claim = none → oidcServe (some session) h key = [[]] ∧ taken xfccHeader (.oidc (some session)) key = []) → claim.isSome := by
        intro key listed claim absent
        by_contra missing
        obtain ⟨written,empty⟩ := absent (not_isSome_iff_eq_none.mp missing)
        have held := vouched key (List.mem_map_of_mem listed) [] (by rw [passedOn,written]; simp)
        rw [empty] at held
        cases held
      obtain ⟨_,apart⟩ := oidcHeaders_canonical
      simp only [oidcHeaders,nodup_cons,mem_cons,not_mem_nil,or_false,not_or] at apart
      refine ⟨all (lit "X-Forwarded-User") (by simp [oidcHeaders]) _ fun absent => ?_,
        all (lit "X-Forwarded-Email") (by simp [oidcHeaders]) _ fun absent => ?_,
        all (lit "X-Forwarded-Name") (by simp [oidcHeaders]) _ fun absent => ?_⟩
      · simp [oidcServe_apply,apart,taken,absent]
      · simp [oidcServe_apply,apart,taken,Ne.symm apart.1.1,absent]
      · simp [oidcServe_apply,taken,Ne.symm apart.1.2,Ne.symm apart.2.1,absent]

end

theorem identity_vouched (pass : Pass Cert) (lines : List (GoString × GoString)) :
    Vouched xfccHeader pass (passedOn xfccHeader pass (Header.ofLines lines)) ↔
      (∀ line ∈ lines, Reads (managed pass) line.1 → Handled pass (canonicalMIMEHeaderKey line.1)) ∧ Complete pass := by
  constructor
  · intro vouched
    refine ⟨?_,vouched_complete pass vouched⟩
    intro line mem reads
    by_contra unhandled
    obtain ⟨kept,nothing⟩ := passedOn_unhandled xfccHeader pass (Header.ofLines lines) unhandled
    have present : line.2 ∈ Header.ofLines lines (canonicalMIMEHeaderKey line.1) :=
      List.mem_map.mpr ⟨line,List.mem_filter.mpr ⟨mem,beq_self_eq_true _⟩,rfl⟩
    have held := vouched (canonicalMIMEHeaderKey line.1) (by rw [Reads,canonical_fold]; exact reads) line.2 (by rw [kept]; exact present)
    rw [nothing] at held
    cases held
  · intro ⟨covered,complete⟩ key reads
    by_cases handled : Handled pass key
    · exact passedOn_handled pass complete reads handled
    obtain ⟨kept,_⟩ := passedOn_unhandled xfccHeader pass (Header.ofLines lines) handled
    intro value held
    rw [kept] at held
    obtain ⟨line,mem,named⟩ := ofLines_present (ne_nil_of_mem held)
    subst named
    rw [Reads,canonical_fold] at reads
    exact absurd (covered line mem reads) handled

-- An alias of a fixed name, a hyphenated spelling, a token without an email claim.
theorem identity_forged :
    let session : Session := {sub := some (lit "alice"),email := none,name := some (lit "Alice")}
    passedOn id (.oidc (some session)) (Header.ofLines [(lit "X_Forwarded_User",lit "admin")]) (lit "X_forwarded_user") =
        [lit "admin"] ∧
      passedOn id (.oidc (some session)) (Header.ofLines []) (lit "X-Forwarded-Email") = [[]] ∧
      passedOn id (.xfcc none) (Header.ofLines [(lit "X_Forwarded_Client_Cert",lit "By=admin")]) (lit "X_forwarded_client_cert") =
        [lit "By=admin"] ∧
      passedOn id (.forwardAuth (lit "X_Auth_User") (some [(lit "X_Auth_User",lit "alice")]))
        (Header.ofLines [(lit "X-Auth-User",lit "admin")]) (lit "X-Auth-User") = [lit "admin"] ∧
      passedOn id (.claims [(lit "sub",lit "X.User")] .preflight) (Header.ofLines [(lit "X-User",lit "admin")]) (lit "X-User") =
        [lit "admin"] := by
  decide

end Gateon.Auth.IdentityHeaders
