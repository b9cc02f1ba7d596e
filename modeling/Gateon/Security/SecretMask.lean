import Gateon.Go.Trim
import Gateon.Lib.KeyedStore

namespace Gateon.Security
open Go KeyedStore List

abbrev Settings := Store (Prod.fst : GoString × GoString → GoString)

def Settings.lookup (config : Settings) (k : GoString) : Option GoString := (config.get k).map Prod.snd
def Settings.at (config : Settings) (k : GoString) : GoString := (Settings.lookup config k).getD []
def Settings.keys (config : Settings) : List GoString := config.rows.map Prod.fst

theorem lookup_row {config : Settings} : Settings.lookup config k = some v ↔ (k,v) ∈ config.rows := by
  rw [Settings.lookup,Option.map_eq_some_iff]
  constructor
  · rintro ⟨row,found,rfl⟩
    obtain ⟨member,rfl⟩ := get_eq_some.mp found
    exact member
  · intro member; exact ⟨(k,v),get_eq_some.mpr ⟨member,rfl⟩,rfl⟩
def Placeholder : GoString := lit "__gateon_redacted__"
def secretKeys : List GoString :=
  [lit "secret",lit "secret_key",lit "client_secret",lit "password",lit "users",lit "canary_token"]
def publicKeys : List GoString := [lit "site_key",lit "public_key",lit "token_type_hint",lit "allow_credentials"]
def secretFragments : List GoString :=
  [lit "secret",lit "password",lit "passwd",lit "passphrase",lit "private_key",lit "api_key",lit "credential"]

def isSecret (u : Tables) (key : GoString) : Bool :=
  let k := toLower u (trimSpace key)
  if k ∈ publicKeys then false
  else if k ∈ secretKeys then true
  else secretFragments.any (contains k) || k == lit "token" || hasSuffix k (lit "_token")

def credentialHeaders : List GoString := [lit "authorization",lit "proxy-authorization",lit "cookie",lit "set-cookie"]
def credentialFragments : List GoString :=
  [lit "token",lit "secret",lit "passw",lit "key",lit "auth",lit "session",lit "credential",lit "signature",lit "bearer",lit "jwt"]
def hasLowerPrefixFold (s pre : GoString) : Bool := hasPrefix (s.map lowerByte) pre
def containsFold (s sub : GoString) : Bool := s.tails.any fun rest => hasLowerPrefixFold rest sub

def isCredentialName (u : Tables) (name : GoString) : Bool :=
  let n := trimSpace name
  credentialHeaders.any (equalFold u n) || credentialFragments.any (containsFold n)

def held (config : Settings) : List GoString :=
  sorted ((config.rows.filter fun (k,v) => contains k Placeholder || contains v Placeholder).map Prod.fst)

end Gateon.Security
