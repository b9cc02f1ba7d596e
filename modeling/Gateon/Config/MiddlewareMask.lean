import Gateon.Config.MiddlewareSecret

namespace Gateon.Config
open Go KeyedStore Security
open Option (ext filter_eq_some_iff isSome_iff_exists map_eq_some_iff map_some)
open List hiding contains

-- The keyed hash fingerprints are cut from: 32 bytes for every text.
structure Digest where
  sum : GoString → GoString
  long : ∀ text, (sum text).length = 32

section
variable (mac : Digest) (middlewareID apiKey : GoString)

def fingerprint : GoString :=
  hexEncode ((mac.sum (middlewareID ++ 0 :: apiKey)).take 8)
def apiKeyMarker : GoString :=
  apiKeyPrefix ++ Placeholder ++ lit "_" ++ fingerprint mac middlewareID apiKey

end

def maskValue (v : GoString) (reader : Bool) : GoString :=
  if v = [] then []
  else if !reader && isReference v then v
  else Placeholder

def maskUser (user : User) : User := if user.password ≠ [] then { user with password := Placeholder } else user

-- A value resolved as a whole, or that is no list, is one secret.
def maskUsers (v : GoString) (reader : Bool) : GoString :=
  if v == [] || reader || isOpaque v then maskValue v reader
  else match parseUsers v with
    | none => Placeholder
    | some users => joinUsers (users.map maskUser)

section
variable (u : Tables) (mac : Digest) (mw : Middleware) (reader : Bool)

def maskEntry (row : GoString × GoString) : GoString × GoString :=
  match classify u mw.type row.1 with
  | .keyName => (apiKeyMarker mac mw.id (row.1.drop apiKeyPrefix.length),row.2)
  | .userList => (row.1,maskUsers row.2 reader)
  | .scalar => (row.1,maskValue row.2 reader)
  | .plain => (row.1,if (setName mw.type row.1).isSome && reader then maskValue row.2 true else row.2)

def masked : Middleware :=
  { mw with config := Store.empty.load (mw.config.rows.map (maskEntry u mac mw reader)) }

end

def renewed (users : List User) (user : User) : User :=
  if user.password = [] then user else { user with password := (lastPassword users user.name).getD [] }
def keptUser (users : List User) (user : User) : Option User :=
  if user.password ≠ [] ∧ lastPassword users user.name = some [] then none else some (renewed users user)

def settled (v : GoString) : Option GoString :=
  if v == [] || isOpaque v then some v
  else match parseUsers v with
    | none => some v
    | some users => (users.mapM (keptUser users)).map joinUsers

def returned (row : GoString × GoString) : Option (GoString × GoString) :=
  if row.1 = usersKey then (settled row.2).map fun v => (row.1,v) else some row

-- No placeholder in it, and fingerprints that tell its API keys apart.
structure Clean (mac : Digest) (mw : Middleware) : Prop where
  unmarked : ∀ row ∈ mw.config.rows, contains row.1 Placeholder = false ∧ contains row.2 Placeholder = false
  separate : ∀ a b, a ≠ [] → b ≠ [] → apiKeyPrefix ++ a ∈ Settings.keys mw.config → apiKeyPrefix ++ b ∈ Settings.keys mw.config →
    fingerprint mac mw.id a = fingerprint mac mw.id b → a = b

variable {config : Settings}

theorem at_row (member : row ∈ config.rows) : Settings.at config row.1 = row.2 := by
  rw [Settings.at,Settings.lookup,get_eq_some.mpr ⟨member,rfl⟩]
  rfl

theorem classify_keyName : classify u t k = .keyName ↔ ∃ apiKey ≠ [], k = apiKeyPrefix ++ apiKey := by
  unfold classify
  constructor
  · intro kind
    split at kind
    · rename_i nonempty
      cases found : cutPrefix k apiKeyPrefix with
      | none => simp [found] at nonempty
      | some apiKey => exact ⟨apiKey,by simpa [found] using nonempty,cutPrefix_append.mp found⟩
    · (repeat' split at kind) <;> cases kind
  · rintro ⟨apiKey,filled,rfl⟩
    rw [if_pos]
    rw [cutPrefix_append.mpr rfl]
    simpa using filled

theorem classify_users : classify u t k = .userList ↔ k = usersKey := by
  unfold classify
  constructor
  · intro kind
    split at kind
    · cases kind
    · split at kind
      · assumption
      · (repeat' split at kind) <;> cases kind
  · rintro rfl; rw [if_neg (by decide),if_pos rfl]

theorem not_users (kind : classify u t k ≠ .userList) : k ≠ usersKey := fun same => kind (classify_users.mpr same)
theorem placeholder_marked : contains Placeholder Placeholder := by decide
theorem hexDigit_marker : ∀ n < 16, ((48 ≤ hexDigit n && hexDigit n ≤ 57) || (97 ≤ hexDigit n && hexDigit n ≤ 102)) := by decide

section
variable (mac : Digest) (id apiKey : GoString)

theorem fingerprint_length : (fingerprint mac id apiKey).length = 16 := by
  have pairs (bytes : List UInt8) : (hexEncode bytes).length = 2 * bytes.length := by
    simp [hexEncode,hexPad_two,length_flatMap,Nat.mul_comm]
  rw [fingerprint,pairs,length_take,mac.long]
  decide

theorem marker_fingerprint : markerFingerprint (apiKeyMarker mac id apiKey) = some (fingerprint mac id apiKey) := by
  rw [markerFingerprint,apiKeyMarker,cutPrefix_append.mpr rfl,filter_eq_some_iff]
  refine ⟨rfl,?_⟩
  simp only [fingerprint_length,decide_true,Bool.true_and,all_eq_true]
  intro b member
  obtain ⟨n,small,rfl⟩ := hexEncode_digits member
  exact hexDigit_marker n small

theorem marker_marked : contains (apiKeyMarker mac id apiKey) Placeholder :=
  contains_iff.mpr ⟨apiKeyPrefix,lit "_" ++ fingerprint mac id apiKey,by simp [apiKeyMarker]⟩

end

theorem storedAPIKey_found (clean : Clean mac mw) (filled : apiKey ≠ []) (member : apiKeyPrefix ++ apiKey ∈ Settings.keys mw.config)
    (unmarked : contains apiKey Placeholder = false) :
    storedAPIKey (fingerprint mac) mw.id mw.config (fingerprint mac mw.id apiKey) = some apiKey := by
  have passes : (cutPrefix (apiKeyPrefix ++ apiKey) apiKeyPrefix).filter (fun a =>
      a ≠ [] && !contains a Placeholder && fingerprint mac mw.id a == fingerprint mac mw.id apiKey) = some apiKey := by
    rw [cutPrefix_append.mpr rfl,filter_eq_some_iff]
    simp [filled,unmarked]
  cases found : storedAPIKey (fingerprint mac) mw.id mw.config (fingerprint mac mw.id apiKey) with
  | none =>
    rw [storedAPIKey,findSome?_eq_none_iff] at found
    rw [found _ member] at passes
    cases passes
  | some other =>
    obtain ⟨k,inside,chosen⟩ := exists_of_findSome?_eq_some found
    obtain ⟨cut,same⟩ := filter_eq_some_iff.mp chosen
    simp only [Bool.and_eq_true,decide_eq_true_eq,beq_iff_eq] at same
    obtain ⟨⟨otherFilled,_⟩,prints⟩ := same
    rw [cutPrefix_append.mp cut] at inside
    rw [clean.separate other apiKey otherFilled filled inside member prints]

theorem unmarked_inside (inside : part <:+: whole) (free : contains whole Placeholder = false) : contains part Placeholder = false := by
  rw [Bool.eq_false_iff,Ne,contains_iff] at free ⊢
  exact fun held => free (held.trans inside)

theorem key_unmarked (clean : Clean mac mw) (member : apiKeyPrefix ++ apiKey ∈ Settings.keys mw.config) :
    contains apiKey Placeholder = false := by
  obtain ⟨row,inside,same⟩ := mem_map.mp member
  exact unmarked_inside (suffix_append apiKeyPrefix apiKey).isInfix (same ▸ (clean.unmarked row inside).1)

theorem maskEntry_cases (u : Tables) (reader : Bool) (clean : Clean mac mw) (member : row ∈ mw.config.rows) :
    (∃ a ≠ [], row.1 = apiKeyPrefix ++ a ∧ (maskEntry u mac mw reader row).1 = apiKeyMarker mac mw.id a) ∨
      ((maskEntry u mac mw reader row).1 = row.1 ∧ contains row.1 Placeholder = false) := by
  cases kind : classify u mw.type row.1 with
  | keyName =>
    obtain ⟨a,filled,shape⟩ := classify_keyName.mp kind
    refine .inl ⟨a,filled,shape,?_⟩
    rw [maskEntry,kind]
    simp [shape]
  | plain | scalar | userList => refine .inr ⟨?_,(clean.unmarked row member).1⟩; rw [maskEntry,kind]

theorem maskEntry_key (clean : Clean mac mw) (one : row ∈ mw.config.rows) (two : other ∈ mw.config.rows)
    (same : (maskEntry u mac mw reader row).1 = (maskEntry u mac mw reader other).1) : row = other := by
  have keys : row.1 = other.1 := by
    rcases maskEntry_cases u reader clean one with ⟨a,filled,shape,marker⟩ | ⟨plain,free⟩
    · rcases maskEntry_cases u reader clean two with ⟨b,otherFilled,otherShape,otherMarker⟩ | ⟨otherPlain,otherFree⟩
      · have prints : fingerprint mac mw.id a = fingerprint mac mw.id b := by
          rw [marker,otherMarker] at same
          exact append_cancel_left same
        have held : apiKeyPrefix ++ a ∈ Settings.keys mw.config := shape ▸ mem_map_of_mem one
        have otherHeld : apiKeyPrefix ++ b ∈ Settings.keys mw.config := otherShape ▸ mem_map_of_mem two
        rw [shape,otherShape,clean.separate a b filled otherFilled held otherHeld prints]
      · rw [marker,otherPlain] at same
        rw [← same,marker_marked] at otherFree
        cases otherFree
    · rcases maskEntry_cases u reader clean two with ⟨b,_,_,otherMarker⟩ | ⟨otherPlain,_⟩
      · rw [plain,otherMarker] at same
        rw [same,marker_marked] at free
        cases free
      · rwa [plain,otherPlain] at same
  have found := get_eq_some.mpr ⟨one,keys⟩
  rw [get_eq_some.mpr ⟨two,rfl⟩] at found
  exact (Option.some.inj found).symm

theorem shown_distinct (u : Tables) (reader : Bool) (clean : Clean mac mw) : ((mw.config.rows.map (maskEntry u mac mw reader)).map Prod.fst).Nodup := by
  rw [map_map]
  refine List.Nodup.map_on ?_ mw.config.distinct.of_map
  intro row one other two same
  exact maskEntry_key clean one two same

theorem mem_masked (clean : Clean mac mw) :
    row ∈ (masked u mac mw reader).config.rows ↔ ∃ r ∈ mw.config.rows, maskEntry u mac mw reader r = row := by
  rw [masked,mem_load (shown_distinct u reader clean),mem_map]
  simp [Store.empty]

theorem at_masked (u : Tables) (reader : Bool) (clean : Clean mac mw) (member : row ∈ mw.config.rows) :
    Settings.at (masked u mac mw reader).config (maskEntry u mac mw reader row).1 = (maskEntry u mac mw reader row).2 :=
  at_row ((mem_masked clean).mpr ⟨row,member,rfl⟩)

theorem lastPassword_some (member : user ∈ users) : ∃ password, lastPassword users user.name = some password := by
  have found : (users.reverse.find? (·.name = user.name)).isSome := by
    rw [find?_isSome]
    exact ⟨user,mem_reverse.mpr member,by simp⟩
  obtain ⟨last,same⟩ := isSome_iff_exists.mp found
  exact ⟨last.password,by rw [lastPassword,same]; rfl⟩

theorem restoreUser_masked (parsed : parseUsers v = some users) (literal : isOpaque v = false) (stored : Settings.at config k = v)
    (free : contains v Placeholder = false) (member : user ∈ users) : restoreUser config k (maskUser user) = keptUser users user := by
  have unmarked := unmarked_inside (parse_plain parsed user member).2 free
  have parts : contains user.name Placeholder = false ∧ contains user.password Placeholder = false := by
    rwa [Bool.eq_false_iff,Ne,contains_entry,not_or,← Ne,← Ne,← Bool.eq_false_iff,← Bool.eq_false_iff] at unmarked
  obtain ⟨last,found⟩ := lastPassword_some member
  have byName : usersByName v user.name = lastPassword users user.name := by
    rw [usersByName,if_neg (by simp [literal]),parsed]
    rfl
  unfold restoreUser maskUser keptUser renewed
  by_cases empty : user.password = []
  · have blank : Placeholder ≠ [] := by decide
    simp [empty,parts.1,blank.symm,show contains [] Placeholder = false by decide]
  · by_cases gone : last = [] <;> simp [empty,parts.1,stored,byName,found,gone]

theorem maskUser_plain (plain : user.Plain) : (maskUser user).Plain := by
  unfold maskUser
  split
  · have solid : ∀ p ∈ spaces, ¬ p <:+ Placeholder := by decide
    exact ⟨plain.colon,⟨plain.comma.1,placeholder_comma⟩,plain.lead,solid⟩
  · exact plain

theorem mapM_kept {users : List User} {f : User → Option User} {mask : User → User} (each : ∀ user ∈ users, f (mask user) = g user) :
    (users.map mask).mapM f = users.mapM g := by
  refine ext fun out => ?_
  rw [mapM_some_iff,mapM_some_iff,map_map,map_congr_left (f := f ∘ mask) each]

theorem list_parts (literal : isOpaque v = false) (parsed : parseUsers v = some users) :
    maskUsers v false = joinUsers (users.map maskUser) ∧ settled v = (users.mapM (keptUser users)).map joinUsers := by
  unfold maskUsers settled
  by_cases empty : v = []
  · subst empty
    cases parsed
    exact ⟨rfl,rfl⟩
  · simp [empty,literal,parsed]

variable {update : Middleware}

theorem restoreEntry_list {stored out : Settings} (literal : isOpaque v = false) (parsed : parseUsers v = some users)
    (free : contains v Placeholder = false) (kept : Settings.at stored usersKey = v)
    (shown : Settings.at update.config usersKey = joinUsers (users.map maskUser)) (absent : out.get usersKey = none) :
    restoreEntry u print update stored usersKey out = (settled v).map fun v => out.put (usersKey,v) := by
  have plain := parse_plain parsed
  have each : ∀ user ∈ users, restoreUser stored usersKey (maskUser user) = keptUser users user :=
    fun user => restoreUser_masked parsed literal kept free
  rw [(list_parts literal parsed).2]
  unfold restoreEntry
  rw [shown,if_neg (by decide)]
  cases marked : contains (joinUsers (users.map maskUser)) Placeholder with
  | false =>
    have bare : ∀ user ∈ users, user.password = [] := by
      intro user member
      by_contra filled
      rw [Bool.eq_false_iff,Ne,contains_joinUsers] at marked
      refine marked ⟨maskUser user,mem_map_of_mem member,.inr ?_⟩
      rw [maskUser,if_pos filled]
      exact placeholder_marked
    have same : users.map maskUser = users := by
      rw [map_congr_left (g := fun user => user),map_id']
      intro user member
      simp [maskUser,bare user member]
    have all : users.mapM (keptUser users) = some users := by
      rw [mapM_forall₂,forall₂_same]
      intro user member
      simp [keptUser,renewed,bare user member]
    simp [absent,same,all]
  | true =>
    have back : parseUsers (joinUsers (users.map maskUser)) = some (users.map maskUser) :=
      parse_join _ (forall_mem_map.mpr fun user member => maskUser_plain (plain user member).1)
    have apart : joinUsers (users.map maskUser) ≠ Placeholder := by
      intro same
      rw [same] at back
      cases back
    rw [classify_users.mpr rfl]
    rw [restoreUsers,if_neg apart,back,Option.bind_some,mapM_kept each,Option.map_map]
    rfl

theorem restoreScalar_stored (kept : Settings.at stored k = v) (filled : v ≠ []) :
    restoreScalar stored k Placeholder out = some (out.put (k,v)) := by
  simp [restoreScalar,kept,filled]

theorem restoreEntry_value (clear : contains k Placeholder = false)
    (free : contains v Placeholder = false) (shown : Settings.at update.config k = v) (absent : out.get k = none) :
    restoreEntry u print update stored k out = some (out.put (k,v)) := by
  simp [restoreEntry,shown,clear,free,absent]

theorem restoreEntry_users (free : contains v Placeholder = false)
    (kept : Settings.at stored usersKey = v) (shown : Settings.at update.config usersKey = maskUsers v false)
    (absent : out.get usersKey = none) :
    restoreEntry u print update stored usersKey out = (settled v).map fun v => out.put (usersKey,v) := by
  have clear : contains usersKey Placeholder = false := by decide
  have whole (filled : v ≠ []) (hidden : maskUsers v false = Placeholder) :
      restoreEntry u print update stored usersKey out = some (out.put (usersKey,v)) := by
    simp only [restoreEntry,shown,hidden,clear,placeholder_marked,Bool.false_eq_true,if_false,Bool.not_true,classify_users.mpr rfl]
    rw [restoreUsers,if_pos rfl,restoreScalar_stored kept filled]
  cases literal : isOpaque v with
  | true =>
    have filled : v ≠ [] := by rintro rfl; cases literal
    have settles : settled v = some v := by simp [settled,literal]
    rw [settles]
    cases reference : isReference v with
    | true =>
      have same : maskUsers v false = v := by simp [maskUsers,literal,maskValue,filled,reference]
      rw [same] at shown
      exact restoreEntry_value clear free shown absent
    | false => exact whole filled (by simp [maskUsers,literal,maskValue,filled,reference])
  | false =>
    cases parsed : parseUsers v with
    | some users =>
      rw [(list_parts literal parsed).1] at shown
      exact restoreEntry_list literal parsed free kept shown absent
    | none =>
      have filled : v ≠ [] := by rintro rfl; cases parsed
      have settles : settled v = some v := by simp [settled,literal,parsed]
      rw [settles]
      exact whole filled (by simp [maskUsers,literal,filled,parsed])

theorem restoreEntry_masked (clean : Clean mac mw) (member : row ∈ mw.config.rows) (absent : out.get row.1 = none) :
    restoreEntry u (fingerprint mac) (masked u mac mw false) mw.config (maskEntry u mac mw false row).1 out =
      (returned row).map out.put := by
  obtain ⟨clear,free⟩ := clean.unmarked row member
  have kept := at_row member
  have shown := at_masked u false clean member
  have type : (masked u mac mw false).type = mw.type := rfl
  cases kind : classify u mw.type row.1 with
  | keyName =>
    obtain ⟨apiKey,filled,shape⟩ := classify_keyName.mp kind
    have entry : maskEntry u mac mw false row = (apiKeyMarker mac mw.id apiKey,row.2) := by
      rw [maskEntry,kind]
      simp [shape]
    have held : apiKeyPrefix ++ apiKey ∈ Settings.keys mw.config := shape ▸ mem_map_of_mem member
    have other := not_users (kind.trans_ne (by decide))
    rw [entry] at shown ⊢
    rw [returned,if_neg other,restoreEntry,shown,if_pos (marker_marked ..),restoreAPIKey,marker_fingerprint,Option.bind_some,
      if_neg (by simp [free]),show (masked u mac mw false).id = mw.id from rfl,
      storedAPIKey_found clean filled held (key_unmarked clean held),Option.bind_some,← shape,absent]
    simp
  | userList =>
    have key := classify_users.mp kind
    have entry : maskEntry u mac mw false row = (usersKey,maskUsers row.2 false) := by rw [maskEntry,kind,key]
    rw [entry] at shown ⊢
    rw [key] at kept absent
    rw [returned,if_pos key,key,restoreEntry_users free kept shown absent,Option.map_map]
    rfl
  | scalar =>
    have other := not_users (kind.trans_ne (by decide))
    have entry : maskEntry u mac mw false row = (row.1,maskValue row.2 false) := by rw [maskEntry,kind]
    rw [entry] at shown ⊢
    rw [returned,if_neg other]
    by_cases same : maskValue row.2 false = row.2
    · rw [same] at shown; exact restoreEntry_value clear free shown absent
    have hidden : row.2 ≠ [] ∧ maskValue row.2 false = Placeholder := by
      unfold maskValue at same ⊢
      split at same
      · rename_i empty; exact absurd empty.symm same
      · split at same
        · exact absurd rfl same
        · rename_i filled plain; exact ⟨filled,by rw [if_neg filled,if_neg plain]⟩
    simp only [restoreEntry,shown,hidden.2,clear,placeholder_marked,Bool.false_eq_true,if_false,Bool.not_true,type,kind]
    rw [restoreScalar_stored kept hidden.1]
    rfl
  | plain =>
    have other := not_users (kind.trans_ne (by decide))
    have entry : maskEntry u mac mw false row = row := by rw [maskEntry,kind]; simp
    rw [entry] at shown ⊢
    rw [returned,if_neg other]
    exact restoreEntry_value clear free shown absent

theorem returned_key (back : returned row = some other) : other.1 = row.1 := by
  unfold returned at back
  split at back
  · obtain ⟨v,_,rfl⟩ := map_eq_some_iff.mp back; rfl
  · cases back; rfl

def describing : List GoString := [lit "type",lit "introspection_url",lit "issuer",lit "address"]

theorem describing_plain (key : k ∈ describing) : classify u t k = .plain := by
  have secret : isSecret u k = false := by
    simp only [describing,mem_cons,not_mem_nil,or_false] at key
    rcases key with rfl | rfl | rfl | rfl <;> rfl
  have checks : ∀ k ∈ describing, (cutPrefix k apiKeyPrefix).any (· ≠ []) = false ∧ k ≠ usersKey ∧ cutAny headerPrefixes k = none ∧
      cutAny [lit "query_"] k = none := by decide
  obtain ⟨notKey,notUsers,header,query⟩ := checks k key
  have unset : setName t k = none := by
    unfold setName nameSet
    rw [header,query]
    simp
  unfold classify
  rw [notKey,if_neg (by decide),if_neg notUsers,secret,unset]
  rfl

theorem at_describing (clean : Clean mac mw) (key : k ∈ describing) :
    Settings.at (masked u mac mw false).config k = Settings.at mw.config k := by
  have shown : ∀ row ∈ mw.config.rows, row.1 = k → maskEntry u mac mw false row = row := by
    intro row member same
    rw [maskEntry,same,describing_plain key]
    simp [← same]
  have clear : ∀ k ∈ describing, contains k Placeholder = false := by decide
  have same : Settings.lookup (masked u mac mw false).config k = Settings.lookup mw.config k := by
    refine ext fun v => ?_
    rw [lookup_row,lookup_row,mem_masked clean]
    constructor
    · rintro ⟨row,member,entry⟩
      have keys : row.1 = k := by
        rcases maskEntry_cases u false clean member with ⟨a,_,_,marker⟩ | ⟨own,_⟩
        · have marked := marker_marked mac mw.id a
          rw [← marker,entry,clear k key] at marked
          cases marked
        · rw [← own,entry]
      rwa [← entry,shown row member keys]
    · intro member; exact ⟨(k,v),member,shown _ member rfl⟩
  rw [Settings.at,Settings.at,same]

theorem keepable_masked (clean : Clean mac mw) : keepable (masked u mac mw false) mw := by
  have kind : identity (masked u mac mw false) = identity mw := by
    unfold identity
    rw [show (masked u mac mw false).type = mw.type from rfl,at_describing clean (by decide)]
  have destination : destinationKey (masked u mac mw false) = destinationKey mw := by rw [destinationKey,destinationKey,kind]
  have known : destinationKey mw = [] ∨ destinationKey mw ∈ describing := by
    unfold destinationKey
    repeat' split
    all_goals decide
  unfold keepable
  rw [kind,destination]
  rcases known with none | shown
  · simp [none]
  · simp [at_describing clean shown]

theorem held_none : held config = [] ↔ ∀ row ∈ config.rows, contains row.1 Placeholder = false ∧ contains row.2 Placeholder = false := by
  rw [held,sorted,← length_eq_zero_iff,length_insertionSort,length_eq_zero_iff,map_eq_nil_iff,filter_eq_nil_iff]
  simp

theorem returned_shown (clean : Clean mac mw) (nothing : held (masked u mac mw false).config = []) (member : row ∈ mw.config.rows) :
    returned row = some (maskEntry u mac mw false row) := by
  obtain ⟨clear,free⟩ := held_none.mp nothing _ ((mem_masked clean).mpr ⟨row,member,rfl⟩)
  have empty : ∀ k, (Store.empty : Settings).get k = none := fun k => rfl
  have back := restoreEntry_masked (u := u) clean member (empty row.1)
  rw [restoreEntry_value clear free (at_masked u false clean member) (empty _)] at back
  cases found : returned row with
  | none => rw [found] at back; cases back
  | some new =>
    rw [found] at back
    have rows := congrArg Store.rows (Option.some.inj back)
    exact congrArg some (cons.inj rows).1.symm

section
variable (u : Tables) (clean : Clean mac mw)
include u clean

theorem restore_masked :
    ∃ order : List (GoString × GoString), order.Perm mw.config.rows ∧ restore u (fingerprint mac) (masked u mac mw false) (some mw) =
      (order.mapM returned).map fun rows => { masked u mac mw false with config := Store.empty.load rows } := by
  by_cases nothing : held (masked u mac mw false).config = []
  · refine ⟨mw.config.rows,List.Perm.refl _,?_⟩
    have all : mw.config.rows.mapM returned = some (mw.config.rows.map (maskEntry u mac mw false)) := by
      rw [mapM_forall₂,forall₂_map_right_iff,forall₂_same]
      exact fun row => returned_shown clean nothing
    rw [restore,if_pos nothing,all]
    rfl
  have shown : (sorted (Settings.keys (masked u mac mw false).config)).Perm (mw.config.rows.map fun row => (maskEntry u mac mw false row).1) := by
    refine (perm_insertionSort NotAfter _).trans ?_
    have distinct : (mw.config.rows.map fun row => (maskEntry u mac mw false row).1).Nodup := by
      have entries := shown_distinct u false clean
      rwa [map_map] at entries
    refine (perm_ext_iff_of_nodup (masked u mac mw false).config.distinct distinct).mpr ?_
    intro k
    rw [mem_map,mem_map]
    constructor
    · rintro ⟨row,member,rfl⟩
      obtain ⟨r,inside,rfl⟩ := (mem_masked clean).mp member
      exact ⟨r,inside,rfl⟩
    · rintro ⟨r,inside,rfl⟩; exact ⟨_,(mem_masked clean).mpr ⟨r,inside,rfl⟩,rfl⟩
  obtain ⟨order,perm,keys⟩ := order_of_map shown
  refine ⟨order,perm,?_⟩
  have distinct : (order.map Prod.fst).Nodup := (perm.map Prod.fst).nodup_iff.mpr mw.config.distinct
  have folded := foldlM_put (fun out row => restoreEntry u (fingerprint mac) (masked u mac mw false) mw.config
      (maskEntry u mac mw false row).1 out) (fun row new => returned_key) distinct (Store.empty : Settings) (fun _ _ => rfl)
    fun row member out => restoreEntry_masked clean (perm.subset member)
  rw [restore,if_neg nothing,Option.bind_some,if_pos (keepable_masked clean),← keys,foldlM_map,folded,Option.map_map]
  rfl

theorem restore_masked_isSome :
    (restore u (fingerprint mac) (masked u mac mw false) (some mw)).isSome ↔ ∀ row ∈ mw.config.rows, (returned row).isSome := by
  obtain ⟨order,perm,whole⟩ := restore_masked u clean
  rw [whole,Option.isSome_map,mapM_isSome_iff]
  exact ⟨fun all row member => all row (perm.mem_iff.mpr member),fun all row member => all row (perm.subset member)⟩

theorem restore_masked_rows
    (restored : restore u (fingerprint mac) (masked u mac mw false) (some mw) = some kept) (row : GoString × GoString) :
    row ∈ kept.config.rows ↔ ∃ r ∈ mw.config.rows, returned r = some row := by
  obtain ⟨order,perm,whole⟩ := restore_masked u clean
  obtain ⟨rows,all,result⟩ := map_eq_some_iff.mp (whole.symm.trans restored)
  subst result
  have mapped := mapM_some_iff.mp all
  have names : order.map Prod.fst = rows.map Prod.fst := by
    rw [← forall₂_eq_eq_eq,forall₂_map_left_iff,forall₂_map_right_iff]
    exact (mapM_forall₂.mp all).imp fun r new back => (returned_key back).symm
  have distinct : (rows.map Prod.fst).Nodup := names ▸ (perm.map Prod.fst).nodup_iff.mpr mw.config.distinct
  have inside : row ∈ rows ↔ ∃ r ∈ order, returned r = some row := by rw [← mem_map,mapped]; simp
  rw [mem_load distinct,inside]
  constructor
  · rintro (⟨r,member,back⟩ | ⟨old,_⟩)
    · exact ⟨r,perm.subset member,back⟩
    · cases old
  · rintro ⟨r,member,back⟩; exact .inl ⟨r,perm.mem_iff.mpr member,back⟩

end

theorem lastPassword_renewed (users : List User) (name : GoString) :
    lastPassword (users.map (renewed users)) name = lastPassword users name := by
  have names : ((fun user : User => decide (user.name = name)) ∘ renewed users) = fun user => decide (user.name = name) := by
    funext user
    simp only [Function.comp,renewed]
    split <;> rfl
  rw [lastPassword,← map_reverse,find?_map,names]
  cases found : users.reverse.find? (fun user => decide (user.name = name)) with
  | none => simp [lastPassword,found]
  | some user =>
    have called : user.name = name := by simpa using find?_some found
    have last : lastPassword users name = some user.password := by rw [lastPassword,found]; rfl
    rw [last,map_some,map_some,renewed,called,last]
    split <;> simp_all

theorem keptUser_all :
    (users.mapM (keptUser users)).isSome ↔ ∀ user ∈ users, user.password ≠ [] → lastPassword users user.name ≠ some [] := by
  rw [mapM_isSome_iff]
  refine forall₂_congr fun user member => ?_
  unfold keptUser
  split <;> simp_all

theorem keptUser_renewed {users new : List User} (kept : users.mapM (keptUser users) = some new) : new = users.map (renewed users) := by
  refine Eq.symm ?_
  rw [← forall₂_eq_eq_eq,forall₂_map_left_iff]
  refine (mapM_forall₂.mp kept).imp fun user out back => ?_
  exact (Option.some.inj (Option.ite_none_left_eq_some.mp back).2)

theorem renewed_plain (plain : ∀ user ∈ users, User.Plain user) (member : user ∈ users) : (renewed users user).Plain := by
  unfold renewed
  split
  · exact plain user member
  cases found : users.reverse.find? (fun other => decide (other.name = user.name)) with
  | none =>
    obtain ⟨password,last⟩ := lastPassword_some member
    rw [lastPassword,found] at last
    cases last
  | some other =>
    have inside := plain other (mem_reverse.mp (mem_of_find?_eq_some found))
    have own := plain user member
    have last : lastPassword users user.name = some other.password := by rw [lastPassword,found]; rfl
    rw [last]
    exact ⟨own.colon,⟨own.comma.1,inside.comma.2⟩,own.lead,inside.trail⟩

def SameLogins (old new : GoString) : Prop := old = new ∨ isOpaque old = false ∧ isOpaque new = false ∧
  ∃ before after, parseUsers old = some before ∧ parseUsers new = some after ∧ ∀ name, lastPassword before name = lastPassword after name

structure Agrees (old new : Settings) : Prop where
  entries : ∀ k ≠ usersKey, Settings.lookup new k = Settings.lookup old k
  users : Option.Rel SameLogins (Settings.lookup old usersKey) (Settings.lookup new usersKey)

-- No name has an empty password last, and the list reads as no reference.
def Listed (v : GoString) : Prop := isOpaque v ∨ ∀ users ∈ parseUsers v,
  (∀ user ∈ users, user.password ≠ [] → lastPassword users user.name ≠ some []) ∧ ∀ first ∈ users.head?, first.name ∉ opaqueNames

theorem settled_listed : (∃ new, settled v = some new ∧ SameLogins v new) ↔ Listed v := by
  cases literal : isOpaque v with
  | true =>
    have whole : settled v = some v := by simp [settled,literal]
    exact ⟨fun _ => .inl literal,fun _ => ⟨v,whole,.inl rfl⟩⟩
  | false =>
    cases parsed : parseUsers v with
    | none =>
      have whole : settled v = some v := by simp [settled,literal,parsed]
      refine ⟨fun _ => .inr ?_,fun _ => ⟨v,whole,.inl rfl⟩⟩
      rw [parsed]
      simp
    | some users =>
      have plain : ∀ user ∈ users, User.Plain user := fun user member => (parse_plain parsed user member).1
      have after : parseUsers (joinUsers (users.map (renewed users))) = some (users.map (renewed users)) :=
        parse_join _ (forall_mem_map.mpr fun user => renewed_plain plain)
      have shown : isOpaque (joinUsers (users.map (renewed users))) = false ↔ ∀ first ∈ users.head?, first.name ∉ opaqueNames := by
        cases users with
        | nil => simp [joinUsers,join,intercalate]; decide
        | cons first rest =>
          have name : (renewed (first :: rest) first).name = first.name := by unfold renewed; split <;> rfl
          rw [map_cons,Bool.eq_false_iff,Ne,isOpaque_join (renewed_plain plain (mem_cons_self ..)),name]
          simp
      constructor
      · rintro ⟨new,back,same⟩
        rw [(list_parts literal parsed).2] at back
        obtain ⟨list,kept,rfl⟩ := map_eq_some_iff.mp back
        have clear : isOpaque (joinUsers list) = false := by
          rcases same with same | ⟨_,clear,_⟩
          · rwa [← same]
          · exact clear
        rw [keptUser_renewed kept] at clear
        right
        rintro others read
        cases parsed.symm.trans read
        exact ⟨keptUser_all.mp (by rw [kept]; rfl),shown.mp clear⟩
      · rintro (coded | listed)
        · rw [literal] at coded; cases coded
        obtain ⟨all,clear⟩ := listed users parsed
        obtain ⟨list,kept⟩ := isSome_iff_exists.mp (keptUser_all.mpr all)
        cases keptUser_renewed kept
        refine ⟨joinUsers (users.map (renewed users)),by rw [(list_parts literal parsed).2,kept]; rfl,.inr ⟨literal,shown.mpr clear,?_⟩⟩
        exact ⟨users,users.map (renewed users),parsed,after,fun name => (lastPassword_renewed users name).symm⟩

theorem returned_other (other : row.1 ≠ usersKey) : returned row = some row := if_neg other

section
variable (u : Tables) (clean : Clean mac mw) (restored : restore u (fingerprint mac) (masked u mac mw false) (some mw) = some kept)
include u clean restored

theorem lookup_returned (other : k ≠ usersKey) : Settings.lookup kept.config k = Settings.lookup mw.config k := by
  refine ext fun v => ?_
  rw [lookup_row,lookup_row,restore_masked_rows u clean restored]
  constructor
  · rintro ⟨r,member,back⟩
    have key : r.1 ≠ usersKey := fun same => other ((returned_key back).trans same)
    rw [returned_other key] at back
    cases back
    exact member
  · intro member; exact ⟨(k,v),member,returned_other other⟩

theorem lookup_returned_users : Settings.lookup kept.config usersKey = (Settings.lookup mw.config usersKey).bind settled := by
  refine ext fun v => ?_
  rw [lookup_row,restore_masked_rows u clean restored,Option.bind_eq_some_iff]
  constructor
  · rintro ⟨r,member,back⟩
    have key : r.1 = usersKey := (returned_key back).symm
    rw [returned,if_pos key] at back
    obtain ⟨new,result,same⟩ := map_eq_some_iff.mp back
    obtain rfl : new = v := congrArg Prod.snd same
    exact ⟨r.2,lookup_row.mpr (key ▸ member),result⟩
  · rintro ⟨old,found,result⟩
    refine ⟨(usersKey,old),lookup_row.mp found,?_⟩
    rw [returned,if_pos rfl,result]
    rfl

end

theorem mask_survives (u : Tables) (mac : Digest) (mw : Middleware) (clean : Clean mac mw) :
    (∃ kept, restore u (fingerprint mac) (masked u mac mw false) (some mw) = some kept ∧ Agrees mw.config kept.config) ↔
      ∀ v, Settings.lookup mw.config usersKey = some v → Listed v := by
  constructor
  · rintro ⟨kept,restored,agrees⟩ v stored
    have users := agrees.users
    rw [lookup_returned_users u clean restored,stored,Option.bind_some] at users
    cases result : settled v with
    | none => rw [result] at users; cases users
    | some new =>
      rw [result] at users
      cases users with
      | some same => exact settled_listed.mp ⟨new,result,same⟩
  · intro listed
    have present : ∀ row ∈ mw.config.rows, (returned row).isSome = true := by
      intro row member
      by_cases key : row.1 = usersKey
      · obtain ⟨new,result,_⟩ := settled_listed.mpr (listed row.2 (lookup_row.mpr (key ▸ member)))
        rw [returned,if_pos key,result]
        rfl
      · rw [returned_other key]; rfl
    obtain ⟨kept,restored⟩ := isSome_iff_exists.mp ((restore_masked_isSome u clean).mpr present)
    refine ⟨kept,restored,fun k => lookup_returned u clean restored,?_⟩
    rw [lookup_returned_users u clean restored]
    cases stored : Settings.lookup mw.config usersKey with
    | none => exact .none
    | some v =>
      obtain ⟨new,result,same⟩ := settled_listed.mpr (listed v stored)
      rw [Option.bind_some,result]
      exact .some same

def sampleDigest : Digest where
  sum text := (text ++ replicate 32 0).take 32
  long text := by simp

def basicAuth (users : GoString) : Middleware where
  id := lit "m"
  name := []
  type := lit "auth"
  config := ⟨[(lit "type",lit "basic"),(lit "key_k1",lit "one"),(lit "key_k2",lit "two"),(lit "secret",lit "$env:S"),(usersKey,users)],by
    simp only [map_cons,map_nil]
    decide⟩
  wasmBlob := []

theorem basicAuth_clean (free : contains users Placeholder = false) : Clean sampleDigest (basicAuth users) := by
  refine ⟨?_,?_⟩
  · have rest : ∀ row ∈ (basicAuth []).config.rows.take 4, contains row.1 Placeholder = false ∧ contains row.2 Placeholder = false := by decide
    exact forall_mem_append.mpr ⟨rest,forall_mem_singleton.mpr ⟨show contains usersKey Placeholder = false by decide,free⟩⟩
  intro a b _ _ one two same
  have keys : Settings.keys (basicAuth users).config = Settings.keys (basicAuth []).config := rfl
  have apart : ∀ k ∈ Settings.keys (basicAuth []).config, ∀ l ∈ Settings.keys (basicAuth []).config,
      fingerprint sampleDigest (lit "m") (k.drop 4) = fingerprint sampleDigest (lit "m") (l.drop 4) → k.drop 4 = l.drop 4 := by decide +kernel
  exact apart (apiKeyPrefix ++ a) (keys ▸ one) (apiKeyPrefix ++ b) (keys ▸ two) same

theorem mask_survives_basic : Clean sampleDigest (basicAuth (lit "ann:1, bob:,ann:2")) ∧ Listed (lit "ann:1, bob:,ann:2") ∧
    ∃ kept, restore Tables.ascii (fingerprint sampleDigest) (masked Tables.ascii sampleDigest (basicAuth (lit "ann:1, bob:,ann:2")) false)
      (some (basicAuth (lit "ann:1, bob:,ann:2"))) = some kept ∧ Agrees (basicAuth (lit "ann:1, bob:,ann:2")).config kept.config := by
  have clean : Clean sampleDigest (basicAuth (lit "ann:1, bob:,ann:2")) := basicAuth_clean (by decide)
  have listed : Listed (lit "ann:1, bob:,ann:2") := by right; decide +kernel
  refine ⟨clean,listed,(mask_survives Tables.ascii sampleDigest _ clean).mpr ?_⟩
  intro v stored
  cases Option.some.inj (stored.symm.trans rfl)
  exact listed

-- A password hidden by a later empty one, and a name like a reference's prefix.
theorem shadowed_password_refused :
    (Clean sampleDigest (basicAuth (lit "a:1,a:")) ∧ (restore Tables.ascii (fingerprint sampleDigest)
      (masked Tables.ascii sampleDigest (basicAuth (lit "a:1,a:")) false) (some (basicAuth (lit "a:1,a:")))).isNone = true) ∧
    (Clean sampleDigest (basicAuth (lit " enc:1")) ∧ isOpaque (lit " enc:1") = false ∧ isOpaque (lit "enc:1") = true ∧
      (restore Tables.ascii (fingerprint sampleDigest) (masked Tables.ascii sampleDigest (basicAuth (lit " enc:1")) false)
        (some (basicAuth (lit " enc:1")))).map (fun kept => Settings.at kept.config usersKey) = some (lit "enc:1")) :=
  ⟨⟨basicAuth_clean (by decide),by decide +kernel⟩,basicAuth_clean (by decide),by decide,by decide,by decide +kernel⟩

end Gateon.Config
