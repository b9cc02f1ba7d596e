import Gateon.Config.MiddlewareMask

namespace Gateon.Config
open Go KeyedStore Security Option
open List hiding contains

def Unmarked (config : Settings) : Prop :=
  ∀ row ∈ config.rows, contains row.1 Placeholder = false ∧ contains row.2 Placeholder = false

-- Only the last step of Restore writes to the update.
def applied (u : Tables) (print : GoString → GoString → GoString) (update : Middleware) (stored : Option Middleware) : Middleware × Bool :=
  match restore u print update stored with
  | some mw => (mw,true)
  | none => (update,false)

def Sent (update : Middleware) (row : GoString × GoString) : Prop :=
  row ∈ update.config.rows ∧ contains row.1 Placeholder = false ∧ contains row.2 Placeholder = false

inductive UserFrom (list : GoString) (sent : User) : User → Prop where
  | sent : contains sent.name Placeholder = false → contains sent.password Placeholder = false → UserFrom list sent sent
  | kept : contains sent.name Placeholder = false → sent.password = Placeholder → usersByName list sent.name = some password →
      UserFrom list sent ⟨sent.name,password⟩

inductive Taken (print : GoString → GoString → GoString) (update stored : Middleware) : GoString × GoString → Prop where
  | whole : Settings.lookup update.config k = some Placeholder → Settings.lookup stored.config k = some v → Taken print update stored (k,v)
  | apiKey : (marker,label) ∈ update.config.rows → markerFingerprint marker = some (print update.id apiKey) →
      apiKeyPrefix ++ apiKey ∈ Settings.keys stored.config → contains label Placeholder = false →
      Taken print update stored (apiKeyPrefix ++ apiKey,label)
  | users : Settings.lookup update.config usersKey = some v → parseUsers v = some sent →
      List.Forall₂ (UserFrom (Settings.at stored.config usersKey)) sent users → Taken print update stored (usersKey,joinUsers users)

def SameKind (a b : Middleware) : Prop := a.type = b.type ∧
  (a.type = lit "auth" → trimSpace (Settings.at a.config (lit "type")) = trimSpace (Settings.at b.config (lit "type")))

-- A type spelled like an authentication's identity, which nothing builds, has it.
structure SameHands (update stored : Middleware) : Prop where
  identity : identity update = identity stored
  kind : SameKind update stored ∨ hasPrefix update.type (lit "auth/") ∨ hasPrefix stored.type (lit "auth/")
  destination : destinationKey update ≠ [] →
    trimSpace (Settings.at update.config (destinationKey update)) = trimSpace (Settings.at stored.config (destinationKey update))

theorem lookup_of_at (filled : v ≠ []) (held : Settings.at config k = v) : Settings.lookup config k = some v := by
  unfold Settings.at at held
  cases found : Settings.lookup config k with
  | none => rw [found] at held; exact absurd held.symm filled
  | some w => rw [found] at held; exact congrArg some held

theorem lookup_of_key (member : k ∈ Settings.keys config) : Settings.lookup config k = some (Settings.at config k) := by
  obtain ⟨row,inside,rfl⟩ := mem_map.mp member
  rw [at_row inside,lookup_row]
  exact inside

theorem restoreScalar_taken {next} (done : restoreScalar stored k v out = some next) :
    v = Placeholder ∧ ∃ kept, Settings.lookup stored k = some kept ∧ next = out.put (k,kept) := by
  obtain ⟨whole,done⟩ := ite_none_left_eq_some.mp done
  obtain ⟨filled,⟨⟩⟩ := ite_none_left_eq_some.mp done
  exact ⟨not_not.mp whole,_,lookup_of_at filled rfl,rfl⟩

theorem restoreUser_from (done : restoreUser stored k sent = some user) :
    UserFrom (Settings.at stored k) sent user := by
  obtain ⟨clear,done⟩ := ite_none_left_eq_some.mp done
  simp only [Bool.or_eq_true,Bool.and_eq_true,bne_iff_ne,ne_eq,not_or,not_and,Bool.not_eq_true] at clear
  split at done
  · rename_i own
    cases done
    exact .sent clear.1 (clear.2 own)
  · rename_i hidden
    obtain ⟨password,found,rfl⟩ := map_eq_some_iff.mp done
    exact .kept clear.1 (not_not.mp hidden) (filter_eq_some_iff.mp found).1

theorem forall₂_source {R : α → β → Prop} (each : List.Forall₂ R xs ys) (member : y ∈ ys) : ∃ x ∈ xs, R x y := by
  obtain ⟨i,rfl⟩ := get_of_mem member
  have inside : i < xs.length := by rw [each.length_eq]; exact i.2
  exact ⟨_,List.get_mem xs ⟨i,inside⟩,each.get inside i.2⟩

theorem usersByName_inside (found : usersByName v name = some password) : password <:+: v := by
  unfold usersByName at found
  split at found
  · cases found
  obtain ⟨users,parsed,last⟩ := bind_eq_some_iff.mp found
  obtain ⟨user,held,rfl⟩ := map_eq_some_iff.mp last
  have member := mem_reverse.mp (mem_of_find?_eq_some held)
  refine List.IsInfix.trans ?_ (parse_plain parsed user member).2
  exact ⟨user.name ++ [byte ':'],[],by simp [User.entry]⟩

theorem at_unmarked (free : Unmarked config) (k : GoString) : contains (Settings.at config k) Placeholder = false := by
  unfold Settings.at
  cases found : Settings.lookup config k with
  | none => decide
  | some v => exact (free _ (lookup_row.mp found)).2

theorem restoreEntry_from {next} (key : k ∈ Settings.keys update.config)
    (done : restoreEntry u print update stored.config k out = some next) :
    ∃ row, next = out.put row ∧ (Sent update row ∨ Taken print update stored row) := by
  have here := lookup_of_key key
  have member := lookup_row.mp here
  generalize Settings.at update.config k = v at here member
  have value : Settings.at update.config k = v := by rw [Settings.at,here]; rfl
  unfold restoreEntry at done
  rw [value] at done
  dsimp only at done
  split at done
  · -- A marker stands for the stored key of its fingerprint.
    obtain ⟨fp,marked,rest⟩ := bind_eq_some_iff.mp done
    obtain ⟨clear,rest⟩ := ite_none_left_eq_some.mp rest
    obtain ⟨apiKey,found,last⟩ := bind_eq_some_iff.mp rest
    obtain ⟨_,⟨⟩⟩ := ite_none_left_eq_some.mp last
    obtain ⟨stored_key,inside,chosen⟩ := exists_of_findSome?_eq_some found
    obtain ⟨cut,same⟩ := filter_eq_some_iff.mp chosen
    simp only [Bool.and_eq_true,beq_iff_eq] at same
    rw [cutPrefix_append.mp cut] at inside
    rw [← same.2] at marked
    exact ⟨_,rfl,.inr (.apiKey member marked inside (by simpa using clear))⟩
  · rename_i plainKey
    split at done
    · rename_i plainValue
      split at done
      · cases done
      · cases done; exact ⟨(k,v),rfl,.inl ⟨member,by simpa using plainKey,by simpa using plainValue⟩⟩
    split at done
    · rename_i kind
      have users := classify_users.mp kind
      unfold restoreUsers at done
      split at done
      · obtain ⟨hidden,kept,held,rfl⟩ := restoreScalar_taken done
        exact ⟨_,rfl,.inr (.whole (hidden ▸ here) held)⟩
      obtain ⟨list,mapped,rfl⟩ := map_eq_some_iff.mp done
      obtain ⟨sent,parsed,each⟩ := bind_eq_some_iff.mp mapped
      subst users
      refine ⟨_,rfl,.inr (.users here parsed ?_)⟩
      exact (mapM_forall₂.mp each).imp fun _ _ done => restoreUser_from done
    · obtain ⟨hidden,kept,held,rfl⟩ := restoreScalar_taken done
      exact ⟨_,rfl,.inr (.whole (hidden ▸ here) held)⟩
    · cases done

theorem restoreEntries_from {order : List GoString} (keys : ∀ k ∈ order, k ∈ Settings.keys update.config)
    (held : ∀ row ∈ out.rows, Sent update row ∨ Taken print update stored row)
    (done : order.foldlM (fun out k => restoreEntry u print update stored.config k out) out = some config) :
    ∀ row ∈ config.rows, Sent update row ∨ Taken print update stored row := by
  induction order generalizing out with
  | nil => cases done; exact held
  | cons k order ih =>
    obtain ⟨next,one,rest⟩ := bind_eq_some_iff.mp done
    refine ih (forall_mem_cons.mp keys).2 ?_ rest
    obtain ⟨new,rfl,source⟩ := restoreEntry_from (keys k (mem_cons_self ..)) one
    intro row member
    rcases mem_put.mp member with rfl | ⟨old,_⟩
    · exact source
    · exact held row old

theorem identity_same (same : identity a = identity b) :
    SameKind a b ∨ hasPrefix a.type (lit "auth/") ∨ hasPrefix b.type (lit "auth/") := by
  unfold identity at same
  split at same
  · rename_i isAuth
    split at same
    · rename_i otherAuth; exact .inl ⟨isAuth.trans otherAuth.symm,fun _ => append_cancel_left same⟩
    rename_i other
    refine .inr (.inr ?_)
    rw [← same]
    exact isPrefixOf_iff_prefix.mpr (prefix_append _ _)
  · rename_i other
    split at same
    · rename_i otherAuth
      refine .inr (.inl ?_)
      rw [same]
      exact isPrefixOf_iff_prefix.mpr (prefix_append _ _)
    · exact .inl ⟨same,fun isAuth => absurd isAuth other⟩

theorem keepable_same (keeps : keepable update stored) : SameHands update stored := by
  simp only [keepable,Bool.and_eq_true,beq_iff_eq,Bool.or_eq_true] at keeps
  exact ⟨keeps.1,identity_same keeps.1,keeps.2.resolve_left⟩

theorem taken_unmarked (free : Unmarked stored.config) (source : Taken print update stored row) :
    contains row.1 Placeholder = false ∧ contains row.2 Placeholder = false := by
  cases source with
  | whole hidden held => exact free _ (lookup_row.mp held)
  | apiKey member marked held clear =>
    obtain ⟨row,inside,same⟩ := mem_map.mp held
    exact ⟨same ▸ (free row inside).1,clear⟩
  | @users v sent users here parsed each =>
    refine ⟨show contains usersKey Placeholder = false by decide,?_⟩
    rw [Bool.eq_false_iff,Ne,contains_joinUsers]
    rintro ⟨user,member,marked⟩
    obtain ⟨old,_,source⟩ := forall₂_source each member
    cases source with
    | sent name password => rw [name,password] at marked; simp at marked
    | kept name hidden found =>
      rw [name,unmarked_inside (usersByName_inside found) (at_unmarked free usersKey)] at marked
      simp at marked

theorem restore_from (done : restore u print update stored = some mw) :
    ∀ row ∈ mw.config.rows, Sent update row ∨ ∃ kept, stored = some kept ∧ SameHands update kept ∧ Taken print update kept row := by
  unfold restore at done
  split at done
  · rename_i nothing
    cases done
    intro row member
    exact .inl ⟨member,held_none.mp nothing row member⟩
  obtain ⟨kept,found,rest⟩ := bind_eq_some_iff.mp done
  obtain ⟨keeps,rest⟩ := ite_none_right_eq_some.mp rest
  obtain ⟨config,folded,rfl⟩ := map_eq_some_iff.mp rest
  intro row member
  have order : ∀ k ∈ sorted (Settings.keys update.config), k ∈ Settings.keys update.config := fun k => sorted_mem.mp
  rcases restoreEntries_from order (by simp [Store.empty]) folded row member with sent | taken
  · exact .inl sent
  · exact .inr ⟨kept,found,keepable_same keeps,taken⟩

theorem secrets_stay (u : Tables) (print : GoString → GoString → GoString) (update : Middleware) (stored : Option Middleware) :
    ((applied u print update stored).2 = false → (applied u print update stored).1 = update) ∧
    ((applied u print update stored).2 = true →
      ((∀ kept, stored = some kept → Unmarked kept.config) → Unmarked (applied u print update stored).1.config) ∧
      ∀ row ∈ (applied u print update stored).1.config.rows,
        Sent update row ∨ ∃ kept, stored = some kept ∧ SameHands update kept ∧ Taken print update kept row) := by
  unfold applied
  cases done : restore u print update stored with
  | none => exact ⟨fun _ => rfl,fun fine => absurd fine (by simp)⟩
  | some mw =>
    have sources := restore_from done
    refine ⟨fun failed => absurd failed (by simp),fun _ => ⟨?_,sources⟩⟩
    intro free row member
    rcases sources row member with sent | ⟨kept,found,_,taken⟩
    · exact sent.2
    · exact taken_unmarked (free kept found) taken

def holding (secret : GoString) : Middleware where
  id := lit "m"
  name := []
  type := lit "turnstile"
  config := ⟨[(lit "secret",secret)],by simp⟩
  wasmBlob := []

-- What is stored is kept exactly as it is held, the placeholder itself too.
theorem stored_placeholder_kept : (applied Tables.ascii (fingerprint sampleDigest) (holding Placeholder) (some (holding Placeholder))).2 = true ∧
    Settings.lookup (applied Tables.ascii (fingerprint sampleDigest) (holding Placeholder) (some (holding Placeholder))).1.config (lit "secret") =
      some Placeholder := by
  decide +kernel

end Gateon.Config
