import Gateon.Lib.SegmentTrie
import Gateon.Lib.SortedSearch
import Gateon.Config.Host
import Gateon.Lib.KeyedStore

namespace Gateon.Config
open Go SegmentTrie SortedSearch KeyedStore
open List hiding count

structure Route where
  id : GoString
  priority : Int
  rule : GoString
  entrypoints : List GoString
  disabled : Bool
deriving DecidableEq

def compareRoutes (a b : Route) : Ordering :=
  if a.priority ≠ b.priority then compare b.priority a.priority
  else if a.rule.length ≠ b.rule.length then compare b.rule.length a.rule.length
  else compareStrings a.id b.id

def Before (a b : Route) : Prop := (compareRoutes a b).isLE

instance : DecidableRel Before := fun a b => inferInstanceAs (Decidable ((compareRoutes a b).isLE = true))

-- Not a stable sort, but routes with different ids never compare equal.
def sortRoutes (routes : List Route) : List Route := routes.insertionSort Before

theorem before_cases : Before a b ↔ b.priority < a.priority ∨ b.priority = a.priority ∧
    (b.rule.length < a.rule.length ∨ b.rule.length = a.rule.length ∧ (compare a.id b.id).isLE) := by
  unfold Before compareRoutes compareStrings
  split
  · rename_i differ
    rw [Int.isLE_compare]
    omega
  split
  · rename_i differ
    rw [Nat.isLE_compare]
    omega
  · rename_i same level
    simp only [ne_eq,not_not] at same level
    simp [same,level]

theorem before_total (a b : Route) : Before a b ∨ Before b a := by
  have ids : (compare a.id b.id).isLE ∨ (compare b.id a.id).isLE := by
    have swapped : compare b.id a.id = (compare a.id b.id).swap := Std.OrientedCmp.eq_swap
    rw [swapped]
    cases compare a.id b.id <;> simp
  rw [before_cases,before_cases]
  rcases ids with ids | ids <;> simp only [ids,and_true] <;> omega

theorem before_trans (first : Before a b) (second : Before b c) : Before a c := by
  rw [before_cases] at first second ⊢
  rcases first with first | ⟨same,first | ⟨level,first⟩⟩ <;>
    rcases second with second | ⟨same',second | ⟨level',second⟩⟩
  all_goals first | exact .inr ⟨by omega,.inr ⟨by omega,Std.TransCmp.isLE_trans first second⟩⟩ | omega

theorem before_tie (there : Before a b) (back : Before b a) : a.id = b.id := by
  rw [before_cases] at there back
  have ids : (compare a.id b.id).isLE ∧ (compare b.id a.id).isLE := by
    rcases there with h | ⟨h,h' | ⟨h',ids⟩⟩ <;> rcases back with k | ⟨k,k' | ⟨k',ids'⟩⟩
    all_goals first | omega | exact ⟨ids,ids'⟩
  have equal : compare a.id b.id = .eq := Std.OrientedCmp.isLE_antisymm ids.1 ids.2
  exact Std.LawfulEqCmp.eq_of_compare equal

instance : Std.Total Before := ⟨before_total⟩
instance : IsTrans Route Before := ⟨fun _ _ _ => before_trans⟩
instance : Std.Refl Before := ⟨fun a => (before_total a a).elim id id⟩

def Distinct (routes : List Route) : Prop := (routes.map Route.id).Nodup

instance (routes : List Route) : Decidable (Distinct routes) :=
  inferInstanceAs (Decidable (routes.map Route.id).Nodup)

theorem distinct_untied (distinct : Distinct routes) : Untied Before routes :=
  fun _ inA _ inB there back => inj_on_of_nodup_map distinct inA inB (before_tie there back)

abbrev PathTrie := Trie GoString Route

def NewPathTrie : PathTrie := .empty

-- The segments a path is walked by: the parts between slashes, empty ones left out.
def segments (path : GoString) : List GoString := (split (trim path (byte '/')) (byte '/')).filter (· ≠ [])

section
variable (t : PathTrie)

section
variable (path : GoString)

-- The source does not split the empty path, whose one part would be skipped.
def Insert (isPrefix : Bool) (rt : Route) : PathTrie :=
  let path := trim path (byte '/')
  let parts := if path ≠ [] then split path (byte '/') else []
  t.insertAt isPrefix rt (parts.filter (· ≠ []))

def Flatten : PathTrie := t.flatten sortRoutes []

-- `fuel` is more than the bytes left, and each turn that goes on takes one off.
def lookupLoop : Nat → PathTrie → GoString → List Route
  | 0,curr,_ => curr.slots.allExact
  | fuel+1,curr,rest =>
    let (part,after,more) := cut rest (byte '/')
    match if part ≠ [] then curr.child part else some curr with
    | none => curr.slots.allBelow
    | some next => if more then lookupLoop fuel next after else next.slots.allExact

def Lookup : List Route :=
  let path := trim path (byte '/')
  if path = [] then t.slots.allExact else lookupLoop (path.length+1) t path

theorem insert_entry (isPrefix : Bool) (rt : Route) :
    Insert t path isPrefix rt = t.insert ⟨segments path,isPrefix,rt⟩ := by
  by_cases empty : trim path (byte '/') = []
  · simp [Insert,Trie.insert,segments,empty,split]
  · simp [Insert,Trie.insert,segments,empty]

theorem lookupLoop_segments (rest : GoString) (enough : rest.length < fuel) :
    lookupLoop fuel t rest = t.lookup ((split rest (byte '/')).filter (· ≠ [])) := by
  induction fuel generalizing t rest with
  | zero => omega
  | succ fuel ih =>
    have next (curr : PathTrie) :
        (if (cut rest (byte '/')).2.2 then lookupLoop fuel curr (cut rest (byte '/')).2.1 else curr.slots.allExact) =
          curr.lookup ((if (cut rest (byte '/')).2.2 then split (cut rest (byte '/')).2.1 (byte '/') else []).filter
            (· ≠ [])) := by
      split
      · rename_i more
        have shorter := cut_shorter more
        exact ih curr _ (by omega)
      · cases curr; rfl
    rw [split_cut]
    unfold lookupLoop
    by_cases part : (cut rest (byte '/')).1 = []
    · simpa [part] using next t
    cases t with
    | node children slots =>
      simp only [ne_eq,part,not_false_eq_true,↓reduceIte,decide_true,filter_cons_of_pos,Trie.lookup,Trie.child]
      cases children (cut rest (byte '/')).1 with
      | none => rfl
      | some t => exact next t

theorem lookup_segments : Lookup t path = t.lookup (segments path) := by
  unfold Lookup segments
  by_cases empty : trim path (byte '/') = []
  · cases t; simp [empty,split,Trie.lookup,Trie.slots]
  · simp only [empty,↓reduceIte]; exact lookupLoop_segments t _ (Nat.lt_succ_self _)

def parts : List GoString := (split path (byte '/')).filter (· ≠ [])

-- Slashes at the ends only add empty parts.
theorem parts_trim (c : UInt8) : (split (trim path c) c).filter (· ≠ []) = (split path c).filter (· ≠ []) := by
  have front (s : GoString) : (split (s.dropWhile (· == c)) c).filter (· ≠ []) = (split s c).filter (· ≠ []) := by
    induction s with
    | nil => rfl
    | cons b s ih =>
      by_cases same : b = c
      · have joined := split_joined [] s c; simp_all [split]
      · simp [same]
  have back (s : GoString) : (split (s.dropWhile (· == c)).reverse c).filter (· ≠ []) = (split s.reverse c).filter (· ≠ []) := by
    induction s with
    | nil => rfl
    | cons b s ih =>
      by_cases same : b = c
      · have joined := split_joined s.reverse [] c; simp_all [split]
      · simp [same]
  rw [trim,back,reverse_reverse,front]

end

structure Insertion where
  path : GoString
  isPrefix : Bool
  route : Route

-- The table a trie stands for: the routes a lookup has to find.
def Insertion.Offers (i : Insertion) (q : GoString) : Prop :=
  if i.isPrefix then parts i.path <+: parts q else parts i.path = parts q

instance (i : Insertion) (q : GoString) : Decidable (i.Offers q) := by
  unfold Insertion.Offers
  infer_instance

def Insertion.entry (i : Insertion) : Entry GoString Route := ⟨segments i.path,i.isPrefix,i.route⟩
def insertInto (i : Insertion) : PathTrie := Insert t i.path i.isPrefix i.route

end

-- `arrange` is any sort by the order: slices.SortFunc may put routes of one id in any order.
theorem lookup_table {arrange : List Route → List Route}
    (sorts : ∀ l, (arrange l).Perm l ∧ (arrange l).Pairwise Before) (calls : List Insertion) (q : GoString) :
    let found := Lookup ((calls.foldl insertInto NewPathTrie).flatten arrange []) q
    found.Pairwise Before ∧ found.Perm ((calls.filter fun i => i.Offers q).map Insertion.route) := by
  intro found
  have filed : calls.foldl insertInto NewPathTrie = insertAll (calls.map (·.entry)) := by
    have step : insertInto = fun t i => t.insert i.entry := funext₂ fun t i => insert_entry t i.path i.isPrefix i.route
    rw [insertAll,foldl_map,step]
    rfl
  have sees (i : Insertion) : i.entry.Sees (segments q) ↔ i.Offers q := by
    simp only [Entry.Sees,Insertion.Offers,Insertion.entry,segments,parts_trim,parts]
  have looked : found = ((insertAll (calls.map (·.entry))).flatten arrange []).lookup (segments q) := by
    rw [← filed]
    exact lookup_segments _ q
  constructor
  · obtain ⟨l,same⟩ := lookup_arranged arrange [] (insertAll (calls.map (·.entry))) (segments q)
    rw [looked,same]
    exact (sorts l).2
  · rw [looked]
    refine (lookup_insertAll (fun l => (sorts l).1) (calls.map (·.entry)) (segments q)).trans (.of_eq ?_)
    rw [filter_map,map_map]
    simp only [Function.comp_def,sees]
    rfl

def sampleCalls : List Insertion :=
  [⟨lit "/a/",true,⟨lit "1",0,lit "x",[],false⟩⟩,⟨lit "a//b",false,⟨lit "2",5,lit "x",[],false⟩⟩,
    ⟨lit "/ab",true,⟨lit "3",9,lit "x",[],false⟩⟩]

theorem lookup_table_sample : (∀ l, (sortRoutes l).Perm l ∧ (sortRoutes l).Pairwise Before) ∧
    (Lookup (Flatten (sampleCalls.foldl insertInto NewPathTrie)) (lit "//a/b/")).length = 2 := by
  have sorts (l : List Route) : (sortRoutes l).Perm l ∧ (sortRoutes l).Pairwise Before :=
    ⟨perm_insertionSort _ _,pairwise_insertionSort _ _⟩
  exact ⟨sorts,(lookup_table sorts sampleCalls (lit "//a/b/")).2.length_eq.trans (by decide +kernel)⟩

-- What stands between opening+q and q+")".
def quotedAfter (rule opening : GoString) (q : UInt8) : Option GoString :=
  match index (opening ++ [q]) rule with
  | none => none
  | some idx =>
    let rest := rule.drop (idx + opening.length + 1)
    match index [q,byte ')'] rest with
    | none => none
    | some stop => if 0 < stop then some (rest.take stop) else none

def quotes : List UInt8 := [byte '`',byte '"']

section
variable (u : Tables)

def hostFromRule (rule : GoString) : GoString :=
  match quotes.findSome? (quotedAfter rule (lit "Host(")) with
  | some host => toLower u host
  | none => []

structure PathInfo where
  path : GoString
  isPrefix : Bool
  isRegex : Bool
deriving DecidableEq

def pathFns : List (GoString × Bool × Bool) :=
  [(lit "PathPrefix(",true,false),(lit "PathRegex(",false,true),(lit "Path(",false,false)]

def rulePathInfo (rule : GoString) : PathInfo :=
  if contains rule (lit "||") || contains rule (lit "!") then ⟨lit "/",true,true⟩
  else if 1 < (pathFns.map fun fn => count rule fn.1).sum then ⟨lit "/",true,true⟩
  else
    let found := quotes.findSome? fun q => pathFns.findSome? fun (fn,isPrefix,isRegex) =>
      (quotedAfter rule fn q).map fun path => PathInfo.mk path isPrefix isRegex
    found.getD ⟨lit "/",true,false⟩

structure RouteTable where
  values : List Route
  distinct : Distinct values

structure RouteRegistry where
  sorted : List Route
  hostIndex : GoString → List Route
  hostTries : GoString → Option PathTrie
  hostRegexes : GoString → List Route
  wildcardRoutes : List Route
  wildcardTrie : PathTrie
  wildcardRegexes : List Route

def cleared (sorted : List Route) : RouteRegistry :=
  ⟨sorted,fun _ => [],fun _ => none,fun _ => [],[],NewPathTrie,[]⟩

def fileRoute (reg : RouteRegistry) (rt : Route) : RouteRegistry :=
  if rt.rule = [] then reg else
  let host := normalizeHost u (hostFromRule u rt.rule)
  let info := rulePathInfo rt.rule
  if host ≠ [] ∧ routeHostIsExact u host then
    let reg := { reg with hostIndex := Function.update reg.hostIndex host (reg.hostIndex host ++ [rt]) }
    if info.isRegex then
      { reg with hostRegexes := Function.update reg.hostRegexes host (reg.hostRegexes host ++ [rt]) }
    else
      let trie := (reg.hostTries host).getD NewPathTrie
      { reg with hostTries := Function.update reg.hostTries host (some (Insert trie info.path info.isPrefix rt)) }
  else
    let reg := { reg with wildcardRoutes := reg.wildcardRoutes ++ [rt] }
    if info.isRegex then { reg with wildcardRegexes := reg.wildcardRegexes ++ [rt] }
    else { reg with wildcardTrie := Insert reg.wildcardTrie info.path info.isPrefix rt }

def rebuildSortedLocked (table : RouteTable) : RouteRegistry :=
  let sorted := sortRoutes table.values
  let reg := sorted.foldl (fileRoute u) (cleared sorted)
  { reg with
    hostTries := fun host => (reg.hostTries host).map Flatten
    wildcardTrie := Flatten reg.wildcardTrie
    hostIndex := fun host => sortRoutes (reg.hostIndex host) }

def ListWildcards (reg : RouteRegistry) : List Route := reg.wildcardRoutes

def GetTrieByHost (reg : RouteRegistry) (host : GoString) : Option PathTrie × List Route :=
  let host := normalizeHost u host
  (reg.hostTries host,reg.hostRegexes host)

def GetWildcardTrie (reg : RouteRegistry) : Option PathTrie × List Route :=
  (some reg.wildcardTrie,reg.wildcardRegexes)

def hostKey (rule : GoString) : Option GoString :=
  let host := normalizeHost u (hostFromRule u rule)
  if host ≠ [] ∧ routeHostIsExact u host then some host else none

structure Shelf where
  routes : List Route
  trie : Option PathTrie
  regexes : List Route

def RouteRegistry.shelf (reg : RouteRegistry) : Option GoString → Shelf
  | some host => ⟨reg.hostIndex host,reg.hostTries host,reg.hostRegexes host⟩
  | none => ⟨reg.wildcardRoutes,some reg.wildcardTrie,reg.wildcardRegexes⟩

def Shelf.add (s : Shelf) (rt : Route) : Shelf :=
  let info := rulePathInfo rt.rule
  let s := { s with routes := s.routes ++ [rt] }
  if info.isRegex then { s with regexes := s.regexes ++ [rt] }
  else { s with trie := some (Insert (s.trie.getD NewPathTrie) info.path info.isPrefix rt) }

def Filed (key : Option GoString) (rt : Route) : Prop := rt.rule ≠ [] ∧ hostKey u rt.rule = key

end

instance (u : Tables) (key : Option GoString) (rt : Route) : Decidable (Filed u key rt) :=
  inferInstanceAs (Decidable (rt.rule ≠ [] ∧ hostKey u rt.rule = key))

theorem fileRoute_shelf (u : Tables) (reg : RouteRegistry) (rt : Route) (key : Option GoString) :
    (fileRoute u reg rt).shelf key = if Filed u key rt then (reg.shelf key).add rt else reg.shelf key := by
  unfold fileRoute Filed hostKey
  by_cases empty : rt.rule = []
  · simp [empty]
  by_cases keyed : normalizeHost u (hostFromRule u rt.rule) ≠ [] ∧
      routeHostIsExact u (normalizeHost u (hostFromRule u rt.rule))
  · simp only [empty,keyed,↓reduceIte,ne_eq,not_false_eq_true,true_and,and_self]
    cases key with
    | none => cases h : (rulePathInfo rt.rule).isRegex <;> simp [RouteRegistry.shelf]
    | some host =>
      by_cases same : normalizeHost u (hostFromRule u rt.rule) = host
      · subst host; cases h : (rulePathInfo rt.rule).isRegex <;> simp [RouteRegistry.shelf,Shelf.add,h]
      · cases h : (rulePathInfo rt.rule).isRegex <;>
          simp [RouteRegistry.shelf,same,Ne.symm same]
  · simp only [empty,keyed,↓reduceIte,ne_eq,not_false_eq_true,true_and]
    cases key with
    | none => cases h : (rulePathInfo rt.rule).isRegex <;> simp [RouteRegistry.shelf,Shelf.add,h]
    | some host => cases h : (rulePathInfo rt.rule).isRegex <;> simp [RouteRegistry.shelf]

theorem filed_shelf (u : Tables) (routes : List Route) (reg : RouteRegistry) (key : Option GoString) :
    (routes.foldl (fileRoute u) reg).shelf key = (routes.filter (Filed u key)).foldl Shelf.add (reg.shelf key) := by
  induction routes generalizing reg with
  | nil => rfl
  | cons rt rest ih =>
    rw [List.foldl_cons,ih,fileRoute_shelf]
    by_cases here : Filed u key rt <;> simp [here]

def routeEntry (rt : Route) : Entry GoString Route :=
  ⟨segments (rulePathInfo rt.rule).path,(rulePathInfo rt.rule).isPrefix,rt⟩

theorem added_shelf (routes : List Route) (s : Shelf) : (routes.foldl Shelf.add s).routes = s.routes ++ routes ∧
    (routes.foldl Shelf.add s).regexes = s.regexes ++ routes.filter (fun rt => (rulePathInfo rt.rule).isRegex) ∧
    (routes.foldl Shelf.add s).trie.getD .empty =
      ((routes.filter fun rt => !(rulePathInfo rt.rule).isRegex).map routeEntry).foldl Trie.insert (s.trie.getD .empty) := by
  induction routes generalizing s with
  | nil => simp
  | cons rt rest ih =>
    obtain ⟨all,regexes,trie⟩ := ih (s.add rt)
    rw [List.foldl_cons,all,regexes,trie]
    cases kind : (rulePathInfo rt.rule).isRegex with
    | true => simp [Shelf.add,kind]
    | false => simp [Shelf.add,kind,routeEntry,insert_entry,NewPathTrie]

def filedIn (u : Tables) (table : RouteTable) (key : Option GoString) : List Route :=
  (sortRoutes table.values).filter (Filed u key)

theorem filedIn_sorted (u : Tables) (table : RouteTable) (key : Option GoString) : (filedIn u table key).Pairwise Before :=
  (List.pairwise_insertionSort Before _).filter _
theorem mem_filedIn : rt ∈ filedIn u table key ↔ rt ∈ table.values ∧ Filed u key rt := by
  simp [filedIn,sortRoutes]
section
variable (u : Tables) (table : RouteTable) (key : Option GoString)

theorem filedIn_untied : Untied Before (filedIn u table key) :=
  (distinct_untied table.distinct).subset fun _ member => (mem_filedIn.mp member).1
theorem sortRoutes_sorted (sorted : routes.Pairwise Before) : sortRoutes routes = routes := sorted.insertionSort_eq

-- Every pattern, a prefix whose segments begin the path's, an exact path.
def OnPath (path : GoString) (rt : Route) : Prop :=
  (rulePathInfo rt.rule).isRegex ∨ (routeEntry rt).Sees (segments path)

instance (path : GoString) (rt : Route) : Decidable (OnPath path rt) :=
  inferInstanceAs (Decidable (_ ∨ _))

section
variable (trie : Option PathTrie) (path : GoString)

def candidates : List Route :=
  match trie with
  | some t => Lookup t path
  | none => []

theorem sortRoutes_perm (routes : List Route) : (sortRoutes routes).Perm routes := List.perm_insertionSort Before routes

theorem candidates_flattened : candidates (trie.map Flatten) path = Lookup (Flatten (trie.getD .empty)) path := by
  cases trie with
  | some t => rfl
  | none =>
    have nothing := lookup_insertAll sortRoutes_perm ([] : List (Entry GoString Route)) (segments path)
    rw [List.filter_nil,List.map_nil,List.perm_nil] at nothing
    rw [lookup_segments]
    exact nothing.symm

theorem candidates_sorted : (candidates (trie.map Flatten) path).Pairwise Before := by
  rw [candidates_flattened,lookup_segments]
  obtain ⟨l,found⟩ := lookup_arranged sortRoutes [] (trie.getD .empty) (segments path)
  unfold Flatten
  rw [found]
  exact List.pairwise_insertionSort Before l

end

theorem rebuilt_shelf : ((rebuildSortedLocked u table).shelf key).routes = filedIn u table key ∧
    ((rebuildSortedLocked u table).shelf key).regexes = (filedIn u table key).filter (fun rt => (rulePathInfo rt.rule).isRegex) ∧
    ∃ trie, ((rebuildSortedLocked u table).shelf key).trie = Option.map Flatten trie ∧
      trie.getD .empty = insertAll (((filedIn u table key).filter fun rt => !(rulePathInfo rt.rule).isRegex).map routeEntry) := by
  have shelf := filed_shelf u (sortRoutes table.values) (cleared (sortRoutes table.values)) key
  obtain ⟨all,regexes,trie⟩ := added_shelf (filedIn u table key) ((cleared (sortRoutes table.values)).shelf key)
  unfold filedIn at all regexes trie
  rw [← shelf] at all regexes trie
  cases key with
  | none => exact ⟨all,regexes,_,rfl,trie⟩
  | some host =>
    refine ⟨?_,regexes,_,rfl,trie⟩
    exact (congrArg sortRoutes all).trans (sortRoutes_sorted (filedIn_sorted u table (some host)))

end

def Shelf.offers (s : Shelf) (path : GoString) : List Route := candidates s.trie path ++ s.regexes

section
variable (u : Tables) (table : RouteTable) (key : Option GoString) (path : GoString)

theorem rebuilt_offers : (((rebuildSortedLocked u table).shelf key).offers path).Perm ((filedIn u table key).filter (OnPath path)) := by
  obtain ⟨_,regexes,trie,flat,inserted⟩ := rebuilt_shelf u table key
  unfold Shelf.offers
  rw [regexes,flat,candidates_flattened,inserted,lookup_segments]
  have seen := lookup_insertAll sortRoutes_perm
    (((filedIn u table key).filter fun rt => !(rulePathInfo rt.rule).isRegex).map routeEntry) (segments path)
  rw [List.filter_map,List.map_map] at seen
  have halves := List.filter_append_perm (fun rt : Route => (rulePathInfo rt.rule).isRegex)
    ((filedIn u table key).filter (OnPath path))
  refine ((seen.append_right _).trans List.perm_append_comm).trans ?_
  refine .trans (.of_eq ?_) halves
  congr 1
  · rw [List.filter_filter]
    refine List.filter_congr fun rt _ => ?_
    cases kind : (rulePathInfo rt.rule).isRegex <;> simp [OnPath,kind]
  · have item : (Entry.item ∘ routeEntry) = id := rfl
    rw [item,List.map_id,List.filter_filter,List.filter_filter]
    refine List.filter_congr fun rt _ => ?_
    cases kind : (rulePathInfo rt.rule).isRegex <;> simp [OnPath,kind]

theorem sort_offers :
    sortRoutes (((rebuildSortedLocked u table).shelf key).offers path) = (filedIn u table key).filter fun rt => OnPath path rt := by
  have sorted := (filedIn_sorted u table key).filter (OnPath path)
  have untied : Untied Before ((filedIn u table key).filter (OnPath path)) :=
    (filedIn_untied u table key).subset fun _ member => (List.mem_filter.mp member).1
  exact (sort_perm untied (rebuilt_offers u table key path)).trans (sortRoutes_sorted sorted)

end

structure RouteTLSConfig where
  certificateIds : List GoString
  optionId : GoString
  acmeEnabled : Bool
deriving DecidableEq

structure RouteRow extends Route where
  name : GoString
  type : GoString
  middlewares : List GoString
  serviceId : GoString
  tls : Option RouteTLSConfig
  streamMode : Int
deriving DecidableEq

-- A rebuilt index depends on the map's rows alone, not on their order.
structure RegistryKind (R I A : Type) where
  key : R → GoString
  rebuild : Store key → I
  answers : Store key → I → A
  refused : R → Option GoString
  stable : ∀ a b : Store key, (∀ id, a.get id = b.get id) → answers a (rebuild a) = answers b (rebuild b)

variable {R I A : Type} {k : RegistryKind R I A}

structure Memory (k : RegistryKind R I A) where
  rows : Store k.key
  index : I
  current : k.answers rows index = k.answers rows (k.rebuild rows)

def Memory.of (rows : Store k.key) : Memory k := ⟨rows,k.rebuild rows,rfl⟩

inductive Call (R : Type) where
  | fileUpdate (r : R) (fault : Option GoString)
  | fileDelete (id : GoString) (fault : Option GoString)
  | dbUpdate (r : R) (fault : Option GoString)
  | dbDelete (id : GoString) (fault : Option GoString)
  | dbReload (read : Except GoString (List R))

-- Files: map and index first, then the save. Databases: the write first.
def Memory.call (m : Memory k) : Call R → Memory k × Option GoString
  | .fileUpdate r fault => (.of (m.rows.put r),fault)
  | .fileDelete id fault => (.of (m.rows.remove id),fault)
  | .dbUpdate r fault =>
    match (k.refused r).or fault with
    | some err => (m,some err)
    | none => (.of (m.rows.put r),none)
  | .dbDelete id fault =>
    match fault with
    | some err => (m,some err)
    | none => (.of (m.rows.remove id),none)
  | .dbReload read =>
    match read with
    | .error err => (m,some err)
    | .ok rows => (.of (Store.empty.load rows),none)

def Memory.observed (m : Memory k) : (GoString → Option R) × A := (m.rows.get,k.answers m.rows m.index)
def Unchanged (m : Memory k) (c : Call R) : Prop := (m.call c).2.isSome → (m.call c).1.observed = m.observed

-- A failed save to the file is of a row held already, or deletes one that is not.
def Harmless (m : Memory k) : Call R → Prop
  | .fileUpdate r (some _) => m.rows.get (k.key r) = some r
  | .fileDelete id (some _) => m.rows.get id = none
  | _ => True

theorem observed_of {m : Memory k} {rows : Store k.key} : (Memory.of rows : Memory k).observed = m.observed ↔ ∀ id, rows.get id = m.rows.get id := by
  constructor
  · intro same id; exact congrFun (congrArg Prod.fst same) id
  intro same
  have lookups : rows.get = m.rows.get := funext same
  have indexed := (k.stable rows m.rows same).trans m.current.symm
  exact Prod.ext lookups indexed

theorem get_put_iff {s : Store k.key} {r : R} : (∀ id, (s.put r).get id = s.get id) ↔ s.get (k.key r) = some r := by
  constructor
  · intro same; rw [← same,get_put_same]
  intro held id
  by_cases own : id = k.key r
  · rw [own,get_put_same,held]
  · exact get_put_other s r own

theorem get_remove_iff {s : Store k.key} {id : GoString} : (∀ other, (s.remove id).get other = s.get other) ↔ s.get id = none := by
  constructor
  · intro same; rw [← same,get_remove_same]
  intro missing other
  by_cases own : other = id
  · rw [own,get_remove_same,missing]
  · exact get_remove_other own

theorem unchanged_iff (m : Memory k) (c : Call R) : Unchanged m c ↔ Harmless m c := by
  cases c with
  | fileUpdate r fault =>
    cases fault with
    | none => simp [Unchanged,Harmless,Memory.call]
    | some err =>
      unfold Unchanged Harmless
      dsimp only [Memory.call]
      rw [observed_of,get_put_iff]
      simp
  | fileDelete id fault =>
    cases fault with
    | none => simp [Unchanged,Harmless,Memory.call]
    | some err =>
      unfold Unchanged Harmless
      dsimp only [Memory.call]
      rw [observed_of,get_remove_iff]
      simp
  | dbUpdate r fault => cases stops : (k.refused r).or fault <;> simp [Unchanged,Harmless,Memory.call,stops]
  | dbDelete id fault => cases fault <;> simp [Unchanged,Harmless,Memory.call]
  | dbReload read => cases read <;> simp [Unchanged,Harmless,Memory.call]

structure RouteAnswers where
  list : List RouteRow
  byHost : GoString → List RouteRow
  hostTrie : GoString → GoString → List RouteRow
  hostRegexes : GoString → List RouteRow
  wildcards : List RouteRow
  wildcardTrie : GoString → List RouteRow
  wildcardRegexes : List RouteRow

def RouteRow.key (rt : RouteRow) : GoString := rt.id

abbrev RouteMap : Type := Store RouteRow.key

def routeTable (rows : RouteMap) : RouteTable where
  values := rows.rows.map RouteRow.toRoute
  distinct := by
    unfold Distinct
    rw [List.map_map]
    exact rows.distinct

def followed (rows : RouteMap) (routes : List Route) : List RouteRow := routes.filterMap fun rt => rows.get rt.id

variable (u : Tables)

def routeAnswers (rows : RouteMap) (index : RouteRegistry) : RouteAnswers where
  list := followed rows index.sorted
  byHost host := followed rows (index.hostIndex (normalizeHost u host))
  hostTrie host path := followed rows (candidates (GetTrieByHost u index host).1 path)
  hostRegexes host := followed rows (GetTrieByHost u index host).2
  wildcards := followed rows (ListWildcards index)
  wildcardTrie path := followed rows (candidates (GetWildcardTrie index).1 path)
  wildcardRegexes := followed rows (GetWildcardTrie index).2

theorem rebuild_perm (same : a.values.Perm b.values) : rebuildSortedLocked u a = rebuildSortedLocked u b := by
  have sorted : sortRoutes a.values = sortRoutes b.values := sort_perm (distinct_untied b.distinct) same
  simp only [rebuildSortedLocked,sorted]

theorem routes_stable (a b : RouteMap) (same : ∀ id, a.get id = b.get id) :
    routeAnswers u a (rebuildSortedLocked u (routeTable a)) = routeAnswers u b (rebuildSortedLocked u (routeTable b)) := by
  have lookups : a.get = b.get := funext same
  have rebuilt : rebuildSortedLocked u (routeTable a) = rebuildSortedLocked u (routeTable b) :=
    rebuild_perm u ((rows_perm same).map RouteRow.toRoute)
  simp only [routeAnswers,followed,lookups,rebuilt]

theorem cleared_answers :
    routeAnswers u Store.empty (cleared []) = routeAnswers u Store.empty (rebuildSortedLocked u (routeTable Store.empty)) := by
  simp [routeAnswers,followed,Store.get,Store.empty]

variable (key : S → GoString)

def ById (a b : S) : Prop := NotAfter (key a) (key b)

instance (key : S → GoString) : DecidableRel (ById key) := fun a b => inferInstanceAs (Decidable (NotAfter (key a) (key b)))
instance (key : S → GoString) : Std.Total (ById key) := ⟨fun a b => Std.Total.total (r := NotAfter) (key a) (key b)⟩
instance (key : S → GoString) : IsTrans S (ById key) := ⟨fun a b c => IsTrans.trans (r := NotAfter) (key a) (key b) (key c)⟩

def listServices (rows : Store key) : List S := rows.rows.insertionSort (ById key)

theorem services_stable (a b : Store key) (same : ∀ id, a.get id = b.get id) : listServices key a = listServices key b := by
  apply sort_perm _ (rows_perm same)
  intro x inX y inY there back
  exact List.inj_on_of_nodup_map b.distinct inX inY (Std.LawfulEqCmp.eq_of_compare (Std.OrientedCmp.isLE_antisymm there back))

def services : RegistryKind S Unit (List S) where
  key := key
  rebuild _ := ()
  answers rows _ := listServices key rows
  refused _ := none
  stable := services_stable key

end Gateon.Config
