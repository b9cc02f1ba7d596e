import Gateon.Config.Routes
import Gateon.Router.Path
import Gateon.Rule.Parse

namespace Gateon.Router
open Go Config Rule SortedSearch List Option

structure Matcher (R : Type) where
  expr : Option (Expr R)

-- The cache of matchers answers what compileRule gives.
def GetMatcher (lib : Lib R) (src : GoString) : Matcher R :=
  match Parse lib src with
  | .ok e => ⟨some e⟩
  | .error _ => ⟨none⟩

def requestHost (r : Request) : GoString :=
  match r.state with
  | some rs => if rs.strippedHost ≠ [] then rs.strippedHost else stripPort r.host
  | none => stripPort r.host

def Matcher.Match (m : Matcher R) (lib : Lib R) (r : Request) : Bool :=
  match m.expr with
  | none => false
  | some e => e.Match lib r (requestHost r)

def entryPoint (r : Request) : GoString :=
  match r.state with
  | some rs => rs.entryPointID
  | none => r.entryPointID.getD []

section
variable (lib : Lib R) (r : Request)

def SelectRouteFromSlice : List Route → Option Route
  | [] => none
  | rt :: rest =>
    if rt.disabled then SelectRouteFromSlice rest
    else if rt.entrypoints ≠ [] ∧ entryPoint r ∉ rt.entrypoints then SelectRouteFromSlice rest
    else if rt.rule = [] then SelectRouteFromSlice rest
    else if (GetMatcher lib rt.rule).Match lib r then some rt
    else SelectRouteFromSlice rest

def SelectRouteFromTrie (trie : Option PathTrie) (regexes : List Route) : Option Route :=
  let found := candidates trie r.path
  if regexes = [] then SelectRouteFromSlice lib r found
  else if found = [] then SelectRouteFromSlice lib r regexes
  else SelectRouteFromSlice lib r (sortRoutes (found ++ regexes))

-- The request goes back too: selection rewrites its path on purpose.
def SelectRoute (reg : RouteRegistry) : Option Route × Request :=
  if AmbiguousPath r.path then (none,r) else
  let r := { r with path := NormalizePath r.path }
  let (trie,regexes) := GetTrieByHost lib.tables reg (requestHost r)
  let own := if trie.isSome ∨ regexes ≠ [] then SelectRouteFromTrie lib r trie regexes else none
  match own with
  | some rt => (some rt,r)
  | none =>
    let (trie,regexes) := GetWildcardTrie reg
    if trie.isSome ∨ regexes ≠ [] then (SelectRouteFromTrie lib r trie regexes,r) else (none,r)

def Serves (rt : Route) : Prop :=
  rt.disabled = false ∧ (rt.entrypoints = [] ∨ entryPoint r ∈ rt.entrypoints) ∧
    ∃ e, Parse lib rt.rule = .ok e ∧ e.Match lib r (requestHost r)

def serves (rt : Route) : Bool :=
  !rt.disabled && decide (rt.entrypoints = [] ∨ entryPoint r ∈ rt.entrypoints) && (GetMatcher lib rt.rule).Match lib r

end

theorem serves_exact : serves lib r rt ↔ Serves lib r rt := by
  unfold serves Serves GetMatcher Matcher.Match
  cases Parse lib rt.rule with
  | error e => simp
  | ok e => simp [and_assoc]

theorem parse_empty (lib : Lib R) : ∃ e, Parse lib [] = .error e := ⟨_,rfl⟩

theorem serves_rule (ok : Serves lib r rt) : rt.rule ≠ [] := by
  obtain ⟨_,_,e,parsed,_⟩ := ok
  intro empty
  rw [empty] at parsed
  obtain ⟨_,refused⟩ := parse_empty lib
  cases refused.symm.trans parsed

theorem slice_find (lib : Lib R) (r : Request) (routes : List Route) :
    SelectRouteFromSlice lib r routes = routes.find? (serves lib r) := by
  induction routes with
  | nil => rfl
  | cons rt rest ih =>
    unfold SelectRouteFromSlice
    rw [List.find?_cons,ih]
    by_cases empty : rt.rule = []
    · have idle : serves lib r rt = false := by
        rw [Bool.eq_false_iff]
        exact fun ok => serves_rule (serves_exact.mp ok) empty
      simp [idle,empty]
    · by_cases admits : rt.entrypoints = [] ∨ entryPoint r ∈ rt.entrypoints
      · have open_ : ¬(rt.entrypoints ≠ [] ∧ entryPoint r ∉ rt.entrypoints) := by tauto
        cases off : rt.disabled <;> cases hit : (GetMatcher lib rt.rule).Match lib r <;>
          simp [serves,off,hit,empty,admits,open_]
      · have shut : rt.entrypoints ≠ [] ∧ entryPoint r ∉ rt.entrypoints := by tauto
        cases off : rt.disabled <;> simp [serves,off,shut]

section
variable (u : Tables) (table : RouteTable) (key : Option GoString)

theorem shelf_candidates_sorted (path : GoString) :
    (candidates ((rebuildSortedLocked u table).shelf key).trie path).Pairwise Before := by
  obtain ⟨_,_,trie,flat,_⟩ := rebuilt_shelf u table key
  rw [flat]
  exact candidates_sorted trie path

theorem shelf_regexes_sorted : ((rebuildSortedLocked u table).shelf key).regexes.Pairwise Before := by
  rw [(rebuilt_shelf u table key).2.1]
  exact (filedIn_sorted u table key).filter _

end

variable (lib : Lib R)
variable (table : RouteTable)
variable (r : Request)
variable (key : Option GoString)

theorem fromTrie_shelf : SelectRouteFromTrie lib r ((rebuildSortedLocked lib.tables table).shelf key).trie
        ((rebuildSortedLocked lib.tables table).shelf key).regexes =
      ((filedIn lib.tables table key).filter (OnPath r.path)).find? (serves lib r) := by
  rw [← sort_offers,← slice_find]
  unfold SelectRouteFromTrie Shelf.offers
  dsimp only
  split
  · rename_i noRegexes
    rw [noRegexes,append_nil,sortRoutes_sorted (shelf_candidates_sorted lib.tables table key r.path)]
  split
  · rename_i noCandidates
    rw [noCandidates,nil_append,sortRoutes_sorted (shelf_regexes_sorted lib.tables table key)]
  · rfl

theorem fromSlice_shelf : SelectRouteFromSlice lib r ((rebuildSortedLocked lib.tables table).shelf key).routes =
      (filedIn lib.tables table key).find? (serves lib r) := by
  rw [(rebuilt_shelf lib.tables table key).1,slice_find]

def BestFiled (table : RouteTable) (r : Request) (key : Option GoString) (rt : Route) : Prop :=
  rt ∈ table.values ∧ Filed lib.tables key rt ∧ Serves lib r rt ∧
    ∀ other ∈ table.values, Filed lib.tables key other → Serves lib r other → Before rt other

theorem find_bestFiled (rt : Route) :
    (filedIn lib.tables table key).find? (serves lib r) = some rt ↔ BestFiled lib table r key rt := by
  rw [find_best (filedIn_untied lib.tables table key) (filedIn_sorted lib.tables table key)]
  simp only [Best,BestFiled,mem_filedIn,serves_exact,and_assoc,and_imp]

theorem shelf_scan_exact : SelectRouteFromTrie lib r ((rebuildSortedLocked lib.tables table).shelf key).trie
        ((rebuildSortedLocked lib.tables table).shelf key).regexes =
      SelectRouteFromSlice lib r ((rebuildSortedLocked lib.tables table).shelf key).routes ↔
    ∀ rt, BestFiled lib table r key rt → OnPath r.path rt := by
  rw [fromTrie_shelf,fromSlice_shelf,find_filter_same]
  simp only [find_bestFiled,decide_eq_true_eq]

theorem trie_scan_exact :
    (∀ host, SelectRouteFromTrie lib r ((rebuildSortedLocked lib.tables table).hostTries host)
          ((rebuildSortedLocked lib.tables table).hostRegexes host) =
        SelectRouteFromSlice lib r ((rebuildSortedLocked lib.tables table).hostIndex host) ↔
      ∀ rt, BestFiled lib table r (some host) rt → OnPath r.path rt) ∧
    (SelectRouteFromTrie lib r (GetWildcardTrie (rebuildSortedLocked lib.tables table)).1
          (GetWildcardTrie (rebuildSortedLocked lib.tables table)).2 =
        SelectRouteFromSlice lib r (ListWildcards (rebuildSortedLocked lib.tables table)) ↔
      ∀ rt, BestFiled lib table r none rt → OnPath r.path rt) :=
  ⟨fun host => shelf_scan_exact lib table r (some host),shelf_scan_exact lib table r none⟩

-- PathPrefix(`/ap`) matches /api, but the trie files it under the segment "ap".
def apRoute : Route := ⟨lit "r1",0,lit "Host(`a.com`) && PathPrefix(`/ap`)",[],false⟩
def apTable : RouteTable := ⟨[apRoute],by decide⟩
def plainGet (host path : GoString) : Request := ⟨lit "GET",host,path,fun _ => [],none,none⟩

theorem trie_misses_prefix : SelectRouteFromTrie Lib.plain (plainGet (lit "a.com") (lit "/api"))
        ((rebuildSortedLocked .ascii apTable).hostTries (lit "a.com"))
        ((rebuildSortedLocked .ascii apTable).hostRegexes (lit "a.com")) = none ∧
    SelectRouteFromSlice Lib.plain (plainGet (lit "a.com") (lit "/api"))
        ((rebuildSortedLocked .ascii apTable).hostIndex (lit "a.com")) = some apRoute ∧
    NormalizePath (lit "/api") = lit "/api" := by
  decide +kernel

def Reachable (u : Tables) (r : Request) (rt : Route) : Prop :=
  (hostKey u rt.rule = some (normalizeHost u (requestHost r)) ∨ hostKey u rt.rule = none) ∧ OnPath r.path rt

theorem fromTrie_some : SelectRouteFromTrie lib r ((rebuildSortedLocked lib.tables table).shelf key).trie
        ((rebuildSortedLocked lib.tables table).shelf key).regexes ≠ none ↔
      ∃ rt ∈ table.values, Serves lib r rt ∧ hostKey lib.tables rt.rule = key ∧ OnPath r.path rt := by
  rw [fromTrie_shelf,ne_eq,find?_eq_none]
  push Not
  simp only [List.mem_filter,mem_filedIn,serves_exact,decide_eq_true_eq,Filed]
  constructor
  · rintro ⟨rt,⟨⟨member,_,keyed⟩,onPath⟩,ok⟩; exact ⟨rt,member,ok,keyed,onPath⟩
  · rintro ⟨rt,member,ok,keyed,onPath⟩; exact ⟨rt,⟨⟨member,serves_rule ok,keyed⟩,onPath⟩,ok⟩

theorem fromTrie_nothing (empty : ¬(trie.isSome ∨ regexes ≠ [])) : SelectRouteFromTrie lib r trie regexes = none := by
  simp only [not_or,Bool.not_eq_true,isSome_eq_false_iff,isNone_iff_eq_none,ne_eq,not_not] at empty
  obtain ⟨rfl,rfl⟩ := empty
  rfl

theorem select_either (reg : RouteRegistry) (normal : NormalizePath r.path = r.path) (clear : AmbiguousPath r.path = false) :
    (SelectRoute lib r reg).1 = (SelectRouteFromTrie lib r (reg.hostTries (normalizeHost lib.tables (requestHost r)))
        (reg.hostRegexes (normalizeHost lib.tables (requestHost r)))).or
      (SelectRouteFromTrie lib r (some reg.wildcardTrie) reg.wildcardRegexes) := by
  have same : { r with path := NormalizePath r.path } = r := by rw [normal]
  unfold SelectRoute
  simp only [clear,same,GetTrieByHost,GetWildcardTrie,Bool.false_eq_true,↓reduceIte,isSome_some,true_or]
  split
  · rename_i rt own
    split at own
    · simp [own]
    · cases own
  · rename_i own
    split at own
    · simp [own]
    · rename_i empty; simp [fromTrie_nothing lib r empty]

theorem select_some (normal : NormalizePath r.path = r.path) (clear : AmbiguousPath r.path = false) :
    (SelectRoute lib r (rebuildSortedLocked lib.tables table)).1 ≠ none ↔
      ∃ rt ∈ table.values, Serves lib r rt ∧ Reachable lib.tables r rt := by
  have own := fromTrie_some lib table r (some (normalizeHost lib.tables (requestHost r)))
  have wild := fromTrie_some lib table r none
  simp only [RouteRegistry.shelf] at own wild
  rw [select_either lib r _ normal clear,ne_eq,or_eq_none_iff,not_and_or,← ne_eq,← ne_eq,own,wild]
  constructor
  · rintro (⟨rt,member,ok,keyed,onPath⟩ | ⟨rt,member,ok,keyed,onPath⟩)
    · exact ⟨rt,member,ok,.inl keyed,onPath⟩
    · exact ⟨rt,member,ok,.inr keyed,onPath⟩
  · rintro ⟨rt,member,ok,keyed | keyed,onPath⟩
    · exact .inl ⟨rt,member,ok,keyed,onPath⟩
    · exact .inr ⟨rt,member,ok,keyed,onPath⟩

theorem index_complete_exact (normal : NormalizePath r.path = r.path) (clear : AmbiguousPath r.path = false) :
    ((∃ rt ∈ table.values, Serves lib r rt) → (SelectRoute lib r (rebuildSortedLocked lib.tables table)).1 ≠ none) ↔
    ((∃ rt ∈ table.values, Serves lib r rt) → ∃ rt ∈ table.values, Serves lib r rt ∧ Reachable lib.tables r rt) := by
  rw [select_some lib table r normal clear]

-- Filed under a.com alone, though the rule parser itself advises this spelling.
def twoHosts : Route := ⟨lit "r1",0,lit "Host(`a.com`) || Host(`b.com`)",[],false⟩
def twoHostsTable : RouteTable := ⟨[twoHosts],by decide⟩

theorem index_complete_first_host : Serves Lib.plain (plainGet (lit "a.com") (lit "/")) twoHosts ∧
    (SelectRoute Lib.plain (plainGet (lit "a.com") (lit "/")) (rebuildSortedLocked .ascii twoHostsTable)).1 ≠ none := by
  have ok : Serves Lib.plain (plainGet (lit "a.com") (lit "/")) twoHosts := serves_exact.mp (by decide +kernel)
  have here : Reachable .ascii (plainGet (lit "a.com") (lit "/")) twoHosts := ⟨.inl (by decide +kernel),by decide +kernel⟩
  have member : twoHosts ∈ twoHostsTable.values := mem_singleton_self _
  exact ⟨ok,(index_complete_exact Lib.plain twoHostsTable (plainGet (lit "a.com") (lit "/"))
    (by decide +kernel) (by decide +kernel)).mpr (fun _ => ⟨twoHosts,member,ok,here⟩) ⟨twoHosts,member,ok⟩⟩

theorem index_hides_second_host :
    (∃ rt ∈ twoHostsTable.values, Serves Lib.plain (plainGet (lit "b.com") (lit "/")) rt) ∧
    NormalizePath (lit "/") = lit "/" ∧ AmbiguousPath (lit "/") = false ∧
    (SelectRoute Lib.plain (plainGet (lit "b.com") (lit "/")) (rebuildSortedLocked .ascii twoHostsTable)).1 = none := by
  refine ⟨⟨twoHosts,mem_singleton_self _,serves_exact.mp ?_⟩,?_⟩ <;> decide +kernel

end Gateon.Router
