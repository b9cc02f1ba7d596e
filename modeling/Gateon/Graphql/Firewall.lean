import Gateon.Graphql.Bound
import Gateon.Go.Trim
import Gateon.Lib.Cache
import Gateon.Lib.Transition

namespace Gateon.Graphql
open Go DepthFirst Forgetful Transition List Option

-- A field of that name is selected, in fragments too, and below other fields where `deep`.
inductive Selects (defs : GoString → Option SelectionSet) (deep : Bool) : SelectionSet → GoString → Prop
  | field : Selects defs deep (.field name sub rest) name
  | inside (down : deep) (inner : Selects defs deep sub name) : Selects defs deep (.field f sub rest) name
  | inline (inner : Selects defs deep sub name) : Selects defs deep (.inline sub rest) name
  | spread (known : defs f = some body) (inner : Selects defs deep body name) : Selects defs deep (.spread f rest) name
  | afterField (later : Selects defs deep rest name) : Selects defs deep (.field f sub rest) name
  | afterInline (later : Selects defs deep rest name) : Selects defs deep (.inline sub rest) name
  | afterSpread (later : Selects defs deep rest name) : Selects defs deep (.spread f rest) name

section
variable {E R : Type} {p : Pass E R} {defs : GoString → Option SelectionSet} (descends : ∀ sub, p.descends sub = deep)

theorem mem_items_field : item ∈ p.items (.field name sub rest) ↔ (p.refuses name).isSome ∧ item = .stop ∨
    (p.refuses name).isSome = false ∧ (p.descends sub ∧ item ∈ p.items sub ∨ item ∈ p.items rest) := by
  rw [Pass.items]
  cases (p.refuses name).isSome <;> cases p.descends sub <;> simp

-- A refused field hides what comes after it, but is itself where the walk stops.
theorem field_within (found : Within (p.next defs) (p.items part) .stop)
    (kept : ∀ item ∈ p.items part, p.descends sub ∧ item ∈ p.items sub ∨ item ∈ p.items rest) :
    Within (p.next defs) (p.items (.field name sub rest)) .stop := by
  cases own : (p.refuses name).isSome with
  | true => exact .here (mem_items_field.mpr (.inl ⟨own,rfl⟩))
  | false => exact found.mono fun item mem => mem_items_field.mpr (.inr ⟨own,kept item mem⟩)

def Explains (p : Pass E R) (defs : GoString → Option SelectionSet) (deep : Bool) (ss : SelectionSet) : Item GoString → Prop
  | .stop => ∃ name, Selects defs deep ss name ∧ (p.refuses name).isSome
  | .visit f => ∀ body, defs f = some body → ∀ name, Selects defs deep body name → Selects defs deep ss name

theorem Explains.lift (inner : Explains p defs deep sub item) (wrap : ∀ name, Selects defs deep sub name → Selects defs deep ss name) :
    Explains p defs deep ss item := by
  cases item with
  | stop => exact inner.imp fun name found => ⟨wrap name found.1,found.2⟩
  | visit f => exact fun body known name found => wrap name (inner body known name found)

theorem nesting_bounded (sets : List SelectionSet) : ∃ nested, ∀ ss ∈ sets, ss.nesting ≤ nested := by
  induction sets with
  | nil => exact ⟨0,nofun⟩
  | cons ss sets ih =>
    obtain ⟨nested,flat⟩ := ih
    exact ⟨max ss.nesting nested,forall_mem_cons.mpr ⟨Nat.le_max_left _ _,fun s mem => Nat.le_trans (flat s mem) (Nat.le_max_right _ _)⟩⟩

include descends

theorem refused_within (selected : Selects defs deep ss name) (refused : (p.refuses name).isSome) :
    Within (p.next defs) (p.items ss) .stop := by
  induction selected with
  | field => exact .here (mem_items_field.mpr (.inl ⟨refused,rfl⟩))
  | inside down _ ih => exact field_within (ih refused) fun _ mem => .inl ⟨(descends _).trans down,mem⟩
  | afterField _ ih => exact field_within (ih refused) fun _ mem => .inr mem
  | inline _ ih => exact (ih refused).mono fun _ mem => mem_append_left _ mem
  | afterInline _ ih => exact (ih refused).mono fun _ mem => mem_append_right _ mem
  | spread known _ ih => exact .through mem_cons_self (by rw [Pass.next,known]; rfl) (ih refused)
  | afterSpread _ ih => exact (ih refused).mono fun _ mem => mem_cons_of_mem _ mem

theorem item_explained (held : item ∈ p.items ss) : Explains p defs deep ss item := by
  induction ss with
  | nil => cases held
  | field name sub rest subIh restIh =>
    rcases mem_items_field.mp held with ⟨own,rfl⟩ | ⟨_,⟨down,held⟩ | held⟩
    · exact ⟨name,.field,own⟩
    · exact (subIh held).lift fun _ => .inside ((descends sub).symm.trans down)
    · exact (restIh held).lift fun _ => .afterField
  | inline sub rest subIh restIh =>
    rcases mem_append.mp held with held | held
    · exact (subIh held).lift fun _ => .inline
    · exact (restIh held).lift fun _ => .afterInline
  | spread name rest restIh =>
    rcases mem_cons.mp held with rfl | held
    · exact fun body known _ found => .spread known found
    · exact (restIh held).lift fun _ => .afterSpread

theorem within_refused (within : Within (p.next defs) items item) (stop : item = .stop) (sets : List SelectionSet)
    (own : items = sets.flatMap p.items) : ∃ ss ∈ sets, ∃ name, Selects defs deep ss name ∧ (p.refuses name).isSome := by
  induction within generalizing sets with
  | here held =>
    rw [own,stop] at held
    obtain ⟨ss,mem,held⟩ := mem_flatMap.mp held
    exact ⟨ss,mem,item_explained descends held⟩
  | through held there _ ih =>
    rw [own] at held
    obtain ⟨ss,mem,held⟩ := mem_flatMap.mp held
    obtain ⟨body,known,rfl⟩ := map_eq_some_iff.mp there
    obtain ⟨_,one,name,found,refused⟩ := ih stop [body] (by simp)
    cases mem_singleton.mp one
    exact ⟨ss,mem,name,item_explained descends held body known name found,refused⟩

theorem refusal_exact (doc : Document) : (p.refusal doc).isSome ↔
    ∃ op ∈ doc.operations, ∃ name, Selects doc.defs deep op name ∧ (p.refuses name).isSome := by
  obtain ⟨nested,flat⟩ := nesting_bounded (doc.operations ++ doc.fragments.map Prod.snd)
  obtain ⟨found,ran,searched⟩ := search_found p doc
  obtain ⟨res,t,walked,_,_,ends,_⟩ := run_agrees p doc nested (fun op mem => flat op (mem_append_left _ mem))
    (fun f mem => flat f.2 (mem_append_right _ (List.mem_map_of_mem mem))) found ran
  have halted : (p.refusal doc).isSome ↔ found.stopped := by
    unfold Pass.refusal
    rw [walked]
    cases res with
    | ok r => simp [ends.1]
    | error e => simpa using ends
  rw [halted]
  constructor
  · exact fun on => within_refused descends (searched.found on) rfl doc.operations rfl
  rintro ⟨op,mem,name,selected,refused⟩
  by_contra going
  have going := Bool.eq_false_iff.mpr going
  refine (searched.clear going).misses (fun n held => searched.closed going n held not_mem_nil) ?_ rfl
  exact (refused_within descends selected refused).mono fun _ held => mem_flatMap.mpr ⟨op,mem,held⟩

end

theorem selections_checked (doc : Document) (need : GoString → Option GoString) (have' : GoString → Bool) :
    (checkFieldAuth doc need have' = none ↔ ∀ op ∈ doc.operations, ∀ name, Selects doc.defs true op name →
      ∀ claim, need name = some claim → have' claim = true) ∧
    (isIntrospectionQuery doc = true ↔ ∃ op ∈ doc.operations, ∃ name, Selects doc.defs false op name ∧ hasPrefix name (lit "__") = true) := by
  have denied := refusal_exact (p := authPass need have') (fun _ => rfl) doc
  have found := refusal_exact (p := introspectionPass) (fun _ => rfl) doc
  constructor
  · have refuses (name : GoString) : ((authPass need have').refuses name).isSome ↔ ∃ claim, need name = some claim ∧ have' claim = false := by
      cases required : need name with
      | none => simp [authPass,required]
      | some claim => cases held : have' claim <;> simp [authPass,required,held]
    rw [checkFieldAuth,← not_isSome_iff_eq_none,denied]
    simp [refuses]
  · rw [isIntrospectionQuery,found]
    simp [introspectionPass]

structure GraphQLFirewallConfig where
  maxDepth : Int
  maxComplexity : Int
  fieldCosts : List (GoString × Int)
  fieldClaims : List (GoString × GoString)
  introspection : Bool
deriving DecidableEq

structure QueryAnalysis where
  depth : Nat
  complexity : Int
  isIntrospect : Bool
deriving DecidableEq

structure Refusal where
  status : Nat
  message : GoString
deriving DecidableEq

def maxCachedQueryBytes : Nat := 8 * 1024

inductive ClaimValue where
  | null
  | bool (b : Bool)
  | string (s : GoString)
  | strings (l : List GoString)
  | list (l : List (Option GoString))
  | other
deriving DecidableEq

abbrev Claims := List (GoString × ClaimValue)

def claimPresent : ClaimValue → Bool
  | .null => false
  | .bool b => b
  | .string s => trimSpace s ≠ []
  | _ => true

def claimValues : ClaimValue → List GoString
  | .string s => (s.splitOnP fun b => b == byte ' ' || b == byte ',').filter fun part => !part.isEmpty
  | .strings l => l
  | .list l => l.filterMap id
  | _ => []

def callerClaimSet (claims : Claims) (claim : GoString) : Bool :=
  claims.any fun (k,v) => claimPresent v &&
    (k == claim || ([lit "roles",lit "groups",lit "scope",lit "scp"].contains k && (claimValues v).contains claim))

def analyse (doc : Document) (cfg : GraphQLFirewallConfig) : QueryAnalysis :=
  ⟨calculateDepth doc,calculateComplexity doc (fun name => cfg.fieldCosts.lookup name),isIntrospectionQuery doc⟩

section
variable (parser : Parser)

def analyseGraphQLQuery (cached : Option QueryAnalysis) (query : GoString) (cfg : GraphQLFirewallConfig) :
    Except Refusal QueryAnalysis × Option QueryAnalysis :=
  match cached with
  | some analysis => (.ok analysis,none)
  | none =>
    match parseGraphQLQuery parser query with
    | .error gerr => (.error ⟨400,lit "GraphQL parse error: " ++ gerr⟩,none)
    | .ok doc => (.ok (analyse doc cfg),if query.length ≤ maxCachedQueryBytes then some (analyse doc cfg) else none)

def graphQLQueryAllowed (analysis : QueryAnalysis) (query : GoString) (cfg : GraphQLFirewallConfig) (claims : Claims) : Option Refusal :=
  if !cfg.introspection && analysis.isIntrospect then some ⟨403,lit "GraphQL introspection is disabled"⟩
  else if 0 < cfg.maxDepth ∧ cfg.maxDepth < analysis.depth then
    some ⟨403,lit "GraphQL query depth " ++ decimal analysis.depth ++ lit " exceeds limit " ++ formatInt cfg.maxDepth⟩
  else if 0 < cfg.maxComplexity ∧ cfg.maxComplexity < analysis.complexity then
    some ⟨403,lit "GraphQL query complexity " ++ formatInt analysis.complexity ++ lit " exceeds limit " ++ formatInt cfg.maxComplexity⟩
  else if cfg.fieldClaims.isEmpty then none
  else
    match parseGraphQLQuery parser query with
    | .error _ => none
    | .ok doc => (checkFieldAuth doc (fun name => cfg.fieldClaims.lookup name) (callerClaimSet claims)).map fun message => ⟨403,message⟩

def verdict (cached : Option QueryAnalysis) (query : GoString) (cfg : GraphQLFirewallConfig) (claims : Claims) : Option Refusal :=
  match (analyseGraphQLQuery parser cached query cfg).1 with
  | .error refusal => some refusal
  | .ok analysis => graphQLQueryAllowed parser analysis query cfg claims

end

structure Checked where
  query : GoString
  cfg : GraphQLFirewallConfig
  claims : Claims
  verdict : Option Refusal
deriving DecidableEq

structure Process (cache : Cache GoString QueryAnalysis) where
  held : cache.State
  pending : List (GoString × QueryAnalysis)
  checked : List Checked

inductive Event where
  | check (query : GoString) (cfg : GraphQLFirewallConfig) (claims : Claims)
  | add (i : Nat)

section
variable (parser : Parser) (cache : Cache GoString QueryAnalysis)

def Process.start : Process cache := ⟨cache.empty,[],[]⟩

def step (s : Process cache) : Event → Option (Process cache)
  | .check query cfg claims =>
    let (cached,held) := cache.get s.held query
    let new := (analyseGraphQLQuery parser cached query cfg).2
    some ⟨held,s.pending ++ (new.map fun analysis => (query,analysis)).toList,
      s.checked ++ [⟨query,cfg,claims,verdict parser cached query cfg claims⟩]⟩
  | .add i => s.pending[i]?.map fun entry => {s with held := cache.add s.held entry.1 entry.2,pending := s.pending.eraseIdx i}

def Process.Sound (s : Process cache) : Prop :=
  ∀ x ∈ s.checked, x.verdict = verdict parser (cache.get cache.empty x.query).1 x.query x.cfg x.claims

end

def SelectionSet.fieldNames : SelectionSet → List GoString
  | .nil => []
  | .field name sub rest => name :: (sub.fieldNames ++ rest.fieldNames)
  | .inline sub rest => sub.fieldNames ++ rest.fieldNames
  | .spread _ rest => rest.fieldNames

def Document.fieldNames (doc : Document) : List GoString :=
  doc.operations.flatMap SelectionSet.fieldNames ++ doc.fragments.flatMap fun f => f.2.fieldNames
def GraphQLFirewallConfig.cost (cfg : GraphQLFirewallConfig) (name : GoString) : Int := (cfg.fieldCosts.lookup name).getD 1

def SameCosts (parser : Parser) (query : GoString) (a b : GraphQLFirewallConfig) : Prop :=
  match parseGraphQLQuery parser query with
  | .error _ => True
  | .ok doc => ∀ n ∈ doc.fieldNames, a.cost n = b.cost n

instance (parser : Parser) (query : GoString) (a b : GraphQLFirewallConfig) : Decidable (SameCosts parser query a b) :=
  match h : parseGraphQLQuery parser query with
  | .error _ => .isTrue (by simp [SameCosts,h])
  | .ok doc => decidable_of_iff (∀ n ∈ doc.fieldNames, a.cost n = b.cost n) (by simp [SameCosts,h])

-- No complexity limit, too long to be kept, or checked under these costs only.
def Careful (parser : Parser) (s : Process cache) : Event → Prop
  | .add _ => True
  | .check query cfg _ =>
    cfg.maxComplexity ≤ 0 ∨ maxCachedQueryBytes < query.length ∨
      ∀ x ∈ s.checked, x.query = query → SameCosts parser query x.cfg cfg

instance (parser : Parser) (s : Process cache) : ∀ e, Decidable (Careful parser s e) := by
  intros
  unfold Careful
  split <;> infer_instance

section
variable {c c' : GoString → Option Int}

theorem walk_costs {set : SelectionSet} (agree : ∀ n ∈ set.fieldNames, (c n).getD 1 = (c' n).getD 1) (into level acc t) :
    (complexityPass c).walk into level set acc t = (complexityPass c').walk into level set acc t := by
  induction set generalizing level acc t with
  | nil => rfl
  | field name sub rest ihSub ihRest =>
    have here := agree name mem_cons_self
    have below := ihSub fun n mem => agree n (mem_cons_of_mem _ (mem_append_left _ mem))
    have later := ihRest fun n mem => agree n (mem_cons_of_mem _ (mem_append_right _ mem))
    have same (acc r) : (complexityPass c).field name acc r = (complexityPass c').field name acc r := by
      simp only [complexityPass,here]
    unfold Pass.walk
    simp only [same,later]
    rw [show (complexityPass c).refuses = (complexityPass c').refuses from rfl,
      show (complexityPass c).descends = (complexityPass c').descends from rfl,
      show (complexityPass c).init = (complexityPass c').init from rfl,
      show (complexityPass c).fieldFrames = (complexityPass c').fieldFrames from rfl,below]
  | inline sub rest ihSub ihRest =>
    have below := ihSub fun n mem => agree n (mem_append_left _ mem)
    have later := ihRest fun n mem => agree n (mem_append_right _ mem)
    unfold Pass.walk
    simp only [later]
    rw [show (complexityPass c).init = (complexityPass c').init from rfl,
      show (complexityPass c).inlineFrames = (complexityPass c').inlineFrames from rfl,below]
    rfl
  | spread name rest ih =>
    have later := ih agree
    unfold Pass.walk
    simp only [later]
    rfl

theorem into_costs (agree : ∀ name body, defs name = some body → ∀ n ∈ body.fieldNames, (c n).getD 1 = (c' n).getD 1) (fuel : Nat) :
    (complexityPass c).into defs fuel = (complexityPass c').into defs fuel := by
  induction fuel with
  | zero =>
    funext name level t
    unfold Pass.into
    cases defs name <;> rfl
  | succ fuel ih =>
    funext name level t
    unfold Pass.into
    cases there : defs name with
    | none => rfl
    | some body => simp only [ih,walk_costs (agree name body there)]; rfl

theorem operations_costs (agree : ∀ op ∈ ops, ∀ n ∈ op.fieldNames, (c n).getD 1 = (c' n).getD 1) (into acc t) :
    (complexityPass c).operations into ops acc t = (complexityPass c').operations into ops acc t := by
  induction ops generalizing acc t with
  | nil => rfl
  | cons op rest ih =>
    have later := ih (forall_mem_cons.mp agree).2
    unfold Pass.operations
    simp only [later,walk_costs (agree op mem_cons_self)]
    rfl

theorem run_costs (agree : ∀ n ∈ doc.fieldNames, (c n).getD 1 = (c' n).getD 1) :
    (complexityPass c).run doc = (complexityPass c').run doc := by
  have bodies : ∀ name body, doc.defs name = some body → ∀ n ∈ body.fieldNames, (c n).getD 1 = (c' n).getD 1 := by
    intro name body there n mem
    obtain ⟨f,found,rfl⟩ := map_eq_some_iff.mp there
    have known := mem_reverse.mp (mem_of_find?_eq_some found)
    exact agree n (mem_append_right _ (mem_flatMap.mpr ⟨f,known,mem⟩))
  have ops : ∀ op ∈ doc.operations, ∀ n ∈ op.fieldNames, (c n).getD 1 = (c' n).getD 1 := fun op known n mem =>
    agree n (mem_append_left _ (mem_flatMap.mpr ⟨op,known,mem⟩))
  unfold Pass.run
  rw [into_costs bodies]
  exact operations_costs ops ..

end

section
variable {parser : Parser} {cache : Cache GoString QueryAnalysis}

theorem analyse_costs (accepted : parseGraphQLQuery parser query = .ok doc) (same : SameCosts parser query a b) :
    analyse doc a = analyse doc b := by
  rw [SameCosts,accepted] at same
  simp only [analyse,calculateComplexity,Pass.value]
  rw [run_costs same]
  rfl

theorem allowed_unlimited (off : cfg.maxComplexity ≤ 0) (doc : Document) (a b : GraphQLFirewallConfig) (query : GoString) (claims : Claims) :
    graphQLQueryAllowed parser (analyse doc a) query cfg claims = graphQLQueryAllowed parser (analyse doc b) query cfg claims := by
  have never (n : Int) : ¬ (0 < cfg.maxComplexity ∧ cfg.maxComplexity < n) := by omega
  simp only [graphQLQueryAllowed,if_neg (never _)]
  rfl

def Kept (parser : Parser) (checked : List Checked) (query : GoString) (analysis : QueryAnalysis) : Prop :=
  query.length ≤ maxCachedQueryBytes ∧
    ∃ x ∈ checked, x.query = query ∧ ∃ doc, parseGraphQLQuery parser query = .ok doc ∧ analysis = analyse doc x.cfg

theorem Kept.later (kept : Kept parser checked query analysis) (x : Checked) : Kept parser (checked ++ [x]) query analysis := by
  obtain ⟨short,y,mem,rest⟩ := kept
  exact ⟨short,y,mem_append_left _ mem,rest⟩

theorem verdict_kept (kept : Kept parser s.checked query analysis) (careful : Careful parser s (.check query cfg claims)) :
    verdict parser (some analysis) query cfg claims = verdict parser none query cfg claims := by
  obtain ⟨short,x,mem,same,doc,accepted,rfl⟩ := kept
  simp only [verdict,analyseGraphQLQuery,accepted]
  rcases careful with off | long | costs
  · exact allowed_unlimited off doc x.cfg cfg query claims
  · exact absurd short (Nat.not_le.mpr long)
  · rw [analyse_costs accepted (costs x mem same)]

theorem analyse_kept (new : (analyseGraphQLQuery parser cached query cfg).2 = some analysis) (checked : List Checked) (claims : Claims)
    (given : Option Refusal) : Kept parser (checked ++ [⟨query,cfg,claims,given⟩]) query analysis := by
  unfold analyseGraphQLQuery at new
  split at new
  · cases new
  split at new
  · cases new
  · rename_i doc accepted
    obtain ⟨short,⟨⟩⟩ := ite_none_right_eq_some.mp new
    exact ⟨short,_,mem_append_right _ mem_cons_self,rfl,doc,accepted,rfl⟩

structure Inv (parser : Parser) (s : Process cache) : Prop where
  held : ∀ query analysis, cache.Holds s.held query analysis → Kept parser s.checked query analysis
  pending : ∀ entry ∈ s.pending, Kept parser s.checked entry.1 entry.2
  sound : s.Sound parser

theorem check_inv (inv : Inv parser s) (careful : Careful parser s (.check query cfg claims))
    (ran : step parser cache s (.check query cfg claims) = some t) : Inv parser t := by
  cases ran
  constructor
  · intro other analysis holds; exact (inv.held other analysis (cache.get_keeps holds)).later _
  · intro entry mem
    rcases mem_append.mp mem with old | new
    · exact (inv.pending entry old).later _
    · obtain ⟨analysis,found,rfl⟩ := map_eq_some_iff.mp (mem_toList.mp new); exact analyse_kept found ..
  · refine forall_snoc inv.sound ?_
    rw [cache.get_empty]
    cases found : (cache.get s.held query).1 with
    | none => rfl
    | some analysis => exact verdict_kept (inv.held _ _ (cache.get_holds found)) careful

theorem add_inv (inv : Inv parser s) (ran : step parser cache s (.add i) = some t) : Inv parser t := by
  obtain ⟨entry,there,rfl⟩ := map_eq_some_iff.mp ran
  have known := inv.pending entry (mem_of_getElem? there)
  constructor
  · intro query analysis holds
    rcases cache.add_keeps holds with ⟨rfl,rfl⟩ | old
    · exact known
    · exact inv.held query analysis old
  · intro other mem; exact inv.pending other (mem_of_mem_eraseIdx mem)
  · exact inv.sound

theorem step_inv (s : Process cache) (e : Event) (t : Process cache) (inv : Inv parser s) (careful : Careful parser s e)
    (ran : step parser cache s e = some t) : Inv parser t := by
  cases e with
  | check query cfg claims => exact check_inv inv careful ran
  | add i => exact add_inv inv ran

theorem start_inv : Inv parser (Process.start cache) where
  held := fun _ _ holds => absurd holds cache.empty_holds
  pending := nofun
  sound := nofun

theorem verdict_ignores_cache (path : Reached (step parser cache) (Careful parser) (Process.start cache) s) : s.Sound parser :=
  (reached_invariant (Inv parser) start_inv (step_inv _ _ _) path).sound

end

def sampleConfig (costs : List (GoString × Int)) : GraphQLFirewallConfig := ⟨0,10,costs,[],false⟩
def sampleRun (costs : List (GoString × Int)) : List Event :=
  [.check (lit "{a}") (sampleConfig [(lit "a",1)]) [],.add 0,.check (lit "{a}") (sampleConfig costs) []]
def sampleChecked (costs : List (GoString × Int)) : List Checked :=
  [⟨lit "{a}",sampleConfig [(lit "a",1)],[],none⟩,⟨lit "{a}",sampleConfig costs,[],none⟩]

theorem verdict_ignores_cache_runs :
    ∃ s, runAllowed (step sampleParser (recent 2048)) (Careful sampleParser) (Process.start _) (sampleRun [(lit "b",7)]) = some s ∧
      s.checked = sampleChecked [(lit "b",7)] ∧ s.Sound sampleParser :=
  shown_run (by decide +kernel) fun s path => verdict_ignores_cache path

-- The second route charges a hundred for the field and allows ten: an empty cache refuses.
theorem verdict_of_other_route :
    ∃ s, run (step sampleParser (recent 2048)) (Process.start _) (sampleRun [(lit "a",100)]) = some s ∧
      s.checked = sampleChecked [(lit "a",100)] ∧ ¬ s.Sound sampleParser := by
  have fresh : verdict sampleParser none (lit "{a}") (sampleConfig [(lit "a",100)]) [] =
      some ⟨403,lit "GraphQL query complexity 100 exceeds limit 10"⟩ := by decide +kernel
  refine shown_some Process.checked (sampleChecked [(lit "a",100)]) (by decide +kernel) fun s _ shown => ⟨shown,fun sound => ?_⟩
  have second := sound ⟨lit "{a}",sampleConfig [(lit "a",100)],[],none⟩ (by simp [shown,sampleChecked])
  rw [Forgetful.Cache.get_empty,fresh] at second
  cases second

end Gateon.Graphql
