import Gateon.Config.Routes
import Gateon.Traffic.CacheStore

namespace Gateon.Stores
open Go Config KeyedStore Traffic

def comma : UInt8 := byte ','

section
variable (u : Tables)

def joinListColumn (field : GoString) (values : List GoString) : Except GoString GoString :=
  match values.find? fun v => contains v [comma] with
  | some v => .error (lit "stores: " ++ field ++ lit " " ++ quote u v ++
      lit " contains a comma, which is the separator this column is stored with; it would be read back as two entries")
  | none => .ok (join values [comma])

def splitListColumn (column : GoString) : List GoString := if column = [] then [] else split column comma

-- The tls_config column: empty, a JSON text by what it is read as, or one that cannot be read.
inductive TlsColumn where
  | empty
  | json (tls : RouteTLSConfig)
  | garbled
deriving DecidableEq

def tlsColumn : Option RouteTLSConfig → TlsColumn
  | none => .empty
  | some tls => .json ⟨tls.certificateIds.map jsonText,jsonText tls.optionId,tls.acmeEnabled⟩

-- A row of the routes table. Only disabled may be NULL.
structure Columns where
  id : GoString
  name : GoString
  type : GoString
  entrypoints : GoString
  rule : GoString
  priority : Int
  middlewares : GoString
  serviceId : GoString
  tlsConfig : TlsColumn
  disabled : Option Bool
  streamMode : Int
deriving DecidableEq

def columns (rt : RouteRow) : Except GoString Columns :=
  match joinListColumn u (lit "entrypoint name") rt.entrypoints with
  | .error err => .error err
  | .ok entrypoints =>
    match joinListColumn u (lit "middleware name") rt.middlewares with
    | .error err => .error err
    | .ok middlewares => .ok ⟨rt.id,rt.name,rt.type,entrypoints,rt.rule,rt.priority,middlewares,rt.serviceId,tlsColumn rt.tls,some rt.disabled,rt.streamMode⟩

-- A row as reload reads it; one that cannot be read is dropped.
def scanRoute (c : Columns) : Option RouteRow :=
  c.disabled.bind fun disabled =>
    let read (tls : Option RouteTLSConfig) : RouteRow :=
      { id := c.id, priority := c.priority, rule := c.rule, entrypoints := splitListColumn c.entrypoints, disabled := disabled, name := c.name,
        type := c.type, middlewares := splitListColumn c.middlewares, serviceId := c.serviceId, tls := tls, streamMode := c.streamMode }
    match c.tlsConfig with
    | .empty => some (read none)
    | .json tls => some (read (some tls))
    | .garbled => none

def refusal (rt : RouteRow) : Option GoString :=
  match columns u rt with
  | .error err => some err
  | .ok _ => none

def routes : RegistryKind RouteRow RouteRegistry RouteAnswers where
  key := RouteRow.key
  rebuild rows := rebuildSortedLocked u (routeTable rows)
  answers := routeAnswers u
  refused := refusal u
  stable := routes_stable u

def newEmptyRouteRegistry : Memory (routes u) := ⟨.empty,cleared [],cleared_answers u⟩

end

abbrev Table : Type := Store Columns.id

structure DBRouteRegistry (u : Tables) where
  table : Table
  memory : Memory (routes u)

variable {u : Tables}

section
variable (r : DBRouteRegistry u)

def DBRouteRegistry.update (rt : RouteRow) (fault : Option GoString) : DBRouteRegistry u × Option GoString :=
  let (memory,err) := r.memory.call (.dbUpdate rt fault)
  match columns u rt,fault with
  | .ok row,none => (⟨r.table.put row,memory⟩,err)
  | _,_ => (⟨r.table,memory⟩,err)

def DBRouteRegistry.delete (id : GoString) (fault : Option GoString) : DBRouteRegistry u × Option GoString :=
  let (memory,err) := r.memory.call (.dbDelete id fault)
  match fault with
  | none => (⟨r.table.remove id,memory⟩,err)
  | some _ => (⟨r.table,memory⟩,err)

def DBRouteRegistry.reload (fault : Option GoString) : DBRouteRegistry u × Option GoString :=
  let read : Except GoString (List RouteRow) :=
    match fault with
    | some err => .error err
    | none => .ok (r.table.rows.filterMap scanRoute)
  let (memory,err) := r.memory.call (.dbReload read)
  (⟨r.table,memory⟩,err)

def DBRouteRegistry.get (id : GoString) : Option RouteRow := r.memory.rows.get id

def Survives (rt : RouteRow) : Prop :=
  ((r.update rt none).1.reload none).1.get rt.id = some rt ∧
    ∀ id, id ≠ rt.id → ((r.update rt none).1.reload none).1.get id = (r.reload none).1.get id

end

def TlsKept (tls : Option RouteTLSConfig) : Prop := ∀ t, tls = some t → (∀ id ∈ t.certificateIds, jsonText id = id) ∧ jsonText t.optionId = t.optionId

structure Storable (rt : RouteRow) : Prop where
  entrypoints : rt.entrypoints ≠ [[]]
  middlewares : rt.middlewares ≠ [[]]
  tls : TlsKept rt.tls

theorem joinListColumn_ok (joined : joinListColumn u field values = .ok column) :
    column = join values [comma] ∧ ∀ v ∈ values, comma ∉ v := by
  unfold joinListColumn at joined
  split at joined
  · cases joined
  rename_i clean
  cases joined
  refine ⟨rfl,?_⟩
  intro v member inside
  have free := List.find?_eq_none.mp clean v member
  obtain ⟨a,b,rfl⟩ := List.append_of_mem inside
  exact free (contains_iff.mpr ⟨a,b,by simp⟩)

theorem splitListColumn_join (free : ∀ v ∈ values, comma ∉ v) : splitListColumn (join values [comma]) = values ↔ values ≠ [[]] := by
  unfold splitListColumn
  match values with
  | [] => simp [join]
  | [v] =>
    have single : join [v] [comma] = v := List.intercalate_singleton ..
    rw [single]
    by_cases blank : v = []
    · simp [blank]
    · simp [blank,split_none (free v List.mem_cons_self)]
  | v :: w :: rest =>
    have long : join (v :: w :: rest) [comma] ≠ [] := by simp [join_cons]
    rw [if_neg long,split_join _ (List.cons_ne_nil v (w :: rest)) free]
    simp

theorem tlsColumn_kept (tls : RouteTLSConfig) :
    (⟨tls.certificateIds.map jsonText,jsonText tls.optionId,tls.acmeEnabled⟩ : RouteTLSConfig) = tls ↔ TlsKept (some tls) := by
  obtain ⟨ids,option,acme⟩ := tls
  have ids_kept : ids.map jsonText = ids ↔ ∀ id ∈ ids, jsonText id = id := by
    conv_lhs => rhs; rw [← List.map_id ids]
    exact List.map_inj_left
  simp [TlsKept,ids_kept]

theorem scan_columns (made : columns u rt = .ok row) : scanRoute row = some rt ↔ Storable rt := by
  unfold columns at made
  split at made
  · cases made
  rename_i entrypoints first
  split at made
  · cases made
  rename_i middlewares second
  cases made
  obtain ⟨rfl,freeE⟩ := joinListColumn_ok first
  obtain ⟨rfl,freeM⟩ := joinListColumn_ok second
  obtain ⟨⟨id,priority,rule,eps,disabled⟩,name,type,mws,service,tls,mode⟩ := rt
  have eps_kept := splitListColumn_join freeE
  have mws_kept := splitListColumn_join freeM
  have parts : Storable ⟨⟨id,priority,rule,eps,disabled⟩,name,type,mws,service,tls,mode⟩ ↔ eps ≠ [[]] ∧ mws ≠ [[]] ∧ TlsKept tls :=
    ⟨fun s => ⟨s.entrypoints,s.middlewares,s.tls⟩,fun s => ⟨s.1,s.2.1,s.2.2⟩⟩
  rw [parts,← eps_kept,← mws_kept]
  cases tls with
  | none => simp [scanRoute,tlsColumn,TlsKept]
  | some tls => rw [← tlsColumn_kept]; simp [scanRoute,tlsColumn]

theorem scanRoute_id (read : scanRoute row = some rt) : rt.id = row.id := by
  obtain ⟨disabled,_,made⟩ := Option.bind_eq_some_iff.mp read
  split at made <;> cases made <;> rfl

theorem columns_id (made : columns u rt = .ok row) : row.id = rt.id := by
  unfold columns at made
  split at made
  · cases made
  split at made
  · cases made
  · cases made; rfl

variable (r : DBRouteRegistry u)

theorem get_reload (id : GoString) : (r.reload none).1.get id = (r.table.get id).bind scanRoute := by
  have distinct : ((r.table.rows.filterMap scanRoute).map RouteRow.key).Nodup := by
    have rows := List.pairwise_map.mp r.table.distinct
    refine List.pairwise_map.mpr (List.pairwise_filterMap.mpr (rows.imp ?_))
    intro a b apart x readX y readY same
    exact apart ((scanRoute_id readX).symm.trans (same.trans (scanRoute_id readY)))
  ext rt
  have loaded : rt ∈ ((Store.empty : RouteMap).load (r.table.rows.filterMap scanRoute)).rows ↔ rt ∈ r.table.rows.filterMap scanRoute := by
    rw [mem_load distinct]
    simp [Store.empty]
  change (Store.load Store.empty (r.table.rows.filterMap scanRoute) : RouteMap).get id = some rt ↔ _
  rw [get_eq_some,loaded,List.mem_filterMap,Option.bind_eq_some_iff]
  constructor
  · rintro ⟨⟨row,held,read⟩,named⟩
    exact ⟨row,get_eq_some.mpr ⟨held,(scanRoute_id read).symm.trans named⟩,read⟩
  · rintro ⟨row,found,read⟩
    obtain ⟨held,named⟩ := get_eq_some.mp found
    exact ⟨⟨row,held,read⟩,(scanRoute_id read).trans named⟩

theorem update_table (made : columns u rt = .ok row) : (r.update rt none).1.table = r.table.put row := by
  simp [DBRouteRegistry.update,made]

theorem routes_survive (rt : RouteRow) (accepted : (r.update rt none).2 = none) :
    (Survives r rt ↔ Storable rt) ∧ ∀ err, r.reload (some err) = (r,some err) := by
  refine ⟨?_,fun err => rfl⟩
  obtain ⟨row,made⟩ : ∃ row, columns u rt = .ok row := by
    cases made : columns u rt with
    | ok row => exact ⟨row,rfl⟩
    | error err => simp [DBRouteRegistry.update,Memory.call,routes,refusal,made] at accepted
  have named := columns_id made
  have own : ((r.update rt none).1.reload none).1.get rt.id = scanRoute row := by
    rw [get_reload,update_table r made,← named,get_put_same]
    rfl
  have others (id : GoString) (apart : id ≠ rt.id) : ((r.update rt none).1.reload none).1.get id = (r.reload none).1.get id := by
    rw [get_reload,get_reload,update_table r made,get_put_other _ _ (by rw [named]; exact apart)]
  unfold Survives
  rw [own,scan_columns made]
  exact ⟨fun survives => survives.1,fun storable => ⟨storable,others⟩⟩

def plainRoute : RouteRow :=
  { id := lit "r1", priority := 10, rule := lit "PathPrefix(\"/admin\")", entrypoints := [lit "internal",[]], disabled := false, name := lit "admin",
    type := lit "http", middlewares := [], serviceId := lit "s1", tls := some ⟨[lit "c1"],[],true⟩, streamMode := 1 }

def emptyDatabase : DBRouteRegistry Tables.ascii := ⟨.empty,newEmptyRouteRegistry Tables.ascii⟩

theorem routes_survive_plain : (emptyDatabase.update plainRoute none).2 = none ∧ Storable plainRoute ∧ Survives emptyDatabase plainRoute := by
  have accepted : (emptyDatabase.update plainRoute none).2 = none := by decide +kernel
  have storable : Storable plainRoute := by
    refine ⟨by decide,by decide,?_⟩
    intro t same
    cases same
    decide +kernel
  exact ⟨accepted,storable,(routes_survive emptyDatabase plainRoute accepted).1.mpr storable⟩

-- A route kept to the entrypoint with the empty name comes back open to every entrypoint.
theorem lone_empty_name_lost : ∃ r : DBRouteRegistry Tables.ascii, ∃ rt,
    (r.update rt none).2 = none ∧ ¬Survives r rt ∧ (((r.update rt none).1.reload none).1.get rt.id).map (fun back => back.entrypoints) = some [] := by
  refine ⟨emptyDatabase,{plainRoute with entrypoints := [[]]},by decide +kernel,?_,by decide +kernel⟩
  intro survives
  have read : (((emptyDatabase.update {plainRoute with entrypoints := [[]]} none).1.reload none).1.get (lit "r1")).map
      (fun back => back.entrypoints) = some [] := by decide +kernel
  have back := survives.1
  change ((emptyDatabase.update {plainRoute with entrypoints := [[]]} none).1.reload none).1.get (lit "r1") = _ at back
  rw [back] at read
  cases read

theorem failed_save_unchanged (u : Tables) :
    (∀ (m : Memory (routes u)) (c : Call RouteRow), Unchanged m c ↔ Harmless m c) ∧
      ∀ (S : Type) (key : S → GoString) (m : Memory (services key)) (c : Call S), Unchanged m c ↔ Harmless m c :=
  ⟨unchanged_iff,fun _ _ m c => unchanged_iff m c⟩

-- A route whose file cannot be written is served all the same.
theorem unsaved_route_served :
    ((newEmptyRouteRegistry Tables.ascii).call (.fileUpdate plainRoute (some (lit "write routes file: no space left on device")))).2.isSome = true ∧
      ¬Unchanged (newEmptyRouteRegistry Tables.ascii) (.fileUpdate plainRoute (some (lit "write routes file: no space left on device"))) := by
  refine ⟨rfl,?_⟩
  intro unchanged
  have get := congrArg Prod.fst (unchanged rfl)
  have held : ((newEmptyRouteRegistry Tables.ascii).rows.put plainRoute).get plainRoute.key = some plainRoute := get_put_same plainRoute
  have lost := congrFun get plainRoute.key
  cases held.symm.trans lost

end Gateon.Stores
