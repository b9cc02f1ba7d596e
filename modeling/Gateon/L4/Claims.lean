import Gateon.Router.Select

namespace Gateon.L4.Claims
open Go Rule Router List

structure Route extends Config.Route where
  type : GoString
  serviceId : GoString

structure RouteClaims where
  everywhere : Bool
  inspected : List GoString

section
variable (u : Tables)

def isPacket (rt : Route) : Bool := toLower u rt.type == lit "tcp" || toLower u rt.type == lit "udp"
def isShell (rt : Route) : Bool := toLower u rt.type == lit "ssh" || toLower u rt.type == lit "rdp"

-- One round of the loop of newRouteClaims.
def RouteClaims.claim (c : RouteClaims) (rt : Route) : RouteClaims :=
  if rt.disabled then c
  else if isPacket u rt then c
  else if isShell u rt then (if rt.serviceId ≠ [] then {c with inspected := c.inspected ++ rt.entrypoints} else c)
  else ⟨c.everywhere || rt.entrypoints.isEmpty,c.inspected ++ rt.entrypoints⟩

def newRouteClaims (routes : List Route) : RouteClaims := routes.foldl (RouteClaims.claim u) ⟨false,[]⟩
def RouteClaims.inspects (c : RouteClaims) (epID : GoString) : Bool := c.everywhere || c.inspected.contains epID

def selectFrom (epID rtLower protoLower : GoString) : Option Route → List Route → Option Route
  | best,[] => best
  | best,rt :: rest =>
    if rt.disabled ∨ rt.serviceId = [] then selectFrom epID rtLower protoLower best rest
    else if protoLower ≠ [] ∧ toLower u rt.type = protoLower ∧ epID ∈ rt.entrypoints then some rt
    else if toLower u rt.type = rtLower ∧ epID ∈ rt.entrypoints then
      selectFrom epID rtLower protoLower (if best.all fun b => b.priority < rt.priority then some rt else best) rest
    else selectFrom epID rtLower protoLower best rest

def SelectL4Route (epID routeType protocol : GoString) (routes : List Route) : Option Route :=
  selectFrom u epID (toLower u routeType) (toLower u protocol) none routes

-- By what IsSSH and IsRDP say of the first bytes.
def l4Protocol (ssh rdp : Bool) : GoString := if ssh then lit "ssh" else if rdp then lit "rdp" else []

def claims (epID : GoString) (rt : Route) : Bool :=
  !rt.disabled && !isPacket u rt && if isShell u rt then !rt.serviceId.isEmpty && rt.entrypoints.contains epID
    else rt.entrypoints.isEmpty || rt.entrypoints.contains epID

variable {u}

theorem claim_inspects (c : RouteClaims) (rt : Route) : (c.claim u rt).inspects epID = (c.inspects epID || claims u epID rt) := by
  unfold RouteClaims.claim claims RouteClaims.inspects
  cases rt.disabled <;> cases isPacket u rt <;> cases isShell u rt <;> cases rt.serviceId <;>
    simp [Bool.or_assoc,Bool.or_comm,Bool.or_left_comm]

theorem inspects_any (c : RouteClaims) (routes : List Route) :
    (routes.foldl (RouteClaims.claim u) c).inspects epID = (c.inspects epID || routes.any (claims u epID)) := by
  induction routes generalizing c with
  | nil => simp
  | cons rt rest ih => rw [foldl_cons,ih,claim_inspects,any_cons,Bool.or_assoc]

theorem select_unmatched (best : Option Route) (routes : List Route)
    (free : ∀ rt ∈ routes, rt.disabled = false → rt.serviceId ≠ [] → toLower u rt.type = proto → epID ∉ rt.entrypoints) :
    selectFrom u epID kind proto best routes = selectFrom u epID kind [] best routes := by
  induction routes generalizing best with
  | nil => rfl
  | cons rt rest ih =>
    have later := fun best => ih best (forall_mem_cons.mp free).2
    unfold selectFrom
    simp only [later]
    by_cases off : rt.disabled ∨ rt.serviceId = []
    · rw [if_pos off,if_pos off]
    rw [not_or,Bool.not_eq_true] at off
    have other : ¬(proto ≠ [] ∧ toLower u rt.type = proto ∧ epID ∈ rt.entrypoints) :=
      fun ⟨_,same,listed⟩ => free rt mem_cons_self off.1 off.2 same listed
    simp [off,other]
end

-- By the L4 resolver under some protocol, or by the HTTP router for some request.
def OverHTTP (lib : Lib R) (epID : GoString) (rt : Route) : Prop := ∃ r, entryPoint r = epID ∧ Serves lib r rt.toRoute
def Served (lib : Lib R) (epID : GoString) (rt : Route) : Prop :=
  (rt.disabled = false ∧ rt.serviceId ≠ [] ∧ epID ∈ rt.entrypoints) ∨ OverHTTP lib epID rt

theorem skipping_safe (lib : Lib R) (routes : List Route) (epID : GoString) (unread : (newRouteClaims lib.tables routes).inspects epID = false) :
    (∀ protocol, toLower lib.tables protocol ≠ lit "tcp" → toLower lib.tables protocol ≠ lit "udp" →
      SelectL4Route lib.tables epID (lit "tcp") protocol routes = SelectL4Route lib.tables epID (lit "tcp") [] routes) ∧
    ((∀ rt ∈ routes, isPacket lib.tables rt = false → ¬ Served lib epID rt) ↔
      ∀ rt ∈ routes, isShell lib.tables rt = true → (rt.serviceId = [] ∨ rt.entrypoints = []) → ¬ OverHTTP lib epID rt) := by
  have unclaimed : ∀ rt ∈ routes, claims lib.tables epID rt = false := by
    rw [newRouteClaims,inspects_any,Bool.or_eq_false_iff] at unread
    simpa using unread.2
  have apart : ∀ rt, isShell lib.tables rt = true → isPacket lib.tables rt = false := by
    intro rt shell
    simp only [isShell,isPacket,Bool.or_eq_true,beq_iff_eq] at shell ⊢
    rcases shell with same | same <;> rw [same] <;> decide
  constructor
  · intro protocol tcp udp
    refine select_unmatched none routes ?_
    intro rt member enabled service same listed
    have packet : isPacket lib.tables rt = false := by simp [isPacket,same,tcp,udp]
    have none := unclaimed rt member
    simp [claims,enabled,packet,service,listed] at none
  constructor
  · intro nothing rt member shell _ http
    exact nothing rt member (apart rt shell) (.inr http)
  intro ruled rt member packet served
  have none := unclaimed rt member
  rcases served with ⟨enabled,service,listed⟩ | ⟨r,rfl,enabled,listed,matched⟩
  · cases shell : isShell lib.tables rt <;> simp [claims,enabled,packet,shell,service,listed] at none
  cases shell : isShell lib.tables rt with
  | false => rcases listed with all | here <;> simp_all [claims]
  | true =>
    refine ruled rt member shell ?_ ⟨r,rfl,enabled,listed,matched⟩
    rcases listed with all | here
    · exact .inr all
    · left
      by_contra service
      simp [claims,enabled,packet,shell,service,here] at none

def sampleRoute (type rule service : String) (entrypoints : List GoString) : Route :=
  ⟨⟨lit "r",0,lit rule,entrypoints,false⟩,lit type,lit service⟩

theorem skipping_safe_ssh : ∃ routes, (newRouteClaims Tables.ascii routes).inspects (lit "e") = false ∧
    SelectL4Route Tables.ascii (lit "e") (lit "tcp") (l4Protocol true false) routes = SelectL4Route Tables.ascii (lit "e") (lit "tcp") [] routes :=
  ⟨[sampleRoute "TCP" "" "db" [lit "e"],sampleRoute "ssh" "" "bastion" [lit "f"]],by decide +kernel,
    (skipping_safe Lib.plain _ (lit "e") (by decide +kernel)).1 _ (by decide) (by decide)⟩

-- An ssh route that lists no entrypoint claims none, and its rule is met by every HTTP request.
theorem ruled_ssh_unclaimed :
    (newRouteClaims Tables.ascii [sampleRoute "tcp" "" "db" [lit "e"],sampleRoute "ssh" "PathPrefix(`/`)" "web" []]).inspects (lit "e") = false ∧
    Served Lib.plain (lit "e") (sampleRoute "ssh" "PathPrefix(`/`)" "web" []) := by
  refine ⟨by decide +kernel,.inr ⟨⟨lit "GET",lit "a.com",lit "/",fun _ => [],none,some (lit "e")⟩,rfl,serves_exact.mp ?_⟩⟩
  decide +kernel

end Gateon.L4.Claims
