import Gateon.Go.Unicode
import Mathlib.Data.Multiset.Basic

namespace Gateon.L4.ConfigHash
open Go List

structure L4Config where
  backends : List GoString
  loadBalancer : GoString
  healthCheckInterval : Int
  healthCheckTimeout : Int
  enableHealthCheck : Bool
  udpSessionTimeout : Int
  proxyProtocol : Bool
  udpMaxSessions : Int

def fnvOffset64 : UInt64 := 14695981039346656037
def fnvPrime64 : UInt64 := 1099511628211
def fnv64a (h : UInt64) (b : UInt8) : UInt64 := (h ^^^ b.toUInt64) * fnvPrime64

-- The NUL after a field is not xored, since that changes nothing.
def field (h : UInt64) (s : GoString) : UInt64 := s.foldl fnv64a h * fnvPrime64

section
variable (c : L4Config)

def L4Config.fields : List GoString :=
  c.loadBalancer :: [c.healthCheckInterval,c.healthCheckTimeout,c.udpSessionTimeout,c.udpMaxSessions].map formatInt ++
    (if c.proxyProtocol then lit "proxy" else lit "noproxy") :: (if c.backends.IsChain NotAfter then c.backends else sorted c.backends)

def configHash : UInt64 := c.fields.foldl field fnvOffset64

-- The bytes FNV is fed with.
def fed : GoString := c.fields.flatMap (· ++ [0])

theorem configHash_fed : configHash c = (fed c).foldl fnv64a fnvOffset64 := by
  have nul (h : UInt64) (s : GoString) : field h s = (s ++ [0]).foldl fnv64a h := by simp [field,fnv64a]
  unfold configHash fed
  generalize fnvOffset64 = h
  induction c.fields generalizing h with
  | nil => rfl
  | cons s rest ih => rw [foldl_cons,flatMap_cons,foldl_append,ih,nul]

theorem backends_sorted (backends : List GoString) : (if backends.IsChain NotAfter then backends else sorted backends) = sorted backends := by
  split
  · rename_i chain; exact (isChain_iff_pairwise.mp chain).insertionSort_eq.symm
  · rfl

-- What NewTCPBackendPool and NewUDPSessionProxy are given, and whether health checks are started.
structure Pool where
  backends : Multiset GoString
  loadBalancer : GoString
  healthCheckInterval : Int
  healthCheckTimeout : Int
  udpSessionTimeout : Int
  udpMaxSessions : Int
  proxyProtocol : Bool
  checked : Bool

def L4Config.pool : Pool :=
  ⟨c.backends,c.loadBalancer,c.healthCheckInterval,c.healthCheckTimeout,c.udpSessionTimeout,c.udpMaxSessions,c.proxyProtocol,
    decide (0 < c.healthCheckInterval) && c.enableHealthCheck⟩

end

structure Plain (c : L4Config) : Prop where
  policy : 0 ∉ c.loadBalancer
  backends : ∀ b ∈ c.backends, 0 ∉ b

theorem Plain.fields (plain : Plain c) : ∀ s ∈ c.fields, 0 ∉ s := by
  have digits (i : Int) : 0 ∉ formatInt i := by
    intro nul
    rcases formatInt_bytes nul with minus | ⟨low,_⟩
    · exact absurd minus (by decide)
    · exact absurd low (by decide)
  have proxy : 0 ∉ if c.proxyProtocol then lit "proxy" else lit "noproxy" := by split <;> decide
  rw [L4Config.fields,backends_sorted]
  simp only [map_cons,map_nil,cons_append,nil_append,forall_mem_cons,sorted_mem]
  exact ⟨plain.policy,digits _,digits _,digits _,digits _,proxy,plain.backends⟩

theorem terminated_inj {p q : List GoString} (free : ∀ s ∈ p, 0 ∉ s) (free' : ∀ s ∈ q, 0 ∉ s)
    (same : p.flatMap (· ++ [0]) = q.flatMap (· ++ [0])) : p = q :=
  flatMap_inj (by simp) (fun a held b held' x y same => (before_inj (free a held) (free' b held') (by simpa using same)).1) same

theorem fields_fixed {c d : L4Config} (same : c.fields = d.fields) : c.loadBalancer = d.loadBalancer ∧
    c.healthCheckInterval = d.healthCheckInterval ∧ c.healthCheckTimeout = d.healthCheckTimeout ∧
    c.udpSessionTimeout = d.udpSessionTimeout ∧ c.udpMaxSessions = d.udpMaxSessions ∧ c.proxyProtocol = d.proxyProtocol ∧
    c.backends.Perm d.backends := by
  simp only [L4Config.fields,backends_sorted,map_cons,map_nil,cons_append,nil_append,cons.injEq] at same
  obtain ⟨policy,interval,timeout,session,most,proxy,backends⟩ := same
  refine ⟨policy,formatInt_injective interval,formatInt_injective timeout,formatInt_injective session,formatInt_injective most,?_,?_⟩
  · revert proxy
    cases c.proxyProtocol <;> cases d.proxyProtocol <;> decide
  · have own : (sorted c.backends).Perm c.backends := perm_insertionSort NotAfter _
    exact own.symm.trans (backends ▸ perm_insertionSort NotAfter _)

theorem key_separates (c d : L4Config) (plain : Plain c) (plain' : Plain d) (same : fed c = fed d) :
    (c.pool = d.pool ↔ (0 < c.healthCheckInterval → c.enableHealthCheck = d.enableHealthCheck)) ∧
      ∀ backends, backends.Perm c.backends → configHash {c with backends := backends} = configHash c := by
  obtain ⟨policy,interval,timeout,session,most,proxy,backends⟩ := fields_fixed (terminated_inj plain.fields plain'.fields same)
  constructor
  · simp only [L4Config.pool,Pool.mk.injEq,policy,interval,timeout,session,most,proxy,Multiset.coe_eq_coe.mpr backends,true_and]
    by_cases on : 0 < d.healthCheckInterval <;> simp [on]
  · intro reordered perm
    simp only [configHash,L4Config.fields,backends_sorted]
    rw [sorted_perm perm]

def sampleConfig (backends : List GoString) (checks : Bool) : L4Config := ⟨backends,lit "round_robin",10000,3000,checks,60,false,0⟩

theorem key_separates_reordered : (sampleConfig [lit "b:1",lit "a:1"] true).pool = (sampleConfig [lit "a:1",lit "b:1"] true).pool := by
  refine (key_separates _ _ ⟨by decide,by decide⟩ ⟨by decide,by decide⟩ (by decide +kernel)).1.mpr ?_
  exact fun _ => rfl

-- Health checks turned off; two backends, and one whose address holds a NUL.
theorem key_collides : (fed (sampleConfig [lit "a:1"] true) = fed (sampleConfig [lit "a:1"] false) ∧
      (sampleConfig [lit "a:1"] true).pool ≠ (sampleConfig [lit "a:1"] false).pool) ∧
    fed (sampleConfig [lit "a:1",lit "b:1"] true) = fed (sampleConfig [lit "a:1" ++ 0 :: lit "b:1"] true) ∧
      (sampleConfig [lit "a:1",lit "b:1"] true).pool ≠ (sampleConfig [lit "a:1" ++ 0 :: lit "b:1"] true).pool := by
  refine ⟨⟨rfl,fun same => ?_⟩,by decide +kernel,fun same => ?_⟩
  · exact absurd (congrArg Pool.checked same) (by decide)
  · exact absurd (congrArg (fun p => p.backends.card) same) (by decide)

end Gateon.L4.ConfigHash
