import Gateon.Go.Http
import Gateon.Lib.Cache
import Gateon.Lib.KeyedStore
import Mathlib.Data.List.Perm.Subperm

namespace Gateon.Traffic
open Go KeyedStore Forgetful Function List

structure Stored where
  status : Nat
  headers : Header
  body : GoString

structure CacheEntry where
  key : GoString
  stored : Stored
  expireAt : Nat

abbrev Entries := Store CacheEntry.key

structure CacheStore where
  entries : Entries
  order : List GoString
  max : Nat

def cacheShards : Nat := 16
def cacheOrderSlack : Nat := 2

def CacheStore.get (s : CacheStore) (now : Nat) (key : GoString) : Option Stored × CacheStore :=
  match s.entries.get key with
  | none => (none,s)
  | some ent => if ent.expireAt < now then (none,{s with entries := s.entries.remove key}) else (some ent.stored,s)

def evict (entries : Entries) : List GoString → Entries × List GoString
  | [] => (entries,[])
  | old :: order => if (entries.get old).isSome then (entries.remove old,order) else evict entries order

-- Of every key that is still there its most recent slot stays.
def compactOrder (entries : Entries) (order : List GoString) : List GoString :=
  (order.filter fun k => (entries.get k).isSome).dedup

def CacheStore.makeRoom (s : CacheStore) (key : GoString) : CacheStore :=
  let (entries,order) := if s.max ≤ s.entries.rows.length then evict s.entries s.order else (s.entries,s.order)
  let order := if cacheOrderSlack * s.max ≤ order.length then compactOrder entries order else order
  {s with entries := entries,order := order ++ [key]}

def CacheStore.set (s : CacheStore) (ent : CacheEntry) : CacheStore :=
  let s := if (s.entries.get ent.key).isSome then s else s.makeRoom ent.key
  {s with entries := s.entries.put ent}

theorem evict_keeps (order : List GoString) (found : (evict entries order).1.get k = some ent) : entries.get k = some ent := by
  induction order with
  | nil => exact found
  | cons old order ih =>
    unfold evict at found
    split at found
    · exact get_remove found
    · exact ih found

theorem makeRoom_keeps (found : (CacheStore.makeRoom s key).entries.get k = some ent) : s.entries.get k = some ent := by
  unfold CacheStore.makeRoom at found
  dsimp only at found
  split at found
  · exact evict_keeps s.order found
  · exact found

theorem set_keeps (found : (CacheStore.set s new).entries.get k = some ent) : ent = new ∨ s.entries.get k = some ent := by
  rcases mem_put.mp (get_eq_some.mp found).1 with same | ⟨mem,_⟩
  · exact .inl same
  have before := get_eq_some.mpr ⟨mem,(get_eq_some.mp found).2⟩
  split at before
  · exact .inr before
  · exact .inr (makeRoom_keeps before)

theorem get_keeps (found : (CacheStore.get s now key).2.entries.get k = some ent) : s.entries.get k = some ent := by
  unfold CacheStore.get at found
  split at found
  · exact found
  · split at found
    · exact get_remove found
    · exact found

theorem get_returns (found : (CacheStore.get s now key).1 = some stored) :
    ∃ ent, s.entries.get key = some ent ∧ ent.stored = stored ∧ now ≤ ent.expireAt := by
  unfold CacheStore.get at found
  split at found
  · cases found
  rename_i ent there
  split at found
  · cases found
  · rename_i fresh; exact ⟨ent,there,Option.some.inj found,Nat.le_of_not_lt fresh⟩

def getShard (key : GoString) : Fin cacheShards :=
  let hash := key.foldl (fun (hash : UInt32) b => (hash ^^^ b.toUInt32) * 16777619) 2166136261
  ⟨hash.toNat % cacheShards,Nat.mod_lt _ (by decide)⟩

def memoryCacheBackend (max : Nat) : Expiring GoString Stored where
  State := Fin cacheShards → CacheStore
  empty := fun _ => ⟨Store.empty,[],Nat.max (max / cacheShards) 1⟩
  get := fun shards now key =>
    let (found,shard) := (shards (getShard key)).get now key
    (found,update shards (getShard key) shard)
  set := fun shards now key stored ttl =>
    update shards (getShard key) ((shards (getShard key)).set ⟨key,stored,now + ttl⟩)
  kept := id
  Holds := fun shards key stored expireAt => (shards (getShard key)).entries.get key = some ⟨key,stored,expireAt⟩
  empty_holds := nofun
  get_holds := by
    intro shards now key stored found
    obtain ⟨ent,there,rfl,fresh⟩ := get_returns found
    obtain rfl := (get_eq_some.mp there).2
    exact ⟨ent.expireAt,there,fresh⟩
  get_keeps := by
    intro shards now key k v u held
    dsimp only at held
    by_cases same : getShard k = getShard key
    · rw [same,update_self] at held
      rw [same]
      exact get_keeps held
    · rwa [update_of_ne same] at held
  set_keeps := by
    intro shards now key stored ttl k v u held
    by_cases same : getShard k = getShard key
    · rw [same,update_self] at held
      rcases set_keeps held with new | old
      · obtain ⟨rfl,rfl,rfl⟩ := CacheEntry.mk.inj new; exact .inl ⟨rfl,rfl,rfl⟩
      · exact .inr (by rw [same]; exact old)
    · rw [update_of_ne same] at held; exact .inr held

def cacheKeyPrefix : GoString := lit "gateon:cache:"

-- encoding/json puts U+FFFD for what is not UTF-8.
def jsonText (s : GoString) : GoString := (runes s).flatMap encodeRune

-- NewRedisCacheBackend: the payload goes through JSON, the body in base64.
def redisCacheBackend (client : Expiring GoString Stored) : Expiring GoString Stored where
  State := client.State
  empty := client.empty
  get := fun s now key => client.get s now (cacheKeyPrefix ++ key)
  set := fun s now key stored ttl =>
    client.set s now (cacheKeyPrefix ++ key) {stored with headers := fun k => (stored.headers k).map jsonText} ttl
  kept := fun stored => client.kept {stored with headers := fun k => (stored.headers k).map jsonText}
  Holds := fun s key => client.Holds s (cacheKeyPrefix ++ key)
  empty_holds := client.empty_holds
  get_holds := client.get_holds
  get_keeps := client.get_keeps
  set_keeps := by
    intro s now key stored ttl k v u held
    rcases client.set_keeps held with ⟨same,rest⟩ | old
    · exact .inl ⟨List.append_cancel_left same,rest⟩
    · exact .inr old

inductive StoreCall where
  | get (now : Nat) (key : GoString)
  | set (ent : CacheEntry)

-- The store, and the keys inserted into its map, the latest last.
structure Filling where
  store : CacheStore
  inserted : List GoString

def Filling.new (max : Nat) : Filling := ⟨⟨Store.empty,[],max⟩,[]⟩

def Filling.call (p : Filling) : StoreCall → Filling
  | .get now key => {p with store := (p.store.get now key).2}
  | .set ent => ⟨p.store.set ent,if (p.store.entries.get ent.key).isSome then p.inserted else p.inserted ++ [ent.key]⟩

def fill (max : Nat) (calls : List StoreCall) : Filling := calls.foldl Filling.call (Filling.new max)

def live (entries : Entries) (k : GoString) : Bool := (entries.get k).isSome

variable {entries : Entries} {max : Nat}

theorem dedup_filter (p : GoString → Bool) (l : List GoString) : (l.filter p).dedup = l.dedup.filter p := by
  induction l with
  | nil => rfl
  | cons k l ih =>
    by_cases again : k ∈ l <;> by_cases kept : p k <;> simp [again,kept,ih]

theorem dedup_snoc (l : List GoString) (k : GoString) : (l ++ [k]).dedup = (l.filter (· ≠ k)).dedup ++ [k] := by
  induction l with
  | nil => rfl
  | cons x l ih =>
    by_cases same : x = k
    · simp [same,ih]
    · by_cases again : x ∈ l <;> simp [same,again,ih]

theorem live_remove (old k : GoString) : live (entries.remove old) k = (live entries k && k ≠ old) := by
  unfold live
  by_cases same : k = old
  · simp [same,get_remove_same]
  · simp [same,get_remove_other same]

theorem live_put (ent : CacheEntry) (k : GoString) : live (entries.put ent) k = (live entries k || k = ent.key) := by
  unfold live
  by_cases same : k = ent.key
  · simp [same,get_put_same]
  · simp [same,get_put_other entries ent same]

theorem compactOrder_eq (order : List GoString) : compactOrder entries order = (order.filter (live entries)).dedup := rfl

theorem filter_remove (old : GoString) (order : List GoString) :
    order.filter (live (entries.remove old)) = (order.filter (live entries)).filter (· ≠ old) := by
  rw [filter_filter]
  exact congrArg (order.filter ·) (funext fun k => (live_remove old k).trans (Bool.and_comm ..))

theorem compactOrder_length (order : List GoString) : (compactOrder entries order).length ≤ entries.rows.length := by
  rw [← length_map CacheEntry.key]
  refine ((nodup_dedup _).subperm fun k member => ?_).length_le
  obtain ⟨ent,found⟩ := Option.isSome_iff_exists.mp (mem_filter.mp (mem_dedup.mp member)).2
  obtain ⟨held,rfl⟩ := get_eq_some.mp found
  exact mem_map_of_mem held

-- The slots given up before the evicted one stand for nothing that is still there.
theorem evict_spec (order : List GoString) (here : ∃ k ∈ order, live entries k) : ∃ old rest, rest.length < order.length ∧
    order.filter (live entries) = old :: rest.filter (live entries) ∧ evict entries order = (entries.remove old,rest) := by
  induction order with
  | nil => simp at here
  | cons k order ih =>
    cases first : live entries k with
    | true => exact ⟨k,order,Nat.lt_succ_self _,filter_cons_of_pos first,if_pos first⟩
    | false =>
      obtain ⟨old,rest,fewer,filtered,evicted⟩ := ih (by simpa [first] using here)
      have gone := Bool.eq_false_iff.mp first
      exact ⟨old,rest,Nat.lt_succ_of_lt fewer,(filter_cons_of_neg gone).trans filtered,(if_neg gone).trans evicted⟩

-- The index orders the live keys as their latest insertions do.
structure Indexed (entries : Entries) (order inserted : List GoString) : Prop where
  slot : ∀ k, live entries k → k ∈ order
  same : compactOrder entries order = compactOrder entries inserted

section
variable (indexed : Indexed entries order inserted)
include indexed

theorem Indexed.remove (old : GoString) : Indexed (entries.remove old) order inserted := by
  refine ⟨fun k there => indexed.slot k ?_,?_⟩
  · rw [live_remove] at there; exact (Bool.and_eq_true_iff.mp there).1
  · have same := congrArg (filter (· ≠ old)) indexed.same
    rwa [compactOrder_eq,compactOrder_eq,← dedup_filter,← dedup_filter,← filter_remove,← filter_remove] at same

theorem Indexed.compact : Indexed entries (compactOrder entries order) inserted := by
  refine ⟨fun k there => mem_dedup.mpr (mem_filter.mpr ⟨indexed.slot k there,there⟩),?_⟩
  rw [← indexed.same,compactOrder_eq,compactOrder_eq,← dedup_filter,filter_filter]
  simp only [Bool.and_self,dedup_idem]

theorem Indexed.put (absent : live entries ent.key = false) :
    Indexed (entries.put ent) (order ++ [ent.key]) (inserted ++ [ent.key]) := by
  have last (l : List GoString) : compactOrder (entries.put ent) (l ++ [ent.key]) = compactOrder entries l ++ [ent.key] := by
    rw [compactOrder_eq,compactOrder_eq,filter_append,filter_cons_of_pos (by simp [live_put]),filter_nil,dedup_snoc,filter_filter]
    congr 3
    funext k
    by_cases same : k = ent.key <;> simp [live_put,same,absent]
  refine ⟨fun k there => mem_append.mpr ?_,by rw [last,last,indexed.same]⟩
  rw [live_put] at there
  exact (Bool.or_eq_true_iff.mp there).imp (indexed.slot k) fun new => mem_singleton.mpr (of_decide_eq_true new)

theorem Indexed.renew (held : live entries ent.key) : Indexed (entries.put ent) order inserted := by
  have unchanged : live (entries.put ent) = live entries := by
    funext k
    by_cases same : k = ent.key <;> simp [live_put,same,held]
  refine ⟨fun k there => indexed.slot k (unchanged ▸ there),?_⟩
  rw [compactOrder_eq,compactOrder_eq,unchanged]
  exact indexed.same

theorem Indexed.evict (here : 0 < entries.rows.length) : ∃ old rest, rest.length < order.length ∧
    order.filter (live entries) = old :: rest.filter (live entries) ∧ evict entries order = (entries.remove old,rest) ∧
      Indexed (entries.remove old) rest inserted := by
  obtain ⟨ent,held⟩ := exists_mem_of_length_pos here
  have there : live entries ent.key := Option.isSome_iff_exists.mpr ⟨ent,get_eq_some.mpr ⟨held,rfl⟩⟩
  obtain ⟨old,rest,fewer,filtered,evicted⟩ := evict_spec order ⟨_,indexed.slot _ there,there⟩
  have after := indexed.remove old
  have passed : order.filter (live (entries.remove old)) = rest.filter (live (entries.remove old)) := by
    rw [filter_remove,filtered,filter_cons_of_neg (by simp),← filter_remove]
  refine ⟨old,rest,fewer,filtered,evicted,fun k there => ?_,?_⟩
  · have slot := mem_filter.mpr ⟨after.slot k there,there⟩
    rw [passed] at slot
    exact (mem_filter.mp slot).1
  · rw [← after.same,compactOrder_eq,compactOrder_eq,passed]

end

structure Filling.Kept (max : Nat) (p : Filling) : Prop where
  bound : p.store.max = max
  rows : p.store.entries.rows.length ≤ max
  slots : p.store.order.length ≤ cacheOrderSlack * max
  indexed : Indexed p.store.entries p.store.order p.inserted

theorem makeRoom_spec {p : Filling} (kept : p.Kept max) (positive : 0 < max) (absent : live p.store.entries key = false) :
    ∃ entries order, p.store.makeRoom key = ⟨entries,order ++ [key],max⟩ ∧ entries.rows.length < max ∧
      order.length < cacheOrderSlack * max ∧ live entries key = false ∧ Indexed entries order p.inserted := by
  obtain ⟨entries,order,roomed,rows,slots,missing,indexed⟩ : ∃ entries order,
      (if max ≤ p.store.entries.rows.length then evict p.store.entries p.store.order else (p.store.entries,p.store.order)) = (entries,order) ∧
      entries.rows.length < max ∧ order.length ≤ cacheOrderSlack * max ∧ live entries key = false ∧ Indexed entries order p.inserted := by
    split
    · rename_i full
      obtain ⟨old,rest,fewer,filtered,evicted,indexed⟩ := kept.indexed.evict (Nat.lt_of_lt_of_le positive full)
      have first := (mem_filter.mp (filtered ▸ mem_cons_self)).2
      refine ⟨_,_,evicted,Nat.lt_of_lt_of_le (length_remove_held first) kept.rows,fewer.le.trans kept.slots,?_,indexed⟩
      rw [live_remove,absent,Bool.false_and]
    · rename_i room
      exact ⟨_,_,rfl,Nat.lt_of_not_le room,kept.slots,absent,kept.indexed⟩
  unfold CacheStore.makeRoom
  rw [kept.bound,roomed]
  refine ⟨entries,_,rfl,rows,?_,missing,?_⟩
  · have fewer : (compactOrder entries order).length ≤ _ := compactOrder_length order
    unfold cacheOrderSlack at *
    split <;> omega
  · split
    · exact indexed.compact
    · exact indexed

theorem Filling.call_kept (positive : 0 < max) (p : Filling) (kept : p.Kept max) (c : StoreCall) : (p.call c).Kept max := by
  cases c with
  | get now key =>
    unfold call CacheStore.get
    dsimp only
    split
    · exact kept
    · split
      · exact ⟨kept.bound,(length_remove_le _ _).trans kept.rows,kept.slots,kept.indexed.remove key⟩
      · exact kept
  | set ent =>
    unfold call CacheStore.set
    dsimp only
    split
    · rename_i held
      exact ⟨kept.bound,(length_put_held ent held).trans kept.rows,kept.slots,kept.indexed.renew held⟩
    rename_i new
    obtain ⟨entries,order,roomed,rows,slots,missing,indexed⟩ := makeRoom_spec kept positive (Bool.eq_false_iff.mpr new)
    rw [roomed]
    refine ⟨rfl,(length_put_le entries ent).trans rows,?_,indexed.put missing⟩
    rwa [length_append]

theorem run_kept (positive : 0 < max) (calls : List StoreCall) : (fill max calls).Kept max :=
  foldlRecOn calls _ ⟨rfl,Nat.zero_le _,Nat.zero_le _,nofun,rfl⟩ fun p kept c _ => p.call_kept positive kept c

-- With one slot for each live key the first of them is the key inserted longest ago.
theorem run_bounded (positive : 0 < max) (calls : List StoreCall) : let p := fill max calls
    p.store.entries.rows.length ≤ max ∧ p.store.order.length ≤ 2 * max ∧ (∀ k, live p.store.entries k → k ∈ p.store.order) ∧
      (∀ now key stored, (p.store.get now key).1 = some stored →
        ∃ ent, p.store.entries.get key = some ent ∧ ent.stored = stored ∧ now ≤ ent.expireAt) ∧
      ∀ ent, live p.store.entries ent.key = false → max ≤ p.store.entries.rows.length →
        (p.store.order.filter (live p.store.entries)).Nodup → ∃ old, (compactOrder p.store.entries p.inserted).head? = some old ∧
          (p.store.set ent).entries = (p.store.entries.remove old).put ent := by
  have kept := run_kept positive calls
  generalize fill max calls = p at kept ⊢
  refine ⟨kept.rows,kept.slots,kept.indexed.slot,fun _ _ _ => get_returns,fun ent absent full single => ?_⟩
  obtain ⟨old,rest,_,filtered,evicted,_⟩ := kept.indexed.evict (Nat.lt_of_lt_of_le positive full)
  refine ⟨old,?_,?_⟩
  · rw [← kept.indexed.same,compactOrder_eq,single.dedup,filtered]
    rfl
  have missing : ¬(p.store.entries.get ent.key).isSome := Bool.eq_false_iff.mp absent
  unfold CacheStore.set
  rw [if_neg missing]
  unfold CacheStore.makeRoom
  rw [kept.bound,if_pos full,evicted]

def stale (key : String) (expireAt : Nat) : CacheEntry := ⟨lit key,⟨200,fun _ => [],[]⟩,expireAt⟩

theorem run_bounded_two : let p := fill 2 [.set (stale "k" 5),.set (stale "a" 9)]
    ∃ old, (compactOrder p.store.entries p.inserted).head? = some old ∧
      (p.store.set (stale "b" 9)).entries = (p.store.entries.remove old).put (stale "b" 9) :=
  (run_bounded (by decide) _).2.2.2.2 (stale "b" 9) (by decide) (by decide) (by decide)

-- k is inserted again after it expired; its old slot makes it the next to go, before a.
theorem run_evicts_newest : let p := fill 2 [.set (stale "k" 5),.get 6 (lit "k"),.set (stale "a" 9),.set (stale "k" 9)]
    compactOrder p.store.entries p.inserted = [lit "a",lit "k"] ∧
      (p.store.set (stale "b" 9)).entries.rows.map CacheEntry.key = [lit "b",lit "a"] := by
  decide

end Gateon.Traffic
