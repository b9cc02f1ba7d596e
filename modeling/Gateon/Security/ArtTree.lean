import Gateon.Go.Netip
import Gateon.Lib.PrefixTree

namespace Gateon.ArtTree
open Go PrefixTree List Nat

structure Tree where
  root4 : Node UInt8
  root6 : Node UInt8

def newTree : Tree := ⟨.new,.new⟩

-- The values from base to base|^mask, which share the top remBits of the byte b.
def siblings (b : UInt8) (remBits : Nat) : List UInt8 :=
  let mask := (255 : UInt8) <<< UInt8.ofNat (8-remBits)
  let base := b &&& mask
  (List.range ((base ||| ~~~mask).toNat+1-base.toNat)).map fun i => UInt8.ofNat (base.toNat+i)

-- Without a result where an index is out of range.
def insert (root : Node UInt8) (ip : List UInt8) (bits : Nat) : Option (Node UInt8) :=
  let full := bits/8
  let remBits := bits%8
  if ip.length < full then none
  else if remBits = 0 then some (root.descend .ended (ip.take full))
  else match ip[full]? with
    | none => none
    | some b => some (root.descend (.markAll (siblings b remBits)) (ip.take full))

def Tree.insertCIDR (t : Tree) (cidr : GoString) : Option (Tree × Option GoString) :=
  match parseCIDR cidr with
  | none => some (t,some (lit "invalid CIDR address: " ++ cidr))
  | some net =>
    match to4 net.ip with
    | some ip4 => (insert t.root4 ip4 net.ones).map fun root => ({t with root4 := root},none)
    | none => (insert t.root6 net.ip net.ones).map fun root => ({t with root6 := root},none)

def Tree.containsAddr (t : Tree) (ip : Addr) : Bool :=
  match ip.unmap with
  | .v4 bytes _ => t.root4.search bytes
  | .v6 bytes _ _ => t.root6.search bytes

def Tree.insertAll (t : Tree) : List GoString → Option Tree
  | [] => some t
  | cidr :: rest => (t.insertCIDR cidr).bind fun (next,_) => next.insertAll rest

def byteBits (b : UInt8) : List Bool := (List.range 8).map fun i => b.toNat.testBit (7-i)
def bits (ip : List UInt8) : List Bool := ip.flatMap byteBits
def Within (net : IPNet) (ip : List UInt8) : Prop := ip.length = net.ip.length ∧ (bits ip).take net.ones = (bits net.ip).take net.ones
def stands (net : IPNet) : IPNet := if net.ip.length = 16 ∧ net.ip.take 12 = v4InV6Prefix then ⟨net.ip.drop 12,net.ones-96⟩ else net
def Covered (cidrs : List GoString) (ip : List UInt8) : Prop := ∃ cidr ∈ cidrs, ∃ net, parseCIDR cidr = some net ∧ Within (stands net) ip

structure Exact (cidrs : List GoString) : Prop where
  runs : ∀ order, order.Perm cidrs → ∃ t, newTree.insertAll order = some t ∧ ∀ a, t.containsAddr a ↔ Covered cidrs a.unmap.asSlice
  refuses : ∀ before cidr after t, before ++ cidr :: after = cidrs → newTree.insertAll before = some t → parseCIDR cidr = none →
    ∃ err, t.insertCIDR cidr = some (t,some err)

def mapped (cidr : GoString) : Bool :=
  match parseCIDR cidr with
  | none => false
  | some net => decide (net.ip.length = 16 ∧ net.ip.take 12 = v4InV6Prefix)

theorem bits_cons (b : UInt8) (rest : List UInt8) : bits (b :: rest) = byteBits b ++ bits rest := rfl
theorem length_byteBits (b : UInt8) : (byteBits b).length = 8 := by
  simp [byteBits]
theorem take_byteBits (b : UInt8) (short : n ≤ 8) : (byteBits b).take n = (List.range n).map fun i => b.toNat.testBit (7-i) := by
  rw [byteBits,← map_take,take_range,min_eq_left short]

theorem take_byteBits_eq (a b : UInt8) (short : n ≤ 8) :
    (byteBits a).take n = (byteBits b).take n ↔ a.toNat/2^(8-n) = b.toNat/2^(8-n) := by
  rw [take_byteBits a short,take_byteBits b short,map_inj_left]
  constructor
  · intro same
    apply eq_of_testBit_eq
    intro i
    rw [testBit_div_two_pow,testBit_div_two_pow]
    by_cases low : i < n
    · have at_ := same (n-1-i) (mem_range.mpr (by omega)); rwa [show 7-(n-1-i) = i+(8-n) by omega] at at_
    have high (c : UInt8) : c.toNat.testBit (i+(8-n)) = false := by
      apply testBit_lt_two_pow
      exact Nat.lt_of_lt_of_le c.toNat_lt (Nat.pow_le_pow_right (by decide) (by omega))
    rw [high a,high b]
  · intro same i inside
    have small := mem_range.mp inside
    have at_ := congrArg (fun v => v.testBit (n-1-i)) same
    simp only [testBit_div_two_pow] at at_
    rwa [show n-1-i+(8-n) = 7-i by omega] at at_

theorem byteBits_inj : byteBits a = byteBits b ↔ a = b := by
  have whole := take_byteBits_eq a b (n := 8) (le_refl 8)
  rw [take_of_length_le (by simp [length_byteBits]),take_of_length_le (by simp [length_byteBits])] at whole
  simpa [UInt8.toNat_inj] using whole

theorem mem_siblings (pos : 0 < n) (short : n < 8) : v ∈ siblings b n ↔ (byteBits v).take n = (byteBits b).take n := by
  have ends : ∀ n : Fin 8, 0 < n.val → ∀ b : UInt8,
      (b &&& (255 : UInt8) <<< UInt8.ofNat (8-n)).toNat = b.toNat/2^(8-n.val)*2^(8-n.val) ∧
      (b &&& (255 : UInt8) <<< UInt8.ofNat (8-n) ||| ~~~((255 : UInt8) <<< UInt8.ofNat (8-n))).toNat =
        b.toNat/2^(8-n.val)*2^(8-n.val)+(2^(8-n.val)-1) := by
    intro n pos
    apply every_byte
    revert n
    decide +kernel
  obtain ⟨first,last⟩ := ends ⟨n,short⟩ pos b
  have pos' : 0 < 2^(8-n) := Nat.two_pow_pos (8-n)
  rw [take_byteBits_eq v b short.le]
  simp only [siblings,List.mem_map,mem_range]
  dsimp only at first last
  rw [first,last,Nat.add_assoc,Nat.add_sub_cancel_left,Nat.sub_add_cancel pos']
  constructor
  · rintro ⟨i,near,rfl⟩
    have top : b.toNat/2^(8-n)*2^(8-n)+i < 256 := by
      have bound := (b &&& (255 : UInt8) <<< UInt8.ofNat (8-n) ||| ~~~((255 : UInt8) <<< UInt8.ofNat (8-n))).toNat_lt
      omega
    rw [UInt8.toNat_ofNat_of_lt' top,mul_comm,mul_add_div pos',div_eq_of_lt near]
    rfl
  · intro same
    have split := div_add_mod' v.toNat (2^(8-n))
    have small := mod_lt v.toNat pos'
    rw [same] at split
    refine ⟨v.toNat%2^(8-n),small,?_⟩
    rw [split,UInt8.ofNat_toNat]

theorem take_bits_cons (b c : UInt8) (rest tail : List UInt8) (n : Nat) :
    (bits (b :: rest)).take (n+8) = (bits (c :: tail)).take (n+8) ↔ b = c ∧ (bits rest).take n = (bits tail).take n := by
  have step (b : UInt8) (rest : List UInt8) : (bits (b :: rest)).take (n+8) = byteBits b ++ (bits rest).take n := by
    rw [bits_cons,take_append,length_byteBits,take_of_length_le (by simp [length_byteBits]),Nat.add_sub_cancel]
  rw [step,step,← byteBits_inj]
  exact ⟨fun same => append_inj same (by simp [length_byteBits]),fun same => by rw [same.1,same.2]⟩

theorem take_bits_short (b : UInt8) (rest : List UInt8) (short : n ≤ 8) : (bits (b :: rest)).take n = (byteBits b).take n := by
  rw [bits_cons,take_append_of_le_length (by simpa [length_byteBits] using short)]

theorem take_bits_full (full : Nat) (key ip : List UInt8) (size : key.length = ip.length) (long : full ≤ ip.length) (n : Nat) :
    (bits key).take (8*full+n) = (bits ip).take (8*full+n) ↔
      ip.take full <+: key ∧ (bits (key.drop full)).take n = (bits (ip.drop full)).take n := by
  induction full generalizing key ip with
  | zero => simp
  | succ full ih =>
    cases ip with
    | nil => simp at long
    | cons b tail =>
      cases key with
      | nil => simp at size
      | cons c rest =>
        have below := ih rest tail (by simpa using size) (by simpa using long)
        rw [show 8*(full+1)+n = 8*full+n+8 by omega,take_bits_cons,below]
        simp only [take_succ_cons,cons_prefix_cons,drop_succ_cons,and_assoc,eq_comm]

theorem adds_insert (ip : List UInt8) (fits : n ≤ 8*ip.length) (root : Node UInt8) :
    ∃ next, insert root ip n = some next ∧ ∀ key, key.length = ip.length →
      (next.search key ↔ root.search key ∨ (bits key).take n = (bits ip).take n) := by
  have long : n/8 ≤ ip.length := by omega
  have whole : n = 8*(n/8)+n%8 := by omega
  unfold insert
  rw [if_neg (by omega)]
  by_cases aligned : n%8 = 0
  · refine ⟨_,if_pos aligned,?_⟩
    intro key size
    have agree := take_bits_full (n/8) key ip size long (n%8)
    rw [← whole,aligned] at agree
    rw [adds_descend adds_ended,agree]
    simp [ isPrefixOf_iff_prefix]
  obtain ⟨b,tail,rest⟩ : ∃ b tail, ip.drop (n/8) = b :: tail := by
    apply exists_cons_of_length_pos
    rw [length_drop]
    omega
  have index : ip[n/8]? = some b := by rw [← head?_drop,rest]; rfl
  rw [if_neg aligned,index]
  refine ⟨_,rfl,?_⟩
  intro key size
  have agree := take_bits_full (n/8) key ip size long (n%8)
  rw [← whole] at agree
  rw [adds_descend (adds_markAll _),agree,rest]
  obtain ⟨c,last,after⟩ : ∃ c last, key.drop (n/8) = c :: last := by
    apply exists_cons_of_length_pos
    rw [length_drop]
    omega
  rw [after,take_bits_short c last (by omega),take_bits_short b tail (by omega),← mem_siblings (by omega) (by omega)]
  simp [ isPrefixOf_iff_prefix,length_take_of_le long,after]

section
variable (t : Tree)

def Answers (cidrs : List GoString) : Prop := ∀ a : Addr, t.containsAddr a ↔ Covered cidrs a.unmap.asSlice

theorem answers_new : Answers newTree [] := by
  intro a
  have none (a : Addr) : newTree.containsAddr a = false := by
    unfold Tree.containsAddr
    split <;> exact search_new _
  rw [none a]
  simp [Covered]

theorem covered_snoc : Covered (cidrs ++ [cidr]) ip ↔ Covered cidrs ip ∨ ∃ net, parseCIDR cidr = some net ∧ Within (stands net) ip := by
  simp only [Covered,mem_append,mem_singleton,or_and_right,exists_or,exists_eq_left]

theorem mapped_parsed (parsed : parseCIDR cidr = some net) :
    mapped cidr = false ↔ ¬(net.ip.length = 16 ∧ net.ip.take 12 = v4InV6Prefix) := by
  simp only [mapped,parsed,decide_eq_false_iff_not]

theorem to4_parsed (parsed : parseCIDR cidr = some net) (plain : mapped cidr = false) :
    net.ip.length = 4 ∧ to4 net.ip = some net.ip ∨ net.ip.length = 16 ∧ to4 net.ip = none := by
  have apart := (mapped_parsed parsed).mp plain
  rcases (parseCIDR_fits parsed).1 with four | sixteen
  · exact .inl ⟨four,if_pos four⟩
  · exact .inr ⟨sixteen,by rw [to4,if_neg (by omega),if_neg apart]⟩

theorem insertCIDR_answers (answers : Answers t cidrs) (plain : mapped cidr = false) :
    ∃ next err, t.insertCIDR cidr = some (next,err) ∧ Answers next (cidrs ++ [cidr]) := by
  unfold Tree.insertCIDR
  cases parsed : parseCIDR cidr with
  | none =>
    refine ⟨t,_,rfl,?_⟩
    intro a
    rw [answers a,covered_snoc]
    simp [parsed]
  | some net =>
    have whole : stands net = net := if_neg ((mapped_parsed parsed).mp plain)
    have adds (root : Node UInt8) := adds_insert net.ip (parseCIDR_fits parsed).2 root
    have covered (ip : List UInt8) : Covered (cidrs ++ [cidr]) ip ↔ Covered cidrs ip ∨ Within net ip := by
      rw [covered_snoc]
      simp [parsed,whole]
    rcases to4_parsed parsed plain with ⟨size,short⟩ | ⟨size,long⟩
    · obtain ⟨root,inserted,found⟩ := adds t.root4
      dsimp only
      rw [short]
      dsimp only
      rw [inserted]
      refine ⟨_,_,rfl,fun a => ?_⟩
      rw [covered,← answers a]
      unfold Tree.containsAddr Within
      cases unmapped : a.unmap with
      | v4 bytes four => simpa [Addr.asSlice,four,size] using found bytes (by rw [four,size])
      | v6 bytes sixteen zone => simp [Addr.asSlice,sixteen,size]
    · obtain ⟨root,inserted,found⟩ := adds t.root6
      dsimp only
      rw [long]
      rw [inserted]
      refine ⟨_,_,rfl,fun a => ?_⟩
      rw [covered,← answers a]
      unfold Tree.containsAddr Within
      cases unmapped : a.unmap with
      | v4 bytes four => simp [Addr.asSlice,four,size]
      | v6 bytes sixteen zone => simpa [Addr.asSlice,sixteen,size] using found bytes (by rw [sixteen,size])

theorem insertAll_answers (cidrs : List GoString) (answers : Answers t done) (plain : ∀ cidr ∈ cidrs, mapped cidr = false) :
    ∃ next, t.insertAll cidrs = some next ∧ Answers next (done ++ cidrs) := by
  induction cidrs generalizing t done with
  | nil => exact ⟨t,rfl,by simpa using answers⟩
  | cons cidr rest ih =>
    obtain ⟨next,err,inserted,further⟩ := insertCIDR_answers t answers (plain cidr mem_cons_self)
    obtain ⟨last,run,final⟩ := ih next further (forall_mem_cons.mp plain).2
    refine ⟨last,?_,by simpa using final⟩
    simp [Tree.insertAll,inserted,run]

theorem insertCIDR_mapped (bad : mapped cidr) : t.insertCIDR cidr = none := by
  unfold mapped at bad
  cases parsed : parseCIDR cidr with
  | none => simp [parsed] at bad
  | some net =>
    obtain ⟨sixteen,within⟩ : net.ip.length = 16 ∧ net.ip.take 12 = v4InV6Prefix := by simpa [parsed] using bad
    have long := parseCIDR_mapped parsed within
    have four : to4 net.ip = some (net.ip.drop 12) := by rw [to4,if_neg (by omega),if_pos ⟨sixteen,within⟩]
    have short : (net.ip.drop 12).length = 4 := by simp [sixteen]
    have panics : insert t.root4 (net.ip.drop 12) net.ones = none := if_pos (by omega)
    simp [Tree.insertCIDR,parsed,four,panics]

theorem insertAll_mapped (member : cidr ∈ cidrs) (bad : mapped cidr) : t.insertAll cidrs = none := by
  induction cidrs generalizing t with
  | nil => cases member
  | cons first rest ih =>
    rcases mem_cons.mp member with rfl | later
    · simp [Tree.insertAll,insertCIDR_mapped t bad]
    · cases inserted : t.insertCIDR first with
      | none => simp [Tree.insertAll,inserted]
      | some result => simp [Tree.insertAll,inserted,ih result.1 later]

theorem insertCIDR_refuses (bad : parseCIDR cidr = none) : ∃ err, t.insertCIDR cidr = some (t,some err) :=
  ⟨_,by rw [Tree.insertCIDR,bad]⟩

end

theorem covered_perm (same : order.Perm cidrs) : Covered order ip ↔ Covered cidrs ip := by
  unfold Covered
  simp only [same.mem_iff]

theorem tree_exact (cidrs : List GoString) : Exact cidrs ↔ ∀ cidr ∈ cidrs, mapped cidr = false := by
  constructor
  · intro exact_ cidr member
    obtain ⟨t,run,_⟩ := exact_.runs cidrs (List.Perm.refl cidrs)
    cases bad : mapped cidr with
    | false => rfl
    | true => simp [insertAll_mapped newTree member bad] at run
  · intro plain
    refine ⟨?_,?_⟩
    · intro order same
      obtain ⟨t,run,answers⟩ := insertAll_answers newTree order answers_new fun cidr member => plain cidr (same.mem_iff.mp member)
      refine ⟨t,run,?_⟩
      intro a
      rw [answers a,nil_append,covered_perm same]
    · intro before cidr after t _ _ bad; exact insertCIDR_refuses t bad

-- An operator's deny list of one mapped network stops the program.
theorem mapped_panics : newTree.insertAll [lit "::ffff:1.2.3.0/120"] = none ∧ ¬Exact [lit "::ffff:1.2.3.0/120"] := by
  have bad : mapped (lit "::ffff:1.2.3.0/120") = true := by decide
  have panics := insertAll_mapped newTree (mem_singleton.mpr rfl) bad
  refine ⟨panics,?_⟩
  intro exact_
  obtain ⟨t,run,_⟩ := exact_.runs _ (List.Perm.refl _)
  rw [panics] at run
  cases run

end Gateon.ArtTree
