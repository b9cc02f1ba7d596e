import Gateon.Go.Trim

namespace Gateon.Go
open List Option

-- netip.Addr, with the zone an IPv6 address may carry.
inductive Addr where
  | v4 (bytes : List UInt8) (size : bytes.length = 4)
  | v6 (bytes : List UInt8) (size : bytes.length = 16) (zone : GoString)
  deriving DecidableEq

-- parseIPv4Fields from some byte on. `start` says that no digit came since the last dot.
def parseIPv4Fields (start : Bool) (fields : List UInt8) (val digLen : Nat) : GoString → Option (List UInt8)
  | [] => if fields.length < 3 then none else some (fields ++ [UInt8.ofNat val])
  | c :: rest =>
    if isDigit c then
      if digLen = 1 ∧ val = 0 then none
      else if 255 < val*10 + (c.toNat-48) then none
      else parseIPv4Fields false fields (val*10 + (c.toNat-48)) (digLen+1) rest
    else if c = byte '.' then
      if start ∨ rest = [] then none
      else if fields.length = 3 then none
      else parseIPv4Fields true (fields ++ [UInt8.ofNat val]) 0 0 rest
    else none

def hexValue (c : UInt8) : Option Nat :=
  if isDigit c then some (c.toNat-48)
  else if byte 'a' ≤ c && c ≤ byte 'f' then some (c.toNat-87)
  else if byte 'A' ≤ c && c ≤ byte 'F' then some (c.toNat-55)
  else none

def parseGroup (off acc : Nat) : GoString → Option (Nat × Nat × GoString)
  | [] => some (off,acc,[])
  | c :: rest =>
    match hexValue c with
    | none => some (off,acc,c :: rest)
    | some d => if 3 < off ∨ 65535 < acc*16+d then none else parseGroup (off+1) (acc*16+d) rest

-- `left` groups fit; the bytes, where the ellipsis opens, and what was not read.
def parseGroups : Nat → List UInt8 → Option Nat → GoString → Option (List UInt8 × Option Nat × GoString)
  | 0,bytes,ellipsis,s => some (bytes,ellipsis,s)
  | left+1,bytes,ellipsis,s =>
    match parseGroup 0 0 s with
    | none | some (0,_,_) => none
    | some (_+1,acc,rest) =>
      let next := bytes ++ [UInt8.ofNat (acc/256),UInt8.ofNat acc]
      match rest with
      | [] => some (next,ellipsis,[])
      | c :: rest =>
        if c = byte '.' then
          if ellipsis = none ∧ bytes.length ≠ 12 ∨ 16 < bytes.length+4 then none
          else (parseIPv4Fields true [] 0 0 s).map fun fields => (bytes ++ fields,ellipsis,[])
        else if c ≠ byte ':' then none
        else match rest with
          | [] => none
          | c :: tail =>
            if c ≠ byte ':' then parseGroups left next ellipsis (c :: tail)
            else if ellipsis.isSome then none
            else if tail = [] then some (next,some next.length,[])
            else parseGroups left next (some next.length) tail

-- The zeros an ellipsis stands for, of which there is at least one group.
def expand (bytes : List UInt8) : Option Nat → Option (List UInt8)
  | none => if bytes.length < 16 then none else some bytes
  | some at_ => if bytes.length < 16 then some (bytes.take at_ ++ List.replicate (16-bytes.length) 0 ++ bytes.drop at_) else none

def addrFrom16 (bytes : List UInt8) (zone : GoString) : Option Addr :=
  if size : bytes.length = 16 then some (.v6 bytes size zone) else none

def parseIPv6 (text : GoString) : Option Addr :=
  let (s,zone,zoned) := cut text (byte '%')
  if zoned ∧ zone = [] then none
  else if s = lit "::" then addrFrom16 (List.replicate 16 0) zone
  else
    let groups := if hasPrefix s (lit "::") then parseGroups 8 [] (some 0) (s.drop 2) else parseGroups 8 [] none s
    groups.bind fun (bytes,ellipsis,rest) => if rest ≠ [] then none else (expand bytes ellipsis).bind fun all => addrFrom16 all zone

def parseIPv4 (s : GoString) : Option Addr :=
  (parseIPv4Fields true [] 0 0 s).bind fun fields => if size : fields.length = 4 then some (.v4 fields size) else none

def parseAddr (s : GoString) : Option Addr :=
  match s.find? fun c => c == byte '.' || c == byte ':' || c == byte '%' with
  | none => none
  | some c => if c = byte '.' then parseIPv4 s else if c = byte ':' then parseIPv6 s else none

def Addr.is4In6 : Addr → Bool
  | .v4 .. => false
  | .v6 bytes _ _ => bytes.take 12 == List.replicate 10 0 ++ [255,255]

def Addr.unmap : Addr → Addr
  | .v4 bytes size => .v4 bytes size
  | .v6 bytes size zone => if Addr.is4In6 (.v6 bytes size zone) then .v4 (bytes.drop 12) (by simp [size]) else .v6 bytes size zone

def formatIPv4 (bytes : List UInt8) : GoString := join (bytes.map fun b => decimal b.toNat) [byte '.']

example : [lit "1.2.3",lit "01.2.3.4",lit "1::2::3",lit ":1",lit "1:2:3:4:5:6:7:8::",lit "256.1.1.1"].map parseAddr = List.replicate 6 none := by
  decide

theorem digit_decimal (digit : isDigit c) : decimal (c.toNat-48) = [c] := by
  have check : ∀ c, isDigit c → decimal (c.toNat-48) = [c] := every_byte (by decide +kernel)
  exact check c digit

theorem digit_bounds (digit : isDigit c) : 48 ≤ c.toNat ∧ c.toNat ≤ 57 := by
  simpa [isDigit,UInt8.le_iff_toNat_le] using digit

theorem decimal_snoc (digit : isDigit c) (pos : 0 < n) : decimal n ++ [c] = decimal (n*10 + (c.toNat-48)) := by
  have small : c.toNat-48 < 10 := by have bounds := digit_bounds digit; omega
  rw [← digit_decimal digit]
  unfold decimal
  rw [← map_append,Nat.toDigits_append_toDigits (by decide) pos small,Nat.mul_comm]

def readField (val digLen : Nat) : GoString := if digLen = 0 then [] else decimal val

theorem parseIPv4Fields_text (h : parseIPv4Fields start fields val digLen rest = some out) (few : fields.length ≤ 3)
    (begun : start ↔ digLen = 0) (fresh : digLen = 0 → val = 0) (zero : val = 0 → digLen ≤ 1) (small : val ≤ 255)
    (more : start → fields ≠ [] → rest ≠ []) :
    out.length = 4 ∧ ∃ tail, out = fields ++ tail ∧ readField val digLen ++ rest = formatIPv4 tail := by
  induction rest generalizing start fields val digLen with
  | nil =>
    obtain ⟨enough,⟨⟩⟩ := ite_none_left_eq_some.mp h
    have three : fields.length = 3 := by omega
    have read : digLen ≠ 0 := by
      intro none_
      apply more (begun.mpr none_) _ rfl
      rintro rfl
      cases three
    have byte_ : (UInt8.ofNat val).toNat = val := by rw [UInt8.toNat_ofNat']; omega
    refine ⟨by simp [three],_,rfl,?_⟩
    simp [readField,read,formatIPv4,join,byte_]
  | cons c rest ih =>
    unfold parseIPv4Fields at h
    split at h
    · rename_i digit
      obtain ⟨leading,h⟩ := ite_none_left_eq_some.mp h
      obtain ⟨bounded,h⟩ := ite_none_left_eq_some.mp h
      have bounds := digit_bounds digit
      obtain ⟨four,tail,same,text⟩ := ih h few (by simp) (by omega) (by omega) (by omega) (by simp)
      refine ⟨four,tail,same,?_⟩
      rw [← text]
      have extended : readField val digLen ++ [c] = decimal (val*10 + (c.toNat-48)) := by
        unfold readField
        split
        · rename_i none_
          rw [fresh none_,Nat.zero_mul,Nat.zero_add]
          exact (digit_decimal digit).symm
        · apply decimal_snoc digit; omega
      rw [append_cons,extended]
      rfl
    · obtain ⟨dot,h⟩ := ite_none_right_eq_some.mp h
      obtain ⟨inside,h⟩ := ite_none_left_eq_some.mp h
      obtain ⟨room,h⟩ := ite_none_left_eq_some.mp h
      have rest_ : rest ≠ [] := fun none_ => inside (.inr none_)
      have read : digLen ≠ 0 := fun none_ => inside (.inl (begun.mpr none_))
      obtain ⟨four,tail,same,text⟩ := ih h (by simp; omega) (by simp) (by simp) (by simp) (by omega) (fun _ _ => rest_)
      refine ⟨four,UInt8.ofNat val :: tail,by simp [same],?_⟩
      have byte_ : (UInt8.ofNat val).toNat = val := by rw [UInt8.toNat_ofNat']; omega
      cases tail with
      | nil => simp [same] at four; omega
      | cons next tail =>
        have after : rest = formatIPv4 (next :: tail) := text
        rw [after]
        simp [readField,read,formatIPv4,join,byte_,dot]

theorem parseIPv4_text (parsed : parseIPv4 s = some a) : ∃ bytes size, a = .v4 bytes size ∧ s = formatIPv4 bytes := by
  obtain ⟨fields,read,found⟩ := bind_eq_some_iff.mp parsed
  split at found
  · cases found
    obtain ⟨_,tail,same,text⟩ := parseIPv4Fields_text read (by simp) (by simp) (by simp) (by simp) (by simp) (by simp)
    exact ⟨_,_,rfl,same ▸ text⟩
  · cases found

theorem decimal_dot (n : Nat) : byte '.' ∉ decimal n ∧ decimal n ≠ [] := by
  refine ⟨fun inside => ?_,decimal_filled n⟩
  exact absurd (decimal_digits inside).1 (by decide)

theorem formatIPv4_injective (same : formatIPv4 a = formatIPv4 b) : a = b := by
  have parts : ∀ bytes : List UInt8, ∀ part ∈ bytes.map fun b => decimal b.toNat, byte '.' ∉ part ∧ part ≠ [] := by
    intro bytes part mem
    obtain ⟨b,_,rfl⟩ := List.mem_map.mp mem
    exact decimal_dot b.toNat
  have lists := join_inj (parts a) (parts b) same
  apply map_injective_iff.mpr _ lists
  intro x y equal
  exact UInt8.toNat_inj.mp (decimal_injective equal)

theorem formatIPv4_colon (bytes : List UInt8) : byte ':' ∉ formatIPv4 bytes := by
  intro mem
  rcases mem_join mem with dot | ⟨part,inside,held⟩
  · exact absurd dot (by decide)
  · obtain ⟨b,_,rfl⟩ := List.mem_map.mp inside; exact absurd (decimal_digits held).2 (by decide)

theorem parseIPv6_v6 (parsed : parseIPv6 s = some a) : ∃ bytes size zone, a = .v6 bytes size zone := by
  have made : ∀ bytes zone, addrFrom16 bytes zone = some a → ∃ bytes size zone, a = .v6 bytes size zone := by
    intro bytes zone built
    unfold addrFrom16 at built
    split at built
    · cases built; exact ⟨_,_,_,rfl⟩
    · cases built
  unfold parseIPv6 at parsed
  dsimp only at parsed
  split at parsed
  · cases parsed
  split at parsed
  · exact made _ _ parsed
  obtain ⟨⟨bytes,ellipsis,rest⟩,_,parsed⟩ := bind_eq_some_iff.mp parsed
  split at parsed
  · cases parsed
  · obtain ⟨all,_,parsed⟩ := bind_eq_some_iff.mp parsed; exact made _ _ parsed

theorem parseAddr_cases (parsed : parseAddr s = some a) :
    (byte ':' ∉ s ∧ ∃ bytes size, a = .v4 bytes size ∧ s = formatIPv4 bytes) ∨
      byte ':' ∈ s ∧ ∃ bytes size zone, a = .v6 bytes size zone := by
  unfold parseAddr at parsed
  split at parsed
  · cases parsed
  rename_i c found
  split at parsed
  · obtain ⟨bytes,size,same,text⟩ := parseIPv4_text parsed
    exact .inl ⟨text ▸ formatIPv4_colon bytes,bytes,size,same,text⟩
  · obtain ⟨colon,parsed⟩ := ite_none_right_eq_some.mp parsed
    subst colon
    exact .inr ⟨mem_of_find?_eq_some found,parseIPv6_v6 parsed⟩

def Addr.asSlice : Addr → List UInt8
  | .v4 bytes _ => bytes
  | .v6 bytes _ _ => bytes

def Addr.bitLen (a : Addr) : Nat := 8*a.asSlice.length

def Addr.zone : Addr → GoString
  | .v4 .. => []
  | .v6 _ _ zone => zone

def v4InV6Prefix : List UInt8 := List.replicate 10 0 ++ [255,255]

-- net.dtoi: the number the text starts with and how many digits it has.
def dtoiFrom (n i : Nat) : GoString → Option (Nat × Nat)
  | [] => if i = 0 then none else some (n,i)
  | c :: rest =>
    if isDigit c then
      if 0xFFFFFF ≤ n*10 + (c.toNat-48) then none else dtoiFrom (n*10 + (c.toNat-48)) (i+1) rest
    else if i = 0 then none else some (n,i)

def dtoi (s : GoString) : Option (Nat × Nat) := dtoiFrom 0 0 s

def maskBytes : List UInt8 → Nat → List UInt8
  | [],_ => []
  | b :: rest,n => if 8 ≤ n then b :: maskBytes rest (n-8) else (b &&& ~~~((255 : UInt8) >>> UInt8.ofNat n)) :: maskBytes rest 0

structure IPNet where
  ip : List UInt8
  ones : Nat
  deriving DecidableEq

-- The network of an IPv4 text has four bytes, that of a mapped one sixteen.
def parseCIDR (s : GoString) : Option IPNet :=
  let (addr,mask,found) := cut s (byte '/')
  if !found then none
  else match parseAddr addr with
    | none => none
    | some a =>
      if a.zone ≠ [] then none
      else match dtoi mask with
        | none => none
        | some (n,i) => if i ≠ mask.length ∨ a.bitLen < n then none else some ⟨maskBytes a.asSlice n,n⟩

section
variable (ip : List UInt8)

def to4 : Option (List UInt8) :=
  if ip.length = 4 then some ip
  else if ip.length = 16 ∧ ip.take 12 = v4InV6Prefix then some (ip.drop 12)
  else none

def to16 : List UInt8 :=
  if ip.length = 4 then v4InV6Prefix ++ ip
  else if ip.length = 16 then ip
  else []

theorem length_maskBytes (n : Nat) : (maskBytes ip n).length = ip.length := by
  induction ip generalizing n with
  | nil => rfl
  | cons b rest ih => unfold maskBytes; split <;> simp [ih]

theorem maskBytes_full (n i : Nat) (set : (maskBytes ip n)[i]? = some 255) : 8*(i+1) ≤ n := by
  induction ip generalizing n i with
  | nil => simp [maskBytes] at set
  | cons b rest ih =>
    unfold maskBytes at set
    split at set
    · cases i with
      | zero => omega
      | succ i => have later := ih (n-8) i (by simpa using set); omega
    rename_i short
    cases i with
    | zero =>
      have check : ∀ n : Fin 8, ∀ b : UInt8, b &&& ~~~((255 : UInt8) >>> UInt8.ofNat n) ≠ 255 := by
        intro n b same
        have zero : (b &&& ~~~((255 : UInt8) >>> UInt8.ofNat n)) &&& ((255 : UInt8) >>> UInt8.ofNat n) = 0 := by
          rw [UInt8.and_assoc]
          simp [UInt8.not_and_self]
        rw [same] at zero
        clear same
        revert n
        decide
      exact absurd (by simpa using set) (check ⟨n,by omega⟩ b)
    | succ i => have later := ih 0 i (by simpa using set); omega

end

theorem parseCIDR_parts (parsed : parseCIDR s = some net) :
    ∃ a : Addr, net.ip = maskBytes a.asSlice net.ones ∧ net.ones ≤ a.bitLen := by
  unfold parseCIDR at parsed
  dsimp only at parsed
  split at parsed
  · cases parsed
  split at parsed
  · cases parsed
  rename_i a _
  split at parsed
  · cases parsed
  split at parsed
  · cases parsed
  · obtain ⟨fits,⟨⟩⟩ := Option.ite_none_left_eq_some.mp parsed; exact ⟨a,rfl,Nat.le_of_not_lt (not_or.mp fits).2⟩

theorem length_asSlice (a : Addr) : a.asSlice.length = 4 ∨ a.asSlice.length = 16 := by
  cases a with
  | v4 bytes size => exact .inl size
  | v6 bytes size zone => exact .inr size

theorem parseCIDR_fits (parsed : parseCIDR s = some net) :
    (net.ip.length = 4 ∨ net.ip.length = 16) ∧ net.ones ≤ 8*net.ip.length := by
  obtain ⟨a,masked,fits⟩ := parseCIDR_parts parsed
  rw [masked,length_maskBytes]
  exact ⟨length_asSlice a,fits⟩

theorem parseCIDR_mapped (parsed : parseCIDR s = some net) (mapped : net.ip.take 12 = v4InV6Prefix) : 96 ≤ net.ones := by
  obtain ⟨a,masked,fits⟩ := parseCIDR_parts parsed
  have set : net.ip[11]? = some 255 := by
    rw [← List.getElem?_take_of_lt (show 11 < 12 by decide),mapped]
    rfl
  rw [masked] at set
  exact maskBytes_full _ _ _ set

end Gateon.Go
