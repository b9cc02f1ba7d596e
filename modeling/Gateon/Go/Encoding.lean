import Mathlib.Algebra.Group.Nat.Defs
import Mathlib.Data.List.Basic
import Gateon.Go.Strings

namespace Gateon.Go

-- binary.BigEndian: the k bytes a number is put in, and the number bytes are read as.
def putUint : Nat → Nat → List UInt8
  | 0,_ => []
  | k+1,n => UInt8.ofNat (n/256^k) :: putUint k n

def getUint : List UInt8 → Nat
  | [] => 0
  | b :: rest => b.toNat*256^rest.length + getUint rest

@[simp] theorem length_putUint (k n : Nat) : (putUint k n).length = k := by
  induction k with
  | zero => rfl
  | succ k ih => simp [putUint,ih]

theorem getUint_putUint (k n : Nat) : getUint (putUint k n) = n % 256^k := by
  induction k with
  | zero => simp [putUint,getUint,Nat.mod_one]
  | succ k ih =>
    have top : (UInt8.ofNat (n/256^k)).toNat = n/256^k%256 := rfl
    rw [putUint,getUint,ih,length_putUint,top,Nat.pow_succ,Nat.mod_mul]
    rw [Nat.mul_comm,Nat.add_comm]

open List

def base64Alphabet : List UInt8 := lit "ABCDEFGHIJKLMNOPQRSTUVWXYZabcdefghijklmnopqrstuvwxyz0123456789-_"
def base64Digit (n : Nat) : UInt8 := base64Alphabet.getD n 0
def base64Value (c : UInt8) : Option Nat := base64Alphabet.findIdx? (· == c)

def base64Digits : List UInt8 → List Nat
  | [] => []
  | [a] => [a.toNat/4,a.toNat%4*16]
  | [a,b] => [a.toNat/4,a.toNat%4*16+b.toNat/16,b.toNat%16*4]
  | a :: b :: c :: rest => a.toNat/4 :: (a.toNat%4*16+b.toNat/16) :: (b.toNat%16*4+c.toNat/64) :: (c.toNat%64) :: base64Digits rest

def base64Encode (bytes : List UInt8) : GoString := (base64Digits bytes).map base64Digit

-- A single digit is no byte; what the last digits have beyond whole bytes is not looked at.
def base64Bytes : List Nat → Option (List UInt8)
  | [] => some []
  | [_] => none
  | [v,w] => some [UInt8.ofNat (v*4+w/16)]
  | [v,w,x] => some [UInt8.ofNat (v*4+w/16),UInt8.ofNat (w%16*16+x/4)]
  | v :: w :: x :: y :: rest =>
    (base64Bytes rest).map fun bytes => UInt8.ofNat (v*4+w/16) :: UInt8.ofNat (w%16*16+x/4) :: UInt8.ofNat (x%4*64+y) :: bytes

def base64Decode (s : GoString) : Option (List UInt8) :=
  ((s.filter fun c => c != 10 && c != 13).mapM base64Value).bind base64Bytes

theorem base64Digits_small (bytes : List UInt8) : ∀ v ∈ base64Digits bytes, v < 64 := by
  fun_induction base64Digits bytes with
  | case1 => simp
  | case2 a =>
    have small := a.toNat_lt
    simp only [forall_mem_cons]
    exact ⟨by omega,by omega,nofun⟩
  | case3 a b =>
    have one := a.toNat_lt
    have two := b.toNat_lt
    simp only [forall_mem_cons]
    exact ⟨by omega,by omega,by omega,nofun⟩
  | case4 a b c rest ih =>
    have one := a.toNat_lt
    have two := b.toNat_lt
    have three := c.toNat_lt
    simp only [forall_mem_cons]
    exact ⟨by omega,by omega,by omega,by omega,ih⟩

theorem base64Bytes_digits (bytes : List UInt8) : base64Bytes (base64Digits bytes) = some bytes := by
  have byte (b : UInt8) (n : Nat) (same : n = b.toNat) : UInt8.ofNat n = b := by
    rw [same,UInt8.ofNat_toNat]
  fun_induction base64Digits bytes with
  | case1 => rfl
  | case2 a => have small := a.toNat_lt; rw [base64Bytes,byte a _ (by omega)]
  | case3 a b =>
    have one := a.toNat_lt
    have two := b.toNat_lt
    rw [base64Bytes,byte a _ (by omega),byte b _ (by omega)]
  | case4 a b c rest ih =>
    have one := a.toNat_lt
    have two := b.toNat_lt
    have three := c.toNat_lt
    rw [base64Bytes,ih,byte a _ (by omega),byte b _ (by omega),byte c _ (by omega)]
    rfl

theorem mapM_digits {values : List Nat} (small : ∀ v ∈ values, v < 64) :
    ((values.map base64Digit).filter fun c => c != 10 && c != 13).mapM base64Value = some values := by
  have check : ∀ v : Fin 64, base64Value (base64Digit v) = some v.val ∧ (base64Digit v != 10 && base64Digit v != 13) := by decide
  rw [filter_eq_self.mpr (forall_mem_map.mpr fun v member => (check ⟨v,small v member⟩).2),mapM_forall₂,forall₂_map_left_iff,forall₂_same]
  exact fun v member => (check ⟨v,small v member⟩).1

theorem base64_roundtrip (bytes : List UInt8) : base64Decode (base64Encode bytes) = some bytes := by
  rw [base64Decode,base64Encode,mapM_digits (base64Digits_small bytes),Option.bind_some,base64Bytes_digits]

theorem base64Encode_empty : base64Encode bytes = [] ↔ bytes = [] := by
  constructor
  · intro empty
    have back := base64_roundtrip bytes
    rw [empty] at back
    exact (Option.some.inj back).symm
  · intro empty
    rw [empty]
    rfl

end Gateon.Go
