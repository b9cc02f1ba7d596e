import Gateon.Go.Strings

namespace Gateon.Go
open List

def runeError : Nat := 0xFFFD
def isCont (b : UInt8) : Bool := 0x80 ≤ b && b ≤ 0xBF

-- A byte that starts no valid encoding is RuneError of width one.
def decodeRune : GoString → Nat × Nat
  | [] => (runeError,0)
  | b0 :: t =>
    if b0 < 0x80 then (b0.toNat,1)
    else if b0 < 0xC2 then (runeError,1)
    else if b0 < 0xE0 then match t with
      | b1 :: _ => if isCont b1 then ((b0.toNat-0xC0)*64 + (b1.toNat-0x80),2) else (runeError,1)
      | _ => (runeError,1)
    else if b0 < 0xF0 then match t with
      | b1 :: b2 :: _ =>
        if isCont b1 && isCont b2 && (b0 != 0xE0 || 0xA0 ≤ b1) && (b0 != 0xED || b1 ≤ 0x9F) then
          ((b0.toNat-0xE0)*4096 + (b1.toNat-0x80)*64 + (b2.toNat-0x80),3)
        else (runeError,1)
      | _ => (runeError,1)
    else if b0 < 0xF5 then match t with
      | b1 :: b2 :: b3 :: _ =>
        if isCont b1 && isCont b2 && isCont b3 && (b0 != 0xF0 || 0x90 ≤ b1) && (b0 != 0xF4 || b1 ≤ 0x8F) then
          ((b0.toNat-0xF0)*262144 + (b1.toNat-0x80)*4096 + (b2.toNat-0x80)*64 + (b3.toNat-0x80),4)
        else (runeError,1)
      | _ => (runeError,1)
    else (runeError,1)

def encodeRune (r : Nat) : GoString :=
  if r < 0x80 then [r.toUInt8]
  else if r < 0x800 then [(0xC0 + r/64).toUInt8,(0x80 + r%64).toUInt8]
  else if 0xD800 ≤ r && r ≤ 0xDFFF || 0x10FFFF < r then [0xEF,0xBF,0xBD]
  else if r < 0x10000 then [(0xE0 + r/4096).toUInt8,(0x80 + r/64%64).toUInt8,(0x80 + r%64).toUInt8]
  else [(0xF0 + r/262144).toUInt8,(0x80 + r/4096%64).toUInt8,(0x80 + r/64%64).toUInt8,(0x80 + r%64).toUInt8]

-- `for _,r := range s`; `skip` bytes of the last rune are still to be passed over.
def runesFrom : Nat → GoString → List (Nat × Nat)
  | _,[] => []
  | skip+1,_ :: t => runesFrom skip t
  | 0,b :: t => decodeRune (b :: t) :: runesFrom ((decodeRune (b :: t)).2-1) t

def runes (s : GoString) : List Nat := (runesFrom 0 s).map Prod.fst
def runeCount (s : GoString) : Nat := (runesFrom 0 s).length

def asciiUpperByte (r : Nat) : Bool := 65 ≤ r && r ≤ 90
def asciiLowerByte (r : Nat) : Bool := 97 ≤ r && r ≤ 122
def asciiLower (r : Nat) : Nat := if asciiUpperByte r then r+32 else r
def asciiUpper (r : Nat) : Nat := if asciiLowerByte r then r-32 else r

-- Data of the Go release: only what holds of every one is fixed. `fold` names a rune's class
-- under simple case folding, the relation strings.EqualFold walks.
structure Tables where
  lower : Nat → Nat
  upper : Nat → Nat
  fold : Nat → Nat
  isPrint : Nat → Bool
  lower_ascii : ∀ r, r < 128 → lower r = asciiLower r
  upper_ascii : ∀ r, r < 128 → upper r = asciiUpper r
  fold_ascii : ∀ r, r < 128 → fold r = asciiLower r
  isPrint_ascii : ∀ r, r < 128 → isPrint r = (32 ≤ r && r < 127)

-- The tables of a release that knows no letter outside ASCII, for evaluation.
def Tables.ascii : Tables where
  lower := asciiLower
  upper := asciiUpper
  fold := asciiLower
  isPrint := fun r => 32 ≤ r && r < 127
  lower_ascii := fun _ _ => rfl
  upper_ascii := fun _ _ => rfl
  fold_ascii := fun _ _ => rfl
  isPrint_ascii := fun _ _ => rfl

def isASCII (s : GoString) : Bool := s.all (· < 0x80)

-- Bytes on an ASCII string, runes on any other.
def mapCase (ascii table : Nat → Nat) (s : GoString) : GoString :=
  if isASCII s then s.map fun b => (ascii b.toNat).toUInt8
  else (runes s).flatMap fun r => encodeRune (table r)

variable (u : Tables)

def toLower (s : GoString) : GoString := mapCase asciiLower u.lower s
def toUpper (s : GoString) : GoString := mapCase asciiUpper u.upper s
def equalFold (s t : GoString) : Bool :=
  (runes s).map u.fold == (runes t).map u.fold
def hexDigit (n : Nat) : UInt8 := if n < 10 then (48+n).toUInt8 else (87+n).toUInt8

def hexPad : Nat → Nat → GoString
  | 0,_ => []
  | width+1,n => hexPad width (n/16) ++ [hexDigit (n%16)]

-- The byte is the first of the encoding, needed for one that is not UTF-8.
def quoteRune (b : UInt8) (r width : Nat) : GoString :=
  if r = runeError ∧ width = 1 then lit "\\x" ++ hexPad 2 b.toNat
  else if r = 0x22 then lit "\\\""
  else if r = 0x5C then lit "\\\\"
  else if u.isPrint r then encodeRune r
  else if r = 7 then lit "\\a"
  else if r = 8 then lit "\\b"
  else if r = 12 then lit "\\f"
  else if r = 10 then lit "\\n"
  else if r = 13 then lit "\\r"
  else if r = 9 then lit "\\t"
  else if r = 11 then lit "\\v"
  else if r < 32 ∨ r = 127 then lit "\\x" ++ hexPad 2 r
  else if r < 0x10000 then lit "\\u" ++ hexPad 4 r
  else lit "\\U" ++ hexPad 8 r

def quoteFrom : Nat → GoString → GoString
  | _,[] => []
  | skip+1,_ :: t => quoteFrom skip t
  | 0,b :: t =>
    let rune := decodeRune (b :: t)
    quoteRune u b rune.1 rune.2 ++ quoteFrom (rune.2-1) t

def quote (s : GoString) : GoString := lit "\"" ++ quoteFrom u 0 s ++ lit "\""
def decimal (n : Nat) : GoString := (Nat.toDigits 10 n).map Char.toUInt8
def formatInt (i : Int) : GoString :=
  if i < 0 then byte '-' :: decimal i.natAbs else decimal i.natAbs

theorem digit_byte (digit : c.isDigit) : 48 ≤ c.toUInt8.toNat ∧ c.toUInt8.toNat ≤ 57 ∧ Char.ofNat c.toUInt8.toNat = c := by
  simp only [Char.isDigit,ge_iff_le,Bool.and_eq_true,decide_eq_true_eq,UInt32.le_iff_toNat_le] at digit
  have narrow : c.toUInt8.toNat = c.toNat := by
    change c.val.toNat % 256 = c.val.toNat
    have high : c.val.toNat ≤ 57 := digit.2
    omega
  rw [narrow]
  exact ⟨digit.1,digit.2,Char.ofNat_toNat c⟩

theorem decimal_digits (member : b ∈ decimal n) : 48 ≤ b.toNat ∧ b.toNat ≤ 57 := by
  obtain ⟨c,inside,rfl⟩ := List.mem_map.mp member
  have digit := digit_byte (Nat.isDigit_of_mem_toDigits (by decide) (by decide) inside)
  exact ⟨digit.1,digit.2.1⟩

theorem decimal_chars (n : Nat) : (decimal n).map (fun b => Char.ofNat b.toNat) = Nat.toDigits 10 n := by
  rw [decimal,List.map_map]
  refine (map_congr_left ?_).trans (List.map_id _)
  intro c inside
  exact (digit_byte (Nat.isDigit_of_mem_toDigits (by decide) (by decide) inside)).2.2

theorem decimal_injective (same : decimal m = decimal n) : m = n := by
  have digits : Nat.toDigits 10 m = Nat.toDigits 10 n := by rw [← decimal_chars m,← decimal_chars n,same]
  rw [← @Nat.ofDigitChars_ten_toDigits m,← @Nat.ofDigitChars_ten_toDigits n,digits]

theorem formatInt_injective (same : formatInt i = formatInt j) : i = j := by
  have unsigned (n : Nat) (rest : GoString) : decimal n ≠ byte '-' :: rest := by
    intro minus
    have first : byte '-' ∈ decimal n := by rw [minus]; exact mem_cons_self
    exact absurd (decimal_digits first).1 (by decide)
  unfold formatInt at same
  split at same <;> split at same
  · have sizes := decimal_injective (List.cons.inj same).2; omega
  · exact absurd same.symm (unsigned _ _)
  · exact absurd same (unsigned _ _)
  · have sizes := decimal_injective same; omega

theorem formatInt_bytes (member : b ∈ formatInt i) : b = byte '-' ∨ 48 ≤ b.toNat ∧ b.toNat ≤ 57 := by
  unfold formatInt at member
  split at member
  · rcases mem_cons.mp member with minus | digit
    · exact .inl minus
    · exact .inr (decimal_digits digit)
  · exact .inr (decimal_digits member)
def hexEncode (digest : List UInt8) : GoString := digest.flatMap fun b => hexPad 2 b.toNat

theorem hexDigit_injective : ∀ a < 16, ∀ b < 16, hexDigit a = hexDigit b → a = b := by decide

theorem hexPad_two (b : UInt8) : hexPad 2 b.toNat = [hexDigit (b.toNat / 16),hexDigit (b.toNat % 16)] := by
  have small : b.toNat / 16 % 16 = b.toNat / 16 := Nat.mod_eq_of_lt (by have := b.toNat_lt; omega)
  simp [hexPad,small]

theorem hexEncode_injective (same : hexEncode a = hexEncode b) : a = b := by
  refine flatMap_inj (fun b => by simp [hexPad_two]) ?_ same
  intro x _ y _ _ _ same
  simp only [hexPad_two,cons_append,nil_append,List.cons.injEq] at same
  have rangeX := x.toNat_lt
  have rangeY := y.toNat_lt
  have highs := hexDigit_injective (x.toNat / 16) (by omega) (y.toNat / 16) (by omega) same.1
  have lows := hexDigit_injective (x.toNat % 16) (by omega) (y.toNat % 16) (by omega) same.2.1
  exact UInt8.toNat_inj.mp (by omega)

theorem hexEncode_digits (member : b ∈ hexEncode digest) : ∃ n < 16, b = hexDigit n := by
  obtain ⟨x,_,inside⟩ := mem_flatMap.mp member
  have range := x.toNat_lt
  rw [hexPad_two] at inside
  rcases mem_pair.mp inside with high | low
  · exact ⟨x.toNat / 16,by omega,high⟩
  · exact ⟨x.toNat % 16,by omega,low⟩

def invalidRune (rune : Nat × Nat) : Bool := rune == (runeError,1)
def validString (s : GoString) : Bool := (runesFrom 0 s).all fun rune => !invalidRune rune

-- Each run of invalid bytes becomes one U+FFFD; `skip` bytes are still to be copied.
def toValidUTF8From : Nat → Bool → GoString → GoString
  | _,_,[] => []
  | skip+1,_,b :: t => b :: toValidUTF8From skip false t
  | 0,inRun,b :: t =>
    let rune := decodeRune (b :: t)
    if invalidRune rune then (if inRun then [] else encodeRune runeError) ++ toValidUTF8From 0 true t
    else b :: toValidUTF8From (rune.2-1) false t

def toValidUTF8 (s : GoString) : GoString := toValidUTF8From 0 false s

theorem decodeRune_before (ends : isCont a = false) (b : UInt8) (p t : GoString) :
    decodeRune (b :: (p ++ a :: t)) = decodeRune (b :: p) ∧ (decodeRune (b :: p)).2 - 1 ≤ p.length := by
  rcases p with _ | ⟨c,_ | ⟨d,_ | ⟨e,p⟩⟩⟩ <;> rcases t with _ | ⟨x,_ | ⟨y,t⟩⟩ <;>
    simp only [decodeRune,nil_append,cons_append,ends,Bool.false_and,Bool.and_false,Bool.false_eq_true,if_false,
      length_cons,length_nil] <;>
    (constructor <;> (repeat' split) <;> (try simp))

theorem runesFrom_before (ends : isCont a = false) (skip : Nat) (p t : GoString) (within : skip ≤ p.length) :
    runesFrom skip (p ++ a :: t) = runesFrom skip p ++ runesFrom 0 (a :: t) := by
  induction p generalizing skip with
  | nil => obtain rfl := Nat.le_zero.mp within; rfl
  | cons b p ih =>
    cases skip with
    | succ skip => exact ih skip (Nat.le_of_succ_le_succ within)
    | zero =>
      obtain ⟨same,short⟩ := decodeRune_before ends b p t
      rw [cons_append,runesFrom,runesFrom,same,ih _ short,cons_append]

theorem runes_ascii (small : a < 0x80) (p t : GoString) : runes (p ++ a :: t) = runes p ++ a.toNat :: runes t := by
  have first : decodeRune (a :: t) = (a.toNat,1) := by simp only [decodeRune,small,if_true]
  have ends : isCont a = false := by
    simp only [isCont,Bool.and_eq_false_iff,decide_eq_false_iff_not]
    exact .inl (UInt8.not_le.mpr small)
  simp only [runes,runesFrom_before ends 0 p t (Nat.zero_le _),runesFrom,first,map_append,map_cons]

theorem runes_word (small : isASCII (a :: w)) (p t : GoString) :
    runes (p ++ (a :: w ++ t)) = runes p ++ ((a :: w).map UInt8.toNat ++ runes t) := by
  induction w generalizing a p with
  | nil =>
    simp only [isASCII,all_cons,Bool.and_eq_true,decide_eq_true_eq] at small
    exact runes_ascii small.1 p t
  | cons b w ih =>
    simp only [isASCII,all_cons,Bool.and_eq_true,decide_eq_true_eq] at small
    have later := ih (a := b) (by simpa [isASCII] using small.2) []
    rw [nil_append] at later
    rw [cons_append,runes_ascii small.1,later]
    rfl

theorem lowerByte_ascii (b : UInt8) : (asciiLower b.toNat).toUInt8 = lowerByte b := by
  revert b
  exact every_byte (by decide +kernel)

theorem lower_word (small : isASCII w) :
    (w.map UInt8.toNat).flatMap (fun r => encodeRune (u.lower r)) = w.map lowerByte := by
  induction w with
  | nil => rfl
  | cons a w ih =>
    simp only [isASCII,all_cons,Bool.and_eq_true,decide_eq_true_eq] at small
    have below : a.toNat < 128 := UInt8.lt_iff_toNat_lt.mp small.1
    have lowered : asciiLower a.toNat < 0x80 := by
      unfold asciiLower asciiUpperByte
      split
      · rename_i upper
        simp only [Bool.and_eq_true,decide_eq_true_eq] at upper
        omega
      · exact below
    rw [map_cons,flatMap_cons,ih small.2,u.lower_ascii _ below,encodeRune,if_pos lowered,lowerByte_ascii]
    rfl

theorem toLower_word (small : isASCII w) (filled : w ≠ []) (p t : GoString) :
    w.map lowerByte <:+: toLower u (p ++ (w ++ t)) := by
  obtain ⟨a,w,rfl⟩ := exists_cons_of_ne_nil filled
  unfold toLower mapCase
  split
  · refine ⟨p.map lowerByte,t.map lowerByte,?_⟩; simp only [lowerByte_ascii,map_append,append_assoc]
  · rw [runes_word small,flatMap_append,flatMap_append,lower_word u small,← append_assoc]; exact ⟨_,_,rfl⟩

end Gateon.Go
