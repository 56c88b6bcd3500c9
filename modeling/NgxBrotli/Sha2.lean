import Mathlib

namespace Sha2

abbrev Word := UInt32

def ofBigEndian (bs : List UInt8) : ℕ := bs.foldl (fun n b => n * 256 + b.toNat) 0

/-- The `k` low bytes of `n`, most significant first. -/
def toBigEndian (k n : ℕ) : List UInt8 :=
  (List.range k).map fun i => UInt8.ofNat (n / 256 ^ (k - 1 - i))

@[simp] theorem length_toBigEndian (k n : ℕ) : (toBigEndian k n).length = k := by
  simp [toBigEndian]

def rotr (n x : Word) : Word := (x >>> n) ||| (x <<< (32 - n))

def ch (x y z : Word) : Word := (x &&& y) ^^^ (~~~x &&& z)

def maj (x y z : Word) : Word := (x &&& y) ^^^ (x &&& z) ^^^ (y &&& z)

def bigSigma0 (x : Word) : Word := rotr 2 x ^^^ rotr 13 x ^^^ rotr 22 x

def bigSigma1 (x : Word) : Word := rotr 6 x ^^^ rotr 11 x ^^^ rotr 25 x

def smallSigma0 (x : Word) : Word := rotr 7 x ^^^ rotr 18 x ^^^ (x >>> 3)

def smallSigma1 (x : Word) : Word := rotr 17 x ^^^ rotr 19 x ^^^ (x >>> 10)

def primes : List ℕ := (List.range 312).filter fun n => 2 ≤ n ∧ n.minFac = n

/-- `k` is the first 32 bits of the fractional part of the cube root of `p < 343`. -/
def IsCubeRootFraction (p : ℕ) (k : Word) : Prop :=
  ∃ a ≤ 6, (a * 2 ^ 32 + k.toNat) ^ 3 ≤ p * 2 ^ 96 ∧ p * 2 ^ 96 < (a * 2 ^ 32 + k.toNat + 1) ^ 3

instance (p : ℕ) (k : Word) : Decidable (IsCubeRootFraction p k) :=
  inferInstanceAs (Decidable (∃ a ≤ 6, _))

def IsSquareRootFraction (p : ℕ) (k : Word) : Prop :=
  ∃ a ≤ 4, (a * 2 ^ 32 + k.toNat) ^ 2 ≤ p * 2 ^ 64 ∧ p * 2 ^ 64 < (a * 2 ^ 32 + k.toNat + 1) ^ 2

instance (p : ℕ) (k : Word) : Decidable (IsSquareRootFraction p k) :=
  inferInstanceAs (Decidable (∃ a ≤ 4, _))

def constants : List Word :=
  [0x428a2f98, 0x71374491, 0xb5c0fbcf, 0xe9b5dba5, 0x3956c25b, 0x59f111f1, 0x923f82a4, 0xab1c5ed5,
    0xd807aa98, 0x12835b01, 0x243185be, 0x550c7dc3, 0x72be5d74, 0x80deb1fe, 0x9bdc06a7, 0xc19bf174,
    0xe49b69c1, 0xefbe4786, 0x0fc19dc6, 0x240ca1cc, 0x2de92c6f, 0x4a7484aa, 0x5cb0a9dc, 0x76f988da,
    0x983e5152, 0xa831c66d, 0xb00327c8, 0xbf597fc7, 0xc6e00bf3, 0xd5a79147, 0x06ca6351, 0x14292967,
    0x27b70a85, 0x2e1b2138, 0x4d2c6dfc, 0x53380d13, 0x650a7354, 0x766a0abb, 0x81c2c92e, 0x92722c85,
    0xa2bfe8a1, 0xa81a664b, 0xc24b8b70, 0xc76c51a3, 0xd192e819, 0xd6990624, 0xf40e3585, 0x106aa070,
    0x19a4c116, 0x1e376c08, 0x2748774c, 0x34b0bcb5, 0x391c0cb3, 0x4ed8aa4a, 0x5b9cca4f, 0x682e6ff3,
    0x748f82ee, 0x78a5636f, 0x84c87814, 0x8cc70208, 0x90befffa, 0xa4506ceb, 0xbef9a3f7, 0xc67178f2]

theorem constants_spec : List.Forall₂ IsCubeRootFraction primes constants := by decide +kernel

structure Words where
  a : Word
  b : Word
  c : Word
  d : Word
  e : Word
  f : Word
  g : Word
  h : Word
  deriving DecidableEq, Repr

namespace Words

def toList (v : Words) : List Word := [v.a, v.b, v.c, v.d, v.e, v.f, v.g, v.h]

instance : Add Words :=
  ⟨fun v w => ⟨v.a + w.a, v.b + w.b, v.c + w.c, v.d + w.d, v.e + w.e, v.f + w.f, v.g + w.g,
    v.h + w.h⟩⟩

def serialise (v : Words) : List UInt8 := v.toList.flatMap fun w => toBigEndian 4 w.toNat

@[simp] theorem length_serialise (v : Words) : v.serialise.length = 32 := by
  simp [serialise, toList]

end Words

/-- `H⁽⁰⁾` -/
def initial : Words :=
  ⟨0x6a09e667, 0xbb67ae85, 0x3c6ef372, 0xa54ff53a, 0x510e527f, 0x9b05688c, 0x1f83d9ab, 0x5be0cd19⟩

theorem initial_spec : List.Forall₂ IsSquareRootFraction (primes.take 8) initial.toList := by
  decide +kernel

def blockWord (block : List UInt8) (t : ℕ) : Word :=
  UInt32.ofNat (ofBigEndian ((block.drop (4 * t)).take 4))

/-- The message schedule. -/
def schedule (block : List UInt8) (t : ℕ) : Word :=
  if t < 16 then blockWord block t
  else smallSigma1 (schedule block (t - 2)) + schedule block (t - 7) +
    smallSigma0 (schedule block (t - 15)) + schedule block (t - 16)

theorem schedule_of_lt (block : List UInt8) {t : ℕ} (h : t < 16) :
    schedule block t = blockWord block t := by
  rw [schedule, if_pos h]

theorem schedule_of_le (block : List UInt8) {t : ℕ} (h : 16 ≤ t) :
    schedule block t = smallSigma1 (schedule block (t - 2)) + schedule block (t - 7) +
      smallSigma0 (schedule block (t - 15)) + schedule block (t - 16) := by
  rw [schedule, if_neg (Nat.not_lt.mpr h)]

def round (k w : Word) (v : Words) : Words :=
  let t1 := v.h + bigSigma1 v.e + ch v.e v.f v.g + k + w
  let t2 := bigSigma0 v.a + maj v.a v.b v.c
  ⟨t1 + t2, v.a, v.b, v.c, v.d + t1, v.e, v.f, v.g⟩

def compress (hash : Words) (block : List UInt8) : Words :=
  hash + (List.range 64).foldl (fun v t => round (constants.getD t 0) (schedule block t) v) hash

/-- `0x80`, zeros up to 56 modulo 64, and the length in bits. -/
def padding (n : ℕ) : List UInt8 :=
  0x80 :: List.replicate ((119 - n % 64) % 64) 0 ++ toBigEndian 8 (8 * n)

/-- The fold of the compression function over the 64-byte blocks of a string; what is left
at the end is no block. -/
def foldBlocks (hash : Words) (bs : List UInt8) : Words :=
  if 64 ≤ bs.length then foldBlocks (compress hash (bs.take 64)) (bs.drop 64) else hash
termination_by bs.length
decreasing_by rw [List.length_drop]; omega

def digest (m : List UInt8) : List UInt8 :=
  (foldBlocks initial (m ++ padding m.length)).serialise

@[simp] theorem length_digest (m : List UInt8) : (digest m).length = 32 := Words.length_serialise _

theorem length_pad (m : List UInt8) : (m ++ padding m.length).length % 64 = 0 := by
  simp only [padding, List.length_append, List.length_cons, List.length_replicate,
    length_toBigEndian]
  omega

theorem foldBlocks_of_lt (hash : Words) {bs : List UInt8} (h : bs.length < 64) :
    foldBlocks hash bs = hash := by
  rw [foldBlocks, if_neg (by omega)]

theorem foldBlocks_of_le (hash : Words) {bs : List UInt8} (h : 64 ≤ bs.length) :
    foldBlocks hash bs = foldBlocks (compress hash (bs.take 64)) (bs.drop 64) := by
  rw [foldBlocks, if_pos h]

theorem foldBlocks_block (hash : Words) {b bs : List UInt8} (h : b.length = 64) :
    foldBlocks hash (b ++ bs) = foldBlocks (compress hash b) bs := by
  rw [foldBlocks_of_le hash (by rw [List.length_append]; omega), ← h, List.take_left,
    List.drop_left]

theorem foldBlocks_single (hash : Words) {b : List UInt8} (h : b.length = 64) :
    foldBlocks hash b = compress hash b := by
  rw [← List.append_nil b, foldBlocks_block hash h, foldBlocks_of_lt _ (by decide), List.append_nil]

def tail (bs : List UInt8) : List UInt8 := bs.drop (64 * (bs.length / 64))

theorem length_tail (bs : List UInt8) : (tail bs).length = bs.length % 64 := by
  rw [tail, List.length_drop]
  omega

theorem tail_of_lt {bs : List UInt8} (h : bs.length < 64) : tail bs = bs := by
  rw [tail, Nat.div_eq_of_lt h, Nat.mul_zero, List.drop_zero]

theorem tail_append_of_dvd {b : List UInt8} (bs : List UInt8) (h : 64 ∣ b.length) :
    tail (b ++ bs) = tail bs := by
  have hdiv : 64 * ((b.length + bs.length) / 64) = b.length + 64 * (bs.length / 64) := by omega
  rw [tail, tail, List.length_append, hdiv, List.drop_length_add_append]

theorem tail_append (m bs : List UInt8) : tail (m ++ bs) = tail (tail m ++ bs) := by
  have hm : m = m.take (64 * (m.length / 64)) ++ tail m := (List.take_append_drop _ m).symm
  conv_lhs => rw [hm, List.append_assoc]
  apply tail_append_of_dvd
  rw [List.length_take, Nat.min_eq_left (Nat.mul_div_le _ _)]
  exact Nat.dvd_mul_right 64 _

theorem foldBlocks_append (hash : Words) (m bs : List UInt8) :
    foldBlocks hash (m ++ bs) = foldBlocks (foldBlocks hash m) (tail m ++ bs) := by
  by_cases h : 64 ≤ m.length
  case neg =>
    have hm : m.length < 64 := by omega
    rw [tail_of_lt hm, foldBlocks_of_lt hash hm]
  case pos =>
    have hb : (m.take 64).length = 64 := by rw [List.length_take]; omega
    have hlt : (m.drop 64).length < m.length := by rw [List.length_drop]; omega
    have hm : m = m.take 64 ++ m.drop 64 := (List.take_append_drop 64 m).symm
    generalize m.take 64 = b at hb hm
    generalize m.drop 64 = m' at hlt hm
    rw [hm, List.append_assoc, foldBlocks_block hash hb, foldBlocks_block hash hb,
      tail_append_of_dvd m' (Dvd.intro 1 (by omega))]
    exact foldBlocks_append (compress hash b) m' bs
termination_by m.length

end Sha2
