import NgxBrotli.Bytes
import NgxBrotli.Sha2

namespace NgxBrotli

/-- `u_char block[64]` -/
structure Block where
  bytes : Bytes
  length_bytes : bytes.length = 64

def Block.write (b : Block) (off : ℕ) (src : Bytes) : Block :=
  if h : off + src.length ≤ 64 then
    ⟨b.bytes.take off ++ src ++ b.bytes.drop (off + src.length), by
      have := b.length_bytes
      simp only [List.length_append, List.length_take, List.length_drop]
      omega⟩
  else b

theorem Block.take_write (b : Block) {off : ℕ} {src : Bytes} (h : off + src.length ≤ 64) :
    (b.write off src).bytes.take (off + src.length) = b.bytes.take off ++ src := by
  have hlen : (b.bytes.take off ++ src).length = off + src.length := by
    rw [List.length_append, List.length_take, b.length_bytes]
    omega
  rw [write, dif_pos h]
  exact List.take_left' hlen

theorem Block.bytes_write (b : Block) {off : ℕ} {src : Bytes} (h : off + src.length = 64) :
    (b.write off src).bytes = b.bytes.take off ++ src := by
  rw [← b.take_write h.le, h, List.take_of_length_le (length_bytes _).le]

/-- `ngx_http_brotli_sha256_t` -/
structure Sha256 where
  state : Vector UInt32 8
  total : UInt64
  block : Block
  blockLen : ℕ

namespace Sha256

/-- `ngx_http_brotli_sha256_k` -/
def k : List UInt32 :=
  [0x428a2f98, 0x71374491, 0xb5c0fbcf, 0xe9b5dba5,
    0x3956c25b, 0x59f111f1, 0x923f82a4, 0xab1c5ed5,
    0xd807aa98, 0x12835b01, 0x243185be, 0x550c7dc3,
    0x72be5d74, 0x80deb1fe, 0x9bdc06a7, 0xc19bf174,
    0xe49b69c1, 0xefbe4786, 0x0fc19dc6, 0x240ca1cc,
    0x2de92c6f, 0x4a7484aa, 0x5cb0a9dc, 0x76f988da,
    0x983e5152, 0xa831c66d, 0xb00327c8, 0xbf597fc7,
    0xc6e00bf3, 0xd5a79147, 0x06ca6351, 0x14292967,
    0x27b70a85, 0x2e1b2138, 0x4d2c6dfc, 0x53380d13,
    0x650a7354, 0x766a0abb, 0x81c2c92e, 0x92722c85,
    0xa2bfe8a1, 0xa81a664b, 0xc24b8b70, 0xc76c51a3,
    0xd192e819, 0xd6990624, 0xf40e3585, 0x106aa070,
    0x19a4c116, 0x1e376c08, 0x2748774c, 0x34b0bcb5,
    0x391c0cb3, 0x4ed8aa4a, 0x5b9cca4f, 0x682e6ff3,
    0x748f82ee, 0x78a5636f, 0x84c87814, 0x8cc70208,
    0x90befffa, 0xa4506ceb, 0xbef9a3f7, 0xc67178f2]

/-- `ngx_http_brotli_rotr` -/
def rotr (x n : UInt32) : UInt32 := (x >>> n) ||| (x <<< (32 - n))

/-- `w[i]` for `i < 16` -/
def load (p : Bytes) (i : ℕ) : UInt32 :=
  ((p.getD (i * 4) 0).toUInt32 <<< 24) ||| ((p.getD (i * 4 + 1) 0).toUInt32 <<< 16) |||
    ((p.getD (i * 4 + 2) 0).toUInt32 <<< 8) ||| (p.getD (i * 4 + 3) 0).toUInt32

/-- `w[i]` for `16 <= i`, behind the words before it -/
def expand (w : List UInt32) (i : ℕ) : List UInt32 :=
  let s0 := rotr (w.getD (i - 15) 0) 7 ^^^ rotr (w.getD (i - 15) 0) 18 ^^^ (w.getD (i - 15) 0 >>> 3)
  let s1 := rotr (w.getD (i - 2) 0) 17 ^^^ rotr (w.getD (i - 2) 0) 19 ^^^ (w.getD (i - 2) 0 >>> 10)
  w ++ [w.getD (i - 16) 0 + s0 + w.getD (i - 7) 0 + s1]

def words (p : Bytes) : List UInt32 :=
  (List.range' 16 48).foldl expand ((List.range 16).map (load p))

/-- One turn of the last loop, on `a`, `b`, `cc`, `d`, `e`, `f`, `g` and `h`. -/
def turn (w : List UInt32) (v : Sha2.Words) (i : ℕ) : Sha2.Words :=
  let s1 := rotr v.e 6 ^^^ rotr v.e 11 ^^^ rotr v.e 25
  let ch := (v.e &&& v.f) ^^^ (~~~v.e &&& v.g)
  let t1 := v.h + s1 + ch + k.getD i 0 + w.getD i 0
  let s0 := rotr v.a 2 ^^^ rotr v.a 13 ^^^ rotr v.a 22
  let maj := (v.a &&& v.b) ^^^ (v.a &&& v.c) ^^^ (v.b &&& v.c)
  { h := v.g, g := v.f, f := v.e, e := v.d + t1, d := v.c, c := v.b, b := v.a, a := t1 + s0 + maj }

def stateWords (s : Vector UInt32 8) : Sha2.Words :=
  ⟨s[0], s[1], s[2], s[3], s[4], s[5], s[6], s[7]⟩

/-- `ngx_http_brotli_sha256_compress` -/
def compress (c : Sha256) (p : Bytes) : Sha256 :=
  let v := (List.range 64).foldl (turn (words p)) (stateWords c.state)
  { c with state := #v[c.state[0] + v.a, c.state[1] + v.b, c.state[2] + v.c, c.state[3] + v.d,
      c.state[4] + v.e, c.state[5] + v.f, c.state[6] + v.g, c.state[7] + v.h] }

/-- `ngx_http_brotli_sha256_init`; the block keeps what was in memory. -/
def init (c : Sha256) : Sha256 :=
  { c with
    state := #v[0x6a09e667, 0xbb67ae85, 0x3c6ef372, 0xa54ff53a, 0x510e527f, 0x9b05688c, 0x1f83d9ab,
      0x5be0cd19]
    total := 0
    blockLen := 0 }

/-- `while (len >= 64)`, and what is left of the data. -/
def compressBlocks (c : Sha256) (data : Bytes) : Sha256 × Bytes :=
  if 64 ≤ data.length then compressBlocks (compress c data) (data.drop 64) else (c, data)
termination_by data.length
decreasing_by rw [List.length_drop]; omega

/-- The data behind the partial block: its whole blocks, then a new partial block. -/
def updateBlocks (c : Sha256) (data : Bytes) : Sha256 :=
  let (c, data) := compressBlocks c data
  if data.length ≠ 0 then
    { c with block := c.block.write 0 data, blockLen := data.length }
  else c

/-- `ngx_http_brotli_sha256_update` -/
def update (c : Sha256) (data : Bytes) : Sha256 :=
  let c := { c with total := c.total + UInt64.ofNat data.length }
  if c.blockLen ≠ 0 then
    let n := min (64 - c.blockLen) data.length
    let c := { c with block := c.block.write c.blockLen (data.take n), blockLen := c.blockLen + n }
    let data := data.drop n
    if c.blockLen < 64 then c
    else updateBlocks { compress c c.block.bytes with blockLen := 0 } data
  else updateBlocks c data

/-- `ngx_http_brotli_sha256_final` -/
def final (c : Sha256) : Bytes :=
  let bits := c.total * 8
  let c := { c with block := c.block.write c.blockLen [0x80], blockLen := c.blockLen + 1 }
  let c :=
    if c.blockLen > 56 then
      let block := c.block.write c.blockLen (.replicate (64 - c.blockLen) 0)
      { compress { c with block := block } block.bytes with blockLen := 0 }
    else c
  let block := c.block.write c.blockLen (.replicate (56 - c.blockLen) 0)
  let block := block.write 56
    ((List.range 8).map fun i => (bits >>> UInt64.ofNat (56 - i * 8)).toUInt8)
  let c := compress { c with block := block } block.bytes
  c.state.toList.flatMap fun (s : UInt32) =>
    [(s >>> 24).toUInt8, (s >>> 16).toUInt8, (s >>> 8).toUInt8, s.toUInt8]

end Sha256

/-- `ngx_http_brotli_sha256`; `evp` is the digest of libcrypto, where it is built in, has a context
and no stage of it fails, and `c` is what was on the stack. -/
def sha256 (c : Sha256) (evp : Option Bytes) (data : Bytes) : Bytes :=
  match evp with
  | some digest => digest
  | none => ((c.init).update data).final

theorem Sha256.length_final (c : Sha256) : c.final.length = 32 := by
  simp [Sha256.final, List.length_flatMap]

namespace Sha256

theorem or_eq_add {n m k : ℕ} (hn : 2 ^ k ∣ n) (hm : m < 2 ^ k) : n ||| m = n + m := by
  obtain ⟨i, rfl⟩ := hn
  rw [mul_comm, ← Nat.shiftLeft_eq, Nat.shiftLeft_add_eq_or_of_lt hm]

theorem or_shiftLeft_eq (a b c d : UInt8) :
    (a.toUInt32 <<< 24) ||| (b.toUInt32 <<< 16) ||| (c.toUInt32 <<< 8) ||| d.toUInt32 =
      UInt32.ofNat (Sha2.ofBigEndian [a, b, c, d]) := by
  have ha := a.toNat_lt
  have hb := b.toNat_lt
  have hc := c.toNat_lt
  have hd := d.toNat_lt
  have hshift (x : UInt8) (k : ℕ) (hk : k ≤ 24) :
      x.toNat <<< k % 2 ^ 32 = x.toNat * 2 ^ k := by
    rw [Nat.shiftLeft_eq, Nat.mod_eq_of_lt]
    calc x.toNat * 2 ^ k < 2 ^ 8 * 2 ^ k := Nat.mul_lt_mul_of_pos_right x.toNat_lt (by positivity)
      _ ≤ 2 ^ 32 := by rw [← pow_add]; exact Nat.pow_le_pow_right (by decide) (by omega)
  apply UInt32.toNat_inj.mp
  calc
    _ = (a.toNat * 2 ^ 24 ||| b.toNat * 2 ^ 16 ||| c.toNat * 2 ^ 8 ||| d.toNat) := by
      rw [← hshift a 24 (by omega), ← hshift b 16 (by omega), ← hshift c 8 (by omega)]
      rfl
    _ = a.toNat * 2 ^ 24 + b.toNat * 2 ^ 16 + c.toNat * 2 ^ 8 + d.toNat := by
      rw [or_eq_add (Dvd.intro_left _ rfl) (by omega : b.toNat * 2 ^ 16 < 2 ^ 24),
        or_eq_add (k := 16) (by omega) (by omega : c.toNat * 2 ^ 8 < 2 ^ 16),
        or_eq_add (k := 8) (by omega) hd]
    _ = _ := by
      rw [UInt32.toNat_ofNat']
      simp only [Sha2.ofBigEndian, List.foldl_cons, List.foldl_nil]
      omega

theorem toBigEndian_word (x : UInt32) :
    [(x >>> 24).toUInt8, (x >>> 16).toUInt8, (x >>> 8).toUInt8, x.toUInt8] =
      Sha2.toBigEndian 4 x.toNat := by
  have h (k : ℕ) (hk : k < 32) :
      (x >>> UInt32.ofNat k).toUInt8 = UInt8.ofNat (x.toNat / 2 ^ k) := by
    apply UInt8.toNat_inj.mp
    simp [UInt32.toNat_shiftRight, Nat.shiftRight_eq_div_pow, Nat.mod_eq_of_lt hk]
  have h0 : x.toUInt8 = UInt8.ofNat (x.toNat / 256 ^ 0) := by
    apply UInt8.toNat_inj.mp
    simp
  have h24 : (x >>> 24).toUInt8 = UInt8.ofNat (x.toNat / 256 ^ 3) := h 24 (by decide)
  have h16 : (x >>> 16).toUInt8 = UInt8.ofNat (x.toNat / 256 ^ 2) := h 16 (by decide)
  have h8 : (x >>> 8).toUInt8 = UInt8.ofNat (x.toNat / 256 ^ 1) := h 8 (by decide)
  rw [h24, h16, h8, h0]
  rfl

theorem toBigEndian_length (bits : UInt64) :
    ((List.range 8).map fun i => (bits >>> UInt64.ofNat (56 - i * 8)).toUInt8) =
      Sha2.toBigEndian 8 bits.toNat := by
  refine List.map_congr_left fun i hi => ?_
  have hi : i < 8 := List.mem_range.mp hi
  apply UInt8.toNat_inj.mp
  have hk : 56 - i * 8 < 64 := by omega
  have hpow : 256 ^ (8 - 1 - i) = 2 ^ (56 - i * 8) := by
    rw [show 256 = 2 ^ 8 from rfl, ← pow_mul]
    congr 1
    omega
  rw [hpow]
  simp [UInt64.toNat_shiftRight, Nat.shiftRight_eq_div_pow, Nat.mod_eq_of_lt hk]

theorem k_eq : k = Sha2.constants := rfl

theorem load_eq {p : Bytes} (hp : 64 ≤ p.length) {i : ℕ} (hi : i < 16) :
    load p i = Sha2.blockWord (p.take 64) i := by
  have hdrop : ((p.take 64).drop (4 * i)).take 4 =
      [p.getD (i * 4) 0, p.getD (i * 4 + 1) 0, p.getD (i * 4 + 2) 0, p.getD (i * 4 + 3) 0] := by
    apply List.ext_getElem
    · simp only [List.length_take, List.length_drop, List.length_cons, List.length_nil]
      omega
    · intro j hj hj'
      have hj4 : j < 4 := hj'
      rw [List.getElem_take, List.getElem_drop, List.getElem_take]
      rcases j with - | - | - | - | j
      · simp [List.getElem?_eq_getElem (show i * 4 < p.length by omega), Nat.mul_comm]
      · simp [List.getElem?_eq_getElem (show i * 4 + 1 < p.length by omega), Nat.mul_comm]
      · simp [List.getElem?_eq_getElem (show i * 4 + 2 < p.length by omega), Nat.mul_comm]
      · simp [List.getElem?_eq_getElem (show i * 4 + 3 < p.length by omega), Nat.mul_comm]
      · omega
  rw [Sha2.blockWord, hdrop, ← or_shiftLeft_eq]
  rfl

theorem schedule_eq (block : Bytes) {t : ℕ} (ht : 16 ≤ t) :
    Sha2.schedule block t = Sha2.schedule block (t - 16) +
      Sha2.smallSigma0 (Sha2.schedule block (t - 15)) +
      Sha2.schedule block (t - 7) + Sha2.smallSigma1 (Sha2.schedule block (t - 2)) := by
  rw [Sha2.schedule_of_le block ht]
  ac_rfl

theorem foldl_expand {p : Bytes} (hp : 64 ≤ p.length) (n : ℕ) :
    (List.range' 16 n).foldl expand ((List.range 16).map (load p)) =
      (List.range (16 + n)).map (Sha2.schedule (p.take 64)) := by
  induction n with
  | zero =>
    refine List.map_congr_left fun i hi => ?_
    have hi : i < 16 := List.mem_range.mp hi
    rw [load_eq hp hi, Sha2.schedule_of_lt _ hi]
  | succ n ih =>
    have hget (i : ℕ) (hi : i < 16 + n) :
        ((List.range (16 + n)).map (Sha2.schedule (p.take 64))).getD i 0 =
          Sha2.schedule (p.take 64) i := by
      simp [List.getElem?_range hi]
    rw [List.range'_concat, List.foldl_append, ih, ← Nat.add_assoc, List.range_succ,
      List.map_append,
      List.foldl_cons, List.foldl_nil, Nat.one_mul, expand, hget _ (by omega), hget _ (by omega),
      hget _ (by omega), hget _ (by omega), List.map_cons, List.map_nil,
      schedule_eq _ (Nat.le_add_right 16 n)]
    rfl

theorem turn_eq {p : Bytes} (hp : 64 ≤ p.length) (v : Sha2.Words) {i : ℕ} (hi : i < 64) :
    turn (words p) v i =
      Sha2.round (Sha2.constants.getD i 0) (Sha2.schedule (p.take 64) i) v := by
  have hw : (words p).getD i 0 = Sha2.schedule (p.take 64) i := by
    rw [words, foldl_expand hp]
    simp [List.getElem?_range hi]
  simp only [turn, Sha2.round, hw, k_eq, Sha2.bigSigma0, Sha2.bigSigma1, Sha2.ch, Sha2.maj,
    UInt32.add_assoc]
  rfl

/-- The compression function is the standard's, on the first 64 bytes. -/
theorem compress_state (c : Sha256) {p : Bytes} (hp : 64 ≤ p.length) :
    stateWords (compress c p).state = Sha2.compress (stateWords c.state) (p.take 64) := by
  have hfold : (List.range 64).foldl (turn (words p)) (stateWords c.state) =
      (List.range 64).foldl (fun v t => Sha2.round (Sha2.constants.getD t 0)
        (Sha2.schedule (p.take 64) t) v) (stateWords c.state) :=
    List.foldl_ext _ _ _ fun v i hi => turn_eq hp v (List.mem_range.mp hi)
  rw [compress, Sha2.compress, ← hfold]
  rfl

@[simp] theorem block_compress (c : Sha256) (p : Bytes) : (compress c p).block = c.block := rfl

theorem stateWords_compress (c : Sha256) {p : Bytes} (hp : p.length = 64) :
    stateWords (compress c p).state = Sha2.foldBlocks (stateWords c.state) p := by
  rw [compress_state c hp.ge, List.take_of_length_le hp.le, Sha2.foldBlocks_single _ hp]

/-- The context after the bytes `m`. -/
structure Absorbed (c : Sha256) (m : Bytes) : Prop where
  state : stateWords c.state = Sha2.foldBlocks Sha2.initial m
  total : c.total = UInt64.ofNat m.length
  blockLen : c.blockLen = (Sha2.tail m).length
  partialBlock : c.block.bytes.take c.blockLen = Sha2.tail m

theorem absorbed_init (c : Sha256) : Absorbed c.init [] where
  state := by rw [Sha2.foldBlocks_of_lt _ (by decide)]; rfl
  total := rfl
  blockLen := rfl
  partialBlock := rfl

theorem compressBlocks_spec (c : Sha256) (data : Bytes) :
    (compressBlocks c data).2 = Sha2.tail data ∧
      stateWords (compressBlocks c data).1.state = Sha2.foldBlocks (stateWords c.state) data ∧
      (compressBlocks c data).1.total = c.total ∧
      (compressBlocks c data).1.blockLen = c.blockLen := by
  fun_induction compressBlocks c data with
  | case1 c data h ih =>
    obtain ⟨hrest, hstate, htotal, hlen⟩ := ih
    have htail : Sha2.tail (data.drop 64) = Sha2.tail data := by
      conv_rhs => rw [← List.take_append_drop 64 data]
      refine (Sha2.tail_append_of_dvd _ (Dvd.intro 1 ?_)).symm
      rw [List.length_take]
      omega
    refine ⟨hrest.trans htail, ?_, htotal, hlen⟩
    rw [hstate, compress_state c h, ← Sha2.foldBlocks_of_le _ h]
  | case2 c data h =>
    have hlt : data.length < 64 := by omega
    exact ⟨(Sha2.tail_of_lt hlt).symm, (Sha2.foldBlocks_of_lt _ hlt).symm, rfl, rfl⟩

theorem Absorbed.updateBlocks {c : Sha256} {m data : Bytes} (htail : Sha2.tail m = [])
    (hs : stateWords c.state = Sha2.foldBlocks Sha2.initial m)
    (ht : c.total = UInt64.ofNat (m ++ data).length) (hl : c.blockLen = 0) :
    Absorbed (c.updateBlocks data) (m ++ data) := by
  obtain ⟨hrest, hstate, htotal, hlen⟩ := compressBlocks_spec c data
  have hfold : Sha2.foldBlocks Sha2.initial (m ++ data) =
      Sha2.foldBlocks (stateWords c.state) data := by
    rw [Sha2.foldBlocks_append, htail, List.nil_append, hs]
  have htail' : Sha2.tail (m ++ data) = Sha2.tail data := by
    rw [Sha2.tail_append, htail, List.nil_append]
  have hlt : (Sha2.tail data).length < 64 := by
    rw [Sha2.length_tail]
    omega
  rw [Sha256.updateBlocks]
  dsimp only
  rw [hrest]
  split
  case isTrue hne =>
    refine ⟨by rw [hfold, ← hstate], htotal.trans ht, by rw [htail'], ?_⟩
    have htake := (compressBlocks c data).1.block.take_write
      (show 0 + (Sha2.tail data).length ≤ 64 by omega)
    rw [Nat.zero_add, List.take_zero, List.nil_append] at htake
    rw [htail', htake]
  case isFalse hnil =>
    have hnil : Sha2.tail data = [] := by simpa using hnil
    refine ⟨by rw [hfold, ← hstate], htotal.trans ht, ?_, ?_⟩
    · rw [htail', hnil, hlen, hl]
      rfl
    · rw [htail', hnil, hlen, hl, List.take_zero]

theorem Absorbed.update {c : Sha256} {m : Bytes} (h : Absorbed c m) (data : Bytes) :
    Absorbed (c.update data) (m ++ data) := by
  have htotal : c.total + UInt64.ofNat data.length = UInt64.ofNat (m ++ data).length := by
    rw [h.total, List.length_append, UInt64.ofNat_add]
  have hlt : (Sha2.tail m).length < 64 := by
    rw [Sha2.length_tail]
    omega
  have hl := h.blockLen
  rw [Sha256.update]
  dsimp only
  split
  case isFalse hzero =>
    have hl : c.blockLen = 0 := not_not.mp hzero
    have htail : Sha2.tail m = [] := List.length_eq_zero_iff.mp (h.blockLen ▸ hl)
    exact .updateBlocks htail h.state htotal hl
  case isTrue =>
    obtain ⟨n, hn⟩ : ∃ n, n = min (64 - c.blockLen) data.length := ⟨_, rfl⟩
    rw [← hn]
    -- the partial block, with the data that fits behind it
    have hlen : (data.take n).length = n := by
      rw [List.length_take]
      omega
    have htake : (c.block.write c.blockLen (data.take n)).bytes.take (c.blockLen + n) =
        Sha2.tail m ++ data.take n := by
      have := c.block.take_write (show c.blockLen + (data.take n).length ≤ 64 by omega)
      rwa [hlen, h.partialBlock] at this
    split
    case isTrue hroom =>
      have hall : data.take n = data := List.take_of_length_le (by omega)
      have hshort : (Sha2.tail m ++ data).length < 64 := by
        rw [List.length_append, ← hl]
        omega
      have htail : Sha2.tail (m ++ data) = Sha2.tail m ++ data := by
        rw [Sha2.tail_append, Sha2.tail_of_lt hshort]
      refine ⟨?_, htotal, ?_, ?_⟩
      · rw [Sha2.foldBlocks_append, Sha2.foldBlocks_of_lt _ hshort]
        exact h.state
      · rw [htail, List.length_append, ← hl]
        dsimp only
        omega
      · rw [htail, htake, hall]
    case isFalse hfull =>
      have hblock : (c.block.write c.blockLen (data.take n)).bytes =
          Sha2.tail m ++ data.take n := by
        rw [Block.bytes_write _ (by omega), h.partialBlock]
      have hblock64 : (Sha2.tail m ++ data.take n).length = 64 := by
        rw [← hblock, Block.length_bytes]
      have hdata : m ++ data = (m ++ data.take n) ++ data.drop n := by
        rw [List.append_assoc, List.take_append_drop]
      rw [hdata]
      apply Absorbed.updateBlocks
      · rw [Sha2.tail_append, ← List.append_nil (Sha2.tail m ++ data.take n),
          Sha2.tail_append_of_dvd _ (Dvd.intro 1 (by omega))]
        rfl
      · rw [Sha2.foldBlocks_append, ← h.state, hblock]
        exact stateWords_compress { c with
          total := c.total + UInt64.ofNat data.length
          block := c.block.write c.blockLen (data.take n)
          blockLen := c.blockLen + n } hblock64
      · rw [← hdata]
        exact htotal
      · rfl

theorem toList_stateWords (s : Vector UInt32 8) : s.toList = (stateWords s).toList := by
  apply List.ext_getElem
  · rw [Vector.length_toList]
    rfl
  · intro i hi _
    have hi : i < 8 := by simpa using hi
    rw [Vector.getElem_toList]
    interval_cases i <;> rfl

theorem serialise_eq (s : Vector UInt32 8) : (s.toList.flatMap fun (x : UInt32) =>
    [(x >>> 24).toUInt8, (x >>> 16).toUInt8, (x >>> 8).toUInt8, x.toUInt8]) =
    (stateWords s).serialise := by
  simp only [toBigEndian_word, toList_stateWords]
  rfl

theorem bytes_lastBlock {block : Block} {x length : Bytes} {off : ℕ} (ho : off ≤ 56)
    (hx : block.bytes.take off = x) (hlen : length.length = 8) :
    ((block.write off (.replicate (56 - off) 0)).write 56 length).bytes =
      x ++ List.replicate (56 - off) 0 ++ length := by
  have htake := block.take_write
    (show off + (List.replicate (56 - off) (0 : UInt8)).length ≤ 64 by
      rw [List.length_replicate]
      omega)
  rw [List.length_replicate, Nat.add_sub_cancel' ho, hx] at htake
  rw [Block.bytes_write _ (by omega), htake]

/-- The digest of the message so far. -/
theorem Absorbed.final {c : Sha256} {m : Bytes} (h : Absorbed c m) (hm : m.length < 2 ^ 61) :
    c.final = Sha2.digest m := by
  have hlt : (Sha2.tail m).length < 64 := by
    rw [Sha2.length_tail]
    omega
  have hl := h.blockLen
  have hmod := Sha2.length_tail m
  have hbits : (c.total * 8).toNat = 8 * m.length := by
    rw [h.total]
    simp
    omega
  have hmark : (c.block.write c.blockLen [0x80]).bytes.take (c.blockLen + 1) =
      Sha2.tail m ++ [0x80] := by
    rw [← h.partialBlock]
    exact c.block.take_write (show c.blockLen + [(0x80 : UInt8)].length ≤ 64 by
      rw [List.length_singleton]
      omega)
  have hdigest : Sha2.digest m =
      (Sha2.foldBlocks (stateWords c.state) (Sha2.tail m ++ Sha2.padding m.length)).serialise := by
    rw [Sha2.digest, Sha2.foldBlocks_append, h.state]
  have hlength := Sha2.length_toBigEndian 8 (8 * m.length)
  rw [Sha256.final, serialise_eq, hdigest]
  dsimp only
  apply congrArg Sha2.Words.serialise
  rw [toBigEndian_length, hbits, Sha2.padding, ← hmod, ← hl]
  split
  case isTrue hlong =>
    -- the length goes to a block of its own
    have hn : (119 - c.blockLen) % 64 = (64 - (c.blockLen + 1)) + 56 := by omega
    have hzero : ((c.block.write c.blockLen [0x80]).write (c.blockLen + 1)
        (.replicate (64 - (c.blockLen + 1)) 0)).bytes =
        Sha2.tail m ++ [0x80] ++ List.replicate (64 - (c.blockLen + 1)) 0 := by
      rw [Block.bytes_write _ (by rw [List.length_replicate]; omega), hmark]
    have hblock64 := Block.length_bytes ((c.block.write c.blockLen [0x80]).write (c.blockLen + 1)
      (.replicate (64 - (c.blockLen + 1)) 0))
    have hmessage : Sha2.tail m ++ (0x80 :: List.replicate ((119 - c.blockLen) % 64) 0 ++
        Sha2.toBigEndian 8 (8 * m.length)) =
        ((c.block.write c.blockLen [0x80]).write (c.blockLen + 1)
          (.replicate (64 - (c.blockLen + 1)) 0)).bytes ++
          ([] ++ List.replicate (56 - 0) 0 ++ Sha2.toBigEndian 8 (8 * m.length)) := by
      rw [hzero, hn, List.replicate_add]
      simp only [List.append_assoc, List.cons_append, List.nil_append]
    rw [hmessage, Sha2.foldBlocks_block _ hblock64]
    dsimp only
    rw [block_compress, bytes_lastBlock (Nat.zero_le 56) List.take_zero hlength,
      stateWords_compress, stateWords_compress _ hblock64, Sha2.foldBlocks_single _ hblock64]
    simp only [List.length_append, List.length_nil, List.length_replicate, hlength]
  case isFalse hshort =>
    have hn : (119 - c.blockLen) % 64 = 56 - (c.blockLen + 1) := by omega
    rw [bytes_lastBlock (by omega) hmark hlength, stateWords_compress, hn, List.append_assoc,
      List.append_assoc, List.cons_append]
    · rfl
    · simp only [List.length_append, List.length_cons, List.length_nil, List.length_replicate,
        hlength]
      omega

theorem absorbed_foldl {c : Sha256} {m : Bytes} (h : Absorbed c m) (chunks : List Bytes) :
    Absorbed (chunks.foldl Sha256.update c) (m ++ chunks.flatten) := by
  induction chunks generalizing c m with
  | nil => rwa [List.flatten_nil, List.append_nil]
  | cons data chunks ih =>
    rw [List.flatten_cons, ← List.append_assoc]
    exact ih (h.update data)

end Sha256

theorem sha256_none (c : Sha256) {data : Bytes} (hlen : data.length < 2 ^ 61) :
    sha256 c none data = Sha2.digest data :=
  ((Sha256.absorbed_init c).update data).final hlen

/-- Over any chunks the digest is the standard's digest of the whole message, so it does not depend
on them, and the one-shot function without libcrypto gives the same. -/
theorem sha256_chunks (c : Sha256) {chunks : List Bytes} (hlen : chunks.flatten.length < 2 ^ 61) :
    (chunks.foldl Sha256.update c.init).final = Sha2.digest chunks.flatten ∧
      (∀ (c' : Sha256) (chunks' : List Bytes), chunks'.flatten = chunks.flatten →
        (chunks'.foldl Sha256.update c'.init).final = (chunks.foldl Sha256.update c.init).final) ∧
      sha256 c none chunks.flatten = Sha2.digest chunks.flatten := by
  have hdigest (c : Sha256) (chunks : List Bytes) (hlen : chunks.flatten.length < 2 ^ 61) :
      (chunks.foldl Sha256.update c.init).final = Sha2.digest chunks.flatten :=
    (Sha256.absorbed_foldl (Sha256.absorbed_init c) chunks).final hlen
  refine ⟨hdigest c chunks hlen, fun c' chunks' h => ?_, ?_⟩
  · rw [hdigest c' chunks' (h ▸ hlen), hdigest c chunks hlen, h]
  · exact sha256_none c hlen

/-- Three chunks of "abc". -/
theorem sha256_chunks_sample :
    let c : Sha256 := ⟨.replicate 8 0, 0, ⟨.replicate 64 0xff, List.length_replicate⟩, 0⟩
    ([ascii "a", [], ascii "bc"].foldl Sha256.update c.init).final = Sha2.digest (ascii "abc") ∧
      sha256 c none (ascii "abc") = Sha2.digest (ascii "abc") := by
  intro c
  have h := sha256_chunks c (by decide : [ascii "a", [], ascii "bc"].flatten.length < 2 ^ 61)
  exact ⟨h.1, h.2.2⟩

example :
    sha256 ⟨.replicate 8 0, 0, ⟨.replicate 64 0, List.length_replicate⟩, 0⟩ none (ascii "abc") =
    [0xba, 0x78, 0x16, 0xbf, 0x8f, 0x01, 0xcf, 0xea, 0x41, 0x41, 0x40, 0xde, 0x5d, 0xae, 0x22, 0x23,
      0xb0, 0x03, 0x61, 0xa3, 0x96, 0x17, 0x7a, 0x9c, 0xb4, 0x10, 0xff, 0x61, 0xf2, 0x00,
        0x15, 0xad] := by
  decide +kernel

end NgxBrotli
