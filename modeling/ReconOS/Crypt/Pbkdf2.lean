import ReconOS.Lib.Blocks

/-! SHA-256 as it is computed, and what the specification makes of a whole message. -/
namespace ReconOS.Crypt

open ReconOS.Lib

abbrev Bytes := List UInt8

def K : List UInt32 := [
  0x428a2f98, 0x71374491, 0xb5c0fbcf, 0xe9b5dba5, 0x3956c25b, 0x59f111f1, 0x923f82a4, 0xab1c5ed5,
  0xd807aa98, 0x12835b01, 0x243185be, 0x550c7dc3, 0x72be5d74, 0x80deb1fe, 0x9bdc06a7, 0xc19bf174,
  0xe49b69c1, 0xefbe4786, 0x0fc19dc6, 0x240ca1cc, 0x2de92c6f, 0x4a7484aa, 0x5cb0a9dc, 0x76f988da,
  0x983e5152, 0xa831c66d, 0xb00327c8, 0xbf597fc7, 0xc6e00bf3, 0xd5a79147, 0x06ca6351, 0x14292967,
  0x27b70a85, 0x2e1b2138, 0x4d2c6dfc, 0x53380d13, 0x650a7354, 0x766a0abb, 0x81c2c92e, 0x92722c85,
  0xa2bfe8a1, 0xa81a664b, 0xc24b8b70, 0xc76c51a3, 0xd192e819, 0xd6990624, 0xf40e3585, 0x106aa070,
  0x19a4c116, 0x1e376c08, 0x2748774c, 0x34b0bcb5, 0x391c0cb3, 0x4ed8aa4a, 0x5b9cca4f, 0x682e6ff3,
  0x748f82ee, 0x78a5636f, 0x84c87814, 0x8cc70208, 0x90befffa, 0xa4506ceb, 0xbef9a3f7, 0xc67178f2]

structure State where
  a : UInt32
  b : UInt32
  c : UInt32
  d : UInt32
  e : UInt32
  f : UInt32
  g : UInt32
  h : UInt32
  deriving DecidableEq

def State.words (s : State) : List UInt32 := [s.a, s.b, s.c, s.d, s.e, s.f, s.g, s.h]

def rotateRight (value places : UInt32) : UInt32 := (value >>> places) ||| (value <<< (32 - places))

/-- The big-endian word at `i`. -/
def wordAt (block : Bytes) (i : Nat) : UInt32 :=
  ((block.getD (i * 4) 0).toUInt32 <<< 24) ||| ((block.getD (i * 4 + 1) 0).toUInt32 <<< 16) |||
    ((block.getD (i * 4 + 2) 0).toUInt32 <<< 8) ||| (block.getD (i * 4 + 3) 0).toUInt32

def wordBytes (w : UInt32) : Bytes :=
  [(w >>> 24).toUInt8, (w >>> 16).toUInt8, (w >>> 8).toUInt8, w.toUInt8]

/-- The next of the sixty-four words. -/
def expand (w : List UInt32) : UInt32 :=
  let i := w.length
  let x := w.getD (i - 15) 0
  let y := w.getD (i - 2) 0
  let s0 := rotateRight x 7 ^^^ rotateRight x 18 ^^^ (x >>> 3)
  let s1 := rotateRight y 17 ^^^ rotateRight y 19 ^^^ (y >>> 10)
  w.getD (i - 16) 0 + s0 + w.getD (i - 7) 0 + s1

def schedule (block : Bytes) : List UInt32 :=
  (List.range 48).foldl (fun w _ => w ++ [expand w]) ((List.range 16).map (wordAt block))

def round (s : State) (k w : UInt32) : State :=
  let s1 := rotateRight s.e 6 ^^^ rotateRight s.e 11 ^^^ rotateRight s.e 25
  let choose := (s.e &&& s.f) ^^^ (~~~s.e &&& s.g)
  let temp1 := s.h + s1 + choose + k + w
  let s0 := rotateRight s.a 2 ^^^ rotateRight s.a 13 ^^^ rotateRight s.a 22
  let majority := (s.a &&& s.b) ^^^ (s.a &&& s.c) ^^^ (s.b &&& s.c)
  ⟨temp1 + (s0 + majority), s.a, s.b, s.c, s.d + temp1, s.e, s.f, s.g⟩

def compress (s : State) (block : Bytes) : State :=
  let t := (K.zip (schedule block)).foldl (fun t kw => round t kw.1 kw.2) s
  ⟨s.a + t.a, s.b + t.b, s.c + t.c, s.d + t.d, s.e + t.e, s.f + t.f, s.g + t.g, s.h + t.h⟩

def initial : State :=
  ⟨0x6a09e667, 0xbb67ae85, 0x3c6ef372, 0xa54ff53a, 0x510e527f, 0x9b05688c, 0x1f83d9ab, 0x5be0cd19⟩

/-- `struct recon_sha256`; the buffer is as much of it as is filled, and never full. -/
structure Sha256 where
  state : State
  length : UInt64
  buffer : Bytes
  short : buffer.length < 64

theorem nil_short : ([] : Bytes).length < 64 := by
  decide

namespace Sha256

def init : Sha256 := ⟨initial, 0, [], nil_short⟩

variable (ctx : Sha256)

/-- How many of `size` bytes there is room for. -/
def take (size : Nat) : Nat := min size (64 - ctx.buffer.length)

theorem put_short (bytes : Bytes)
    (part : (ctx.buffer ++ bytes.take (ctx.take bytes.length)).length ≠ 64) :
    (ctx.buffer ++ bytes.take (ctx.take bytes.length)).length < 64 := by
  apply Nat.lt_of_le_of_ne _ part
  rw [List.length_append, List.length_take, take]
  have := ctx.short
  omega

/-- One turn of the loop. -/
def put (bytes : Bytes) : Sha256 :=
  if full : (ctx.buffer ++ bytes.take (ctx.take bytes.length)).length = 64 then
    ⟨compress ctx.state (ctx.buffer ++ bytes.take (ctx.take bytes.length)), ctx.length, [],
      nil_short⟩
  else
    ⟨ctx.state, ctx.length, ctx.buffer ++ bytes.take (ctx.take bytes.length),
      ctx.put_short bytes full⟩

/-- The loop, in so many turns at most. -/
def fill : Nat → Sha256 → Bytes → Sha256
  | 0, ctx, _ => ctx
  | _ + 1, ctx, [] => ctx
  | turns + 1, ctx, byte :: rest =>
    fill turns (ctx.put (byte :: rest))
      ((byte :: rest).drop (ctx.take (byte :: rest).length))

def update (data : Bytes) : Sha256 :=
  fill data.length { ctx with length := ctx.length + UInt64.ofNat data.length * 8 } data

/-- The padding's bytes are not part of the message. -/
def updatePadding (data : Bytes) : Sha256 := { ctx.update data with length := ctx.length }

def zeroes : Nat → Sha256 → Sha256
  | 0, ctx => ctx
  | turns + 1, ctx => if ctx.buffer.length = 56 then ctx else zeroes turns (ctx.updatePadding [0])

/-- The eight bytes of a length, the highest first. -/
def lengthBytes (length : UInt64) : Bytes :=
  (List.range 8).map fun i => (length >>> UInt64.ofNat (56 - i * 8)).toUInt8

def final : Bytes :=
  ((zeroes 64 (ctx.updatePadding [0x80])).update (lengthBytes ctx.length)).state.words.flatMap
    wordBytes

end Sha256

/-- `recon_sha256`. -/
def sha256 (data : Bytes) : Bytes := (Sha256.init.update data).final

/-! ## The specification -/

/-- A one bit, zeroes, and the length in bits, to the end of a block. -/
def padding (size : Nat) : Bytes :=
  0x80 :: List.replicate ((119 - size % 64) % 64) 0 ++
    Sha256.lengthBytes (UInt64.ofNat size * 8)

/-- What a whole message comes to, block by block. -/
def digest (message : Bytes) : Bytes :=
  let padded := message ++ padding message.length
  ((blocks 64 (padded.length / 64) padded).foldl compress initial).words.flatMap wordBytes

/-! ## However a message comes -/

/-- The state and the buffer are what the message `m` comes to, so far. -/
def Sha256.Holds (ctx : Sha256) (m : Bytes) : Prop :=
  (ctx.state, ctx.buffer) = absorbed 64 compress initial m

namespace Sha256

variable {ctx : Sha256} {m : Bytes}

theorem init_holds : init.Holds [] := (absorbed_nil _).symm

theorem Holds.state (holds : ctx.Holds m) : ctx.state = (absorbed 64 compress initial m).1 :=
  congrArg Prod.fst holds

theorem Holds.buffer (holds : ctx.Holds m) : ctx.buffer = (absorbed 64 compress initial m).2 :=
  congrArg Prod.snd holds

/-- One turn takes in as much as there is room for. -/
theorem Holds.put (holds : ctx.Holds m) (bytes : Bytes) :
    (ctx.put bytes).Holds (m ++ bytes.take (ctx.take bytes.length)) := by
  unfold Sha256.put Holds
  split
  · rename_i full
    rw [List.length_append, holds.buffer] at full
    rw [absorbed_full (by decide) full, ← holds.state, ← holds.buffer]
  · rename_i part
    have less := ctx.put_short bytes part
    rw [List.length_append, holds.buffer] at less
    rw [absorbed_short less, ← holds.state, ← holds.buffer]

theorem put_length (bytes : Bytes) : (ctx.put bytes).length = ctx.length := by
  unfold put
  split
  · rfl
  · rfl

/-- The loop takes in everything, in no more turns than there are bytes. -/
theorem Holds.fill (turns : Nat) : ∀ {ctx : Sha256} {m : Bytes} (bytes : Bytes), ctx.Holds m →
    bytes.length ≤ turns → (Sha256.fill turns ctx bytes).Holds (m ++ bytes) := by
  induction turns with
  | zero =>
    intro ctx m bytes holds few
    rw [List.length_eq_zero_iff.mp (Nat.le_zero.mp few), List.append_nil]
    exact holds
  | succ turns ih =>
    intro ctx m bytes holds few
    cases bytes with
    | nil =>
      rw [List.append_nil]
      exact holds
    | cons byte rest =>
      have some_ : 1 ≤ ctx.take (byte :: rest).length := by
        have := ctx.short
        rw [Sha256.take, List.length_cons]
        omega
      have fewer : ((byte :: rest).drop (ctx.take (byte :: rest).length)).length ≤ turns := by
        rw [List.length_drop]
        omega
      have all := ih _ (holds.put (byte :: rest)) fewer
      rwa [List.append_assoc, List.take_append_drop] at all

theorem fill_length (turns : Nat) : ∀ (ctx : Sha256) (bytes : Bytes),
    (fill turns ctx bytes).length = ctx.length := by
  induction turns with
  | zero =>
    intro ctx bytes
    rfl
  | succ turns ih =>
    intro ctx bytes
    cases bytes with
    | nil => rfl
    | cons byte rest => exact (ih _ _).trans (put_length _)

theorem Holds.update (holds : ctx.Holds m) (data : Bytes) :
    (ctx.update data).Holds (m ++ data) := by
  have counted : { ctx with length := ctx.length + UInt64.ofNat data.length * 8 }.Holds m := holds
  exact counted.fill data.length data (Nat.le_refl _)

theorem update_length (data : Bytes) :
    (ctx.update data).length = ctx.length + UInt64.ofNat data.length * 8 := fill_length _ _ _

theorem Holds.updatePadding (holds : ctx.Holds m) (data : Bytes) :
    (ctx.updatePadding data).Holds (m ++ data) := holds.update data

theorem Holds.buffered (holds : ctx.Holds m) : ctx.buffer.length = m.length % 64 := by
  rw [holds.buffer, absorbed_left_length]

/-- The zeroes are as many as leave room for the length. -/
theorem Holds.zeroes (turns : Nat) : ∀ {ctx : Sha256} {m : Bytes}, ctx.Holds m →
    (120 - m.length % 64) % 64 ≤ turns →
    (Sha256.zeroes turns ctx).Holds (m ++ List.replicate ((120 - m.length % 64) % 64) 0) := by
  induction turns with
  | zero =>
    intro ctx m holds few
    rw [Nat.le_zero.mp few, List.replicate_zero, List.append_nil]
    exact holds
  | succ turns ih =>
    intro ctx m holds few
    have buffered := holds.buffered
    rw [Sha256.zeroes]
    split
    · rename_i full
      have none : (120 - m.length % 64) % 64 = 0 := by omega
      rw [none, List.replicate_zero, List.append_nil]
      exact holds
    · rename_i room
      have one_less : (120 - m.length % 64) % 64 = (120 - (m ++ [0]).length % 64) % 64 + 1 := by
        rw [List.length_append, List.length_singleton]
        omega
      rw [one_less] at few ⊢
      have rest := ih (holds.updatePadding [0]) (Nat.le_of_succ_le_succ few)
      rwa [List.append_assoc] at rest

/-- A context that has taken in `m`, and counted it. -/
structure Took (ctx : Sha256) (m : Bytes) : Prop where
  holds : ctx.Holds m
  length : ctx.length = UInt64.ofNat m.length * 8

theorem Took.init : Took Sha256.init [] := ⟨init_holds, rfl⟩

theorem Took.update (took : ctx.Took m) (data : Bytes) : (ctx.update data).Took (m ++ data) := by
  constructor
  · exact took.holds.update data
  · rw [update_length, took.length, List.length_append, UInt64.ofNat_add, UInt64.add_mul]

theorem Took.pieces (pieces : List Bytes) : ∀ {ctx : Sha256} {m : Bytes}, ctx.Took m →
    (pieces.foldl Sha256.update ctx).Took (m ++ pieces.flatten) := by
  induction pieces with
  | nil =>
    intro ctx m took
    rw [List.flatten_nil, List.append_nil]
    exact took
  | cons piece pieces ih =>
    intro ctx m took
    rw [List.flatten_cons, ← List.append_assoc]
    exact ih (took.update piece)

theorem padding_length (size : Nat) : (size + (padding size).length) % 64 = 0 := by
  rw [padding, List.length_append, List.length_cons, List.length_replicate]
  change (size + ((119 - size % 64) % 64 + 1 + 8)) % 64 = 0
  omega

/-- What the padding leaves is the digest. -/
theorem Took.final (took : ctx.Took m) : ctx.final = digest m := by
  have marked := took.holds.updatePadding [0x80]
  have zeroed := marked.zeroes 64 (Nat.le_of_lt (Nat.mod_lt _ (by decide)))
  have whole := zeroed.update (lengthBytes ctx.length)
  have zeroes : (120 - (m ++ [(0x80 : UInt8)]).length % 64) % 64 = (119 - m.length % 64) % 64 := by
    rw [List.length_append, List.length_singleton]
    omega
  have message : m ++ [0x80] ++ List.replicate ((119 - m.length % 64) % 64) 0 ++
      lengthBytes ctx.length = m ++ padding m.length := by
    rw [padding, took.length]
    simp only [List.append_assoc, List.cons_append, List.nil_append]
  rw [zeroes, message] at whole
  have even : (m ++ padding m.length).length % 64 = 0 := by
    rw [List.length_append]
    exact padding_length m.length
  rw [Sha256.final, whole.state, absorbed_whole even]
  rfl

end Sha256

/-- A message that comes in any pieces has the digest of the whole. -/
theorem final_update (pieces : List Bytes) :
    (pieces.foldl Sha256.update Sha256.init).final = digest pieces.flatten :=
  (Sha256.Took.init.pieces pieces).final

example : sha256 [0x61, 0x62, 0x63] = [0xba, 0x78, 0x16, 0xbf, 0x8f, 0x01, 0xcf, 0xea, 0x41, 0x41,
    0x40, 0xde, 0x5d, 0xae, 0x22, 0x23, 0xb0, 0x03, 0x61, 0xa3, 0x96, 0x17, 0x7a, 0x9c, 0xb4, 0x10,
    0xff, 0x61, 0xf2, 0x00, 0x15, 0xad] := by
  decide +kernel

/-! HMAC and PBKDF2: as they are computed, and as they are defined. -/

def xorBytes (x y : Bytes) : Bytes := List.zipWith (· ^^^ ·) x y

/-! ## HMAC -/

/-- `memcpy` to the front of a block of zeroes. -/
def padKey (key : Bytes) : Bytes :=
  let kept := if 64 < key.length then sha256 key else key
  kept ++ List.replicate (64 - kept.length) 0

/-- `recon_hmac_sha256`. -/
def hmacSha256 (key data : Bytes) : Bytes :=
  let padded := padKey key
  let inner := ((Sha256.init.update (padded.map (· ^^^ 0x36))).update data).final
  ((Sha256.init.update (padded.map (· ^^^ 0x5c))).update inner).final

/-- A key, or the digest of one that is too long, filled up to a block. -/
def keyBlock (key : Bytes) : Bytes :=
  let kept := if 64 < key.length then digest key else key
  kept ++ List.replicate (64 - kept.length) 0

/-- The digest under a key, of a message that is digested under it. -/
def hmac (key message : Bytes) : Bytes :=
  digest ((keyBlock key).map (· ^^^ 0x5c) ++ digest ((keyBlock key).map (· ^^^ 0x36) ++ message))

theorem sha256_eq (data : Bytes) : sha256 data = digest data :=
  (Sha256.Took.init.update data).final

theorem final_two (front back : Bytes) :
    ((Sha256.init.update front).update back).final = digest (front ++ back) :=
  ((Sha256.Took.init.update front).update back).final

theorem hmacSha256_eq (key data : Bytes) : hmacSha256 key data = hmac key data := by
  have same : padKey key = keyBlock key := by
    rw [padKey, sha256_eq]
    rfl
  rw [hmacSha256, final_two, final_two, same, hmac]

theorem digest_length (message : Bytes) : (digest message).length = 32 := rfl

theorem hmac_length (key message : Bytes) : (hmac key message).length = 32 := digest_length _

/-! ## PBKDF2 -/

/-- The salt, as far as there is room for it, and the block's number. -/
def seed (salt : Bytes) (index : UInt32) : Bytes := salt.take 128 ++ wordBytes index

/-- The rounds after the first: what the last one came to, and all of them folded together. -/
def rounds (password : Bytes) : Nat → Bytes × Bytes → Bytes × Bytes
  | 0, s => s
  | n + 1, (current, accumulated) =>
    let next := hmacSha256 password current
    rounds password n (next, xorBytes accumulated next)

/-- One block of the output. -/
def derive (password salt : Bytes) (iterations : UInt32) (index : UInt32) : Bytes :=
  let current := hmacSha256 password (seed salt index)
  (rounds password (iterations.toNat - 1) (current, current)).2

/-- The loop over the blocks, in so many turns at most. -/
def produce (password salt : Bytes) (iterations : UInt32) (outSize : Nat) :
    Nat → UInt32 → Bytes → Bytes
  | 0, _, out => out
  | turns + 1, index, out =>
    if out.length < outSize then
      produce password salt iterations outSize turns (index + 1)
        (out ++ (derive password salt iterations index).take (outSize - out.length))
    else out

/-- `recon_pbkdf2_sha256`. -/
def pbkdf2Sha256 (password salt : Bytes) (iterations : UInt32) (outSize : Nat) : Bytes :=
  produce password salt (if iterations = 0 then 1 else iterations) outSize outSize 1 []

/-! ### As it is defined -/

/-- The chain of HMACs that starts with the salt and the block's number. -/
def chain (password salt : Bytes) (index : UInt32) : Nat → Bytes
  | 0 => hmac password (salt.take 128 ++ wordBytes index)
  | n + 1 => hmac password (chain password salt index n)

/-- The first of the chain, each of the rest folded in. -/
def blockOf (password salt : Bytes) (count : Nat) (index : UInt32) : Bytes :=
  (List.range (count - 1)).foldl (fun t j => xorBytes t (chain password salt index (j + 1)))
    (chain password salt index 0)

variable (password salt : Bytes) (index : UInt32)

theorem rounds_chain (n : Nat) : ∀ (j : Nat) (t : Bytes),
    (rounds password n (chain password salt index j, t)).2 =
      (List.range' j n).foldl (fun t j => xorBytes t (chain password salt index (j + 1))) t := by
  induction n with
  | zero =>
    intro j t
    rfl
  | succ n ih =>
    intro j t
    rw [rounds, hmacSha256_eq, List.range'_succ, List.foldl_cons]
    exact ih (j + 1) _

theorem derive_eq (iterations : UInt32) : derive password salt iterations index =
    blockOf password salt iterations.toNat index := by
  rw [derive, seed, hmacSha256_eq]
  have folded := rounds_chain password salt index (iterations.toNat - 1) 0
    (chain password salt index 0)
  rw [← List.range_eq_range'] at folded
  exact folded

theorem xorBytes_length (x y : Bytes) : (xorBytes x y).length = min x.length y.length :=
  List.length_zipWith

theorem chain_length (n : Nat) : (chain password salt index n).length = 32 := by
  cases n with
  | zero | succ n => exact hmac_length _ _

theorem blockOf_length (count : Nat) : (blockOf password salt count index).length = 32 := by
  unfold blockOf
  generalize List.range (count - 1) = js
  have start := chain_length password salt index 0
  generalize chain password salt index 0 = t at start
  induction js generalizing t with
  | nil => exact start
  | cons j js ih =>
    apply ih
    rw [xorBytes_length, start, chain_length, Nat.min_self]

/-- The first `n` blocks, one after another. -/
def blocksTo (password salt : Bytes) (count n : Nat) : Bytes :=
  (List.range n).flatMap fun i => blockOf password salt count (UInt32.ofNat (i + 1))

theorem blocksTo_succ (count n : Nat) : blocksTo password salt count (n + 1) =
    blocksTo password salt count n ++ blockOf password salt count (UInt32.ofNat (n + 1)) := by
  rw [blocksTo, List.range_succ, List.flatMap_append, List.flatMap_singleton]
  rfl

theorem blocksTo_length (count n : Nat) : (blocksTo password salt count n).length = 32 * n := by
  induction n with
  | zero => rfl
  | succ n ih => rw [blocksTo_succ, List.length_append, ih, blockOf_length, Nat.mul_succ]

/-- More blocks than are asked for make no difference. -/
theorem take_blocksTo {count size n m : Nat} (enough : size ≤ 32 * n) (more : n ≤ m) :
    (blocksTo password salt count m).take size = (blocksTo password salt count n).take size := by
  induction more with
  | refl => rfl
  | @step m more ih =>
    have more : n ≤ m := more
    have long : size ≤ (blocksTo password salt count m).length := by
      rw [blocksTo_length]
      omega
    rw [blocksTo_succ, List.take_append_of_le_length long, ih]

/-- The induction is on the turns left; so far there are the first `i` blocks. -/
theorem produce_eq (iterations : UInt32) {size n : Nat} (enough : size ≤ 32 * n) (turns : Nat) :
    ∀ i : Nat, i ≤ n → size ≤ 32 * (i + turns) →
    produce password salt iterations size turns (UInt32.ofNat (i + 1))
      ((blocksTo password salt iterations.toNat i).take size) =
        (blocksTo password salt iterations.toNat n).take size := by
  induction turns with
  | zero =>
    intro i less room
    exact (take_blocksTo password salt room less).symm
  | succ turns ih =>
    intro i less room
    rw [produce, List.length_take, blocksTo_length]
    split
    · rename_i some_
      have part : 32 * i < size := by omega
      have next := ih (i + 1) (by omega) (by omega)
      have all : (blocksTo password salt iterations.toNat i).take size =
          blocksTo password salt iterations.toNat i :=
        List.take_of_length_le (by rw [blocksTo_length]; omega)
      have index : UInt32.ofNat (i + 1) + 1 = UInt32.ofNat (i + 1 + 1) := by
        rw [UInt32.ofNat_add (i + 1) 1]
        rfl
      have left : size - min size (32 * i) = size - 32 * i := by omega
      rw [blocksTo_succ, List.take_append, all, blocksTo_length] at next
      rw [index, derive_eq, all, left]
      exact next
    · rename_i none_
      exact (take_blocksTo password salt (by omega) less).symm

/-- The output is the first of the blocks that the definition gives, each of them a digest under
the password of the salt and its number, folded with as many of the chain after it. -/
theorem pbkdf2Sha256_eq (password salt : Bytes) (iterations : UInt32) (size : Nat) :
    pbkdf2Sha256 password salt iterations size =
      (blocksTo password salt (max 1 iterations.toNat) ((size + 31) / 32)).take size := by
  have count : (if iterations = 0 then 1 else iterations).toNat = max 1 iterations.toNat := by
    split
    · rename_i zero
      rw [zero]
      rfl
    · rename_i some_
      have pos : iterations.toNat ≠ 0 := fun zero => some_ (UInt32.toNat_inj.mp zero)
      omega
  have enough : size ≤ 32 * ((size + 31) / 32) := by omega
  have produced := produce_eq password salt (if iterations = 0 then 1 else iterations) enough size 0
    (Nat.zero_le _) (by omega)
  have none : blocksTo password salt (if iterations = 0 then 1 else iterations).toNat 0 = [] := rfl
  rw [none, List.take_nil, count] at produced
  exact produced

end ReconOS.Crypt
