import Frontend.Text.Basic

/-!
# Digests

The BLAKE2b digest of 32 bytes, written in hexadecimal. A message is taken in blocks of 128 bytes;
every block is mixed into a chain of eight words in twelve rounds.
-/

namespace Frontend.Digest

/-- The words that the chain starts with. -/
def start : Array UInt64 := #[
  0x6a09e667f3bcc908, 0xbb67ae8584caa73b, 0x3c6ef372fe94f82b, 0xa54ff53a5f1d36f1,
  0x510e527fade682d1, 0x9b05688c2b3e6c1f, 0x1f83d9abfb41bd6b, 0x5be0cd19137e2179]

/-- The order in which the rounds take the words of a block; after the tenth round it starts again. -/
def schedule : List (List Nat) := [
  [0, 1, 2, 3, 4, 5, 6, 7, 8, 9, 10, 11, 12, 13, 14, 15],
  [14, 10, 4, 8, 9, 15, 13, 6, 1, 12, 0, 2, 11, 7, 5, 3],
  [11, 8, 12, 0, 5, 2, 15, 13, 10, 14, 3, 6, 7, 1, 9, 4],
  [7, 9, 3, 1, 13, 12, 11, 14, 2, 6, 5, 10, 4, 0, 15, 8],
  [9, 0, 5, 7, 2, 4, 10, 15, 14, 1, 11, 12, 6, 8, 3, 13],
  [2, 12, 6, 10, 0, 11, 8, 3, 4, 13, 7, 5, 15, 14, 1, 9],
  [12, 5, 1, 15, 14, 13, 4, 10, 0, 7, 6, 3, 9, 2, 8, 11],
  [13, 11, 7, 14, 12, 1, 3, 9, 5, 0, 15, 4, 8, 6, 2, 10],
  [6, 15, 14, 9, 11, 3, 0, 8, 12, 2, 13, 7, 1, 4, 10, 5],
  [10, 2, 8, 4, 7, 6, 1, 5, 15, 11, 9, 14, 3, 12, 13, 0]]

/-- The four places of the working words that each of the eight steps of a round mixes: the columns
and then the diagonals of a square. -/
def lanes : List (Nat × Nat × Nat × Nat) := [
  (0, 4, 8, 12), (1, 5, 9, 13), (2, 6, 10, 14), (3, 7, 11, 15),
  (0, 5, 10, 15), (1, 6, 11, 12), (2, 7, 8, 13), (3, 4, 9, 14)]

/-- A word turned to the right. -/
def turn (x : UInt64) (places : UInt64) : UInt64 := (x >>> places) ||| (x <<< (64 - places))

/-- Mixes four working words with two words of the block. -/
def mix (v : Array UInt64) (lane : Nat × Nat × Nat × Nat) (x y : UInt64) : Array UInt64 :=
  let (i, j, k, l) := lane
  let a := v.getD i 0 + v.getD j 0 + x
  let d := turn (v.getD l 0 ^^^ a) 32
  let c := v.getD k 0 + d
  let b := turn (v.getD j 0 ^^^ c) 24
  let a := a + b + y
  let d := turn (d ^^^ a) 16
  let c := c + d
  let b := turn (b ^^^ c) 63
  (((v.setIfInBounds i a).setIfInBounds j b).setIfInBounds k c).setIfInBounds l d

/-- The steps of one round, given the order in which it takes the words of the block. -/
def round (block : Array UInt64) : Array UInt64 → List (Nat × Nat × Nat × Nat) → List Nat →
    Array UInt64
  | v, lane :: rest, x :: y :: order =>
    round block (mix v lane (block.getD x 0) (block.getD y 0)) rest order
  | v, _, _ => v

/-- Mixes a block into the chain. `count` is how many bytes have been taken, this block included. -/
def compress (chain block : Array UInt64) (count : Nat) (last : Bool) : Array UInt64 :=
  let v := chain ++ start
  let v := v.modify 12 (· ^^^ count.toUInt64)
  let v := v.modify 13 (· ^^^ (count >>> 64).toUInt64)
  let v := if last then v.modify 14 (~~~ ·) else v
  let v := (schedule ++ schedule.take 2).foldl (fun v order => round block v lanes order) v
  Array.ofFn fun (i : Fin 8) => chain.getD i 0 ^^^ v.getD i 0 ^^^ v.getD (i + 8) 0

/-- A word of eight bytes, the lowest one first. -/
def wordOf (bytes : List UInt8) : UInt64 :=
  bytes.foldr (fun b w => (w <<< 8) ||| b.toUInt64) 0

/-- The words of a block. Missing bytes count as zero. -/
def wordsOf : Nat → List UInt8 → List UInt64
  | 0, _ => []
  | n + 1, bytes => wordOf (bytes.take 8) :: wordsOf n (bytes.drop 8)

/-- How many bytes make a block. -/
def blockSize : Nat := 128

/-- Takes in a message block by block; `count` bytes were taken before. A full block that ends the
message is its last block. -/
def absorb : Nat → Array UInt64 → Nat → List UInt8 → Array UInt64
  | 0, chain, _, _ => chain
  | fuel + 1, chain, count, bytes =>
    let block := bytes.take blockSize
    let rest := bytes.drop blockSize
    let words := (wordsOf 16 block).toArray
    let count := count + block.length
    if rest.isEmpty then compress chain words count true
    else absorb fuel (compress chain words count false) count rest

/-- The bytes of a word, the lowest one first. -/
def bytesOf (w : UInt64) : List UInt8 :=
  (List.range 8).map fun i => (w >>> (8 * i).toUInt64).toUInt8

/-- The digest of a message: 32 bytes, no key. -/
def ofBytes (message : List UInt8) : List UInt8 :=
  let chain := start.modify 0 (· ^^^ 0x01010020)
  ((absorb (message.length / blockSize + 1) chain 0 message).toList.take 4).flatMap bytesOf

def ofText (s : String) : String :=
  String.ofList ((ofBytes s.toUTF8.toList).flatMap fun b => Text.hex 2 b.toNat)

end Frontend.Digest
