import VectorMemory.Bytes

/-! The BLAKE3 hash function. The input is cut into chunks of 1024 bytes, the
leaves of a binary tree whose left subtrees are as large as a power of two
allows; every node is compressed, and the root gives the digest. -/
namespace VectorMemory.Blake3

abbrev State := Vector UInt32 16
abbrev Chain := Vector UInt32 8

def initial : Chain :=
  #v[0x6A09E667, 0xBB67AE85, 0x3C6EF372, 0xA54FF53A,
    0x510E527F, 0x9B05688C, 0x1F83D9AB, 0x5BE0CD19]

/-- The order of the message words from one round to the next. -/
def permutation : Vector (Fin 16) 16 :=
  #v[2, 6, 3, 10, 7, 0, 4, 13, 1, 11, 12, 5, 9, 14, 15, 8]

def rotateRight (x n : UInt32) : UInt32 :=
  (x >>> n) ||| (x <<< (32 - n))

def mix (v : State) (a b c d : Fin 16) (x y : UInt32) : State :=
  let v := v.set a (v[a] + v[b] + x)
  let v := v.set d (rotateRight (v[d] ^^^ v[a]) 16)
  let v := v.set c (v[c] + v[d])
  let v := v.set b (rotateRight (v[b] ^^^ v[c]) 12)
  let v := v.set a (v[a] + v[b] + y)
  let v := v.set d (rotateRight (v[d] ^^^ v[a]) 8)
  let v := v.set c (v[c] + v[d])
  v.set b (rotateRight (v[b] ^^^ v[c]) 7)

/-- Mix the columns of the state, then its diagonals. -/
def round (v m : State) : State :=
  let v := mix v 0 4 8 12 m[0] m[1]
  let v := mix v 1 5 9 13 m[2] m[3]
  let v := mix v 2 6 10 14 m[4] m[5]
  let v := mix v 3 7 11 15 m[6] m[7]
  let v := mix v 0 5 10 15 m[8] m[9]
  let v := mix v 1 6 11 12 m[10] m[11]
  let v := mix v 2 7 8 13 m[12] m[13]
  mix v 3 4 9 14 m[14] m[15]

def rounds : Nat → State → State → State
  | 0, v, _ => v
  | n + 1, v, m => rounds n (round v m) (permutation.map fun i => m[i])

structure Node where
  chain : Chain
  block : State
  counter : UInt64
  length : UInt32
  flags : UInt32

def chunkStart : UInt32 := 1
def chunkEnd : UInt32 := 2
def inner : UInt32 := 4
def root : UInt32 := 8

def Node.compress (n : Node) : Chain :=
  let v : State :=
    #v[n.chain[0], n.chain[1], n.chain[2], n.chain[3],
      n.chain[4], n.chain[5], n.chain[6], n.chain[7],
      initial[0], initial[1], initial[2], initial[3],
      n.counter.toUInt32, (n.counter >>> 32).toUInt32, n.length, n.flags]
  let v := rounds 7 v n.block
  Vector.ofFn fun i => v[i.val] ^^^ v[i.val + 8]

def blockWords (block : Bytes) : State :=
  let bytes := block.toArray
  Vector.ofFn fun i =>
    let byte (k : Nat) : UInt32 := (bytes.getD (4 * i.val + k) 0).toUInt32
    byte 0 ||| (byte 1 <<< 8) ||| (byte 2 <<< 16) ||| (byte 3 <<< 24)

/-- The last block of a chunk, after the blocks before it were compressed. -/
def chunkNode (counter : UInt64) : Nat → Chain → UInt32 → Bytes → Node
  | 0, chain, start, bytes =>
      ⟨chain, blockWords bytes, counter, UInt32.ofNat bytes.length, start ||| chunkEnd⟩
  | more + 1, chain, start, bytes =>
      let node : Node := ⟨chain, blockWords (bytes.take 64), counter, 64, start⟩
      chunkNode counter more node.compress 0 (bytes.drop 64)

def chunk (counter : Nat) (bytes : Bytes) : Node :=
  chunkNode (UInt64.ofNat counter) ((bytes.length - 1) / 64) initial chunkStart bytes

def parent (left right : Chain) : Node :=
  ⟨initial, left ++ right, 0, 64, inner⟩

/-- Chunks in the left subtree over `length` bytes, more than one chunk. -/
def leftChunks (length : Nat) : Nat :=
  Nat.pow 2 ((length - 1) / 1024).log2

theorem leftChunks_pos (length : Nat) : 0 < leftChunks length :=
  Nat.two_pow_pos _

theorem leftChunks_lt {length : Nat} (large : 1024 < length) :
    1024 * leftChunks length < length := by
  have low := Nat.log2_self_le (n := (length - 1) / 1024) (by omega)
  rw [leftChunks, Nat.pow_eq]
  omega

def tree (counter : Nat) (bytes : Bytes) : Node :=
  if large : 1024 < bytes.length then
    let chunks := leftChunks bytes.length
    parent (tree counter (bytes.take (1024 * chunks))).compress
      (tree (counter + chunks) (bytes.drop (1024 * chunks))).compress
  else chunk counter bytes
termination_by bytes.length
decreasing_by
  · have := leftChunks_lt large
    simp only [List.length_take]
    omega
  · have := leftChunks_pos bytes.length
    simp only [List.length_drop]
    omega

def wordBytes (w : UInt32) : Vector UInt8 4 :=
  #v[w.toUInt8, (w >>> 8).toUInt8, (w >>> 16).toUInt8, (w >>> 24).toUInt8]

def hash (bytes : Bytes) : Vector UInt8 32 :=
  let node := tree 0 bytes
  let words := { node with flags := node.flags ||| root }.compress
  Vector.ofFn fun i => (wordBytes words[i.val / 4])[i.val % 4]

end VectorMemory.Blake3
