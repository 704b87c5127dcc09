import CodeSurvey.Digest.Basic

/-!
# BLAKE3

The message is cut into chunks of 1024 bytes, each a chain of blocks of 64 bytes. Neighbours are
joined in pairs, level by level, until one node is left.
-/
namespace CodeSurvey.Digest.Blake3

abbrev Words := Vector UInt32 16

abbrev Chain := Vector UInt32 8

def initial : Chain := #v[0x6a09e667, 0xbb67ae85, 0x3c6ef372, 0xa54ff53a,
  0x510e527f, 0x9b05688c, 0x1f83d9ab, 0x5be0cd19]

namespace Flag

def chunkStart : UInt32 := 1
def chunkEnd : UInt32 := 2
def parent : UInt32 := 4
def root : UInt32 := 8

end Flag

/-- Mixes two words of the message into four words of the state. -/
def mix (v : Words) (a b c d : Fin 16) (x y : UInt32) : Words :=
  let v := v.set a (v[a] + v[b] + x)
  let v := v.set d (rotateRight (v[d] ^^^ v[a]) 16)
  let v := v.set c (v[c] + v[d])
  let v := v.set b (rotateRight (v[b] ^^^ v[c]) 12)
  let v := v.set a (v[a] + v[b] + y)
  let v := v.set d (rotateRight (v[d] ^^^ v[a]) 8)
  let v := v.set c (v[c] + v[d])
  v.set b (rotateRight (v[b] ^^^ v[c]) 7)

/-- The four columns, then the four diagonals. -/
def round (v m : Words) : Words :=
  let v := mix v 0 4 8 12 m[0] m[1]
  let v := mix v 1 5 9 13 m[2] m[3]
  let v := mix v 2 6 10 14 m[4] m[5]
  let v := mix v 3 7 11 15 m[6] m[7]
  let v := mix v 0 5 10 15 m[8] m[9]
  let v := mix v 1 6 11 12 m[10] m[11]
  let v := mix v 2 7 8 13 m[12] m[13]
  mix v 3 4 9 14 m[14] m[15]

def permutation : Vector (Fin 16) 16 := #v[2, 6, 3, 10, 7, 0, 4, 13, 1, 11, 12, 5, 9, 14, 15, 8]

def permute (m : Words) : Words :=
  permutation.map fun i => m[i]

/-- Rounds with the message permuted from one to the next. -/
def rounds : Nat → Words → Words → Words
  | 0, v, _ => v
  | n + 1, v, m => rounds n (round v m) (permute m)

/-- A compression that is still to be done. -/
structure Node where
  chain : Chain
  block : Words
  counter : Nat
  /-- The bytes of the block that belong to the message. -/
  size : Nat
  flags : UInt32

namespace Node

def compress (n : Node) : Words :=
  let h := n.chain
  rounds 7 #v[h[0], h[1], h[2], h[3], h[4], h[5], h[6], h[7],
    0x6a09e667, 0xbb67ae85, 0x3c6ef372, 0xa54ff53a,
    n.counter.toUInt32, (n.counter / UInt32.size).toUInt32, n.size.toUInt32, n.flags] n.block

/-- The eight words that the node gives to the next one. -/
def output (n : Node) : Chain :=
  let v := n.compress
  Vector.ofFn fun i : Fin 8 => v[i.castLE (by decide : 8 ≤ 16)] ^^^ v[i.natAdd 8]

/-- The node at the top of two others. -/
def join (left right : Node) : Node :=
  { chain := initial, block := left.output ++ right.output, counter := 0, size := 64,
    flags := Flag.parent }

end Node

/-- The words of a block, filled up with zeros. -/
def blockWords (bytes : List UInt8) : Words :=
  let words := (groups 4 bytes).map fun bytes => (littleEndian bytes).toUInt32
  Vector.ofFn fun i => words.getD i 0

/-- The last node of a chain of blocks. -/
def chainBlocks (counter : Nat) (chain : Chain) (flags : UInt32) : List (List UInt8) → Node
  | [] => ⟨chain, blockWords [], counter, 0, flags ||| Flag.chunkEnd⟩
  | [block] => ⟨chain, blockWords block, counter, block.length, flags ||| Flag.chunkEnd⟩
  | block :: rest =>
    chainBlocks counter (Node.output ⟨chain, blockWords block, counter, block.length, flags⟩) 0 rest

def chunkNode (chunk : List UInt8) (counter : Nat) : Node :=
  chainBlocks counter initial Flag.chunkStart (groups 64 chunk)

/-- Joins neighbours; one that is left over stays as it is. -/
def joinPairs : List Node → List Node
  | left :: right :: rest => left.join right :: joinPairs rest
  | nodes => nodes

/-- The node of a whole message. Every pass over two or more nodes makes them fewer, so as many
passes as there are chunks leave one. -/
def rootNode (message : List UInt8) : Node :=
  let chunks := groups 1024 message
  let nodes := chunks.zipIdx.map fun (chunk, i) => chunkNode chunk i
  ((Nat.repeat joinPairs nodes.length nodes).head?).getD (chunkNode [] 0)

def digest (message : List UInt8) : List UInt8 :=
  let n := rootNode message
  let words := Node.output { n with counter := 0, flags := n.flags ||| Flag.root }
  words.toList.flatMap fun w => littleEndianBytes 4 w.toNat

end CodeSurvey.Digest.Blake3
