import TriShare.Text.Hex
/-!
The BLAKE3 hash of a byte string, 32 bytes long. The input is cut into chunks of 1024 bytes, a chunk
into blocks of 64; the chunks are the leaves of a binary tree whose left subtrees are complete,
which is the tree that joining neighbours level by level gives, a last one without a neighbour
moving up.
-/

namespace TriShare.Blake3

/-- Sixteen words: the state of the compression, or a block of the input. -/
abbrev Words := Vector UInt32 16

/-- A chaining value. -/
abbrev Chain := Vector UInt32 8

/-- The initial chaining value. -/
def initial : Chain :=
  #v[0x6A09E667, 0xBB67AE85, 0x3C6EF372, 0xA54FF53A,
    0x510E527F, 0x9B05688C, 0x1F83D9AB, 0x5BE0CD19]

def chunkStart : UInt32 := 1
def chunkEnd : UInt32 := 2
def parent : UInt32 := 4
def root : UInt32 := 8

def rotateRight (x : UInt32) (n : UInt32) : UInt32 := (x >>> n) ||| (x <<< (32 - n))

/-- Mixes two words of the message into a column or a diagonal of the state. -/
def mix (v : Words) (a b c d : Fin 16) (x y : UInt32) : Words :=
  let va := v[a] + v[b] + x
  let vd := rotateRight (v[d] ^^^ va) 16
  let vc := v[c] + vd
  let vb := rotateRight (v[b] ^^^ vc) 12
  let va := va + vb + y
  let vd := rotateRight (vd ^^^ va) 8
  let vc := vc + vd
  let vb := rotateRight (vb ^^^ vc) 7
  (((v.set a va).set b vb).set c vc).set d vd

/-- Mixes the columns, then the diagonals. -/
def round (v m : Words) : Words :=
  let v := mix v 0 4 8 12 m[0] m[1]
  let v := mix v 1 5 9 13 m[2] m[3]
  let v := mix v 2 6 10 14 m[4] m[5]
  let v := mix v 3 7 11 15 m[6] m[7]
  let v := mix v 0 5 10 15 m[8] m[9]
  let v := mix v 1 6 11 12 m[10] m[11]
  let v := mix v 2 7 8 13 m[12] m[13]
  mix v 3 4 9 14 m[14] m[15]

/-- The order of the message words in the next round. -/
def permute (m : Words) : Words :=
  #v[m[2], m[6], m[3], m[10], m[7], m[0], m[4], m[13], m[1], m[11], m[12], m[5], m[9], m[14], m[15],
    m[8]]

/-- A number of rounds, with the message permuted between them. -/
def rounds : Nat → Words → Words → Words
  | 0, v, _ => v
  | n + 1, v, m => rounds n (round v m) (permute m)

/-- A block that is still to be compressed, with all that goes into its compression. -/
structure Node where
  chain : Chain
  block : Words
  counter : Nat
  length : Nat
  flags : UInt32

/-- The first half of the compression's output. -/
def Node.compress (n : Node) (flags : UInt32) : Chain :=
  let h := n.chain
  let v : Words :=
    #v[h[0], h[1], h[2], h[3], h[4], h[5], h[6], h[7],
      initial[0], initial[1], initial[2], initial[3],
      UInt32.ofNat n.counter, UInt32.ofNat (n.counter >>> 32), UInt32.ofNat n.length,
      n.flags ||| flags]
  let v := rounds 7 v n.block
  #v[v[0] ^^^ v[8], v[1] ^^^ v[9], v[2] ^^^ v[10], v[3] ^^^ v[11], v[4] ^^^ v[12], v[5] ^^^ v[13],
    v[6] ^^^ v[14], v[7] ^^^ v[15]]

/-- The words of a byte string, four bytes each and the least significant first, zeros filling
the end. -/
def words (n : Nat) (bytes : List UInt8) : Vector UInt32 n :=
  let bytes := bytes.toArray
  Vector.ofFn fun i =>
    let byte (k : Nat) : UInt32 := (bytes.getD (4 * i.val + k) 0).toUInt32
    byte 0 ||| byte 1 <<< 8 ||| byte 2 <<< 16 ||| byte 3 <<< 24

/-- The bytes of a chaining value. -/
def bytesOf (h : Chain) : List UInt8 :=
  h.toList.flatMap fun (w : UInt32) =>
    [w.toUInt8, (w >>> 8).toUInt8, (w >>> 16).toUInt8, (w >>> 24).toUInt8]

/-- Cuts a list into pieces of `size`, the last of which may be shorter. The empty list has one
empty piece. -/
def pieces {α : Type} (size : Nat) (xs : List α) : List (List α) :=
  if _h : 0 < size ∧ size < xs.length then xs.take size :: pieces size (xs.drop size) else [xs]
termination_by xs.length
decreasing_by simp; omega

/-- Takes the blocks of a chunk in turn; the last one is left to be compressed. -/
def chunkFrom (counter : Nat) (chain : Chain) (flags : UInt32) : List (List UInt8) → Node
  | [] => ⟨chain, words 16 [], counter, 0, flags ||| chunkEnd⟩
  | [block] => ⟨chain, words 16 block, counter, block.length, flags ||| chunkEnd⟩
  | block :: rest =>
    chunkFrom counter (Node.compress ⟨chain, words 16 block, counter, 64, flags⟩ 0) 0 rest

/-- The node of the chunk with a number. -/
def chunk (counter : Nat) (bytes : List UInt8) : Node :=
  chunkFrom counter initial chunkStart (pieces 64 bytes)

/-- The node above two others. -/
def join (left right : Node) : Node :=
  let l := left.compress 0
  let r := right.compress 0
  ⟨initial, l ++ r, 0, 64, parent⟩

/-- Joins neighbours in a row of nodes; a last node without a neighbour stays. -/
def joinPairs : Node → List Node → Node × List Node
  | node, [] => (node, [])
  | node, [next] => (join node next, [])
  | node, next :: third :: rest =>
    let (first, others) := joinPairs third rest
    (join node next, first :: others)

theorem length_joinPairs : ∀ (node : Node) (nodes : List Node),
    (joinPairs node nodes).2.length = nodes.length / 2
  | _, [] => rfl
  | _, [_] => by simp [joinPairs]
  | _, _ :: third :: rest => by simp [joinPairs, length_joinPairs third rest]; omega

/-- The node at the top of the tree over a row of nodes. -/
def top (node : Node) (nodes : List Node) : Node :=
  if _h : nodes = [] then node
  else
    let row := joinPairs node nodes
    top row.1 row.2
termination_by nodes.length
decreasing_by
  rw [length_joinPairs]
  have := List.length_pos_iff.2 _h
  omega

/-- The node at the top of the tree over all chunks. -/
def tree (bytes : List UInt8) : Node :=
  match (pieces 1024 bytes).zipIdx.map fun (piece, i) => chunk i piece with
  | [] => chunk 0 bytes
  | node :: nodes => top node nodes

/-- The hash of a byte string. -/
def hash (bytes : List UInt8) : List UInt8 := bytesOf ((tree bytes).compress root)

end TriShare.Blake3
