import ArrayKernel.Number.LittleEndian
import ArrayKernel.Text.Octets

/-!
The hash function BLAKE3, without a key and with the output of 32 bytes.

The input is cut into chunks of 1024 bytes and these into blocks of 64 bytes. The chunks are the
leaves of a binary tree that is as full as can be from the left.
-/

namespace ArrayKernel.Digest.Blake3

open Number

abbrev Words (n : Nat) := Vector UInt32 n

def initial : Words 8 :=
  #v[0x6A09E667, 0xBB67AE85, 0x3C6EF372, 0xA54FF53A, 0x510E527F, 0x9B05688C, 0x1F83D9AB, 0x5BE0CD19]

def chunkStart : UInt32 := 1
def chunkEnd : UInt32 := 2
def parentFlag : UInt32 := 4
def rootFlag : UInt32 := 8

def rotateRight (w : UInt32) (n : UInt32) : UInt32 := (w >>> n) ||| (w <<< (32 - n))

def mix (s : Words 16) (a b c d : Fin 16) (x y : UInt32) : Words 16 :=
  let va := s[a] + s[b] + x
  let vd := rotateRight (s[d] ^^^ va) 16
  let vc := s[c] + vd
  let vb := rotateRight (s[b] ^^^ vc) 12
  let va := va + vb + y
  let vd := rotateRight (vd ^^^ va) 8
  let vc := vc + vd
  let vb := rotateRight (vb ^^^ vc) 7
  (((s.set a va).set b vb).set c vc).set d vd

def round (s m : Words 16) : Words 16 :=
  let s := mix s 0 4 8 12 m[0] m[1]
  let s := mix s 1 5 9 13 m[2] m[3]
  let s := mix s 2 6 10 14 m[4] m[5]
  let s := mix s 3 7 11 15 m[6] m[7]
  let s := mix s 0 5 10 15 m[8] m[9]
  let s := mix s 1 6 11 12 m[10] m[11]
  let s := mix s 2 7 8 13 m[12] m[13]
  mix s 3 4 9 14 m[14] m[15]

def permute (m : Words 16) : Words 16 :=
  #v[m[2], m[6], m[3], m[10], m[7], m[0], m[4], m[13], m[1], m[11], m[12], m[5], m[9], m[14], m[15], m[8]]

def rounds : Nat → Words 16 → Words 16 → Words 16
  | 0, s, _ => s
  | n + 1, s, m => rounds n (round s m) (permute m)

structure Node where
  chaining : Words 8
  block : Words 16
  counter : UInt64
  size : UInt32
  flags : UInt32

namespace Node

def compress (n : Node) : Words 8 :=
  let h := n.chaining
  let s : Words 16 :=
    #v[h[0], h[1], h[2], h[3], h[4], h[5], h[6], h[7], initial[0], initial[1], initial[2], initial[3],
      n.counter.toUInt32, (n.counter >>> 32).toUInt32, n.size, n.flags]
  let s := rounds 7 s n.block
  #v[s[0] ^^^ s[8], s[1] ^^^ s[9], s[2] ^^^ s[10], s[3] ^^^ s[11], s[4] ^^^ s[12], s[5] ^^^ s[13], s[6] ^^^ s[14],
    s[7] ^^^ s[15]]

def parent (left right : Node) : Node :=
  let l := left.compress
  let r := right.compress
  { chaining := initial
    block :=
      #v[l[0], l[1], l[2], l[3], l[4], l[5], l[6], l[7], r[0], r[1], r[2], r[3], r[4], r[5], r[6], r[7]]
    counter := 0, size := 64, flags := parentFlag }

def output (n : Node) : Words 8 := compress { n with counter := 0, flags := n.flags ||| rootFlag }

end Node

def blockWords (bytes : List UInt8) : Words 16 :=
  Vector.ofFn fun i => wordOfBytes ((bytes.drop (4 * i)).take 4)

/-- Cuts a list into pieces of a given length, the last perhaps shorter. The empty list is one empty
piece. -/
def pieces (size : Nat) (bytes : List UInt8) : List (List UInt8) :=
  if _h : bytes.length ≤ size ∨ size = 0 then [bytes]
  else bytes.take size :: pieces size (bytes.drop size)
termination_by bytes.length
decreasing_by simp only [List.length_drop]; omega

/-- The last block of a chunk, with what the blocks before it left. -/
def chunkFrom (counter : UInt64) (chaining : Words 8) (flags : UInt32) : List (List UInt8) → Node
  | [] => { chaining, block := blockWords [], counter, size := 0, flags := flags ||| chunkEnd }
  | [last] =>
    { chaining, block := blockWords last, counter, size := UInt32.ofNat last.length, flags := flags ||| chunkEnd }
  | block :: rest =>
    let n : Node := { chaining, block := blockWords block, counter, size := 64, flags }
    chunkFrom counter n.compress 0 rest

def chunk (index : Nat) (bytes : List UInt8) : Node :=
  chunkFrom (UInt64.ofNat index) initial chunkStart (pieces 64 bytes)

/-- Joins neighbours; one that is left over at the end goes up as it is. -/
def joinPairs : List Node → List Node
  | a :: b :: rest => Node.parent a b :: joinPairs rest
  | rest => rest

theorem length_joinPairs_le : (ns : List Node) → (joinPairs ns).length ≤ ns.length
  | a :: b :: rest => by
    have := length_joinPairs_le rest
    simp only [joinPairs, List.length_cons]
    omega
  | [] | [_] => by simp [joinPairs]

/-- The root of the tree over some leaves, the first of which is given apart. -/
def root (first : Node) (rest : List Node) : Node :=
  match rest with
  | [] => first
  | second :: rest => root (Node.parent first second) (joinPairs rest)
termination_by rest.length
decreasing_by
  have := length_joinPairs_le rest
  simp only [List.length_cons]
  omega

def hash (bytes : List UInt8) : List UInt8 :=
  match (pieces 1024 bytes).mapIdx chunk with
  | [] => []
  | first :: rest => (root first rest).output.toList.flatMap wordBytes

def fingerprint (text : String) : String :=
  String.join (((hash text.toUTF8.toList).take 8).map fun b => Text.hex 2 b.toNat)

end ArrayKernel.Digest.Blake3
