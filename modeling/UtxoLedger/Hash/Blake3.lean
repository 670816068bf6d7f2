/-
UtxoLedger.Hash.Blake3 — the BLAKE3 hash, plain and keyed, with 32 bytes of output.

The input is cut into chunks of 1024 bytes and each chunk into blocks of 64.
`compress` mixes one block into a chaining value in seven rounds. The blocks of
a chunk are chained one after another, and the last compression of a chunk is
held back as a `Node`, because how it is finished depends on where it stands:
inside the tree it gives its chaining value to a parent, at the root it gives
the output and sets the root flag. Parents join in pairs, an odd last node
moving up (`PairFold`).

Words are held in structures and not in arrays, so a round is a handful of word
operations and every definition here unfolds in the logic.
-/
import UtxoLedger.Bytes.Basic
import UtxoLedger.PairFold

namespace UtxoLedger.Blake3

/-! ## Words -/

/-- Eight words: a key or a chaining value. -/
structure Chain where
  (h0 h1 h2 h3 h4 h5 h6 h7 : UInt32)

/-- Sixteen words: a message block or the state of a compression. -/
structure Lanes where
  (w0 w1 w2 w3 w4 w5 w6 w7 w8 w9 w10 w11 w12 w13 w14 w15 : UInt32)

/-- The word in the first four bytes; missing bytes count as zero. -/
def wordOf (bs : Bytes) : UInt32 := UInt32.ofNat (LittleEndian.decode (bs.take 4))

/-- The words of a block, padded with zeros to 64 bytes. -/
def Lanes.ofBytes (bs : Bytes) : Lanes :=
  ⟨wordOf bs, wordOf (bs.drop 4), wordOf (bs.drop 8), wordOf (bs.drop 12),
   wordOf (bs.drop 16), wordOf (bs.drop 20), wordOf (bs.drop 24), wordOf (bs.drop 28),
   wordOf (bs.drop 32), wordOf (bs.drop 36), wordOf (bs.drop 40), wordOf (bs.drop 44),
   wordOf (bs.drop 48), wordOf (bs.drop 52), wordOf (bs.drop 56), wordOf (bs.drop 60)⟩

def Chain.ofBytes (bs : Bytes) : Chain :=
  ⟨wordOf bs, wordOf (bs.drop 4), wordOf (bs.drop 8), wordOf (bs.drop 12),
   wordOf (bs.drop 16), wordOf (bs.drop 20), wordOf (bs.drop 24), wordOf (bs.drop 28)⟩

def Chain.words (c : Chain) : List UInt32 := [c.h0, c.h1, c.h2, c.h3, c.h4, c.h5, c.h6, c.h7]

def Chain.toBytes (c : Chain) : Bytes := c.words.flatMap fun w => LittleEndian.encode 4 w.toNat

theorem Chain.length_toBytes (c : Chain) : c.toBytes.length = 32 := rfl

/-- The block of a parent: the chaining values of its two children. -/
def Lanes.ofChains (l r : Chain) : Lanes :=
  ⟨l.h0, l.h1, l.h2, l.h3, l.h4, l.h5, l.h6, l.h7, r.h0, r.h1, r.h2, r.h3, r.h4, r.h5, r.h6, r.h7⟩

/-! ## Compression -/

/-- The initial chaining value of the plain hash. -/
def initial : Chain :=
  ⟨0x6a09e667, 0xbb67ae85, 0x3c6ef372, 0xa54ff53a, 0x510e527f, 0x9b05688c, 0x1f83d9ab, 0x5be0cd19⟩

/-- The four words that one mixing step changes. -/
structure Quad where
  (a b c d : UInt32)

def rotateRight (w count : UInt32) : UInt32 := (w >>> count) ||| (w <<< (32 - count))

/-- Mixes two message words into four words of the state. -/
def mix (a b c d x y : UInt32) : Quad :=
  let a := a + b + x
  let d := rotateRight (d ^^^ a) 16
  let c := c + d
  let b := rotateRight (b ^^^ c) 12
  let a := a + b + y
  let d := rotateRight (d ^^^ a) 8
  let c := c + d
  let b := rotateRight (b ^^^ c) 7
  ⟨a, b, c, d⟩

/-- One round: the four columns of the state, then its four diagonals. -/
def round (s m : Lanes) : Lanes :=
  let p := mix s.w0 s.w4 s.w8 s.w12 m.w0 m.w1
  let q := mix s.w1 s.w5 s.w9 s.w13 m.w2 m.w3
  let r := mix s.w2 s.w6 s.w10 s.w14 m.w4 m.w5
  let t := mix s.w3 s.w7 s.w11 s.w15 m.w6 m.w7
  let e := mix p.a q.b r.c t.d m.w8 m.w9
  let f := mix q.a r.b t.c p.d m.w10 m.w11
  let g := mix r.a t.b p.c q.d m.w12 m.w13
  let h := mix t.a p.b q.c r.d m.w14 m.w15
  ⟨e.a, f.a, g.a, h.a, h.b, e.b, f.b, g.b, g.c, h.c, e.c, f.c, f.d, g.d, h.d, e.d⟩

/-- The order in which the next round takes the message words. -/
def permute (m : Lanes) : Lanes :=
  ⟨m.w2, m.w6, m.w3, m.w10, m.w7, m.w0, m.w4, m.w13,
   m.w1, m.w11, m.w12, m.w5, m.w9, m.w14, m.w15, m.w8⟩

def rounds : (count : Nat) → (state block : Lanes) → Lanes
  | 0, s, _ => s
  | count + 1, s, m => rounds count (round s m) (permute m)

/-- A compression that has not run yet. -/
structure Node where
  chain : Chain
  block : Lanes
  /-- The number of the chunk; zero in a parent. -/
  counter : UInt64
  /-- How many bytes of the block are input. -/
  length : UInt32
  flags : UInt32

def Node.compress (n : Node) : Chain :=
  let c := n.chain
  -- the chaining value, half of the initial one, and what is said of the block
  let s := rounds 7
    ⟨c.h0, c.h1, c.h2, c.h3, c.h4, c.h5, c.h6, c.h7,
     initial.h0, initial.h1, initial.h2, initial.h3,
     n.counter.toUInt32, (n.counter >>> 32).toUInt32, n.length, n.flags⟩
    n.block
  ⟨s.w0 ^^^ s.w8, s.w1 ^^^ s.w9, s.w2 ^^^ s.w10, s.w3 ^^^ s.w11,
   s.w4 ^^^ s.w12, s.w5 ^^^ s.w13, s.w6 ^^^ s.w14, s.w7 ^^^ s.w15⟩

/-! ## Chunks, parents, root -/

def chunkStart : UInt32 := 1
def chunkEnd : UInt32 := 2
def parentFlag : UInt32 := 4
def rootFlag : UInt32 := 8
def keyedFlag : UInt32 := 16

/-- What the whole tree shares: the key words and the flags of the mode. -/
structure Mode where
  key : Chain
  flags : UInt32

/-- Chains the blocks of a chunk and holds back the last compression. `start`
is the flag of the first block and zero after it. -/
def chunkNode (mode : Mode) (counter : UInt64) :
    (start : UInt32) → (chain : Chain) → List Bytes → Node
  | start, chain, [] =>
    ⟨chain, Lanes.ofBytes [], counter, 0, mode.flags ||| start ||| chunkEnd⟩
  | start, chain, [last] =>
    ⟨chain, Lanes.ofBytes last, counter, UInt32.ofNat last.length,
     mode.flags ||| start ||| chunkEnd⟩
  | start, chain, block :: next :: rest =>
    let n : Node := ⟨chain, Lanes.ofBytes block, counter, 64, mode.flags ||| start⟩
    chunkNode mode counter 0 n.compress (next :: rest)

def parent (mode : Mode) (left right : Node) : Node :=
  ⟨mode.key, Lanes.ofChains left.compress right.compress, 0, 64, mode.flags ||| parentFlag⟩

/-- The nodes of the chunks, numbered from `counter`. -/
def chunkNodes (mode : Mode) : (counter : UInt64) → List Bytes → List Node
  | _, [] => []
  | counter, chunk :: rest =>
    chunkNode mode counter chunkStart mode.key (chunk.pieces 63) ::
      chunkNodes mode (counter + 1) rest

/-- The 32 bytes of output. The empty input is one empty chunk. -/
def digestWith (mode : Mode) (input : Bytes) : Chain :=
  let empty := chunkNode mode 0 chunkStart mode.key []
  let root := (PairFold.fold (parent mode) (chunkNodes mode 0 (input.pieces 1023))).getD empty
  -- only the last compression of all bears the flag of the root
  { root with flags := root.flags ||| rootFlag }.compress

def digest (input : Bytes) : Chain := digestWith ⟨initial, 0⟩ input

/-- The keyed hash; the key is 32 bytes. -/
def keyedDigest (key input : Bytes) : Chain := digestWith ⟨Chain.ofBytes key, keyedFlag⟩ input

end UtxoLedger.Blake3
