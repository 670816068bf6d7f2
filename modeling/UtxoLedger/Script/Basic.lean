/-
UtxoLedger.Script.Basic — scripts and their bytes.

A script is a sequence of chunks, and its bytes are theirs one after another;
there is no count in front. Decoding reads chunks until nothing is left.
`decodeFrom` holds the chunks read so far in reverse, which keeps it a loop for
scripts of any length, and it ends because a chunk takes at least one byte
(`Chunk.takes_read`).
-/
import UtxoLedger.Script.Chunk

namespace UtxoLedger

/-- A spending condition, or what satisfies one. -/
structure Script where
  chunks : List Chunk
  deriving DecidableEq

namespace Script

def empty : Script := ⟨[]⟩

instance : Inhabited Script := ⟨empty⟩

def encode (script : Script) : Bytes := script.chunks.flatMap Chunk.encode

/-- Reads the remaining chunks behind those in `done`, which are held in
reverse. -/
def decodeFrom (done : List Chunk) (bs : Bytes) : Except Error (List Chunk) :=
  if bs.isEmpty then .ok done.reverse
  else
    match h : Chunk.read bs with
    | .error error => .error error
    | .ok (chunk, rest) =>
      have : rest.length < bs.length := Chunk.takes_read bs chunk rest h
      decodeFrom (chunk :: done) rest
termination_by bs.length

def decode (bs : Bytes) : Except Error Script := Script.mk <$> decodeFrom [] bs

/-- A script as a field of a larger value: its bytes behind their length. -/
def encodeField (script : Script) : Bytes := VarBytes.encode script.encode

def readField : Reader Script := do
  let bs ← VarBytes.read
  match decode bs with
  | .ok script => pure script
  | .error error => throw error

/-- Whether every chunk only puts a constant or data on the stack. -/
def isPushOnly (script : Script) : Bool :=
  script.chunks.all fun chunk =>
    match chunk.opcode? with
    | some code => code.isPush
    | none => false

end Script

end UtxoLedger
