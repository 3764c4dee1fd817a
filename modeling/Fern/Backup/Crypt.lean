/-
How a backup is encrypted.

A stream is sealed in chunks, each with a nonce of the stream's random prefix, the chunk's
number and whether it is the last.  Both sides read one chunk ahead to know which is the last.
The cipher is a parameter; sealing adds `overhead` bytes.  Readers are as `io.Reader`s are: a source
arrives in pieces of any size, and what is read of `Encrypt` and `Decrypt` is asked for in pieces of
any size.
-/
import Mathlib.Algebra.Ring.Nat
import Fern.Lib.Reader
import Fern.Lib.Cut

namespace Fern

/-! ### Errors -/

/-- An error value. -/
inductive IOErr where
  /-- `io.EOF`. -/
  | eof
  /-- `io.ErrUnexpectedEOF`. -/
  | unexpectedEOF
  /-- `ErrKey`. -/
  | key
  | other (text : String)
  /-- `fmt.Errorf("text: %w", err)`. -/
  | wrapped (text : String) (err : IOErr)
  deriving DecidableEq, Repr

/-- `errors.Is`. -/
def IOErr.is : IOErr → IOErr → Bool
  | .wrapped text err, target => .wrapped text err = target || err.is target
  | err, target => err = target

/-- Whether an error says that there is no more to read. -/
def IOErr.ends (e : IOErr) : Bool := e.is .eof || e.is .unexpectedEOF

/-! ### Reading -/

/-- What is still to arrive, in pieces, and the error after it. -/
structure Source where
  segs : List Bytes
  err : IOErr

/-- All that is still to arrive. -/
def Source.bytes (src : Source) : Bytes := src.segs.flatten

/-- `io.ReadFull`. -/
def readFull (src : Source) (n : Nat) : Source × Bytes × Option IOErr :=
  let got := takeFull n src.segs
  ({ src with segs := got.2 }, got.1,
    if got.1.length = n then none
    else if got.1 ≠ [] ∧ src.err = .eof then some .unexpectedEOF
    else some src.err)

/-- `full`: as much as there is, up to the end. -/
def full (src : Source) (n : Nat) : Source × Bytes × Option IOErr :=
  let got := readFull src n
  (got.1, got.2.1, got.2.2.filter fun e => !e.ends)

/-- A reader in pieces of `size` that says which is the last. -/
structure Chunks where
  r : Source
  size : Nat
  cur : Bytes := []
  /-- `cur` has been read. -/
  read : Bool := false
  /-- `cur` is the last piece. -/
  last : Bool := false

/-- What `next` is left with, and a piece and whether it is the last, or an error. -/
abbrev Chunks.Next := Chunks × Except IOErr (Bytes × Bool)

/-- Hand out `cur`, having looked whether there is more. -/
def Chunks.handOut (c : Chunks) : Chunks.Next :=
  let ahead := full c.r c.size
  match ahead.2.2 with
  | some e => ({ c with r := ahead.1 }, .error e)
  | none =>
    -- A short piece, or nothing after this one: this one is the last.
    if c.cur.length < c.size ∨ ahead.2.1.length = 0 then
      ({ c with r := ahead.1, last := true }, .ok (c.cur, true))
    else ({ c with r := ahead.1, cur := ahead.2.1 }, .ok (c.cur, false))

/-- The next piece. -/
def Chunks.next (c : Chunks) : Chunks.Next :=
  if c.last then (c, .error .eof)
  else if c.read then c.handOut
  else
    let first := full c.r c.size
    match first.2.2 with
    | some e => ({ c with r := first.1, cur := first.2.1 }, .error e)
    | none => { c with r := first.1, cur := first.2.1, read := true }.handOut

/-! ### Sealing -/

/-- The length of a chunk. -/
def chunkSize : Nat := 64 * 1024

/-- A cipher under one key. -/
structure AEAD where
  overhead : Nat
  «seal» : (nonce plain : Bytes) → Bytes
  «open» : (nonce sealed : Bytes) → Option Bytes
  seal_length : ∀ nonce plain, («seal» nonce plain).length = plain.length + overhead
  overhead_pos : 0 < overhead

/-- What the cipher seals, it opens. -/
def AEAD.Correct (aead : AEAD) : Prop :=
  ∀ nonce plain, aead.open nonce (aead.seal nonce plain) = some plain

/-- `n` in four bytes, the highest first. -/
def bigEndian (n : Nat) : Bytes :=
  [n / 2 ^ 24, n / 2 ^ 16, n / 2 ^ 8, n].map (UInt8.ofNat ·)

/-- Chunk `n`'s nonce. -/
def nonceFor (pre : Bytes) (n : Nat) (last : Bool) : Bytes :=
  pre.take 7 ++ bigEndian n ++ [if last then 1 else 0]

/-- `Encrypt`'s reader. -/
structure Sealer where
  aead : AEAD
  pre : Bytes
  chunks : Chunks
  i : Nat := 0
  /-- What is sealed and not yet read. -/
  pending : Bytes

/-- `Encrypt`, with the stream's random `pre`. -/
def Encrypt (aead : AEAD) (pre : Bytes) (r : Source) : Sealer where
  aead := aead
  pre := pre
  chunks := { r := r, size := chunkSize }
  pending := pre

/-- Give at most `n` of what is pending. -/
def Sealer.give (s : Sealer) (n : Nat) : Sealer × Bytes × Option IOErr :=
  ({ s with pending := s.pending.drop n }, s.pending.take n, none)

/-- `sealer.Read`. -/
def Sealer.read : ReadFn Sealer UInt8 IOErr := fun s n =>
  if s.pending.length = 0 then
    match s.chunks.next with
    | (c, .error e) => ({ s with chunks := c }, [], some e)
    | (c, .ok (chunk, last)) =>
      { s with
        chunks := c
        pending := s.aead.seal (nonceFor s.pre s.i last) chunk
        i := (s.i + 1) % 2 ^ 32 }.give n
  else s.give n

/-- `Decrypt`'s reader; before its first read it has no prefix. -/
structure Opener where
  aead : AEAD
  r : Source
  pre : Option Bytes := none
  chunks : Chunks := { r := r, size := chunkSize + aead.overhead }
  i : Nat := 0
  pending : Bytes := []

/-- `Decrypt`. -/
def Decrypt (aead : AEAD) (r : Source) : Opener := { aead := aead, r := r }

def Opener.give (o : Opener) (n : Nat) : Opener × Bytes × Option IOErr :=
  ({ o with pending := o.pending.drop n }, o.pending.take n, none)

/-- `opener.Read` once it has its prefix `pre`. -/
def Opener.readWith (o : Opener) (pre : Bytes) (n : Nat) : Opener × Bytes × Option IOErr :=
  if o.pending.length = 0 then
    match o.chunks.next with
    | (c, .error e) =>
      ({ o with chunks := c }, [], some (if e.is .eof then .eof else e))
    | (c, .ok (chunk, last)) =>
      match o.aead.open (nonceFor pre o.i last) chunk with
      | none => ({ o with chunks := c }, [], some .key)
      | some plain =>
        let o := { o with chunks := c, pending := plain, i := (o.i + 1) % 2 ^ 32 }
        if plain.length = 0 then (o, [], some .eof) else o.give n
  else o.give n

/-- `opener.Read`. -/
def Opener.read : ReadFn Opener UInt8 IOErr := fun o n =>
  match o.pre with
  | some pre => o.readWith pre n
  | none =>
    let got := readFull o.r 7
    match got.2.2 with
    | some _ => ({ o with r := got.1, pre := some got.2.1 }, [], some .key)
    | none =>
      { o with
        r := got.1
        pre := some got.2.1
        chunks := { r := got.1, size := chunkSize + o.aead.overhead } }.readWith got.2.1 n

/-! ### What a stream looks like -/

/-- The chunks of `x`, numbered from `i`, with whether each is the last. -/
def numbered (i : Nat) : List Bytes → List (Nat × Bool × Bytes)
  | [] => []
  | [chunk] => [(i, true, chunk)]
  | chunk :: chunks => (i, false, chunk) :: numbered (i + 1) chunks

/-- The nonces and chunks that make up the stream of `x` with prefix `pre`. -/
def sealedChunks (pre x : Bytes) : List (Bytes × Bytes) :=
  (numbered 0 (piecesOf chunkSize x)).map fun (i, last, chunk) => (nonceFor pre i last, chunk)

/-- The stream of `x` with prefix `pre`. -/
def ciphertext (aead : AEAD) (pre x : Bytes) : Bytes :=
  pre ++ (sealedChunks pre x).flatMap fun (nonce, chunk) => aead.seal nonce chunk

/-- An ideal cipher that has sealed the streams `streams`, each a prefix and what was
encrypted: it opens nothing else. -/
def AEAD.Ideal (aead : AEAD) (streams : List (Bytes × Bytes)) : Prop :=
  ∀ nonce block plain, aead.open nonce block = some plain →
    ∃ s ∈ streams, (nonce, plain) ∈ sealedChunks s.1 s.2 ∧ block = aead.seal nonce plain

/-- Streams that can have been encrypted: each has its own prefix, and fewer bytes than `2^32`
chunks hold. -/
structure Encrypted (streams : List (Bytes × Bytes)) : Prop where
  pre : ∀ s ∈ streams, s.1.length = 7
  size : ∀ s ∈ streams, s.2.length < 2 ^ 32 * chunkSize
  distinct : ∀ s ∈ streams, ∀ s' ∈ streams, s.1 = s'.1 → s = s'

end Fern
