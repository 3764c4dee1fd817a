/-
How a stream gets into the bucket.

`put` compresses its source into a pipe, encrypts what comes out of the pipe and uploads that
in parts.  An error of the source travels down the pipe as the error its reader ends with; the
encryption and the upload each take some errors for the end of the stream.  `state` puts another
pipe before it, closed with the error of `writeState`.
-/
import Mathlib.Algebra.Ring.Nat
import Fern.Backup.State

namespace Fern

/-! ### The bucket's side -/

namespace S3

/-- `partSize`. -/
def partSize : Nat := 16 * 2 ^ 20

/-- Which of an upload's requests succeed. -/
structure Answers where
  created : Bool
  part : Nat → Bool
  completed : Bool

theorem readFull_shorter {src : Source} {n : Nat} (hpos : 0 < n)
    (h : ¬(readFull src n).2.1.length < n) :
    (readFull src n).1.bytes.length < src.bytes.length := by
  have hgot : (readFull src n).2.1 = src.bytes.take n := (takeFull_eq n src.segs).1
  have hrest : (readFull src n).1.bytes = src.bytes.drop n := (takeFull_eq n src.segs).2
  rw [hgot, List.length_take] at h
  rw [hrest, List.length_drop]
  omega

/-- The loop of `Put`, from part `n` on. -/
def putParts (answers : Answers) (r : Source) (n : Nat) (parts : List Bytes) :
    Except IOErr (List Bytes) :=
  let got := readFull r partSize
  if got.2.2.any fun e => !e.ends then .error (got.2.2.getD .eof)
  else if got.2.1.length = 0 ∧ 1 < n then .ok parts
  else if !answers.part n then .error (.other "upload part")
  else if _h : got.2.1.length < partSize then .ok (parts ++ [got.2.1])
  else putParts answers got.1 (n + 1) (parts ++ [got.2.1])
termination_by r.bytes.length
decreasing_by exact readFull_shorter (by decide) _h

/-- `Put`: what the object then holds, or why the upload was given up. -/
def Put (answers : Answers) (r : Source) : Except IOErr Bytes :=
  if !answers.created then .error (.other "start upload")
  else
    match putParts answers r 1 [] with
    | .error e => .error e
    | .ok parts => if !answers.completed then .error (.other "finish upload") else .ok parts.flatten

end S3

/-! ### Compression -/

/-- A compression: what it writes, closed, and its reading back. -/
structure Codec where
  zip : Bytes → Bytes
  unzip : Bytes → Option Bytes
  unzip_zip : ∀ x, unzip (zip x) = some x

/-- The error `io.Copy` ends with: `io.EOF` itself is the end. -/
def copyErr (r : Source) : Option IOErr := if r.err = .eof then none else some r.err

/-- What comes out of a pipe into which `written` was written before it was closed with `err`, in
some pieces. -/
def Pipes (written : Bytes) (err : Option IOErr) (out : Source) : Prop :=
  out.bytes = written ∧ out.err = err.getD .eof

/-! ### Uploads -/

/-- `put` of `r` has stored `object` and returned no error.  The compressor is closed also after
an error of `r`. -/
def PutOK (aead : AEAD) (pre : Bytes) (gzip : Codec) (r : Source) (object : Bytes) : Prop :=
  ∃ pr enc answers, Pipes (gzip.zip r.bytes) (copyErr r) pr ∧
    Yields Sealer.read (Encrypt aead pre pr) enc.bytes enc.err ∧ S3.Put answers enc = .ok object

/-- `state` has stored `object` as the archive of `items` and returned no error. -/
def StateOK (aead : AEAD) (pre : Bytes) (gzip : Codec) (encode : TarHeader → Bytes)
    (items : List TarItem) (object : Bytes) : Prop :=
  ∃ pr, Pipes (writeState encode items).1 (writeState encode items).2 pr ∧
    PutOK aead pre gzip pr object

/-- `openObject` gives `x` of what the bucket returns for `object`. -/
def Reopens (aead : AEAD) (gzip : Codec) (object x : Bytes) : Prop :=
  ∀ stored : Source, stored.bytes = object → stored.err = .eof →
    ∃ plain, Yields Opener.read (Decrypt aead stored) plain .eof ∧ gzip.unzip plain = some x

end Fern
