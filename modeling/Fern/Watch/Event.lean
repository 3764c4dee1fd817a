/-
What a read of a fanotify group holds.

The kernel lays events out one after another, each with its length, and in each its info records,
each with its length.  Reading outside the buffer, or a loop that doesn't end, stops the decoder
with `Stop.panics`; an `int` is at least 33 bits wide, so that a `uint32` fits in it.
-/
import Fern.Lib.Word

namespace Fern

namespace Fanotify

/-- Why a decoder stops. -/
inductive Stop where
  /-- An index out of range, or a loop without an end. -/
  | panics
  | err (text : String)
  deriving DecidableEq

/-- `event`. -/
structure Event where
  mask : Nat
  pid : Int
  handle : String := ""
  name : Bytes := []
  deriving DecidableEq

def metadataLen : Nat := 24

def infoHeader : Nat := 4

def fsidLen : Nat := 8

def handleHeader : Nat := 8

/-- `unix.FANOTIFY_METADATA_VERSION`. -/
def metadataVersion : UInt8 := 3

/-- `unix.FAN_EVENT_INFO_TYPE_DFID_NAME`. -/
def typeDfidName : UInt8 := 2

/-- `unix.FAN_EVENT_INFO_TYPE_DFID`. -/
def typeDfid : UInt8 := 3

def errShort : Stop := .err "short fanotify event"

/-! ### Reading bytes -/

/-- `buf[i]`. -/
def index (buf : Bytes) (i : Nat) : Except Stop UInt8 :=
  if h : i < buf.length then .ok buf[i] else .error .panics

/-- `buf[i:j]`, which may not end behind `buf` either. -/
def slice (buf : Bytes) (i j : Nat) : Except Stop Bytes :=
  if i ≤ j ∧ j ≤ buf.length then .ok ((buf.take j).drop i) else .error .panics

/-- `binary.NativeEndian.Uint…(buf[i:])` of `n` bytes. -/
def uint (big : Bool) (n : Nat) (buf : Bytes) (i : Nat) : Except Stop Nat := do
  let bytes ← slice buf i (i + n)
  return Word.read big bytes

/-- `int32` of a `uint32`. -/
def int32 (n : Nat) : Int := (BitVec.ofNat 32 n).toInt

/-! ### Decoding -/

/-- A byte in `%x`. -/
def hexPair (b : UInt8) : List Char := [Nat.digitChar (b.toNat / 16), Nat.digitChar (b.toNat % 16)]

/-- `handleKey`. -/
def handleKey (typ : Int) (handle : Bytes) : String :=
  toString typ ++ ":" ++ String.ofList (handle.flatMap hexPair)

/-- `info`, for a record with a folder's handle. -/
def folderInfo (big : Bool) (typ : UInt8) (body : Bytes) (e : Event) : Except Stop Event :=
  if body.length < fsidLen + handleHeader then .error errShort
  else do
    let body ← slice body fsidLen body.length
    let hLen ← uint big 4 body 0
    let hType ← uint big 4 body 4
    if body.length - handleHeader < hLen then .error errShort
    else do
      let handle ← slice body handleHeader (handleHeader + hLen)
      let e := { e with handle := handleKey (int32 hType) handle }
      if typ = typeDfidName then do
        let name ← slice body (handleHeader + hLen) body.length
        return { e with name := name.takeWhile (· ≠ 0) }
      else return e

/-- `info`: its loop, with a bound on the rounds. -/
def info (big : Bool) : Nat → Event → Bytes → Except Stop Event
  | 0, e, recs => if recs = [] then .ok e else .error .panics
  | rounds + 1, e, recs =>
    if recs = [] then .ok e
    else if recs.length < infoHeader then .error errShort
    else do
      let typ ← index recs 0
      let n ← uint big 2 recs 2
      if n < infoHeader ∨ recs.length < n then .error errShort
      else do
        let body ← slice recs infoHeader n
        let recs ← slice recs n recs.length
        if typ ≠ typeDfidName ∧ typ ≠ typeDfid then info big rounds e recs
        else do
          let e ← folderInfo big typ body e
          info big rounds e recs

/-- `decode`: one event, and what follows it. -/
def decodeOne (big : Bool) (buf : Bytes) : Except Stop (Event × Bytes) :=
  if buf.length < metadataLen then .error errShort
  else do
    let evLen ← uint big 4 buf 0
    let vers ← index buf 4
    let metaLen ← uint big 2 buf 6
    if vers ≠ metadataVersion then
      .error (.err ("fanotify event version " ++ toString vers.toNat ++ ", want " ++
        toString metadataVersion.toNat))
    else if evLen < metadataLen ∨ metaLen < metadataLen ∨ evLen < metaLen ∨ buf.length < evLen then
      .error errShort
    else do
      let mask ← uint big 8 buf 8
      let pid ← uint big 4 buf 20
      let recs ← slice buf metaLen evLen
      let e ← info big recs.length { mask := mask, pid := int32 pid } recs
      let rest ← slice buf evLen buf.length
      return (e, rest)

/-- `decode`: its loop, with a bound on the rounds. -/
def decodeFrom (big : Bool) : Nat → List Event → Bytes → Except Stop (List Event)
  | 0, evs, buf => if buf = [] then .ok evs else .error .panics
  | rounds + 1, evs, buf =>
    if buf = [] then .ok evs
    else do
      let one ← decodeOne big buf
      decodeFrom big rounds (evs ++ [one.1]) one.2

/-- `decode`; with `big` the machine's highest byte comes first. -/
def decode (big : Bool) (buf : Bytes) : Except Stop (List Event) :=
  decodeFrom big buf.length [] buf

/-! ### What the kernel lays out -/

/-- An info record: its header, then its body. -/
def recordBytes (big : Bool) (typ pad : UInt8) (body : Bytes) : Bytes :=
  [typ, pad] ++ Word.write big 2 (infoHeader + body.length) ++ body

/-- A record that isn't of a folder. -/
structure OtherRecord where
  typ : UInt8
  pad : UInt8
  body : Bytes
  other : typ ≠ typeDfidName ∧ typ ≠ typeDfid
  fits : infoHeader + body.length < 2 ^ 16

def OtherRecord.bytes (big : Bool) (r : OtherRecord) : Bytes := recordBytes big r.typ r.pad r.body

/-- The name as a record has it, ended by a NUL. -/
def nameBytes : Option Bytes → Bytes
  | some name => name ++ [0]
  | none => []

/-- A folder's record: DFID_NAME with a name in the folder, else DFID. -/
structure FolderRecord where
  pad : UInt8
  fsid : Bytes
  handleType : BitVec 32
  handle : Bytes
  name : Option Bytes
  padding : Bytes
  fsid_length : fsid.length = fsidLen
  no_nul : ∀ n ∈ name, (0 : UInt8) ∉ n
  fits : infoHeader + (fsidLen + handleHeader + handle.length + (nameBytes name).length +
    padding.length) < 2 ^ 16

namespace FolderRecord

def typ (r : FolderRecord) : UInt8 := if r.name.isSome then typeDfidName else typeDfid

def body (big : Bool) (r : FolderRecord) : Bytes :=
  r.fsid ++ Word.write big 4 r.handle.length ++ Word.write big 4 r.handleType.toNat ++ r.handle ++
    nameBytes r.name ++ r.padding

def bytes (big : Bool) (r : FolderRecord) : Bytes := recordBytes big r.typ r.pad (r.body big)

end FolderRecord

/-- The info records of an event. -/
def infoBytes (big : Bool) (before : List OtherRecord) (folder : Option FolderRecord)
    (after : List OtherRecord) : Bytes :=
  before.flatMap (OtherRecord.bytes big) ++ (folder.toList.flatMap (FolderRecord.bytes big) ++
    after.flatMap (OtherRecord.bytes big))

/-- An event as the kernel has it. -/
structure KernelEvent where
  mask : BitVec 64
  fd : BitVec 32
  pid : BitVec 32
  reserved : UInt8
  /-- What a later kernel adds to the metadata. -/
  extra : Bytes
  before : List OtherRecord
  folder : Option FolderRecord
  after : List OtherRecord
  meta_fits : metadataLen + extra.length < 2 ^ 16
  fits : ∀ big, metadataLen + extra.length + (infoBytes big before folder after).length < 2 ^ 32

namespace KernelEvent

def records (big : Bool) (k : KernelEvent) : Bytes := infoBytes big k.before k.folder k.after

/-- What `event_len` says. -/
def length (big : Bool) (k : KernelEvent) : Nat :=
  metadataLen + k.extra.length + (k.records big).length

def bytes (big : Bool) (k : KernelEvent) : Bytes :=
  Word.write big 4 (k.length big) ++ [metadataVersion, k.reserved] ++
    Word.write big 2 (metadataLen + k.extra.length) ++ Word.write big 8 k.mask.toNat ++
    Word.write big 4 k.fd.toNat ++ Word.write big 4 k.pid.toNat ++ k.extra ++ k.records big

/-- What is to be decoded of it. -/
def event (k : KernelEvent) : Event where
  mask := k.mask.toNat
  pid := k.pid.toInt
  handle := k.folder.elim "" fun r => handleKey r.handleType.toInt r.handle
  name := k.folder.elim [] fun r => r.name.getD []

end KernelEvent

/-- Events as one read returns them. -/
def layout (big : Bool) (events : List KernelEvent) : Bytes := events.flatMap (·.bytes big)

end Fanotify

end Fern
