/-
Fanotify events are decoded as the kernel laid them out.

Every index the decoder reads is inside what it has checked, and each round of its loops takes
something off the buffer, so it ends whatever it is given.  What the kernel writes, followed by any
continuation, is decoded to that event and exactly that continuation; where the continuation is a
part of an event, its length doesn't fit what it says.
-/
import Fern.Lib.Text
import Fern.Watch.Event

namespace Fern

open List

variable {i : Nat}

namespace Fanotify

variable {big : Bool} {buf : Bytes}

/-! ### Reading inside a buffer -/

theorem slice_eq {j : Nat} (hij : i ≤ j) (hj : j ≤ buf.length) :
    slice buf i j = .ok ((buf.take j).drop i) := if_pos ⟨hij, hj⟩

theorem ok_bind {α β : Type} (a : α) (f : α → Except Stop β) : (.ok a >>= f) = f a := rfl

theorem slice_part {a b c : Bytes} {j : Nat} (hbuf : buf = a ++ (b ++ c)) (hi : a.length = i)
    (hj : i + b.length = j) : slice buf i j = .ok b := by
  rw [slice_eq (by omega) (by simp [hbuf]; omega)]
  subst hbuf hi hj
  rw [take_length_add_append, drop_left, take_left]

theorem uint_part {a c : Bytes} {n v : Nat} (hbuf : buf = a ++ (Word.write big n v ++ c))
    (hi : a.length = i) (hv : v < 256 ^ n) : uint big n buf i = .ok v := by
  rw [uint, slice_part hbuf hi (by rw [Word.length_write])]
  show Except.ok (Word.read big (Word.write big n v)) = _
  rw [Word.read_write big hv]

theorem index_part {a c : Bytes} {b : UInt8} (hbuf : buf = a ++ (b :: c)) (hi : a.length = i) :
    index buf i = .ok b := by
  subst hbuf hi
  simp [index]

theorem index_append (more : Bytes) (h : i < buf.length) :
    index (buf ++ more) i = index buf i := by
  have h' : i < (buf ++ more).length := by
    rw [length_append]
    omega
  rw [index, index, dif_pos h, dif_pos h', getElem_append_left h]

theorem uint_append {n : Nat} (more : Bytes) (h : i + n ≤ buf.length) :
    uint big n (buf ++ more) i = uint big n buf i := by
  have h' : i + n ≤ (buf ++ more).length := by
    rw [length_append]
    omega
  rw [uint, uint, slice_eq (Nat.le_add_right i n) h, slice_eq (Nat.le_add_right i n) h',
    take_append_of_le_length h]

/-! ### The decoder ends, inside its buffer

`Gives` is the logic for it: one rule for each way of reading, and one for sequences. -/

/-- The decoder doesn't read outside its buffer and ends, and what it returns has `P`. -/
def Gives {α : Type} (P : α → Prop) (x : Except Stop α) : Prop :=
  x ≠ .error .panics ∧ ∀ a, x = .ok a → P a

section Gives

variable {α β : Type} {P : α → Prop} {Q : β → Prop}

theorem Gives.ok {a : α} (h : P a) : Gives P (.ok a) := by
  refine ⟨by simp, ?_⟩
  intro b hb
  injection hb with hb
  rwa [← hb]

theorem Gives.err (text : String) : Gives P (.error (.err text)) := by
  refine ⟨by simp, ?_⟩
  intro b hb
  cases hb

theorem Gives.bind {x : Except Stop α} {f : α → Except Stop β} (hx : Gives P x)
    (hf : ∀ a, P a → Gives Q (f a)) : Gives Q (x >>= f) := by
  cases x with
  | error stop =>
    cases stop with
    | panics => exact absurd rfl hx.1
    | err text => exact Gives.err text
  | ok a => exact hf a (hx.2 a rfl)

theorem Gives.ite {c : Prop} [Decidable c] {x y : Except Stop α} (hx : c → Gives P x)
    (hy : ¬ c → Gives P y) : Gives P (if c then x else y) := by
  by_cases h : c
  · rw [if_pos h]
    exact hx h
  · rw [if_neg h]
    exact hy h

end Gives

theorem gives_index (h : i < buf.length) : Gives (fun _ => True) (index buf i) := by
  rw [index, dif_pos h]
  exact .ok trivial

theorem gives_slice {j : Nat} (hij : i ≤ j) (hj : j ≤ buf.length) :
    Gives (fun b => b.length = j - i) (slice buf i j) := by
  rw [slice_eq hij hj]
  refine .ok ?_
  rw [length_drop, length_take, Nat.min_eq_left hj]

theorem gives_uint {n : Nat} (h : i + n ≤ buf.length) :
    Gives (fun _ => True) (uint big n buf i) :=
  (gives_slice (Nat.le_add_right i n) h).bind fun _ _ => .ok trivial

theorem gives_folderInfo (typ : UInt8) (body : Bytes) (e : Event) :
    Gives (fun _ => True) (folderInfo big typ body e) := by
  have hfsid : fsidLen = 8 := rfl
  have hheader : handleHeader = 8 := rfl
  unfold folderInfo
  refine .ite (fun _ => .err _) fun hlen => ?_
  refine (gives_slice (by omega) (Nat.le_refl _)).bind fun rest hrest => ?_
  refine (gives_uint (by omega)).bind fun hLen _ => (gives_uint (by omega)).bind fun hType _ => ?_
  refine .ite (fun _ => .err _) fun hfits => ?_
  refine (gives_slice (by omega) (by omega)).bind fun handle _ => ?_
  refine .ite (fun _ => ?_) fun _ => .ok trivial
  exact (gives_slice (by omega) (Nat.le_refl _)).bind fun name _ => .ok trivial

theorem gives_info (rounds : Nat) : ∀ (e : Event) (recs : Bytes), recs.length ≤ rounds →
    Gives (fun _ => True) (info big rounds e recs) := by
  have hheader : infoHeader = 4 := rfl
  induction rounds with
  | zero =>
    intro e recs hle
    have hnil : recs = [] := length_eq_zero_iff.1 (by omega)
    rw [info, if_pos hnil]
    exact .ok trivial
  | succ rounds ih =>
    intro e recs hle
    rw [info]
    refine .ite (fun _ => .ok trivial) fun _ => .ite (fun _ => .err _) fun hlen => ?_
    refine (gives_index (by omega)).bind fun typ _ => ?_
    refine (gives_uint (by omega)).bind fun n _ => .ite (fun _ => .err _) fun hn => ?_
    refine (gives_slice (by omega) (by omega)).bind fun body _ => ?_
    refine (gives_slice (by omega) (Nat.le_refl _)).bind fun rest hrest => ?_
    refine .ite (fun _ => ih e rest (by omega)) fun _ => ?_
    exact (gives_folderInfo typ body e).bind fun e' _ => ih e' rest (by omega)

theorem gives_decodeOne (big : Bool) (buf : Bytes) :
    Gives (fun one => one.2.length < buf.length) (decodeOne big buf) := by
  have hmeta : metadataLen = 24 := rfl
  unfold decodeOne
  refine .ite (fun _ => .err _) fun hlen => (gives_uint (by omega)).bind fun evLen _ => ?_
  refine (gives_index (by omega)).bind fun vers _ => (gives_uint (by omega)).bind
    fun metaLen _ => ?_
  refine .ite (fun _ => .err _) fun _ => .ite (fun _ => .err _) fun hfits => ?_
  refine (gives_uint (by omega)).bind fun mask _ => (gives_uint (by omega)).bind fun pid _ => ?_
  refine (gives_slice (by omega) (by omega)).bind fun recs _ => ?_
  refine (gives_info _ _ recs (Nat.le_refl _)).bind fun e _ => ?_
  refine (gives_slice (by omega) (Nat.le_refl _)).bind fun rest hrest => .ok ?_
  show rest.length < buf.length
  omega

theorem gives_decodeFrom (rounds : Nat) : ∀ (evs : List Event) (buf : Bytes),
    buf.length ≤ rounds → Gives (fun _ => True) (decodeFrom big rounds evs buf) := by
  induction rounds with
  | zero =>
    intro evs buf hle
    have hnil : buf = [] := length_eq_zero_iff.1 (by omega)
    rw [decodeFrom, if_pos hnil]
    exact .ok trivial
  | succ rounds ih =>
    intro evs buf hle
    rw [decodeFrom]
    refine .ite (fun _ => .ok trivial) fun _ => (gives_decodeOne big buf).bind fun one hless => ?_
    exact ih _ _ (by omega)

/-! ### Records and events as the kernel lays them out -/

theorem length_recordBytes (typ pad : UInt8) (body : Bytes) :
    (recordBytes big typ pad body).length = infoHeader + body.length := by
  simp [recordBytes, infoHeader]
  omega

theorem info_record {typ pad : UInt8} {body rest : Bytes} {e : Event} (rounds : Nat)
    (hfits : infoHeader + body.length < 2 ^ 16) :
    info big (rounds + 1) e (recordBytes big typ pad body ++ rest) =
      if typ ≠ typeDfidName ∧ typ ≠ typeDfid then info big rounds e rest
      else folderInfo big typ body e >>= fun e => info big rounds e rest := by
  have hbytes : recordBytes big typ pad body ++ rest =
      [typ, pad] ++ (Word.write big 2 (infoHeader + body.length) ++ (body ++ rest)) := by
    simp [recordBytes]
  have hlen : (recordBytes big typ pad body ++ rest).length =
      infoHeader + body.length + rest.length := by
    rw [length_append, length_recordBytes]
  have hheader : infoHeader = 4 := rfl
  have htyp : index (recordBytes big typ pad body ++ rest) 0 = .ok typ := rfl
  have hn : uint big 2 (recordBytes big typ pad body ++ rest) 2 = .ok (infoHeader + body.length) :=
    uint_part hbytes rfl (by omega)
  have hbody : slice (recordBytes big typ pad body ++ rest) infoHeader
      (infoHeader + body.length) = .ok body := by
    rw [← append_assoc] at hbytes
    refine slice_part hbytes ?_ rfl
    rw [length_append, Word.length_write]
    rfl
  have hrest : slice (recordBytes big typ pad body ++ rest) (infoHeader + body.length)
      (recordBytes big typ pad body ++ rest).length = .ok rest := by
    refine slice_part (c := []) (by rw [append_nil]) (length_recordBytes typ pad body) ?_
    rw [hlen]
  generalize recordBytes big typ pad body ++ rest = recs at *
  have hne : recs ≠ [] := by
    intro hnil
    rw [hnil, length_nil] at hlen
    omega
  rw [info, if_neg hne, if_neg (by omega), htyp, ok_bind, hn, ok_bind, if_neg (by omega), hbody,
    ok_bind, hrest, ok_bind]

theorem int32_toNat (w : BitVec 32) : int32 w.toNat = w.toInt := by
  rw [int32, BitVec.ofNat_toNat, BitVec.setWidth_eq]

namespace FolderRecord

variable (r : FolderRecord)

/-- A folder's record behind its filesystem's ID. -/
def fileHandle (big : Bool) (r : FolderRecord) : Bytes :=
  Word.write big 4 r.handle.length ++ (Word.write big 4 r.handleType.toNat ++
    (r.handle ++ (nameBytes r.name ++ r.padding)))

theorem body_eq : r.body big = r.fsid ++ r.fileHandle big := by
  simp [body, fileHandle]

theorem length_fileHandle (big : Bool) : (r.fileHandle big).length =
    handleHeader + r.handle.length + (nameBytes r.name ++ r.padding).length := by
  simp only [fileHandle, length_append, Word.length_write, handleHeader]
  omega

theorem length_body (big : Bool) : (r.body big).length = fsidLen + handleHeader + r.handle.length +
    (nameBytes r.name).length + r.padding.length := by
  rw [body_eq, length_append, length_fileHandle, r.fsid_length, length_append]
  omega

theorem slice_body :
    slice (r.body big) fsidLen (r.body big).length = .ok (r.fileHandle big) := by
  refine slice_part (c := []) (by rw [append_nil, body_eq]) r.fsid_length ?_
  rw [body_eq, length_append, r.fsid_length]

theorem uint_handleLen : uint big 4 (r.fileHandle big) 0 = .ok r.handle.length := by
  have hfits := r.fits
  exact uint_part (a := []) rfl rfl (by omega)

theorem uint_handleType : uint big 4 (r.fileHandle big) 4 = .ok r.handleType.toNat :=
  uint_part rfl (Word.length_write big 4 _) r.handleType.isLt

theorem slice_handle : slice (r.fileHandle big) handleHeader (handleHeader + r.handle.length) =
    .ok r.handle := by
  refine slice_part (a := Word.write big 4 r.handle.length ++ Word.write big 4 r.handleType.toNat)
    (c := nameBytes r.name ++ r.padding) ?_ ?_ rfl
  · rw [fileHandle, append_assoc]
  · rw [length_append, Word.length_write, Word.length_write]
    rfl

theorem slice_name : slice (r.fileHandle big) (handleHeader + r.handle.length)
    (r.fileHandle big).length = .ok (nameBytes r.name ++ r.padding) := by
  refine slice_part (a := Word.write big 4 r.handle.length ++
    (Word.write big 4 r.handleType.toNat ++ r.handle)) (c :=
      []) ?_ ?_ (r.length_fileHandle big).symm
  · simp [fileHandle]
  · simp only [length_append, Word.length_write, handleHeader]
    omega

theorem folderInfo_body (e : Event) : folderInfo big r.typ (r.body big) e =
    .ok { e with handle := handleKey r.handleType.toInt r.handle, name := r.name.getD e.name } := by
  have hlen := r.length_body big
  have hlen' := r.length_fileHandle big
  rw [folderInfo, if_neg (by omega), r.slice_body, ok_bind, r.uint_handleLen, ok_bind,
    r.uint_handleType, ok_bind, if_neg (by omega), r.slice_handle, ok_bind, int32_toNat]
  cases hn : r.name with
  | none =>
    rw [if_neg (by rw [typ, hn]; decide)]
    rfl
  | some name =>
    have hnul : (0 : UInt8) ∉ name := r.no_nul name (by rw [hn]; rfl)
    rw [if_pos (by rw [typ, hn]; rfl), r.slice_name, ok_bind, hn, nameBytes, append_assoc,
      singleton_append, takeWhile_mark hnul]
    rfl

end FolderRecord

/-! ### All of an event's records -/

theorem info_others (e : Event) (rest : Bytes) (others : List OtherRecord) : ∀ rounds,
    (others.flatMap (OtherRecord.bytes big) ++ rest).length ≤ rounds →
      ∃ rounds', rest.length ≤ rounds' ∧
      info big rounds e (others.flatMap (OtherRecord.bytes big) ++ rest) =
        info big rounds' e rest := by
  induction others with
  | nil =>
    intro rounds hle
    exact ⟨rounds, hle, rfl⟩
  | cons r others ih =>
    intro rounds hle
    rw [flatMap_cons, append_assoc] at hle ⊢
    rw [length_append, OtherRecord.bytes, length_recordBytes, infoHeader] at hle
    obtain ⟨rounds, rfl⟩ : ∃ m, rounds = m + 1 := ⟨rounds - 1, by omega⟩
    obtain ⟨rounds', hle', heq⟩ := ih rounds (by omega)
    refine ⟨rounds', hle', ?_⟩
    rw [OtherRecord.bytes, info_record rounds r.fits, if_pos r.other, heq]

theorem info_infoBytes (before after : List OtherRecord) (folder : Option FolderRecord)
    (e : Event) :
    info big (infoBytes big before folder after).length e (infoBytes big before folder after) =
      .ok { e with
        handle := folder.elim e.handle fun r => handleKey r.handleType.toInt r.handle
        name := folder.elim e.name fun r => r.name.getD e.name } := by
  have hend (e : Event) (rounds : Nat) (hle :
    (after.flatMap (OtherRecord.bytes big)).length ≤ rounds) :
      info big rounds e (after.flatMap (OtherRecord.bytes big)) = .ok e := by
    have hle' : (after.flatMap (OtherRecord.bytes big) ++ []).length ≤
      rounds := by rwa [append_nil]
    obtain ⟨rounds', -, heq⟩ := info_others e [] after rounds hle'
    rw [append_nil] at heq
    rw [heq]
    cases rounds' <;> rfl
  obtain ⟨rounds, hle, heq⟩ := info_others e (folder.toList.flatMap (FolderRecord.bytes big) ++
    after.flatMap (OtherRecord.bytes big)) before _ (Nat.le_refl _)
  rw [infoBytes, heq]
  cases folder with
  | none => exact hend e rounds hle
  | some r =>
    rw [Option.toList_some, flatMap_singleton] at hle ⊢
    rw [FolderRecord.bytes, length_append, length_recordBytes, infoHeader] at hle
    obtain ⟨rounds, rfl⟩ : ∃ m, rounds = m + 1 := ⟨rounds - 1, by omega⟩
    have hfits : infoHeader + (r.body big).length < 2 ^ 16 := by
      rw [r.length_body]
      exact r.fits
    have hfolder : ¬ (r.typ ≠ typeDfidName ∧ r.typ ≠ typeDfid) := by
      unfold FolderRecord.typ
      cases r.name with
      | none => decide
      | some name =>
        rw [Option.isSome_some, if_pos rfl]
        decide
    rw [FolderRecord.bytes, info_record rounds hfits, if_neg hfolder, r.folderInfo_body, ok_bind,
      hend _ rounds (by omega)]
    rfl

/-! ### Events -/

namespace KernelEvent

variable (k : KernelEvent) (rest : Bytes)

theorem bytes_append (big : Bool) : k.bytes big ++ rest =
    Word.write big 4 (k.length big) ++ ([metadataVersion, k.reserved] ++
      (Word.write big 2 (metadataLen + k.extra.length) ++ (Word.write big 8 k.mask.toNat ++
        (Word.write big 4 k.fd.toNat ++ (Word.write big 4 k.pid.toNat ++
          (k.extra ++ (k.records big ++ rest))))))) := by
  simp [bytes]

theorem length_bytes : (k.bytes big).length = k.length big := by
  simp only [bytes, length_append, Word.length_write, length_cons,
    length_nil, length,
    metadataLen]

theorem uint_length : uint big 4 (k.bytes big ++ rest) 0 = .ok (k.length big) :=
  uint_part (a := []) (k.bytes_append rest big) rfl (k.fits big)

theorem index_version : index (k.bytes big ++ rest) 4 = .ok metadataVersion :=
  index_part (k.bytes_append rest big) (Word.length_write big 4 _)

theorem uint_metaLen :
    uint big 2 (k.bytes big ++ rest) 6 = .ok (metadataLen + k.extra.length) := by
  have h := k.bytes_append rest big
  rw [← append_assoc] at h
  exact uint_part h (by simp) k.meta_fits

theorem uint_mask : uint big 8 (k.bytes big ++ rest) 8 = .ok k.mask.toNat := by
  have h := k.bytes_append rest big
  rw [← append_assoc, ← append_assoc] at h
  exact uint_part h (by simp) k.mask.isLt

theorem uint_pid : uint big 4 (k.bytes big ++ rest) 20 = .ok k.pid.toNat := by
  have h := k.bytes_append rest big
  rw [← append_assoc, ← append_assoc, ← append_assoc, ← append_assoc] at h
  exact uint_part h (by simp) k.pid.isLt

theorem slice_records :
    slice (k.bytes big ++ rest) (metadataLen + k.extra.length) (k.length big) =
      .ok (k.records big) := by
  have h := k.bytes_append rest big
  rw [← append_assoc, ← append_assoc, ← append_assoc, ← append_assoc,
    ← append_assoc, ← append_assoc] at h
  refine slice_part h ?_ rfl
  simp only [length_append, Word.length_write, length_cons, length_nil, metadataLen]

theorem slice_rest : slice (k.bytes big ++ rest) (k.length big) (k.bytes big ++ rest).length =
    .ok rest := by
  refine slice_part (c := []) (by rw [append_nil]) k.length_bytes ?_
  rw [length_append, k.length_bytes]

/-- **One event**, followed by anything, is decoded to what it is and what follows. -/
theorem decodeOne_bytes : decodeOne big (k.bytes big ++ rest) = .ok (k.event, rest) := by
  have hlen : (k.bytes big ++ rest).length = k.length big + rest.length := by
    rw [length_append, k.length_bytes]
  have hdef : k.length big = metadataLen + k.extra.length + (k.records big).length := rfl
  rw [decodeOne, if_neg (by omega), k.uint_length, ok_bind, k.index_version, ok_bind,
    k.uint_metaLen, ok_bind, if_neg (by simp), if_neg (by omega), k.uint_mask, ok_bind, k.uint_pid,
    ok_bind, k.slice_records, ok_bind, records, info_infoBytes, ok_bind, k.slice_rest, ok_bind,
    int32_toNat]
  rfl

theorem decodeOne_part {part more : Bytes} (h : k.bytes big = part ++ more) (hmore : more ≠ []) :
    decodeOne big part = .error errShort := by
  have hlen : part.length < k.length big := by
    rw [← k.length_bytes, h, length_append]
    have := length_pos_iff.2 hmore
    omega
  have hmeta : metadataLen = 24 := rfl
  have hwhole := append_nil (k.bytes big)
  rw [h] at hwhole
  by_cases hshort : part.length < metadataLen
  · rw [decodeOne, if_pos hshort]
  · -- the metadata is all there, and says how long the event is
    have hevLen : uint big 4 (k.bytes big ++ []) 0 = _ := k.uint_length []
    have hvers : index (k.bytes big ++ []) 4 = _ := k.index_version []
    have hmetaLen : uint big 2 (k.bytes big ++ []) 6 = _ := k.uint_metaLen []
    rw [h, hwhole, uint_append more (by omega)] at hevLen hmetaLen
    rw [h, hwhole, index_append more (by omega)] at hvers
    rw [decodeOne, if_neg hshort, hevLen, ok_bind, hvers, ok_bind, hmetaLen, ok_bind,
      if_neg (by simp), if_pos (by omega)]

end KernelEvent

/-! ### A whole read -/

theorem layout_cons (k : KernelEvent) (events : List KernelEvent) :
    layout big (k :: events) = k.bytes big ++ layout big events := flatMap_cons

theorem decodeFrom_bytes (k : KernelEvent) (rest : Bytes) (rounds : Nat) (evs : List Event) :
    decodeFrom big (rounds + 1) evs (k.bytes big ++ rest) =
      decodeFrom big rounds (evs ++ [k.event]) rest := by
  have hne : k.bytes big ++ rest ≠ [] := by
    intro hnil
    have hlen := congrArg List.length hnil
    rw [length_append, k.length_bytes, KernelEvent.length, metadataLen,
      length_nil] at hlen
    omega
  rw [decodeFrom, if_neg hne, k.decodeOne_bytes, ok_bind]

theorem exists_rounds (k : KernelEvent) {rest : Bytes} {rounds : Nat}
    (h : (k.bytes big ++ rest).length ≤ rounds) : ∃ m, rounds = m + 1 ∧ rest.length ≤ m := by
  rw [length_append, k.length_bytes, KernelEvent.length, metadataLen] at h
  exact ⟨rounds - 1, by omega, by omega⟩

theorem decodeFrom_layout (events : List KernelEvent) : ∀ (rounds : Nat) (evs : List Event),
    (layout big events).length ≤ rounds →
    decodeFrom big rounds evs (layout big events) = .ok (evs ++ events.map KernelEvent.event) := by
  induction events with
  | nil =>
    intro rounds evs _
    rw [map_nil, append_nil]
    cases rounds <;> rfl
  | cons k events ih =>
    intro rounds evs hle
    rw [layout_cons] at hle ⊢
    obtain ⟨rounds, rfl, hle'⟩ := exists_rounds k hle
    rw [decodeFrom_bytes, ih rounds _ hle', append_assoc]
    rfl

/-- A read cut inside an event is an error, whatever whole events come before. -/
theorem decodeFrom_cut (events : List KernelEvent) : ∀ (n rounds : Nat) (evs : List Event),
    n ≤ (layout big events).length → (∀ i, n ≠ (layout big (events.take i)).length) →
    ((layout big events).take n).length ≤ rounds →
    decodeFrom big rounds evs ((layout big events).take n) = .error errShort := by
  induction events with
  | nil =>
    intro n rounds evs hn hcut _
    exact absurd (Nat.le_zero.1 hn) (hcut 0)
  | cons k events ih =>
    intro n rounds evs hn hcut hle
    rw [layout_cons] at hn hle ⊢
    by_cases hinside : n < (k.bytes big).length
    · have hpos : n ≠ 0 := hcut 0
      rw [take_append_of_le_length (Nat.le_of_lt hinside)] at hle ⊢
      have hlen : ((k.bytes big).take n).length = n := length_take_of_le (Nat.le_of_lt hinside)
      obtain ⟨rounds, rfl⟩ : ∃ m, rounds = m + 1 := ⟨rounds - 1, by omega⟩
      have hne : (k.bytes big).take n ≠ [] := by
        rw [← length_pos_iff]
        omega
      have hmore : (k.bytes big).drop n ≠ [] := by
        rw [← length_pos_iff, length_drop]
        omega
      rw [decodeFrom, if_neg hne, k.decodeOne_part (take_append_drop n _).symm hmore]
      rfl
    · -- the event is whole, and the cut is behind it
      have hsplit : (k.bytes big ++ layout big events).take n =
          k.bytes big ++ (layout big events).take (n - (k.bytes big).length) := by
        rw [take_append, take_of_length_le (Nat.le_of_not_lt hinside)]
      rw [hsplit] at hle ⊢
      obtain ⟨rounds, rfl, hle'⟩ := exists_rounds k hle
      rw [decodeFrom_bytes]
      refine ih _ rounds _ ?_ ?_ hle'
      · rw [length_append] at hn
        omega
      · intro i hi
        refine hcut (i + 1) ?_
        rw [take_succ_cons, layout_cons, length_append]
        omega

/-! ### Handles -/

theorem hexPair_injective : Function.Injective hexPair := by
  intro b b' h
  have hdigit : ∀ i < 16, ∀ j < 16, Nat.digitChar i = Nat.digitChar j → i = j := by decide
  have hb := b.toNat_lt
  have hb' := b'.toNat_lt
  obtain ⟨hhigh, hlow⟩ := List.cons.inj h
  have hhigh := hdigit _ (by omega) _ (by omega) hhigh
  have hlow := hdigit _ (by omega) _ (by omega) (List.cons.inj hlow).1
  exact UInt8.toNat_inj.1 (by omega)

theorem flatMap_hexPair_inj {handle handle' : Bytes}
    (h : handle.flatMap hexPair = handle'.flatMap hexPair) : handle = handle' := by
  induction handle generalizing handle' with
  | nil =>
    cases handle' with
    | nil => rfl
    | cons b' handle' => cases h
  | cons b handle ih =>
    cases handle' with
    | nil => cases h
    | cons b' handle' =>
      rw [flatMap_cons, flatMap_cons] at h
      obtain ⟨hpair, hrest⟩ := append_inj h rfl
      rw [hexPair_injective hpair, ih hrest]

theorem toList_toString (n : Int) : (toString n).toList =
    if 0 ≤ n then Nat.toDigits 10 n.toNat else '-' :: Nat.toDigits 10 n.natAbs := by
  cases n with
  | ofNat m =>
    show (String.ofList (Nat.toDigits 10 m)).toList = _
    simp
  | negSucc m =>
    show ("-" ++ String.ofList (Nat.toDigits 10 (m + 1))).toList = _
    rw [if_neg (by omega)]
    simp

theorem not_mem_toDigits {c : Char} (hc : c.isDigit = false) (n : Nat) : c ∉ Nat.toDigits 10 n := by
  intro h
  rw [Nat.isDigit_of_mem_toDigits (by decide) (by decide) h] at hc
  cases hc

theorem colon_not_mem_toString (n : Int) : ':' ∉ (toString n).toList := by
  rw [toList_toString]
  have hdigits := not_mem_toDigits (c := ':') rfl
  by_cases h : 0 ≤ n
  · rw [if_pos h]
    exact hdigits _
  · rw [if_neg h, mem_cons, not_or]
    exact ⟨by decide, hdigits _⟩

theorem toDigits_inj {m n : Nat} (h : Nat.toDigits 10 m = Nat.toDigits 10 n) : m = n := by
  have := congrArg (Nat.ofDigitChars 10 · 0) h
  simpa using this

theorem toString_inj {m n : Int} (h : (toString m).toList = (toString n).toList) : m = n := by
  have hsign (k : Nat) (l : List Char) : Nat.toDigits 10 k ≠ '-' :: l := by
    intro heq
    exact not_mem_toDigits (c := '-') rfl k (heq ▸ mem_cons_self)
  rw [toList_toString, toList_toString] at h
  by_cases hm : 0 ≤ m <;> by_cases hn : 0 ≤ n
  · rw [if_pos hm, if_pos hn] at h
    have := toDigits_inj h
    omega
  · rw [if_pos hm, if_neg hn] at h
    exact absurd h (hsign _ _)
  · rw [if_neg hm, if_pos hn] at h
    exact absurd h.symm (hsign _ _)
  · rw [if_neg hm, if_neg hn] at h
    have := toDigits_inj (List.cons.inj h).2
    omega

theorem handleKey_eq_iff {typ typ' : Int} {handle handle' : Bytes} :
    handleKey typ handle = handleKey typ' handle' ↔ typ = typ' ∧ handle = handle' := by
  constructor
  · intro h
    have hlist := congrArg String.toList h
    simp only [handleKey, String.toList_append, String.toList_ofList, append_assoc] at hlist
    obtain ⟨htyp, hhandle⟩ := append_mark_inj (colon_not_mem_toString typ)
      (colon_not_mem_toString typ') hlist
    exact ⟨toString_inj htyp, flatMap_hexPair_inj hhandle⟩
  · rintro ⟨rfl, rfl⟩
    rfl

/-! ### Faithful decoding -/

/-- **Fanotify reads are decoded faithfully**, in either order of bytes: no buffer makes the decoder
read outside it or go on without an end; what the kernel lays out gives its events in order; their
handle keys are equal just for equal handles; and a cut that isn't between events is an error. -/
theorem decode_faithful (big : Bool) :
    (∀ buf, decode big buf ≠ .error .panics) ∧
    (∀ events, decode big (layout big events) = .ok (events.map KernelEvent.event)) ∧
    (∀ typ typ' handle handle', handleKey typ handle = handleKey typ' handle' ↔
      typ = typ' ∧ handle = handle') ∧
    ∀ events, ∀ n ≤ (layout big events).length,
      (∀ i, n ≠ (layout big (events.take i)).length) →
      ∃ text, decode big ((layout big events).take n) = .error (.err text) := by
  refine ⟨?_, ?_, fun _ _ _ _ => handleKey_eq_iff, ?_⟩
  · intro buf
    exact (gives_decodeFrom buf.length [] buf (Nat.le_refl _)).1
  · intro events
    exact decodeFrom_layout events _ [] (Nat.le_refl _)
  · intro events n hn hcut
    exact ⟨_, decodeFrom_cut events n _ [] hn hcut (Nat.le_refl _)⟩

/-- "a" made in the folder with handle 09, by process 7, with a record of another type behind. -/
def made : KernelEvent where
  mask := 0x100
  fd := 0xFFFFFFFF
  pid := 7
  reserved := 0
  extra := []
  before := []
  folder := some
    { pad := 0, fsid := [1, 2, 3, 4, 5, 6, 7, 8], handleType := 1, handle := [9], name := some [97],
      padding := [0], fsid_length := rfl, no_nul := by decide, fits := by decide }
  after := [{ typ := 4, pad := 0, body := [0, 0, 0, 0], other := by decide, fits := by decide }]
  meta_fits := by decide
  fits := by decide

theorem decode_faithful_made :
    decode false (layout false [made, made]) =
      .ok [⟨256, 7, "1:09", [97]⟩, ⟨256, 7, "1:09", [97]⟩] ∧
    ∃ text, decode false ((layout false [made, made]).take 30) = .error (.err text) := by
  refine ⟨(decode_faithful false).2.1 [made, made], ?_⟩
  refine (decode_faithful false).2.2.2 [made, made] 30 (by decide) ?_
  intro i
  have hlen : (made.bytes false).length = 56 := by decide
  cases i with
  | zero => decide
  | succ i =>
    rw [take_succ_cons, layout_cons, length_append, hlen]
    omega

end Fanotify

end Fern
