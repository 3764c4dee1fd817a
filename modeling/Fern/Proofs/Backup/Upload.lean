/-
Uploads that report success.

The upload ends well only on an error that it takes for the end of the stream, and then holds all
that it read.  The encryption ends with such an error if its own source does, and otherwise with
the error of its source.  So an error gets lost on the way exactly if it looks like the end of a
stream without being `io.EOF`.
-/
import Fern.Backup.Upload
import Fern.Proofs.Backup.Crypt
import Fern.Proofs.Backup.State

namespace Fern

open List

/-! ### The upload -/

theorem readFull_short {src : Source} {n : Nat} (h : src.bytes.length < n) :
    ∃ e, (readFull src n).2.2 = some e ∧ e.ends = src.err.ends := by
  have hlen : (takeFull n src.segs).1.length = src.bytes.length := by
    rw [(takeFull_eq n src.segs).1, length_take]
    exact Nat.min_eq_right (Nat.le_of_lt h)
  have hne : (takeFull n src.segs).1.length ≠ n := by omega
  simp only [readFull, if_neg hne]
  split
  · rename_i heof
    exact ⟨_, rfl, by rw [heof.2]; rfl⟩
  · exact ⟨_, rfl, rfl⟩

namespace S3

theorem partSize_pos : 0 < partSize := by decide

/-- An upload's parts are all its source had, and it stopped at the end of the source. -/
theorem putParts_ok {answers : Answers} {r : Source} {n : Nat} {parts parts' : List Bytes}
    (h : putParts answers r n parts = .ok parts') :
    r.err.ends = true ∧ parts'.flatten = parts.flatten ++ r.bytes := by
  fun_induction putParts answers r n parts with
  | case1 r n parts got hfail => simp at h
  | case2 r n parts got hgood hnone =>
    obtain ⟨hgot, -, -⟩ := readFull_eq r partSize
    have hbytes : r.bytes = [] := by
      have hlen := hnone.1
      rw [hgot, length_take] at hlen
      have := partSize_pos
      exact length_eq_zero_iff.mp (by omega)
    obtain ⟨e, he, hends⟩ := @readFull_short r _ (by rw [hbytes]; exact partSize_pos)
    simp only [got, he, Option.any_some, Bool.not_eq_true', Bool.not_eq_false] at hgood
    rw [Except.ok.injEq] at h
    exact ⟨by rw [← hends]; exact hgood, by rw [← h, hbytes, append_nil]⟩
  | case3 r n parts got hgood hmore hpart => simp at h
  | case4 r n parts got hgood hmore hpart hshort =>
    obtain ⟨hgot, -, -⟩ := readFull_eq r partSize
    have hlen : r.bytes.length < partSize := by
      rw [hgot, length_take] at hshort
      omega
    obtain ⟨e, he, hends⟩ := readFull_short hlen
    simp only [got, he, Option.any_some, Bool.not_eq_true', Bool.not_eq_false] at hgood
    rw [Except.ok.injEq] at h
    refine ⟨by rw [← hends]; exact hgood, ?_⟩
    rw [← h, flatten_append, flatten_singleton, hgot,
      take_of_length_le (Nat.le_of_lt hlen)]
  | case5 r n parts got hgood hmore hpart hfull ih =>
    obtain ⟨hgot, hrest, herr⟩ := readFull_eq r partSize
    obtain ⟨hends, hparts⟩ := ih h
    refine ⟨herr ▸ hends, ?_⟩
    rw [hparts, flatten_append, flatten_singleton, hgot, hrest, append_assoc,
      take_append_drop]

theorem putParts_ends {answers : Answers} (hall : ∀ n, answers.part n = true) {r : Source}
    (hends : r.err.ends = true) (n : Nat) (parts : List Bytes) :
    ∃ parts', putParts answers r n parts = .ok parts' := by
  -- no read fails with anything but the end
  have hgood : ∀ r : Source, r.err.ends = true →
      ((readFull r partSize).2.2.any fun e => !e.ends) = false := by
    intro r hends
    by_cases hlen : r.bytes.length < partSize
    · obtain ⟨e, he, heq⟩ := readFull_short hlen
      rw [he, Option.any_some, heq, hends]
      rfl
    · have hnone := (readFull_err_eq_none r partSize).mpr (by omega)
      rw [hnone]
      rfl
  fun_induction putParts answers r n parts with
  | case1 r n parts got hfail => simp [got, hgood r hends] at hfail
  | case2 r n parts got _ hnone => exact ⟨_, rfl⟩
  | case3 r n parts got _ hmore hpart => simp [hall n] at hpart
  | case4 r n parts got _ hmore hpart hshort => exact ⟨_, rfl⟩
  | case5 r n parts got _ hmore hpart hfull ih => exact ih ((readFull_eq r partSize).2.2 ▸ hends)

theorem put_ok {answers : Answers} {r : Source} {object : Bytes}
    (h : Put answers r = .ok object) : r.err.ends = true ∧ object = r.bytes := by
  simp only [Put] at h
  split at h
  · simp at h
  · split at h
    · simp at h
    · rename_i parts hparts
      obtain ⟨hends, hflat⟩ := putParts_ok hparts
      split at h
      · simp at h
      · rw [Except.ok.injEq] at h
        exact ⟨hends, by rw [← h, hflat]; rfl⟩

theorem put_ends {r : Source} (hends : r.err.ends = true) :
    ∃ object, Put ⟨true, fun _ => true, true⟩ r = .ok object := by
  obtain ⟨parts, hparts⟩ := @putParts_ends ⟨true, fun _ => true, true⟩ (fun _ => rfl) r hends 1 []
  exact ⟨parts.flatten, by simp [Put, hparts]⟩

end S3

/-! ### Encrypting a source that fails -/

theorem full_fails {src : Source} (hends : src.err.ends = false) (n : Nat) :
    (full src n).2.1 = src.bytes.take n ∧ (full src n).1.bytes = src.bytes.drop n ∧
      (full src n).1.err = src.err ∧
      (full src n).2.2 = if n ≤ src.bytes.length then none else some src.err := by
  obtain ⟨hgot, hrest, herr⟩ := readFull_eq src n
  refine ⟨hgot, hrest, herr, ?_⟩
  have hne : src.err ≠ .eof := by
    intro heof
    rw [heof] at hends
    exact absurd hends (by decide)
  by_cases hlen : n ≤ src.bytes.length
  · rw [if_pos hlen, full, (readFull_err_eq_none src n).mpr hlen]
    rfl
  · have hshort : (takeFull n src.segs).1.length ≠ n := by
      rw [(takeFull_eq n src.segs).1, length_take]
      simp only [Source.bytes] at hlen
      omega
    simp [full, readFull, hshort, hne, hlen, hends]

/-- A reader of pieces whose source will fail with `e`, with `rem` before that. -/
structure Chunks.Failing (e : IOErr) (c : Chunks) (rem : Bytes) : Prop where
  last : c.last = false
  err : c.r.err = e
  ends : e.ends = false
  cur : c.read = true → c.cur = rem.take c.size ∧ c.r.bytes = rem.drop c.size ∧
    c.size ≤ rem.length
  fresh : c.read = false → c.r.bytes = rem

namespace Chunks

variable {c : Chunks} {rem : Bytes} {e : IOErr}

theorem Failing.handOut (h : c.Failing e rem) (hpos : 0 < c.size) (hread : c.read = true) :
    if 2 * c.size ≤ rem.length then
      ∃ c', c.handOut = (c', .ok (rem.take c.size, false)) ∧ c'.Failing e (rem.drop c.size) ∧
        c'.size = c.size
    else ∃ c', c.handOut = (c', .error e) := by
  obtain ⟨hcur, hr, hlen⟩ := h.cur hread
  obtain ⟨hgot, hrest, herr, hout⟩ := full_fails (h.err ▸ h.ends) c.size
  rw [hr, length_drop, h.err] at hout
  split
  · rename_i htwo
    rw [if_pos (by omega)] at hout
    have hfull : ¬(c.cur.length < c.size ∨ (full c.r c.size).2.1.length = 0) := by
      rw [hcur, hgot, hr, length_take, length_take, length_drop]
      omega
    refine ⟨{ c with r := (full c.r c.size).1, cur := (full c.r c.size).2.1 }, ?_,
      ⟨h.last, herr.trans h.err, h.ends, ?_, ?_⟩, rfl⟩
    · rw [← hcur]
      simp only [Chunks.handOut, hout, hfull, if_false]
    · intro _
      refine ⟨by rw [hgot, hr], by rw [hrest, hr], ?_⟩
      rw [length_drop]
      dsimp only
      omega
    · intro hno
      simp [hread] at hno
  · rename_i htwo
    rw [if_neg (by omega)] at hout
    exact ⟨{ c with r := (full c.r c.size).1 }, by simp only [Chunks.handOut, hout]⟩

theorem Failing.next (h : c.Failing e rem) (hpos : 0 < c.size) :
    if 2 * c.size ≤ rem.length then
      ∃ c', c.next = (c', .ok (rem.take c.size, false)) ∧ c'.Failing e (rem.drop c.size) ∧
        c'.size = c.size
    else ∃ c', c.next = (c', .error e) := by
  cases hread : c.read with
  | true =>
    have hnext : c.next = c.handOut := by simp [Chunks.next, h.last, hread]
    rw [hnext]
    exact h.handOut hpos hread
  | false =>
    have hr := h.fresh hread
    obtain ⟨hgot, hrest, herr, hout⟩ := full_fails (h.err ▸ h.ends) c.size
    rw [hr] at hgot hrest hout
    by_cases hlen : c.size ≤ rem.length
    · -- the first piece is whole: it is as if it had been read before
      rw [if_pos hlen] at hout
      generalize hc : { c with
        r := (full c.r c.size).1
        cur := (full c.r c.size).2.1
        read := true } = c₁
      have hnext : c.next = c₁.handOut := by simp [Chunks.next, h.last, hread, hout, ← hc]
      have hsize : c₁.size = c.size := by rw [← hc]
      have h₁ : c₁.Failing e rem := by
        rw [← hc]
        exact ⟨h.last, herr.trans h.err, h.ends, fun _ => ⟨hgot, hrest, hlen⟩, (by simp)⟩
      have hhand := h₁.handOut (hsize ▸ hpos) (by rw [← hc])
      rwa [hsize, ← hnext] at hhand
    · rw [if_neg hlen, h.err] at hout
      rw [if_neg (by omega)]
      exact ⟨{ c with r := (full c.r c.size).1, cur := (full c.r c.size).2.1 },
        by simp [Chunks.next, h.last, hread, hout]⟩

end Chunks

/-- What a sealer, at chunk `i`, gives of `rem` before its source fails: the chunks after which a
whole one came. -/
def sealedBefore (aead : AEAD) (pre : Bytes) (i : Nat) (rem : Bytes) : Bytes :=
  if _h : 2 * chunkSize ≤ rem.length then
    aead.seal (nonceFor pre i false) (rem.take chunkSize) ++
      sealedBefore aead pre ((i + 1) % 2 ^ 32) (rem.drop chunkSize)
  else []
termination_by rem.length
decreasing_by
  have := chunkSize_pos
  rw [length_drop]
  omega

/-- A sealer that is to give `data` before it fails with `e`. -/
def Sealer.Fails (e : IOErr) (s : Sealer) (data : Bytes) : Prop :=
  s.chunks.size = chunkSize ∧ ∃ rem, s.chunks.Failing e rem ∧
    data = s.pending ++ sealedBefore s.aead s.pre s.i rem

theorem Sealer.Fails.give {e : IOErr} {s : Sealer} {data : Bytes} (h : s.Fails e data) (n : Nat)
    (hheld : s.pending ≠ []) :
    ∃ s' got rest, s.give n = (s', got, none) ∧ data = got ++ rest ∧ s'.Fails e rest ∧
      (0 < n → got ≠ []) := by
  obtain ⟨hsize, rem, hfail, hdata⟩ := h
  refine ⟨_, _, s.pending.drop n ++ _, rfl, hdata.trans (split_at_request _ _ n),
    ⟨hsize, rem, hfail, rfl⟩, ?_⟩
  intro hn hnil
  rw [take_eq_nil_iff] at hnil
  rcases hnil with rfl | hnil
  · exact absurd hn (Nat.lt_irrefl 0)
  · exact hheld hnil

theorem Sealer.Fails.read {e : IOErr} {s : Sealer} {data : Bytes} (h : s.Fails e data) (n : Nat) :
    (∃ s' got rest, s.read n = (s', got, none) ∧ data = got ++ rest ∧ Sealer.Fails e s' rest ∧
      (0 < n → got ≠ [])) ∨
    ∃ s', s.read n = (s', [], some e) ∧ data = [] := by
  by_cases hheld : s.pending = []
  · obtain ⟨hsize, rem, hfail, hdata⟩ := h
    have hnext := hfail.next (by rw [hsize]; exact chunkSize_pos)
    rw [hsize] at hnext
    rw [hheld, nil_append, sealedBefore] at hdata
    split at hnext
    · rename_i htwo
      obtain ⟨c', hnext, hfail', hsize'⟩ := hnext
      left
      have hread : s.read n = ({ s with
          chunks := c'
          pending := s.aead.seal (nonceFor s.pre s.i false) (rem.take chunkSize)
          i := (s.i + 1) % 2 ^ 32 } : Sealer).give n := by
        simp [Sealer.read, hheld, hnext]
      rw [hread]
      rw [dif_pos htwo] at hdata
      exact Sealer.Fails.give ⟨hsize', _, hfail', hdata⟩ n (seal_ne_nil _ _ _)
    · rename_i htwo
      obtain ⟨c', hnext⟩ := hnext
      rw [dif_neg htwo] at hdata
      exact .inr ⟨{ s with chunks := c' }, by simp [Sealer.read, hheld, hnext], hdata⟩
  · left
    have hread : s.read n = s.give n := by
      simp [Sealer.read, length_eq_zero_iff, hheld]
    rw [hread]
    exact h.give n hheld

/-- **`Encrypt` passes an error of its source on**, unless it takes it for the end. -/
theorem encrypt_fails (aead : AEAD) (pre : Bytes) (r : Source) (hends : r.err.ends = false) :
    Yields Sealer.read (Encrypt aead pre r) (pre ++ sealedBefore aead pre 0 r.bytes) r.err :=
  Yields.of_invariant (Sealer.Fails r.err) (fun _ _ n h => h.read n)
    ⟨rfl, r.bytes, ⟨rfl, rfl, hends, nofun, fun _ => rfl⟩, rfl⟩

/-! ### Whole uploads -/

section Whole

variable {aead : AEAD} {pre : Bytes} {gzip : Codec} {r : Source} {object : Bytes}

/-- What `put` stored opens to what came of its source, which ended with something like the end. -/
theorem putOK_spec (hcorrect : aead.Correct) (hpre : pre.length = 7)
    (h : PutOK aead pre gzip r object) :
    r.err.ends = true ∧ Reopens aead gzip object r.bytes := by
  obtain ⟨pr, enc, answers, ⟨hbytes, herr⟩, henc, hput⟩ := h
  obtain ⟨hends, rfl⟩ := S3.put_ok hput
  have hprerr : pr.err = r.err := by
    rw [herr, copyErr]
    split
    · rename_i heof
      rw [heof]
      rfl
    · rfl
  cases hr : r.err.ends with
  | false =>
    obtain ⟨-, he⟩ := henc.unique (encrypt_fails aead pre pr (hprerr ▸ hr))
    rw [he, hprerr, hr] at hends
    exact absurd hends (by decide)
  | true =>
    refine ⟨rfl, ?_⟩
    obtain ⟨hobject, -⟩ := henc.unique (encrypt_yields aead pre pr (hprerr ▸ hr))
    intro stored hstored heof
    refine ⟨gzip.zip r.bytes, ?_, gzip.unzip_zip _⟩
    have hopen := decrypt_yields aead stored (by rw [heof]; rfl)
    rwa [hstored, hobject, decrypted_ciphertext hcorrect hpre, hbytes] at hopen

/-- A source that ends with something like the end is stored, if the bucket takes it. -/
theorem putOK_of_ends (aead : AEAD) (pre : Bytes) (gzip : Codec) (hends : r.err.ends = true) :
    ∃ object, PutOK aead pre gzip r object := by
  have hpr : (⟨[gzip.zip r.bytes], (copyErr r).getD .eof⟩ : Source).err.ends = true := by
    simp only [copyErr]
    split
    · rfl
    · exact hends
  obtain ⟨object, hput⟩ := @S3.put_ends ⟨[ciphertext aead pre (gzip.zip r.bytes)], .eof⟩ rfl
  refine ⟨object, ⟨[gzip.zip r.bytes], (copyErr r).getD .eof⟩, _, _, ⟨?_, rfl⟩, ?_, hput⟩
  · simp [Source.bytes]
  · have henc := encrypt_yields aead pre _ hpr
    simpa [Source.bytes] using henc

/-- **An upload that reports success is whole exactly if no error of its producer looks like the
end of a stream.**  For `put`, whatever stored object a successful call leaves opens to all that
came of its source, and the source ended well, iff the source doesn't end with an error other than
`io.EOF` that is taken for the end.  For `state`, it opens to the complete archive, iff
`writeState` doesn't end with such an error. -/
theorem upload_whole_iff (hcorrect : aead.Correct) (hpre : pre.length = 7) (gzip : Codec)
    (encode : TarHeader → Bytes) :
    (∀ r : Source,
      (∀ object, PutOK aead pre gzip r object → r.err = .eof ∧ Reopens aead gzip object r.bytes) ↔
        (r.err ≠ .eof → r.err.ends = false)) ∧
    (∀ items : List TarItem,
      (∀ object, StateOK aead pre gzip encode items object →
        (writeState encode items).2 = none ∧
          Reopens aead gzip object (archiveOf encode items)) ↔
        ∀ e, (writeState encode items).2 = some e → e.ends = false) := by
  constructor
  · intro r
    constructor
    · intro hwhole hne
      by_contra hends
      rw [Bool.not_eq_false] at hends
      obtain ⟨object, hput⟩ := putOK_of_ends aead pre gzip hends
      exact hne (hwhole object hput).1
    · intro hcond object hput
      obtain ⟨hends, hopen⟩ := putOK_spec hcorrect hpre hput
      refine ⟨?_, hopen⟩
      by_contra hne
      rw [hcond hne] at hends
      exact absurd hends (by decide)
  · intro items
    constructor
    · intro hwhole e he
      by_contra hends
      rw [Bool.not_eq_false] at hends
      -- the pipe hands the error on, and `put` takes it for the end
      obtain ⟨object, hput⟩ := @putOK_of_ends ⟨[(writeState encode items).1], e⟩ aead pre gzip hends
      have hstate : StateOK aead pre gzip encode items object :=
        ⟨_, ⟨by simp [Source.bytes], by rw [he]; rfl⟩, hput⟩
      have hnone := (hwhole object hstate).1
      rw [he] at hnone
      simp at hnone
    · rintro hcond object ⟨pr, ⟨hbytes, herr⟩, hput⟩
      obtain ⟨hends, hopen⟩ := putOK_spec hcorrect hpre hput
      cases hres : (writeState encode items).2 with
      | some e =>
        rw [herr, hres, Option.getD_some, hcond e hres] at hends
        exact absurd hends (by decide)
      | none =>
        rw [hbytes, (writeState_ok hres).1] at hopen
        exact ⟨rfl, hopen⟩

end Whole

/-! ### A file that shrinks -/

/-- A file of three bytes of which two are left when it is copied. -/
def shrunkItem : TarItem where
  name := ["userdata", "log"]
  kind := .regular [1, 2, 3]
  size := 3
  content := [1, 2]
  limited := true

/-- No compression. -/
def plainCodec : Codec := ⟨id, some, fun _ => rfl⟩

private theorem markAEAD_correct : markAEAD.Correct := fun nonce plain => by simp [markAEAD]

/-- A file shrinks while it is archived: `writeState` fails with `io.EOF` half-way, and `state`
stores the half archive and returns no error. -/
theorem shrunk_file_truncates_archive :
    writeState (fun _ => [7]) [shrunkItem] = ([7, 1, 2], some .eof) ∧
      ∃ object, StateOK markAEAD zeros plainCodec (fun _ => [7]) [shrunkItem] object ∧
        Reopens markAEAD plainCodec object [7, 1, 2] := by
  refine ⟨by rfl, ?_⟩
  obtain ⟨object, hput⟩ := @putOK_of_ends ⟨[[7, 1, 2]], .eof⟩ markAEAD zeros plainCodec rfl
  exact ⟨object, ⟨_, ⟨rfl, rfl⟩, hput⟩, (putOK_spec markAEAD_correct rfl hput).2⟩

/-- The statement for a cipher that hides nothing and no compression. -/
theorem upload_whole_iff_plain :
    (∀ object, PutOK markAEAD zeros plainCodec ⟨[[1], [2]], .eof⟩ object →
      Reopens markAEAD plainCodec object [1, 2]) ∧
    ¬∀ object, StateOK markAEAD zeros plainCodec (fun _ => [7]) [shrunkItem] object →
      (writeState (fun _ => [7]) [shrunkItem]).2 = none ∧
        Reopens markAEAD plainCodec object (archiveOf (fun _ => [7]) [shrunkItem]) := by
  have hiff := upload_whole_iff markAEAD_correct (show zeros.length = 7 from rfl) plainCodec
    (fun _ => [7])
  refine ⟨?_, ?_⟩
  · intro object hput
    exact ((hiff.1 ⟨[[1], [2]], .eof⟩).mpr (fun hne => absurd rfl hne) object hput).2
  · intro hall
    exact absurd ((hiff.2 [shrunkItem]).mp hall .eof rfl) (by decide)

end Fern
