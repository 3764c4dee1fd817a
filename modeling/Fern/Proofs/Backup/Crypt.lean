/-
Encrypted backups come back whole, and can't be changed unnoticed.

Both sides are readers that fetch a chunk when they have given out the one before.  What each
of them yields is worked out once, as a function of all the bytes its source brings: the
slices in which these arrive and in which the result is asked for don't matter.  The two laws
are then about those functions.
-/
import Mathlib.Data.List.Nodup
import Fern.Backup.Crypt

namespace Fern

open List

variable {chunks : List Bytes} {pre : Bytes} {i : Nat}

/-! ### Chunks

A chunk is known to be the last only when the next read brings nothing, so the reader is one chunk
ahead: `Holds` says what is still to be handed out, in both of its states. -/

theorem readFull_eq (src : Source) (n : Nat) :
    (readFull src n).2.1 = src.bytes.take n ∧ (readFull src n).1.bytes = src.bytes.drop n ∧
      (readFull src n).1.err = src.err :=
  ⟨(takeFull_eq n src.segs).1, (takeFull_eq n src.segs).2, rfl⟩

theorem readFull_err_eq_none (src : Source) (n : Nat) :
    (readFull src n).2.2 = none ↔ n ≤ src.bytes.length := by
  have hlen : (takeFull n src.segs).1.length = min n src.bytes.length := by
    rw [(takeFull_eq n src.segs).1, length_take]
    rfl
  unfold readFull
  dsimp only
  rw [hlen]
  by_cases hn : n ≤ src.bytes.length
  · simp [hn]
  · have : min n src.bytes.length ≠ n := by omega
    simp only [this, if_false, hn, iff_false]
    split <;> simp

theorem full_eq {src : Source} (hends : src.err.ends = true) (n : Nat) :
    (full src n).2.1 = src.bytes.take n ∧ (full src n).1.bytes = src.bytes.drop n ∧
      (full src n).1.err = src.err ∧ (full src n).2.2 = none := by
  obtain ⟨hgot, hrest, herr⟩ := readFull_eq src n
  refine ⟨hgot, hrest, herr, ?_⟩
  rw [full, Option.filter_eq_none_iff]
  -- The error is the source's, or the one that says its end came too early.
  intro e he
  have : e.ends = true := by
    unfold readFull at he
    dsimp only at he
    split at he
    · exact absurd he (by simp)
    · split at he
      · cases he
        rfl
      · cases he
        exact hends
  simp [this]

/-- A reader of pieces before its last, with `rem` still to hand out. -/
structure Chunks.Holds (c : Chunks) (rem : Bytes) : Prop where
  pos : 0 < c.size
  last : c.last = false
  ends : c.r.err.ends = true
  cur : c.read = true → c.cur = rem.take c.size ∧ c.r.bytes = rem.drop c.size
  fresh : c.read = false → c.r.bytes = rem

namespace Chunks

variable {c : Chunks} {rem : Bytes}

theorem handOut_last (h : c.Holds rem) (hread : c.read = true) (hlen : rem.length ≤ c.size) :
    ∃ c', c.handOut = (c', .ok (rem, true)) ∧ c'.last = true := by
  obtain ⟨hcur, hr⟩ := h.cur hread
  obtain ⟨hgot, -, -, hnone⟩ := full_eq h.ends c.size
  have hempty : (full c.r c.size).2.1.length = 0 := by
    rw [hgot, hr, drop_of_length_le hlen, take_nil, length_nil]
  rw [take_of_length_le hlen] at hcur
  have hout : c.handOut =
      ({ c with r := (full c.r c.size).1, last := true }, .ok (c.cur, true)) := by
    simp only [handOut, hnone, hempty, or_true, if_true]
  exact ⟨_, hout.trans (by rw [hcur]), rfl⟩

theorem handOut_more (h : c.Holds rem) (hread : c.read = true) (hlen : c.size < rem.length) :
    ∃ c', c.handOut = (c', .ok (rem.take c.size, false)) ∧ c'.Holds (rem.drop c.size) ∧
      c'.size = c.size := by
  obtain ⟨hcur, hr⟩ := h.cur hread
  obtain ⟨hgot, hrest, herr, hnone⟩ := full_eq h.ends c.size
  have hfull : ¬ (c.cur.length < c.size ∨ (full c.r c.size).2.1.length = 0) := by
    have hpos := h.pos
    rw [hcur, hgot, hr, length_take, length_take, length_drop]
    omega
  have hout : c.handOut =
      ({ c with r := (full c.r c.size).1, cur := (full c.r c.size).2.1 }, .ok (c.cur, false)) := by
    simp only [handOut, hnone, hfull, if_false]
  refine ⟨{ c with r := (full c.r c.size).1, cur := (full c.r c.size).2.1 },
    hout.trans (by rw [hcur]), ⟨h.pos, h.last, ?_, ?_, ?_⟩, rfl⟩
  · exact (congrArg IOErr.ends herr).trans h.ends
  · intro _
    exact ⟨hgot.trans (by rw [hr]), hrest.trans (by rw [hr])⟩
  · intro hno
    simp [hread] at hno

theorem next_eq_handOut (h : c.Holds rem) :
    ∃ c' : Chunks, c.next = c'.handOut ∧ c'.Holds rem ∧ c'.read = true ∧ c'.size = c.size := by
  cases hread : c.read with
  | true => exact ⟨c, by simp [next, h.last, hread], h, hread, rfl⟩
  | false =>
    obtain ⟨hgot, hrest, herr, hnone⟩ := full_eq h.ends c.size
    have hr := h.fresh hread
    rw [hr] at hgot hrest
    refine ⟨{ c with r := (full c.r c.size).1, cur := (full c.r c.size).2.1, read := true }, ?_,
      ⟨h.pos, h.last, (congrArg IOErr.ends herr).trans h.ends, fun _ => ⟨hgot, hrest⟩, (by simp)⟩,
      rfl, rfl⟩
    simp [next, h.last, hread, hnone]

theorem next_last (h : c.Holds rem) (hlen : rem.length ≤ c.size) :
    ∃ c', c.next = (c', .ok (rem, true)) ∧ c'.last = true := by
  obtain ⟨c₁, hnext, h₁, hread, hsize⟩ := next_eq_handOut h
  rw [hnext]
  exact handOut_last h₁ hread (hsize ▸ hlen)

theorem next_more (h : c.Holds rem) (hlen : c.size < rem.length) :
    ∃ c', c.next = (c', .ok (rem.take c.size, false)) ∧ c'.Holds (rem.drop c.size) ∧
      c'.size = c.size := by
  obtain ⟨c₁, hnext, h₁, hread, hsize⟩ := next_eq_handOut h
  obtain ⟨c', hout, hholds, hsize'⟩ := handOut_more h₁ hread (hsize ▸ hlen)
  rw [hsize] at hout hholds hsize'
  exact ⟨c', hnext.trans hout, hholds, hsize'⟩

theorem next_eof (h : c.last = true) : c.next = (c, .error .eof) := by simp [next, h]

end Chunks

/-! ### Sealing

The sealer gives the blocks of all pieces, one after another.  Its counter wraps at 32 bits, and the
nonces with it. -/

theorem numbered_cons (i : Nat) (chunk : Bytes) (h : chunks ≠ []) :
    numbered i (chunk :: chunks) = (i, false, chunk) :: numbered (i + 1) chunks := by
  cases chunks with
  | nil => exact absurd rfl h
  | cons c cs => rfl

theorem uint8_ofNat_eq {m n : Nat} (h : m % 2 ^ 8 = n % 2 ^ 8) : UInt8.ofNat m = UInt8.ofNat n := by
  apply UInt8.toNat_inj.mp
  simpa using h

theorem nonceFor_mod (pre : Bytes) (n : Nat) (last : Bool) :
    nonceFor pre (n % 2 ^ 32) last = nonceFor pre n last := by
  have hbig : bigEndian (n % 2 ^ 32) = bigEndian n := by
    simp only [bigEndian, map_cons, map_nil, List.cons.injEq, and_true]
    refine ⟨uint8_ofNat_eq ?_, uint8_ofNat_eq ?_, uint8_ofNat_eq ?_, uint8_ofNat_eq ?_⟩ <;> omega
  rw [nonceFor, hbig, nonceFor]

/-- The blocks of the stream of `chunks`, numbered from `i`. -/
def sealedBlocks (aead : AEAD) (pre : Bytes) (i : Nat) (chunks : List Bytes) : List Bytes :=
  (numbered i chunks).map fun (n, last, chunk) => aead.seal (nonceFor pre n last) chunk

theorem ciphertext_eq (aead : AEAD) (pre x : Bytes) :
    ciphertext aead pre x = pre ++ (sealedBlocks aead pre 0 (piecesOf chunkSize x)).flatten := by
  rw [ciphertext, sealedChunks, flatMap_map, flatMap_def]
  rfl

theorem sealedBlocks_cons (aead : AEAD) (pre : Bytes) (i : Nat) (chunk : Bytes) (h : chunks ≠ []) :
    sealedBlocks aead pre i (chunk :: chunks) =
      aead.seal (nonceFor pre i false) chunk :: sealedBlocks aead pre (i + 1) chunks := by
  rw [sealedBlocks, numbered_cons _ _ h]
  rfl

theorem sealedBlocks_mod (aead : AEAD) (pre : Bytes) (i : Nat) (chunks : List Bytes) :
    sealedBlocks aead pre (i % 2 ^ 32) chunks = sealedBlocks aead pre i chunks := by
  induction chunks generalizing i with
  | nil => rfl
  | cons chunk chunks ih =>
    by_cases h : chunks = []
    · subst h
      simp only [sealedBlocks, numbered, map_cons, map_nil, nonceFor_mod]
    · rw [sealedBlocks_cons _ _ _ _ h, sealedBlocks_cons _ _ _ _ h, nonceFor_mod, ← ih,
        ← ih (i + 1), Nat.mod_add_mod]

/-- A sealer that is to give `data`: what it holds, and the chunks it will still seal. -/
structure Sealer.Gives (s : Sealer) (data : Bytes) : Prop where
  ended : s.chunks.last = true → data = s.pending
  goes : s.chunks.last = false → ∃ rem, s.chunks.Holds rem ∧ s.chunks.size = chunkSize ∧
    data = s.pending ++ (sealedBlocks s.aead s.pre s.i (piecesOf chunkSize rem)).flatten

theorem chunkSize_pos : 0 < chunkSize := by decide

theorem take_ne_nil {l : Bytes} {n : Nat} (h : l ≠ []) (hn : 0 < n) : l.take n ≠ [] := by
  rw [Ne, take_eq_nil_iff, not_or]
  exact ⟨Nat.ne_of_gt hn, h⟩

theorem Sealer.Gives.give {s : Sealer} {data : Bytes} (h : s.Gives data) (n : Nat)
    (hheld : s.pending ≠ []) :
    ∃ s' got rest, s.give n = (s', got, none) ∧ data = got ++ rest ∧ s'.Gives rest ∧
      (0 < n → got ≠ []) := by
  have hgot : 0 < n → s.pending.take n ≠ [] := take_ne_nil hheld
  cases hlast : s.chunks.last with
  | true =>
    refine ⟨_, _, s.pending.drop n, rfl, ?_, ⟨fun _ => rfl, fun hno => ?_⟩, hgot⟩
    · rw [h.ended hlast, take_append_drop]
    · simp [hlast] at hno
  | false =>
    obtain ⟨rem, hholds, hsize, hdata⟩ := h.goes hlast
    refine ⟨_, _, s.pending.drop n ++ _, rfl, hdata.trans (split_at_request _ _ n),
      ⟨fun hno => ?_, fun _ => ⟨rem, hholds, hsize, rfl⟩⟩, hgot⟩
    simp [hlast] at hno

theorem seal_ne_nil (aead : AEAD) (nonce plain : Bytes) : aead.seal nonce plain ≠ [] := by
  intro hnil
  have hlen := aead.seal_length nonce plain
  have hpos := aead.overhead_pos
  rw [hnil, length_nil] at hlen
  omega

theorem Sealer.Gives.read {s : Sealer} {data : Bytes} (h : s.Gives data) (n : Nat) :
    (∃ s' got rest, s.read n = (s', got, none) ∧ data = got ++ rest ∧ Sealer.Gives s' rest ∧
      (0 < n → got ≠ [])) ∨
    ∃ s', s.read n = (s', [], some .eof) ∧ data = [] := by
  by_cases hheld : s.pending = []
  · cases hlast : s.chunks.last with
    | true =>
      refine .inr ⟨s, ?_, (h.ended hlast).trans hheld⟩
      rw [Sealer.read, if_pos (by rw [hheld, length_nil]), Chunks.next_eof hlast]
    | false =>
      left
      obtain ⟨rem, hholds, hsize, hdata⟩ := h.goes hlast
      rw [hheld, nil_append] at hdata
      by_cases hlen : rem.length ≤ chunkSize
      · -- The last chunk.
        obtain ⟨c', hnext, hlast'⟩ := Chunks.next_last hholds (hsize ▸ hlen)
        have hread : s.read n = ({ s with
            chunks := c'
            pending := s.aead.seal (nonceFor s.pre s.i true) rem
            i := (s.i + 1) % 2 ^ 32 } : Sealer).give n := by
          simp [Sealer.read, hheld, hnext]
        rw [hread]
        refine Sealer.Gives.give ⟨fun _ => ?_, fun hno => ?_⟩ n (seal_ne_nil _ _ _)
        · rw [hdata, piecesOf_of_le hlen]
          simp [sealedBlocks, numbered]
        · simp [hlast'] at hno
      · have hlen : chunkSize < rem.length := by omega
        obtain ⟨c', hnext, hholds', hsize'⟩ := Chunks.next_more hholds (hsize ▸ hlen)
        rw [hsize] at hnext hholds' hsize'
        have hpieces := piecesOf_of_lt chunkSize_pos hlen
        have hne := piecesOf_ne_nil chunkSize (rem.drop chunkSize)
        have hread : s.read n = ({ s with
            chunks := c'
            pending := s.aead.seal (nonceFor s.pre s.i false) (rem.take chunkSize)
            i := (s.i + 1) % 2 ^ 32 } : Sealer).give n := by
          simp [Sealer.read, hheld, hnext]
        rw [hread]
        refine Sealer.Gives.give ⟨fun hyes => ?_, fun _ => ?_⟩ n (seal_ne_nil _ _ _)
        · simp [hholds'.last] at hyes
        · refine ⟨rem.drop chunkSize, hholds', hsize', ?_⟩
          rw [hdata, hpieces, sealedBlocks_cons _ _ _ _ hne, sealedBlocks_mod]
          rfl
  · left
    have hread : s.read n = s.give n := by
      simp [Sealer.read, length_eq_zero_iff, hheld]
    rw [hread]
    exact h.give n hheld

/-- **However its source comes and however it is read, `Encrypt` gives the stream.** -/
theorem encrypt_yields (aead : AEAD) (pre : Bytes) (r : Source) (hends : r.err.ends = true) :
    Yields Sealer.read (Encrypt aead pre r) (ciphertext aead pre r.bytes) .eof := by
  refine Yields.of_invariant Sealer.Gives (fun s data n h => h.read n) ⟨nofun, fun _ => ?_⟩
  exact ⟨r.bytes, ⟨chunkSize_pos, rfl, hends, nofun, fun _ => rfl⟩, rfl,
    ciphertext_eq aead pre r.bytes⟩

/-! ### Opening

What an opener gives is worked out block by block; it ends early at a block that doesn't open, and
at an empty chunk. -/

/-- What comes of opening `blocks`, numbered from `i`. -/
def opened (aead : AEAD) (pre : Bytes) : Nat → List Bytes → Bytes × IOErr
  | _, [] => ([], .eof)
  | i, [block] =>
    match aead.open (nonceFor pre i true) block with
    | none => ([], .key)
    | some plain => (plain, .eof)
  | i, block :: blocks =>
    match aead.open (nonceFor pre i false) block with
    | none => ([], .key)
    | some plain =>
      if plain = [] then ([], .eof)
      else (plain ++ (opened aead pre ((i + 1) % 2 ^ 32) blocks).1,
        (opened aead pre ((i + 1) % 2 ^ 32) blocks).2)

/-- What comes of decrypting `y`. -/
def decrypted (aead : AEAD) (y : Bytes) : Bytes × IOErr :=
  if y.length < 7 then ([], .key)
  else opened aead (y.take 7) 0 (piecesOf (chunkSize + aead.overhead) (y.drop 7))

theorem opened_cons (aead : AEAD) (pre : Bytes) (i : Nat) (block : Bytes) {blocks : List Bytes}
    (h : blocks ≠ []) :
    opened aead pre i (block :: blocks) =
      match aead.open (nonceFor pre i false) block with
      | none => ([], .key)
      | some plain =>
        if plain = [] then ([], .eof)
        else (plain ++ (opened aead pre ((i + 1) % 2 ^ 32) blocks).1,
          (opened aead pre ((i + 1) % 2 ^ 32) blocks).2) := by
  cases blocks with
  | nil => exact absurd rfl h
  | cons b bs => rfl

/-- An opener with its prefix that is to give `data` and then `e`. -/
structure Opener.Gives (e : IOErr) (o : Opener) (pre data : Bytes) : Prop where
  ended : o.chunks.last = true → data = o.pending ∧ e = .eof
  goes : o.chunks.last = false → ∃ rem, o.chunks.Holds rem ∧
    o.chunks.size = chunkSize + o.aead.overhead ∧
    data = o.pending ++ (opened o.aead pre o.i (piecesOf o.chunks.size rem)).1 ∧
    e = (opened o.aead pre o.i (piecesOf o.chunks.size rem)).2

namespace Opener.Gives

variable {e : IOErr} {o : Opener} {pre data : Bytes}

theorem give (h : o.Gives e pre data) (n : Nat) (hheld : o.pending ≠ []) :
    ∃ o' got rest, o.give n = (o', got, none) ∧ data = got ++ rest ∧
      (o'.Gives e pre rest ∧ o'.pre = o.pre) ∧ (0 < n → got ≠ []) := by
  have hgot : 0 < n → o.pending.take n ≠ [] := take_ne_nil hheld
  cases hlast : o.chunks.last with
  | true =>
    obtain ⟨hdata, he⟩ := h.ended hlast
    refine ⟨_, _, o.pending.drop n, rfl, ?_, ⟨⟨fun _ => ⟨rfl, he⟩, fun hno => ?_⟩, rfl⟩, hgot⟩
    · rw [hdata, take_append_drop]
    · simp [hlast] at hno
  | false =>
    obtain ⟨rem, hholds, hsize, hdata, he⟩ := h.goes hlast
    refine ⟨_, _, o.pending.drop n ++ _, rfl, hdata.trans (split_at_request _ _ n),
      ⟨⟨fun hno => ?_, fun _ => ⟨rem, hholds, hsize, rfl, he⟩⟩, rfl⟩, hgot⟩
    simp [hlast] at hno

theorem readWith (h : o.Gives e pre data) (n : Nat) :
    (∃ o' got rest, o.readWith pre n = (o', got, none) ∧ data = got ++ rest ∧
      (o'.Gives e pre rest ∧ o'.pre = o.pre) ∧ (0 < n → got ≠ [])) ∨
    ∃ o', o.readWith pre n = (o', [], some e) ∧ data = [] := by
  by_cases hheld : o.pending = []
  · cases hlast : o.chunks.last with
    | true =>
      obtain ⟨hdata, rfl⟩ := h.ended hlast
      refine .inr ⟨o, ?_, hdata.trans hheld⟩
      rw [Opener.readWith, if_pos (by rw [hheld, length_nil]), Chunks.next_eof hlast]
      rfl
    | false =>
      obtain ⟨rem, hholds, hsize, hdata, he⟩ := h.goes hlast
      rw [hheld, nil_append] at hdata
      by_cases hlen : rem.length ≤ o.chunks.size
      · obtain ⟨c', hnext, hlast'⟩ := Chunks.next_last hholds hlen
        rw [piecesOf_of_le hlen] at hdata he
        cases hopen : o.aead.open (nonceFor pre o.i true) rem with
        | none =>
          simp only [opened, hopen] at hdata he
          subst he
          exact .inr ⟨{ o with chunks := c' },
            by simp [Opener.readWith, hheld, hnext, hopen], hdata⟩
        | some plain =>
          simp only [opened, hopen] at hdata he
          subst he
          by_cases hplain : plain = []
          · exact .inr ⟨{ o with chunks := c', pending := plain, i := (o.i + 1) % 2 ^ 32 },
              by simp [Opener.readWith, hheld, hnext, hopen, hplain], hdata.trans hplain⟩
          · left
            have hread : o.readWith pre n =
                ({ o with chunks := c', pending := plain, i := (o.i + 1) % 2 ^ 32 } : Opener).give
                  n := by
              simp [Opener.readWith, hheld, hnext, hopen, hplain]
            rw [hread]
            refine give ⟨fun _ => ⟨hdata, rfl⟩, fun hno => ?_⟩ n hplain
            simp [hlast'] at hno
      · have hlen : o.chunks.size < rem.length := by omega
        obtain ⟨c', hnext, hholds', hsize'⟩ := Chunks.next_more hholds hlen
        have hne := piecesOf_ne_nil o.chunks.size (rem.drop o.chunks.size)
        rw [piecesOf_of_lt hholds.pos hlen, opened_cons _ _ _ _ hne] at hdata he
        cases hopen : o.aead.open (nonceFor pre o.i false) (rem.take o.chunks.size) with
        | none =>
          simp only [hopen] at hdata he
          subst he
          exact .inr ⟨{ o with chunks := c' },
            by simp [Opener.readWith, hheld, hnext, hopen], hdata⟩
        | some plain =>
          simp only [hopen] at hdata he
          by_cases hplain : plain = []
          · simp only [hplain, if_true] at hdata he
            subst he
            exact .inr ⟨{ o with chunks := c', pending := plain, i := (o.i + 1) % 2 ^ 32 },
              by simp [Opener.readWith, hheld, hnext, hopen, hplain], hdata⟩
          · left
            simp only [hplain, if_false] at hdata he
            have hread : o.readWith pre n =
                ({ o with chunks := c', pending := plain, i := (o.i + 1) % 2 ^ 32 } : Opener).give
                  n := by
              simp [Opener.readWith, hheld, hnext, hopen, hplain]
            rw [hread]
            refine give ⟨fun hyes => ?_, fun _ => ?_⟩ n hplain
            · simp [hholds'.last] at hyes
            · exact ⟨_, hholds', hsize'.trans hsize, by rw [hsize']; exact hdata,
                by rw [hsize']; exact he⟩
  · left
    have hread : o.readWith pre n = o.give n := by
      simp [Opener.readWith, length_eq_zero_iff, hheld]
    rw [hread]
    exact h.give n hheld

end Opener.Gives

/-- An opener that has not been read from. -/
structure Opener.Fresh (o : Opener) : Prop where
  pre : o.pre = none
  ends : o.r.err.ends = true
  i : o.i = 0
  pending : o.pending = []

/-- What an opener is to give, whether or not it has its prefix. -/
def Opener.ToGive (e : IOErr) (o : Opener) (data : Bytes) : Prop :=
  (∃ pre, o.pre = some pre ∧ o.Gives e pre data) ∨
    (o.Fresh ∧ (data, e) = decrypted o.aead o.r.bytes)

/-- **However its source comes and however it is read, `Decrypt` gives what comes of opening
the blocks one by one.** -/
theorem decrypt_yields (aead : AEAD) (r : Source) (hends : r.err.ends = true) :
    Yields Opener.read (Decrypt aead r) (decrypted aead r.bytes).1 (decrypted aead r.bytes).2 := by
  refine Yields.of_invariant (Opener.ToGive (decrypted aead r.bytes).2) ?_
    (.inr ⟨⟨rfl, hends, rfl, rfl⟩, rfl⟩)
  generalize (decrypted aead r.bytes).2 = e
  rintro o data n (⟨pre, hpre, h⟩ | ⟨hfresh, hdata⟩)
  · have hread : o.read n = o.readWith pre n := by simp [Opener.read, hpre]
    rw [hread]
    rcases h.readWith n with ⟨o', got, rest, hgot, hsplit, ⟨hgives, hpre'⟩, hpos⟩ | hend
    · exact .inl ⟨o', got, rest, hgot, hsplit, .inl ⟨pre, hpre'.trans hpre, hgives⟩, hpos⟩
    · exact .inr hend
  · -- The first read takes the prefix first.
    obtain ⟨hgot, hrest, herr⟩ := readFull_eq o.r 7
    by_cases hshort : o.r.bytes.length < 7
    · rw [decrypted, if_pos hshort, Prod.mk.injEq] at hdata
      obtain ⟨hdata, rfl⟩ := hdata
      have hsome : (readFull o.r 7).2.2 ≠ none := by
        rw [Ne, readFull_err_eq_none]
        omega
      obtain ⟨e', he'⟩ := Option.ne_none_iff_exists'.mp hsome
      exact .inr ⟨{ o with r := (readFull o.r 7).1, pre := some (readFull o.r 7).2.1 },
        by simp [Opener.read, hfresh.pre, he'], hdata⟩
    · have hnone : (readFull o.r 7).2.2 = none := (readFull_err_eq_none _ _).mpr (by omega)
      rw [decrypted, if_neg hshort] at hdata
      generalize ho' : ({ o with
        r := (readFull o.r 7).1
        pre := some (readFull o.r 7).2.1
        chunks := { r := (readFull o.r 7).1, size := chunkSize + o.aead.overhead } } : Opener) = o'
      have hread : o.read n = o'.readWith (readFull o.r 7).2.1 n := by
        simp [Opener.read, hfresh.pre, hnone, ← ho']
      have h : o'.Gives e (readFull o.r 7).2.1 data := by
        refine ⟨by simp [← ho'], fun _ => ⟨o.r.bytes.drop 7, ?_, by simp [← ho'], ?_, ?_⟩⟩
        · rw [← ho']
          refine ⟨Nat.lt_of_lt_of_le chunkSize_pos (Nat.le_add_right _ _), rfl, ?_, (by simp),
            fun _ => hrest⟩
          exact (congrArg IOErr.ends herr).trans hfresh.ends
        · rw [← ho']
          simp only [hfresh.pending, hfresh.i, hgot, nil_append]
          exact congrArg Prod.fst hdata
        · rw [← ho']
          simp only [hfresh.i, hgot]
          exact congrArg Prod.snd hdata
      rw [hread]
      rcases h.readWith n with ⟨o₁, got, rest, hgot₁, hsplit, ⟨hgives, hpre'⟩, hpos⟩ | hend
      · refine .inl ⟨o₁, got, rest, hgot₁, hsplit, .inl ⟨_, hpre'.trans ?_, hgives⟩, hpos⟩
        rw [← ho']
      · exact .inr hend

/-! ### Nonces -/

theorem bigEndian_inj {m n : Nat} (hm : m < 2 ^ 32) (hn : n < 2 ^ 32)
    (h : bigEndian m = bigEndian n) : m = n := by
  simp only [bigEndian, map_cons, map_nil, List.cons.injEq, and_true] at h
  obtain ⟨h₁, h₂, h₃, h₄⟩ := h
  have byte : ∀ {a b : Nat}, UInt8.ofNat a = UInt8.ofNat b → a % 256 = b % 256 := by
    intro a b hab
    have := congrArg UInt8.toNat hab
    simpa using this
  have h₁ := byte h₁
  have h₂ := byte h₂
  have h₃ := byte h₃
  have h₄ := byte h₄
  omega

theorem nonceFor_inj {pre' : Bytes} {m n : Nat} {last last' : Bool} (hpre : pre.length = 7)
    (hpre' : pre'.length = 7) (hm : m < 2 ^ 32) (hn : n < 2 ^ 32)
    (h : nonceFor pre m last = nonceFor pre' n last') : pre = pre' ∧ m = n ∧ last = last' := by
  unfold nonceFor at h
  rw [take_of_length_le (by omega), take_of_length_le (by omega)] at h
  obtain ⟨h, hlast⟩ := append_inj' h rfl
  obtain ⟨hpres, hnum⟩ := append_inj h (by omega)
  refine ⟨hpres, bigEndian_inj hm hn hnum, ?_⟩
  cases last <;> cases last' <;> simp_all

theorem mem_numbered {j : Nat} {last : Bool} {chunk : Bytes} :
    (j, last, chunk) ∈ numbered i chunks ↔
      ∃ k, j = i + k ∧ chunks[k]? = some chunk ∧ last = decide (k + 1 = chunks.length) := by
  induction chunks generalizing i with
  | nil => simp [numbered]
  | cons c cs ih =>
    by_cases hcs : cs = []
    · subst hcs
      simp only [numbered, mem_singleton, Prod.mk.injEq]
      constructor
      · rintro ⟨rfl, rfl, rfl⟩
        exact ⟨0, rfl, rfl, rfl⟩
      · rintro ⟨k, rfl, hk, rfl⟩
        cases k with
        | zero => simpa using hk.symm
        | succ k => simp at hk
    · rw [numbered_cons _ _ hcs, mem_cons, ih, Prod.mk.injEq, Prod.mk.injEq]
      have hpos := length_pos_of_ne_nil hcs
      constructor
      · rintro (⟨rfl, rfl, rfl⟩ | ⟨k, rfl, hk, rfl⟩)
        · exact ⟨0, rfl, rfl, by simp [hcs]⟩
        · exact ⟨k + 1, by omega, by simpa using hk, by simp⟩
      · rintro ⟨k, rfl, hk, rfl⟩
        cases k with
        | zero => exact .inl ⟨rfl, by simp [hcs], by simpa using hk.symm⟩
        | succ k => exact .inr ⟨k, by omega, by simpa using hk, by simp⟩

theorem numbered_map_fst (i : Nat) (chunks : List Bytes) :
    (numbered i chunks).map Prod.fst = List.range' i chunks.length := by
  induction chunks generalizing i with
  | nil => rfl
  | cons c cs ih =>
    by_cases hcs : cs = []
    · subst hcs
      rfl
    · rw [numbered_cons _ _ hcs, map_cons, ih, length_cons, range'_succ]

theorem nonces_nodup {x : Bytes} (hpre : pre.length = 7)
    (hlen : (piecesOf chunkSize x).length ≤ 2 ^ 32) :
    ((sealedChunks pre x).map Prod.fst).Nodup := by
  have hnum : (numbered 0 (piecesOf chunkSize x)).Nodup := by
    refine List.Nodup.of_map Prod.fst ?_
    rw [numbered_map_fst]
    exact nodup_range'
  rw [sealedChunks, map_map]
  refine hnum.map_on ?_
  rintro ⟨m, last, c⟩ hm ⟨n, last', c'⟩ hn heq
  obtain ⟨k, hk, hck, rfl⟩ := mem_numbered.mp hm
  obtain ⟨k', hk', hck', rfl⟩ := mem_numbered.mp hn
  have hlt := (List.getElem?_eq_some_iff.mp hck).1
  have hlt' := (List.getElem?_eq_some_iff.mp hck').1
  obtain ⟨-, rfl, hlast⟩ := nonceFor_inj hpre hpre (by omega) (by omega) heq
  obtain rfl : k = k' := by omega
  rw [Option.some.inj (hck.symm.trans hck')]

/-! ### Round trip -/

theorem sealedBlocks_ne_nil (aead : AEAD) (pre : Bytes) (i : Nat) (h : chunks ≠ []) :
    sealedBlocks aead pre i chunks ≠ [] := by
  obtain ⟨c, cs, rfl⟩ := exists_cons_of_ne_nil h
  by_cases hcs : cs = []
  · subst hcs
    simp [sealedBlocks, numbered]
  · simp [sealedBlocks_cons _ _ _ _ hcs]

theorem sized_sealedBlocks (aead : AEAD) (pre : Bytes) {size : Nat} (h : Sized size chunks) :
    Sized (size + aead.overhead) (sealedBlocks aead pre i chunks) := by
  induction chunks generalizing i with
  | nil => exact absurd h id
  | cons c cs ih =>
    by_cases hcs : cs = []
    · subst hcs
      simp only [Sized] at h
      simp only [sealedBlocks, numbered, map_cons, map_nil, Sized, aead.seal_length]
      omega
    · obtain ⟨hlen, -, hrest⟩ := (sized_cons hcs).mp h
      have hne := sealedBlocks_ne_nil aead pre (i + 1) hcs
      rw [sealedBlocks_cons _ _ _ _ hcs, sized_cons hne, aead.seal_length]
      refine ⟨by omega, ?_, ih hrest⟩
      obtain ⟨b, bs, hb⟩ := exists_cons_of_ne_nil hne
      have hmem : b ∈ sealedBlocks aead pre (i + 1) cs := by simp [hb]
      obtain ⟨⟨n, last, chunk⟩, -, rfl⟩ := mem_map.mp hmem
      rw [hb, flatten_cons]
      exact append_ne_nil_of_left_ne_nil (seal_ne_nil _ _ _) _

theorem opened_sealedBlocks {aead : AEAD} (hcorrect : aead.Correct) (pre : Bytes) {size : Nat}
    (hsize : 0 < size) (h : Sized size chunks) :
    opened aead pre i (sealedBlocks aead pre i chunks) = (chunks.flatten, .eof) := by
  induction chunks generalizing i with
  | nil => exact absurd h id
  | cons c cs ih =>
    by_cases hcs : cs = []
    · subst hcs
      simp [sealedBlocks, numbered, opened, hcorrect _ _]
    · obtain ⟨hlen, -, hrest⟩ := (sized_cons hcs).mp h
      have hc : c ≠ [] := by
        rintro rfl
        rw [length_nil] at hlen
        omega
      rw [sealedBlocks_cons _ _ _ _ hcs, opened_cons _ _ _ _ (sealedBlocks_ne_nil aead pre _ hcs)]
      simp only [hcorrect _ _, hc, if_false]
      rw [← sealedBlocks_mod, ih hrest]
      rfl

theorem decrypted_ciphertext {aead : AEAD} (hcorrect : aead.Correct) {x : Bytes}
    (hpre : pre.length = 7) :
    decrypted aead (ciphertext aead pre x) = (x, .eof) := by
  have hsized := sized_piecesOf chunkSize_pos x
  have hshort : ¬ (ciphertext aead pre x).length < 7 := by
    rw [ciphertext_eq, length_append]
    omega
  rw [decrypted, if_neg hshort, ciphertext_eq, take_append_of_le_length (by omega),
    take_of_length_le (by omega), drop_append_of_le_length (by omega),
    drop_of_length_le (by omega), nil_append,
    piecesOf_flatten (by have := chunkSize_pos; omega) (sized_sealedBlocks aead pre hsized),
    opened_sealedBlocks hcorrect pre chunkSize_pos hsized, flatten_piecesOf]

/-! ### Changed streams

The nonce of a block says its stream, its place in it and whether it is the last; so a block that
opens is the one that was sealed there, and a changed stream fails at its first change. -/

section

variable {aead : AEAD} {streams : List (Bytes × Bytes)}

theorem Encrypted.pieces (henc : Encrypted streams) {s : Bytes × Bytes} (hs : s ∈ streams) :
    (piecesOf chunkSize s.2).length ≤ 2 ^ 32 :=
  length_piecesOf_le chunkSize_pos (by decide) (Nat.le_of_lt (henc.size s hs))

theorem open_ideal (hideal : aead.Ideal streams) (henc : Encrypted streams) (hpre : pre.length = 7)
    (hi : i < 2 ^ 32) {last : Bool} {block plain : Bytes}
    (hopen : aead.open (nonceFor pre i last) block = some plain) :
    ∃ s ∈ streams, s.1 = pre ∧ (piecesOf chunkSize s.2)[i]? = some plain ∧
      last = decide (i + 1 = (piecesOf chunkSize s.2).length) ∧
      block = aead.seal (nonceFor pre i last) plain := by
  obtain ⟨s, hs, hmem, hblock⟩ := hideal _ _ _ hopen
  obtain ⟨⟨n, last', chunk⟩, hnum, heq⟩ := mem_map.mp hmem
  simp only [Prod.mk.injEq] at heq
  obtain ⟨hnonce, rfl⟩ := heq
  obtain ⟨k, hk, hck, rfl⟩ := mem_numbered.mp hnum
  have hlt := (List.getElem?_eq_some_iff.mp hck).1
  have hle := henc.pieces hs
  obtain ⟨hpres, hn, hlast⟩ := nonceFor_inj (henc.pre s hs) hpre (by omega) hi hnonce
  obtain rfl : i = k := by omega
  exact ⟨s, hs, hpres, hck, hlast.symm, hblock⟩

/-- Opening blocks from the `i`th on under the prefix of a stream: the stream's own chunks
come, until a block that isn't the stream's; or all blocks are the stream's. -/
theorem opened_ideal (hideal : aead.Ideal streams) (henc : Encrypted streams) {s : Bytes × Bytes}
    (hs : s ∈ streams) (hi : i < 2 ^ 32) {blocks : List Bytes} (hne : blocks ≠ []) :
    (∃ k, opened aead s.1 i blocks =
      ((((piecesOf chunkSize s.2).drop i).take k).flatten, .key)) ∨
    blocks = sealedBlocks aead s.1 i ((piecesOf chunkSize s.2).drop i) := by
  have hsized := sized_piecesOf chunkSize_pos s.2
  -- What opens here is a chunk of this stream, and no other's: prefixes are distinct.
  have hown : ∀ {i : Nat} {last : Bool} {block plain : Bytes}, i < 2 ^ 32 →
      aead.open (nonceFor s.1 i last) block = some plain →
      (piecesOf chunkSize s.2)[i]? = some plain ∧
      last = decide (i + 1 = (piecesOf chunkSize s.2).length) ∧
      block = aead.seal (nonceFor s.1 i last) plain := by
    intro i last block plain hi hopen
    obtain ⟨s', hs', hpre, hrest⟩ := open_ideal hideal henc (henc.pre s hs) hi hopen
    obtain rfl := henc.distinct s' hs' s hs hpre
    exact hrest
  induction blocks generalizing i with
  | nil => exact absurd rfl hne
  | cons block blocks ih =>
    by_cases hlast : blocks = []
    · subst hlast
      cases hopen : aead.open (nonceFor s.1 i true) block with
      | none => exact .inl ⟨0, by simp [opened, hopen]⟩
      | some plain =>
        obtain ⟨hchunk, hend, hblock⟩ := hown hi hopen
        have hlen : i + 1 = (piecesOf chunkSize s.2).length := by simpa using hend
        right
        rw [drop_eq_getElem?_toList_append, hchunk, drop_of_length_le (by omega)]
        simp [sealedBlocks, numbered, hblock]
    · rw [opened_cons _ _ _ _ hlast]
      cases hopen : aead.open (nonceFor s.1 i false) block with
      | none => exact .inl ⟨0, by simp⟩
      | some plain =>
        obtain ⟨hchunk, hmore, hblock⟩ := hown hi hopen
        have hmore : i + 1 ≠ (piecesOf chunkSize s.2).length := by simpa using hmore
        obtain ⟨hlt, hget⟩ := List.getElem?_eq_some_iff.mp hchunk
        have hle := henc.pieces hs
        have hplain : plain ≠ [] := by
          rintro rfl
          have := hsized.length_eq hchunk hmore
          simp [chunkSize] at this
        have hmod : (i + 1) % 2 ^ 32 = i + 1 := Nat.mod_eq_of_lt (by omega)
        have hdrop : (piecesOf chunkSize s.2).drop i =
            plain :: (piecesOf chunkSize s.2).drop (i + 1) := by
          rw [drop_eq_getElem_cons hlt, hget]
        have hrest : (piecesOf chunkSize s.2).drop (i + 1) ≠ [] := by
          rw [Ne, drop_eq_nil_iff]
          omega
        simp only [hplain, if_false, hmod]
        rcases ih (i := i + 1) (by omega) hlast with ⟨k, hk⟩ | hall
        · exact .inl ⟨k + 1, by rw [hk, hdrop]; rfl⟩
        · right
          rw [hdrop, sealedBlocks_cons _ _ _ _ hrest, ← hall, ← hblock]

theorem decrypted_ideal (hideal : aead.Ideal streams) (henc : Encrypted streams) {y : Bytes}
    (hy : ∀ s ∈ streams, y ≠ ciphertext aead s.1 s.2) :
    (decrypted aead y).2 = .key ∧ ((decrypted aead y).1 = [] ∨
      ∃ s ∈ streams, y.take 7 = s.1 ∧
        ∃ k, (decrypted aead y).1 = ((piecesOf chunkSize s.2).take k).flatten) := by
  by_cases hshort : y.length < 7
  · rw [decrypted, if_pos hshort]
    exact ⟨rfl, .inl rfl⟩
  rw [decrypted, if_neg hshort]
  have hlen : (y.take 7).length = 7 := by
    rw [length_take]
    omega
  have hne := piecesOf_ne_nil (chunkSize + aead.overhead) (y.drop 7)
  by_cases hknown : ∃ s ∈ streams, s.1 = y.take 7
  · obtain ⟨s, hs, hpre⟩ := hknown
    rcases opened_ideal hideal henc hs (i := 0) (by decide) hne with ⟨k, hk⟩ | hall
    · rw [← hpre, hk]
      exact ⟨rfl, .inr ⟨s, hs, rfl, k, rfl⟩⟩
    · refine absurd ?_ (hy s hs)
      rw [drop_zero] at hall
      rw [ciphertext_eq, ← hall, flatten_piecesOf, hpre, take_append_drop]
  · -- No stream has this prefix: nothing opens.
    obtain ⟨block, blocks, hblocks⟩ := exists_cons_of_ne_nil hne
    have hnone : ∀ last, aead.open (nonceFor (y.take 7) 0 last) block = none := by
      intro last
      cases hopen : aead.open (nonceFor (y.take 7) 0 last) block with
      | none => rfl
      | some plain =>
        obtain ⟨s, hs, hpre, -⟩ := open_ideal hideal henc hlen (by decide) hopen
        exact absurd ⟨s, hs, hpre⟩ hknown
    have hopened : opened aead (y.take 7) 0 (block :: blocks) = ([], .key) := by
      by_cases hlast : blocks = []
      · subst hlast
        simp [opened, hnone]
      · rw [opened_cons _ _ _ _ hlast, hnone]
    rw [hblocks, hopened]
    exact ⟨rfl, .inl rfl⟩

end

/-- **Encrypted backups come back whole, and can't be changed unnoticed.**  What is read of
`Decrypt`, from the stream that is read of `Encrypt`, is what was encrypted and then the end;
no nonce is used twice.  And if the cipher is ideal and has sealed `streams`, what is read of
`Decrypt` from anything but these is some of the first chunks of one stream, and then
`ErrKey`. -/
theorem backup_stream_sound (aead : AEAD) :
    (aead.Correct → ∀ (pre : Bytes) (r : Source), pre.length = 7 → r.err = .eof →
      r.bytes.length < 2 ^ 32 * chunkSize →
      Yields Sealer.read (Encrypt aead pre r) (ciphertext aead pre r.bytes) .eof ∧
      ((sealedChunks pre r.bytes).map Prod.fst).Nodup ∧
      ∀ stored : Source, stored.err = .eof → stored.bytes = ciphertext aead pre r.bytes →
        Yields Opener.read (Decrypt aead stored) r.bytes .eof) ∧
    (∀ streams, Encrypted streams → aead.Ideal streams →
      ∀ stored : Source, stored.err = .eof →
        (∀ s ∈ streams, stored.bytes ≠ ciphertext aead s.1 s.2) →
        ∃ data, Yields Opener.read (Decrypt aead stored) data .key ∧
          (data = [] ∨ ∃ s ∈ streams, stored.bytes.take 7 = s.1 ∧
            ∃ k, data = ((piecesOf chunkSize s.2).take k).flatten)) := by
  refine ⟨fun hcorrect pre r hpre hr hlen => ?_, fun streams henc hideal stored hr hy => ?_⟩
  · have hpieces : (piecesOf chunkSize r.bytes).length ≤ 2 ^ 32 :=
      length_piecesOf_le chunkSize_pos (by decide) (Nat.le_of_lt hlen)
    refine ⟨encrypt_yields aead pre r (by rw [hr]; rfl), nonces_nodup hpre hpieces, ?_⟩
    intro stored hstored hbytes
    have := decrypt_yields aead stored (by rw [hstored]; rfl)
    rwa [hbytes, decrypted_ciphertext hcorrect hpre] at this
  · obtain ⟨hkey, hdata⟩ := decrypted_ideal hideal henc hy
    have := decrypt_yields aead stored (by rw [hr]; rfl)
    rw [hkey] at this
    exact ⟨_, this, hdata⟩

/-- A cipher that hides nothing. -/
def markAEAD : AEAD where
  overhead := 1
  «seal» _ plain := plain ++ [0]
  «open» _ block := if block = [] then none else some block.dropLast
  seal_length _ _ := by simp
  overhead_pos := by decide

def zeros : Bytes := [0, 0, 0, 0, 0, 0, 0]

/-- A cipher that has sealed the stream of `[5]` with prefix `zeros`, and opens nothing else. -/
def tableAEAD : AEAD where
  overhead := 1
  «seal» _ plain := plain ++ [9]
  «open» nonce block := if nonce = nonceFor zeros 0 true ∧ block = [5, 9] then some [5] else none
  seal_length _ _ := by simp
  overhead_pos := by decide

/-- Three bytes come back; and a stream cut in its only block is refused. -/
theorem backup_stream_sound_small :
    Yields Opener.read (Decrypt markAEAD ⟨[ciphertext markAEAD zeros [1, 2, 3]], .eof⟩)
      [1, 2, 3] .eof ∧
    ∃ data, Yields Opener.read (Decrypt tableAEAD ⟨[[0, 0, 0], [0, 0, 0, 0, 5]], .eof⟩)
      data .key := by
  have hpieces : piecesOf chunkSize ([5] : Bytes) = [[5]] := piecesOf_of_le (by decide)
  constructor
  · have hcorrect : markAEAD.Correct := fun nonce plain => by simp [markAEAD]
    have hround := (backup_stream_sound markAEAD).1 hcorrect zeros ⟨[[1, 2], [3]], .eof⟩ rfl rfl
      (by decide)
    exact hround.2.2 ⟨[ciphertext markAEAD zeros [1, 2, 3]], .eof⟩ rfl
      (by simp [Source.bytes])
  · have hideal : tableAEAD.Ideal [(zeros, [5])] := by
      intro nonce block plain hopen
      simp only [tableAEAD, Option.ite_none_right_eq_some, Option.some.injEq] at hopen
      obtain ⟨⟨rfl, rfl⟩, rfl⟩ := hopen
      refine ⟨(zeros, [5]), by simp, ?_, rfl⟩
      simp [sealedChunks, hpieces, numbered]
    have henc : Encrypted [(zeros, [5])] := by
      constructor <;> simp [zeros, chunkSize]
    obtain ⟨data, hdata, -⟩ := (backup_stream_sound tableAEAD).2 _ henc hideal
      ⟨[[0, 0, 0], [0, 0, 0, 0, 5]], .eof⟩ rfl
      (by simp [ciphertext, sealedChunks, hpieces, numbered, Source.bytes, zeros, tableAEAD])
    exact ⟨data, hdata⟩

end Fern
