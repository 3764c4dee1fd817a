/-
What the state archive holds.

`writeState` without an error wrote every item whole.  Of T3's folder, the two walks divide the
files between them by name and type: whether that leaves nothing out, and takes no database's
side file in, is a question about the names in the tree alone.
-/
import Mathlib.Data.List.Nodup
import Mathlib.Data.List.Perm.Basic
import Fern.Backup.State

namespace Fern

open List

variable {f : RelPath × FileKind} {name suffix : String}

/-! ### The tar writer -/

namespace TarWriter

variable {encode : TarHeader → Bytes} {w w' : TarWriter} {it : TarItem} {items : List TarItem}

theorem flush_ok (h : w.flush = (w', none)) :
    w.left = 0 ∧ w' = { w with out := w.out ++ tarZeros w.pad, pad := 0 } := by
  simp only [flush] at h
  split at h
  · simp at h
  · simp only [Prod.mk.injEq, and_true] at h
    exact ⟨by omega, h.symm⟩

/-- The bytes an item needs in its entry. -/
private def sizeOf' (it : TarItem) : Nat := if it.kind.isRegular then it.size else 0

theorem writeHeader_ok (h : w.writeHeader encode it.header = (w', none)) :
    w.left = 0 ∧ w' = ⟨w.out ++ tarZeros w.pad ++ encode it.header, sizeOf' it,
      tarPadding (sizeOf' it)⟩ := by
  simp only [writeHeader] at h
  split at h
  · simp at h
  · rename_i w₁ hf
    obtain ⟨hl, rfl⟩ := flush_ok hf
    simp only [Prod.mk.injEq, and_true] at h
    exact ⟨hl, h.symm⟩

private theorem copy_ok (hl : w.left = it.size)
    (h : (if it.limited then w.copyN it else w.copyAll it) = (w', none)) :
    w'.out = w.out ++ it.content.take it.size ∧
      w'.left = it.size - it.content.length ∧ w'.pad = w.pad := by
  split at h
  · simp only [copyN, write] at h
    split at h
    · simp at h
    · rename_i w₁ hw
      simp only [Prod.mk.injEq] at hw h
      obtain ⟨rfl, -⟩ := hw
      obtain ⟨rfl, hs⟩ := h
      refine ⟨by simp [hl, take_take], ?_, rfl⟩
      simp only [hl, length_take]
      omega
  · simp only [copyAll, write] at h
    split at h
    · simp at h
    · rename_i w₁ hw
      simp only [Prod.mk.injEq] at hw h
      obtain ⟨rfl, -⟩ := hw
      obtain ⟨rfl, -⟩ := h
      exact ⟨by simp [hl], by simp [hl], rfl⟩

/-- Adding an item without an error writes the padding of the one before, which was whole, its
header and what it holds of its size. -/
theorem add_ok (h : w.add encode it = (w', none)) :
    w.left = 0 ∧
      w'.out = w.out ++ tarZeros w.pad ++ encode it.header ++ it.content.take (sizeOf' it) ∧
      w'.left = sizeOf' it - it.content.length ∧ w'.pad = tarPadding (sizeOf' it) := by
  simp only [add] at h
  split at h
  · simp at h
  split at h
  · simp at h
  rename_i w₁ hw
  obtain ⟨hl, rfl⟩ := writeHeader_ok hw
  refine ⟨hl, ?_⟩
  split at h
  · rename_i hk
    have hz : sizeOf' it = 0 := by simp_all [sizeOf']
    simp only [Prod.mk.injEq, and_true] at h
    subst h
    simp [hz, tarPadding]
  · rename_i hk
    have hz : sizeOf' it = it.size := by simp_all [sizeOf']
    split at h
    · simp at h
    · obtain ⟨ho, hleft, hp⟩ := copy_ok hz h
      rw [hz] at hp ⊢
      exact ⟨ho, hleft, hp⟩

/-- What an item takes up in the archive. -/
private def blocks (encode : TarHeader → Bytes) (it : TarItem) : Bytes :=
  encode it.header ++ it.content.take (sizeOf' it) ++ tarZeros (tarPadding (sizeOf' it))

private theorem archiveOf_eq (items : List TarItem) :
    archiveOf encode items = items.flatMap (blocks encode) ++ tarZeros 1024 := rfl

/-- Adding items without an error and closing leaves each whole: the first, which is being
written, because the next header or the end finds nothing left of it. -/
theorem addItems_ok (h : w.addItems encode items = (w', none)) (hc : w'.close.2 = none) :
    w.left = 0 ∧
      w'.close.1.out = w.out ++ tarZeros w.pad ++ items.flatMap (blocks encode) ++ tarZeros 1024 ∧
      ∀ it ∈ items, sizeOf' it ≤ it.content.length := by
  induction items generalizing w with
  | nil =>
    simp only [addItems, Prod.mk.injEq, and_true] at h
    subst h
    cases hf : w.flush with
    | mk w₁ e =>
      cases e with
      | some e => simp [close, hf] at hc
      | none =>
        obtain ⟨hl, rfl⟩ := flush_ok hf
        exact ⟨hl, by simp [close, hf], by simp⟩
  | cons it items ih =>
    simp only [addItems] at h
    split at h
    · simp at h
    · rename_i w₁ hw
      obtain ⟨hl, ho, hleft, hp⟩ := add_ok hw
      obtain ⟨hl₁, hout, hall⟩ := ih h
      refine ⟨hl, ?_, ?_⟩
      · rw [hout, ho, hp]
        simp [blocks]
      · simp only [mem_cons, forall_eq_or_imp]
        exact ⟨by omega, hall⟩

end TarWriter

/-- **An archive made without an error is whole**: it is the archive of all the items, and each
file had all the bytes its header announces. -/
theorem writeState_ok {encode : TarHeader → Bytes} {items : List TarItem}
    (h : (writeState encode items).2 = none) :
    (writeState encode items).1 = archiveOf encode items ∧
      ∀ it ∈ items, it.kind.isRegular → it.size ≤ it.content.length := by
  simp only [writeState] at h ⊢
  split at h
  · simp at h
  · rename_i w hw
    obtain ⟨-, hout, hall⟩ := TarWriter.addItems_ok hw h
    refine ⟨?_, ?_⟩
    · have hz : tarZeros 0 = [] := rfl
      rw [hout, TarWriter.archiveOf_eq]
      simp only [hz, nil_append]
    · intro it hit hk
      simpa [TarWriter.sizeOf', hk] using hall it hit

/-! ### Walks -/

/-- Everything a walk of a folder finds lies below it, by one of the folder's names. -/
theorem walk_below {at' : RelPath} {forest : Forest} (h : f ∈ walk at' forest) :
    ∃ name ∈ forest.names, ∃ more, f.1 = at' ++ name :: more := by
  induction forest generalizing at' with
  | nil => simp [walk] at h
  | cons name kind inside rest ihi ihr =>
    simp only [walk, mem_cons, mem_append] at h
    rcases h with rfl | h | h
    · exact ⟨name, by simp [Forest.names], [], by simp⟩
    · split at h
      · obtain ⟨name', -, more, hf⟩ := ihi h
        exact ⟨name, by simp [Forest.names], name' :: more, by simp [hf]⟩
      · simp at h
    · obtain ⟨name', hn, more, hf⟩ := ihr h
      exact ⟨name', by simp [Forest.names, hn], more, hf⟩

theorem walk_nodup {at' : RelPath} {forest : Forest} (hd : forest.Distinct) :
    ((walk at' forest).map Prod.fst).Nodup := by
  induction forest generalizing at' with
  | nil => simp [walk]
  | cons name kind inside rest ihi ihr =>
    obtain ⟨hn, hi, hr⟩ := hd
    -- what is found in the entry starts with its name, and the rest with other names
    have hin : ∀ p ∈ (if kind = .dir then walk (at' ++ [name]) inside else []).map Prod.fst,
        ∃ name' more, p = at' ++ name :: name' :: more := by
      intro p hp
      split at hp
      · obtain ⟨f, hf, rfl⟩ := mem_map.mp hp
        obtain ⟨name', -, more, he⟩ := walk_below hf
        exact ⟨name', more, by simp [he]⟩
      · simp at hp
    have hrest : ∀ p ∈ (walk at' rest).map Prod.fst, ∀ more, p ≠ at' ++ name :: more := by
      intro p hp more he
      obtain ⟨f, hf, rfl⟩ := mem_map.mp hp
      obtain ⟨name', hn', more', he'⟩ := walk_below hf
      rw [he'] at he
      simp only [append_cancel_left_eq, List.cons.injEq] at he
      exact hn (he.1 ▸ hn')
    simp only [walk, map_cons, map_append, nodup_cons, mem_append, not_or]
    refine ⟨⟨?_, ?_⟩, List.Nodup.append ?_ (ihr hr) ?_⟩
    · intro hp
      obtain ⟨name', more, he⟩ := hin _ hp
      simp at he
    · intro hp
      exact hrest _ hp [] rfl
    · split
      · exact ihi hi
      · simp
    · intro p hp hp'
      obtain ⟨name', more, he⟩ := hin p hp
      exact hrest p hp' (name' :: more) he

/-- No folder below has two entries of one name. -/
def Folder.Distinct : Folder → Prop
  | none => True
  | some (_, inside) => inside.Distinct

theorem t3Files_nodup {userdata : Folder} (hd : userdata.Distinct) :
    ((t3Files userdata).map Prod.fst).Nodup := by
  cases userdata with
  | none => simp [t3Files, Folder.walk]
  | some folder =>
    refine walk_nodup ⟨?_, hd, trivial⟩
    simp [Forest.names]

theorem t3Files_head {userdata : Folder} (hf : f ∈ t3Files userdata) :
    f.1.head? = some "userdata" := by
  cases userdata with
  | none => simp [t3Files, Folder.walk] at hf
  | some folder =>
    obtain ⟨name, hn, more, he⟩ := walk_below hf
    simp only [Forest.names, mem_cons, not_mem_nil, or_false] at hn
    simp [he, hn]

/-! ### Names -/

/-- The endings of a database's side files. -/
def sideSuffixes : List String := ["-journal", "-wal", "-shm"]

/-- The side file of the database at `d` with an ending. -/
def sideFile (d : RelPath) (suffix : String) : RelPath := d.dropLast ++ [baseName d ++ suffix]

/-- A regular file with a database's name. -/
def isDatabaseFile (f : RelPath × FileKind) : Bool :=
  f.2.isRegular && (hasSuffix (baseName f.1) ".sqlite" || hasSuffix (baseName f.1) ".db")

/-- A path that is a side file's of a database in the tree. -/
def IsSideFile (found : List (RelPath × FileKind)) (p : RelPath) : Prop :=
  ∃ f ∈ found, isDatabaseFile f = true ∧ ∃ suffix ∈ sideSuffixes, p = sideFile f.1 suffix

theorem hasSuffix_append (more : String) (h : hasSuffix name suffix = true) :
    hasSuffix (name ++ more) (suffix ++ more) = true := by
  simp only [hasSuffix, isSuffixOf_iff_suffix, String.toList_append] at h ⊢
  obtain ⟨pre, hpre⟩ := h
  exact ⟨pre, by rw [← hpre, append_assoc]⟩

theorem hasSuffix_of_length_le {a b : String} (ha : hasSuffix name a = true)
    (hb : hasSuffix name b = true) (hl : a.toList.length ≤ b.toList.length) :
    hasSuffix b a = true := by
  simp only [hasSuffix, isSuffixOf_iff_suffix] at ha hb ⊢
  exact suffix_of_suffix_length_le ha hb hl

theorem isDatabase_iff :
    isDatabase name = true ↔ ∃ suffix ∈ databaseSuffixes, hasSuffix name suffix = true := by
  simp [isDatabase]

@[simp]
theorem baseName_sideFile (d : RelPath) (suffix : String) :
    baseName (sideFile d suffix) = baseName d ++ suffix := by
  simp [baseName, sideFile]

theorem copied_eq (f : RelPath × FileKind) :
    copied f.1 f.2 = (isDatabaseFile f && baseName f.1 != lockFile) := rfl

theorem isDatabase_of_file (h : isDatabaseFile f = true) :
    isDatabase (baseName f.1) = true := by
  simp only [isDatabaseFile, Bool.and_eq_true, Bool.or_eq_true] at h
  rw [isDatabase_iff]
  rcases h.2 with h | h
  · exact ⟨".sqlite", by simp [databaseSuffixes], h⟩
  · exact ⟨".db", by simp [databaseSuffixes], h⟩

theorem isDatabase_side (hn : hasSuffix name ".sqlite" = true ∨ hasSuffix name ".db" = true)
    (hs : suffix ∈ sideSuffixes) (hj : suffix = "-journal" → hasSuffix name ".sqlite" = true) :
    isDatabase (name ++ suffix) = true := by
  rw [isDatabase_iff]
  by_cases hq : hasSuffix name ".sqlite" = true
  · refine ⟨".sqlite" ++ suffix, ?_, hasSuffix_append suffix hq⟩
    simp only [sideSuffixes, mem_cons, not_mem_nil, or_false] at hs
    rcases hs with rfl | rfl | rfl <;> decide
  · refine ⟨".db" ++ suffix, ?_, hasSuffix_append suffix (hn.resolve_left hq)⟩
    simp only [sideSuffixes, mem_cons, not_mem_nil, or_false] at hs
    rcases hs with rfl | rfl | rfl
    · exact absurd (hj rfl) hq
    · decide
    · decide

theorem isDatabase_journal (hn : hasSuffix name ".db" = true) :
    isDatabase (name ++ "-journal") = false := by
  have hj : hasSuffix (name ++ "-journal") ".db-journal" = true := hasSuffix_append "-journal" hn
  rw [Bool.eq_false_iff]
  intro hd
  obtain ⟨suffix, hs, hsuf⟩ := isDatabase_iff.mp hd
  have hlen := Nat.le_total suffix.toList.length ".db-journal".toList.length
  have hclash : hasSuffix ".db-journal" suffix = true ∨ hasSuffix suffix ".db-journal" = true := by
    rcases hlen with hlen | hlen
    · exact .inl (hasSuffix_of_length_le hsuf hj hlen)
    · exact .inr (hasSuffix_of_length_le hj hsuf hlen)
  clear hlen hsuf
  revert suffix
  decide

theorem side_not_database (name : String) (hs : suffix ∈ sideSuffixes) :
    hasSuffix (name ++ suffix) ".sqlite" = false ∧ hasSuffix (name ++ suffix) ".db" = false := by
  have hself : hasSuffix (name ++ suffix) suffix = true := by
    simp [hasSuffix]
  have key : ∀ a ∈ [".sqlite", ".db"], hasSuffix (name ++ suffix) a = false := by
    intro a ha
    rw [Bool.eq_false_iff]
    intro hd
    have hclash : hasSuffix suffix a = true ∨ hasSuffix a suffix = true := by
      rcases Nat.le_total a.toList.length suffix.toList.length with hlen | hlen
      · exact .inl (hasSuffix_of_length_le hd hself hlen)
      · exact .inr (hasSuffix_of_length_le hself hd hlen)
    clear hself hd
    revert a suffix
    decide
  exact ⟨key _ (by simp), key _ (by simp)⟩

/-! ### The entries at a path

The paths of a walk are distinct, so of each there is at most one entry from either walk; which of
the two has it is decided by the name and type. -/

/-- In a list without two members of one key, a member is the only one with its key. -/
private theorem filter_key {α β : Type} [DecidableEq β] {key : α → β} {l : List α} {x : α}
    (hl : (l.map key).Nodup) (hx : x ∈ l) : l.filter (fun y => key y = key x) = [x] := by
  induction l with
  | nil => simp at hx
  | cons y l ih =>
    rw [map_cons, nodup_cons] at hl
    rcases mem_cons.mp hx with rfl | hx
    · rw [filter_cons_of_pos (by simp)]
      congr 1
      rw [filter_eq_nil_iff]
      intro z hz
      simp only [decide_eq_true_eq]
      exact fun he => hl.1 (he ▸ mem_map_of_mem hz)
    · rw [filter_cons_of_neg, ih hl.2 hx]
      simp only [decide_eq_true_eq]
      exact fun he => hl.1 (he ▸ mem_map_of_mem hx)

theorem treeItem_entry (skipDBs : Bool) (f : RelPath × FileKind) :
    (treeItem skipDBs f).map TarItem.entry =
      if !(skipDBs && isDatabase (baseName f.1)) && f.2 != .other then some f else none := by
  obtain ⟨p, kind⟩ := f
  by_cases hs : (skipDBs && isDatabase (baseName p)) = true
  · simp [treeItem, hs]
  · cases kind <;> simp [treeItem, hs, TarItem.entry, FileKind.isRegular]

theorem treeItems_entries (skipDBs : Bool) (found : List (RelPath × FileKind)) :
    (treeItems skipDBs found).map TarItem.entry =
      found.filter fun f => !(skipDBs && isDatabase (baseName f.1)) && f.2 != .other := by
  rw [treeItems, map_filterMap, ← filterMap_eq_filter]
  congr 1
  funext f
  rw [treeItem_entry, Option.guard]

@[simp]
theorem copyItem_entry (p : RelPath) (copy : Bytes) :
    (copyItem p copy).entry = (p, .regular copy) := by
  simp [copyItem, TarItem.entry, FileKind.isRegular]

/-- What SQLite copied of the database at `p`. -/
def copyAt (vacuumInto : RelPath → Except IOErr Bytes) (p : RelPath) : Bytes :=
  match vacuumInto p with
  | .ok copy => copy
  | .error _ => []

theorem mapM_copies {vacuumInto : RelPath → Except IOErr Bytes} {dbs : List (RelPath × FileKind)}
    {copies : List (RelPath × Bytes)}
    (h : dbs.mapM (copyDatabase vacuumInto) = Except.ok copies) :
    (∀ f ∈ dbs, vacuumInto f.1 = .ok (copyAt vacuumInto f.1)) ∧
      copies = dbs.map fun f => (f.1, copyAt vacuumInto f.1) := by
  induction dbs generalizing copies with
  | nil =>
    rw [mapM_nil] at h
    cases h
    simp
  | cons f dbs ih =>
    rw [mapM_cons] at h
    cases hv : vacuumInto f.1 with
    | error e => simp [copyDatabase, hv, Except.map, bind, Except.bind] at h
    | ok copy =>
      have hat : copyAt vacuumInto f.1 = copy := by simp [copyAt, hv]
      cases hr : dbs.mapM (copyDatabase vacuumInto) with
      | error e => simp [copyDatabase, hv, hr, Except.map, bind, Except.bind] at h
      | ok more =>
        obtain ⟨hall, hmore⟩ := ih hr
        simp only [copyDatabase, hv, hr, Except.map, bind, Except.bind, pure, Except.pure,
          Except.ok.injEq] at h
        refine ⟨?_, ?_⟩
        · simp only [mem_cons, forall_eq_or_imp]
          exact ⟨by rw [hv, hat], hall⟩
        · rw [← h, hmore, map_cons, hat]

section Archive

variable {vacuumInto : RelPath → Except IOErr Bytes} {userdata : Folder} {index : Bytes}
  {copies t3dbs : List (RelPath × Bytes)} {others : OtherItems}

/-- The entries of the archive. -/
def stateEntries (index : Bytes) (userdata : Folder) (t3dbs : List (RelPath × Bytes))
    (others : OtherItems) : List (RelPath × FileKind) :=
  (stateItems index (t3Files userdata) t3dbs others).map TarItem.entry

/-- The copies' part of the archive, as `copyDatabases` walks. -/
private def copyEntries (vacuumInto : RelPath → Except IOErr Bytes)
    (found : List (RelPath × FileKind)) : List (RelPath × FileKind) :=
  (found.filter fun f => copied f.1 f.2).map fun f => (f.1, .regular (copyAt vacuumInto f.1))

private theorem copyEntries_perm
    (hc : copyDatabases vacuumInto (t3Files userdata) = .ok copies) (hp : t3dbs.Perm copies) :
    ((t3dbs.map fun c => copyItem c.1 c.2).map TarItem.entry).Perm
      (copyEntries vacuumInto (t3Files userdata)) := by
  obtain ⟨-, rfl⟩ := mapM_copies hc
  have h := (hp.map fun c => copyItem c.1 c.2).map TarItem.entry
  refine h.trans (List.Perm.of_eq ?_)
  simp [copyEntries, Function.comp_def]

/-- An entry of the archive with a path in T3's folder comes of one of the two walks. -/
theorem mem_stateEntries_t3 (hc : copyDatabases vacuumInto (t3Files userdata) = .ok copies)
    (hp : t3dbs.Perm copies) {e : RelPath × FileKind}
      (he : e ∈ stateEntries index userdata t3dbs others)
    (hh : e.1.head? = some "userdata") :
    (e ∈ t3Files userdata ∧ isDatabase (baseName e.1) = false ∧ e.2 ≠ .other) ∨
      ∃ f ∈ t3Files userdata, copied f.1 f.2 = true ∧ e.1 = f.1 := by
  simp only [stateEntries, stateItems, map_cons, map_append, mem_cons,
    mem_append] at he
  -- the index and the other folders have other first names
  have hother : ∀ {items : List TarItem} {root : String},
      (∀ it ∈ items, it.name.head? = some root) → root ≠ "userdata" →
      e ∉ items.map TarItem.entry := by
    intro items root hroot hne hmem
    obtain ⟨it, hit, rfl⟩ := mem_map.mp hmem
    have heq := (hroot it hit).symm.trans hh
    exact hne (Option.some.inj heq)
  rcases he with rfl | he | he | he | he | he
  · simp [copyItem, TarItem.entry] at hh
  · rw [treeItems_entries, mem_filter] at he
    exact .inl ⟨he.1, by simpa using he.2⟩
  · exact absurd he (hother others.repos_below (by decide))
  · exact absurd he (hother others.projects_below (by decide))
  · have hmem := (copyEntries_perm hc hp).mem_iff.mp he
    obtain ⟨f, hf, rfl⟩ := mem_map.mp hmem
    rw [mem_filter] at hf
    exact .inr ⟨f, hf.1, hf.2, rfl⟩
  · exact absurd he (hother others.claudes_below (by decide))

/-- **The entries at a path of T3's folder**: the file itself unless `addTree` leaves it out, and
SQLite's copy if `copyDatabases` made one. -/
theorem stateEntries_at (hd : userdata.Distinct)
    (hc : copyDatabases vacuumInto (t3Files userdata) = .ok copies) (hp : t3dbs.Perm copies)
    (hf : f ∈ t3Files userdata) :
    (stateEntries index userdata t3dbs others).filter (fun e => e.1 = f.1) =
      (if !isDatabase (baseName f.1) && f.2 != .other then [f] else []) ++
        (if copied f.1 f.2 then [(f.1, .regular (copyAt vacuumInto f.1))] else []) := by
  have hnd := t3Files_nodup hd
  have hhead := t3Files_head hf
  have hnone : ∀ {items : List TarItem} {root : String},
      (∀ it ∈ items, it.name.head? = some root) → root ≠ "userdata" →
      (items.map TarItem.entry).filter (fun e => e.1 = f.1) = [] := by
    intro items root hroot hne
    rw [filter_eq_nil_iff]
    intro e he
    obtain ⟨it, hit, rfl⟩ := mem_map.mp he
    simp only [decide_eq_true_eq]
    intro heq
    have hroot' := hroot it hit
    have hname : it.name = f.1 := heq
    rw [hname, hhead] at hroot'
    exact hne (Option.some.inj hroot').symm
  -- each walk's part, filtered by the path first
  have htree : ((treeItems true (t3Files userdata)).map TarItem.entry).filter (fun e => e.1 = f.1) =
      if !isDatabase (baseName f.1) && f.2 != .other then [f] else [] := by
    rw [treeItems_entries, filter_comm, filter_key hnd hf]
    simp [filter_cons]
  have hcopies : ((t3dbs.map fun c => copyItem c.1 c.2).map TarItem.entry).filter
      (fun e => e.1 = f.1) =
        if copied f.1 f.2 then [(f.1, .regular (copyAt vacuumInto f.1))] else [] := by
    have hperm := (copyEntries_perm hc hp).filter fun e => e.1 = f.1
    have heq : (copyEntries vacuumInto (t3Files userdata)).filter (fun e => e.1 = f.1) =
        if copied f.1 f.2 then [(f.1, .regular (copyAt vacuumInto f.1))] else [] := by
      rw [copyEntries, filter_map, Function.comp_def]
      dsimp only
      rw [filter_comm, filter_key hnd hf]
      by_cases hcop : copied f.1 f.2 = true <;> simp [hcop]
    rw [heq] at hperm
    by_cases hcop : copied f.1 f.2 = true
    · rw [if_pos hcop] at hperm ⊢
      exact perm_singleton.mp hperm
    · rw [if_neg hcop] at hperm ⊢
      exact perm_nil.mp hperm
  have hindex : (copyItem ["fern.sqlite"] index).entry.1 ≠ f.1 := by
    intro heq
    rw [← heq] at hhead
    simp at hhead
  simp only [stateEntries, stateItems, map_cons, map_append]
  rw [filter_cons_of_neg (by simpa using hindex), filter_append, filter_append,
    filter_append, filter_append, htree, hcopies, hnone others.repos_below (by decide),
    hnone others.projects_below (by decide), hnone others.claudes_below (by decide)]
  simp

/-! ### What the archive should hold

Both directions are about names: a name the walks disagree on gives a path with no entry, or with
one too many. -/

/-- What the archive should hold of T3's folder: everything but the lock file and the databases'
side files, once and under its own path, the databases as SQLite's copies, and no side file of a
database that went in as a copy. -/
structure ArchiveExact (vacuumInto : RelPath → Except IOErr Bytes)
    (found entries : List (RelPath × FileKind)) : Prop where
  once : ∀ f ∈ found, f.2 ≠ .other → ¬(f.2.isRegular = true ∧ baseName f.1 = lockFile) →
    ¬IsSideFile found f.1 → ∃ kind, entries.filter (fun e => e.1 = f.1) = [(f.1, kind)] ∧
      if isDatabaseFile f then ∃ copy, vacuumInto f.1 = .ok copy ∧ kind = .regular copy
      else kind = f.2
  noSide : ∀ f ∈ found, copied f.1 f.2 = true → ∀ suffix ∈ sideSuffixes,
    sideFile f.1 suffix ∉ entries.map Prod.fst

/-- The names of a tree fit the two walks: what `isDatabase` takes for a part of a database is a
regular database file or lies beside one, and no `.db` has a `-journal`. -/
structure NamesFit (found : List (RelPath × FileKind)) : Prop where
  parts : ∀ f ∈ found, f.2 ≠ .other → isDatabase (baseName f.1) = true →
    isDatabaseFile f = true ∨ IsSideFile found f.1
  journals : ∀ f ∈ found, copied f.1 f.2 = true → ∀ g ∈ found, g.2 ≠ .other →
    g.1 = sideFile f.1 "-journal" → hasSuffix (baseName f.1) ".sqlite" = true

private theorem isDatabaseFile_of_copied (h : copied f.1 f.2 = true) :
    isDatabaseFile f = true ∧ baseName f.1 ≠ lockFile := by
  rw [copied_eq] at h
  simpa using h

private theorem database_name (h : isDatabaseFile f = true) :
    hasSuffix (baseName f.1) ".sqlite" = true ∨ hasSuffix (baseName f.1) ".db" = true := by
  simp only [isDatabaseFile, Bool.and_eq_true, Bool.or_eq_true] at h
  exact h.2

private theorem sideFile_head (hf : f ∈ t3Files userdata) (hdb : isDatabaseFile f = true)
    (suffix : String) :
    (sideFile f.1 suffix).head? = some "userdata" := by
  obtain ⟨p, kind⟩ := f
  have hhead := t3Files_head hf
  match p, hhead with
  | [name], hhead =>
    -- the folder itself has no database's name
    simp only [head?_cons, Option.some.injEq] at hhead
    subst hhead
    have hname := database_name hdb
    dsimp only at hname
    exact absurd hname (by decide)
  | name :: name' :: more, hhead => simpa [sideFile, List.dropLast] using hhead

private theorem namesFit_of_exact (hd : userdata.Distinct)
    (hc : copyDatabases vacuumInto (t3Files userdata) = .ok copies) (hp : t3dbs.Perm copies)
    (h : ArchiveExact vacuumInto (t3Files userdata) (stateEntries index userdata t3dbs others)) :
    NamesFit (t3Files userdata) where
  parts f hf hother hdb := by
    by_contra hneither
    rw [not_or] at hneither
    obtain ⟨hfile, hside⟩ := hneither
    have hlock : ¬(f.2.isRegular = true ∧ baseName f.1 = lockFile) := by
      rintro ⟨hreg, hname⟩
      refine hfile ?_
      rw [isDatabaseFile, hreg, hname]
      decide
    obtain ⟨kind, hat, -⟩ := h.once f hf hother hlock hside
    rw [stateEntries_at hd hc hp hf, copied_eq] at hat
    simp [hdb, hfile] at hat
  journals f hf hcop g hg hother hname := by
    by_contra hsqlite
    obtain ⟨hfile, -⟩ := isDatabaseFile_of_copied hcop
    have hdb := (database_name hfile).resolve_left hsqlite
    refine h.noSide f hf hcop "-journal" (by simp [sideSuffixes]) ?_
    have hnot : isDatabase (baseName g.1) = false := by
      rw [hname, baseName_sideFile]
      exact isDatabase_journal hdb
    have hmem : g ∈ (stateEntries index userdata t3dbs others).filter (fun e => e.1 = g.1) := by
      rw [stateEntries_at hd hc hp hg]
      simp [hnot, hother]
    rw [← hname]
    exact mem_map_of_mem (mem_of_mem_filter hmem)

/-- Names that fit are divided between the walks with nothing lost and no side file kept. -/
private theorem exact_of_namesFit (hd : userdata.Distinct)
    (hc : copyDatabases vacuumInto (t3Files userdata) = .ok copies) (hp : t3dbs.Perm copies)
    (h : NamesFit (t3Files userdata)) :
    ArchiveExact vacuumInto (t3Files userdata) (stateEntries index userdata t3dbs others) where
  once f hf hother hlock hside := by
    rw [stateEntries_at hd hc hp hf]
    by_cases hdb : isDatabase (baseName f.1) = true
    · have hfile := (h.parts f hf hother hdb).resolve_right hside
      have hreg : f.2.isRegular = true := by
        simp only [isDatabaseFile, Bool.and_eq_true] at hfile
        exact hfile.1
      have hcop : copied f.1 f.2 = true := by
        rw [copied_eq, hfile]
        simpa using fun hname => hlock ⟨hreg, hname⟩
      refine ⟨.regular (copyAt vacuumInto f.1), by simp [hdb, hcop], ?_⟩
      rw [if_pos hfile]
      have hcopy := (mapM_copies hc).1 f (mem_filter.mpr ⟨hf, hcop⟩)
      exact ⟨_, hcopy, rfl⟩
    · have hfile : ¬isDatabaseFile f = true := fun hfile => hdb (isDatabase_of_file hfile)
      have hcop : copied f.1 f.2 = false := by
        rw [copied_eq]
        simp [hfile]
      refine ⟨f.2, by simp [hdb, hcop, hother], ?_⟩
      rw [if_neg hfile]
  noSide f hf hcop suffix hs hmem := by
    obtain ⟨e, he, hname⟩ := mem_map.mp hmem
    obtain ⟨hfile, -⟩ := isDatabaseFile_of_copied hcop
    have hhead : e.1.head? = some "userdata" := hname ▸ sideFile_head hf hfile suffix
    have hbase : baseName e.1 = baseName f.1 ++ suffix := by rw [hname, baseName_sideFile]
    rcases mem_stateEntries_t3 hc hp he hhead with ⟨het, hnot, hother⟩ | ⟨g, -, hcop', heq⟩
    · -- `addTree` left it in: only the journal of a `.db` gets by
      have hdb := isDatabase_side (database_name hfile) hs fun hj =>
        h.journals f hf hcop e het hother (hj ▸ hname)
      rw [hbase, hdb] at hnot
      simp at hnot
    · -- a copy has a database's name
      obtain ⟨hq, hdb⟩ := side_not_database (baseName f.1) hs
      have hname' := database_name (isDatabaseFile_of_copied hcop').1
      rw [← heq, hbase, hq, hdb] at hname'
      simp at hname'

/-- **The state archive holds all of T3's folder and no database's side file exactly if the names
in it fit.**  For every tree and every order the copies are added in, an archive made without an
error is the whole archive of its items; it holds everything as it should iff nothing in the
tree is named like a part of a database without being one, and no `.db` has a `-journal`. -/
theorem state_archive_exact_iff (encode : TarHeader → Bytes) (hd : userdata.Distinct)
    (hc : copyDatabases vacuumInto (t3Files userdata) = .ok copies) (hp : t3dbs.Perm copies)
    (he : (writeState encode (stateItems index (t3Files userdata) t3dbs others)).2 = none) :
    (writeState encode (stateItems index (t3Files userdata) t3dbs others)).1 =
        archiveOf encode (stateItems index (t3Files userdata) t3dbs others) ∧
      (ArchiveExact vacuumInto (t3Files userdata) (stateEntries index userdata t3dbs others) ↔
        NamesFit (t3Files userdata)) :=
  ⟨(writeState_ok he).1, namesFit_of_exact hd hc hp, exact_of_namesFit hd hc hp⟩

end Archive

/-! ### A journal that is kept -/

/-- T3's folder with one database that has a rollback journal. -/
def journalFolder : Folder :=
  some (.dir, .cons "x.db" (.regular [1]) .nil (.cons "x.db-journal" (.regular [2]) .nil .nil))

/-- No other folders. -/
def noOthers : OtherItems := ⟨[], [], [], by simp, by simp, by simp⟩

/-- The rollback journal of a database goes into the archive beside the database's copy. -/
theorem journal_kept_beside_copy :
    copyDatabases (fun _ => .ok [3]) (t3Files journalFolder) = .ok [(["userdata", "x.db"], [3])] ∧
      (writeState (fun _ => []) (stateItems [] (t3Files journalFolder)
        [(["userdata", "x.db"], [3])] noOthers)).2 = none ∧
      (["userdata", "x.db"], FileKind.regular [3]) ∈
        stateEntries [] journalFolder [(["userdata", "x.db"], [3])] noOthers ∧
      (["userdata", "x.db-journal"], FileKind.regular [2]) ∈
        stateEntries [] journalFolder [(["userdata", "x.db"], [3])] noOthers ∧
      ¬ArchiveExact (fun _ => .ok [3]) (t3Files journalFolder)
        (stateEntries [] journalFolder [(["userdata", "x.db"], [3])] noOthers) := by
  refine ⟨by rfl, by rfl, by decide, by decide, ?_⟩
  intro h
  exact h.noSide (["userdata", "x.db"], .regular [1]) (by decide) (by decide) "-journal"
    (by decide) (by decide)

/-- T3's folder with a database, its `-wal` and another file. -/
def walFolder : Folder :=
  some (.dir, .cons "x.db" (.regular [1]) .nil (.cons "x.db-wal" (.regular [2]) .nil
    (.cons "log" (.regular [4]) .nil .nil)))

/-- Its names fit, so the archive has the file as it is, the database's copy, and no `-wal`. -/
theorem state_archive_exact_wal :
    NamesFit (t3Files walFolder) ∧
      ArchiveExact (fun _ => .ok [3]) (t3Files walFolder)
        (stateEntries [] walFolder [(["userdata", "x.db"], [3])] noOthers) := by
  have hfit : NamesFit (t3Files walFolder) := ⟨by unfold IsSideFile; decide, by decide⟩
  have hdistinct : walFolder.Distinct :=
    ⟨by decide, trivial, by decide, trivial, by decide, trivial, trivial⟩
  exact ⟨hfit, (state_archive_exact_iff (fun _ => []) hdistinct (by rfl) (List.Perm.refl _)
    (by rfl)).2.mpr hfit⟩

end Fern
