/-
What a restore brings back.

The chains of a whole manifest can be received, in any order of its environments, and each leaves
its last snapshot at its workspace unless one with the same path came before it.  So the restored
pool has exactly the folders the manifest and the archive speak of, and whether it can be served is
a matter of the environments for which they differ.
-/
import Fern.Backup.Restore
import Fern.Proofs.Backup.Placed
import Fern.Proofs.Store.Landed

namespace Fern

open List

variable {T : Type} {b : FinMap Key (Object T)} {m : Manifest} {id : EnvID} {eb : EnvBackup}
  {tip : Option (SnapID × Gen)} {done : List EnvID} {l : List Send}

/-! ### Chains received -/

theorem Chain.before (h : Chain b id l tip) {s : Send} (hs : s ∈ l) :
    ∃ l' l'' tip' st, l = l' ++ s :: l'' ∧ Chain b id l' tip' ∧
      b.get (.send id s.snapshot) = some (.send st) ∧ st.parent = tip' := by
  induction h with
  | nil => contradiction
  | @send l tip h st hget hparent ih =>
    rcases mem_append.mp hs with hs | hs
    · obtain ⟨l', l'', tip', st', hl, hrest⟩ := ih hs
      exact ⟨l', l'' ++ [⟨st.snapshot, .send id st.snapshot⟩], tip', st', by simp [hl], hrest⟩
    · rw [mem_singleton] at hs
      subst hs
      exact ⟨l, [], tip, st, rfl, h, hget, hparent⟩

/-- No name is in a chain twice: an object has one parent, so the chain would go round. -/
theorem Chain.nodup (h : Chain b id l tip) :
    (l.map Send.snapshot).Nodup := by
  induction h with
  | nil => exact nodup_nil
  | @send l tip h st hget hparent ih =>
    have hnew : st.snapshot ∉ l.map Send.snapshot := by
      intro hmem
      obtain ⟨s, hs, hname⟩ := mem_map.mp hmem
      obtain ⟨l', l'', tip', st', hl, h', hget', hparent'⟩ := h.before hs
      rw [hname, hget] at hget'
      obtain rfl : st = st' := by simpa using hget'
      obtain rfl : tip = tip' := hparent.symm.trans hparent'
      cases tip with
      | none =>
        cases h with
        | nil => contradiction
      | some y =>
        -- the chain ends with a name it has before
        obtain ⟨-, hlast, -⟩ := h.last
        obtain ⟨-, hlast', -⟩ := h'.last
        obtain ⟨init, hinit⟩ := getLast?_eq_some_iff.mp hlast'
        have hend : ⟨y.1, .send id y.1⟩ ∈ s :: l'' := by
          rw [hl, getLast?_append_of_ne_nil _ (by simp)] at hlast
          exact mem_of_getLast? hlast
        rw [hl, hinit, map_append, nodup_append] at ih
        exact ih.2.2 y.1 (by simp) y.1 (mem_map.mpr ⟨_, hend, rfl⟩) rfl
    rw [map_append, map_singleton]
    refine nodup_append.mpr ⟨ih, nodup_singleton _, ?_⟩
    intro x hx y hy hxy
    obtain rfl : y = st.snapshot := mem_singleton.mp hy
    exact hnew (hxy ▸ hx)

/-- The snapshot a send brings. -/
def sent (b : FinMap Key (Object T)) (id : EnvID) (x : SnapID) : Option (Node T) :=
  match b.get (.send id x) with
  | some (.send st) => some (.subvol st.tree false)
  | _ => none

/-- Whether a path is one that workspaces are at. -/
def Path.canWork : Path → Bool
  | .live _ | .worktree _ _ => true
  | _ => false

theorem Path.IsWorkspace.canWork {w : Path} (h : Path.IsWorkspace id w) : w.canWork = true := by
  cases h with
  | live => rfl
  | worktree r n => rfl

namespace Backup

theorem receive_chain (h : Chain b id l tip) {p : Pool T}
    (hnone : ∀ x, p.node (.snap id x) = none) :
    ∃ q, l.foldlM (receive b id) p = .ok q ∧
      (∀ path, (∀ x, path ≠ .snap id x) → q.node path = p.node path) ∧
      ∀ x, q.node (.snap id x) = if x ∈ l.map Send.snapshot then sent b id x else none := by
  induction h with
  | nil => exact ⟨p, rfl, fun _ _ => rfl, by simpa using hnone⟩
  | @send l tip h st hget hparent ih =>
    obtain ⟨q, hq, hother, hsnap⟩ := ih
    have hnodup := (h.send st hget hparent).nodup
    have hnew : st.snapshot ∉ l.map Send.snapshot := by
      rw [map_append, nodup_append] at hnodup
      intro hmem
      exact hnodup.2.2 _ hmem _ mem_cons_self rfl
    have hfree : q.node (.snap id st.snapshot) = none := by rw [hsnap, if_neg hnew]
    have hfrom : (st.parent.all fun y =>
        ((q.node (.snap id y.1)).map Node.isSubvolume).getD false) = true := by
      rw [hparent]
      cases tip with
      | none => rfl
      | some y =>
        obtain ⟨st', hlast, hget', -⟩ := h.last
        have hmem : y.1 ∈ l.map Send.snapshot :=
          mem_map.mpr ⟨_, mem_of_getLast? hlast, rfl⟩
        rw [Option.all_some, hsnap, if_pos hmem, sent, hget']
        rfl
    refine ⟨q.put (.snap id st.snapshot) (.subvol st.tree false), ?_, fun path hpath => ?_,
      fun x => ?_⟩
    · have hone : receive b id q ⟨st.snapshot, .send id st.snapshot⟩ =
          .ok (q.put (.snap id st.snapshot) (.subvol st.tree false)) := by
        simp only [receive, hget, hfrom, hfree, if_true]
      rw [foldlM_append, hq]
      show List.foldlM (receive b id) q [⟨st.snapshot, .send id st.snapshot⟩] = _
      rw [foldlM_cons, hone]
      rfl
    · rw [Pool.node_put, if_neg (hpath st.snapshot)]
      exact hother path hpath
    · rw [Pool.node_put]
      by_cases hx : x = st.snapshot
      · subst hx
        simp [sent, hget]
      · simp [hx, hsnap]

/-! ### Workspaces put back -/

/-- A workspace with the files `tree?` is there, or none is. -/
def Found (tree? : Option T) (n? : Option (Node T)) : Prop :=
  tree?.elim (n? = none) fun tree => ∃ nested, n? = some (.subvol tree nested)

/-- The pool once the environments `done` are restored: of those with one workspace the first one
has its files there. -/
structure Restored (b : FinMap Key (Object T)) (m : Manifest) (done : List EnvID) (p : Pool T) :
    Prop where
  dir : ∀ e, p.node (.envDir e) = if e ∈ done then some .dir else none
  snaps : ∀ e, p.node (.snapsDir e) = if e ∈ done then some .dir else none
  snap : ∀ e x, p.node (.snap e x) ≠ none → e ∈ done ∧ b.get (.send e x) ≠ none
  repo : ∀ r n, p.node (.repo r) = some n → n = .dir
  work : ∀ e w, Path.IsWorkspace e w → Found (done.findSome? (m.at? b w)) (p.node w)
  restore : ∀ e, p.node (.restore e) = none
  adopt : ∀ e, p.node (.adopt e) = none
  marker : ∀ e, p.node (.marker e) = none
  claude : ∀ e, p.node (.claude e) = none

theorem Restored.start {p : Pool T} (h : p.Empty) : Restored b m [] p where
  dir e := h _
  snaps e := h _
  snap e x hx := absurd (h _) hx
  repo r n hn := by rw [h] at hn; contradiction
  work e w _ := h w
  restore e := h _
  adopt e := h _
  marker e := h _
  claude e := h _

section

variable [Tree T] {p : Pool T}

theorem run_mkdir {d : Path} (hfresh : (Op.freshDir d : Node T) = .dir)
    (hparent : p.hasParent d = true)
    (hd : ∀ n, p.node d = some n → n = .dir) :
    ∃ q, (Op.mkdir d).run p = .ok q ∧ q.node d = some .dir ∧
      (∀ path, path ≠ d → q.node path = p.node path) ∧
      q.index = p.index := by
  cases hn : p.node d with
  | none =>
    refine ⟨p.put d .dir, ?_, by simp, fun path hpath => by simp [hpath], rfl⟩
    simp [Op.run, hn, hparent, hfresh]
  | some n =>
    obtain rfl := hd n hn
    exact ⟨p, by simp [Op.run, hn, Node.isDir], hn, fun _ _ => rfl, rfl⟩

theorem mkdirParent_ok {w : Path} (hw : Path.IsWorkspace id w)
    (hdir : p.node (.envDir id) = some .dir)
    (hrepo : ∀ r n, p.node (.repo r) = some n → n = .dir) :
    ∃ q, mkdirParent w p = .ok q ∧ q.hasParent w = true ∧
      (∀ path, (∀ r, path ≠ .repo r) → q.node path = p.node path) ∧
      ∀ r n, q.node (.repo r) = some n → n = .dir := by
  cases hw with
  | live =>
    refine ⟨p, ?_, Pool.hasParent_of_dir rfl hdir, fun _ _ => rfl, hrepo⟩
    simp [mkdirParent, Path.parent?, Op.run, hdir, Node.isDir]
  | worktree r n =>
    obtain ⟨q, hq, hnode, hother, -⟩ := run_mkdir (p := p) (d := .repo r) rfl rfl (hrepo r)
    refine ⟨q, hq, Pool.hasParent_of_dir rfl hnode, fun path hpath => hother path (hpath r),
      fun r' n' hn' => ?_⟩
    by_cases hr : r' = r
    · subst hr
      rw [hnode] at hn'
      exact (Option.some.inj hn').symm
    · rw [hother _ (by simp [hr])] at hn'
      exact hrepo r' n' hn'

theorem snapshotTo_ok {source w : Path} {tree : T} {tree? : Option T}
    (hsource : p.node source = some (.subvol tree false)) (hparent : p.hasParent w = true)
    (hfound : Found tree? (p.node w)) :
    ∃ q, snapshotTo source w p = .ok q ∧ Found (tree?.or (some tree)) (q.node w) ∧
      ∀ path, path ≠ w → q.node path = p.node path := by
  cases tree? with
  | none =>
    have hnone : p.node w = none := hfound
    refine ⟨(p.own w (p.owner source)).put w (.subvol tree false), ?_, ⟨false, by simp⟩,
      fun path hpath => by simp [hpath]⟩
    simp [snapshotTo, Op.run, hnone, hsource, hparent]
  | some tree' =>
    obtain ⟨nested, hn⟩ := hfound
    refine ⟨p.put w (.subvol tree' true), ?_, ⟨true, by simp⟩, fun path hpath => by simp [hpath]⟩
    simp [snapshotTo, hn, Node.isDir, Node.nest]

/-- **Restoring one more environment.** -/
theorem Restored.next (h : Restored b m done p) (hid : id ∉ done) (heb : m.envs.get id = some eb)
    (hchained : Chained b id eb) (hws : Path.IsWorkspace id eb.workspace) :
    ∃ q, restoreEnv b id eb p = .ok q ∧ Restored b m (done ++ [id]) q := by
  obtain ⟨x, hx⟩ := hchained.chain
  obtain ⟨st, hlast, hget, -⟩ := hx.last
  -- its folders
  obtain ⟨p₁, hp₁, hdir₁, hother₁, -⟩ := run_mkdir (p := p) (d := .envDir id) rfl rfl
    (by simp [h.dir, hid])
  obtain ⟨p₂, hp₂, hsnaps₂, hother₂, -⟩ := run_mkdir (p := p₁) (d := .snapsDir id) rfl
    (Pool.hasParent_of_dir rfl hdir₁) (by rw [hother₁ _ (by simp), h.snaps]; simp [hid])
  -- its sends
  obtain ⟨p₃, hp₃, hother₃, hsnap₃⟩ := receive_chain hx (p := p₂) fun x => by
    rw [hother₂ _ (by simp), hother₁ _ (by simp)]
    by_contra hc
    exact hid (h.snap id x hc).1
  have hdir₃ : p₃.node (.envDir id) = some .dir := by
    rw [hother₃ _ (by simp), hother₂ _ (by simp), hdir₁]
  have hsame₃ : ∀ path, path ≠ .envDir id → path ≠ .snapsDir id → (∀ x, path ≠ .snap id x) →
      p₃.node path = p.node path := by
    intro path h₁ h₂ h₃
    rw [hother₃ _ h₃, hother₂ _ h₂, hother₁ _ h₁]
  -- and its workspace
  obtain ⟨p₄, hp₄, hparent₄, hother₄, hrepo₄⟩ := mkdirParent_ok hws hdir₃ fun r n hn =>
    h.repo r n (by rw [← hn, hsame₃ _ (by simp) (by simp) (by simp)])
  have hsource : p₄.node (.snap id x) = some (.subvol st.tree false) := by
    rw [hother₄ _ (by simp), hsnap₃, if_pos (mem_map.mpr ⟨_, mem_of_getLast? hlast, rfl⟩),
      sent, hget]
  have hold : ∀ e w, Path.IsWorkspace e w → p₄.node w = p.node w := by
    intro e w hw
    rw [hother₄ _ (by cases hw <;> simp)]
    exact hsame₃ _ (by cases hw <;> simp) (by cases hw <;> simp) (by cases hw <;> simp)
  obtain ⟨q, hq, hfound, hother⟩ := snapshotTo_ok hsource hparent₄
    (by rw [hold id _ hws]; exact h.work id _ hws)
  have hsame : ∀ path, path ≠ eb.workspace → (∀ r, path ≠ .repo r) → q.node path = p₃.node path :=
    fun path hpath hrepo => by rw [hother _ hpath, hother₄ _ hrepo]
  have hne : ∀ path, path.canWork = false → path ≠ eb.workspace := by
    rintro path hpath rfl
    rw [hws.canWork] at hpath
    contradiction
  have hrest : ∀ path, path.canWork = false → (∀ r, path ≠ .repo r) →
      path ≠ .envDir id → path ≠ .snapsDir id → (∀ x, path ≠ .snap id x) →
      q.node path = p.node path := by
    intro path hpath hrepo h₁ h₂ h₃
    rw [hsame _ (hne path hpath) hrepo, hsame₃ _ h₁ h₂ h₃]
  refine ⟨q, ?_, ?_⟩
  · simp only [restoreEnv, bind, Except.bind, hp₁, hp₂, hp₃, hlast, hp₄]
    exact hq
  have hdone : ∀ e, e ∈ done ++ [id] ↔ e ∈ done ∨ e = id := by simp
  have hnone : ∀ {path : Path}, path.canWork = false → (∀ r, path ≠ .repo r) →
      path ≠ .envDir id → path ≠ .snapsDir id → (∀ x, path ≠ .snap id x) → p.node path = none →
      q.node path = none := fun h₁ h₂ h₃ h₄ h₅ hn => (hrest _ h₁ h₂ h₃ h₄ h₅).trans hn
  refine ⟨fun e => ?_, fun e => ?_, fun e y hy => ?_, fun r n hn => ?_, fun e w hw => ?_,
    fun e => ?_, fun e => ?_, fun e => ?_, fun e => ?_⟩
  · by_cases he : e = id
    · subst he
      rw [hsame _ (hne _ rfl) (by simp), hdir₃]
      simp
    · rw [hrest _ rfl (by simp) (by simpa using he) (by simp) (by simp), h.dir]
      simp [he]
  · by_cases he : e = id
    · subst he
      rw [hsame _ (hne _ rfl) (by simp), hother₃ _ (by simp), hsnaps₂]
      simp
    · rw [hrest _ rfl (by simp) (by simp) (by simpa using he) (by simp), h.snaps]
      simp [he]
  · by_cases he : e = id
    · subst he
      rw [hsame _ (hne _ rfl) (by simp), hsnap₃] at hy
      refine ⟨by simp, fun hc => hy ?_⟩
      simp [sent, hc]
    · rw [hrest _ rfl (by simp) (by simp) (by simp) (by simp [he])] at hy
      exact ⟨(hdone e).mpr (.inl (h.snap e y hy).1), (h.snap e y hy).2⟩
  · rw [hother _ (hne _ rfl)] at hn
    exact hrepo₄ r n hn
  · rw [findSome?_append]
    by_cases hw' : w = eb.workspace
    · subst hw'
      have htree : [id].findSome? (m.at? b eb.workspace) = some st.tree := by
        simp [Manifest.at?, heb, EnvBackup.tree?, hlast, hget]
      rw [htree]
      exact hfound
    · have htree : [id].findSome? (m.at? b w) = none := by
        simp [Manifest.at?, heb, Ne.symm hw']
      rw [htree, Option.or_none, hother _ hw', hold e w hw]
      exact h.work e w hw
  · exact hnone rfl (by simp) (by simp) (by simp) (by simp) (h.restore e)
  · exact hnone rfl (by simp) (by simp) (by simp) (by simp) (h.adopt e)
  · exact hnone rfl (by simp) (by simp) (by simp) (by simp) (h.marker e)
  · exact hnone rfl (by simp) (by simp) (by simp) (by simp) (h.claude e)

theorem Restored.all {rest : List EnvID} (h : Restored b m done p) (hwhole : m.Whole b)
    (hplaced : m.Placed) (hnodup : (done ++ rest).Nodup) (hrest : ∀ e ∈ rest, m.envs.get e ≠ none) :
    ∃ q, rest.foldlM (restoreNext b m) p = .ok q ∧ Restored b m (done ++ rest) q := by
  induction rest generalizing done p with
  | nil => exact ⟨p, rfl, by simpa using h⟩
  | cons e rest ih =>
    obtain ⟨eb, heb⟩ := Option.ne_none_iff_exists'.mp (hrest e mem_cons_self)
    have hnew : e ∉ done := fun hmem =>
      (nodup_append.mp hnodup).2.2 e hmem e mem_cons_self rfl
    obtain ⟨q, hq, hnext⟩ := h.next hnew heb (hwhole.chains e eb heb) (hplaced e eb heb)
    rw [append_cons] at hnodup ⊢
    obtain ⟨q', hq', hall⟩ := ih hnext hnodup fun e' he' => hrest e' (mem_cons_of_mem _ he')
    refine ⟨q', ?_, hall⟩
    rw [foldlM_cons, restoreNext, heb]
    simp only [hq, bind, Except.bind]
    exact hq'

/-! ### The state around them -/

/-- `q` is `p` with Claude's folders of the environments `done`. -/
structure Extracted (p : Pool T) (done : List EnvID) (q : Pool T) : Prop where
  index : q.index = p.index
  node : ∀ path, (∀ e, path ≠ .envDir e) → (∀ e, path ≠ .claude e) → q.node path = p.node path
  dir : ∀ e, q.node (.envDir e) = if e ∈ done then some .dir else p.node (.envDir e)
  claude : ∀ e, e ∉ done → q.node (.claude e) = p.node (.claude e)

theorem Extracted.next {q : Pool T} {a : Archive T} (h : Extracted p done q)
    (hdirs : ∀ e n, p.node (.envDir e) = some n → n = .dir) (hnone : p.node (.claude id) = none)
    (hid : id ∉ done) (hclaude : a.claudes.get id ≠ none) :
    ∃ q', extractClaude a q id = .ok q' ∧ Extracted p (done ++ [id]) q' := by
  obtain ⟨tree, htree⟩ := Option.ne_none_iff_exists'.mp hclaude
  obtain ⟨q₁, hq₁, hdir₁, hother₁, hindex₁⟩ := run_mkdir (p := q) (d := .envDir id) rfl rfl
    (by rw [h.dir, if_neg hid]; exact hdirs id)
  have hnone₁ : q₁.node (.claude id) = none := by
    rw [hother₁ _ (by simp), h.claude id hid, hnone]
  have hmkdir : (Op.mkdir (.claude id)).run q₁ =
      .ok (q₁.put (.claude id) (.plain Tree.empty)) := by
    simp [Op.run, hnone₁, Pool.hasParent_of_dir (p := .claude id) rfl hdir₁, Op.freshDir]
  refine ⟨(q₁.put (.claude id) (.plain Tree.empty)).put (.claude id) (.plain tree), ?_, ?_⟩
  · rw [extractClaude, htree]
    simp only [bind, Except.bind, hq₁, hmkdir]
    simp [Op.run]
  refine ⟨hindex₁.trans h.index, fun path hdir hpath => ?_, fun e => ?_, fun e he => ?_⟩
  · rw [Pool.node_put, if_neg (hpath id), Pool.node_put, if_neg (hpath id), hother₁ _ (hdir id)]
    exact h.node path hdir hpath
  · rw [Pool.node_put, if_neg (by simp), Pool.node_put, if_neg (by simp)]
    by_cases he : e = id
    · subst he
      rw [hdir₁]
      simp
    · rw [hother₁ _ (by simpa using he), h.dir]
      simp [he]
  · have hne : e ≠ id := by
      rintro rfl
      simp at he
    rw [Pool.node_put, if_neg (by simpa using hne), Pool.node_put, if_neg (by simpa using hne),
      hother₁ _ (by simp)]
    exact h.claude e fun hmem => he (mem_append_left _ hmem)

theorem Extracted.all {rest : List EnvID} {q : Pool T} {a : Archive T} (h : Extracted p done q)
    (hdirs : ∀ e n, p.node (.envDir e) = some n → n = .dir)
    (hnone : ∀ e, p.node (.claude e) = none) (hnodup : (done ++ rest).Nodup)
    (hrest : ∀ e ∈ rest, a.claudes.get e ≠ none) :
    ∃ q', rest.foldlM (extractClaude a) q = .ok q' ∧ Extracted p (done ++ rest) q' := by
  induction rest generalizing done q with
  | nil => exact ⟨q, rfl, by simpa using h⟩
  | cons e rest ih =>
    have hnew : e ∉ done := fun hmem =>
      (nodup_append.mp hnodup).2.2 e hmem e mem_cons_self rfl
    obtain ⟨q₁, hq₁, hnext⟩ := h.next hdirs (hnone e) hnew (hrest e mem_cons_self)
    rw [append_cons] at hnodup ⊢
    obtain ⟨q₂, hq₂, hall⟩ := ih hnext hnodup fun e' he' => hrest e' (mem_cons_of_mem _ he')
    refine ⟨q₂, ?_, hall⟩
    rw [foldlM_cons, hq₁]
    exact hq₂

end

end Backup

end Fern
