/-
What the queries return after each statement.

The rest of the development looks at the index only through `env?` and `snap?`.  Here is
what every statement does to those two, and what the queries that list rows say about them.
-/
import Fern.Store.Index

namespace Fern.Index

open List

variable {x y : Index} {env : EnvID} {row : SnapRow} {id : SnapID}

/-! ### Rows found by key -/

private theorem find?_key_eq_some {ρ κ : Type} [DecidableEq κ] {key : ρ → κ} {l : List ρ}
    (hl : (l.map key).Nodup) {k : κ} {r : ρ} :
    l.find? (fun q => key q = k) = some r ↔ r ∈ l ∧ key r = k := by
  constructor
  · intro h
    exact ⟨mem_of_find?_eq_some h, by simpa using find?_some h⟩
  · rintro ⟨hmem, hkey⟩
    cases hf : l.find? (fun q => key q = k) with
    | none =>
      have := find?_eq_none.mp hf r hmem
      simp [hkey] at this
    | some other =>
      have hother : key other = k := by simpa using find?_some hf
      rw [inj_on_of_nodup_map hl (mem_of_find?_eq_some hf) hmem (by rw [hother, hkey])]

theorem env?_eq_some {id : EnvID} {row : EnvRow} :
    x.env? id = some row ↔ row ∈ x.envs ∧ row.id = id :=
  find?_key_eq_some x.idUnique

theorem env?_id {id : EnvID} {row : EnvRow} (h : x.env? id = some row) : row.id = id :=
  (env?_eq_some.mp h).2

theorem env?_ne_none {id : EnvID} : x.env? id ≠ none ↔ id ∈ x.envs.map EnvRow.id := by
  rw [Option.ne_none_iff_exists']
  simp only [env?_eq_some, mem_map]

theorem env?_workspace_inj {a b : EnvID} {r q : EnvRow} (ha : x.env? a = some r)
    (hb : x.env? b = some q) (hws : r.workspace = q.workspace) : a = b := by
  obtain ⟨hr, rfl⟩ := env?_eq_some.mp ha
  obtain ⟨hq, rfl⟩ := env?_eq_some.mp hb
  rw [inj_on_of_nodup_map x.workspaceUnique hr hq hws]

theorem envAt?_eq_none {ws : Path} (h : x.envAt? ws = none) {id : EnvID} {row : EnvRow}
    (hrow : x.env? id = some row) : row.workspace ≠ ws := by
  have := find?_eq_none.mp h row (env?_eq_some.mp hrow).1
  simpa using this

theorem snap?_eq_some :
    x.snap? env id = some row ↔ row ∈ x.snaps ∧ row.key = (env, id) :=
  find?_key_eq_some x.keyUnique

theorem snap?_ne_none :
    x.snap? env id ≠ none ↔ (env, id) ∈ x.snaps.map SnapRow.key := by
  rw [Option.ne_none_iff_exists']
  simp only [snap?_eq_some, mem_map]

theorem snap?_key (h : x.snap? env id = some row) : row.env = env ∧ row.id = id := by
  have := (snap?_eq_some.mp h).2
  simpa [SnapRow.key] using this

theorem env?_of_snap? (h : x.snap? env id ≠ none) :
    x.env? env ≠ none := by
  obtain ⟨row, hrow⟩ := Option.ne_none_iff_exists'.mp h
  have hmem := x.envExists row (snap?_eq_some.mp hrow).1
  rw [(snap?_key hrow).1] at hmem
  exact env?_ne_none.mpr hmem

/-! ### Rows listed -/

theorem mem_snapshots :
    id ∈ (x.snapshots env).map SnapRow.id ↔ x.snap? env id ≠ none := by
  rw [snap?_ne_none]
  simp only [snapshots, mem_map, mem_insertionSort, mem_filter, decide_eq_true_eq,
    SnapRow.key, Prod.mk.injEq]
  constructor
  · rintro ⟨r, ⟨hr, henv⟩, hid⟩
    exact ⟨r, hr, henv, hid⟩
  · rintro ⟨r, hr, henv, hid⟩
    exact ⟨r, ⟨hr, henv⟩, hid⟩

theorem mem_snapshotsBefore {keep : SnapID} {before : Int} :
    id ∈ x.snapshotsBefore env keep before ↔
      ∃ row, x.snap? env id = some row ∧ isPreRestore id = true ∧ id ≠ keep ∧
        row.created < before := by
  simp only [snapshotsBefore, mem_map, mem_filter, Bool.and_eq_true, decide_eq_true_eq,
    snap?_eq_some, SnapRow.key, Prod.mk.injEq]
  constructor
  · rintro ⟨r, ⟨hr, ⟨⟨henv, hpre⟩, hkeep⟩, hold⟩, rfl⟩
    exact ⟨r, ⟨hr, henv, rfl⟩, hpre, hkeep, hold⟩
  · rintro ⟨r, ⟨hr, henv, rfl⟩, hpre, hkeep, hold⟩
    exact ⟨r, ⟨hr, ⟨⟨henv, hpre⟩, hkeep⟩, hold⟩, rfl⟩

/-! ### Environments after each statement -/

theorem env?_congr (h : x.envs = y.envs) (id : EnvID) : x.env? id = y.env? id := by
  unfold env?
  rw [h]

theorem snap?_congr (h : x.snaps = y.snaps) (env : EnvID) (id : SnapID) :
    x.snap? env id = y.snap? env id := by
  unfold snap?
  rw [h]

theorem insertEnv_eq_ok {row : EnvRow} (h : x.insertEnv row = .ok y) :
    y.envs = x.envs ++ [row] ∧ y.snaps = x.snaps ∧ x.env? row.id = none ∧
      ∀ id r, x.env? id = some r → r.workspace ≠ row.workspace := by
  unfold insertEnv at h
  split at h
  · cases h
  · rename_i hnew
    cases h
    rw [not_or] at hnew
    refine ⟨rfl, rfl, ?_, ?_⟩
    · by_contra hsome
      exact hnew.1 (env?_ne_none.mp hsome)
    · intro id r hr hws
      exact hnew.2 (mem_map.mpr ⟨r, (env?_eq_some.mp hr).1, hws⟩)

theorem insertEnv_ok {row : EnvRow} (hid : x.env? row.id = none)
    (hws : ∀ id r, x.env? id = some r → r.workspace ≠ row.workspace) :
    ∃ y, x.insertEnv row = .ok y := by
  unfold insertEnv
  split
  · rename_i hc
    exfalso
    rcases hc with hc | hc
    · exact env?_ne_none.mpr hc hid
    · obtain ⟨r, hr, hrw⟩ := mem_map.mp hc
      exact hws r.id r (env?_eq_some.mpr ⟨hr, rfl⟩) hrw
  · exact ⟨_, rfl⟩

theorem env?_insertEnv {row : EnvRow} (h : x.insertEnv row = .ok y) (id : EnvID) :
    y.env? id = if id = row.id then some row else x.env? id := by
  obtain ⟨henvs, _, hnone, _⟩ := insertEnv_eq_ok h
  unfold env? at hnone ⊢
  rw [henvs, find?_append]
  by_cases hid : id = row.id
  · subst hid
    simp [hnone]
  · rw [if_neg hid]
    have : ¬ row.id = id := fun hc => hid hc.symm
    simp [this]

theorem snap?_insertEnv {row : EnvRow} (h : x.insertEnv row = .ok y) (env : EnvID)
    (id : SnapID) : y.snap? env id = x.snap? env id :=
  snap?_congr (insertEnv_eq_ok h).2.1 env id

@[simp] theorem env?_setEnvGit (a : EnvID) (git : String) (id : EnvID) :
    (x.setEnvGit a git).env? id =
      if id = a then (x.env? id).map (fun r => { r with git := git }) else x.env? id := by
  have hfind : ∀ r : EnvRow, (if r.id = a then { r with git := git } else r).id = r.id := by
    intro r
    by_cases h : r.id = a <;> simp [h]
  unfold env? setEnvGit
  rw [find?_map]
  have hp : ((fun r : EnvRow => decide (r.id = id)) ∘
      fun r => if r.id = a then { r with git := git } else r) = fun r => decide (r.id = id) := by
    funext r
    simp [hfind]
  rw [hp]
  cases hf : x.envs.find? (fun r => r.id = id) with
  | none => simp
  | some r =>
    have hr : r.id = id := by simpa using find?_some hf
    by_cases h : id = a <;> simp [hr, h]

@[simp] theorem env?_deleteEnv (a id : EnvID) :
    (x.deleteEnv a).env? id = if id = a then none else x.env? id := by
  unfold env? deleteEnv
  rw [find?_filter]
  by_cases h : id = a
  · subst h
    simp
  · rw [if_neg h]
    congr 1
    funext r
    by_cases hr : r.id = id <;> simp [hr, h]

@[simp] theorem snap?_deleteEnv (a env : EnvID) (id : SnapID) :
    (x.deleteEnv a).snap? env id = if env = a then none else x.snap? env id := by
  unfold snap? deleteEnv
  rw [find?_filter]
  by_cases h : env = a
  · subst h
    simp [SnapRow.key]
    intro r _ hne henv
    exact absurd henv hne
  · rw [if_neg h]
    congr 1
    funext r
    by_cases hr : r.env = env <;> simp [SnapRow.key, hr, h]

/-! ### Snapshots after each statement -/

@[simp] theorem env?_deleteSnapshot (a : EnvID) (b : SnapID) (id : EnvID) :
    (x.deleteSnapshot a b).env? id = x.env? id := rfl

@[simp] theorem snap?_deleteSnapshot (a : EnvID) (b : SnapID) (env : EnvID) (id : SnapID) :
    (x.deleteSnapshot a b).snap? env id =
      if env = a ∧ id = b then none else x.snap? env id := by
  unfold snap? deleteSnapshot
  rw [find?_filter]
  by_cases h : env = a ∧ id = b
  · obtain ⟨rfl, rfl⟩ := h
    simp
  · rw [if_neg h]
    congr 1
    funext r
    by_cases hr : r.key = (env, id)
    · have : (env, id) ≠ (a, b) := fun hc => h (by simpa using hc)
      simp [hr, this]
    · simp [hr]

theorem snap?_addSnapshot (row : SnapRow) (henv : row.env ∈ x.envs.map EnvRow.id)
    (hnew : row.key ∉ x.snaps.map SnapRow.key) (env : EnvID) (id : SnapID) :
    (x.addSnapshot row henv hnew).snap? env id =
      if env = row.env ∧ id = row.id then some row else x.snap? env id := by
  by_cases h : env = row.env ∧ id = row.id
  · rw [if_pos h]
    refine snap?_eq_some.mpr ⟨by simp [addSnapshot], ?_⟩
    rw [SnapRow.key, h.1, h.2]
  · rw [if_neg h]
    have hkey : row.key ≠ (env, id) := by
      intro hc
      simp only [SnapRow.key, Prod.mk.injEq] at hc
      exact h ⟨hc.1.symm, hc.2.symm⟩
    show (x.snaps ++ [row]).find? _ = x.snaps.find? _
    rw [find?_append]
    simp [hkey]

theorem keepSnapshot_ok (h : x.env? row.env ≠ none) :
    ∃ y, x.keepSnapshot row = .ok y := by
  unfold keepSnapshot
  rw [dif_pos (env?_ne_none.mp h)]
  split
  · exact ⟨_, rfl⟩
  · exact ⟨_, rfl⟩

theorem env?_keepSnapshot (h : x.keepSnapshot row = .ok y) (id : EnvID) :
    y.env? id = x.env? id := by
  unfold keepSnapshot at h
  split at h
  · split at h
    · cases h; rfl
    · cases h; rfl
  · cases h

theorem snap?_keepSnapshot (h : x.keepSnapshot row = .ok y) (env : EnvID) (id : SnapID) :
    y.snap? env id =
      if env = row.env ∧ id = row.id then some ((x.snap? env id).getD row) else x.snap? env id := by
  unfold keepSnapshot at h
  split at h
  · split at h
    · rename_i henv hold
      cases h
      by_cases hk : env = row.env ∧ id = row.id
      · obtain ⟨rfl, rfl⟩ := hk
        obtain ⟨r, hr⟩ := Option.ne_none_iff_exists'.mp (snap?_ne_none.mpr hold)
        simp [hr]
      · rw [if_neg hk]
    · rename_i henv hnew
      cases h
      rw [snap?_addSnapshot]
      by_cases hk : env = row.env ∧ id = row.id
      · obtain ⟨rfl, rfl⟩ := hk
        have hnone : x.snap? row.env row.id = none := by
          by_contra hc
          exact hnew (snap?_ne_none.mp hc)
        simp [hnone]
      · rw [if_neg hk, if_neg hk]
  · cases h

theorem replaceSnapshot_ok (h : x.env? row.env ≠ none) :
    ∃ y, x.replaceSnapshot row = .ok y := by
  unfold replaceSnapshot
  rw [dif_pos (env?_ne_none.mp h)]
  exact ⟨_, rfl⟩

theorem env?_replaceSnapshot (h : x.replaceSnapshot row = .ok y) (id : EnvID) :
    y.env? id = x.env? id := by
  unfold replaceSnapshot at h
  split at h
  · cases h; rfl
  · cases h

theorem snap?_replaceSnapshot (h : x.replaceSnapshot row = .ok y) (env : EnvID) (id : SnapID) :
    y.snap? env id =
      if env = row.env ∧ id = row.id then some row else x.snap? env id := by
  unfold replaceSnapshot at h
  split at h
  · rename_i henv
    cases h
    refine (snap?_addSnapshot (x := x.deleteSnapshot row.env row.id) row henv _ env id).trans ?_
    rw [snap?_deleteSnapshot]
    by_cases hk : env = row.env ∧ id = row.id
    · rw [if_pos hk, if_pos hk]
    · rw [if_neg hk, if_neg hk, if_neg hk]
  · cases h

/-! ### The recovery transaction -/

private theorem keepAll_spec {created : Int} :
    ∀ (missing : List SnapID) {x y : Index},
      missing.foldlM (fun z id => z.keepSnapshot ⟨env, id, created⟩) x = .ok y →
      (∀ id, y.env? id = x.env? id) ∧ ∀ e i, y.snap? e i =
        if e = env ∧ i ∈ missing then some ((x.snap? e i).getD ⟨env, i, created⟩)
        else x.snap? e i := by
  intro missing
  induction missing with
  | nil =>
    intro x y h
    cases h
    simp
  | cons a rest ih =>
    intro x y h
    rw [foldlM_cons] at h
    cases hz : x.keepSnapshot ⟨env, a, created⟩ with
    | error e => rw [hz] at h; cases h
    | ok z =>
      rw [hz] at h
      obtain ⟨henv, hsnap⟩ := ih (x := z) h
      refine ⟨fun id => by rw [henv, env?_keepSnapshot hz], fun e i => ?_⟩
      rw [hsnap, snap?_keepSnapshot hz]
      by_cases he : e = env
      · by_cases hi : i = a
        · subst he hi
          by_cases hr : i ∈ rest <;> simp [hr]
        · simp [he, hi]
      · simp [he]

private theorem dropAll_spec :
    ∀ (stale : List SnapID) (x : Index),
      (∀ id, (stale.foldl (fun z id => z.deleteSnapshot env id) x).env? id = x.env? id) ∧
      ∀ e i, (stale.foldl (fun z id => z.deleteSnapshot env id) x).snap? e i =
        if e = env ∧ i ∈ stale then none else x.snap? e i := by
  intro stale
  induction stale with
  | nil => intro x; simp
  | cons a rest ih =>
    intro x
    obtain ⟨henv, hsnap⟩ := ih (x.deleteSnapshot env a)
    refine ⟨fun id => by rw [foldl_cons, henv, env?_deleteSnapshot], fun e i => ?_⟩
    rw [foldl_cons, hsnap, snap?_deleteSnapshot]
    by_cases he : e = env
    · by_cases hi : i = a
      · simp [he, hi]
      · simp [he, hi]
    · simp [he]

theorem recoverSnapshots_spec {missing stale : List SnapID} {created : Int}
    (h : x.recoverSnapshots env missing stale created = .ok y) :
    (∀ id, y.env? id = x.env? id) ∧ ∀ e i, y.snap? e i =
      if e = env ∧ i ∈ stale then none
      else if e = env ∧ i ∈ missing then some ((x.snap? e i).getD ⟨env, i, created⟩)
      else x.snap? e i := by
  unfold recoverSnapshots at h
  cases hz : missing.foldlM (fun z id => z.keepSnapshot ⟨env, id, created⟩) x with
  | error e => rw [hz] at h; cases h
  | ok z =>
    rw [hz] at h
    cases h
    obtain ⟨henv, hsnap⟩ := keepAll_spec missing hz
    obtain ⟨henv', hsnap'⟩ := @dropAll_spec env stale z
    refine ⟨fun id => by rw [henv', henv], fun e i => ?_⟩
    rw [hsnap', hsnap]

theorem recoverSnapshots_ok (missing stale : List SnapID) (created : Int) (h : x.env? env ≠ none) :
    ∃ y, x.recoverSnapshots env missing stale created = .ok y := by
  have hkeep : ∀ (missing : List SnapID) (x : Index), x.env? env ≠ none →
      ∃ y, missing.foldlM (fun z id => z.keepSnapshot ⟨env, id, created⟩) x = .ok y := by
    intro missing
    induction missing with
    | nil => intro x _; exact ⟨x, rfl⟩
    | cons a rest ih =>
      intro x hx
      obtain ⟨z, hz⟩ : ∃ z, x.keepSnapshot ⟨env, a, created⟩ = .ok z := keepSnapshot_ok hx
      rw [foldlM_cons, hz]
      exact ih z (by rw [env?_keepSnapshot hz]; exact hx)
  obtain ⟨z, hz⟩ := hkeep missing x h
  unfold recoverSnapshots
  rw [hz]
  exact ⟨_, rfl⟩

end Fern.Index
