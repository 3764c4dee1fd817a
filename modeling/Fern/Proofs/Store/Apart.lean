/-
A call for one environment leaves the others alone.

`Apart` is what makes two environments own different workspaces: rows and markers name
workspaces of their own, and a marker never names the workspace of a row of another
environment.  It is kept by every operation that fits.
-/
import Fern.Store.Calls
import Fern.Proofs.Store.Ops

namespace Fern

open Call StoreM

variable {T : Type} {id : EnvID}

/-! ### What an environment owns -/

/-- The places a call for environment `id` may change: its rows, the paths in its directory,
the workspaces `W`, and the directories that worktrees are in. -/
def Owns (id : EnvID) (W : Path → Prop) : Place → Prop
  | .node p => p.env? = some id ∨ W p ∨ ∃ r, p = .repo r
  | .env e => e = id
  | .snap e _ => e = id

/-- Rows and markers name workspaces of their own environment, and no marker names one that
another environment's row has. -/
structure Apart (s : Pool T) : Prop where
  workspace : ∀ e row, s.env? e = some row → Path.IsWorkspace e row.workspace
  marked : ∀ e p, s.marker? e = some (some p) → Path.IsWorkspace e p
  taken : ∀ e p, s.marker? e = some (some p) →
    ∀ e' row, s.env? e' = some row → row.workspace = p → e' = e

/-- An operation keeps environments apart: a new row's workspace is named by no other marker,
a marker gets the workspace of its own row, and no marker is moved. -/
def Op.Fits (s : Pool T) : Op T → Prop
  | .insertEnv row => Path.IsWorkspace row.id row.workspace ∧
      ∀ e, e ≠ row.id → s.marker? e ≠ some (some row.workspace)
  | .writeMarker e p => ∃ row, s.env? e = some row ∧ row.workspace = p
  | .exchange p q => ∀ e, p ≠ .marker e ∧ q ≠ .marker e
  | _ => True

theorem Path.IsWorkspace.env? {p : Path} (h : Path.IsWorkspace id p) :
    p.env? = some id ∨ p.env? = none := by
  cases h with
  | live => exact .inl rfl
  | worktree r n => exact .inr rfl

theorem Path.IsWorkspace.ne_marker {p : Path} (h : Path.IsWorkspace id p) (e : EnvID) :
    p ≠ .marker e := by
  rintro rfl
  cases h

theorem Path.IsWorkspace.ne_snap {p : Path} (h : Path.IsWorkspace id p) (e : EnvID) (x : SnapID) :
    p ≠ .snap e x := by
  rintro rfl
  cases h

theorem not_owns_workspace {e : EnvID} {W : Path → Prop} {p : Path} (hp : Path.IsWorkspace e p)
    (he : e ≠ id) (hW : ¬ W p) : ¬ Owns id W (.node p) := by
  rintro (h | h | ⟨r, h⟩)
  · rcases hp.env? with h' | h'
    · rw [h'] at h; exact he (Option.some.inj h)
    · rw [h'] at h; cases h
  · exact hW h
  · cases hp <;> cases h

theorem not_owns_env {e : EnvID} {W : Path → Prop} (hW : ∀ w, W w → Path.IsWorkspace id w)
    (he : e ≠ id) {p : Path} (hp : p.env? = some e) : ¬ Owns id W (.node p) := by
  rintro (h | h | ⟨r, rfl⟩)
  · rw [hp] at h; exact he (Option.some.inj h)
  · rcases (hW p h).env? with h' | h' <;> rw [hp] at h'
    · exact he (Option.some.inj h')
    · cases h'
  · cases hp

/-! ### Operations keep environments apart -/

variable [Tree T]

theorem Op.run_workspace {o : Op T} {s t : Pool T} (h : o.run s = .ok t) {e : EnvID}
    {row : EnvRow} (hrow : t.env? e = some row) :
    (∃ r, s.env? e = some r ∧ r.workspace = row.workspace) ∨
      (o = .insertEnv row ∧ row.id = e) := by
  by_cases hw : o.writes (.env e)
  · cases o <;> simp only [writes, Place.env.injEq, reduceCtorEq, exists_const, or_false] at hw
    case insertEnv r =>
      obtain ⟨x, hx, rfl⟩ := run_insertEnv h
      refine .inr ?_
      have := (Index.env?_insertEnv hx e).symm.trans hrow
      rw [if_pos hw] at this
      cases this
      exact ⟨rfl, hw.symm⟩
    case setEnvGit a git =>
      cases h
      refine .inl ?_
      have := (Index.env?_setEnvGit _ _ _).symm.trans hrow
      rw [if_pos hw] at this
      obtain ⟨r, hr', rfl⟩ := Option.map_eq_some_iff.mp this
      exact ⟨r, hr', rfl⟩
    case deleteEnv a =>
      cases h
      have := (Index.env?_deleteEnv _ _).symm.trans hrow
      rw [if_pos hw] at this
      cases this
    case removeAll p => cases p <;> simp at hw
  · exact .inl ⟨row, ((run_frame h).env e hw).symm.trans hrow, rfl⟩

theorem Apart.run {o : Op T} {s t : Pool T} (h : Apart s) (hfit : o.Fits s)
    (hrun : o.run s = .ok t) : Apart t := by
  -- A marker of `t` that names a workspace was there, or its own row has that workspace.
  have hmark : ∀ e p, t.marker? e = some (some p) → s.marker? e = some (some p) ∨
      o = .writeMarker e p := by
    intro e p hp
    rcases Op.run_marker hrun hp with h' | h' | ⟨a, b, rfl, h'⟩
    · exact .inl h'
    · exact .inr h'
    · exact absurd h' (not_or.mpr (hfit e))
  refine ⟨?_, ?_, ?_⟩
  · intro e row hrow
    rcases Op.run_workspace hrun hrow with ⟨r, hr, hws⟩ | ⟨rfl, rfl⟩
    · rw [← hws]
      exact h.workspace e r hr
    · exact hfit.1
  · intro e p hp
    rcases hmark e p hp with h' | rfl
    · exact h.marked e p h'
    · obtain ⟨row, hrow, rfl⟩ := hfit
      exact h.workspace e row hrow
  · intro e p hp e' row hrow hws
    rcases hmark e p hp with h' | rfl
    · rcases Op.run_workspace hrun hrow with ⟨r, hr, hws'⟩ | ⟨rfl, rfl⟩
      · exact h.taken e p h' e' r hr (hws'.trans hws)
      · by_contra hne
        exact hfit.2 e (fun hc => hne hc.symm) (by rw [hws]; exact h')
    · obtain ⟨row', hrow', rfl⟩ := hfit
      rcases Op.run_workspace hrun hrow with ⟨r, hr, hws'⟩ | ⟨h', _⟩
      · exact Index.env?_workspace_inj hr hrow' (hws'.trans hws)
      · cases h'

end Fern
