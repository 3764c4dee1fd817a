/-
A restored pool served.

The index and Claude's folders come from the archive, the workspaces from the manifest's chains. An
archive that ends early can't be unpacked.  An environment that only the archive knows (a golden
builder, one whose first send failed, one made while the backup ran) comes back as a directory
without `snaps/`, at which `Reconcile` fails.  And the manifest may have an older workspace of
another environment for the path of one: whose files are there afterwards is then up to the order in
which a map is gone through.
-/
import Fern.Proofs.Backup.Restore
import Fern.Proofs.Backup.Restorable

namespace Fern

open Call StoreM List

variable {T : Type} [Tree T] {b : FinMap Key (Object T)} {m : Manifest} {a : Archive T}

/-! ### What the restored pool is -/

namespace Backup

/-- A manifest and an archive as they are in a bucket after a backup. -/
structure Saved (b : FinMap Key (Object T)) (m : Manifest) (a : Archive T) : Prop where
  stored : b.get .manifest = some (.manifest m)
  archive : ∃ k, m.state = some k ∧ b.get k = some (.state a)
  whole : m.Whole b
  placed : m.Placed
  laid : a.index.Laid
  names : ∀ e x, b.get (.send e x) ≠ none → isBackup x = true

end Backup

namespace Backups

variable {s : Backups T}

/-- What a run leaves in the bucket once it has saved its manifest with the state. -/
theorem Reach.saved (h : Reach OneLaid s) {i : Bool} {r : Run T} (hrun : s.run i = some r)
    (hsaved : r.saved) : ∃ a, s.w.manifest? = some r.m ∧ Backup.Saved s.w.bucket r.m a := by
  have halone := h.one.alone
  obtain ⟨hplaced, hruns⟩ := h.placed
  have hm := halone.saved i r hrun hsaved
  have hwhole := halone.inv.world.stored r.m hm
  obtain ⟨k, hk⟩ := Option.ne_none_iff_exists'.mp ((hruns i r hrun).state hsaved)
  obtain ⟨t, a, -, ha⟩ := hwhole.state k hk
  refine ⟨a, hm, World.manifest?_eq_some.mp hm, ⟨k, hk, ha⟩, hwhole, (hruns i r hrun).m,
    hplaced _ _ ha, fun e x hx => ?_⟩
  have hold : s.w.Used x := halone.inv.world.old _ hx
  exact hold.isBackup

end Backups

end Fern
