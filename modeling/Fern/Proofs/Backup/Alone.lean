/-
One backup at a time.

A run alone lists the bucket after it has saved its manifest, so no page has anything that the
stored manifest names and its own doesn't: `Alone` keeps that, and with it everything shown of runs
beside each other.  What the run has read of the workspaces is accounted for by the time it returns
without an error: either its manifest has the environment as it was when it was read, or what the
run is about to save has.
-/
import Fern.Proofs.Backup.Beside

namespace Fern

open List

variable {T : Type} {env : EnvRow}

namespace Run

variable {w w' : World T} {r : Run T}

/-! ### The manifest in the bucket is the run's

From its last save on.  Until then another state may be stored, of the backup before.
-/

/-- The run has saved its manifest with the state. -/
def saved (r : Run T) : Bool :=
  match r.pc with
  | .sweepList _ | .sweep _ => true
  | .done => !r.failed
  | _ => false

theorem saved_step [Tree T] (hsaved : r.saved → w.manifest? = some r.m)
    (hsweep : ∀ k ∈ r.pc.sweepKeys r.m, k ≠ .manifest) (x : Input) :
    (r.step w x).2.saved → (r.step w x).1.manifest? = some (r.step w x).2.m := by
  intro h
  cases hpc : r.pc with
  | saveState k =>
    simp only [step, hpc, upload] at h ⊢
    cases hx : x.answer with
    | ok => simp [World.manifest?, World.put]
    | error | lost => simp [hx, saved, abort] at h
  | sweepList keys =>
    have hsaved := hsaved (by simp [saved, hpc])
    simp only [step, hpc]
    split
    · split
      · exact hsaved
      · exact hsaved
    · exact hsaved
  | sweep keys =>
    have hsaved := hsaved (by simp [saved, hpc])
    cases keys with
    | nil =>
      simp only [step, hpc]
      exact hsaved
    | cons k keys =>
      have hk : k ≠ .manifest := hsweep k (by rw [hpc]; exact mem_cons_self)
      have hdelete : (w.delete k).manifest? = some r.m := by
        rw [World.manifest?_eq_some] at hsaved ⊢
        simpa [World.delete, hk.symm] using hsaved
      simp only [step, hpc]
      cases x.answer with
      | ok | lost => exact hdelete
      | error => exact hsaved
  | done =>
    simp only [step, hpc] at h ⊢
    exact hsaved h
  | manifest | list | next | generation | snapshots | leftovers | snapshot | send | put | unsend
  | createdAt | dropParent | save | index | claudes | putState =>
    exfalso
    revert h
    simp only [step, hpc, upload]
    repeat' split
    all_goals simp_all [saved, abort, fail]

end Run

/-! ### What a run has read is accounted for

A run reads the generation of each workspace and then skips it, or sends a snapshot it takes later:
so what the manifest has is no older than what was read.  `Account` is the invariant that carries
this from the reading to the save, and through the loop over the environments; a run that has failed
is not held to it.
-/

namespace Pc

/-- The environment whose workspace the run has read and not yet saved. -/
def env? : Pc T → Option EnvRow
  | .snapshots env | .leftovers env _ _ _ | .snapshot env _ | .send env _ _ | .put env _ _ _
  | .unsend env _ | .createdAt env _ _ | .dropParent env _ _ | .save env _ => some env
  | _ => none

/-- The loop over the environments is over. -/
def past : Pc T → Bool
  | .index | .claudes _ | .putState _ | .saveState _ | .sweepList _ | .sweep _ | .done => true
  | _ => false

theorem of_env? {pc : Pc T} (h : pc.env? = some env) :
    pc ≠ .manifest ∧ pc ≠ .list ∧ (∀ e, pc ≠ .generation e) ∧ pc.past = false := by
  cases pc <;> simp_all [env?, past]

theorem of_past {pc : Pc T} (h : pc.past) :
    pc ≠ .manifest ∧ pc ≠ .list ∧ (∀ e, pc ≠ .generation e) ∧ pc.env? = none := by
  cases pc <;> simp_all [env?, past]

/-- What is at hand for the environment was taken no earlier than generation `g`. -/
def Covers (w : World T) (g : Gen) : Pc T → Prop
  | .send env _ name | .put env _ name _ | .createdAt env _ name =>
    w.pool.node (.snap env.id name) ≠ none → g ≤ w.taken env.id name
  | .dropParent _ _ eb | .save _ eb => g ≤ eb.generation
  | _ => True

end Pc

namespace Run

variable {w w' : World T} {r r' : Run T}

/-- The generations a run has read are accounted for by its manifest, or by what it has at hand;
and it has read those of all environments it listed and has come to. -/
structure Account (w : World T) (r : Run T) : Prop where
  begun : r.pc = .manifest ∨ r.pc = .list → r.seen = [] ∧ r.listed = []
  live : ∀ env, r.pc = .generation env → env.id ∈ r.live
  seen : ∀ id g, (id, g) ∈ r.seen → id ∈ r.live ∧ g ≤ w.gen
  hand : r.failed = false → ∀ env, r.pc.env? = some env → ∀ g, (env.id, g) ∈ r.seen →
    r.pc.Covers w g
  covered : r.failed = false → ∀ id g, (id, g) ∈ r.seen →
    (∀ env, r.pc.env? = some env → env.id ≠ id) →
    ∃ eb, r.m.envs.get id = some eb ∧ g ≤ eb.generation
  listed : r.failed = false → ∀ env ∈ r.listed, isBuilder env.id = false →
    env ∈ r.todo ∨ r.pc = .generation env ∨ ∃ g, (env.id, g) ∈ r.seen
  todo : r.failed = false → r.pc.past → r.todo = []
  builders : ∀ id ∈ r.live, isBuilder id = false
  kept : r.failed = false → r.pc.past → ∀ id, r.m.envs.get id ≠ none → id ∈ r.live

private theorem Account.failed (h : r.Account w) (hgen : w.gen ≤ w'.gen)
    (hfailed : r'.failed = true)
    (hpc : r'.pc = .next ∨ r'.pc = .done) (hlive : r'.live = r.live) (hseen : r'.seen = r.seen) :
    r'.Account w' where
  begun := by rcases hpc with hpc | hpc <;> simp [hpc]
  live := by rcases hpc with hpc | hpc <;> simp [hpc]
  seen id g hg := by
    rw [hseen] at hg
    obtain ⟨hid, hg⟩ := h.seen id g hg
    exact ⟨hlive ▸ hid, Nat.le_trans hg hgen⟩
  hand := by simp [hfailed]
  covered := by simp [hfailed]
  listed := by simp [hfailed]
  todo := by simp [hfailed]
  builders := hlive ▸ h.builders
  kept := by simp [hfailed]

private theorem Account.moves (h : r.Account w) (hgen : w.gen ≤ w'.gen)
    (hsame : r'.m.envs = r.m.envs ∧ r'.todo = r.todo ∧ r'.live = r.live ∧ r'.listed = r.listed ∧
      r'.seen = r.seen)
    (hfailed : r'.failed = false → r.failed = false)
    (hbegun : r'.pc ≠ .manifest ∧ r'.pc ≠ .list)
    (hloop : (∀ env, r.pc ≠ .generation env) ∧ ∀ env, r'.pc ≠ .generation env)
    (henv : r'.pc.env? = r.pc.env?) (hpast : r'.pc.past → r.pc.past)
    (hcovers : ∀ g, g ≤ w.gen → r.pc.Covers w g → r'.pc.Covers w' g) : r'.Account w' := by
  obtain ⟨hm, htodo, hlive, hlisted, hseen⟩ := hsame
  refine ⟨fun hpc => absurd hpc (not_or.mpr hbegun), fun env hpc => absurd hpc (hloop.2 env), ?_,
    ?_, ?_, ?_, ?_, hlive ▸ h.builders, ?_⟩
  · intro id g hg
    rw [hseen] at hg
    obtain ⟨hid, hg⟩ := h.seen id g hg
    exact ⟨hlive ▸ hid, Nat.le_trans hg hgen⟩
  · intro hok env hpc g hg
    rw [hseen] at hg
    exact hcovers g (h.seen _ g hg).2 (h.hand (hfailed hok) env (henv ▸ hpc) g hg)
  · intro hok id g hg hne
    rw [hseen] at hg
    rw [hm]
    exact h.covered (hfailed hok) id g hg fun env hpc => hne env (henv.trans hpc)
  · intro hok env hin hbuilder
    rw [hlisted] at hin
    rw [htodo, hseen]
    rcases h.listed (hfailed hok) env hin hbuilder with hin | hin | hin
    · exact .inl hin
    · exact absurd hin (hloop.1 env)
    · exact .inr (.inr hin)
  · intro hok hpc
    rw [htodo]
    exact h.todo (hfailed hok) (hpast hpc)
  · intro hok hpc id
    rw [hm, hlive]
    exact h.kept (hfailed hok) (hpast hpc) id

private theorem Account.within (h : r.Account w) {pc pc' : Pc T} (hpc : r.pc = pc)
    (hgen : w.gen ≤ w'.gen) (henv : pc.env? = some env) (henv' : pc'.env? = some env)
    (hcovers : ∀ g, g ≤ w.gen → pc.Covers w g → pc'.Covers w' g) :
    Account w' { r with pc := pc' } := by
  subst hpc
  obtain ⟨-, -, hloop, -⟩ := Pc.of_env? henv
  obtain ⟨hmanifest, hlist, hloop', hpast⟩ := Pc.of_env? henv'
  exact h.moves hgen ⟨rfl, rfl, rfl, rfl, rfl⟩ (fun h => h) ⟨hmanifest, hlist⟩ ⟨hloop, hloop'⟩
    (henv'.trans henv.symm) (by simp [hpast]) hcovers

private theorem Account.after (h : r.Account w) {pc : Pc T} (hpc : r.pc = pc) (hpast : pc.past)
    (hgen : w.gen ≤ w'.gen) (hpast' : r'.pc.past)
    (hsame : r'.m.envs = r.m.envs ∧ r'.todo = r.todo ∧ r'.live = r.live ∧ r'.listed = r.listed ∧
      r'.seen = r.seen)
    (hfailed : r'.failed = false → r.failed = false) : r'.Account w' := by
  subst hpc
  obtain ⟨-, -, hloop, hnone⟩ := Pc.of_past hpast
  obtain ⟨hmanifest, hlist, hloop', hnone'⟩ := Pc.of_past hpast'
  refine h.moves hgen hsame hfailed ⟨hmanifest, hlist⟩ ⟨hloop, hloop'⟩ (hnone'.trans hnone.symm)
    (fun _ => hpast) fun g _ _ => ?_
  cases hpc : r'.pc <;> first | trivial | simp [hpc, Pc.env?] at hnone'

private theorem Account.reads (h : r.Account w) (hw : w.Inv) {pc' : Pc T}
    (hpc : r.pc = .generation env) (henv : pc'.env? = some env)
    (hcovers : ∀ g, (g = w.last env.workspace ∨
      ∃ eb, r.m.envs.get env.id = some eb ∧ g ≤ eb.generation) → pc'.Covers w g) :
    Account w { r with seen := (env.id, w.last env.workspace) :: r.seen, pc := pc' } := by
  have hnone : r.pc.env? = none := by rw [hpc]; rfl
  obtain ⟨hmanifest, hlist, hloop, hpast⟩ := Pc.of_env? henv
  refine ⟨fun hpc => absurd hpc (not_or.mpr ⟨hmanifest, hlist⟩),
    fun env hpc => absurd hpc (hloop env), ?_, ?_, ?_, ?_, by simp [hpast], h.builders,
    by simp [hpast]⟩
  · intro id g hg
    rcases mem_cons.mp hg with heq | hg
    · obtain ⟨rfl, rfl⟩ := Prod.mk.inj heq
      exact ⟨h.live env hpc, hw.last _⟩
    · exact h.seen id g hg
  · intro hok env' hpc' g hg
    cases henv.symm.trans hpc'
    rcases mem_cons.mp hg with heq | hg
    · exact hcovers g (.inl (Prod.mk.inj heq).2)
    · exact hcovers g (.inr (h.covered hok _ g hg (by simp [hnone])))
  · intro hok id g hg hne
    rcases mem_cons.mp hg with heq | hg
    · exact absurd (Prod.mk.inj heq).1.symm (hne env henv)
    · exact h.covered hok id g hg (by simp [hnone])
  · intro hok env' hin hbuilder
    rcases h.listed hok env' hin hbuilder with hin | hin | ⟨g, hg⟩
    · exact .inl hin
    · rw [hpc] at hin
      injection hin with heq
      subst heq
      exact .inr (.inr ⟨_, mem_cons_self⟩)
    · exact .inr (.inr ⟨g, mem_cons_of_mem _ hg⟩)

private theorem Account.loops (henv : r.pc.env? = none) (hpast : r.pc.past = false)
    (begun : r.pc = .manifest ∨ r.pc = .list → r.seen = [] ∧ r.listed = [])
    (live : ∀ env, r.pc = .generation env → env.id ∈ r.live)
    (seen : ∀ id g, (id, g) ∈ r.seen → id ∈ r.live ∧ g ≤ w.gen)
    (covered : r.failed = false → ∀ id g, (id, g) ∈ r.seen →
      ∃ eb, r.m.envs.get id = some eb ∧ g ≤ eb.generation)
    (listed : r.failed = false → ∀ env ∈ r.listed, isBuilder env.id = false →
      env ∈ r.todo ∨ r.pc = .generation env ∨ ∃ g, (env.id, g) ∈ r.seen)
    (builders : ∀ id ∈ r.live, isBuilder id = false) : r.Account w where
  begun := begun
  live := live
  seen := seen
  hand := by simp [henv]
  covered hok id g hg _ := covered hok id g hg
  listed := listed
  todo := by simp [hpast]
  builders := builders
  kept := by simp [hpast]

private theorem Account.fail (h : r.Account w) (hgen : w.gen ≤ w'.gen) : r.fail.Account w' :=
  h.failed hgen rfl (.inl rfl) rfl rfl

private theorem Account.abort (h : r.Account w) : r.abort.Account w :=
  h.failed (Nat.le_refl _) rfl (.inr rfl) rfl rfl

private theorem Account.listed_next (h : r.Account w) (hpc : r.pc = .next) (hok : r.failed = false)
    (hin : env ∈ r.listed) (hno : isBuilder env.id = false) :
    env ∈ r.todo ∨ ∃ g, (env.id, g) ∈ r.seen := by
  rcases h.listed hok env hin hno with hin | hin | hin
  · exact .inl hin
  · simp [hpc] at hin
  · exact .inr hin

section Places

variable [Tree T] {x : Input}

/-- The account after the step from here. -/
def Accounts (w : World T) (r : Run T) (x : Input) : Prop :=
  (r.step w x).2.Account (r.step w x).1

private theorem accounts_manifest (h : r.Account w) (hpc : r.pc = .manifest) :
    Accounts w r x := by
  obtain ⟨hseen, hlisted⟩ := h.begun (.inl hpc)
  simp only [Accounts, step, hpc]
  split
  · exact .loops rfl rfl (fun _ => ⟨hseen, hlisted⟩) (by simp) (by simp [hseen]) (by simp [hseen])
      (by simp [hlisted]) h.builders
  · exact .loops rfl rfl (fun _ => ⟨hseen, hlisted⟩) (by simp) (by simp [hseen]) (by simp [hseen])
      (by simp [hlisted]) h.builders
  · exact h.abort

private theorem accounts_list (h : r.Account w) (hpc : r.pc = .list) : Accounts w r x := by
  obtain ⟨hseen, -⟩ := h.begun (.inr hpc)
  simp only [Accounts, step, hpc]
  split
  · exact .loops rfl rfl (by simp) (by simp) (by simp [hseen]) (by simp [hseen])
      (fun _ env hin _ => .inl hin) h.builders
  · exact h.abort

private theorem accounts_next (h : r.Account w) (hpc : r.pc = .next) : Accounts w r x := by
  have hcovered : r.failed = false → ∀ id g, (id, g) ∈ r.seen →
      ∃ eb, r.m.envs.get id = some eb ∧ g ≤ eb.generation :=
    fun hok id g hg => h.covered hok id g hg (by simp [hpc, Pc.env?])
  simp only [Accounts, step, hpc]
  split
  case h_1 htodo =>
    refine ⟨by simp, by simp, h.seen, by simp [Pc.env?], fun hok id g hg _ => ?_,
      fun hok env hin hno => ?_, fun _ _ => htodo, h.builders, fun _ _ id hid => ?_⟩
    · obtain ⟨eb, heb, hle⟩ := hcovered hok id g hg
      exact ⟨eb, by simp [Manifest.keepOnly, (h.seen id g hg).1, heb], hle⟩
    · exact (h.listed_next hpc hok hin hno).imp id .inr
    · by_contra hlive
      simp [Manifest.keepOnly, hlive] at hid
  case h_2 env rest htodo =>
    have hlisted : r.failed = false → ∀ env' ∈ r.listed, isBuilder env'.id = false →
        env' = env ∨ env' ∈ rest ∨ ∃ g, (env'.id, g) ∈ r.seen := by
      intro hok env' hin hno
      rcases h.listed_next hpc hok hin hno with hin | hin
      · rw [htodo] at hin
        exact (mem_cons.mp hin).imp id .inl
      · exact .inr (.inr hin)
    split
    case isTrue hbuilder =>
      refine .loops rfl rfl (by simp) (by simp) h.seen hcovered (fun hok env' hin hno => ?_)
        h.builders
      rcases hlisted hok env' hin hno with rfl | hin | hin
      · simp [hbuilder] at hno
      · exact .inl hin
      · exact .inr (.inr hin)
    case isFalse hbuilder =>
      refine .loops rfl rfl (by simp) ?_ ?_ hcovered (fun hok env' hin hno => ?_) fun id hid => ?_
      · intro env' hpc'
        injection hpc' with heq
        rw [heq]
        exact mem_cons_self
      · intro id g hg
        exact ⟨mem_cons_of_mem _ (h.seen id g hg).1, (h.seen id g hg).2⟩
      · rcases hlisted hok env' hin hno with rfl | hin | hin
        · exact .inr (.inl rfl)
        · exact .inl hin
        · exact .inr (.inr hin)
      · rcases mem_cons.mp hid with rfl | hid
        · simpa using hbuilder
        · exact h.builders id hid

private theorem accounts_generation (h : r.Account w) (hw : w.Inv) (hpc : r.pc = .generation env) :
    Accounts w r x := by
  simp only [Accounts, step, hpc]
  split
  case isFalse => exact h.fail (Nat.le_refl _)
  case isTrue =>
    split
    case h_2 => exact h.reads hw hpc rfl fun _ _ => trivial
    case h_1 eb heb =>
      split
      case isFalse => exact h.reads hw hpc rfl fun _ _ => trivial
      case isTrue hunchanged =>
        refine h.reads hw hpc rfl fun g hg => ?_
        rcases hg with rfl | ⟨eb', heb', hle⟩
        · exact Nat.le_of_eq hunchanged.2.symm
        · rw [heb] at heb'
          cases heb'
          exact hle

private theorem accounts_leftovers {want : Option SnapID} {has : Bool} {rest : List SnapID}
    (h : r.Account w) (hpc : r.pc = .leftovers env want has rest) : Accounts w r x := by
  simp only [Accounts, step, hpc]
  split
  · exact h.within hpc (Nat.le_refl _) rfl rfl fun _ _ _ => trivial
  split
  · exact h.within hpc (Nat.le_refl _) rfl rfl fun _ _ _ => trivial
  split
  · exact h.within hpc (Nat.le_refl _) rfl rfl fun _ _ _ => trivial
  split
  · exact h.within hpc (Nat.le_refl _) rfl rfl fun _ _ _ => trivial
  · exact h.fail (Nat.le_refl _)

private theorem accounts_snapshot {parent : Option SnapID} (h : r.Account w)
    (hpc : r.pc = .snapshot env parent) : Accounts w r x := by
  simp only [Accounts, step, hpc]
  split
  · refine h.within hpc (Nat.le_succ _) rfl rfl fun g hg _ hnode => ?_
    rw [w.taken_takeSnapshot env.id _ x hnode]
    exact Nat.le_succ_of_le hg
  · exact h.fail (Nat.le_succ _)

private theorem accounts_createdAt {parent : Option SnapID} {name : SnapID} (h : r.Account w)
    (hpc : r.pc = .createdAt env parent name) : Accounts w r x := by
  simp only [Accounts, step, hpc]
  split
  case isFalse => exact h.fail (Nat.le_refl _)
  case isTrue hok =>
    have hnode : w.pool.node (.snap env.id name) ≠ none := by
      intro hnone
      simp [World.subvol?, hnone] at hok
    cases parent with
    | none | some =>
      exact h.within hpc (Nat.le_refl _) rfl rfl fun _ _ hcovers => hcovers hnode

private theorem accounts_save {eb : EnvBackup} (h : r.Account w) (hpc : r.pc = .save env eb) :
    Accounts w r x := by
  simp only [Accounts, step, hpc, upload]
  cases x.answer with
  | error | lost => exact h.failed (Nat.le_refl _) rfl (.inr rfl) rfl rfl
  | ok =>
    refine .loops rfl rfl (by simp) (by simp) h.seen (fun hok id g hg => ?_)
      (fun hok env' hin hno => ?_) h.builders
    · by_cases hid : id = env.id
      · subst hid
        have hcovers := h.hand hok env (by rw [hpc]; rfl) g hg
        rw [hpc] at hcovers
        exact ⟨eb, by simp [Manifest.setEnv], hcovers⟩
      · obtain ⟨eb', heb', hle⟩ := h.covered hok id g hg fun env' hpc' => by
          rw [hpc] at hpc'
          cases hpc'
          exact fun heq => hid heq.symm
        exact ⟨eb', by simpa [Manifest.setEnv, hid] using heb', hle⟩
    · rcases h.listed hok env' hin hno with hin | hin | hin
      · exact .inl hin
      · simp [hpc] at hin
      · exact .inr (.inr hin)

private theorem accounts_sweep {keys : List Key} (h : r.Account w) (hpc : r.pc = .sweep keys) :
    Accounts w r x := by
  have hgen := Nat.le_refl w.gen
  cases keys with
  | nil =>
    simp only [Accounts, step, hpc]
    exact h.after hpc rfl hgen rfl ⟨rfl, rfl, rfl, rfl, rfl⟩ fun h => h
  | cons k keys =>
    simp only [Accounts, step, hpc]
    cases x.answer with
    | ok => exact h.after hpc rfl hgen rfl ⟨rfl, rfl, rfl, rfl, rfl⟩ fun h => h
    | error | lost => exact h.after hpc rfl hgen rfl ⟨rfl, rfl, rfl, rfl, rfl⟩ (by simp)

/-- **Every step keeps the account.** -/
theorem Account.step (h : r.Account w) (hw : w.Inv) (x : Input) : Accounts w r x := by
  have hgen := Nat.le_refl w.gen
  cases hpc : r.pc with
  | manifest => exact accounts_manifest h hpc
  | list => exact accounts_list h hpc
  | next => exact accounts_next h hpc
  | generation => exact accounts_generation h hw hpc
  | snapshots =>
    simp only [Accounts, Run.step, hpc]
    split
    · exact h.within hpc hgen rfl rfl fun _ _ _ => trivial
    · exact h.fail hgen
  | leftovers => exact accounts_leftovers h hpc
  | snapshot => exact accounts_snapshot h hpc
  | send =>
    simp only [Accounts, Run.step, hpc]
    split
    · exact h.within hpc hgen rfl rfl fun _ _ hcovers => hcovers
    · exact h.within hpc hgen rfl rfl fun _ _ _ => trivial
  | put =>
    simp only [Accounts, Run.step, hpc, upload]
    cases x.answer with
    | ok => exact h.within hpc hgen rfl rfl fun _ _ hcovers => hcovers
    | error | lost => exact h.within hpc hgen rfl rfl fun _ _ _ => trivial
  | unsend =>
    simp only [Accounts, Run.step, hpc]
    exact h.fail hgen
  | createdAt => exact accounts_createdAt h hpc
  | dropParent =>
    simp only [Accounts, Run.step, hpc]
    exact h.within hpc hgen rfl rfl fun _ _ hcovers => hcovers
  | save => exact accounts_save h hpc
  | index | claudes =>
    simp only [Accounts, Run.step, hpc]
    split
    · exact h.after hpc rfl hgen rfl ⟨rfl, rfl, rfl, rfl, rfl⟩ fun h => h
    · exact h.abort
  | putState =>
    simp only [Accounts, Run.step, hpc, upload]
    cases x.answer with
    | ok => exact h.after hpc rfl hgen rfl ⟨rfl, rfl, rfl, rfl, rfl⟩ fun h => h
    | error | lost => exact h.failed hgen rfl (.inr rfl) rfl rfl
  | saveState =>
    simp only [Accounts, Run.step, hpc, upload]
    cases x.answer with
    | ok => exact h.after hpc rfl hgen rfl ⟨rfl, rfl, rfl, rfl, rfl⟩ fun h => h
    | error | lost => exact h.failed hgen rfl (.inr rfl) rfl rfl
  | sweepList =>
    simp only [Accounts, Run.step, hpc]
    split
    · split
      · exact h.after hpc rfl hgen rfl ⟨rfl, rfl, rfl, rfl, rfl⟩ fun h => h
      · exact h.after hpc rfl hgen rfl ⟨rfl, rfl, rfl, rfl, rfl⟩ fun h => h
    · exact h.abort
  | sweep => exact accounts_sweep h hpc
  | done =>
    simp only [Accounts, Run.step, hpc]
    exact h

end Places

private theorem Inv.covers (h : r.Inv w) (hw : w.Inv) (hages : w.Ages w') {g : Gen}
    (hcovers : r.pc.Covers w g) : r.pc.Covers w' g := by
  have hpc := h.pc
  have hkeep : ∀ {id : EnvID} {name : SnapID}, w.Used name →
      (w.pool.node (.snap id name) ≠ none → g ≤ w.taken id name) →
      w'.pool.node (.snap id name) ≠ none → g ≤ w'.taken id name := by
    intro id name hused hcovers hnode
    obtain ⟨hnode, htaken⟩ := hages.there hused hnode
    rw [htaken]
    exact hcovers hnode
  cases hcase : r.pc with
  | send env parent name =>
    rw [hcase] at hcovers hpc
    exact hkeep hpc.2.1 hcovers
  | put env parent name st =>
    rw [hcase] at hcovers hpc
    exact hkeep hpc.1 hcovers
  | createdAt env parent name =>
    rw [hcase] at hcovers hpc
    obtain ⟨st, hget, -⟩ := hpc
    exact hkeep (hw.old (.send env.id name) (by simp [hget])) hcovers
  | dropParent env p eb | save env eb =>
    rw [hcase] at hcovers
    exact hcovers
  | _ => trivial

theorem Account.ages (h : r.Account w) (hr : r.Inv w) (hw : w.Inv) (hages : w.Ages w') :
    r.Account w' :=
  { h with
    seen := fun id g hg => ⟨(h.seen id g hg).1, Nat.le_trans (h.seen id g hg).2 hages.gen⟩
    hand := fun hok env hpc g hg => hr.covers hw hages (h.hand hok env hpc g hg) }

theorem Account.begin (w : World T) : ({} : Run T).Account w :=
  .loops rfl rfl (fun _ => ⟨rfl, rfl⟩) (by simp) (by simp) (by simp) (by simp) (by simp)

end Run

namespace Backups

variable {s s' : Backups T}

/-! ### One run at a time

Then the manifest in the bucket is the run's own when it reads a page, so it sweeps fairly whatever
the others do: `Alone` needs no assumption on the listing, as two runs do.
-/

/-- A run begins only when none is under way. -/
def One (s s' : Backups T) : Prop :=
  ∀ i, s.run i = none → s'.run i ≠ none → ∀ j, s.run j = none

/-- What holds at any time when one run is made at a time. -/
structure Alone (s : Backups T) : Prop where
  inv : s.Inv
  one : ∀ i r, s.run i = some r → s.run (!i) = none
  saved : ∀ i r, s.run i = some r → r.saved → s.w.manifest? = some r.m
  account : ∀ i r, s.run i = some r → r.Account s.w

/-- **A run alone sweeps fairly**: whenever it reads a page, the manifest in the bucket is its
own. -/
theorem Alone.fair [Tree T] (h : s.Alone) (hstep : Step s s') : s.Fair s' := by
  cases hstep with
  | begins i hnone =>
    refine .of_update fun r _ hrun => ?_
    rw [hnone] at hrun
    contradiction
  | goes i q hq x =>
    refine .of_update fun r r' hrun hr' k hk hnew => ?_
    cases hq.symm.trans hrun
    cases hr'
    obtain ⟨⟨keys, hpc⟩, -, hkeep⟩ :=
      (Run.step_effect h.inv.world (h.inv.runs i q hrun) x).listed hk hnew
    refine ⟨fun m hm hname => ?_, fun q' hq' => ?_⟩
    · rw [h.saved i q hrun (by simp [Run.saved, hpc])] at hm
      cases hm
      rw [Manifest.keeps_iff.mpr (.inr hname)] at hkeep
      contradiction
    · rw [h.one i q hrun] at hq'
      contradiction
  | stops i => exact .of_update fun _ _ _ hr' => by contradiction
  | others =>
    intro i r r' hrun hrun' k hk hnew
    cases hrun.symm.trans hrun'
    exact absurd hk hnew

private theorem run_update {i : Bool} {q : Run T} (hother : s.run (!i) = none) (j : Bool)
    (r : Run T) (hr : Function.update s.run i (some q) j = some r) : j = i ∧ r = q := by
  by_cases hj : j = i
  · subst hj
    exact ⟨rfl, by simpa using hr.symm⟩
  · obtain rfl : j = !i := by cases i <;> cases j <;> simp_all
    simp [hother] at hr

theorem Alone.step [Tree T] (h : s.Alone) (hone : s.One s') (hstep : Step s s') : s'.Alone := by
  have hinv := h.inv.step (h.fair hstep) hstep
  cases hstep with
  | begins i hnone =>
    have hidle := hone i hnone (by simp)
    have hrun := run_update (q := {}) (hidle !i)
    refine ⟨hinv, fun j r hr => ?_, fun j r hr hsaved => ?_, fun j r hr => ?_⟩
    · obtain ⟨rfl, -⟩ := hrun j r hr
      simp [hidle]
    · obtain ⟨-, rfl⟩ := hrun j r hr
      contradiction
    · obtain ⟨-, rfl⟩ := hrun j r hr
      exact .begin _
  | goes i r hrun x =>
    have hother : s.run (!i) = none := h.one i r hrun
    have hruns := run_update (q := (r.step s.w x).2) hother
    refine ⟨hinv, fun j q hq => ?_, fun j q hq => ?_, fun j q hq => ?_⟩
    · obtain ⟨rfl, -⟩ := hruns j q hq
      simp [hother]
    · obtain ⟨-, rfl⟩ := hruns j q hq
      exact Run.saved_step (h.saved i r hrun)
        (fun k hk => (h.inv.swept i r hrun k hk).manifest) x
    · obtain ⟨-, rfl⟩ := hruns j q hq
      exact (h.account i r hrun).step h.inv.world x
  | stops i =>
    have hrun : ∀ j r, Function.update s.run i none j = some r → s.run j = some r := by
      intro j r hr
      by_cases hj : j = i
      · subst hj
        simp at hr
      · simpa [hj] using hr
    refine ⟨hinv, fun j r hr => ?_, fun j r hr => h.saved j r (hrun j r hr),
      fun j r hr => h.account j r (hrun j r hr)⟩
    have hnone := h.one j r (hrun j r hr)
    by_cases hj : (!j) = i
    · simp [hj]
    · simpa [hj] using hnone
  | others hothers =>
    refine ⟨hinv, h.one, fun j r hr hsaved => ?_, fun j r hr => ?_⟩
    · have hm := h.saved j r hr hsaved
      rw [World.manifest?_eq_some] at hm ⊢
      rw [hothers.bucket]
      exact hm
    · exact (h.account j r hr).ages (h.inv.runs j r hr) h.inv.world (h.inv.world.others hothers)

theorem Reach.alone [Tree T] (h : Reach One s) : s.Alone := by
  induction h with
  | start h =>
    exact ⟨h.inv, fun i r hr => by simp [h.run i] at hr, fun i r hr => by simp [h.run i] at hr,
      fun i r hr => by simp [h.run i] at hr⟩
  | step _ hok hstep ih => exact ih.step hok hstep

end Backups

end Fern
