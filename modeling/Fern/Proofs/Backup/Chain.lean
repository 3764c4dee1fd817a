/-
Manifests that can be restored.

A chain is a full send and sends each made from the one before it.  A manifest is whole in a
bucket if its state and its chains are there.  Only the objects it names matter for that.
-/
import Fern.Backup.Once

namespace Fern

variable {T : Type} {b b' : FinMap Key (Object T)} {m : Manifest} {id : EnvID} {eb : EnvBackup}
  {k : Key} {l : List Send}

/-! ### Chains -/

/-- The objects of `l` are a full send and sends each made from the snapshot of the one before
it, up to the snapshot and generation `tip`. -/
inductive Chain (b : FinMap Key (Object T)) (id : EnvID) :
    List Send → Option (SnapID × Gen) → Prop
  | nil : Chain b id [] none
  | send {l : List Send} {tip : Option (SnapID × Gen)} (h : Chain b id l tip) (st : SendStream T)
      (hget : b.get (.send id st.snapshot) = some (.send st)) (hparent : st.parent = tip) :
      Chain b id (l ++ [⟨st.snapshot, .send id st.snapshot⟩]) (some (st.snapshot, st.taken))

theorem Chain.congr {tip : Option (SnapID × Gen)} (h : Chain b id l tip)
    (hsame : ∀ s ∈ l, b'.get s.key = b.get s.key) : Chain b' id l tip := by
  induction h with
  | nil => exact .nil
  | send h st hget hparent ih =>
    refine .send (ih fun s hs => hsame s (by simp [hs])) st ?_ hparent
    rw [← hget]
    exact hsame ⟨st.snapshot, .send id st.snapshot⟩ (by simp)

theorem Chain.get {tip : Option (SnapID × Gen)} (h : Chain b id l tip) {s : Send} (hs : s ∈ l) :
    ∃ st, s.key = .send id st.snapshot ∧ b.get s.key = some (.send st) := by
  induction h with
  | nil => contradiction
  | send h st hget hparent ih =>
    rcases List.mem_append.mp hs with hs | hs
    · exact ih hs
    · rw [List.mem_singleton] at hs
      subst hs
      exact ⟨st, rfl, hget⟩

theorem Chain.last {x : SnapID} {g : Gen} (h : Chain b id l (some (x, g))) :
    ∃ st, l.getLast? = some ⟨x, .send id x⟩ ∧ b.get (.send id x) = some (.send st) ∧
      st.snapshot = x ∧ st.taken = g := by
  cases h with
  | send h st hget hparent => exact ⟨st, by simp, hget, rfl, rfl⟩

/-- An environment's backup is whole. -/
structure Chained (b : FinMap Key (Object T)) (id : EnvID) (eb : EnvBackup) : Prop where
  length : eb.chain.length ≤ maxChain
  chain : ∃ x, Chain b id eb.chain (some (x, eb.generation))

theorem Chained.nonempty (h : Chained b id eb) : eb.chain ≠ [] := by
  obtain ⟨x, hx⟩ := h.chain
  obtain ⟨_, hlast, _⟩ := hx.last
  rintro hnil
  rw [hnil] at hlast
  contradiction

theorem Chained.congr (h : Chained b id eb) (hsame : ∀ s ∈ eb.chain, b'.get s.key = b.get s.key) :
    Chained b' id eb := by
  obtain ⟨x, hx⟩ := h.chain
  exact ⟨h.length, x, hx.congr hsame⟩

/-! ### Manifests -/

/-- What a manifest names is in the bucket, and its chains are chains. -/
structure Manifest.Whole (b : FinMap Key (Object T)) (m : Manifest) : Prop where
  state : ∀ k, m.state = some k → ∃ t a, k = .state t ∧ b.get k = some (.state a)
  chains : ∀ id eb, m.envs.get id = some eb → Chained b id eb

namespace Manifest

theorem not_names_empty (k : Key) : ¬ Manifest.empty.Names k := by
  rintro (hk | ⟨id, eb, heb, -⟩) <;> contradiction

theorem Whole.empty : Whole b Manifest.empty := ⟨nofun, nofun⟩

theorem Whole.names (h : Whole b m) (hk : m.Names k) : b.get k ≠ none ∧ k ≠ .manifest := by
  rcases hk with hk | ⟨id, eb, heb, s, hs, rfl⟩
  · obtain ⟨t, a, rfl, hget⟩ := h.state k hk
    exact ⟨by simp [hget], nofun⟩
  · obtain ⟨x, hx⟩ := (h.chains id eb heb).chain
    obtain ⟨st, hkey, hget⟩ := hx.get hs
    exact ⟨by simp [hget], by simp [hkey]⟩

theorem Whole.congr (h : Whole b m) (hsame : ∀ k, m.Names k → b'.get k = b.get k) :
    Whole b' m := by
  refine ⟨fun k hk => ?_, fun id eb heb => ?_⟩
  · rw [hsame k (.inl hk)]
    exact h.state k hk
  · exact (h.chains id eb heb).congr fun s hs => hsame _ (.inr ⟨id, eb, heb, s, hs, rfl⟩)

theorem Whole.setEnv (h : Whole b m) (heb : Chained b id eb) : Whole b (m.setEnv id eb) := by
  refine ⟨h.state, fun id' eb' heb' => ?_⟩
  simp only [Manifest.setEnv, FinMap.get_set] at heb'
  split at heb'
  case isTrue hid =>
    cases heb'
    rw [hid]
    exact heb
  case isFalse => exact h.chains id' eb' heb'

theorem Whole.keepOnly (h : Whole b m) (live : List EnvID) : Whole b (m.keepOnly live) := by
  refine ⟨h.state, fun id eb heb => h.chains id eb ?_⟩
  simp only [Manifest.keepOnly, FinMap.get_eraseIf] at heb
  split at heb
  · contradiction
  · exact heb

theorem Whole.set (h : Whole b m) (hnone : b.get k = none) (o : Object T) :
    Whole (b.set k o) m := by
  refine h.congr fun k' hk' => ?_
  have hne : k' ≠ k := by
    rintro rfl
    exact (h.names hk').1 hnone
  simp [hne]

theorem names_setEnv (h : (m.setEnv id eb).Names k) :
    m.Names k ∨ ∃ s ∈ eb.chain, s.key = k := by
  rcases h with h | ⟨id', eb', heb', hs⟩
  · exact .inl (.inl h)
  · simp only [Manifest.setEnv, FinMap.get_set] at heb'
    split at heb'
    · cases heb'
      exact .inr hs
    · exact .inl (.inr ⟨id', eb', heb', hs⟩)

theorem names_keepOnly {live : List EnvID} (h : (m.keepOnly live).Names k) :
    m.Names k := by
  rcases h with h | ⟨id, eb, heb, hs⟩
  · exact .inl h
  · refine .inr ⟨id, eb, ?_, hs⟩
    simp only [Manifest.keepOnly, FinMap.get_eraseIf] at heb
    split at heb
    · contradiction
    · exact heb

theorem keeps_iff : m.keeps k = true ↔ k = .manifest ∨ m.Names k := by
  simp only [keeps, Bool.or_eq_true, decide_eq_true_eq, List.any_eq_true, or_assoc]
  refine or_congr Iff.rfl (or_congr Iff.rfl ⟨?_, ?_⟩)
  · rintro ⟨id, -, h⟩
    rw [Option.any_eq_true] at h
    obtain ⟨eb, heb, hs⟩ := h
    simp only [List.any_eq_true, decide_eq_true_eq] at hs
    exact ⟨id, eb, heb, hs⟩
  · rintro ⟨id, eb, heb, s, hs, hk⟩
    refine ⟨id, FinMap.mem_keys.mpr (by simp [heb]), ?_⟩
    rw [Option.any_eq_true]
    exact ⟨eb, heb, by simpa using ⟨s, hs, hk⟩⟩

/-! ### One more send -/

/-- A send of environment `id` made from `q` goes on where its chain ends, or starts one. -/
inductive Extends (m : Manifest) (id : EnvID) : Option SnapID → Option (SnapID × Gen) → Prop
  | full : Extends m id none none
  | more (eb : EnvBackup) (p : SnapID) (heb : m.envs.get id = some eb)
      (hlength : eb.chain.length < maxChain)
        (hlast : eb.chain.getLast?.map Send.snapshot = some p) :
      Extends m id (some p) (some (p, eb.generation))

theorem mem_extend {env : EnvRow} {parent : Option SnapID} {name : SnapID} {taken : Gen} {s : Send}
    (hs : s ∈ (m.extend env parent name taken).chain) :
    m.Names s.key ∨ s.key = .send env.id name := by
  simp only [Manifest.extend] at hs
  split at hs
  case h_1 eb heb =>
    rcases List.mem_append.mp hs with hs | hs
    · exact .inl (.inr ⟨env.id, eb, heb, s, hs, rfl⟩)
    · rw [List.mem_singleton] at hs
      exact .inr (by rw [hs])
  case h_2 =>
    rw [List.mem_singleton] at hs
    exact .inr (by rw [hs])

theorem parent?_eq_some {p : SnapID} (h : m.parent? id = some p) :
    ∃ eb, m.envs.get id = some eb ∧ eb.chain.length < maxChain ∧
      eb.chain.getLast?.map Send.snapshot = some p := by
  obtain ⟨eb, heb, h⟩ := Option.bind_eq_some_iff.mp h
  rw [Option.ite_none_right_eq_some] at h
  exact ⟨eb, heb, h⟩

/-- **A send that goes on where the chain ends makes a longer chain.** -/
theorem Whole.extend (h : Whole b m) {env : EnvRow} {parent : Option SnapID} {st : SendStream T}
    (hget : b.get (.send env.id st.snapshot) = some (.send st))
    (hext : Extends m env.id parent st.parent) :
    Chained b env.id (m.extend env parent st.snapshot st.taken) := by
  generalize hq : st.parent = q at hext
  cases hext with
  | full =>
    exact ⟨by simp [Manifest.extend, maxChain], st.snapshot, .send .nil st hget hq⟩
  | more eb p heb hlength hlast =>
    obtain ⟨x, hx⟩ := (h.chains env.id eb heb).chain
    have hchain : (m.extend env (some p) st.snapshot st.taken).chain =
        eb.chain ++ [⟨st.snapshot, .send env.id st.snapshot⟩] := by
      simp [Manifest.extend, heb]
    refine ⟨by rw [hchain, List.length_append]; exact hlength, st.snapshot, ?_⟩
    rw [hchain]
    -- the chain's tip is the snapshot the send was made from
    obtain ⟨_, hlast', _⟩ := hx.last
    obtain rfl : x = p := by simpa [hlast'] using hlast
    exact .send hx st hget hq

end Manifest

end Fern
