/-
What a load has done wherever it stops.

Most operations of a load touch a leftover's name, and are not seen.  What is left are the two
renames, of an unpacked image and of a link.  Followed through the calls, this says that a load
passes through its plan: what is seen at any point is what the first changes of it make.
-/
import Fern.Image.Plan

namespace Fern

open List

variable {id tag tmp : String} {T : String → Prop} {files : FinMap Parts (Option Bytes)}
  {m : Manifest} {ms : List Manifest}

namespace Image

open Call

variable {ρ : Type} {host : Host ρ} {s t : Images ρ} {placed : List (Change ρ)} {f : Folder ρ}

/-! ### Operations

An operation under a temporary name changes that entry only (`Within`).  Nothing but `link` makes a
link, so a leftover that is one was one before. -/

/-- Where `t` differs from `s`, `T` holds of the name, and no leftover has become a link. -/
structure Within (T : String → Prop) (s t : Images ρ) : Prop where
  get : ∀ name, ¬ T name → t.dir.get name = s.dir.get name
  pruning : t.pruning = s.pruning
  renames : t.renames = s.renames
  links : ∀ name id, isLeftover name = true → t.dir.get name = some (.link id) →
    s.dir.get name = some (.link id)

theorem Within.refl : Within T s s :=
  ⟨fun _ _ => rfl, rfl, rfl, fun _ _ _ h => h⟩

theorem Within.trans {u : Images ρ} (h : Within T s t) (h' : Within T t u) :
    Within T s u :=
  ⟨fun name hname => (h'.get name hname).trans (h.get name hname), h'.pruning.trans h.pruning,
    h'.renames.trans h.renames, fun name id hname hu =>
      h.links name id hname (h'.links name id hname hu)⟩

theorem Within.mono {T' : String → Prop} (h : Within T s t) (hT : ∀ name, T name → T' name) :
    Within T' s t := ⟨fun name hname => h.get name fun hn => hname (hT name hn), h.pruning,
      h.renames, h.links⟩

theorem within_setFolder (name : String) (f : Folder ρ) :
    Within (· = name) s (s.setEntry name (.folder f)) := by
  refine ⟨fun x hx => by simp [Images.setEntry, hx], rfl, rfl, fun x id _ hx => ?_⟩
  by_cases hn : x = name
  · simp [Images.setEntry, hn] at hx
  · simpa [Images.setEntry, hn] using hx

theorem within_eraseEntry (name : String) : Within (· = name) s (s.eraseEntry name) := by
  refine ⟨fun x hx => by simp [Images.eraseEntry, hx], rfl, rfl, fun x id _ hx => ?_⟩
  by_cases hn : x = name
  · simp [Images.eraseEntry, hn] at hx
  · simpa [Images.eraseEntry, hn] using hx

/-! ### Calls

Two triples carry the argument.  `Inside` is for the steps that fill one temporary folder, which
are not seen; `Follows` below is for those that take the load along its plan.  Each has its own
rule for sequences, so that a call is followed as it is written. -/

variable {α : Type} {C : Op ρ → Images ρ → Prop} {Q : α → Images ρ → Prop}
  {E : String → Images ρ → Prop}

theorem wp_op {Q : Unit → Images ρ → Prop} {o : Op ρ} (hfail : ∀ e, E e s)
    (hrun : ∀ t, o.run s = .ok t → C o t ∧ Q () t) : wp (op host o) C Q E s := by
  unfold op
  rw [wp_perform]
  cases host.fault o s with
  | some e => exact hfail e
  | none =>
    dsimp only
    cases hr : o.run s with
    | error e => exact hfail e
    | ok t => exact hrun t hr

theorem wp_wrap {text : String} {c : ImageM ρ α} (h : wp c C Q (fun _ t => ∀ e, E e t) s) :
    wp (wrap text c) C Q E s := by
  unfold wrap
  rw [wp_bind, wp_attempt]
  refine wp_mono h (fun _ _ h => h) (fun a t ha => ?_) fun e t he => ?_
  · rw [wp_pure]
    exact ha
  · rw [wp_fail]
    exact he _

theorem wp_thenRemove {c : ImageM ρ α} (h : wp c C Q E s)
    (hQ : ∀ a t, Q a t → C (.removeAll tmp) (t.eraseEntry tmp) ∧ Q a (t.eraseEntry tmp))
    (hE : ∀ e t, E e t → C (.removeAll tmp) (t.eraseEntry tmp) ∧ E e (t.eraseEntry tmp)) :
    wp (thenRemove host tmp c) C Q E s := by
  unfold thenRemove
  rw [wp_bind, wp_attempt]
  refine wp_mono h (fun _ _ h => h) (fun a t ha => ?_) fun e t he => ?_
  · rw [wp_bind, wp_attempt]
    refine wp_op (fun _ => ?_) fun u hu => ?_
    · exact (wp_pure a).mpr ha
    · cases hu
      exact ⟨(hQ a t ha).1, (wp_pure a).mpr (hQ a t ha).2⟩
  · rw [wp_bind, wp_attempt]
    refine wp_op (fun _ => ?_) fun u hu => ?_
    · exact (wp_fail e).mpr he
    · cases hu
      exact ⟨(hE e t he).1, (wp_fail e).mpr (hE e t he).2⟩

/-- `c` changes no entry but `tmp`, wherever it stops, and leaves what `Q` says. -/
def Inside (tmp : String) (c : ImageM ρ α) (Q : α → Images ρ → Prop) (s : Images ρ) : Prop :=
  wp c (fun _ => Within (· = tmp) s) (fun a t => Within (· = tmp) s t ∧ Q a t)
    (fun _ => Within (· = tmp) s) s

theorem inside_pure {a : α} (h : Q a s) : Inside tmp (pure a) Q s := (wp_pure a).mpr ⟨.refl, h⟩

theorem inside_fail {e : String} : Inside tmp (fail e) Q s := (wp_fail e).mpr .refl

theorem Inside.seq {β : Type} {c : ImageM ρ α} {k : α → ImageM ρ β} {R : β → Images ρ → Prop}
    (h : Inside tmp c Q s) (hk : ∀ a t, Within (· = tmp) s t → Q a t → Inside tmp (k a) R t) :
    Inside tmp (c >>= k) R s := by
  refine wp_seq h fun a t ht => ?_
  exact wp_mono (hk a t ht.1 ht.2) (fun _ _ hu => ht.1.trans hu)
    (fun _ _ hu => ⟨ht.1.trans hu.1, hu.2⟩) fun _ _ hu => ht.1.trans hu

theorem inside_op {o : Op ρ} {change : Folder ρ → Except String (Folder ρ)}
    (h : s.dir.get tmp = some (.folder f)) (ho : o.run s = s.inFolder tmp change) :
    Inside tmp (op host o)
      (fun _ t => ∃ f', change f = .ok f' ∧ t.dir.get tmp = some (.folder f')) s := by
  refine wp_op (fun _ => .refl) fun t ht => ?_
  rw [ho, Images.inFolder, h] at ht
  cases hchange : change f with
  | error e =>
    simp only [hchange] at ht
    cases ht
  | ok f' =>
    simp only [hchange] at ht
    cases ht
    exact ⟨within_setFolder tmp f', within_setFolder tmp f', f', rfl, by simp [Images.setEntry]⟩

/-! ### What is seen

A name that isn't a leftover's changes in a rename only, so what is seen is what the renames so
far have made.  The count of them ties a point of the load to a prefix of its plan. -/

variable {V : View ρ} {n : Nat} {l l' : List (Change ρ)}

theorem isLeftover_stage (name : String) : isLeftover (stagePrefix ++ name) = true := by
  simp [isLeftover, isPrefixOf_iff_prefix]

theorem isLeftover_unpack (name : String) : isLeftover (unpackPrefix ++ name) = true := by
  simp [isLeftover, isPrefixOf_iff_prefix]

theorem Seen.within (h : Seen V s) (ht : Within (isLeftover · = true) s t) : Seen V t :=
  fun name hname => (ht.get name (by simp [hname])).trans (h name hname)

/-- `V` is seen, nothing has been pruned, and `n` renames have been counted. -/
structure Calm (V : View ρ) (n : Nat) (s : Images ρ) : Prop where
  seen : Seen V s
  pruning : s.pruning = false
  renames : s.renames = n

/-- What is seen are the first changes of `l`, one for each rename counted since there were `n`. -/
def Along (V : View ρ) (n : Nat) (l : List (Change ρ)) (s : Images ρ) : Prop :=
  ∃ p, p <+: l ∧ Calm (V.after p) (n + p.length) s

theorem Calm.along (h : Calm V n s) : Along V n l s := ⟨[], nil_prefix, h⟩

theorem Calm.along_all (h : Calm (V.after l) (n + l.length) s) : Along V n l s :=
  ⟨l, prefix_rfl, h⟩

theorem Along.append (h : Along V n l s) : Along V n (l ++ l') s := by
  obtain ⟨p, hp, hcalm⟩ := h
  exact ⟨p, hp.trans (prefix_append l l'), hcalm⟩

theorem Along.after (h : Along (V.after l) (n + l.length) l' s) : Along V n (l ++ l') s := by
  obtain ⟨p, hp, hcalm⟩ := h
  refine ⟨l ++ p, (prefix_append_right_inj l).mpr hp, ?_⟩
  rwa [View.after, foldl_append, length_append, ← Nat.add_assoc]

theorem Calm.within (h : Calm V n s) (ht : Within (isLeftover · = true) s t) : Calm V n t :=
  ⟨h.seen.within ht, ht.pruning.trans h.pruning, ht.renames.trans h.renames⟩

theorem Along.within (h : Along V n l s) (ht : Within (isLeftover · = true) s t) :
    Along V n l t := by
  obtain ⟨p, hp, hcalm⟩ := h
  exact ⟨p, hp, hcalm.within ht⟩

/-! ### Unpacking

An image is put together under a name of its own and renamed when it is whole; so wherever
`unpack` stops, the image is seen as the plan has it or not at all. -/

/-- A load under way: `V` is seen, and the stage is as the stream made it.  If `N`, no leftover is a
link. -/
structure Staged (N : Prop) (stage : String) (F : Folder ρ) (V : View ρ) (n : Nat) (s : Images ρ) :
    Prop where
  calm : Calm V n s
  entry : s.dir.get stage = some (.folder F)
  left : isLeftover stage = true
  links : N → ∀ name id, isLeftover name = true → s.dir.get name ≠ some (.link id)

variable {N : Prop} {stage : String} {F : Folder ρ}

theorem Staged.within (h : Staged N stage F V n s) (ht : Within T s t)
    (hT : ∀ name, T name → isLeftover name = true) (hstage : ¬ T stage) : Staged N stage F V n t :=
  ⟨h.calm.within (ht.mono hT), (ht.get stage hstage).trans h.entry, h.left,
    fun hN name id hname hlink => h.links hN name id hname (ht.links name id hname hlink)⟩

theorem Staged.congr (h : Staged N stage F V n s) (hget : ∀ name, t.dir.get name = s.dir.get name)
    (hpruning : t.pruning = s.pruning) (hrenames : t.renames = s.renames) :
    Staged N stage F V n t :=
  ⟨⟨fun name hname => (hget name).trans (h.calm.seen name hname), hpruning.trans h.calm.pruning,
      hrenames.trans h.calm.renames⟩, (hget stage).trans h.entry, h.left,
    fun hN name id hname hlink => h.links hN name id hname ((hget name).symm.trans hlink)⟩

theorem Staged.place (h : Staged N stage F V n s) {name : String} (hname : isLeftover name = false)
    (e : Entry ρ) :
    Staged N stage F (Function.update V name (some e)) (n + 1) (s.place name e) := by
  have hne : ∀ x, isLeftover x = true → x ≠ name := by
    rintro x hx rfl
    rw [hx] at hname
    cases hname
  refine ⟨⟨fun x hx => ?_, h.calm.pruning, ?_⟩, ?_, h.left, fun hN x id hx => ?_⟩
  · by_cases hn : x = name
    · simp [Images.place, Images.setEntry, hn]
    · simpa [Images.place, Images.setEntry, hn] using h.calm.seen x hx
  · simp [Images.place, hname, h.calm.renames]
  · simpa [Images.place, Images.setEntry, hne stage h.left] using h.entry
  · simpa [Images.place, Images.setEntry, hne x hx] using h.links hN x id hx

theorem wp_readFile {Q : Bytes → Images ρ → Prop} {name : Parts}
    (h : s.dir.get tmp = some (.folder F))
    (hQ : ∀ data, (F.files.get name).join = some data → Q data s) (hE : ∀ e, E e s) :
    wp (readFile tmp name) C Q E s := by
  unfold readFile
  rw [wp_bind, wp_read, h]
  dsimp only
  cases hfile : F.files.get name with
  | none =>
    rw [wp_fail]
    exact hE _
  | some file =>
    cases file with
    | none =>
      rw [wp_fail]
      exact hE _
    | some data =>
      rw [wp_pure]
      exact hQ data (by rw [hfile]; rfl)

/-- The folder of an image being unpacked, before its config. -/
def bareFolder (r : ρ) : Folder ρ := { root := some r }

theorem inside_roots (roots : List ρ) : ∀ {r : ρ} {s : Images ρ},
    s.dir.get tmp = some (.folder (bareFolder r)) →
    Inside tmp (each (fun r => op host (.root tmp r)) roots)
      (fun _ t => t.dir.get tmp = some (.folder (bareFolder (roots.getLast?.getD r)))) s := by
  induction roots with
  | nil => exact fun hs => inside_pure hs
  | cons r' roots ih =>
    intro r s hs
    refine (inside_op hs rfl).seq fun _ t _ ht => ?_
    obtain ⟨f, hf, ht⟩ := ht
    cases hf
    have hlast : (r' :: roots).getLast?.getD r = roots.getLast?.getD r' := by cases roots <;> rfl
    rw [hlast]
    exact ih ht

theorem inside_unpackLayer {l : String} {r : ρ} (hstage : s.dir.get stage = some (.folder F))
    (htmp : s.dir.get tmp = some (.folder (bareFolder r))) :
    Inside tmp (unpackLayer host stage tmp id r l)
      (fun r' t => t.dir.get tmp = some (.folder (bareFolder r')) ∧
        ∀ ls, rootOf host F.files r (l :: ls) = rootOf host F.files r' ls) s := by
  unfold unpackLayer
  cases hclean : clean l with
  | none => exact inside_fail
  | some name =>
    refine wp_wrap ?_
    rw [wp_bind]
    refine wp_readFile hstage (fun data hdata => ?_) fun _ _ => .refl
    rcases hlayer : host.layer r data with ⟨roots, err⟩
    dsimp only
    refine wp_step (inside_roots roots htmp) (fun _ _ h => h) (fun _ _ h _ => h) fun _ t ht => ?_
    cases err with
    | some e =>
      rw [wp_fail]
      exact fun _ => ht.1
    | none =>
      rw [wp_pure]
      refine ⟨ht.1, ht.2, fun ls => ?_⟩
      rw [rootOf, hclean, Option.bind_some, hdata]
      dsimp only
      rw [hlayer]

theorem inside_unpackLayers (hne : stage ≠ tmp) (layers : List String) :
    ∀ {r : ρ} {s : Images ρ}, s.dir.get stage = some (.folder F) →
    s.dir.get tmp = some (.folder (bareFolder r)) →
    Inside tmp (eachWith (unpackLayer host stage tmp id) r layers)
      (fun r' t => t.dir.get tmp = some (.folder (bareFolder r')) ∧
        rootOf host F.files r layers = some r') s := by
  induction layers with
  | nil => exact fun _ htmp => inside_pure ⟨htmp, rfl⟩
  | cons l ls ih =>
    intro r s hstage htmp
    refine (inside_unpackLayer hstage htmp).seq fun r' t hwithin ht => ?_
    rw [ht.2]
    exact ih ((hwithin.get stage hne).trans hstage) ht.1

theorem wp_mkdirTemp {Q : String → Images ρ → Prop} {start : String} (hE : ∀ e, E e s)
    (hQ : ∀ text tmp, tmp = start ++ text → s.dir.get tmp = none →
      C (.mkdirTemp tmp) (s.setEntry tmp (.folder {})) ∧ Q tmp (s.setEntry tmp (.folder {}))) :
    wp (mkdirTemp host start) C Q E s := by
  unfold mkdirTemp
  rw [wp_bind, wp_read, wp_bind]
  refine wp_op hE fun t ht => ?_
  dsimp only [Op.run] at ht
  split at ht
  case h_1 hnone =>
    cases ht
    obtain ⟨hC, hQ⟩ := hQ _ _ rfl hnone
    exact ⟨hC, (wp_pure _).mpr hQ⟩
  case h_2 => cases ht

theorem wp_readImage {Q : Loaded → Images ρ → Prop}
    (hQ : ∀ img f cfg, img.id = id → s.folderAt 41 id = some f →
      f.files.get ["config.json"] = some (some cfg) → Q img s) (hE : ∀ e, E e s) :
    wp (readImage host id) C Q E s := by
  unfold readImage
  rw [wp_bind, wp_read]
  split
  case h_1 cfg hcfg =>
    obtain ⟨f, hf, hcfg⟩ := Option.map_eq_some_iff.mp hcfg
    split
    · rw [wp_pure]
      exact hQ _ f cfg rfl hf hcfg
    · rw [wp_fail]
      exact hE _
  case h_2 =>
    rw [wp_fail]
    exact hE _

theorem rename_eq (htmp : s.dir.get tmp = some (.folder f)) (h : (Op.rename tmp id).run s = .ok t) :
    View.free s.dir.get id = true ∧ t = (s.eraseEntry tmp).place id (.folder f) := by
  dsimp only [Op.run] at h
  rw [htmp] at h
  dsimp only at h
  cases hid : s.dir.get id with
  | none =>
    rw [hid] at h
    exact ⟨by simp [View.free, hid], (Except.ok.inj h).symm⟩
  | some e =>
    rw [hid] at h
    cases e with
    | folder g =>
      dsimp only at h
      split at h
      case isTrue hempty => exact ⟨by simp [View.free, hid, hempty], (Except.ok.inj h).symm⟩
      case isFalse => cases h
    | link => cases h
    | other => cases h

theorem free_congr {V' : View ρ} (h : V id = V' id) : V.free id = V'.free id := by
  unfold View.free
  rw [h]

/-- The image `id` has appeared, which wasn't there. -/
def Placed (N : Prop) (host : Host ρ) (stage : String) (F : Folder ρ) (V : View ρ) (n : Nat)
    (id : String) (cfg : Bytes) (layers : List String) (t : Images ρ) : Prop :=
  V.free id = true ∧ ∃ r, rootOf host F.files host.bare layers = some r ∧
    Staged N stage F (V.apply (.place id (imageFolder cfg r))) (n + 1) t

theorem Placed.within {cfg : Bytes} {layers : List String}
    (h : Placed N host stage F V n id cfg layers s) (ht : Within T s t)
    (hT : ∀ name, T name → isLeftover name = true) (hstage : ¬ T stage) :
    Placed N host stage F V n id cfg layers t := by
  obtain ⟨hfree, r, hr, hstaged⟩ := h
  exact ⟨hfree, r, hr, hstaged.within ht hT hstage⟩

theorem wp_unpackNew {cfg : Bytes} {layers : List String} (h : Staged N stage F V n s)
    (hid : isLeftover id = false) :
    wp (unpackNew host stage id cfg layers)
      (fun _ t => Staged N stage F V n t ∨ Placed N host stage F V n id cfg layers t)
      (fun img t => img.id = id ∧ Placed N host stage F V n id cfg layers t)
      (fun _ t => Staged N stage F V n t ∨ Placed N host stage F V n id cfg layers t) s := by
  unfold unpackNew
  rw [wp_bind]
  refine wp_mkdirTemp (fun _ => .inl h) fun text tmp htmp hnone => ?_
  have hleft : ∀ name, name = tmp → isLeftover name = true := by
    rintro name rfl
    rw [htmp]
    exact isLeftover_unpack text
  have hne : stage ≠ tmp := by
    rintro rfl
    rw [h.entry] at hnone
    cases hnone
  have hstep : ∀ {t u : Images ρ}, Staged N stage F V n t → Within (· = tmp) t u →
    Staged N stage F V n u :=
    fun ht hu => ht.within hu hleft hne
  have hplaced : ∀ {t : Images ρ}, Placed N host stage F V n id cfg layers t →
      Placed N host stage F V n id cfg layers (t.eraseEntry tmp) :=
    fun ht => ht.within (within_eraseEntry tmp) hleft hne
  have hin : ∀ {γ : Type} {t : Images ρ}, Staged N stage F V n t → ∀ (_ : γ) u,
      Within (· = tmp) t u → Staged N stage F V n u ∨ Placed N host stage F V n id cfg layers u :=
    fun ht _ u hu => .inl (hstep ht hu)
  have h₁ := hstep h (within_setFolder tmp {})
  refine ⟨.inl h₁, ?_⟩
  refine wp_thenRemove ?_ (fun img t ht => ⟨.inr (hplaced ht.2), ht.1, hplaced ht.2⟩)
    fun e t ht => ?_
  · -- the bare root
    refine wp_step (inside_op (f := {}) (by simp [Images.setEntry]) rfl) (hin h₁) (hin h₁)
      fun _ t ht => ?_
    obtain ⟨hwithin, f, hf, hroot⟩ := ht
    cases hf
    have h₂ := hstep h₁ hwithin
    -- the layers
    refine wp_step (inside_unpackLayers hne layers h₂.entry hroot) (hin h₂) (hin h₂)
      fun r u hu => ?_
    obtain ⟨hwithin, hroot, hr⟩ := hu
    have h₃ := hstep h₂ hwithin
    -- the config
    refine wp_step (inside_op hroot rfl) (hin h₃) (hin h₃) fun _ w hw => ?_
    obtain ⟨hwithin, f, hf, hroot⟩ := hw
    cases hf
    have h₄ := hstep h₃ hwithin
    rw [wp_bind]
    refine wp_op (fun _ => .inl h₄) fun x hx => ?_
    -- it appears
    obtain ⟨hfree, rfl⟩ := rename_eq hroot hx
    have h₅ : Placed N host stage F V n id cfg layers
        ((w.eraseEntry tmp).place id (.folder (imageFolder cfg r))) := by
      refine ⟨?_, r, hr, (hstep h₄ (within_eraseEntry tmp)).place hid _⟩
      rw [← free_congr (h₄.calm.seen id hid)]
      exact hfree
    refine ⟨.inr h₅, ?_⟩
    exact wp_readImage (fun img f cfg' himg _ _ => ⟨himg, h₅⟩) fun _ => .inr h₅
  · rcases ht with ht | ht
    · have := hstep ht (within_eraseEntry tmp)
      exact ⟨.inl this, .inl this⟩
    · exact ⟨.inr (hplaced ht), .inr (hplaced ht)⟩

theorem isLeftover_of_isID (h : isID id = true) : isLeftover id = false := by
  rw [isID, Bool.and_eq_true, all_eq_true] at h
  have hdot : ∀ start : List Char, '.' ∈ start → start.isPrefixOf id.toList = false := by
    intro start hmem
    rw [← Bool.not_eq_true, isPrefixOf_iff_prefix]
    rintro ⟨rest, hrest⟩
    have hdigit := h.2 '.' (hrest ▸ mem_append_left rest hmem)
    exact absurd hdigit (by decide)
  rw [isLeftover, hdot _ (by decide), hdot _ (by decide)]
  rfl

theorem not_free {cfg : Bytes} (hf : s.folderAt 41 id = some f)
    (hcfg : f.files.get ["config.json"] = some (some cfg)) : View.free s.dir.get id = false := by
  unfold Images.folderAt at hf
  unfold View.free
  split at hf
  case h_1 g hg =>
    obtain rfl := Option.some.inj hf
    rw [hg]
    have hmem : ["config.json"] ∈ g.files.keys := by
      rw [FinMap.mem_keys, hcfg]
      simp
    simp only [Folder.isEmpty, Bool.and_eq_false_iff, isEmpty_eq_false_iff]
    exact .inl (ne_nil_of_mem hmem)
  case h_2 target htarget => rw [htarget]
  case h_3 => cases hf

theorem View.after_append (l l' : List (Change ρ)) : V.after (l ++ l') = (V.after l).after l' :=
  foldl_append

/-- `c` makes the changes `l` one after another, and all of them if it returns. -/
def Follows (N : Prop) (stage : String) (F : Folder ρ) (V : View ρ) (n : Nat) (l : List (Change ρ))
    (c : ImageM ρ α) (R : α → Prop) (s : Images ρ) : Prop :=
  wp c (fun _ => Along V n l) (fun a t => Staged N stage F (V.after l) (n + l.length) t ∧ R a)
    (fun _ => Along V n l) s

theorem Follows.seq {β : Type} {c : ImageM ρ α} {k : α → ImageM ρ β} {R : α → Prop} {R' : β → Prop}
    (h : Follows N stage F V n l c R s)
    (hk : ∀ a t, Staged N stage F (V.after l) (n + l.length) t → R a →
      Follows N stage F (V.after l) (n + l.length) l' (k a) R' t) :
    Follows N stage F V n (l ++ l') (c >>= k) R' s := by
  refine wp_step h (fun _ _ ht => ht.append) (fun _ _ ht => ht.append) fun a t ht => ?_
  refine wp_mono (hk a t ht.1 ht.2) (fun _ _ hu => hu.after) (fun b u hu => ?_)
    fun _ _ hu => hu.after
  rwa [View.after_append, length_append, ← Nat.add_assoc]

/-- What `unpack` makes appear. -/
def placedOf (host : Host ρ) (F : Folder ρ) (V : View ρ) (m : Manifest) : List (Change ρ) :=
  ((imagePlace host F.files V m).map Prod.snd).getD []

theorem follows_unpack (h : Staged N stage F V n s) (m : Manifest) :
    Follows N stage F V n (placedOf host F V m) (unpack host stage m)
      (fun img => imagePlace host F.files V m = some (img.id, placedOf host F V m)) s := by
  have hnow : Along V n (placedOf host F V m) s := h.calm.along
  unfold unpack Follows
  cases hclean : clean m.config with
  | none =>
    rw [wp_fail]
    exact hnow
  | some cfgName =>
    dsimp only
    rw [wp_bind]
    refine wp_wrap (wp_readFile h.entry (fun cfg hcfg => ?_) fun _ _ => hnow)
    have hid := isLeftover_of_isID (host.isID_sha cfg)
    have hplace : imagePlace host F.files V m = if V.free (host.sha cfg) then
        (rootOf host F.files host.bare m.layers).map fun r =>
          (host.sha cfg, [.place (host.sha cfg) (imageFolder cfg r)])
        else some (host.sha cfg, []) := by
      rw [imagePlace, hclean, Option.bind_some, hcfg]
    have halong : ∀ t, Staged N stage F V n t ∨
      Placed N host stage F V n (host.sha cfg) cfg m.layers t →
        Along V n (placedOf host F V m) t := by
      rintro t (ht | ⟨hfree, r, hr, ht⟩)
      · exact ht.calm.along
      · unfold placedOf
        rw [hplace, if_pos hfree, hr]
        exact Calm.along_all ht.calm
    rw [wp_bind, wp_attempt]
    refine wp_readImage (fun img f cfg' himg hf hcfg' => ?_) fun e => ?_
    · -- it is there
      rw [wp_pure]
      have hfree : V.free (host.sha cfg) = false := by
        rw [← free_congr (h.calm.seen _ hid)]
        exact not_free hf hcfg'
      rw [placedOf, hplace, hfree, himg]
      exact ⟨h, rfl⟩
    · refine wp_mono (wp_unpackNew h hid) (fun _ t ht => halong t ht) (fun img t ht => ?_)
        fun _ t ht => halong t ht
      obtain ⟨himg, hfree, r, hr, ht⟩ := ht
      rw [placedOf, hplace, if_pos hfree, hr, himg]
      exact ⟨ht, rfl⟩

/-! ### Tags

A tag moves by one rename, of a link that was made beside it.  A tag with a leftover's name is
moved and not seen; that is why the tally is right only where there is none (`N`). -/

theorem renameLink_eq (htmp : s.dir.get tmp = some (.link id))
    (h : (Op.renameLink tmp tag).run s = .ok t) :
    t = (s.eraseEntry tmp).place tag (.link id) ∧ ∀ f, s.dir.get tag ≠ some (.folder f) := by
  dsimp only [Op.run] at h
  rw [htmp] at h
  dsimp only at h
  split at h
  case h_1 => cases h
  case h_2 hfolder =>
    split at h
    case isTrue => cases h
    case isFalse => exact ⟨(Except.ok.inj h).symm, hfolder⟩

theorem wp_link (h : Staged N stage F V n s) (hN : N → isLeftover tag = false) :
    wp (link host id tag)
      (fun _ t => Calm V n t ∨ isLeftover tag = false ∧ Calm (V.apply (.point tag id)) (n + 1) t)
      (fun _ t => if isLeftover tag then Staged N stage F V n t
        else Staged N stage F (V.apply (.point tag id)) (n + 1) t)
      (fun _ t => Calm V n t) s := by
  unfold link
  rw [wp_bind, wp_read, wp_bind]
  refine wp_op (fun _ => h.calm) fun t ht => ?_
  dsimp only [Op.run] at ht
  split at ht
  case h_2 => cases ht
  case h_1 hnone =>
    cases ht
    -- the link has a name of its own first
    generalize htmp : stagePrefix ++ "link-" ++ host.text s = tmp at hnone ⊢
    have hleft : isLeftover tmp = true := by
      rw [← htmp, String.append_assoc]
      exact isLeftover_stage _
    have h₁ : Calm V n (s.setEntry tmp (.link id)) := by
      refine ⟨fun name hname => ?_, h.calm.pruning, h.calm.renames⟩
      have hne : name ≠ tmp := by
        rintro rfl
        rw [hleft] at hname
        cases hname
      simpa [Images.setEntry, hne] using h.calm.seen name hname
    have h₂ : Staged N stage F V n ((s.setEntry tmp (.link id)).eraseEntry tmp) := by
      refine h.congr (fun name => ?_) rfl rfl
      by_cases hn : name = tmp
      · simp [Images.eraseEntry, hn, hnone]
      · simp [Images.eraseEntry, Images.setEntry, hn]
    refine ⟨.inl h₁, ?_⟩
    rw [wp_bind, wp_attempt]
    refine wp_op (fun e => ?_) fun u hu => ?_
    · rw [wp_bind, wp_attempt]
      refine wp_op (fun _ => (wp_fail _).mpr h₁) fun u hu => ?_
      cases hu
      exact ⟨.inl h₂.calm, (wp_fail _).mpr h₂.calm⟩
    · have hlink : (s.setEntry tmp (.link id)).dir.get tmp = some (.link id) := by
        simp [Images.setEntry]
      obtain ⟨rfl, hfolder⟩ := renameLink_eq hlink hu
      rw [wp_pure]
      cases htag : isLeftover tag with
      | true =>
        -- such a tag is a leftover itself
        have hstage : stage ≠ tag := by
          rintro rfl
          refine hfolder F ?_
          have hne : stage ≠ tmp := by
            rintro rfl
            rw [h.entry] at hnone
            cases hnone
          simpa [Images.setEntry, hne] using h.entry
        have h₃ : Staged N stage F V n
            (((s.setEntry tmp (.link id)).eraseEntry tmp).place tag (.link id)) := by
          refine ⟨⟨fun name hname => ?_, h₂.calm.pruning, ?_⟩, ?_, h₂.left, fun hn => ?_⟩
          · have hne : name ≠ tag := by
              rintro rfl
              rw [htag] at hname
              cases hname
            have := h₂.calm.seen name hname
            simpa [Images.place, Images.setEntry, hne] using this
          · simpa [Images.place, htag] using h₂.calm.renames
          · have := h₂.entry
            simpa [Images.place, Images.setEntry, hstage] using this
          · rw [hN hn] at htag
            cases htag
        exact ⟨.inl h₃.calm, h₃⟩
      | false =>
        have h₃ := h₂.place htag (.link id)
        exact ⟨.inr ⟨rfl, h₃.calm⟩, h₃⟩

theorem prevs_append (l l' : List (Change ρ)) :
    ∀ V : View ρ, prevs V (l ++ l') = prevs V l ++ prevs (V.after l) l' := by
  induction l with
  | nil => exact fun V => rfl
  | cons c l ih =>
    intro V
    cases c with
    | place id f => exact ih _
    | point tag id =>
      rw [cons_append, prevs, prevs, ih, append_assoc]
      rfl

/-- What a tally has gathered from images and changes. -/
structure Tallied (ids : List String) (V : View ρ) (l : List (Change ρ)) (k k' : Tally) : Prop where
  keep : ∀ x, x ∈ k'.keep ↔ x ∈ k.keep ∨ x ∈ ids ∨ x ∈ prevs V l
  moved : k'.moved = (k.moved || l.any Change.isPoint)

theorem Tallied.refl (k : Tally) : Tallied [] V [] k k := ⟨fun x => by simp [prevs], by simp⟩

theorem Tallied.trans {ids ids' : List String} {k k' k'' : Tally} (h : Tallied ids V l k k')
    (h' : Tallied ids' (V.after l) l' k' k'') : Tallied (ids ++ ids') V (l ++ l') k k'' := by
  refine ⟨fun x => ?_, ?_⟩
  · rw [h'.keep, h.keep, prevs_append, mem_append, mem_append]
    tauto
  · rw [h'.moved, h.moved, any_append, Bool.or_assoc]

/-- The tag's name isn't one of a leftover. -/
def Visible (tag : String) : Prop := isLeftover (tagName tag) = false

theorem tagChanges_cases (id tag : String) (V : View ρ) :
    (∀ tags, tagChanges id V (tag :: tags) = tagChanges id V tags) ∨
      isLeftover (tagName tag) = false ∧ ∀ tags, tagChanges id V (tag :: tags) =
        .point (tagName tag) id :: tagChanges id (V.apply (.point (tagName tag) id)) tags := by
  by_cases h : isLeftover (tagName tag) = true ∨ V.readlink (tagName tag) = some id
  · left
    intro tags
    rw [tagChanges, if_pos h]
  · right
    refine ⟨by simpa using (not_or.mp h).1, fun tags => ?_⟩
    rw [tagChanges, if_neg h]

theorem tagChanges_cons (id tag : String) (tags : List String) :
    tagChanges id V (tag :: tags) = tagChanges id V [tag] ++
      tagChanges id (V.after (tagChanges id V [tag])) tags := by
  rcases tagChanges_cases id tag V with h | ⟨-, h⟩
  · rw [h, h]
    rfl
  · rw [h, h]
    rfl

theorem follows_loadTag {k : Tally} (h : Staged N stage F V n s) (hN : N → Visible tag) :
    Follows N stage F V n (tagChanges id V [tag]) (loadTag host id k tag)
      (fun k' => N → Tallied [] V (tagChanges id V [tag]) k k') s := by
  have hnow : ∀ {l : List (Change ρ)} {t}, Calm V n t → Along V n l t := fun ht => ht.along
  -- the tag moves, or isn't seen
  have hlink : ∀ k' : Tally,
      (Visible tag → V.readlink (tagName tag) ≠ some id ∧
        k'.keep = k.keep ++ (V.readlink (tagName tag)).toList ∧ k'.moved = true) →
      Follows N stage F V n (tagChanges id V [tag])
        (link host id (tagName tag) >>= fun _ => pure k')
        (fun k' => N → Tallied [] V (tagChanges id V [tag]) k k') s := by
    intro k' hk'
    cases htag : isLeftover (tagName tag) with
    | true =>
      have hnone : tagChanges id V [tag] = [] := by simp [tagChanges, htag]
      rw [hnone]
      refine wp_step (wp_link h hN) (fun _ t ht => ?_) (fun _ t ht => hnow ht) fun _ t ht => ?_
      · rw [htag] at ht
        rcases ht with ht | ⟨hf, -⟩
        · exact hnow ht
        · cases hf
      · rw [htag, if_pos rfl] at ht
        rw [wp_pure]
        exact ⟨ht, fun hn => absurd (hN hn) (by simp [Visible, htag])⟩
    | false =>
      obtain ⟨hne, hkeep, hmoved⟩ := hk' htag
      have hone : tagChanges id V [tag] = [.point (tagName tag) id] := by
        simp [tagChanges, htag, hne]
      rw [hone]
      refine wp_step (wp_link h hN) (fun _ t ht => ?_) (fun _ t ht => hnow ht) fun _ t ht => ?_
      · rcases ht with ht | ⟨-, ht⟩
        · exact hnow ht
        · exact Calm.along_all ht
      · rw [htag, if_neg Bool.false_ne_true] at ht
        rw [wp_pure]
        refine ⟨ht, fun _ => ⟨fun x => ?_, ?_⟩⟩
        · rw [hkeep]
          simp [prevs]
        · rw [hmoved]
          simp [Change.isPoint]
  have hread : Visible tag → s.readlink (tagName tag) = V.readlink (tagName tag) := by
    intro hvisible
    show View.readlink s.dir.get (tagName tag) = V.readlink (tagName tag)
    unfold View.readlink
    rw [h.calm.seen _ hvisible]
  unfold loadTag
  rw [Follows, wp_bind, wp_read]
  cases hprev : s.readlink (tagName tag) with
  | none =>
    dsimp only
    refine hlink _ fun hvisible => ?_
    rw [← hread hvisible, hprev]
    exact ⟨by simp, by simp, rfl⟩
  | some prev =>
    dsimp only
    split
    case isTrue hsame =>
      rw [wp_pure]
      have hnone : tagChanges id V [tag] = [] := by
        cases htag : isLeftover (tagName tag) with
        | true => simp [tagChanges, htag]
        | false => simp [tagChanges, ← hread htag, hprev, hsame]
      rw [hnone]
      exact ⟨h, fun _ => .refl k⟩
    case isFalse hne =>
      refine hlink _ fun hvisible => ?_
      rw [← hread hvisible, hprev]
      exact ⟨fun heq => hne (Option.some.inj heq), rfl, rfl⟩

theorem follows_loadTags (tags : List String) :
    ∀ {V : View ρ} {n : Nat} {k : Tally} {s : Images ρ},
    Staged N stage F V n s → (N → ∀ tag ∈ tags, Visible tag) →
    Follows N stage F V n (tagChanges id V tags) (eachWith (loadTag host id) k tags)
      (fun k' => N → Tallied [] V (tagChanges id V tags) k k') s := by
  induction tags with
  | nil => exact fun h _ => (wp_pure _).mpr ⟨h, fun _ => .refl _⟩
  | cons tag tags ih =>
    intro V n k s h hN
    have htag : N → Visible tag := fun hn => hN hn tag mem_cons_self
    have htags : N → ∀ tag ∈ tags, Visible tag := fun hn tag' htag' =>
      hN hn tag' (mem_cons_of_mem _ htag')
    rw [eachWith, tagChanges_cons]
    refine (follows_loadTag h htag).seq fun k' t ht htally => ?_
    exact wp_mono (ih ht htags) (fun _ _ hu => hu)
      (fun _ _ hu => ⟨hu.1, fun hn => (htally hn).trans (hu.2 hn)⟩) fun _ _ hu => hu

/-! ### The stage

What the stream holds is unpacked under the stage, a leftover's name, after the leftovers of
earlier loads are gone.  `wp_load` leaves only the images to be followed. -/

/-- Entries are removed one after another, unless an operation fails. -/
theorem wp_removeAll_each (names : List String) : ∀ {s : Images ρ},
    (∀ name ∈ names, T name) →
    wp (each (fun name => op host (.removeAll name)) names) (fun _ t => Within T s t)
      (fun _ t => Within T s t ∧
        ∀ name, t.dir.get name = if name ∈ names then none else s.dir.get name)
      (fun _ t => Within T s t ∧ ∃ o u, host.fault o u ≠ none) s := by
  induction names with
  | nil =>
    intro s _
    rw [each, wp_pure]
    exact ⟨.refl, fun name => by simp⟩
  | cons x names ih =>
    intro s hT
    have h₁ : Within T s (s.eraseEntry x) :=
      (within_eraseEntry x).mono fun y hy => hy ▸ hT x mem_cons_self
    rw [each, wp_bind]
    unfold op
    rw [wp_perform]
    cases hfault : host.fault (.removeAll x) s with
    | some e => exact ⟨.refl, _, _, by rw [hfault]; simp⟩
    | none =>
      dsimp only [Op.run]
      refine ⟨h₁, wp_mono (ih fun y hy => hT y (mem_cons_of_mem _ hy))
        (fun _ t ht => h₁.trans ht)
        (fun _ t ht => ⟨h₁.trans ht.1, fun name => ?_⟩) fun _ t ht => ⟨h₁.trans ht.1, ht.2⟩⟩
      rw [ht.2 name]
      by_cases hmem : name ∈ names
      · simp [hmem]
      · by_cases hx : name = x
        · simp [Images.eraseEntry, hx]
        · simp [Images.eraseEntry, hmem, hx]

theorem wp_clearLeftovers :
    wp (clearLeftovers host) (fun _ t => Within (isLeftover · = true) s t)
      (fun _ t => Within (isLeftover · = true) s t ∧
        ∀ name, isLeftover name = true → t.dir.get name = none)
      (fun _ t => Within (isLeftover · = true) s t ∧ ∃ o u, host.fault o u ≠ none) s := by
  unfold clearLeftovers
  rw [wp_bind, wp_read]
  refine wp_mono (wp_removeAll_each _ fun name hname => (mem_filter.mp hname).2)
    (fun _ _ h => h) (fun _ t ht => ⟨ht.1, fun name hname => ?_⟩) fun _ _ h => h
  rw [ht.2 name]
  split
  case isTrue => rfl
  case isFalse hnot =>
    by_contra hsome
    exact hnot (mem_filter.mpr ⟨FinMap.mem_keys.mpr hsome, hname⟩)

theorem inside_extractFile {x : TarFile} (h : s.dir.get stage = some (.folder f)) :
    Inside stage (extractFile host stage x)
      (fun _ t => ∃ f', stageFile f x = .ok f' ∧ t.dir.get stage = some (.folder f')) s := by
  unfold extractFile stageFile
  cases clean x.name with
  | none => exact inside_pure ⟨f, rfl, h⟩
  | some name =>
    dsimp only
    cases x.regular with
    | false =>
      rw [if_neg Bool.false_ne_true, if_neg Bool.false_ne_true]
      exact inside_pure ⟨f, rfl, h⟩
    | true =>
      rw [if_pos rfl, if_pos rfl]
      refine (inside_op h rfl).seq fun _ t _ ht => ?_
      obtain ⟨f₁, hf₁, ht⟩ := ht
      refine (inside_op ht rfl).seq fun _ u _ hu => ?_
      obtain ⟨f₂, hf₂, hu⟩ := hu
      cases x.cut with
      | true => exact inside_fail
      | false =>
        refine inside_pure ⟨f₂, ?_, hu⟩
        rw [hf₁]
        show (f₁.write name x.data >>= _) = _
        rw [hf₂]
        rfl

theorem inside_extract {r : ImageStream} (h : s.dir.get stage = some (.folder f)) :
    Inside stage (extract host stage r) (fun _ t => r.ending = none ∧
      ∃ f', r.files.foldlM stageFile f = .ok f' ∧ t.dir.get stage = some (.folder f')) s := by
  have hfiles : ∀ (files : List TarFile) {f : Folder ρ} {s : Images ρ},
      s.dir.get stage = some (.folder f) → Inside stage (each (extractFile host stage) files)
        (fun _ t => ∃ f', files.foldlM stageFile f = .ok f' ∧
          t.dir.get stage = some (.folder f')) s := by
    intro files
    induction files with
    | nil => exact fun h => inside_pure ⟨_, rfl, h⟩
    | cons x files ih =>
      intro f s h
      refine (inside_extractFile h).seq fun _ t _ ht => ?_
      obtain ⟨f', hf', ht⟩ := ht
      rw [foldlM_cons, hf']
      exact ih ht
  unfold extract
  refine (hfiles r.files h).seq fun _ t _ ht => ?_
  cases r.ending with
  | none => exact inside_pure ⟨rfl, ht⟩
  | some e => exact inside_fail

theorem wp_load {Q : List Loaded → Images ρ → Prop} {r : ImageStream} (hs : s.pruning = false)
    (hC : ∀ o t, Calm s.dir.get s.renames t → C o t) (hE : ∀ e t,
      Calm s.dir.get s.renames t → E e t)
    (hQleft : ∀ a t u, Q a t → Within (isLeftover · = true) t u → (∀ o, C o u) ∧ Q a u)
    (hEleft : ∀ e t u, E e t → Within (isLeftover · = true) t u → (∀ o, C o u) ∧ E e u)
    (hall : ∀ stage F ms t, staged host r = some (F.files, ms) →
      (∀ N, Staged N stage F s.dir.get s.renames t) → wp (loadAll host stage ms) C Q E t) :
    wp (load host r) C Q E s := by
  have hcalm : ∀ {t}, Within (isLeftover · = true) s t → Calm s.dir.get s.renames t :=
    fun ht => ⟨Seen.within (fun _ _ => rfl) ht, ht.pruning.trans hs, ht.renames⟩
  unfold load
  rw [wp_bind]
  refine wp_mono wp_clearLeftovers (fun o t ht => hC o t (hcalm ht)) (fun _ t ht => ?_)
    fun e t ht => hE e t (hcalm ht.1)
  obtain ⟨ht, hclear⟩ := ht
  rw [wp_bind]
  refine wp_mkdirTemp (fun e => hE e t (hcalm ht)) fun text stage hstage hnone => ?_
  have hname : isLeftover stage = true := by
    rw [hstage]
    exact isLeftover_stage text
  have hin : ∀ {t u : Images ρ}, Within (· = stage) t u → Within (isLeftover · = true) t u :=
    fun hu => hu.mono fun name hn => hn ▸ hname
  have h₁ : Within (isLeftover · = true) t (t.setEntry stage (.folder {})) :=
    hin (within_setFolder stage {})
  refine ⟨hC _ _ (hcalm (ht.trans h₁)), wp_thenRemove ?_ (fun a u hu => ?_) fun e u hu => ?_⟩
  · rw [wp_bind]
    refine wp_wrap (wp_mono (inside_extract (f := {}) (by simp [Images.setEntry]))
      (fun o u hu => ?_) (fun _ u hu => ?_) fun _ u hu e => ?_)
    · exact hC o u (hcalm (ht.trans (h₁.trans (hin hu))))
    · obtain ⟨hwithin, hending, F, hF, hentry⟩ := hu
      have h₂ := h₁.trans (hin hwithin)
      have hu := hcalm (ht.trans h₂)
      rw [wp_bind]
      refine wp_wrap (wp_readFile hentry (fun data hdata => ?_) fun _ e => hE e u hu)
      cases hms : host.manifests data with
      | error e =>
        rw [wp_fail]
        exact hE _ u hu
      | ok ms =>
        refine hall stage F ms u ?_ fun N => ⟨hu, hentry, hname, fun _ name id hleft hlink => ?_⟩
        · unfold staged
          rw [hF, hending]
          dsimp only
          rw [hdata]
          dsimp only
          rw [hms]
        · have := h₂.links name id hleft hlink
          rw [hclear name hleft] at this
          cases this
    · exact hE e u (hcalm (ht.trans (h₁.trans (hin hu))))
  · have := hQleft a u (u.eraseEntry stage) hu (hin (within_eraseEntry stage))
    exact ⟨this.1 _, this.2⟩
  · have := hEleft e u (u.eraseEntry stage) hu (hin (within_eraseEntry stage))
    exact ⟨this.1 _, this.2⟩

/-! ### The images

Image by image the load makes the changes of `planImages`, which is defined by the same
recursion. -/

theorem planImages_cons (h : imagePlace host files V m = some (id, placed)) :
    planImages host files V (m :: ms) = placed ++ tagChanges id (V.after placed) m.repoTags ++
      planImages host files (V.after (placed ++ tagChanges id (V.after placed) m.repoTags)) ms := by
  rw [View.after_append, planImages, h]

theorem imageIDs_cons (h : imagePlace host files V m = some (id, placed)) :
    imageIDs host files V (m :: ms) =
      id :: imageIDs host files
        (V.after (placed ++ tagChanges id (V.after placed) m.repoTags)) ms := by
  rw [View.after_append, imageIDs, h]

theorem along_placedOf (h : Along V n (placedOf host F V m) s) :
    Along V n (planImages host F.files V (m :: ms)) s := by
  unfold placedOf at h
  cases hplace : imagePlace host F.files V m with
  | none =>
    rw [hplace] at h
    rwa [planImages, hplace]
  | some p =>
    rw [hplace] at h
    rw [planImages_cons hplace, append_assoc]
    exact h.append

theorem imagePlace_eq (h : imagePlace host files V m = some (id, l)) : isID id = true ∧
      ((V.free id = true ∧ ∃ cfg r, l = [.place id (imageFolder cfg r)]) ∨
        V.free id = false ∧ l = []) := by
  unfold imagePlace at h
  split at h
  case h_1 => cases h
  case h_2 cfg _ =>
    split at h
    case isTrue hfree =>
      obtain ⟨r, -, hr⟩ := Option.map_eq_some_iff.mp h
      obtain ⟨rfl, rfl⟩ := Prod.mk.inj hr
      exact ⟨host.isID_sha cfg, .inl ⟨hfree, cfg, r, rfl⟩⟩
    case isFalse hfree =>
      obtain ⟨rfl, rfl⟩ := Prod.mk.inj (Option.some.inj h)
      exact ⟨host.isID_sha cfg, .inr ⟨by simpa using hfree, rfl⟩⟩

theorem tallied_placed (h : imagePlace host F.files V m = some (id, placed)) (k : Tally) :
    Tallied [id] V placed k { k with keep := k.keep ++ [id] } := by
  have hplaced : prevs V placed = [] ∧ placed.any Change.isPoint = false := by
    rcases imagePlace_eq h with ⟨-, ⟨-, cfg, r, rfl⟩ | ⟨-, rfl⟩⟩
    · exact ⟨rfl, rfl⟩
    · exact ⟨rfl, rfl⟩
  refine ⟨fun x => ?_, ?_⟩
  · simp [hplaced.1]
  · simp [hplaced.2]

theorem follows_loadImages (ms : List Manifest) :
    ∀ {V : View ρ} {n : Nat} {k : Tally} {s : Images ρ},
    Staged N stage F V n s → (N → ∀ m ∈ ms, ∀ tag ∈ m.repoTags, Visible tag) →
    Follows N stage F V n (planImages host F.files V ms) (eachWith (loadImage host stage) k ms)
      (fun k' => N → Tallied (imageIDs host F.files V ms) V (planImages host F.files V ms) k k')
      s := by
  induction ms with
  | nil => exact fun h _ => (wp_pure _).mpr ⟨h, fun _ => .refl _⟩
  | cons m ms ih =>
    intro V n k s h hN
    have hm : N → ∀ tag ∈ m.repoTags, Visible tag := fun hn => hN hn m mem_cons_self
    have hms : N → ∀ m ∈ ms, ∀ tag ∈ m.repoTags, Visible tag := fun hn m' hm' =>
      hN hn m' (mem_cons_of_mem _ hm')
    rw [Follows, eachWith, wp_bind]
    unfold loadImage
    refine wp_step (follows_unpack h m) (fun _ t ht => along_placedOf ht)
      (fun _ t ht => along_placedOf ht) fun img t ht => ?_
    obtain ⟨ht, hplace⟩ := ht
    rw [planImages_cons hplace, imageIDs_cons hplace]
    refine wp_step (follows_loadTags m.repoTags ht hm) (fun _ u hu => hu.after.append)
      (fun _ u hu => hu.after.append) fun k' u hu => ?_
    rw [wp_pure]
    obtain ⟨hu, htally⟩ := hu
    rw [← View.after_append, Nat.add_assoc, ← length_append] at hu
    refine wp_mono (ih hu hms) (fun _ w hw => hw.after) (fun k'' w hw => ?_) fun _ w hw => hw.after
    rw [View.after_append, length_append, ← Nat.add_assoc]
    refine ⟨hw.1, fun hn => ?_⟩
    have hrest := hw.2 hn
    exact ((tallied_placed hplace k).trans (htally hn)).trans ⟨hrest.keep, hrest.moved⟩

end Image

end Fern
