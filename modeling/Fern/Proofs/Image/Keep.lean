/-
The images that loads keep.

A load that moves a tag prunes: it keeps the images of its stream, those its tags pointed to before,
and those any tag points to.  Which image another tag pointed to before is not among them.
-/
import Fern.Proofs.Image.Stopped

namespace Fern

open List

variable {prev : String → Option String} {id name tag : String}
  {files : FinMap Parts (Option Bytes)} {ids : List String} {r : ImageStream}

namespace Image

open Call

variable {ρ : Type} {host : Host ρ} {s t : Images ρ} {V W : View ρ} {l l' : List (Change ρ)}
  {f : Folder ρ}

/-! ### A load that succeeds

What it removes is worked out from what was seen before it and its plan, as the tally has gathered
just those images. -/

/-- The load that has made the changes `l` of `V`, for images `ids`, removes `name`. -/
def Pruned (ids : List String) (V : View ρ) (l : List (Change ρ)) (name : String) : Prop :=
  l.any Change.isPoint = true ∧ (V.after l).isFolder name = true ∧ isID name = true ∧ name ∉ ids ∧
    name ∉ prevs V l ∧ ∀ tag, isLeftover tag = false → (V.after l).readlink tag ≠ some name

/-- What is seen after the load. -/
def Settled (ids : List String) (V : View ρ) (l : List (Change ρ)) (t : Images ρ) : Prop :=
  ∀ name, isLeftover name = false →
    Pruned ids V l name ∧ t.dir.get name = none ∨
      ¬ Pruned ids V l name ∧ t.dir.get name = (V.after l) name

theorem Settled.within (h : Settled ids V l s) (ht : Within (isLeftover · = true) s t) :
    Settled ids V l t := by
  intro name hname
  rw [ht.get name (by simp [hname])]
  exact h name hname

theorem readlink_eq (name : String) : s.readlink name = View.readlink s.dir.get name := rfl

theorem isFolder_eq (name : String) : s.isFolder name = View.isFolder s.dir.get name := rfl

theorem mem_targets : name ∈ s.targets ↔ ∃ tag, s.readlink tag = some name := by
  unfold Images.targets
  rw [mem_filterMap]
  constructor
  · rintro ⟨tag, -, htag⟩
    exact ⟨tag, htag⟩
  · rintro ⟨tag, htag⟩
    refine ⟨tag, FinMap.mem_keys.mpr fun hnone => ?_, htag⟩
    unfold Images.readlink at htag
    rw [hnone] at htag
    cases htag

theorem wp_prune_settled {N : Prop} {stage : String} {F : Folder ρ} {n : Nat} {k : Tally}
    (h : Staged N stage F (V.after l) n s) (hN : N) (hk : Tallied ids V l {} k)
    (hmoved : k.moved = true) :
    wp (prune host k.keep) (fun _ _ => True) (fun _ t => Settled ids V l t)
      (fun _ _ => True) s := by
  unfold prune
  rw [wp_bind]
  refine wp_op (fun _ => trivial) fun t ht => ?_
  cases ht
  refine ⟨trivial, ?_⟩
  rw [wp_bind, wp_read]
  refine wp_mono (wp_removeAll_each (T := fun _ => True) _ fun _ _ => trivial)
    (fun _ _ _ => trivial)
    (fun _ u hu name hname => ?_) fun _ _ _ => trivial
  have hseen : s.dir.get name = (V.after l) name := h.calm.seen name hname
  -- a link has a name that is seen
  have htargets : ∀ x, x ∈ s.targets ↔ ∃ tag, isLeftover tag = false ∧
    (V.after l).readlink tag = some x := by
    intro x
    rw [mem_targets]
    constructor
    · rintro ⟨tag, htag⟩
      cases hleft : isLeftover tag with
      | true =>
        unfold Images.readlink at htag
        split at htag
        case h_1 target htarget => exact absurd htarget (h.links hN tag target hleft)
        case h_2 => cases htag
      | false =>
        refine ⟨tag, hleft, ?_⟩
        rw [readlink_eq] at htag
        unfold View.readlink at htag ⊢
        rwa [h.calm.seen tag hleft] at htag
    · rintro ⟨tag, hleft, htag⟩
      refine ⟨tag, ?_⟩
      rw [readlink_eq]
      unfold View.readlink at htag ⊢
      rwa [h.calm.seen tag hleft]
  have hfolder : s.isFolder name = (V.after l).isFolder name := by
    rw [isFolder_eq]
    unfold View.isFolder
    rw [hseen]
  have hmem : (name ∈ s.dir.keys.filter fun name =>
      s.isFolder name && !(k.keep ++ s.targets).contains name && isID name) ↔
        Pruned ids V l name := by
    have hpoint : l.any Change.isPoint = true := by
      rw [← hmoved, hk.moved]
      rfl
    have hkeep : name ∈ k.keep ↔ name ∈ ids ∨ name ∈ prevs V l := by
      rw [hk.keep]
      simp
    simp only [mem_filter, FinMap.mem_keys, Bool.and_eq_true, Bool.not_eq_true',
      contains_eq_mem, decide_eq_false_iff_not, mem_append, hkeep, htargets, hfolder,
      Pruned]
    constructor
    · rintro ⟨-, ⟨hf, hnot⟩, hid⟩
      refine ⟨hpoint, hf, hid, fun hmem => hnot (.inl (.inl hmem)),
        fun hmem => hnot (.inl (.inr hmem)),
        fun tag hleft htag => hnot (.inr ⟨tag, hleft, htag⟩)⟩
    · rintro ⟨-, hf, hid, hids, hprevs, htags⟩
      refine ⟨fun hnone => ?_, ⟨hf, ?_⟩, hid⟩
      · unfold View.isFolder at hf
        rw [← hseen, hnone] at hf
        cases hf
      · rintro ((hmem | hmem) | ⟨tag, hleft, htag⟩)
        · exact hids hmem
        · exact hprevs hmem
        · exact htags tag hleft htag
  have hget : u.dir.get name = _ := hu.2 name
  rw [hget]
  by_cases hpruned : Pruned ids V l name
  · exact .inl ⟨hpruned, if_pos (hmem.mpr hpruned)⟩
  · exact .inr ⟨hpruned, (if_neg fun h => hpruned (hmem.mp h)).trans hseen⟩

/-- The tags of the images have names of their own. -/
def VisibleTags (ms : List Manifest) : Prop := ∀ m ∈ ms, ∀ tag ∈ m.repoTags, Visible tag

theorem load_settled {out : List Loaded} (hs : s.pruning = false)
    (hok : (load host r s).result = .ok out) :
    ∃ files ms, staged host r = some (files, ms) ∧ (VisibleTags ms →
      Settled (imageIDs host files s.dir.get ms) s.dir.get (plan host s.dir.get r)
        (load host r s).final) := by
  have hload : wp (load host r) (fun _ _ => True)
      (fun _ t => ∃ files ms, staged host r = some (files, ms) ∧ (VisibleTags ms →
        Settled (imageIDs host files s.dir.get ms) s.dir.get (plan host s.dir.get r) t))
      (fun _ _ => True) s := by
    refine wp_load hs (fun _ _ _ => trivial) (fun _ _ _ => trivial) (fun _ t u ht hu => ?_)
      (fun _ _ _ _ _ => ⟨fun _ => trivial, trivial⟩) fun stage F ms t hstaged ht => ?_
    · obtain ⟨files, ms, hstaged, hsettled⟩ := ht
      exact ⟨fun _ => trivial, files, ms, hstaged, fun hvisible => (hsettled hvisible).within hu⟩
    · have hplan : plan host s.dir.get r = planImages host F.files s.dir.get ms := by
        rw [plan, hstaged]
      unfold loadAll
      rw [wp_bind]
      refine wp_mono (follows_loadImages ms (ht (VisibleTags ms)) id) (fun _ _ _ => trivial)
        (fun k u hu => ?_)
        fun _ _ _ => trivial
      obtain ⟨hu, hk⟩ := hu
      rw [hplan]
      split
      case isTrue hmoved =>
        rw [wp_bind]
        by_cases hvisible : VisibleTags ms
        · refine wp_mono (wp_prune_settled hu hvisible (hk hvisible) hmoved) (fun _ _ h => h)
            (fun _ w hw => ?_) fun _ _ h => h
          rw [wp_pure]
          exact ⟨F.files, ms, hstaged, fun _ => hw⟩
        · refine wp_mono (wp_true _ u) (fun _ _ h => h) (fun _ w _ => ?_) fun _ _ h => h
          rw [wp_pure]
          exact ⟨F.files, ms, hstaged, fun h => absurd h hvisible⟩
      case isFalse hmoved =>
        rw [wp_pure]
        refine ⟨F.files, ms, hstaged, fun hvisible name hname =>
          .inr ⟨fun hpruned => ?_, hu.calm.seen name hname⟩⟩
        refine hmoved ?_
        rw [(hk hvisible).moved, hpruned.1]
        rfl
  have hend := hload.2
  rw [hok] at hend
  exact hend

/-! ### Images and tags along a plan -/

/-- Under an ID is an image or nothing, and every tag points to an image. -/
structure Sound (V : View ρ) : Prop where
  ids : ∀ name, isID name = true → V name = none ∨ V.isFolder name = true
  tags : ∀ tag id, isLeftover tag = false → V.readlink tag = some id →
    isID id = true ∧ V.isFolder id = true

/-- Changes of tags that aren't IDs, to images that are there. -/
inductive Apt : View ρ → List (Change ρ) → Prop where
  | nil {V : View ρ} : Apt V []
  | place {V : View ρ} {id : String} {f : Folder ρ} {l : List (Change ρ)} : isID id = true →
      Apt (V.apply (.place id f)) l → Apt V (.place id f :: l)
  | point {V : View ρ} {tag id : String} {l : List (Change ρ)} : isLeftover tag = false →
      isID tag = false → isID id = true → V.isFolder id = true → Apt (V.apply (.point tag id)) l →
      Apt V (.point tag id :: l)

theorem apt_append (h : Apt V l) (h' : Apt (V.after l) l') : Apt V (l ++ l') := by
  induction h with
  | nil => exact h'
  | place hid _ ih => exact .place hid (ih h')
  | point htag htagID hid hfolder _ ih => exact .point htag htagID hid hfolder (ih h')

theorem isFolder_place (id : String) (f : Folder ρ) (name : String) :
    (V.apply (.place id f)).isFolder name = if name = id then true else V.isFolder name := by
  unfold View.isFolder View.apply
  by_cases h : name = id
  · simp [h]
  · simp [h]

theorem isFolder_point (tag id name : String) :
    (V.apply (.point tag id)).isFolder name = if name = tag then false else V.isFolder name := by
  unfold View.isFolder View.apply
  by_cases h : name = tag
  · simp [h]
  · simp [h]

theorem readlink_place (id : String) (f : Folder ρ) (name : String) :
    (V.apply (.place id f)).readlink name = if name = id then none else V.readlink name := by
  unfold View.readlink View.apply
  by_cases h : name = id
  · simp [h]
  · simp [h]

theorem readlink_point (tag id name : String) :
    (V.apply (.point tag id)).readlink name = if name = tag then some id else V.readlink name := by
  unfold View.readlink View.apply
  by_cases h : name = tag
  · simp [h]
  · simp [h]

theorem isFolder_point_of_isID (htag : isID tag = false) (hname : isID name = true)
    (h : V.isFolder name = true) : (V.apply (.point tag id)).isFolder name = true := by
  rw [isFolder_point, if_neg, h]
  rintro rfl
  rw [htag] at hname
  cases hname

theorem isFolder_place_of_isFolder (h : V.isFolder name = true) :
    (V.apply (.place id f)).isFolder name = true := by
  rw [isFolder_place, h, ite_self]

theorem Sound.place (h : Sound V) (id : String) (f : Folder ρ) : Sound (V.apply (.place id f)) := by
  refine ⟨fun name hname => ?_, fun tag id' htag hlink => ?_⟩
  · by_cases hn : name = id
    · exact .inr (by rw [isFolder_place, if_pos hn])
    · refine (h.ids name hname).imp (fun hnone => ?_) isFolder_place_of_isFolder
      simpa [View.apply, hn] using hnone
  · rw [readlink_place] at hlink
    split at hlink
    · cases hlink
    · obtain ⟨hid, hfolder⟩ := h.tags tag id' htag hlink
      exact ⟨hid, isFolder_place_of_isFolder hfolder⟩

theorem Sound.point (h : Sound V) (htag : isID tag = false) (hid : isID id = true)
    (hfolder : V.isFolder id = true) : Sound (V.apply (.point tag id)) := by
  refine ⟨fun name hname => ?_, fun tag' id' htag' hlink => ?_⟩
  · refine (h.ids name hname).imp (fun hnone => ?_) (isFolder_point_of_isID htag hname)
    have hn : name ≠ tag := by
      rintro rfl
      rw [htag] at hname
      cases hname
    simpa [View.apply, hn] using hnone
  · rw [readlink_point] at hlink
    split at hlink
    · cases hlink
      exact ⟨hid, isFolder_point_of_isID htag hid hfolder⟩
    · obtain ⟨hid', hfolder'⟩ := h.tags tag' id' htag' hlink
      exact ⟨hid', isFolder_point_of_isID htag hid' hfolder'⟩

theorem Sound.after (h : Sound V) (hl : Apt V l) : Sound (V.after l) ∧
    (∀ name, isID name = true → V.isFolder name = true → (V.after l).isFolder name = true) ∧
    ∀ name ∈ prevs V l, isID name = true ∧ (V.after l).isFolder name = true := by
  induction hl with
  | nil =>
    refine ⟨h, fun _ _ hfolder => hfolder, fun name hname => ?_⟩
    cases hname
  | @place V id f l _ _ ih =>
    obtain ⟨hsound, hfolders, hprevs⟩ := ih (h.place id f)
    exact ⟨hsound, fun name hname hfolder =>
      hfolders name hname (isFolder_place_of_isFolder hfolder),
      hprevs⟩
  | @point V tag id l htag htagID hid hfolder _ ih =>
    obtain ⟨hsound, hfolders, hprevs⟩ := ih (h.point htagID hid hfolder)
    have hkeep : ∀ name, isID name = true → V.isFolder name = true →
        ((V.apply (.point tag id)).after l).isFolder name = true := fun name hname hf =>
      hfolders name hname (isFolder_point_of_isID htagID hname hf)
    refine ⟨hsound, hkeep, fun name hname => ?_⟩
    rw [prevs, mem_append] at hname
    rcases hname with hname | hname
    · obtain ⟨hnameID, hf⟩ := h.tags tag name htag (by simpa using hname)
      exact ⟨hnameID, hkeep name hnameID hf⟩
    · exact hprevs name hname

/-- No tag of the images has the name of a leftover or an image. -/
def ProperTags (ms : List Manifest) : Prop :=
  ∀ m ∈ ms, ∀ tag ∈ m.repoTags, isLeftover (tagName tag) = false ∧ isID (tagName tag) = false

theorem apt_tagChanges (hid : isID id = true) (tags : List String) : ∀ {V : View ρ},
    V.isFolder id = true →
    (∀ tag ∈ tags, isLeftover (tagName tag) = false ∧ isID (tagName tag) = false) →
    Apt V (tagChanges id V tags) := by
  induction tags with
  | nil => exact fun _ _ => .nil
  | cons tag tags ih =>
    intro V hfolder htags
    have htag := htags tag mem_cons_self
    have hrest := fun x hx => htags x (mem_cons_of_mem _ hx)
    rcases tagChanges_cases id tag V with h | ⟨-, h⟩
    · rw [h]
      exact ih hfolder hrest
    · rw [h]
      exact .point htag.1 htag.2 hid hfolder (ih (isFolder_point_of_isID htag.2 hid hfolder) hrest)

theorem apt_imagePlace {m : Manifest} (hV : Sound V)
    (h : imagePlace host files V m = some (id, l)) :
    isID id = true ∧ Apt V l ∧ (V.after l).isFolder id = true := by
  rcases imagePlace_eq h with ⟨hid, ⟨-, cfg, r, rfl⟩ | ⟨hfree, rfl⟩⟩
  · exact ⟨hid, .place hid .nil, (isFolder_place id _ id).trans (if_pos rfl)⟩
  · refine ⟨hid, .nil, (hV.ids id hid).resolve_left fun hnone => ?_⟩
    unfold View.free at hfree
    rw [hnone] at hfree
    cases hfree

theorem apt_planImages (ms : List Manifest) :
    ∀ {V : View ρ}, Sound V → ProperTags ms → Apt V (planImages host files V ms) := by
  induction ms with
  | nil => exact fun _ _ => .nil
  | cons m ms ih =>
    intro V hV htags
    cases h : imagePlace host files V m with
    | none =>
      rw [planImages, h]
      exact .nil
    | some p =>
      rw [planImages_cons h]
      obtain ⟨hid, hplaced, hfolder⟩ := apt_imagePlace hV h
      have htagChanges := apt_tagChanges hid m.repoTags hfolder (htags m mem_cons_self)
      have hboth := apt_append hplaced htagChanges
      exact apt_append hboth
        (ih (hV.after hboth).1 fun m' hm' => htags m' (mem_cons_of_mem _ hm'))

theorem before_eq : ∀ {V : View ρ} {prev : String → Option String},
    before V prev l tag = some id → prev tag = some id ∨ id ∈ prevs V l := by
  induction l with
  | nil => exact fun h => .inl h
  | cons c l ih =>
    intro V prev h
    cases c with
    | place => exact ih h
    | point tag' id' =>
      rcases ih h with hprev | hmem
      · by_cases htag : tag = tag'
        · right
          rw [htag, Function.update_self] at hprev
          exact mem_append_left _ (by simp [hprev])
        · rw [Function.update_of_ne htag] at hprev
          exact .inl hprev
      · exact .inr (mem_append_right _ hmem)

/-! ### Runs of loads -/

/-- Loads that succeed, one after another, into one directory; with each tag's image before its last
move, and whether the last load moved a tag. -/
inductive Loads (P : Host ρ → ImageStream → Images ρ → (String → Option String) → Prop) :
    Images ρ → (String → Option String) → Bool → Prop where
  | start : Loads P { dir := .empty } (fun _ => none) false
  | load {s : Images ρ} {prev : String → Option String} {moved : Bool} (host : Host ρ)
      (r : ImageStream) (out : List Loaded) : Loads P s prev moved →
      (load host r s).result = .ok out → P host r s prev →
      Loads P { (load host r s).final with pruning := false }
        (before s.dir.get prev (plan host s.dir.get r))
        ((plan host s.dir.get r).any Change.isPoint)

/-- Some tag points to the image. -/
def Current (V : View ρ) (id : String) : Prop :=
  ∃ tag, isLeftover tag = false ∧ V.readlink tag = some id

/-- A load that keeps each tag's previous image, and no other: its tags have proper names, and if it
moves one, then each tag's previous image is one of its images, or one that a tag it moves pointed
to, or one a tag points to; and its images and those its tags pointed to are current or previous
ones. -/
def KeepsPrevious (host : Host ρ) (r : ImageStream) (s : Images ρ) (prev : String → Option String) :
    Prop :=
  ∀ files ms, staged host r = some (files, ms) → ProperTags ms ∧
    ((plan host s.dir.get r).any Change.isPoint = true →
      (∀ tag id, before s.dir.get prev (plan host s.dir.get r) tag = some id →
        id ∈ imageIDs host files s.dir.get ms ∨ id ∈ prevs s.dir.get (plan host s.dir.get r) ∨
          Current (View.after s.dir.get (plan host s.dir.get r)) id) ∧
      ∀ id, id ∈ imageIDs host files s.dir.get ms ∨ id ∈ prevs s.dir.get (plan host s.dir.get r) →
        Current (View.after s.dir.get (plan host s.dir.get r)) id ∨
          ∃ tag, before s.dir.get prev (plan host s.dir.get r) tag = some id)

/-- What holds after each load. -/
structure Shelved (s : Images ρ) (prev : String → Option String) (moved : Bool) : Prop where
  pruning : s.pruning = false
  sound : Sound s.dir.get
  previous : ∀ tag id, prev tag = some id → isID id = true ∧ s.isFolder id = true
  gone : moved = true → ∀ id, isID id = true → s.isFolder id = true →
    Current s.dir.get id ∨ ∃ tag, prev tag = some id

theorem Settled.isFolder (h : Settled ids V l t) (hname : isID name = true) :
    t.isFolder name = true ↔ ¬ Pruned ids V l name ∧ (V.after l).isFolder name = true := by
  rw [isFolder_eq]
  rcases h name (isLeftover_of_isID hname) with ⟨hpruned, hnone⟩ | ⟨hkept, hget⟩
  · unfold View.isFolder
    rw [hnone]
    simp [hpruned]
  · unfold View.isFolder
    rw [hget]
    simp [hkept]

theorem Settled.readlink (h : Settled ids V l t) (htag : isLeftover tag = false) :
    View.readlink t.dir.get tag = (V.after l).readlink tag := by
  unfold View.readlink
  rcases h tag htag with ⟨hpruned, hnone⟩ | ⟨-, hget⟩
  · have hfolder := hpruned.2.1
    unfold View.isFolder at hfolder
    rw [hnone]
    split at hfolder
    case h_1 f hf => rw [hf]
    case h_2 => cases hfolder
  · rw [hget]

theorem Shelved.next {moved : Bool} {out : List Loaded} (h : Shelved s prev moved)
    (hok : (load host r s).result = .ok out) (hkeeps : KeepsPrevious host r s prev) :
    Shelved { (load host r s).final with pruning := false }
      (before s.dir.get prev (plan host s.dir.get r))
      ((plan host s.dir.get r).any Change.isPoint) := by
  obtain ⟨files, ms, hstaged, hvisible⟩ := load_settled h.pruning hok
  obtain ⟨htags, hmoved⟩ := hkeeps files ms hstaged
  have hsettled := hvisible fun m hm tag htag => (htags m hm tag htag).1
  clear hvisible
  have hapt : Apt s.dir.get (plan host s.dir.get r) := by
    rw [plan, hstaged]
    exact apt_planImages ms h.sound htags
  obtain ⟨hsound, hfolders, hprevs⟩ := h.sound.after hapt
  generalize plan host s.dir.get r = l at *
  generalize (load host r s).final = t at *
  generalize imageIDs host files s.dir.get ms = ids at *
  -- an image that isn't pruned is there
  have hthere : ∀ name, isID name = true → (View.after s.dir.get l).isFolder name = true →
      ¬ Pruned ids s.dir.get l name → View.isFolder t.dir.get name = true :=
    fun name hname hfolder hnot => (hsettled.isFolder hname).mpr ⟨hnot, hfolder⟩
  refine ⟨rfl, ⟨fun name hname => ?_, fun tag id htag hlink => ?_⟩, fun tag id hprev => ?_,
    fun hm id hid hfolder => ?_⟩
  · show t.dir.get name = none ∨ View.isFolder t.dir.get name = true
    rcases hsettled name (isLeftover_of_isID hname) with ⟨-, hnone⟩ | ⟨hnot, hget⟩
    · exact .inl hnone
    · refine (hsound.ids name hname).imp (fun hnone => hget.trans hnone) fun hfolder =>
        hthere name hname hfolder hnot
  · have hlink : View.readlink t.dir.get tag = some id := hlink
    rw [hsettled.readlink htag] at hlink
    obtain ⟨hid, hfolder⟩ := hsound.tags tag id htag hlink
    exact ⟨hid, hthere id hid hfolder fun hpruned => hpruned.2.2.2.2.2 tag htag hlink⟩
  · have hid : isID id = true ∧ (View.after s.dir.get l).isFolder id = true := by
      rcases before_eq hprev with hold | hmem
      · obtain ⟨hid, hfolder⟩ := h.previous tag id hold
        exact ⟨hid, hfolders id hid hfolder⟩
      · exact hprevs id hmem
    refine ⟨hid.1, hthere id hid.1 hid.2 fun hpruned => ?_⟩
    rcases (hmoved hpruned.1).1 tag id hprev with hmem | hmem | ⟨tag', htag', hlink⟩
    · exact hpruned.2.2.2.1 hmem
    · exact hpruned.2.2.2.2.1 hmem
    · exact hpruned.2.2.2.2.2 tag' htag' hlink
  · have hfolder : t.isFolder id = true := hfolder
    obtain ⟨hnot, hfolder⟩ := (hsettled.isFolder hid).mp hfolder
    have hcurrent : Current (View.after s.dir.get l) id → Current t.dir.get id := by
      rintro ⟨tag, htag, hlink⟩
      exact ⟨tag, htag, (hsettled.readlink htag).trans hlink⟩
    by_cases hcur : Current (View.after s.dir.get l) id
    · exact .inl (hcurrent hcur)
    · have hkept : id ∈ ids ∨ id ∈ prevs s.dir.get l := by
        by_contra hneither
        rw [not_or] at hneither
        exact hnot ⟨hm, hfolder, hid, hneither.1, hneither.2, fun tag htag hlink =>
          hcur ⟨tag, htag, hlink⟩⟩
      exact ((hmoved hm).2 id hkept).imp_left hcurrent

theorem Loads.shelved {moved : Bool} (h : Loads KeepsPrevious s prev moved) :
    Shelved s prev moved := by
  induction h with
  | start =>
    refine ⟨rfl, ⟨fun name _ => .inl rfl, fun tag id _ h => ?_⟩, fun tag id h => ?_, fun h => ?_⟩
    · cases h
    · cases h
    · cases h
  | load host r out _ hok hkeeps ih => exact ih.next hok hkeeps

/-- **After any number of loads that each keep the previous images, every tag's image is there, and
the one it pointed to before its last move; and after a load that moved a tag there are no others.**
-/
theorem loads_keep_previous (s : Images ρ) (prev : String → Option String) (moved : Bool)
    (h : Loads KeepsPrevious s prev moved) :
    (∀ tag id, isLeftover tag = false → s.readlink tag = some id → s.isFolder id = true) ∧
    (∀ tag id, prev tag = some id → s.isFolder id = true) ∧
    (moved = true → ∀ id, isID id = true → s.isFolder id = true →
      (∃ tag, isLeftover tag = false ∧ s.readlink tag = some id) ∨ ∃ tag, prev tag = some id) := by
  have hs := h.shelved
  exact ⟨fun tag id htag hlink => (hs.sound.tags tag id htag hlink).2,
    fun tag id hprev => (hs.previous tag id hprev).2, hs.gone⟩

theorem before_one (hne : tag ≠ id) (other : String) :
    before V prev [.place id f, .point tag id] other =
      if other = tag then V.readlink tag else prev other := by
  rw [before, before, before, readlink_place, if_neg hne, Function.update_apply]

/-- A load of one new image with one tag keeps the previous images where no other tag has one. -/
theorem keepsPrevious_one {ms : List Manifest} (hstaged : staged host r = some (files, ms))
    (htags : ProperTags ms) (hplan : plan host s.dir.get r = [.place id f, .point tag id])
    (hids : imageIDs host files s.dir.get ms = [id]) (htag : isLeftover tag = false)
    (hne : tag ≠ id) (hprev : ∀ other, other ≠ tag → prev other = none) :
    KeepsPrevious host r s prev := by
  intro files' ms' hstaged'
  rw [hstaged] at hstaged'
  obtain ⟨rfl, rfl⟩ := Prod.mk.inj (Option.some.inj hstaged')
  refine ⟨htags, fun _ => ?_⟩
  rw [hplan, hids]
  have hprevs : prevs s.dir.get [.place id f, .point tag id] = (s.readlink tag).toList := by
    rw [prevs, prevs, prevs, append_nil, readlink_place, if_neg hne]
    rfl
  have hbefore : ∀ other, before s.dir.get prev [.place id f, .point tag id] other =
      if other = tag then s.readlink tag else none := by
    intro other
    rw [before_one hne]
    by_cases h : other = tag
    · rw [if_pos h, if_pos h]
      rfl
    · rw [if_neg h, if_neg h, hprev other h]
  have hcurrent : Current (View.after s.dir.get [.place id f, .point tag id]) id :=
    ⟨tag, htag, by simp [View.after, readlink_point]⟩
  rw [hprevs]
  refine ⟨fun other id' h => ?_, fun id' h => ?_⟩
  · rw [hbefore] at h
    split at h
    · exact .inr (.inl (by simp [h]))
    · cases h
  · rcases h with h | h
    · rw [mem_singleton.mp h]
      exact .inl hcurrent
    · refine .inr ⟨tag, ?_⟩
      rw [hbefore, if_pos rfl]
      simpa using h

/-! ### Three loads -/

/-- The digit of a config. -/
def digit (data : Bytes) : Fin 10 := Fin.ofNat 10 ((data.headD 0).toNat)

theorem isID_idOf {c : Char} (h : isHex c = true) : isID (idOf c) = true := by
  simp [isID, idOf, h]

theorem isHex_digitChar (d : Fin 10) : isHex (Nat.digitChar d) = true := by
  revert d
  decide

/-- A host that tells configs apart by their digit. -/
def digitHost (tag : String) : Host Unit :=
  { plainHost [⟨"c", [tag], []⟩] with
    sha := fun data => idOf (Nat.digitChar (digit data))
    isID_sha := fun data => isID_idOf (isHex_digitChar (digit data)) }

/-- A stream with one image. -/
def digitStream (n : UInt8) : ImageStream :=
  { files := [{ name := "manifest.json" }, { name := "c", data := [n] }] }

/-- The directory after image `n` is loaded with the tag. -/
def loaded (tag : String) (n : UInt8) (s : Images Unit) : Images Unit :=
  { (load (digitHost tag) (digitStream n) s).final with pruning := false }

/-- Each tag's previous image after it. -/
def movedFrom (tag : String) (n : UInt8) (s : Images Unit) (prev : String → Option String) :
    String → Option String :=
  before s.dir.get prev (plan (digitHost tag) s.dir.get (digitStream n))

/-- Tag `a` moves from image 1 to image 2, and both are there. -/
theorem loads_keep_previous_moved :
    let s := loaded "a" 2 (loaded "a" 1 { dir := .empty })
    s.isFolder (idOf '2') = true ∧ s.isFolder (idOf '1') = true := by
  have hfirst : Loads KeepsPrevious (loaded "a" 1 { dir := .empty }) _ _ :=
    .load (digitHost "a") (digitStream 1) _ .start rfl
      (keepsPrevious_one rfl (by unfold ProperTags; decide) rfl rfl (by decide) (by decide)
        fun _ _ => rfl)
  have hsecond : Loads KeepsPrevious (loaded "a" 2 (loaded "a" 1 { dir := .empty })) _ _ :=
    .load (digitHost "a") (digitStream 2) _ hfirst rfl
      (keepsPrevious_one rfl (by unfold ProperTags; decide) rfl rfl (by decide) (by decide)
        fun other hother =>
        (before_one (by decide) other).trans (if_neg hother))
  have hkept := loads_keep_previous _ _ _ hsecond
  exact ⟨hkept.1 "a" (idOf '2') (by decide) (by decide +kernel),
    hkept.2.1 "a" (idOf '1') (by decide +kernel)⟩

/-- Tag `a` moves from image 1 to image 2, and then `b` is loaded: image 1, which boxes of `a` may
still use, is gone. -/
theorem other_tag_prunes_previous :
    let s₁ := loaded "a" 1 { dir := .empty }
    let s₂ := loaded "a" 2 s₁
    let s₃ := loaded "b" 3 s₂
    let prev :=
      movedFrom "b" 3 s₂ (movedFrom "a" 2 s₁ (movedFrom "a" 1 { dir := .empty } fun _ => none))
    (∃ moved, Loads (fun _ _ _ _ => True) s₃ prev moved) ∧ s₃.readlink "a" = some (idOf '2') ∧
      prev "a" = some (idOf '1') ∧ s₂.isFolder (idOf '1') = true ∧
        s₃.isFolder (idOf '1') = false := by
  refine ⟨⟨true, ?_⟩, ?_, ?_, ?_, ?_⟩
  · exact .load (digitHost "b") (digitStream 3) _ (.load (digitHost "a") (digitStream 2) _
      (.load (digitHost "a") (digitStream 1) _ .start rfl trivial) rfl trivial) rfl trivial
  all_goals decide +kernel

end Image

end Fern
