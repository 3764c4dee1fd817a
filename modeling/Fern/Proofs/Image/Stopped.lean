/-
What a load that fails or is stopped leaves behind.

What is seen then is what the first changes of the plan make.  They leave everything as it was just
when no image has appeared and every tag that was moved has been moved back.
-/
import Fern.Proofs.Image.Load

namespace Fern

namespace Image

open Call

variable {ρ : Type} {host : Host ρ} {s t : Images ρ} {V : View ρ} {l l' : List (Change ρ)}

/-! ### Changes that undo one another

An image that has appeared stays, so only moves of tags can be undone, and only by other moves of
the same tags. -/

/-- Changes as a load makes them: of names that are seen, and an image where there is none. -/
inductive Fit : View ρ → List (Change ρ) → Prop where
  | nil {V : View ρ} : Fit V []
  | place {V : View ρ} {id : String} {f : Folder ρ} {l : List (Change ρ)} : isLeftover id = false →
      V.free id = true → f.isEmpty = false → Fit (V.apply (.place id f)) l →
        Fit V (.place id f :: l)
  | point {V : View ρ} {tag id : String} {l : List (Change ρ)} : isLeftover tag = false →
      Fit (V.apply (.point tag id)) l → Fit V (.point tag id :: l)

theorem fit_append : ∀ {V : View ρ}, Fit V (l ++ l') ↔ Fit V l ∧ Fit (V.after l) l' := by
  induction l with
  | nil =>
    intro V
    exact ⟨fun h => ⟨.nil, h⟩, fun h => h.2⟩
  | cons c l ih =>
    intro V
    constructor
    · intro h
      cases h with
      | place hid hfree hf h => exact ⟨.place hid hfree hf (ih.mp h).1, (ih.mp h).2⟩
      | point htag h => exact ⟨.point htag (ih.mp h).1, (ih.mp h).2⟩
    · rintro ⟨h, h'⟩
      cases h with
      | place hid hfree hf h => exact .place hid hfree hf (ih.mpr ⟨h, h'⟩)
      | point htag h => exact .point htag (ih.mpr ⟨h, h'⟩)

theorem fit_tagChanges (id : String) (tags : List String) : ∀ V : View ρ,
    Fit V (tagChanges id V tags) := by
  induction tags with
  | nil => exact fun V => .nil
  | cons tag tags ih =>
    intro V
    rcases tagChanges_cases id tag V with h | ⟨hleft, h⟩
    · rw [h]
      exact ih V
    · rw [h]
      exact .point hleft (ih _)

theorem isEmpty_imageFolder (cfg : Bytes) (r : ρ) : (imageFolder cfg r).isEmpty = false := by
  simp [imageFolder, Folder.isEmpty]

theorem fit_imagePlace {files : FinMap Parts (Option Bytes)} {m : Manifest} {id : String}
    (h : imagePlace host files V m = some (id, l)) : Fit V l := by
  rcases imagePlace_eq h with ⟨hid, ⟨hfree, cfg, r, rfl⟩ | ⟨-, rfl⟩⟩
  · exact .place (isLeftover_of_isID hid) hfree (isEmpty_imageFolder cfg r) .nil
  · exact .nil

theorem fit_planImages {files : FinMap Parts (Option Bytes)} (ms : List Manifest) :
    ∀ V : View ρ, Fit V (planImages host files V ms) := by
  induction ms with
  | nil => exact fun V => .nil
  | cons m ms ih =>
    intro V
    cases h : imagePlace host files V m with
    | none =>
      rw [planImages, h]
      exact .nil
    | some p =>
      rw [planImages_cons h, fit_append, fit_append]
      exact ⟨⟨fit_imagePlace h, fit_tagChanges _ _ _⟩, ih _⟩

theorem fit_plan (host : Host ρ) (V : View ρ) (r : ImageStream) : Fit V (plan host V r) := by
  unfold plan
  split
  · exact .nil
  · exact fit_planImages _ V

theorem Fit.not_free {id : String} (h : Fit V l) (hid : V.free id = false) :
    (V.after l).free id = false := by
  induction h with
  | nil => exact hid
  | @place V id' f l _ hfree _ _ ih =>
    refine ih ?_
    have hne : id ≠ id' := by
      rintro rfl
      rw [hfree] at hid
      cases hid
    rw [← hid]
    exact free_congr (by simp [View.apply, hne])
  | @point V tag id' l _ _ ih =>
    refine ih ?_
    by_cases hne : id = tag
    · subst hne
      simp [View.free, View.apply]
    · rw [← hid]
      exact free_congr (by simp [View.apply, hne])

theorem Fit.placed {id : String} {f : Folder ρ} (h : Fit V l) (hmem : Change.place id f ∈ l) :
    isLeftover id = false ∧ V.free id = true ∧ (V.after l).free id = false := by
  obtain ⟨l₁, l₂, rfl⟩ := List.append_of_mem hmem
  obtain ⟨h₁, h₂⟩ := fit_append.mp h
  cases h₂ with
  | place hid hfree hf h₂ =>
  refine ⟨hid, ?_, ?_⟩
  · by_contra hnot
    rw [h₁.not_free (by simpa using hnot)] at hfree
    cases hfree
  · rw [View.after_append]
    refine h₂.not_free ?_
    simp [View.free, View.apply, hf]

theorem after_tag {tag : String} (hpoints : ∀ c ∈ l, c.isPoint = true) :
    (V.after l) tag = (lastTarget tag l).elim (V tag) fun id => some (.link id) := by
  have hgo : ∀ (l : List (Change ρ)) (W : View ρ) (last : Option String),
      (∀ c ∈ l, c.isPoint = true) → W tag = last.elim (V tag) (fun id => some (.link id)) →
      (W.after l) tag =
        (l.foldl (retarget tag) last).elim (V tag) fun id => some (.link id) := by
    intro l
    induction l with
    | nil => exact fun W last _ h => h
    | cons c l ih =>
      intro W last hpoints h
      have hl : ∀ c ∈ l, c.isPoint = true := fun c hc => hpoints c (List.mem_cons_of_mem _ hc)
      cases c with
      | place id f => exact absurd (hpoints _ List.mem_cons_self) (by simp [Change.isPoint])
      | point t id =>
        refine ih (W.apply (.point t id)) _ hl ?_
        by_cases ht : t = tag
        · simp [View.apply, retarget, ht]
        · have ht' : tag ≠ t := fun h => ht h.symm
          simpa [View.apply, retarget, ht, ht'] using h
  exact hgo l V none hpoints rfl

/-- The changes leave all that is seen as it was. -/
def Undone (V : View ρ) (l : List (Change ρ)) : Prop :=
  (∀ c ∈ l, c.isPoint = true) ∧
    ∀ tag id, isLeftover tag = false → lastTarget tag l = some id → V.readlink tag = some id

theorem Fit.undone_iff (h : Fit V l) :
    (∀ name, isLeftover name = false → (V.after l) name = V name) ↔ Undone V l := by
  constructor
  · intro hsame
    have hpoints : ∀ c ∈ l, c.isPoint = true := by
      intro c hc
      cases c with
      | point => rfl
      | place id f =>
        obtain ⟨hid, hfree, hnot⟩ := h.placed hc
        rw [free_congr (hsame id hid), hfree] at hnot
        cases hnot
    refine ⟨hpoints, fun tag id htag hlast => ?_⟩
    have := hsame tag htag
    rw [after_tag hpoints, hlast, Option.elim_some] at this
    unfold View.readlink
    rw [← this]
  · rintro ⟨hpoints, hback⟩ name hname
    rw [after_tag hpoints]
    cases hlast : lastTarget name l with
    | none => rfl
    | some id =>
      have := hback name id hname hlast
      unfold View.readlink at this
      split at this
      case h_1 target htarget =>
        cases this
        exact htarget.symm
      case h_2 => cases this

/-! ### Loads -/

theorem wp_prune (keep : List String) :
    wp (prune host keep) (fun _ t => t.pruning = true) (fun _ t => t.pruning = true)
      (fun _ t => t.pruning = true ∨ t = s) s := by
  unfold prune
  rw [wp_bind]
  refine wp_op (fun _ => .inr rfl) fun t ht => ?_
  cases ht
  refine ⟨rfl, ?_⟩
  rw [wp_bind, wp_read]
  refine wp_mono (wp_removeAll_each (T := fun _ => True) _ fun _ _ => trivial)
    (fun _ u hu => hu.pruning) (fun _ u hu => hu.1.pruning) fun _ u hu => .inl hu.1.pruning

/-- A load from `s` has begun to prune, or is along its plan. -/
def PrunesOrAlong (host : Host ρ) (r : ImageStream) (s t : Images ρ) : Prop :=
  t.pruning = true ∨ Along s.dir.get s.renames (plan host s.dir.get r) t

theorem load_along (host : Host ρ) (r : ImageStream) (hs : s.pruning = false) :
    wp (load host r) (fun _ => PrunesOrAlong host r s) (fun _ => PrunesOrAlong host r s)
      (fun _ => PrunesOrAlong host r s) s := by
  have hleft : ∀ t u : Images ρ, PrunesOrAlong host r s t → Within (isLeftover · = true) t u →
      PrunesOrAlong host r s u := by
    rintro t u (ht | ht) hu
    · exact .inl (hu.pruning.trans ht)
    · exact .inr (ht.within hu)
  refine wp_load hs (fun _ t ht => .inr ht.along) (fun _ t ht => .inr ht.along)
    (fun _ t u ht hu => ⟨fun _ => hleft t u ht hu, hleft t u ht hu⟩)
    (fun _ t u ht hu => ⟨fun _ => hleft t u ht hu, hleft t u ht hu⟩)
      fun stage F ms t hstaged ht => ?_
  have hplan : plan host s.dir.get r = planImages host F.files s.dir.get ms := by
    rw [plan, hstaged]
  unfold PrunesOrAlong loadAll
  rw [hplan, wp_bind]
  refine wp_mono (follows_loadImages ms (ht False) False.elim) (fun _ u hu => .inr hu)
    (fun k u hu => ?_) fun _ u hu => .inr hu
  have hu : Along s.dir.get s.renames (planImages host F.files s.dir.get ms) u :=
    hu.1.calm.along_all
  split
  case isTrue =>
    rw [wp_bind]
    refine wp_mono (wp_prune k.keep) (fun _ w hw => .inl hw) (fun _ w hw => ?_) fun _ w hw => ?_
    · rw [wp_pure]
      exact .inl hw
    · rcases hw with hw | rfl
      · exact .inl hw
      · exact .inr hu
  case isFalse =>
    rw [wp_pure]
    exact .inr hu

theorem clearLeftovers_clears (hfault : ∀ o u, host.fault o u = none) :
    wp (clearLeftovers host) (fun _ _ => True)
      (fun _ u => Seen t.dir.get u ∧ ∀ name, isLeftover name = true → u.dir.get name = none)
      (fun _ _ => False) t := by
  refine wp_mono wp_clearLeftovers (fun _ _ _ => trivial)
    (fun _ u hu => ⟨Seen.within (fun _ _ => rfl) hu.1, hu.2⟩) fun _ u hu => ?_
  obtain ⟨-, o, w, hsome⟩ := hu
  exact hsome (hfault o w)

/-- The name of a link that `link` hasn't renamed to its tag yet. -/
def isTempLink (name : String) : Bool := (stagePrefix ++ "link-").toList.isPrefixOf name.toList

/-- What a tag points to: a link that isn't one of `link`'s own. -/
def Images.tag? (s : Images ρ) (name : String) : Option String :=
  if isTempLink name then none else s.readlink name

/-- No tag has the name of a leftover, as the next load would remove it. -/
def TagsSeen (s : Images ρ) : Prop := ∀ tag id, s.tag? tag = some id → isLeftover tag = false

/-- Every tag points where it did, and beside what was there are leftovers only. -/
structure Unchanged (s t : Images ρ) : Prop where
  tags : ∀ tag id, s.tag? tag = some id → t.tag? tag = some id
  held : Seen s.dir.get t

theorem TagsSeen.unchanged_iff (h : TagsSeen s) : Unchanged s t ↔ Seen s.dir.get t := by
  refine ⟨Unchanged.held, fun hseen => ⟨fun tag id htag => ?_, hseen⟩⟩
  rw [← htag]
  unfold Images.tag? Images.readlink
  rw [hseen tag (h tag id htag)]

/-- **A load that fails or is stopped before it prunes has made as many changes of its plan as it
has renamed images and tags.  Where no tag has a leftover's name, all is as it was just when these
undo one another: no image has appeared, and each tag was last pointed to where it had been.  What
else it leaves are leftovers, which the next load removes.** -/
theorem load_stopped_iff (host : Host ρ) (r : ImageStream) (s t : Images ρ) (hs : s.pruning = false)
    (htags : TagsSeen s)
    (ht : Stops (load host r) s t ∨
      ∃ e, (load host r s).result = .error e ∧ (load host r s).final = t)
    (hpruning : t.pruning = false) :
    let made := (plan host s.dir.get r).take (t.renames - s.renames)
    Seen (View.after s.dir.get made) t ∧ (Unchanged s t ↔ Undone s.dir.get made) ∧
    ∀ next : Host ρ, (∀ o u, next.fault o u = none) →
      wp (clearLeftovers next) (fun _ _ => True)
        (fun _ u => Seen t.dir.get u ∧ ∀ name, isLeftover name = true → u.dir.get name = none)
        (fun _ _ => False) t := by
  intro made
  have hload := load_along host r hs
  have halong : PrunesOrAlong host r s t := by
    rcases ht with (rfl | ⟨o, ho⟩) | ⟨e, he, rfl⟩
    · exact .inr (Calm.along ⟨fun _ _ => rfl, hs, rfl⟩)
    · exact hload.1 _ ho
    · exact wp_final hload
  rcases halong with hp | ⟨l, hl, hcalm⟩
  · rw [hpruning] at hp
    cases hp
  have hmade : made = l := by
    show (plan host s.dir.get r).take (t.renames - s.renames) = l
    rw [hcalm.renames, Nat.add_sub_cancel_left, ← List.prefix_iff_eq_take.mp hl]
  rw [hmade]
  refine ⟨hcalm.seen, ?_, fun next hfault => clearLeftovers_clears hfault⟩
  have hfit : Fit s.dir.get l := by
    obtain ⟨l', hl'⟩ := hl
    have := fit_plan host s.dir.get r
    rw [← hl', fit_append] at this
    exact this.1
  rw [htags.unchanged_iff, ← hfit.undone_iff]
  constructor
  · exact fun hsame name hname => (hcalm.seen name hname).symm.trans (hsame name hname)
  · exact fun hsame name hname => (hcalm.seen name hname).trans (hsame name hname)

/-! ### Runs -/

/-- An ID of one digit. -/
def idOf (c : Char) : String := String.ofList (List.replicate 64 c)

/-- A host where nothing fails, with the manifests of the stream; an empty config is image `0`'s. -/
def plainHost (ms : List Manifest) : Host Unit where
  sha data := if data = [] then idOf '0' else idOf '1'
  isID_sha data := by split <;> decide
  manifests _ := .ok ms
  config _ := .ok []
  bare := ()
  layer _ _ := ([], none)
  quote := String.quote
  text _ := ""
  fault _ _ := none

/-- A stream with a manifest and two configs. -/
def configs : ImageStream where
  files := [{ name := "manifest.json" }, { name := "c" }, { name := "d", data := [1] }]

/-- A directory with one image, which `app` points to. -/
def oneImage : Images Unit where
  dir := (FinMap.empty.set (idOf '1') (.folder (imageFolder [] ()))).set "app" (.link (idOf '1'))

/-- A directory with two images, and `app` points to the first. -/
def twoImages : Images Unit where
  dir := ((FinMap.empty.set (idOf '0') (.folder (imageFolder [] ()))).set (idOf '1')
    (.folder (imageFolder [1] ()))).set "app" (.link (idOf '0'))

/-- A tag is moved to another image and back, and then the load fails. -/
def movedBack : List Manifest := [⟨"d", ["app"], []⟩, ⟨"c", ["app"], []⟩, ⟨"e", ["app"], []⟩]

theorem load_stopped_moved_back :
    let r := load (plainHost movedBack) configs twoImages
    r.final.renames = 2 ∧ Unchanged twoImages r.final := by
  have htags : TagsSeen twoImages := by
    intro tag id htag
    unfold Images.tag? Images.readlink at htag
    by_cases hname : tag ∈ ["app", idOf '1', idOf '0']
    · clear htag
      revert tag
      decide
    · simp only [List.mem_cons, List.not_mem_nil, or_false, not_or] at hname
      simp [twoImages, hname] at htag
  have hiff := (load_stopped_iff (plainHost movedBack) configs twoImages _ rfl htags
    (.inr ⟨_, rfl, rfl⟩) rfl).2.1
  have hmade : (plan (plainHost movedBack) twoImages.dir.get configs).take 2 =
      [.point "app" (idOf '1'), .point "app" (idOf '0')] := rfl
  refine ⟨rfl, hiff.mpr ?_⟩
  show Undone twoImages.dir.get ((plan (plainHost movedBack) twoImages.dir.get configs).take 2)
  rw [hmade]
  refine ⟨by simp [Change.isPoint], fun tag id _ hlast => ?_⟩
  by_cases happ : "app" = tag
  · subst happ
    rw [← hlast]
    rfl
  · simp [lastTarget, retarget, happ] at hlast

/-- A directory whose only tag has a leftover's name, as a load may give it. -/
def hiddenTag : Images Unit where
  dir := (FinMap.empty.set (idOf '0') (.folder (imageFolder [] ()))).set ".load-app"
    (.link (idOf '0'))

/-- The second image of a stream can't be unpacked, and the load fails: the first is there, and
`app` points to it.  And a load that fails has removed a tag with a leftover's name. -/
theorem failed_load_moves_tag :
    let r := load (plainHost [⟨"c", ["app"], []⟩, ⟨"e", [], []⟩]) configs oneImage
    let hidden := load (plainHost [⟨"e", [], []⟩]) configs hiddenTag
    (r.result = .error "image config: no such file or directory" ∧ r.final.pruning = false ∧
      oneImage.readlink "app" = some (idOf '1') ∧ r.final.readlink "app" = some (idOf '0') ∧
      oneImage.isFolder (idOf '0') = false ∧ r.final.isFolder (idOf '0') = true) ∧
    hidden.result = .error "image config: no such file or directory" ∧
      hidden.final.pruning = false ∧ hiddenTag.tag? ".load-app" = some (idOf '0') ∧
      hidden.final.tag? ".load-app" = none := by
  refine ⟨⟨?_, ?_, ?_, ?_, ?_, ?_⟩, ?_, ?_, ?_, ?_⟩
  all_goals decide +kernel

end Image

end Fern
