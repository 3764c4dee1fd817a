/-
Checkouts with the same golden key agree on all the key stands for.

The key is a hash of texts that hold no NUL byte, each with one behind it, so equal keys mean
equal texts: the same paths with the same sums, and a sum is a file's or says that it is missing.
What remains is that nothing else is read: the guess and the tools read only files whose sums go
into the key, and whether the guess's do is seen in the paths.  A file that can't be read is
missing to the guess and an error to the key, so where there is a key there is no such file.
-/
import Mathlib.Data.List.Find
import Mathlib.Data.Set.Function
import Fern.Setup.Key

namespace Fern

open List

variable {read : Text → Except ReadErr Bytes} {p : Text}

namespace Setup

/-! ### Reads that agree -/

/-- Two checkouts that agree wherever it matters. -/
def AgreeOn (paths : List Text) (read read' : Text → Except ReadErr Bytes) : Prop :=
  ∀ p ∈ paths, read p = read' p

section Congr

variable {sha : Sha} {d : Decoders} {read read' : Text → Except ReadErr Bytes} {paths : List Text}

theorem AgreeOn.tail (h : AgreeOn (p :: paths) read read') : AgreeOn paths read read' :=
  fun q hq => h q (mem_cons_of_mem _ hq)

theorem AgreeOn.mono {paths' : List Text} (h : AgreeOn paths read read')
    (hsub : ∀ p ∈ paths', p ∈ paths) : AgreeOn paths' read read' :=
  fun p hp => h p (hsub p hp)

theorem hasToolFiles_congr (h : AgreeOn paths read read') :
    hasToolFiles read paths = hasToolFiles read' paths := by
  induction paths with
  | nil => rfl
  | cons p paths ih =>
    rw [hasToolFiles, hasToolFiles, h p mem_cons_self, ih h.tail]

theorem composePostgres_congr (h : AgreeOn paths read read') :
    composePostgres d read paths = composePostgres d read' paths := by
  induction paths with
  | nil => rfl
  | cons p paths ih =>
    rw [composePostgres, composePostgres, h p mem_cons_self, ih h.tail]

theorem fileSums_congr {what : Text} (h : AgreeOn paths read read') :
    fileSums sha read what paths = fileSums sha read' what paths := by
  induction paths with
  | nil => rfl
  | cons p paths ih =>
    rw [fileSums, fileSums, fileSum, fileSum, h p mem_cons_self, ih h.tail]

theorem nodeVersion_congr {engines : Text}
    (h : AgreeOn [lit ".nvmrc", lit ".node-version"] read read') :
    nodeVersion d read engines = nodeVersion d read' engines := by
  have hfile : ∀ p ∈ [lit ".nvmrc", lit ".node-version"],
      versionIn d read p = versionIn d read' p := by
    intro p hp
    rw [versionIn, versionIn, h p hp]
  have hfind : [lit ".nvmrc", lit ".node-version"].findSome? (versionIn d read) =
      [lit ".nvmrc", lit ".node-version"].findSome? (versionIn d read') := by
    simp only [findSome?_cons, findSome?_nil]
    rw [hfile _ mem_cons_self, hfile _ (mem_cons_of_mem _ mem_cons_self)]
  rw [nodeVersion, nodeVersion, hfind]

theorem pickPackageManager_congr {field : Text}
    (h : AgreeOn (packageManagers.map PackageManager.lock) read read') :
    pickPackageManager read field = pickPackageManager read' field := by
  have hlock : ∀ pm ∈ packageManagers, isThere read pm.lock = isThere read' pm.lock := by
    intro pm hpm
    rw [isThere, isThere, h pm.lock (mem_map_of_mem hpm)]
  have hfind : ∀ name : Text,
      packageManagers.find? (fun pm => isThere read pm.lock && (name = [] || name = pm.name)) =
        packageManagers.find? fun pm => isThere read' pm.lock && (name = [] || name = pm.name) := by
    intro name
    refine find?_congr fun pm hpm => ?_
    rw [hlock pm hpm]
  simp only [pickPackageManager, hfind]

/-- Every file that a guess may read. -/
def guessReads : List Text :=
  lit "services.yaml" :: guessInputs ++ packageManagers.map PackageManager.lock ++ toolFiles

/-- **The guess depends on those files alone.** -/
theorem makeGuess_congr (h : AgreeOn guessReads read read') :
    makeGuess d read = makeGuess d read' := by
  have hnode : AgreeOn [lit ".nvmrc", lit ".node-version"] read read' :=
    h.mono (by simp [guessReads, guessInputs])
  have hcompose : AgreeOn composeFiles read read' :=
    h.mono fun p hp => by simp [guessReads, guessInputs, hp]
  have hlock : AgreeOn (packageManagers.map PackageManager.lock) read read' :=
    h.mono fun p hp => by simp only [guessReads, mem_append]; exact .inl (.inr hp)
  have htools : AgreeOn toolFiles read read' :=
    h.mono fun p hp => by simp only [guessReads, mem_append]; exact .inr hp
  have hguess : ∀ pkg, guessOf d read pkg = guessOf d read' pkg := by
    intro pkg
    rw [guessOf, guessOf, pickPackageManager_congr hlock, composePostgres_congr hcompose,
      hasToolFiles_congr htools, nodeVersion_congr hnode]
  rw [makeGuess, makeGuess, h (lit "services.yaml") (by simp [guessReads]),
    h (lit "package.json") (by simp [guessReads, guessInputs])]
  simp only [hguess]

end Congr

/-! ### Texts without NUL -/

theorem hexDigit_ne_zero {n : Nat} (h : n < 16) : hexDigit n ≠ 0 := by
  revert n
  decide

theorem zero_notMem_hex (b : Bytes) : 0 ∉ hex b := by
  intro h
  obtain ⟨x, -, hx⟩ := mem_flatMap.mp h
  have hx' : x.toNat < 256 := x.toNat_lt
  rcases mem_cons.mp hx with hx | hx
  · exact hexDigit_ne_zero (n := x.toNat / 16) (by omega) hx.symm
  · exact hexDigit_ne_zero (n := x.toNat % 16) (by omega) (mem_singleton.mp hx).symm

theorem length_hex (b : Bytes) : (hex b).length = 2 * b.length := by
  induction b with
  | nil => rfl
  | cons x b ih =>
    rw [hex, flatMap_cons, length_append, ← hex, ih, length_cons, length_cons,
      length_cons]
    simp
    omega

theorem hex_sum_ne_missing (sha : Sha) (b : Bytes) : hex (sha.sum b) ≠ lit "missing" := by
  intro h
  have hlen := congrArg List.length h
  rw [length_hex, sha.length] at hlen
  exact absurd hlen (by decide)

theorem fields_inj {l l' : List (Text × Text)} (h : fields l = fields l') : l = l' := by
  induction l generalizing l' with
  | nil =>
    cases l' with
    | nil => rfl
    | cons s l' => simp [fields] at h
  | cons s l ih =>
    cases l' with
    | nil => simp [fields] at h
    | cons s' l' =>
      have h : s.1 :: s.2 :: fields l = s'.1 :: s'.2 :: fields l' := by simpa [fields] using h
      injection h with hpath h
      injection h with hsum h
      rw [ih h, Prod.ext hpath hsum]

/-! ### What a key stands for -/

variable {sha : Sha} {d : Decoders} {c c' : Checkout} {image image' k : Text}

/-- A file that is missing in both, or in both with the same bytes. -/
def SameFile (c c' : Checkout) (p : Text) : Prop :=
  (c.readFile p = .error .notExist ∧ c'.readFile p = .error .notExist) ∨
    ∃ data, c.readFile p = .ok data ∧ c'.readFile p = .ok data

theorem SameFile.eq (h : SameFile c c' p) : c.readFile p = c'.readFile p := by
  rcases h with ⟨h, h'⟩ | ⟨data, h, h'⟩
  · rw [h, h']
  · rw [h, h']

theorem fileSum_eq_ok {sum : Text} (h : fileSum sha read p = .ok sum) :
    (read p = .error .notExist ∧ sum = lit "missing") ∨
      ∃ data, read p = .ok data ∧ sum = hex (sha.sum data) := by
  unfold fileSum at h
  split at h
  case h_1 hread =>
    injection h with h
    exact .inl ⟨hread, h.symm⟩
  case h_2 => cases h
  case h_3 data hread =>
    injection h with h
    exact .inr ⟨data, hread, h.symm⟩

theorem fileSums_eq_ok {what : Text} {paths : List Text} {sums : List (Text × Text)}
    (h : fileSums sha read what paths = .ok sums) :
    sums.map Prod.fst = paths ∧ ∀ s ∈ sums, fileSum sha read s.1 = .ok s.2 := by
  induction paths generalizing sums with
  | nil =>
    injection h with h
    subst h
    exact ⟨rfl, by simp⟩
  | cons p paths ih =>
    rw [fileSums] at h
    split at h
    case h_1 => cases h
    case h_2 => cases h
    case h_3 sum hsum =>
      split at h
      case h_1 => cases h
      case h_2 sums' hsums =>
        injection h with h
        subst h
        obtain ⟨hpaths, heach⟩ := ih hsums
        refine ⟨by rw [map_cons, hpaths], fun s hs => ?_⟩
        rcases mem_cons.mp hs with rfl | hs
        · exact hsum
        · exact heach s hs

/-- What a call of `Key` that succeeds finds. -/
structure Keyed (sha : Sha) (d : Decoders) (c : Checkout) (g : Guess) (inputs : List Text)
    (sums : List (Text × Text)) : Prop where
  guess : makeGuess d c.readFile = .ok g
  listed : goldenInputs d c.readFile = .ok inputs
  sums : fileSums sha c.readFile (lit "golden key: ") (keyPaths g inputs) = .ok sums

theorem key_eq_ok (h : key sha d c image = .ok k) :
    ∃ g inputs sums, Keyed sha d c g inputs sums ∧
      k = lit "golden-" ++ truncated sha (keyText image sums) := by
  unfold key at h
  split at h
  case h_1 => cases h
  case h_2 g hguess =>
    split at h
    case isTrue => cases h
    case isFalse =>
      split at h
      case h_1 => cases h
      case h_2 inputs hinputs =>
        split at h
        case h_1 => cases h
        case h_2 sums hsums =>
          exact ⟨g, inputs, sums, ⟨hguess, hinputs, hsums⟩, (Except.ok.inj h).symm⟩

theorem mem_keyPaths {g : Guess} {inputs : List Text} :
    p ∈ keyPaths g inputs ↔
      p ∈ contractFiles ∨ p ∈ lockFiles ∨ (g.applies = true ∧ p ∈ g.inputs) ∨ p ∈ inputs := by
  rw [keyPaths, mem_compact, sortTexts, (perm_insertionSort _ _).mem_iff]
  simp only [mem_append, or_assoc]
  split
  case isTrue h => simp [h]
  case isFalse h => simp [h]

namespace Keyed

variable {g g' : Guess} {inputs inputs' : List Text} {sums sums' : List (Text × Text)}

theorem noNul (h : Keyed sha d c g inputs sums) : ∀ x ∈ fields sums, 0 ∉ x := by
  intro x hx hzero
  obtain ⟨s, hs, hx⟩ := mem_flatMap.mp hx
  have hsum := (fileSums_eq_ok h.sums).2 s hs
  rcases mem_cons.mp hx with rfl | hx
  · have hread : c.readFile s.1 = .error (.other (lit "invalid argument")) := by
      rw [Checkout.readFile, c.nul s.1 hzero]
    rw [fileSum, hread] at hsum
    contradiction
  · rw [mem_singleton] at hx
    subst hx
    rcases fileSum_eq_ok hsum with ⟨-, hmissing⟩ | ⟨data, -, hdata⟩
    · rw [hmissing] at hzero
      revert hzero
      decide
    · rw [hdata] at hzero
      exact zero_notMem_hex _ hzero

theorem exists_sum (h : Keyed sha d c g inputs sums) (hp : p ∈ keyPaths g inputs) :
    ∃ sum, (p, sum) ∈ sums ∧ fileSum sha c.readFile p = .ok sum := by
  obtain ⟨hpaths, heach⟩ := fileSums_eq_ok h.sums
  rw [← hpaths] at hp
  obtain ⟨s, hs, rfl⟩ := mem_map.mp hp
  exact ⟨s.2, hs, heach s hs⟩

end Keyed

/-- What a call of `Key` hashes: the files' contents, and then their paths and sums. -/
inductive Hashed (sha : Sha) (d : Decoders) (c : Checkout) (image : Text) : Bytes → Prop where
  | file {g inputs sums p data} : Keyed sha d c g inputs sums → p ∈ keyPaths g inputs →
      c.readFile p = .ok data → Hashed sha d c image data
  | text {g inputs sums} : Keyed sha d c g inputs sums →
      Hashed sha d c image (keyText image sums)

/-- No two texts that the calls hash have the same first 16 digits. -/
def NoCollisions (sha : Sha) (d : Decoders) (c c' : Checkout) (image image' : Text) : Prop :=
  Set.InjOn (truncated sha) {b | Hashed sha d c image b ∨ Hashed sha d c' image' b}

namespace Keyed

variable {g g' : Guess} {inputs inputs' : List Text} {sums sums' : List (Text × Text)}

theorem text_eq (h : Keyed sha d c g inputs sums) (h' : Keyed sha d c' g' inputs' sums')
    (hsha : NoCollisions sha d c c' image image') (himage : 0 ∉ image) (himage' : 0 ∉ image')
    (heq : truncated sha (keyText image sums) = truncated sha (keyText image' sums')) :
    image = image' ∧ sums = sums' := by
  have htext : keyText image sums = keyText image' sums' :=
    hsha (.inl (.text h)) (.inr (.text h')) heq
  have hnul : ∀ {image : Text} {l : List Text}, 0 ∉ image → (∀ x ∈ l, (0 : UInt8) ∉ x) →
      ∀ x ∈ version :: image :: l, 0 ∉ x := by
    intro image l himage hl x hx
    rcases mem_cons.mp hx with rfl | hx
    · decide
    · rcases mem_cons.mp hx with rfl | hx
      · exact himage
      · exact hl x hx
  have hfields := flatMap_ended_inj (hnul himage h.noNul) (hnul himage' h'.noNul) htext
  obtain ⟨himages, hsums⟩ := List.cons.inj (List.cons.inj hfields).2
  exact ⟨himages, fields_inj hsums⟩

theorem sameFile (h : Keyed sha d c g inputs sums) (h' : Keyed sha d c' g' inputs' sums)
    (hsha : NoCollisions sha d c c' image image') (hp : p ∈ keyPaths g inputs) :
    SameFile c c' p := by
  obtain ⟨sum, hmem, hsum⟩ := h.exists_sum hp
  have hsum' : fileSum sha c'.readFile p = .ok sum := (fileSums_eq_ok h'.sums).2 _ hmem
  have hp' : p ∈ keyPaths g' inputs' := by
    rw [← (fileSums_eq_ok h'.sums).1]
    exact mem_map_of_mem hmem
  rcases fileSum_eq_ok hsum with ⟨hread, rfl⟩ | ⟨data, hread, rfl⟩
  · rcases fileSum_eq_ok hsum' with ⟨hread', -⟩ | ⟨data', -, hdata'⟩
    · exact .inl ⟨hread, hread'⟩
    · exact absurd hdata'.symm (hex_sum_ne_missing sha data')
  · rcases fileSum_eq_ok hsum' with ⟨-, hmissing⟩ | ⟨data', hread', hdata'⟩
    · exact absurd hmissing (hex_sum_ne_missing sha data)
    · have hdata : data = data' := hsha (.inl (.file h hp hread)) (.inr (.file h' hp' hread'))
        (by rw [truncated, truncated, hdata'])
      exact .inr ⟨data, hread, hdata ▸ hread'⟩

theorem agree (h : Keyed sha d c g inputs sums) (h' : Keyed sha d c' g' inputs' sums)
    (hsha : NoCollisions sha d c c' image image') :
    AgreeOn (keyPaths g inputs) c.readFile c'.readFile :=
  fun _ hp => (h.sameFile h' hsha hp).eq

end Keyed

/-- A guess that doesn't apply is empty, and one that does names the files it read. -/
theorem makeGuess_cases {g : Guess} (h : makeGuess d read = .ok g) :
    g = {} ∨ (g.applies = true ∧ g.inputs = guessInputs) := by
  have hguess : ∀ {pkg}, guessOf d read pkg = .ok g → g.applies = true ∧
    g.inputs = guessInputs := by
    intro pkg h
    unfold guessOf at h
    dsimp only at h
    split at h
    case h_1 => cases h
    case h_2 =>
      split at h
      case h_1 => cases h
      case h_2 => rw [← Except.ok.inj h]; exact ⟨rfl, rfl⟩
      case h_3 => rw [← Except.ok.inj h]; exact ⟨rfl, rfl⟩
  unfold makeGuess at h
  split at h
  case h_1 => exact .inl (Except.ok.inj h).symm
  case h_2 => cases h
  case h_3 =>
    split at h
    case h_1 => exact .inl (Except.ok.inj h).symm
    case h_2 => cases h
    case h_3 =>
      split at h
      case h_1 => cases h
      case h_2 =>
        split at h
        case isTrue => exact .inl (Except.ok.inj h).symm
        case isFalse => exact .inr (hguess h)

private theorem locks_sub : ∀ p ∈ packageManagers.map PackageManager.lock, p ∈ lockFiles := by
  simp [packageManagers, lockFiles, npm]

private theorem tools_sub : ∀ p ∈ toolFiles, p ∈ contractFiles := by
  intro p hp
  rw [contractFiles, mem_append]
  exact .inr hp

theorem guessReads_sub {g : Guess} {inputs : List Text} (happlies : g.applies = true)
    (hinputs : g.inputs = guessInputs) : ∀ p ∈ guessReads, p ∈ keyPaths g inputs := by
  intro p hp
  rw [mem_keyPaths]
  rw [guessReads, mem_append, mem_append, mem_cons] at hp
  rcases hp with ((rfl | hp) | hp) | hp
  · exact .inl mem_cons_self
  · exact .inr (.inr (.inl ⟨happlies, hinputs ▸ hp⟩))
  · exact .inr (.inl (locks_sub p hp))
  · exact .inl (tools_sub p hp)

/-- **Golden keys are sound.**  If two checkouts have the same key, they have it for the same image,
every file of the contract, every lockfile, every one of `golden.inputs` and, where a guess
applies, every file it names is missing in both or the same in both, and all that is made of them
is the same. -/
theorem golden_key_sound (himage : 0 ∉ image) (himage' : 0 ∉ image')
    (h : key sha d c image = .ok k) (h' : key sha d c' image' = .ok k)
    (hsha : NoCollisions sha d c c' image image') :
    image = image' ∧
      (∀ p, p ∈ contractFiles ∨ p ∈ lockFiles → SameFile c c' p) ∧
      goldenInputs d c.readFile = goldenInputs d c'.readFile ∧
      (∀ inputs, goldenInputs d c.readFile = .ok inputs → ∀ p ∈ inputs, SameFile c c' p) ∧
      (∀ g, makeGuess d c.readFile = .ok g → g.applies = true →
        ∀ p ∈ guessReads, SameFile c c' p) ∧
      servicesFile d c.readFile = servicesFile d c'.readFile ∧
      makeGuess d c.readFile = makeGuess d c'.readFile ∧
      toolsKey sha d c.readFile = toolsKey sha d c'.readFile := by
  obtain ⟨g, inputs, sums, hkeyed, hk⟩ := key_eq_ok h
  obtain ⟨g', inputs', sums', hkeyed', hk'⟩ := key_eq_ok h'
  obtain ⟨rfl, rfl⟩ := hkeyed.text_eq hkeyed' hsha himage himage'
    (append_cancel_left (hk.symm.trans hk'))
  have hpaths : keyPaths g inputs = keyPaths g' inputs' := by
    rw [← (fileSums_eq_ok hkeyed.sums).1, (fileSums_eq_ok hkeyed'.sums).1]
  have hsame := fun p (hp : p ∈ keyPaths g inputs) => hkeyed.sameFile hkeyed' hsha hp
  have hagree := hkeyed.agree hkeyed' hsha
  have hcontract : ∀ p ∈ contractFiles, p ∈ keyPaths g inputs := fun p hp =>
    mem_keyPaths.mpr (.inl hp)
  have hservices := hagree (lit "services.yaml") (hcontract _ mem_cons_self)
  have htools : AgreeOn toolFiles c.readFile c'.readFile :=
    hagree.mono fun p hp => hcontract p (tools_sub p hp)
  -- a guess that applies in one of the two has read the same files in the other
  have hguess : makeGuess d c.readFile = makeGuess d c'.readFile := by
    rcases makeGuess_cases hkeyed.guess with hg | ⟨happlies, hinputs⟩
    · rcases makeGuess_cases hkeyed'.guess with hg' | ⟨happlies, hinputs⟩
      · rw [hkeyed.guess, hkeyed'.guess, hg, hg']
      · refine makeGuess_congr (hagree.mono fun p hp => ?_)
        rw [hpaths]
        exact guessReads_sub happlies hinputs p hp
    · exact makeGuess_congr (hagree.mono (guessReads_sub happlies hinputs))
  refine ⟨rfl, fun p hp => hsame p ?_, ?_, fun l hl p hp => hsame p ?_,
    fun g₁ hg₁ happlies p hp => hsame p ?_, ?_, hguess, ?_⟩
  · exact mem_keyPaths.mpr (hp.imp id .inl)
  · rw [goldenInputs, goldenInputs, hservices]
  · cases hkeyed.listed.symm.trans hl
    exact mem_keyPaths.mpr (.inr (.inr (.inr hp)))
  · cases hkeyed.guess.symm.trans hg₁
    rcases makeGuess_cases hkeyed.guess with rfl | ⟨-, hinputs⟩
    · simp [Guess.applies] at happlies
    · exact guessReads_sub happlies hinputs p hp
  · rw [servicesFile, servicesFile, hservices, hguess]
  · rw [toolsKey, toolsKey, hasToolFiles_congr htools, hguess, fileSums_congr htools]

/-! ### Two checkouts -/

/-- The files of a repository whose `services.yaml` names an input of its golden builds, and perhaps
a readme. -/
def plainFiles (readme : Bool) : List (Text × Bytes) :=
  [(lit "services.yaml", lit "golden: {inputs: [db.sql]}"),
    (lit "db.sql", lit "create table t();")] ++
    if readme then [(lit "README.md", lit "An app.")] else []

def plainCheckout (readme : Bool) : Checkout where
  openFile p :=
    if 0 ∈ p then .error (.other (lit "invalid argument"))
    else ((plainFiles readme).lookup p).elim (.error .notExist) fun data => .ok (.regular data)
  lstat p := ((plainFiles readme).lookup p).isSome
  nul p hp := by simp [hp]

/-- Libraries that find that input, and nothing else. -/
def plainDecoders : Decoders where
  package _ := .error []
  compose _ := .error []
  inputs data := .ok (if data = lit "golden: {inputs: [db.sql]}" then [lit "db.sql"] else [])
  ports _ := .error []
  clean := id
  isLocal _ := true
  trimSpace := id
  quote := id
  quoted := id

/-- A hash that keeps the first bytes. -/
def firstBytes : Sha where
  sum b := (b ++ List.replicate 32 0).take 32
  length b := by simp

def plainSums : List (Text × Text) :=
  (keyPaths {} [lit "db.sql"]).map fun p => (p, ((plainFiles false).lookup p).elim (lit "missing")
    fun data => hex (firstBytes.sum data))

theorem keyed_plain (readme : Bool) :
    Keyed firstBytes plainDecoders (plainCheckout readme) {} [lit "db.sql"] plainSums := by
  cases readme with
  | false => exact ⟨rfl, rfl, rfl⟩
  | true => exact ⟨rfl, rfl, rfl⟩

/-- What there is to hash. -/
def plainTexts : List Bytes :=
  [keyText (lit "box") plainSums, lit "golden: {inputs: [db.sql]}", lit "create table t();",
    lit "An app."]

theorem hashed_plain {readme : Bool} {b : Bytes}
    (h : Hashed firstBytes plainDecoders (plainCheckout readme) (lit "box") b) :
    b ∈ plainTexts := by
  have hplain := keyed_plain readme
  have hall : ∀ readme, ∀ p ∈ keyPaths {} [lit "db.sql"],
      ((plainCheckout readme).readFile p).toOption.all (· ∈ plainTexts) = true := by decide +kernel
  cases h with
  | @file g inputs sums p _ hkeyed hp hread =>
    cases hplain.guess.symm.trans hkeyed.guess
    cases hplain.listed.symm.trans hkeyed.listed
    simpa [hread, Except.toOption] using hall readme p hp
  | @text g inputs sums hkeyed =>
    cases hplain.guess.symm.trans hkeyed.guess
    cases hplain.listed.symm.trans hkeyed.listed
    rw [← Except.ok.inj (hplain.sums.symm.trans hkeyed.sums)]
    exact mem_cons_self

theorem noCollisions_plain :
    NoCollisions firstBytes plainDecoders (plainCheckout true) (plainCheckout false) (lit "box")
      (lit "box") := by
  have hone : ∀ b ∈ plainTexts, ∀ b' ∈ plainTexts,
      truncated firstBytes b = truncated firstBytes b' → b = b' := by decide +kernel
  intro b hb b' hb' heq
  exact hone b (hb.elim hashed_plain hashed_plain) b' (hb'.elim hashed_plain hashed_plain) heq

/-- A readme doesn't change the key, and the two checkouts have the same input. -/
theorem golden_key_sound_readme :
    key firstBytes plainDecoders (plainCheckout true) (lit "box") =
        key firstBytes plainDecoders (plainCheckout false) (lit "box") ∧
      SameFile (plainCheckout true) (plainCheckout false) (lit "db.sql") := by
  obtain ⟨-, -, -, hinputs, -⟩ :=
    golden_key_sound (by decide) (by decide) rfl rfl noCollisions_plain
  exact ⟨rfl, hinputs [lit "db.sql"] rfl _ mem_cons_self⟩

end Setup

end Fern
