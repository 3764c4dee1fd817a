/-
The IDs of builders and of their sources.

An ID is made from whatever bytes a repository is called, so what it is made of is said of each of
its three parts: the start all of them have, a readable part of at most 30 characters of a label,
and eight digits of the hash.  The digits end it.  They are how a builder is told from a source,
whose suffix has letters that are no digits, and two builders from each other.
-/
import Fern.Setup.Names

namespace Fern

open List

variable {c : Char} {repo : Bytes}

/-! ### What an ID may be -/

/-- A character of an environment's ID. -/
def idChar (c : Char) : Bool := c == '-' || labelChar c

theorem checkEnvID_of_ends {d : Char} {l : List Char} (hfirst : labelChar c = true)
    (hlast : labelChar d = true) (hall : ∀ x ∈ l, idChar x = true) (hlen : l.length ≤ 61) :
    checkEnvID (String.ofList (c :: l ++ [d])) = true := by
  unfold checkEnvID
  rw [String.toList_ofList, cons_append]
  have hdrop : (l ++ [d]).dropLast = l := dropLast_concat
  have hend : (l ++ [d]).getLast? = some d := getLast?_concat
  simp only [hfirst, hdrop, hend, Option.map_some, Option.getD_some, hlast, Bool.true_and,
    Bool.and_true, Bool.or_eq_true, Bool.and_eq_true, decide_eq_true_eq, all_eq_true]
  right
  refine ⟨?_, ?_⟩
  · rw [length_append, length_singleton]
    omega
  · intro x hx
    exact Bool.or_eq_true _ _ ▸ hall x hx

/-! ### The readable part -/

theorem trimDashes_subset (l : List Char) : ∀ c ∈ trimDashes l, c ∈ l := by
  intro c hc
  unfold trimDashes at hc
  have hback := (dropWhile_suffix _).subset (mem_reverse.mp hc)
  exact (dropWhile_suffix _).subset (mem_reverse.mp hback)

theorem trimDashes_length (l : List Char) : (trimDashes l).length ≤ l.length := by
  unfold trimDashes
  rw [length_reverse]
  have hback := (dropWhile_suffix (l := (l.dropWhile (· == '-')).reverse) (· == '-')).length_le
  have hfront := (dropWhile_suffix (l := l) (· == '-')).length_le
  rw [length_reverse] at hback
  omega

/-- A name cut to 30 characters. -/
def cutName (name : List Char) : List Char :=
  if 30 < name.length then trimDashes (name.take 30) else name

theorem cutName_subset (name : List Char) : ∀ c ∈ cutName name, c ∈ name := by
  intro c hc
  unfold cutName at hc
  split at hc
  · exact mem_of_mem_take (trimDashes_subset _ c hc)
  · exact hc

theorem cutName_length (name : List Char) : (cutName name).length ≤ 30 := by
  unfold cutName
  split
  · have htrim := trimDashes_length (name.take 30)
    rw [length_take] at htrim
    omega
  · omega

theorem readable_cases (lower : List Char → List Char) (repo : List Char) :
    readable lower repo = ['r', 'e', 'p', 'o'] ∨
      readable lower repo =
        cutName (trimDashes ((lower repo).map fun r => if labelChar r then r else '-')) := by
  have heq : readable lower repo =
      (if cutName (trimDashes ((lower repo).map fun r => if labelChar r then r else '-')) = [] then
        ['r', 'e', 'p', 'o']
      else cutName (trimDashes ((lower repo).map fun r => if labelChar r then r else '-'))) := rfl
  rw [heq]
  split
  · exact .inl rfl
  · exact .inr rfl

/-- It is of a label's characters, whatever the name is. -/
theorem readable_idChar (lower : List Char → List Char) (repo : List Char) :
    ∀ c ∈ readable lower repo, idChar c = true := by
  obtain heq | heq := readable_cases lower repo
  · rw [heq]
    exact all_eq_true.mp (by decide)
  · intro c hc
    rw [heq] at hc
    -- the cut and the trim keep what the name's characters were replaced by
    obtain ⟨r, -, rfl⟩ := mem_map.mp (trimDashes_subset _ c (cutName_subset _ c hc))
    by_cases hr : labelChar r = true
    · simp [idChar, hr]
    · simp [idChar, hr]

theorem readable_length (lower : List Char → List Char) (repo : List Char) :
    (readable lower repo).length ≤ 30 := by
  obtain heq | heq := readable_cases lower repo
  · rw [heq]
    decide
  · rw [heq]
    exact cutName_length _

/-! ### The digits of the hash -/

theorem digitChar_hex {k : Nat} (h : k < 16) :
    labelChar (Nat.digitChar k) = true ∧ Nat.digitChar k ∉ sourceSuffix.take 3 := by
  revert k
  decide

theorem mem_hexText {b : Bytes} (h : c ∈ hexText b) :
    ∃ k < 16, c = Nat.digitChar k := by
  obtain ⟨x, -, hc⟩ := mem_flatMap.mp h
  have hx := x.toNat_lt
  simp only [mem_cons, not_mem_nil, or_false] at hc
  obtain rfl | rfl := hc
  · exact ⟨x.toNat / 16, by omega, rfl⟩
  · exact ⟨x.toNat % 16, by omega, rfl⟩

theorem hexText_length (b : Bytes) : (hexText b).length = 2 * b.length := by
  induction b with
  | nil => rfl
  | cons x b ih =>
    rw [hexText, flatMap_cons, length_append, ← hexText, ih]
    simp only [length_cons, length_nil]
    omega

namespace Naming

variable (n : Naming)

theorem sum_length (repo : Bytes) : (n.sum repo).length = 8 := by
  unfold sum
  rw [length_take, hexText_length, Vector.length_toList]
  omega

theorem mem_sum (h : c ∈ n.sum repo) :
    labelChar c = true ∧ c ∉ sourceSuffix.take 3 := by
  obtain ⟨k, hk, rfl⟩ := mem_hexText (mem_of_mem_take h)
  exact digitChar_hex hk

/-! ### The IDs -/

/-- What an ID has before its digits. -/
def stem (repo : Bytes) : List Char :=
  builderPrefix ++ readable (List.map n.lower) (Utf8.runes repo) ++ ['-']

theorem id_toList (repo : Bytes) : (n.id repo).toList = n.stem repo ++ n.sum repo :=
  String.toList_ofList

theorem sourceID_toList (repo : Bytes) :
    (n.sourceID repo).toList = (n.id repo).toList ++ sourceSuffix :=
  String.toList_ofList

theorem stem_eq_cons (repo : Bytes) :
    ∃ l, n.stem repo = 'g' :: l ∧ (∀ c ∈ l, idChar c = true) ∧ l.length ≤ 37 := by
  refine ⟨['o', 'l', 'd', 'e', 'n', '-'] ++ readable (List.map n.lower) (Utf8.runes repo) ++ ['-'],
    rfl, ?_, ?_⟩
  · intro c hc
    rw [mem_append, mem_append] at hc
    obtain (hc | hc) | hc := hc
    · exact all_eq_true.mp (by decide : ['o', 'l', 'd', 'e', 'n', '-'].all idChar = true) c hc
    · exact readable_idChar _ _ c hc
    · rw [mem_singleton.mp hc]
      decide
  · have hlen := readable_length (List.map n.lower) (Utf8.runes repo)
    simp only [length_append, length_cons, length_nil]
    omega

/-- What starts as an ID and ends with a character of a label is valid, if it isn't too long. -/
theorem checkEnvID_append (repo : Bytes) (l : List Char) (d : Char) {id : EnvID}
    (hid : id.toList = n.stem repo ++ l ++ [d]) (hall : ∀ c ∈ l, idChar c = true)
    (hd : labelChar d = true) (hlen : l.length ≤ 24) : checkEnvID id = true := by
  obtain ⟨start, hstem, hstart, hstartLen⟩ := n.stem_eq_cons repo
  have heq : id = String.ofList ('g' :: (start ++ l) ++ [d]) := by
    rw [← String.ofList_toList (s := id), hid, hstem]
    simp only [cons_append]
  rw [heq]
  refine checkEnvID_of_ends (by decide) hd ?_ ?_
  · intro c hc
    obtain hc | hc := mem_append.mp hc
    · exact hstart c hc
    · exact hall c hc
  · rw [length_append]
    omega

theorem sum_idChar (h : c ∈ n.sum repo) : idChar c = true := by
  unfold idChar
  rw [(n.mem_sum h).1, Bool.or_true]

theorem checkEnvID_id (repo : Bytes) : checkEnvID (n.id repo) = true := by
  have hlen := n.sum_length repo
  obtain hnil | ⟨l, d, hsum⟩ := eq_nil_or_concat' (n.sum repo)
  · rw [hnil] at hlen
    cases hlen
  have hmem : ∀ c ∈ l, c ∈ n.sum repo := by
    intro c hc
    rw [hsum]
    exact mem_append_left _ hc
  have hd : d ∈ n.sum repo := by
    rw [hsum]
    exact mem_append_right _ (mem_singleton_self d)
  refine n.checkEnvID_append repo l d ?_ ?_ (n.mem_sum hd).1 ?_
  · rw [id_toList, hsum, append_assoc]
  · intro c hc
    exact n.sum_idChar (hmem c hc)
  · rw [hsum, length_append, length_singleton] at hlen
    omega

theorem checkEnvID_sourceID (repo : Bytes) : checkEnvID (n.sourceID repo) = true := by
  refine n.checkEnvID_append repo (n.sum repo ++ ['-', 's', 'r']) 'c' ?_ ?_
    (by decide) ?_
  · rw [sourceID_toList, id_toList, sourceSuffix]
    simp only [append_assoc, cons_append, nil_append]
  · intro c hc
    obtain hc | hc := mem_append.mp hc
    · exact n.sum_idChar hc
    · exact all_eq_true.mp (by decide : ['-', 's', 'r'].all idChar = true) c hc
  · rw [length_append, sum_length]
    decide

theorem isBuilder_sourceID (repo : Bytes) : isBuilder (n.sourceID repo) = true := by
  unfold isBuilder
  rw [ isPrefixOf_iff_prefix, sourceID_toList, id_toList, stem]
  simp only [append_assoc]
  exact prefix_append _ _

theorem builderOf_sourceID (repo : Bytes) :
    builderOf (n.sourceID repo) = some (n.id repo) := by
  have hsuffix : sourceSuffix.isSuffixOf (n.sourceID repo).toList = true := by
    rw [isSuffixOf_iff_suffix, sourceID_toList]
    exact suffix_append _ _
  unfold builderOf
  rw [isBuilder_sourceID, hsuffix, sourceID_toList, length_append, Nat.add_sub_cancel,
    take_left]
  simp

theorem not_sourceSuffix (repo : Bytes) : ¬ sourceSuffix <:+ (n.id repo).toList := by
  intro hsuffix
  have hsum : n.sum repo <:+ (n.id repo).toList := by
    rw [id_toList]
    exact suffix_append _ _
  have hlen : sourceSuffix.length ≤ (n.sum repo).length := by
    rw [sum_length]
    decide
  have hdash : '-' ∈ n.sum repo :=
    (suffix_of_suffix_length_le hsuffix hsum hlen).subset (by decide)
  exact (n.mem_sum hdash).2 (by decide)

theorem builderOf_id (repo : Bytes) : builderOf (n.id repo) = none := by
  have hsuffix : sourceSuffix.isSuffixOf (n.id repo).toList = false := by
    rw [← Bool.not_eq_true, isSuffixOf_iff_suffix]
    exact n.not_sourceSuffix repo
  unfold builderOf
  rw [hsuffix, Bool.and_false]
  rfl

theorem id_ne_sourceID (repo repo' : Bytes) : n.id repo ≠ n.sourceID repo' := by
  intro heq
  have hnone := n.builderOf_id repo
  rw [heq, builderOf_sourceID] at hnone
  cases hnone

theorem sum_eq_of_id {repo' : Bytes} (h : n.id repo = n.id repo') :
    n.sum repo = n.sum repo' := by
  have hlist := congrArg String.toList h
  rw [id_toList, id_toList] at hlist
  have hlen : (n.sum repo).length = (n.sum repo').length := by
    rw [sum_length, sum_length]
  exact (append_inj' hlist hlen).2

/-- **The IDs of builders and of sources are valid and told apart**, whatever bytes a repository is
called: a source's ID leads to its builder's, a builder's to none, no builder's ID is a source's,
and names whose hashes start differently have different builders. -/
theorem ids_apart :
    (∀ repo, checkEnvID (n.id repo) = true ∧ checkEnvID (n.sourceID repo) = true ∧
      builderOf (n.sourceID repo) = some (n.id repo) ∧ builderOf (n.id repo) = none) ∧
    (∀ repo repo', n.id repo ≠ n.sourceID repo') ∧
    ∀ repo repo', n.sum repo ≠ n.sum repo' → n.id repo ≠ n.id repo' := by
  refine ⟨?_, n.id_ne_sourceID, ?_⟩
  · intro repo
    exact ⟨n.checkEnvID_id repo, n.checkEnvID_sourceID repo, n.builderOf_sourceID repo,
      n.builderOf_id repo⟩
  · intro repo repo' hsum heq
    exact hsum (n.sum_eq_of_id heq)

end Naming

/-- A hash that is the name's first byte, for the example below. -/
def firstByte : Naming := ⟨Char.toLower, fun b => Vector.replicate 32 (b.headD 0)⟩

/-- `My_App` and a name that isn't UTF-8 have different builders. -/
theorem ids_apart_firstByte :
    firstByte.sum (lit "My_App") ≠ firstByte.sum [0xFF, 0xFE] ∧
      firstByte.id (lit "My_App") = "golden-my-app-4d4d4d4d" ∧
      firstByte.id (lit "My_App") ≠ firstByte.id [0xFF, 0xFE] := by
  have hsum : firstByte.sum (lit "My_App") ≠ firstByte.sum [0xFF, 0xFE] := by decide
  exact ⟨hsum, by decide, (Naming.ids_apart firstByte).2.2 _ _ hsum⟩

end Fern
