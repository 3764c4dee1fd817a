/-
Forks are numbered, bounded and removed with their source.

A fork's ID determines its source and number: behind the last infix there are only digits.  While a
`Fork` is at work, the source's forks are among those it listed and those it made, as nobody else
makes one; so the numbers it comes to are free, and with those it listed they are at most
`MaxForks`. While a `Delete` is at work, the forks there are are among those it has still to delete.
A fork goes only by its own `Delete`, when it has no forks, so the source of a fork of a fork is
always there.
-/
import Mathlib.Data.List.Nodup
import Mathlib.Data.List.Perm.Subperm
import Fern.Actor.Fork
import Fern.Lib.Run

namespace Fern

open List

variable {id p e : EnvID} {n : Nat} {envs : List EnvID} {before : List EnvID}
  {gone nested ok : Bool}

/-! ### IDs -/

theorem toList_forkID (id : EnvID) (n : Nat) :
    (forkID id n).toList = id.toList ++ forkInfix ++ Nat.toDigits 10 n := String.toList_ofList

/-- **A fork's ID gives its source and number back**, whatever the source's ID contains. -/
theorem forkOf_forkID (hid : id ≠ "") (hn : 1 ≤ n) (hint : n < 9223372036854775808) :
    forkOf (forkID id n) = some (id, n) := by
  have hdash : '-' ∉ (Nat.toDigits 10 n).reverse := by
    intro hmem
    have hdigit := Nat.isDigit_of_mem_toDigits (by decide) (by decide) (mem_reverse.1 hmem)
    exact absurd hdigit (by decide)
  have hcut : cutText forkInfix.reverse (forkID id n).toList.reverse =
      some ((Nat.toDigits 10 n).reverse, id.toList.reverse) := by
    rw [toList_forkID, reverse_append, reverse_append]
    exact cutText_append hdash
  have hparent : id.toList.reverse ≠ [] := by
    intro hnil
    exact hid (String.toList_eq_nil_iff.1 (reverse_eq_nil_iff.1 hnil))
  have hdigits : Nat.ofDigitChars 10 (Nat.toDigits 10 n) 0 = n :=
    Nat.ofDigitChars_toDigits (by decide) (by decide)
  simp only [forkOf, hcut, reverse_reverse, hdigits]
  rw [if_pos ⟨hparent, hn, hint, trivial⟩, String.ofList_toList]

theorem forkOf_eq_some (h : forkOf e = some (p, n)) :
    forkID p n = e ∧ p ≠ "" ∧ 1 ≤ n ∧ n < 9223372036854775808 := by
  cases hcut : cutText forkInfix.reverse e.toList.reverse with
  | none => simp [forkOf, hcut] at h
  | some pieces =>
    obtain ⟨number, parent⟩ := pieces
    simp only [forkOf, hcut, Option.ite_none_right_eq_some, Option.some.injEq, Prod.mk.injEq] at h
    obtain ⟨⟨hparent, hn, hint, hdigits⟩, rfl, rfl⟩ := h
    refine ⟨?_, ?_, hn, hint⟩
    · have hrev := congrArg List.reverse (cutText_eq_some hcut)
      rw [reverse_reverse, reverse_append, reverse_append,
        reverse_reverse] at hrev
      rw [forkID, hdigits, String.toList_ofList, append_assoc, ← hrev, String.ofList_toList]
    · intro hnil
      have hlist := congrArg String.toList hnil
      rw [String.toList_ofList] at hlist
      exact hparent (reverse_eq_nil_iff.1 hlist)

theorem mem_forksOf : n ∈ forksOf envs id ↔ ∃ e ∈ envs, forkOf e = some (id, n) := by
  simp only [forksOf, mem_filterMap, Option.bind_eq_some_iff, Option.ite_none_right_eq_some,
    Option.some.injEq]
  constructor
  · rintro ⟨e, he, ⟨p, m⟩, hfork, rfl, rfl⟩
    exact ⟨e, he, hfork⟩
  · rintro ⟨e, he, hfork⟩
    exact ⟨e, he, (id, n), hfork, rfl, rfl⟩

theorem mem_of_forksOf (h : n ∈ forksOf envs id) : forkID id n ∈ envs := by
  obtain ⟨e, he, hfork⟩ := mem_forksOf.1 h
  rw [(forkOf_eq_some hfork).1]
  exact he

theorem nodup_forksOf (h : envs.Nodup) (id : EnvID) : (forksOf envs id).Nodup := by
  refine List.Nodup.filterMap ?_ h
  intro e e' m hm hm'
  simp only [Option.mem_def, Option.bind_eq_some_iff, Option.ite_none_right_eq_some,
    Option.some.injEq] at hm hm'
  obtain ⟨⟨p, m⟩, hfork, rfl, rfl⟩ := hm
  obtain ⟨⟨p', m'⟩, hfork', rfl, rfl⟩ := hm'
  rw [← (forkOf_eq_some hfork).1, ← (forkOf_eq_some hfork').1]

theorem ownFork_eq_ok {quote : String → String} :
    ownFork quote id e = .ok () ↔ ∃ n, forkOf e = some (id, n) := by
  cases hfork : forkOf e with
  | none => simp [ownFork, hfork]
  | some parent => simp [ownFork, hfork, Prod.ext_iff]

namespace Forks

variable {s t : Forks} {seen made : List Nat} {next count : Nat}

/-! ### Numbers -/

/-- `made` are all the numbers below `next` that aren't in `seen`. -/
structure Lowest (seen : List Nat) (next : Nat) (made : List Nat) : Prop where
  pos : 1 ≤ next
  free : ∀ n ∈ made, 1 ≤ n ∧ n < next ∧ n ∉ seen
  sorted : made.Pairwise (· < ·)
  all : ∀ n, 1 ≤ n → n < next → n ∈ seen ∨ n ∈ made

theorem Lowest.start (seen : List Nat) : Lowest seen 1 [] where
  pos := Nat.le_refl 1
  free := by simp
  sorted := List.Pairwise.nil
  all := by
    intro n h1 h2
    omega

theorem Lowest.skip (h : Lowest seen next made) (hseen : next ∈ seen) :
    Lowest seen (next + 1) made where
  pos := Nat.le_add_left 1 next
  free := by
    intro n hn
    obtain ⟨hpos, hlt, hfree⟩ := h.free n hn
    exact ⟨hpos, by omega, hfree⟩
  sorted := h.sorted
  all := by
    intro n h1 h2
    by_cases hn : n = next
    · exact .inl (hn ▸ hseen)
    · exact h.all n h1 (by omega)

theorem Lowest.make (h : Lowest seen next made) (hfree : next ∉ seen) :
    Lowest seen (next + 1) (made ++ [next]) where
  pos := Nat.le_add_left 1 next
  free := by
    intro n hn
    rcases mem_append.1 hn with hn | hn
    · obtain ⟨hpos, hlt, hfree⟩ := h.free n hn
      exact ⟨hpos, by omega, hfree⟩
    · obtain rfl := mem_singleton.1 hn
      exact ⟨h.pos, by omega, hfree⟩
  sorted := by
    rw [pairwise_append]
    refine ⟨h.sorted, pairwise_singleton _ _, ?_⟩
    intro n hn m hm
    obtain rfl := mem_singleton.1 hm
    exact (h.free n hn).2.1
  all := by
    intro n h1 h2
    by_cases hn : n = next
    · exact .inr (by simp [hn])
    · rcases h.all n h1 (by omega) with hseen | hmade
      · exact .inl hseen
      · exact .inr (mem_append_left _ hmade)

theorem Lowest.next_le (h : Lowest seen next made) : next ≤ seen.length + made.length + 1 := by
  have hsub : List.range' 1 (next - 1) ⊆ seen ++ made := by
    intro n hn
    rw [mem_range'_1] at hn
    have hpos := h.pos
    rcases h.all n hn.1 (by omega) with hseen | hmade
    · exact mem_append_left _ hseen
    · exact mem_append_right _ hmade
  have hnodup : (List.range' 1 (next - 1)).Nodup := nodup_range'
  have hle := (hnodup.subperm hsub).length_le
  rw [length_range', length_append] at hle
  omega

theorem length_forksOf_le (henvs : envs.Nodup) {numbers : List Nat}
    (hsub : ∀ n ∈ forksOf envs id, n ∈ numbers) : (forksOf envs id).length ≤ numbers.length :=
  ((nodup_forksOf henvs id).subperm hsub).length_le

/-! ### What holds in every state

The tasks of the actors carry it: what a `Fork` listed and made, and what a `Delete` has still to
delete, cover all the forks there are of its environment. -/

/-- What holds of an actor's task. -/
def TaskOK (envs : List EnvID) (id : EnvID) : Task → Prop
  | .fork count before next made =>
    id ≠ "" ∧ (forkOf id ≠ none → id ∈ envs) ∧ Lowest (forksOf before id) next made ∧
      (forksOf before id).length + count ≤ maxForks ∧ made.length ≤ count ∧
      ∀ n ∈ forksOf envs id, n ∈ forksOf before id ∨ n ∈ made
  | .delete todo going _ => going ≠ .failed → ∀ n ∈ forksOf envs id, n ∈ todo

/-- What a `Fork` is to return: as many forks as asked for, that weren't environments when it ran,
with the lowest numbers free then, and all at most `MaxForks`. -/
structure Returned.Good (r : Returned) : Prop where
  numbers : ∃ made : List Nat, r.ids = made.map (forkID r.id) ∧ made.length = r.count ∧
    made.Nodup ∧ (∀ n ∈ made, 1 ≤ n ∧ n ≤ maxForks ∧
      ∀ m, 1 ≤ m → m < n → m ∈ made ∨ forkID r.id m ∈ r.before)
  length : r.ids.length = r.count
  fresh : ∀ e ∈ r.ids, e ∉ r.before

/-- What holds in every state. -/
structure Inv (s : Forks) : Prop where
  nodup : s.envs.Nodup
  /-- The source of a fork of a fork is there. -/
  sources : ∀ e ∈ s.envs, ∀ p n, forkOf e = some (p, n) → forkOf p ≠ none → p ∈ s.envs
  tasks : ∀ id task, s.task id = some task → TaskOK s.envs id task
  bounded : ∀ id, (forksOf s.envs id).length ≤ maxForks
  returned : ∀ r ∈ s.returned, r.Good

theorem task_setTask (s : Forks) (id j : EnvID) (task : Option Task) :
    (s.setTask id task).task j = if j = id then task else s.task j := Function.update_apply ..

theorem Inv.setTask (h : s.Inv) {task : Option Task}
    (htask : ∀ t, task = some t → TaskOK s.envs id t) : (s.setTask id task).Inv where
  nodup := h.nodup
  sources := h.sources
  tasks := by
    intro j t ht
    rw [task_setTask] at ht
    by_cases hj : j = id
    · rw [if_pos hj] at ht
      exact hj ▸ htask t ht
    · rw [if_neg hj] at ht
      exact h.tasks j t ht
  bounded := h.bounded
  returned := h.returned

theorem mem_addEnv : e ∈ (s.addEnv p).envs ↔ e = p ∨ e ∈ s.envs := by
  unfold addEnv
  by_cases hp : p ∈ s.envs
  · simp only [if_pos hp]
    constructor
    · exact .inr
    · rintro (rfl | he)
      · exact hp
      · exact he
  · simp [hp]

theorem nodup_addEnv (h : s.envs.Nodup) (p : EnvID) : (s.addEnv p).envs.Nodup := by
  unfold addEnv
  by_cases hp : p ∈ s.envs
  · simpa only [if_pos hp] using h
  · simpa only [if_neg hp] using nodup_cons.2 ⟨hp, h⟩

theorem mem_removeEnv : e ∈ (s.removeEnv p).envs ↔ e ∈ s.envs ∧ e ≠ p := by
  simp [removeEnv]

theorem mem_forksOf_addEnv : n ∈ forksOf (s.addEnv e).envs id ↔
    n ∈ forksOf s.envs id ∨ forkOf e = some (id, n) := by
  simp only [mem_forksOf, mem_addEnv]
  constructor
  · rintro ⟨e', rfl | he', hfork⟩
    · exact .inr hfork
    · exact .inl ⟨e', he', hfork⟩
  · rintro (⟨e', he', hfork⟩ | hfork)
    · exact ⟨e', .inr he', hfork⟩
    · exact ⟨e, .inl rfl, hfork⟩

theorem forksOf_removeEnv_sub : n ∈ forksOf (s.removeEnv e).envs id → n ∈ forksOf s.envs id := by
  simp only [mem_forksOf, mem_removeEnv]
  rintro ⟨e', ⟨he', -⟩, hfork⟩
  exact ⟨e', he', hfork⟩

/-- Other environments that add no forks, and from which no fork is gone that is at a `Fork`. -/
theorem Inv.withEnvs (h : s.Inv) (hnodup : envs.Nodup)
    (hsub : ∀ id n, n ∈ forksOf envs id → n ∈ forksOf s.envs id)
    (hsources : ∀ e ∈ envs, ∀ p n, forkOf e = some (p, n) → forkOf p ≠ none → p ∈ envs)
    (hthere : ∀ id count before next made, s.task id = some (.fork count before next made) →
      forkOf id ≠ none → id ∈ envs) : Inv { s with envs } where
  nodup := hnodup
  sources := hsources
  tasks := by
    intro id task htask
    have hok := h.tasks id task htask
    cases task with
    | fork count before next made =>
      obtain ⟨hid, -, hlow, hfits, hle, hforks⟩ := hok
      refine ⟨hid, hthere id count before next made htask, hlow, hfits, hle, ?_⟩
      intro n hn
      exact hforks n (hsub id n hn)
    | delete todo going nested =>
      intro hgoing n hn
      exact hok hgoing n (hsub id n hn)
  bounded := by
    intro id
    exact Nat.le_trans (length_forksOf_le hnodup (hsub id)) (h.bounded id)
  returned := h.returned

theorem Inv.create (h : s.Inv) (hroot : forkOf e = none) : (s.addEnv e).Inv := by
  refine h.withEnvs (nodup_addEnv h.nodup e) ?_ ?_ ?_
  · intro id n hn
    rcases mem_forksOf_addEnv.1 hn with hn | hfork
    · exact hn
    · rw [hroot] at hfork
      cases hfork
  · intro e' he' p n hfork hp
    rcases mem_addEnv.1 he' with rfl | he'
    · rw [hroot] at hfork
      cases hfork
    · exact mem_addEnv.2 (.inr (h.sources e' he' p n hfork hp))
  · intro id count before next made htask hid
    exact mem_addEnv.2 (.inr ((h.tasks id _ htask).2.1 hid))

/-- An environment that is no fork's source, or no fork itself, and not at a `Fork`, may go. -/
theorem Inv.remove (h : s.Inv) (hnone : forkOf e = none ∨ ∀ n, n ∉ forksOf s.envs e)
    (htask : forkOf e = none ∨ ∀ count before next made,
      s.task e ≠ some (.fork count before next made)) : (s.removeEnv e).Inv := by
  refine h.withEnvs (h.nodup.filter _) (fun _ _ => forksOf_removeEnv_sub) ?_ ?_
  · intro e' he' p n hfork hp
    have hthere : e' ∈ s.envs := (mem_removeEnv.1 he').1
    refine mem_removeEnv.2 ⟨h.sources e' hthere p n hfork hp, ?_⟩
    rintro rfl
    rcases hnone with hroot | hnone
    · exact hp hroot
    · exact hnone n (mem_forksOf.2 ⟨e', hthere, hfork⟩)
  · intro id count before next made hfork hid
    refine mem_removeEnv.2 ⟨(h.tasks id _ hfork).2.1 hid, ?_⟩
    rintro rfl
    rcases htask with hroot | htask
    · exact hid hroot
    · exact htask count before next made hfork

theorem Lowest.forkOf_next (hid : id ≠ "") (h : Lowest (forksOf before id) next made)
    (hfits : (forksOf before id).length + count ≤ maxForks) (hle : made.length ≤ count) :
    forkOf (forkID id next) = some (id, next) := by
  have hnext := h.next_le
  have hmax : maxForks = 8 := rfl
  exact forkOf_forkID hid h.pos (by omega)

theorem Inv.make (h : s.Inv) {task : Option Task}
    (hat : s.task id = some (.fork count before next made)) (hcount : made.length < count)
    (htask : ∀ t, task = some t → TaskOK (s.addEnv (forkID id next)).envs id t) :
    ((s.addEnv (forkID id next)).setTask id task).Inv := by
  obtain ⟨hid, hthere, hlow, hfits, hle, hforks⟩ := h.tasks id _ hat
  have hfork := hlow.forkOf_next hid hfits hle
  have hnodup := nodup_addEnv h.nodup (forkID id next)
  have hmem (j : EnvID) (n : Nat) : n ∈ forksOf (s.addEnv (forkID id next)).envs j ↔
      n ∈ forksOf s.envs j ∨ j = id ∧ n = next := by
    rw [mem_forksOf_addEnv, hfork]
    simp [eq_comm]
  refine ⟨hnodup, ?_, ?_, ?_, h.returned⟩
  · intro e he p n hp hsource
    rcases mem_addEnv.1 he with rfl | he
    · rw [hfork] at hp
      obtain ⟨rfl, rfl⟩ := Prod.mk.inj (Option.some.inj hp)
      exact mem_addEnv.2 (.inr (hthere hsource))
    · exact mem_addEnv.2 (.inr (h.sources e he p n hp hsource))
  · intro j t ht
    rw [task_setTask] at ht
    by_cases hj : j = id
    · rw [if_pos hj] at ht
      exact hj ▸ htask t ht
    · rw [if_neg hj] at ht
      have hok := h.tasks j t ht
      have hsame (n : Nat) (hn : n ∈ forksOf (s.addEnv (forkID id next)).envs j) :
          n ∈ forksOf s.envs j := by
        rcases (hmem j n).1 hn with hn | ⟨rfl, -⟩
        · exact hn
        · exact absurd rfl hj
      cases t with
      | fork count' before' next' made' =>
        obtain ⟨hid', hthere', hlow', hfits', hle', hforks'⟩ := hok
        refine ⟨hid', fun hne => mem_addEnv.2 (.inr (hthere' hne)), hlow', hfits', hle', ?_⟩
        exact fun n hn => hforks' n (hsame n hn)
      | delete todo going nested => exact fun hgoing n hn => hok hgoing n (hsame n hn)
  · intro j
    by_cases hj : j = id
    · -- those it listed, those it made, and this one
      subst hj
      have hsub : ∀ n ∈ forksOf (s.addEnv (forkID j next)).envs j,
          n ∈ forksOf before j ++ (made ++ [next]) := by
        intro n hn
        rcases (hmem j n).1 hn with hn | ⟨-, rfl⟩
        · rcases hforks n hn with hseen | hmade
          · exact mem_append_left _ hseen
          · exact mem_append_right _ (mem_append_left _ hmade)
        · exact mem_append_right _ (mem_append_right _ (mem_singleton.2 rfl))
      have hlen := length_forksOf_le hnodup hsub
      simp only [length_append, length_cons, length_nil] at hlen
      show (forksOf (s.addEnv (forkID j next)).envs j).length ≤ maxForks
      omega
    · refine Nat.le_trans (length_forksOf_le hnodup ?_) (h.bounded j)
      intro n hn
      rcases (hmem j n).1 hn with hn | ⟨rfl, -⟩
      · exact hn
      · exact absurd rfl hj

theorem awaited_eq_some {source : EnvID} {todo : List Nat}
    (h : s.awaited id = some (source, todo, nested)) : ∃ n, forkOf id = some (source, n) ∧
      s.task source = some (.delete (n :: todo) .waiting nested) := by
  cases hfork : forkOf id with
  | none => simp [awaited, hfork] at h
  | some parent =>
    obtain ⟨p, n⟩ := parent
    simp only [awaited, hfork] at h
    split at h
    case h_1 m todo' nested' htask =>
      rw [Option.ite_none_right_eq_some, Option.some.injEq] at h
      obtain ⟨rfl, heq⟩ := h
      cases heq
      exact ⟨m, rfl, htask⟩
    case h_2 => cases h

theorem Inv.answer (h : s.Inv) (hgone : ok = true → id ∉ s.envs) :
    (s.answer id ok).Inv := by
  cases ha : s.awaited id with
  | none => simpa only [Forks.answer, ha] using h
  | some waiting =>
    obtain ⟨source, todo, nested⟩ := waiting
    obtain ⟨n, hfork, htask⟩ := awaited_eq_some ha
    simp only [Forks.answer, ha]
    refine h.setTask ?_
    rintro _ ⟨⟩
    intro hgoing m hm
    have hok : ok = true := by
      cases ok with
      | true => rfl
      | false => exact absurd rfl hgoing
    rcases mem_cons.1 (h.tasks source _ htask (by simp) m hm) with rfl | hm'
    · have hmem := mem_of_forksOf hm
      rw [(forkOf_eq_some hfork).1] at hmem
      exact absurd hmem (hgone hok)
    · exact hm'

theorem ready_eq_true : s.ready id = true ↔
    checkEnvID id = true ∧ s.task id = none ∧ id ∈ s.envs := by
  simp [ready, and_assoc]

theorem ne_empty_of_checkEnvID (h : checkEnvID id = true) : id ≠ "" := by
  rintro rfl
  cases h

theorem Inv.fork (h : s.Inv) (hready : s.ready id = true)
    (hfits : (forksOf s.envs id).length + count ≤ maxForks) :
    (s.setTask id (some (.fork count s.envs 1 []))).Inv := by
  obtain ⟨hcheck, -, hmem⟩ := ready_eq_true.1 hready
  refine h.setTask ?_
  rintro _ ⟨⟩
  exact ⟨ne_empty_of_checkEnvID hcheck, fun _ => hmem, .start _, hfits, Nat.zero_le _,
    fun n hn => .inl hn⟩

theorem Inv.delete (h : s.Inv) (nested : Bool) :
    (s.setTask id (some (.delete (forksOf s.envs id) .onItsOwn nested))).Inv := by
  refine h.setTask ?_
  rintro _ ⟨⟩
  exact fun _ n hn => hn

theorem Inv.forked (h : s.Inv) (hat : s.task id = some (.fork count before next made))
    (hall : ¬ made.length < count) :
    Inv { s.setTask id none with
      returned := ⟨id, count, before, made.map (forkID id)⟩ :: s.returned } := by
  obtain ⟨hid, -, hlow, hfits, hle, -⟩ := h.tasks id _ hat
  have hnone : (s.setTask id none).Inv := h.setTask (by simp)
  refine ⟨hnone.nodup, hnone.sources, hnone.tasks, hnone.bounded, ?_⟩
  intro r hr
  rcases mem_cons.1 hr with rfl | hr
  · have hlen : made.length = count := by omega
    have hnext := hlow.next_le
    have hmax : maxForks = 8 := rfl
    refine ⟨⟨made, rfl, hlen, hlow.sorted.imp Nat.ne_of_lt, ?_⟩, ?_, ?_⟩
    · intro n hn
      obtain ⟨hpos, hlt, -⟩ := hlow.free n hn
      refine ⟨hpos, by omega, ?_⟩
      intro m hm hmn
      rcases hlow.all m hm (by omega) with hseen | hmade
      · exact .inr (mem_of_forksOf hseen)
      · exact .inl hmade
    · rw [length_map]
      exact hlen
    · intro e he hbefore
      obtain ⟨n, hn, rfl⟩ := mem_map.1 he
      obtain ⟨hpos, hlt, hfree⟩ := hlow.free n hn
      exact hfree (mem_forksOf.2 ⟨_, hbefore, forkOf_forkID hid hpos (by omega)⟩)
  · exact h.returned r hr

theorem Inv.no_forks (h : s.Inv) (hat : s.task id = some (.delete [] .onItsOwn nested)) (n : Nat) :
    n ∉ forksOf s.envs id := by
  intro hn
  cases h.tasks id _ hat (by simp) n hn

theorem Inv.removed (h : s.Inv) (hat : s.task id = some (.delete [] .onItsOwn nested))
    (gone : Bool) :
    (if gone then s.removeEnv id else s).Inv := by
  cases gone with
  | false => exact h
  | true => exact h.remove (.inr (h.no_forks hat)) (.inr (by simp [hat]))

theorem step_deleted (h : s.step (.deleted id ok gone) = some t) :
    (∃ nested, s.task id = some (.delete [] .onItsOwn nested) ∧
      ∃ r, r = (if ok || gone then s.removeEnv id else s).setTask id none ∧
        t = if nested then r.answer id ok else r) ∨
    ok = false ∧ ∃ todo nested, s.task id = some (.delete todo .failed nested) ∧
      t = if nested then (s.setTask id none).answer id false else s.setTask id none := by
  rcases hat : s.task id with _ | _ | ⟨_ | ⟨n, todo⟩, _ | _ | _, nested⟩ <;>
    simp only [Forks.step, hat] at h
  case some.delete.nil.onItsOwn =>
    cases h
    exact .inl ⟨nested, rfl, _, rfl, rfl⟩
  case some.delete.nil.failed =>
    cases ok with
    | true => cases h
    | false =>
      cases gone with
      | true => cases h
      | false =>
        cases h
        exact .inr ⟨rfl, [], nested, rfl, rfl⟩
  case some.delete.cons.failed =>
    cases ok with
    | true => cases h
    | false =>
      cases gone with
      | true => cases h
      | false =>
        cases h
        exact .inr ⟨rfl, n :: todo, nested, rfl, rfl⟩
  all_goals cases h

theorem not_mem_of_deleted (hok : ok = true) :
    id ∉ ((if ok || gone then s.removeEnv id else s).setTask id none).envs := by
  subst hok
  intro hmem
  exact (mem_removeEnv.1 hmem).2 rfl

theorem Inv.deleted (h : s.Inv) (hstep : s.step (.deleted id ok gone) = some t) :
    t.Inv := by
  rcases step_deleted hstep with ⟨nested, hat, r, rfl, rfl⟩ | ⟨-, todo, nested, hat, rfl⟩
  · have hr : ((if ok || gone then s.removeEnv id else s).setTask id none).Inv :=
      (h.removed hat _).setTask (by simp)
    cases nested with
    | true => exact hr.answer fun hok => not_mem_of_deleted hok
    | false => exact hr
  · have hr : (s.setTask id none).Inv := h.setTask (by simp)
    cases nested with
    | true => exact hr.answer (by simp)
    | false => exact hr

theorem Inv.step (h : s.Inv) {e : Event} (hstep : s.step e = some t) : t.Inv := by
  cases e with
  | create id =>
    simp only [Forks.step, Option.ite_none_right_eq_some, Option.some.injEq] at hstep
    obtain ⟨hroot, rfl⟩ := hstep
    exact h.create hroot
  | drop id =>
    simp only [Forks.step, Option.ite_none_right_eq_some, Option.some.injEq] at hstep
    obtain ⟨hroot, rfl⟩ := hstep
    exact h.remove (.inl hroot) (.inl hroot)
  | fork id count =>
    simp only [Forks.step, Option.ite_none_right_eq_some, Option.some.injEq] at hstep
    obtain ⟨⟨hready, -, -, hfits⟩, rfl⟩ := hstep
    exact h.fork hready hfits
  | skip id =>
    rcases hat : s.task id with _ | ⟨count, before, next, made⟩ | _ <;>
      simp only [Forks.step, hat] at hstep
    case some.fork =>
      simp only [Option.ite_none_right_eq_some, Option.some.injEq] at hstep
      obtain ⟨⟨hcount, hseen⟩, rfl⟩ := hstep
      obtain ⟨hid, hthere, hlow, hfits, hle, hforks⟩ := h.tasks id _ hat
      refine h.setTask ?_
      rintro _ ⟨⟩
      exact ⟨hid, hthere, hlow.skip hseen, hfits, hle, hforks⟩
    all_goals cases hstep
  | make id ok left =>
    rcases hat : s.task id with _ | ⟨count, before, next, made⟩ | _ <;>
      simp only [Forks.step, hat] at hstep
    case some.fork =>
      rw [Option.ite_none_right_eq_some] at hstep
      obtain ⟨⟨hcount, hfree, -⟩, hstep⟩ := hstep
      obtain ⟨hid, hthere, hlow, hfits, hle, hforks⟩ := h.tasks id _ hat
      cases ok with
      | true =>
        cases hstep
        refine h.make hat hcount ?_
        rintro _ ⟨⟩
        refine ⟨hid, fun hne => mem_addEnv.2 (.inr (hthere hne)), hlow.make hfree, hfits, ?_, ?_⟩
        · rw [length_append, length_singleton]
          omega
        · intro n hn
          rcases mem_forksOf_addEnv.1 hn with hn | hn
          · rcases hforks n hn with hseen | hmade
            · exact .inl hseen
            · exact .inr (mem_append_left _ hmade)
          · rw [hlow.forkOf_next hid hfits hle] at hn
            obtain ⟨-, rfl⟩ := Prod.mk.inj (Option.some.inj hn)
            exact .inr (by simp)
      | false =>
        cases hstep
        cases left with
        | true => exact h.make hat hcount (by simp)
        | false => exact h.setTask (by simp)
    all_goals cases hstep
  | forked id =>
    rcases hat : s.task id with _ | ⟨count, before, next, made⟩ | _ <;>
      simp only [Forks.step, hat] at hstep
    case some.fork =>
      by_cases hall : made.length < count
      · rw [if_pos hall] at hstep
        cases hstep
      · rw [if_neg hall] at hstep
        cases hstep
        exact h.forked hat hall
    all_goals cases hstep
  | delete id =>
    simp only [Forks.step, Option.ite_none_right_eq_some, Option.some.injEq] at hstep
    obtain ⟨-, rfl⟩ := hstep
    exact h.delete false
  | ask id =>
    rcases hat : s.task id with _ | _ | ⟨_ | ⟨n, todo⟩, _ | _ | _, nested⟩ <;>
      simp only [Forks.step, hat] at hstep
    case some.delete.cons.onItsOwn =>
      cases hstep
      refine h.setTask ?_
      rintro _ ⟨⟩
      exact fun _ => h.tasks id _ hat (by simp)
    all_goals cases hstep
  | deleteFork id =>
    simp only [Forks.step, Option.ite_none_right_eq_some] at hstep
    obtain ⟨-, hstep⟩ := hstep
    by_cases hmem : id ∈ s.envs
    · rw [if_pos hmem] at hstep
      cases hstep
      exact h.delete true
    · rw [if_neg hmem] at hstep
      cases hstep
      exact h.answer fun _ => hmem
  | giveUp id =>
    rcases hat : s.task id with _ | _ | ⟨_ | ⟨n, todo⟩, _ | _ | _, nested⟩ <;>
      simp only [Forks.step, hat] at hstep
    case some.delete.cons.waiting =>
      have ht : t = s.setTask id (some (.delete (n :: todo) .failed nested)) := by
        split at hstep
        · cases hstep
        · exact (Option.some.inj hstep).symm
      subst ht
      refine h.setTask ?_
      rintro _ ⟨⟩
      exact fun hgoing => absurd rfl hgoing
    all_goals cases hstep
  | deleted id ok gone => exact h.deleted hstep
  | restart =>
    cases hstep
    exact ⟨h.nodup, h.sources, by simp, h.bounded, h.returned⟩

theorem Reach.inv (h : Reach s) : s.Inv := by
  induction h with
  | start => exact ⟨nodup_nil, by simp, by simp, fun _ => Nat.zero_le _, by simp⟩
  | step e _ hstep ih => exact ih.step hstep

/-! ### Forks at any depth -/

/-- `e` is a fork of `id`, or of a fork of it, at any depth. -/
inductive Below (id : EnvID) : EnvID → Prop where
  | fork {e : EnvID} {n : Nat} : forkOf e = some (id, n) → Below id e
  | deeper {e p : EnvID} {n : Nat} : forkOf e = some (p, n) → Below id p → Below id e

theorem Inv.not_below (h : s.Inv) (hnone : ∀ n, n ∉ forksOf s.envs id) (hbelow : Below id e) :
    e ∉ s.envs := by
  induction hbelow with
  | @fork e n hfork =>
    intro he
    exact hnone n (mem_forksOf.2 ⟨e, he, hfork⟩)
  | @deeper e p n hfork hp ih =>
    intro he
    refine ih (h.sources e he p n hfork ?_)
    cases hp with
    | fork hfork' => simp [hfork']
    | deeper hfork' => simp [hfork']

theorem envs_answer (s : Forks) (id : EnvID) (ok : Bool) : (s.answer id ok).envs = s.envs := by
  unfold Forks.answer
  split <;> rfl

/-- After a `Delete` that succeeds, none of the environment's forks is there, at any depth. -/
theorem Inv.delete_all (h : s.Inv) (hstep : s.step (.deleted id true gone) = some t)
    (hbelow : Below id e) : e ∉ t.envs := by
  rcases step_deleted hstep with ⟨nested, hat, r, rfl, rfl⟩ | ⟨hfalse, -⟩
  · have hgone := h.not_below (h.no_forks hat) hbelow
    have henvs : (if nested = true then
        ((s.removeEnv id).setTask id none).answer id true
          else (s.removeEnv id).setTask id none).envs =
          (s.removeEnv id).envs := by
      cases nested with
      | true => exact envs_answer _ id true
      | false => rfl
    intro he
    have he : e ∈ (s.removeEnv id).envs := henvs ▸ he
    exact hgone (mem_removeEnv.1 he).1
  · cases hfalse

/-- **Forks are numbered, bounded and removed with their source.** -/
theorem forks_numbered_bounded_removed :
    (∀ id n, id ≠ "" → 1 ≤ n → n < 9223372036854775808 → forkOf (forkID id n) = some (id, n)) ∧
    (∀ e id n, forkOf e = some (id, n) → forkID id n = e ∧ id ≠ "" ∧ 1 ≤ n) ∧
    (∀ quote id e, ownFork quote id e = .ok () ↔ ∃ n, 1 ≤ n ∧ forkOf e = some (id, n)) ∧
    ∀ s, Reach s →
      (∀ r ∈ s.returned, r.Good) ∧ (∀ id, (forksOf s.envs id).length ≤ maxForks) ∧
      ∀ id gone t, s.step (.deleted id true gone) = some t → ∀ e, Below id e → e ∉ t.envs := by
  refine ⟨fun id n => forkOf_forkID, ?_, ?_, ?_⟩
  · intro e id n h
    obtain ⟨heq, hid, hn, -⟩ := forkOf_eq_some h
    exact ⟨heq, hid, hn⟩
  · intro quote id e
    rw [ownFork_eq_ok]
    constructor
    · rintro ⟨n, h⟩
      exact ⟨n, (forkOf_eq_some h).2.2.1, h⟩
    · rintro ⟨n, -, h⟩
      exact ⟨n, h⟩
  · intro s h
    exact ⟨h.inv.returned, h.inv.bounded, fun id gone t hstep e hbelow =>
      h.inv.delete_all hstep hbelow⟩

/-- An environment is forked twice, and deleted up to the removal of its own disk. -/
def forkedAndDeleted : List Event :=
  [.create "demo", .fork "demo" 2, .make "demo" true false, .make "demo" true false, .forked "demo",
    .delete "demo", .ask "demo", .deleteFork "demo-fork-2", .deleted "demo-fork-2" true false,
    .ask "demo", .deleteFork "demo-fork-1", .deleted "demo-fork-1" true false]

theorem forks_numbered_bounded_removed_demo :
    forkOf (forkID "demo-fork-1" 2) = some ("demo-fork-1", 2) ∧
    ∃ s t : Forks, forkedAndDeleted.foldlM Forks.step {} = some s ∧
      s.returned = [⟨"demo", 2, ["demo"], ["demo-fork-1", "demo-fork-2"]⟩] ∧
      (∀ r ∈ s.returned, r.Good) ∧ s.step (.deleted "demo" true false) = some t ∧
      "demo-fork-1" ∉ t.envs := by
  have hall := forks_numbered_bounded_removed
  refine ⟨hall.1 _ _ (by decide) (by decide) (by decide), ?_⟩
  obtain ⟨s, hs⟩ : ∃ s, forkedAndDeleted.foldlM Forks.step {} = some s :=
    Option.isSome_iff_exists.1 (by decide +kernel)
  have hreturned : (forkedAndDeleted.foldlM Forks.step {}).map Forks.returned =
      some [⟨"demo", 2, ["demo"], ["demo-fork-1", "demo-fork-2"]⟩] := by decide +kernel
  have hlast : ((forkedAndDeleted.foldlM Forks.step {}).bind
      (Forks.step · (.deleted "demo" true false))).isSome = true := by decide +kernel
  rw [hs] at hreturned hlast
  obtain ⟨t, ht⟩ := Option.isSome_iff_exists.1 hlast
  have hreach : Reach s := foldlM_keeps (fun _ _ e _ h => h.step e) hs .start
  obtain ⟨hgood, -, hgone⟩ := hall.2.2.2 s hreach
  refine ⟨s, t, hs, Option.some.inj hreturned, hgood, ht, ?_⟩
  exact hgone "demo" false t ht "demo-fork-1" (.fork (by decide : _ = some ("demo", 1)))

end Forks

end Fern
