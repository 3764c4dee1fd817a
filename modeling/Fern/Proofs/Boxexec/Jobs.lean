/-
What `start` does to a box's jobs.

A request turned away leaves the list as it was, but for one case: the list is full, a finished job
is forgotten to make room, and the command then can't be started.  The list never grows past its
bound and its IDs stay distinct, so `find` finds the one job it is asked for.
-/
import Fern.Boxexec.Jobs
import Mathlib.Data.List.Nodup

namespace Fern

open List

variable {kept : List Job}

namespace Boxexec

variable {run : JobRequest → Except String Unit} {jobs : List Job} {req : Option JobRequest}

/-! ### What a start makes of the list -/

/-- `kept` is `jobs`, or `jobs` without the oldest finished one. -/
def KeptOf (jobs kept : List Job) : Prop :=
  kept = jobs ∨ ∃ old j new, jobs = old ++ j :: new ∧ j.ended = true ∧
    (∀ o ∈ old, o.ended = false) ∧ kept = old ++ new

/-- The request asks for a job that the list has no ID like, with an ID and a command. -/
structure Wanted (jobs : List Job) (r : JobRequest) : Prop where
  id : r.id ≠ ""
  argv : r.argv ≠ []
  free : ∀ j ∈ jobs, j.id ≠ r.id

theorem split_at_finished {i : Nat} (h : jobs.findIdx? Job.ended = some i) :
    ∃ old j new, jobs = old ++ j :: new ∧ j.ended = true ∧ (∀ o ∈ old, o.ended = false) ∧
      jobs.eraseIdx i = old ++ new := by
  obtain ⟨hi, hended, hbefore⟩ := findIdx?_eq_some_iff_getElem.1 h
  refine ⟨jobs.take i, jobs[i], jobs.drop (i + 1), ?_, hended, ?_,
    eraseIdx_eq_take_drop_succ _ _⟩
  · rw [getElem_cons_drop, take_append_drop]
  · intro o ho
    obtain ⟨k, hk, rfl⟩ := mem_iff_getElem.1 ho
    rw [getElem_take]
    exact eq_false_of_ne_true (hbefore k (by simp at hk; omega))

/-- The lists `start` can make: the old one on an error, but for a job forgotten in vain. -/
inductive Outcome (run : JobRequest → Except String Unit) (jobs : List Job) :
    Option JobRequest → StartAnswer × List Job → Prop where
  | refused {req : Option JobRequest} {answer : StartAnswer} : answer ≠ .noContent →
      (∀ r, req = some r → Wanted jobs r → jobs.length < maxJobs ∨ ∀ j ∈ jobs, j.ended = false) →
      Outcome run jobs req (answer, jobs)
  | inVain {r : JobRequest} {err : String} {kept : List Job} : Wanted jobs r →
      maxJobs ≤ jobs.length → (∃ j ∈ jobs, j.ended = true) → run r = .error err →
      KeptOf jobs kept → kept.length < jobs.length →
        Outcome run jobs (some r) (.unprocessableEntity err, kept)
  | started {r : JobRequest} {kept : List Job} : Wanted jobs r → run r = .ok () →
      KeptOf jobs kept → (kept.length < maxJobs ∨ kept.length < jobs.length) →
      Outcome run jobs (some r) (.noContent, kept ++ [{ id := r.id }])

theorem start_outcome (run : JobRequest → Except String Unit) (jobs : List Job)
    (req : Option JobRequest) : Outcome run jobs req (start run jobs req) := by
  cases req with
  | none => exact .refused (by simp) (by simp)
  | some r =>
    by_cases hbad : r.id = "" ∨ r.argv = []
    · simp only [start, if_pos hbad]
      refine .refused (by simp) ?_
      rintro _ ⟨⟩ hw
      exact absurd hbad (by simp [hw.id, hw.argv])
    by_cases htaken : jobs.any (fun j => j.id = r.id) = true
    · simp only [start, if_neg hbad, if_pos htaken]
      refine .refused (by simp) ?_
      rintro _ ⟨⟩ hw
      obtain ⟨j, hj, hid⟩ := any_eq_true.1 htaken
      exact absurd (of_decide_eq_true hid) (hw.free j hj)
    have hw : Wanted jobs r := by
      refine ⟨fun h => hbad (.inl h), fun h => hbad (.inr h), fun j hj hid => htaken ?_⟩
      exact any_eq_true.2 ⟨j, hj, decide_eq_true hid⟩
    by_cases hfull : maxJobs ≤ jobs.length
    · cases hidx : jobs.findIdx? Job.ended with
      | none =>
        simp only [start, if_neg hbad, if_neg htaken, if_pos hfull, hidx]
        refine .refused (by simp) fun _ _ _ => .inr fun j hj => ?_
        exact eq_false_of_ne_true (by simpa using findIdx?_eq_none_iff.1 hidx j hj)
      | some i =>
        obtain ⟨old, j, new, hjobs, hended, hold, herase⟩ := split_at_finished hidx
        have hlen : (old ++ new).length < jobs.length := by simp [hjobs]
        have hkept : KeptOf jobs (old ++ new) := .inr ⟨old, j, new, hjobs, hended, hold, rfl⟩
        simp only [start, if_neg hbad, if_neg htaken, if_pos hfull, hidx, herase, startJob]
        cases hrun : run r with
        | error err => exact .inVain hw hfull ⟨j, by simp [hjobs], hended⟩ hrun hkept hlen
        | ok u => exact .started hw hrun hkept (.inr hlen)
    · have hroom : jobs.length < maxJobs := Nat.lt_of_not_le hfull
      simp only [start, if_neg hbad, if_neg htaken, if_neg hfull, startJob]
      cases hrun : run r with
      | error err => exact .refused (by simp) fun _ _ _ => .inl hroom
      | ok u => exact .started hw hrun (.inl rfl) (.inl hroom)

/-! ### Every list a box can have -/

/-- The list is within its bound and its IDs are distinct. -/
structure Bounded (jobs : List Job) : Prop where
  length_le : jobs.length ≤ maxJobs
  nodup : (jobs.map Job.id).Nodup

theorem KeptOf.sublist (h : KeptOf jobs kept) : kept.Sublist jobs := by
  rcases h with rfl | ⟨old, j, new, rfl, -, -, rfl⟩
  · exact List.Sublist.refl _
  · exact (List.Sublist.refl old).append (sublist_cons_self j new)

theorem Bounded.append {r : JobRequest} (h : Bounded jobs) (hw : Wanted jobs r)
    (hkept : KeptOf jobs kept) (hroom : kept.length < maxJobs ∨ kept.length < jobs.length) :
    Bounded (kept ++ [{ id := r.id }]) := by
  have hle := h.length_le
  refine ⟨by simp; omega, ?_⟩
  rw [map_append, nodup_append]
  refine ⟨h.nodup.sublist (hkept.sublist.map _), by simp, ?_⟩
  intro id hid id' hid'
  obtain ⟨j, hj, rfl⟩ := mem_map.1 hid
  obtain rfl : id' = r.id := by simpa using hid'
  exact hw.free j (hkept.sublist.subset hj)

theorem Bounded.sublist (h : Bounded jobs) (hkept : kept.Sublist jobs) :
    Bounded kept :=
  ⟨Nat.le_trans hkept.length_le h.length_le, h.nodup.sublist (hkept.map _)⟩

theorem Bounded.of_ids {jobs' : List Job} (h : Bounded jobs)
    (hids : jobs'.map Job.id = jobs.map Job.id) : Bounded jobs' := by
  refine ⟨?_, hids ▸ h.nodup⟩
  rw [← length_map Job.id, hids, length_map]
  exact h.length_le

theorem ids_read (jobs : List Job) (id : String) :
    (read jobs id).2.map Job.id = jobs.map Job.id := by
  unfold read
  cases find jobs id with
  | none => rfl
  | some j =>
    rw [map_map]
    refine map_congr_left fun k _ => ?_
    by_cases hk : k.id = id <;> simp [hk, Job.forgets]

theorem JobStep.id_eq {j j' : Job} (h : JobStep j j') : j'.id = j.id := by
  cases h <;> simp [Job.write]

/-- **Bounds.**  A box never has more than `MaxJobs` jobs, and no two with one ID. -/
theorem Jobs.bounded (h : Jobs jobs) : Bounded jobs := by
  induction h with
  | none => exact ⟨Nat.zero_le _, nodup_nil⟩
  | @starts jobs run req h ih =>
    have hout := start_outcome run jobs req
    generalize start run jobs req = result at hout ⊢
    cases hout with
    | refused => exact ih
    | inVain hw hfull hfin hrun hkept => exact ih.sublist hkept.sublist
    | started hw hrun hkept hroom => exact ih.append hw hkept hroom
  | @reads jobs id h ih => exact ih.of_ids (ids_read jobs id)
  | moves h hstep ih => exact ih.of_ids (by simp [hstep.id_eq])

theorem read_of_mem (h : Jobs jobs) {j : Job} (hj : j ∈ jobs) :
    (read jobs j.id).1 = some (j.taken j.ended).carried := by
  have hfind : find jobs j.id = some j := by
    cases hf : find jobs j.id with
    | none => exact absurd (find?_eq_none.1 hf j hj) (by simp)
    | some k =>
      have hk : k.id = j.id := by simpa using find?_some hf
      rw [inj_on_of_nodup_map h.bounded.nodup (mem_of_find?_eq_some hf) hj hk]
  simp [read, hfind]

/-! ### A job that doesn't start -/

/-- What a start is to leave: nothing changed on an error; on success the new job added, and at most
the oldest finished one gone. -/
structure Clean (jobs : List Job) (req : Option JobRequest) (answer : StartAnswer)
    (jobs' : List Job) : Prop where
  unchanged : answer ≠ .noContent → jobs' = jobs
  gained : answer = .noContent → ∃ r kept, req = some r ∧ KeptOf jobs kept ∧
    jobs' = kept ++ [{ id := r.id }] ∧ jobs'.length ≤ maxJobs ∧ (jobs'.map Job.id).Nodup

/-- A good request for a new job finds the list full with a finished job in it, and its command
can't be started. -/
structure InVain (run : JobRequest → Except String Unit) (jobs : List Job) (r : JobRequest) :
    Prop where
  wanted : Wanted jobs r
  full : maxJobs ≤ jobs.length
  finished : ∃ j ∈ jobs, j.ended = true
  fails : ∃ err, run r = .error err

/-- **A start changes nothing unless it succeeds**, just if it doesn't forget a job for a command
that can't be started. -/
theorem start_clean_iff (h : Jobs jobs) (run : JobRequest → Except String Unit)
    (req : Option JobRequest) :
    Clean jobs req (start run jobs req).1 (start run jobs req).2 ↔
      ∀ r, req = some r → ¬ InVain run jobs r := by
  have hout := start_outcome run jobs req
  generalize start run jobs req = result at hout ⊢
  cases hout with
  | refused hne hroom =>
    refine ⟨fun _ r hr hv => ?_, fun _ => ⟨fun _ => rfl, fun heq => absurd heq hne⟩⟩
    obtain ⟨j, hj, hended⟩ := hv.finished
    rcases hroom r hr hv.wanted with hlt | hrunning
    · exact absurd hv.full (Nat.not_le_of_lt hlt)
    · exact absurd hended (by simp [hrunning j hj])
  | @inVain r err kept hw hfull hfin hrun hkept hlen =>
    refine ⟨fun hclean => ?_, fun hno => absurd ⟨hw, hfull, hfin, err, hrun⟩ (hno r rfl)⟩
    have hsame : kept = jobs := hclean.unchanged (by simp)
    rw [hsame] at hlen
    exact absurd hlen (Nat.lt_irrefl _)
  | @started r kept hw hrun hkept hroom =>
    have hb : Bounded (kept ++ [{ id := r.id }]) := h.bounded.append hw hkept hroom
    refine ⟨fun _ r' hr' hv => ?_, fun _ => ⟨fun hne => absurd rfl hne, fun _ => ?_⟩⟩
    · cases hr'
      obtain ⟨err, herr⟩ := hv.fails
      rw [hrun] at herr
      cases herr
    · exact ⟨r, kept, rfl, hkept, rfl, hb.length_le, hb.nodup⟩

/-- A box's jobs after `n` starts. -/
def started : Nat → List Job
  | 0 => []
  | n + 1 => (start (fun _ => .ok ()) (started n) (some ⟨toString n, ["sleep"], []⟩)).2

theorem jobs_started (n : Nat) : Jobs (started n) := by
  induction n with
  | zero => exact .none
  | succ n ih => exact ih.starts _ _

/-- A full box whose first job has written "ok" and ended. -/
def crowded : List Job :=
  { id := "0", out := [111, 107], ended := true } :: (started maxJobs).tail

theorem jobs_crowded : Jobs crowded := by
  have hall : started maxJobs = [] ++ { id := "0" } :: (started maxJobs).tail := by decide +kernel
  have h : Jobs ([] ++ { id := "0" } :: (started maxJobs).tail) := hall ▸ jobs_started maxJobs
  have hwrite : ({ id := "0" } : Job).write [111, 107] = { id := "0", out := [111, 107] } := by
    decide +kernel
  have hwrites := h.moves (.writes [111, 107] rfl)
  rw [hwrite] at hwrites
  exact hwrites.moves (.ends 0 rfl)

theorem start_clean_crowded :
    Jobs crowded ∧ Clean crowded (some ⟨"server", ["npm"], []⟩)
      (start (fun _ => .ok ()) crowded (some ⟨"server", ["npm"], []⟩)).1
      (start (fun _ => .ok ()) crowded (some ⟨"server", ["npm"], []⟩)).2 := by
  refine ⟨jobs_crowded, (start_clean_iff jobs_crowded _ _).2 ?_⟩
  rintro r - ⟨-, -, -, err, hrun⟩
  cases hrun

/-- The first job's unread output is lost to a command that isn't there. -/
theorem start_forgets_in_vain :
    Jobs crowded ∧ crowded ≠ crowded.tail ∧
      start (fun _ => .error "no such file") crowded (some ⟨"server", ["npn"], []⟩) =
        (.unprocessableEntity "no such file", crowded.tail) ∧
      (read crowded "0").1 = some ⟨[111, 107], 0, false, false, 0⟩ ∧
      (read crowded.tail "0").1 = none := by
  refine ⟨jobs_crowded, ?_, ?_, ?_, ?_⟩ <;> decide +kernel

/-! ### Jobs apart -/

theorem Jobs.out_le (h : Jobs jobs) : ∀ j ∈ jobs, j.out.length ≤ maxJobOutput := by
  induction h with
  | none => simp
  | @starts jobs run req _ ih =>
    have hout := start_outcome run jobs req
    generalize start run jobs req = result at hout ⊢
    cases hout with
    | refused => exact ih
    | inVain _ _ _ _ hkept => exact fun j hj => ih j (hkept.sublist.subset hj)
    | started _ _ hkept _ =>
      intro j hj
      rcases mem_append.1 hj with hj | hj
      · exact ih j (hkept.sublist.subset hj)
      · simp [mem_singleton.1 hj]
  | @reads jobs id _ ih =>
    unfold read
    cases find jobs id with
    | none => exact ih
    | some _ =>
      intro j hj
      obtain ⟨k, hk, rfl⟩ := mem_map.1 hj
      split
      · simp [Job.forgets]
      · exact ih k hk
  | @moves old new j j' _ hstep ih =>
    intro k hk
    rcases mem_append.1 hk with hk | hk
    · exact ih k (by simp [hk])
    rcases mem_cons.1 hk with rfl | hk
    · cases hstep with
      | writes p => simp [Job.write]; omega
      | _ => exact ih j (by simp)
    · exact ih k (by simp [hk])

/-- **A box's jobs are kept apart, and within bounds.**  A read by a job's ID gets that job's output
and leaves every other job as it is; no job has more than `maxJobOutput` unread. -/
theorem jobs_apart (h : Jobs jobs) :
    jobs.length ≤ maxJobs ∧ (∀ j ∈ jobs, j.out.length ≤ maxJobOutput) ∧
      ∀ j ∈ jobs, (read jobs j.id).1 = some (j.taken j.ended).carried ∧
        ∀ k ∈ jobs, k ≠ j → k ∈ (read jobs j.id).2 := by
  refine ⟨h.bounded.length_le, h.out_le, fun j hj => ⟨read_of_mem h hj, fun k hk hne => ?_⟩⟩
  have hlist : (read jobs j.id).2 = jobs.map fun k => if k.id = j.id then k.forgets else k := by
    unfold read
    cases hf : find jobs j.id with
    | none => exact absurd (find?_eq_none.1 hf j hj) (by simp)
    | some _ => rfl
  rw [hlist]
  refine mem_map.2 ⟨k, hk, if_neg fun hid => hne ?_⟩
  exact inj_on_of_nodup_map h.bounded.nodup hk hj hid

/-- A read of the first job gets what it has written, and leaves the second. -/
theorem jobs_apart_crowded :
    (read crowded "0").1 = some ⟨[111, 107], 0, false, false, 0⟩ ∧
      ({ id := "1" } : Job) ∈ (read crowded "0").2 := by
  obtain ⟨hown, hothers⟩ := (jobs_apart jobs_crowded).2.2 _ mem_cons_self
  exact ⟨hown.trans (by decide +kernel), hothers _ (by decide +kernel) (by decide)⟩

end Boxexec

end Fern
