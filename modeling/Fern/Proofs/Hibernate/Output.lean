/-
What the SDK sees of Claude's output.

The SDK is to see what the Claudes write, one after another, without the answers of a
restarted Claude to what was replayed to it.  The loop's part in this is exact: however the
output is cut into writes, every line is shown to the tracker once and whole, and passed on
unless the tracker holds it back.  The tracker holds back too much: the requests whose answers
it waits for outlive the Claude they were replayed to.
-/
import Fern.Proofs.Hibernate.Input

namespace Fern

open List

variable {ids ids' : Finset String}

/-- A line of Claude's output, with the newline that ends it, if one does. -/
structure Piece where
  line : Bytes
  ended : Bool
  deriving DecidableEq, Repr

def Piece.bytes (x : Piece) : Bytes := x.line ++ if x.ended then [newline] else []

/-- The lines of a Claude's output: those ended, and, once it has exited, the unended last. -/
def Claude.pieces (c : Claude) : List Piece :=
  (cut newline c.written).1.map (⟨·, true⟩) ++
    if c.done = none ∨ (cut newline c.written).2 = [] then []
    else [⟨(cut newline c.written).2, false⟩]

section

variable (json : Bytes → Option Message)

/-- The request a line of Claude's answers. -/
def answer? (line : Bytes) : Option String :=
  match json line with
  | some m => if m.type = .controlResponse then m.response else none
  | none => none

/-- Output without the answers to `ids`, each removed once. -/
def strip : Finset String → List Piece → Bytes
  | _, [] => []
  | ids, x :: xs =>
    match answer? json x.line with
    | some id => if id ∈ ids then strip (ids.erase id) xs else x.bytes ++ strip ids xs
    | none => x.bytes ++ strip ids xs

/-- The requests replayed to a Claude. -/
def Claude.asked (c : Claude) : Finset String := Stream.requestIDs json c.setup

/-- What the SDK is to see: the output of the Claudes in order, without each one's answers to
the requests replayed to it. -/
def visible (cs : List Claude) : Bytes :=
  cs.flatMap fun c => strip json (c.asked json) c.pieces

/-- The Claudes in `cs` were replayed request `id`, and none since then has answered it. -/
def LeftOpen (cs : List Claude) (id : String) : Prop :=
  Since (fun c => id ∈ c.asked json ∧ ∀ x ∈ c.pieces, answer? json x.line ≠ some id)
    (fun c => ∃ x ∈ c.pieces, answer? json x.line = some id) cs

/-- No Claude answers a request that was not replayed to it, but to one before it, and left
unanswered since. -/
def AnswersOwn (cs : List Claude) : Prop :=
  Each (fun before c => ∀ x ∈ c.pieces, ∀ id, answer? json x.line = some id →
    LeftOpen json before id → id ∈ c.asked json) cs

end

variable {json : Bytes → Option Message}

/-! ### Holding back answers

An answer is held back once for each request it is still waited for. What a restart adds outlives
the Claude it was replayed to. -/

/-- What is left of `ids` after `xs`. -/
def unanswered (json : Bytes → Option Message) (ids : Finset String) (xs : List Piece) :
    Finset String :=
  ids.filter fun id => ∀ x ∈ xs, answer? json x.line ≠ some id

theorem mem_unanswered {xs : List Piece} {id : String} :
    id ∈ unanswered json ids xs ↔ id ∈ ids ∧ ∀ x ∈ xs, answer? json x.line ≠ some id := by
  simp [unanswered]

theorem unanswered_append (ids : Finset String) (xs ys : List Piece) :
    unanswered json ids (xs ++ ys) = unanswered json (unanswered json ids xs) ys := by
  ext id
  simp only [mem_unanswered, mem_append]
  constructor
  · rintro ⟨hid, hno⟩
    exact ⟨⟨hid, fun x hx => hno x (.inl hx)⟩, fun x hx => hno x (.inr hx)⟩
  · rintro ⟨⟨hid, hxs⟩, hys⟩
    refine ⟨hid, ?_⟩
    rintro x (hx | hx)
    · exact hxs x hx
    · exact hys x hx

theorem strip_cons (ids : Finset String) (x : Piece) (xs : List Piece) :
    strip json ids (x :: xs) =
      strip json ids [x] ++ strip json (unanswered json ids [x]) xs := by
  have hids : ∀ id, answer? json x.line = some id → unanswered json ids [x] = ids.erase id := by
    intro id hid
    ext id'
    simp [mem_unanswered, hid, and_comm, eq_comm]
  cases hx : answer? json x.line with
  | none =>
    have : unanswered json ids [x] = ids := by
      ext id
      simp [mem_unanswered, hx]
    simp [strip, hx, this]
  | some id =>
    rw [hids id hx]
    by_cases hin : id ∈ ids
    · simp [strip, hx, hin]
    · simp [strip, hx, hin]

theorem strip_append (ids : Finset String) (xs ys : List Piece) :
    strip json ids (xs ++ ys) = strip json ids xs ++ strip json (unanswered json ids xs) ys := by
  induction xs generalizing ids with
  | nil => simp [strip, unanswered]
  | cons x xs ih =>
    rw [cons_append, strip_cons, ih, strip_cons ids x xs, append_assoc,
      ← unanswered_append]
    rfl

variable (json) in
theorem strip_length_le (hsub : ids ⊆ ids') (xs : List Piece) :
    (strip json ids' xs).length ≤ (strip json ids xs).length := by
  induction xs generalizing ids ids' with
  | nil => exact Nat.le_refl _
  | cons x xs ih =>
    cases hx : answer? json x.line with
    | none => simpa [strip, hx] using ih hsub
    | some id =>
      by_cases hin : id ∈ ids
      · simpa [strip, hx, hin, hsub hin] using ih (Finset.erase_subset_erase id hsub)
      · by_cases hin' : id ∈ ids'
        · have := ih (Finset.subset_erase.mpr ⟨hsub, hin⟩)
          simp only [strip, hx, hin, hin', if_true, if_false, length_append]
          omega
        · simpa [strip, hx, hin, hin'] using ih hsub

theorem strip_length_lt (hsub : ids ⊆ ids') {xs : List Piece} (hxs : ∀ x ∈ xs, x.bytes ≠ [])
    {x : Piece} (hx : x ∈ xs) {id : String} (hanswer : answer? json x.line = some id)
    (hin' : id ∈ ids') (hin : id ∉ ids) :
    (strip json ids' xs).length < (strip json ids xs).length := by
  induction xs generalizing ids ids' with
  | nil => simp at hx
  | cons y ys ih =>
    have ih := fun {ids ids' : Finset String} (hsub : ids ⊆ ids') (hys : x ∈ ys) =>
      ih hsub (fun z hz => hxs z (mem_cons_of_mem _ hz)) hys
    cases hy : answer? json y.line with
    | none =>
      rcases mem_cons.mp hx with rfl | hys
      · simp [hanswer] at hy
      · simpa [strip, hy] using ih hsub hys hin' hin
    | some j =>
      by_cases hj : j ∈ ids
      · have hne : id ≠ j := fun h => hin (h ▸ hj)
        rcases mem_cons.mp hx with rfl | hys
        · exact absurd (Option.some.inj (hanswer.symm.trans hy)) hne
        · simpa [strip, hy, hj, hsub hj] using
            ih (Finset.erase_subset_erase j hsub) hys (Finset.mem_erase.mpr ⟨hne, hin'⟩)
              fun h => hin (Finset.mem_of_mem_erase h)
      · by_cases hj' : j ∈ ids'
        · have hle := strip_length_le json (Finset.subset_erase.mpr ⟨hsub, hj⟩) ys
          have hpos := length_pos_of_ne_nil (hxs y (mem_cons_self))
          simp only [strip, hy, hj, hj', if_true, if_false, length_append]
          omega
        · rcases mem_cons.mp hx with rfl | hys
          · cases hanswer.symm.trans hy
            exact absurd hin' hj'
          · simpa [strip, hy, hj, hj'] using ih hsub hys hin' hin

theorem strip_congr (hsub : ids ⊆ ids') {xs : List Piece}
    (hown : ∀ x ∈ xs, ∀ id, answer? json x.line = some id → id ∈ ids' → id ∈ ids) :
    strip json ids' xs = strip json ids xs := by
  induction xs generalizing ids ids' with
  | nil => rfl
  | cons x xs ih =>
    have hrest := fun y hy => hown y (mem_cons_of_mem x hy)
    cases hx : answer? json x.line with
    | none => simpa [strip, hx] using ih hsub hrest
    | some id =>
      by_cases hin' : id ∈ ids'
      · have hin := hown x mem_cons_self id hx hin'
        simp only [strip, hx, hin, hin', if_true]
        refine ih (Finset.erase_subset_erase id hsub) fun y hy id' hid' hmem => ?_
        obtain ⟨hne, hmem⟩ := Finset.mem_erase.mp hmem
        exact Finset.mem_erase.mpr ⟨hne, hrest y hy id' hid' hmem⟩
      · have hin : id ∉ ids := fun h => hin' (hsub h)
        simpa [strip, hx, hin, hin'] using ih hsub hrest

/-! ### What the tracker lets through

The tracker holds back the answers to every request replayed so far and not answered since,
whichever Claude it was replayed to. -/

/-- What is held back after the Claudes `cs`, if `held` was before them. -/
def heldBack (json : Bytes → Option Message) (held : Finset String) : List Claude → Finset String
  | [] => held
  | c :: cs => heldBack json (unanswered json (held ∪ c.asked json) c.pieces) cs

/-- What is passed on of the Claudes `cs`, if `held` is held back before them. -/
def passed (json : Bytes → Option Message) (held : Finset String) : List Claude → Bytes
  | [] => []
  | c :: cs =>
    strip json (held ∪ c.asked json) c.pieces ++
      passed json (unanswered json (held ∪ c.asked json) c.pieces) cs

theorem heldBack_concat (held : Finset String) (cs : List Claude) (c : Claude) :
    heldBack json held (cs ++ [c]) =
      unanswered json (heldBack json held cs ∪ c.asked json) c.pieces := by
  induction cs generalizing held with
  | nil => rfl
  | cons d cs ih => exact ih _

theorem passed_concat (held : Finset String) (cs : List Claude) (c : Claude) :
    passed json held (cs ++ [c]) =
      passed json held cs ++ strip json (heldBack json held cs ∪ c.asked json) c.pieces := by
  induction cs generalizing held with
  | nil => simp [passed, heldBack]
  | cons d cs ih => simp [passed, heldBack, ih]

theorem mem_heldBack {cs : List Claude} {id : String} :
    id ∈ heldBack json ∅ cs ↔ LeftOpen json cs id := by
  induction cs using List.reverseRecOn with
  | nil => simp [heldBack, LeftOpen]
  | append_singleton cs c ih =>
    rw [heldBack_concat, mem_unanswered, Finset.mem_union, ih, LeftOpen, LeftOpen, Since.concat]
    simp only [not_exists, not_and]
    tauto

theorem bytes_ne_nil {c : Claude} {x : Piece} (hx : x ∈ c.pieces) : x.bytes ≠ [] := by
  unfold Claude.pieces at hx
  rcases mem_append.mp hx with hx | hx
  · obtain ⟨line, -, rfl⟩ := mem_map.mp hx
    simp [Piece.bytes]
  · split at hx
    · simp at hx
    · next hopen =>
      obtain rfl := mem_singleton.mp hx
      simp only [not_or] at hopen
      simpa [Piece.bytes] using hopen.2

variable (json) in
theorem passed_length_le (cs : List Claude) :
    (passed json ∅ cs).length ≤ (visible json cs).length := by
  induction cs using List.reverseRecOn with
  | nil => exact Nat.le_refl _
  | append_singleton cs c ih =>
    have hsub : c.asked json ⊆ heldBack json ∅ cs ∪ c.asked json := Finset.subset_union_right
    have := strip_length_le json hsub c.pieces
    rw [passed_concat]
    simp only [visible, flatMap_append, length_append, flatMap_singleton] at ih ⊢
    omega

/-- **What is passed on is what is to be seen, exactly if each Claude answers only its own.** -/
theorem passed_eq_visible_iff (cs : List Claude) :
    passed json ∅ cs = visible json cs ↔ AnswersOwn json cs := by
  induction cs using List.reverseRecOn with
  | nil => simp [passed, visible, AnswersOwn]
  | append_singleton cs c ih =>
    have hsub : c.asked json ⊆ heldBack json ∅ cs ∪ c.asked json := Finset.subset_union_right
    have hvisible : visible json (cs ++ [c]) =
        visible json cs ++ strip json (c.asked json) c.pieces := by simp [visible]
    have hown : (∀ x ∈ c.pieces, ∀ id, answer? json x.line = some id →
        id ∈ heldBack json ∅ cs ∪ c.asked json → id ∈ c.asked json) ↔
        ∀ x ∈ c.pieces, ∀ id, answer? json x.line = some id → LeftOpen json cs id →
          id ∈ c.asked json := by
      simp only [Finset.mem_union, mem_heldBack]
      constructor
      · exact fun h x hx id hid hopen => h x hx id hid (.inl hopen)
      · rintro h x hx id hid (hopen | hmem)
        · exact h x hx id hid hopen
        · exact hmem
    rw [AnswersOwn, Each.concat, ← AnswersOwn, ← ih, passed_concat, hvisible, ← hown]
    constructor
    · intro h
      have hlen := congrArg List.length h
      have hle := strip_length_le json hsub c.pieces
      have hle' := passed_length_le json cs
      rw [length_append, length_append] at hlen
      obtain ⟨hfirst, hlast⟩ := append_inj h (by omega)
      refine ⟨hfirst, fun x hx id hid hmem => ?_⟩
      by_contra hno
      have := strip_length_lt hsub (fun y hy => bytes_ne_nil hy) hx hid hmem hno
      omega
    · rintro ⟨hfirst, hstray⟩
      rw [hfirst, strip_congr hsub hstray]

/-! ### The loop -/

namespace Hibernator

variable {c : Claude}

/-- What the loop keeps of the Claudes' output. -/
structure Shows (json : Bytes → Option Message) (h : Hibernator) : Prop where
  stdout : h.stdout = passed json ∅ h.claudes
  shown : h.shown = (h.claudes.flatMap Claude.pieces).map Piece.line
  swallow : h.st.swallow = heldBack json ∅ h.claudes
  buf : ∀ c, h.c = some c → c.done = none → c.buf = (cut newline c.written).2

namespace Shows

variable {cfg : RunConfig} {h h' : Hibernator}

theorem begin : Shows json (begin cfg) where
  stdout := by
    simp [Hibernator.begin, claudes, passed, Claude.pieces, strip]
  shown := by simp [Hibernator.begin, claudes, Claude.pieces]
  swallow := by
    simp [Hibernator.begin, claudes, heldBack, Claude.pieces, unanswered, newStream, Claude.asked,
      Stream.requestIDs]
  buf := by
    rintro c ⟨⟩ -
    rfl

/-- What of a Claude matters to its output. -/
def outputOf (c : Claude) : List Bytes × Bytes × Bytes × Option ExecResult :=
  (c.setup, c.written, c.buf, c.done)

theorem quiet (shows : Shows json h) (hstdout : h'.stdout = h.stdout) (hshown : h'.shown = h.shown)
    (hswallow : h'.st.swallow = h.st.swallow) (hpast : h'.past = h.past)
    (hc : h'.c.map outputOf = h.c.map outputOf) : Shows json h' := by
  cases hc' : h'.c with
  | none =>
    have hnone : h.c = none := by
      rw [hc', Option.map_none, eq_comm, Option.map_eq_none_iff] at hc
      exact hc
    have hclaudes : h'.claudes = h.claudes := by simp [claudes, hpast, hc', hnone]
    exact ⟨by rw [hstdout, hclaudes, shows.stdout], by rw [hshown, hclaudes, shows.shown],
      by rw [hswallow, hclaudes, shows.swallow], by simp [hc']⟩
  | some c' =>
    obtain ⟨c, hsome, hkey⟩ : ∃ c, h.c = some c ∧ outputOf c = outputOf c' := by
      rw [hc', Option.map_some, eq_comm, Option.map_eq_some_iff] at hc
      exact hc
    simp only [outputOf, Prod.mk.injEq] at hkey
    obtain ⟨hsetup, hwritten, hbuf, hdone⟩ := hkey
    have hpieces : c'.pieces = c.pieces := by simp [Claude.pieces, hwritten, hdone]
    have hasked : c'.asked json = c.asked json := by simp [Claude.asked, hsetup]
    have hclaudes : h.claudes = h.past ++ [c] := by simp [claudes, hsome]
    have hclaudes' : h'.claudes = h.past ++ [c'] := by simp [claudes, hc', hpast]
    refine ⟨?_, ?_, ?_, ?_⟩
    · rw [hstdout, shows.stdout, hclaudes, hclaudes', passed_concat, passed_concat, hpieces, hasked]
    · rw [hshown, shows.shown, hclaudes, hclaudes']
      simp [hpieces]
    · rw [hswallow, shows.swallow, hclaudes, hclaudes', heldBack_concat, heldBack_concat, hpieces,
        hasked]
    · intro d hd hrun
      cases hc'.symm.trans hd
      rw [← hbuf, ← hwritten]
      exact shows.buf c hsome (hdone.trans hrun)

/-! ### A line is passed on, or not -/

variable (json) in
theorem Out_seen (s : Stream) (now : Time) (line : Bytes) :
    (s.Out json now line).2 = true ↔ ∀ id, answer? json line = some id → id ∉ s.swallow := by
  unfold Stream.Out answer?
  cases json line with
  | none => simp
  | some m =>
    by_cases htype : m.type = .controlResponse
    · cases hresp : m.response <;> simp [Stream.swallows, htype, hresp]
    · cases hm : m.type <;> simp_all [Stream.swallows]

theorem Out_swallow (s : Stream) (now : Time) (x : Piece) :
    (s.Out json now x.line).1.swallow = unanswered json s.swallow [x] := by
  ext id
  rw [mem_unanswered]
  unfold Stream.Out
  cases hm : json x.line with
  | none => simp [answer?, hm]
  | some m =>
    rw [Stream.mem_tell_swallow]
    simp [answer?, hm]

theorem strip_singleton (ids : Finset String) (x : Piece) :
    strip json ids [x] =
      if ∀ id, answer? json x.line = some id → id ∉ ids then x.bytes else [] := by
  cases hx : answer? json x.line with
  | none => simp [strip, hx]
  | some id => by_cases hin : id ∈ ids <;> simp [strip, hx, hin]

theorem pass_stdout (h : Hibernator) (now : Time) (x : Piece) :
    (h.pass json now (if x.ended then [newline] else []) x.line).stdout =
      h.stdout ++ strip json h.st.swallow [x] := by
  have hseen := Out_seen json h.st now x.line
  rw [strip_singleton]
  unfold pass
  by_cases hkeep : (h.st.Out json now x.line).2 = true
  · rw [if_pos (hseen.mp hkeep)]
    simp [hkeep, Piece.bytes]
  · rw [if_neg fun hno => hkeep (hseen.mpr hno)]
    simp [hkeep]

variable (json) in
theorem passAll_shows (now : Time) (lines : List Bytes) (h : Hibernator) :
    let h' := lines.foldl (fun h line => h.pass json now [newline] line) h
    h'.stdout = h.stdout ++ strip json h.st.swallow (lines.map (⟨·, true⟩)) ∧
    h'.st.swallow = unanswered json h.st.swallow (lines.map (⟨·, true⟩)) ∧
    h'.shown = h.shown ++ lines := by
  induction lines generalizing h with
  | nil => simp [strip, unanswered]
  | cons line lines ih =>
    obtain ⟨hout, hswallow, hshown⟩ := ih (h.pass json now [newline] line)
    have hpass : (h.pass json now [newline] line).stdout =
        h.stdout ++ strip json h.st.swallow [⟨line, true⟩] := pass_stdout h now ⟨line, true⟩
    have hswallow₁ : (h.pass json now [newline] line).st.swallow =
        unanswered json h.st.swallow [⟨line, true⟩] := Out_swallow h.st now ⟨line, true⟩
    refine ⟨?_, ?_, ?_⟩
    · rw [foldl_cons, hout, hpass, hswallow₁, map_cons,
        strip_cons _ ⟨line, true⟩ (lines.map _), append_assoc]
    · rw [foldl_cons, hswallow, hswallow₁, ← unanswered_append]
      rfl
    · rw [foldl_cons, hshown]
      simp [pass]

theorem more (shows : Shows json h) {c' : Claude} (hc : h.c = some c) (new : List Piece)
    (hc' : h'.c = some c') (hsetup : c'.setup = c.setup) (hpieces : c'.pieces = c.pieces ++ new)
    (hpast : h'.past = h.past) (hstdout : h'.stdout = h.stdout ++ strip json h.st.swallow new)
    (hswallow : h'.st.swallow = unanswered json h.st.swallow new)
    (hshown : h'.shown = h.shown ++ new.map Piece.line)
    (hbuf : c'.done = none → c'.buf = (cut newline c'.written).2) : Shows json h' := by
  have hasked : c'.asked json = c.asked json := by simp [Claude.asked, hsetup]
  have hclaudes : h.claudes = h.past ++ [c] := by simp [claudes, hc]
  have hclaudes' : h'.claudes = h.past ++ [c'] := by simp [claudes, hc', hpast]
  have hheld : h.st.swallow =
      unanswered json (heldBack json ∅ h.past ∪ c.asked json) c.pieces := by
    rw [shows.swallow, hclaudes, heldBack_concat]
  refine ⟨?_, ?_, ?_, ?_⟩
  · rw [hstdout, shows.stdout, hclaudes, hclaudes', passed_concat, passed_concat, hpieces, hasked,
      strip_append, hheld, append_assoc]
  · rw [hshown, shows.shown, hclaudes, hclaudes']
    simp [hpieces]
  · rw [hswallow, hheld, hclaudes', heldBack_concat, hpieces, hasked, unanswered_append]
  · intro d hd hrun
    cases hc'.symm.trans hd
    exact hbuf hrun

theorem pieces_of_running (hrun : c.done = none) :
    c.pieces = (cut newline c.written).1.map (⟨·, true⟩) := by
  simp [Claude.pieces, hrun]

theorem output (shows : Shows json h) (hc : h.c = some c) (hrun : c.done = none) (now : Time)
    (p : Bytes) : Shows json (h.lineWrite json now c p) := by
  have hbuf := shows.buf c hc hrun
  have hcut : cut newline (c.written ++ p) = _ := cut_append c.written p
  rw [← hbuf] at hcut
  obtain ⟨hout, hswallow, hshown⟩ :=
    passAll_shows json now (cut newline (c.buf ++ p)).1 h
  have hpast := (Fed.same_passAll json now [newline] (cut newline (c.buf ++ p)).1 h).past
  refine shows.more hc ((cut newline (c.buf ++ p)).1.map (⟨·, true⟩)) rfl rfl ?_ hpast hout
    hswallow ?_ ?_
  · rw [pieces_of_running hrun]
    simp [Claude.pieces, hrun, hcut]
  · have hline : (Piece.line ∘ fun line => (⟨line, true⟩ : Piece)) = id := rfl
    rw [map_map, hline, map_id]
    exact hshown
  · intro _
    rw [hcut]

theorem exit (shows : Shows json h) (hc : h.c = some c) (hrun : c.done = none) (now : Time)
    (r : ExecResult) :
    Shows json { h.flush json now c with c := some { c with done := some r } } := by
  have hbuf := shows.buf c hc hrun
  unfold flush
  split
  · next hempty =>
    refine shows.more hc [] rfl rfl ?_ rfl ?_ ?_ ?_ ?_
    · rw [hbuf] at hempty
      simp [Claude.pieces, hrun, hempty]
    · simp [strip]
    · simp [unanswered]
    · simp
    · simp
  · next hopen =>
    refine shows.more hc [⟨c.buf, false⟩] rfl rfl ?_ rfl
      (pass_stdout h now ⟨c.buf, false⟩) (Out_swallow h.st now ⟨c.buf, false⟩) ?_ ?_
    · rw [hbuf] at hopen ⊢
      simp [Claude.pieces, hrun, hopen]
    · simp [pass]
    · simp

/-! ### The other steps -/

theorem restart (shows : Shows json h) (hc : h.c = none) (hstdout : h'.stdout = h.stdout)
    (hshown : h'.shown = h.shown) (hst : h'.st = h.st.restart json) (hpast : h'.past = h.past)
    (hc' : h'.c = some c) (hsetup : c.setup = h.st.setupLines) (hwritten : c.written = [])
    (hbuf : c.buf = []) : Shows json h' := by
  have hpieces : c.pieces = [] := by simp [Claude.pieces, hwritten]
  have hclaudes : h.claudes = h.past := by simp [claudes, hc]
  have hclaudes' : h'.claudes = h.past ++ [c] := by simp [claudes, hc', hpast]
  refine ⟨?_, ?_, ?_, ?_⟩
  · rw [hstdout, shows.stdout, hclaudes, hclaudes', passed_concat, hpieces, strip, append_nil]
  · rw [hshown, shows.shown, hclaudes, hclaudes']
    simp [hpieces]
  · rw [hst, hclaudes', heldBack_concat, hpieces, Claude.asked, hsetup, ← hclaudes, ← shows.swallow]
    simp [Stream.restart, unanswered]
  · intro d hd _
    cases hc'.symm.trans hd
    simp [hwritten, hbuf]

theorem line (shows : Shows json h) (line : Bytes) : Shows json (h.takeLine json cfg line) := by
  by_cases hstop : h.stopping = none
  · cases hc : h.c with
    | some c =>
      refine shows.quiet ?_ ?_ ?_ ?_ ?_ <;> simp [takeLine, hstop, hc]
    | none =>
      refine shows.restart hc (c := { argv := resumeArgs cfg.argv h.st.session,
                                      setup := h.st.setupLines }) ?_ ?_ ?_ ?_ ?_ rfl rfl rfl <;>
        simp [takeLine, hstop, hc, Hibernator.restart]
  · refine shows.quiet ?_ ?_ ?_ ?_ ?_ <;>
      simp [takeLine, Option.isSome_iff_ne_none, hstop]

theorem eof (shows : Shows json h) : Shows json h.takeEOF := by
  cases hc : h.c with
  | none => refine shows.quiet ?_ ?_ ?_ ?_ ?_ <;> simp [takeEOF, hc]
  | some c =>
    by_cases hstop : h.stopping = none
    · refine shows.quiet ?_ ?_ ?_ ?_ ?_ <;> simp [takeEOF, hc, hstop, outputOf]
    · refine shows.quiet ?_ ?_ ?_ ?_ ?_ <;>
        simp [takeEOF, hc, Option.isSome_iff_ne_none, hstop, outputOf]

theorem signal (shows : Shows json h) (sig : Nat) : Shows json (h.takeSignal sig) := by
  cases hc : h.c <;> refine shows.quiet ?_ ?_ ?_ ?_ ?_ <;> simp [takeSignal, hc, outputOf]

theorem resumeEOF (shows : Shows json h) : Shows json h.resumeEOF := by
  unfold Hibernator.resumeEOF
  split
  · exact shows
  · split <;> exact shows.quiet rfl rfl rfl rfl rfl

theorem resume (shows : Shows json h) (hc : h.c = none) : Shows json (h.resume json cfg) := by
  unfold Hibernator.resume
  split
  · exact shows
  · exact shows.restart hc rfl rfl rfl rfl rfl rfl rfl rfl

theorem exited (shows : Shows json h) (hc : h.c = some c) (r : ExecResult) :
    Shows json (h.takeExit json cfg c r) := by
  unfold takeExit
  split
  · exact shows.quiet rfl rfl rfl rfl rfl
  · -- The Claude that was stopped is now the last of those before.
    have hclaudes : claudes { h with
        c := none, past := h.past ++ [c], stopping := none, code := stopCode r } = h.claudes := by
      simp [claudes, hc]
    have hrest : Shows json { h with
        c := none, past := h.past ++ [c], stopping := none, code := stopCode r } :=
      ⟨hclaudes ▸ shows.stdout, hclaudes ▸ shows.shown, hclaudes ▸ shows.swallow, (by simp)⟩
    exact (hrest.resume rfl).resumeEOF

theorem tick (shows : Shows json h) (now : Time) : Shows json (h.takeTick cfg now) := by
  unfold takeTick
  cases hc : h.c with
  | none => exact shows
  | some c =>
    dsimp only
    repeat' split
    all_goals first
      | exact shows
      | exact shows.quiet rfl rfl rfl rfl (by simp [hc, outputOf])

theorem In_swallow (s : Stream) (now : Time) (line : Bytes) :
    (s.In json now line).swallow = s.swallow := by
  unfold Stream.In
  cases json line with
  | none => rfl
  | some m => exact Stream.hear_swallow _ _ _

theorem act (shows : Shows json h) (now : Time) (a : Act) (todo : List Act) :
    Shows json ({ h with todo := todo }.act json now a) := by
  cases a with
  | note line => exact shows.quiet rfl rfl (In_swallow h.st now line) rfl rfl
  | write g =>
    unfold Hibernator.act
    cases hc : h.c with
    | none => exact shows.quiet rfl rfl rfl rfl (by simp [hc])
    | some c =>
      dsimp only
      split
      · exact shows.quiet rfl rfl rfl rfl (by simp [hc])
      · exact shows.quiet rfl rfl rfl rfl (by simp [hc, outputOf])
  | endInput =>
    refine shows.quiet rfl rfl rfl rfl ?_
    cases h.c <;> simp [Hibernator.act, outputOf]

theorem step (shows : Shows json h) {e : Event} (hstep : h.step json cfg e = some h') :
    Shows json h' := by
  cases goes_of_step hstep with
  | line line => exact shows.line line
  | eof => exact shows.eof
  | signal sig => exact shows.signal sig
  | exited hc => exact shows.exited hc _
  | tick now => exact shows.tick now
  | next now => exact shows.act now _ _
  | output now p hc hrun => exact shows.output hc hrun now p
  | exit now r hc hrun => exact shows.exit hc hrun now r

theorem run {es : List Event} (hrun : run json cfg es = some h) : Shows json h :=
  foldlM_keeps (fun _ _ _ _ shows hstep => shows.step hstep) hrun Shows.begin

end Shows

/-- **The SDK sees the Claudes' output in order, without each one's answers to what was
replayed to it, and the tracker sees every line once and whole, exactly in the runs in which
no Claude answers a request that was replayed to one before it and not to it.** -/
theorem output_exact_iff (json : Bytes → Option Message) (cfg : RunConfig) (es : List Event)
    (h : Hibernator) (hrun : run json cfg es = some h) :
    (h.stdout = visible json h.claudes ∧
      h.shown = (h.claudes.flatMap Claude.pieces).map Piece.line) ↔
      AnswersOwn json h.claudes := by
  have shows := Shows.run hrun
  rw [shows.stdout, passed_eq_visible_iff]
  exact and_iff_left shows.shown

/-- The restarted Claude answers what was replayed to it, and goes on. -/
def sampleReplay : List Event := sampleStop ++ [.output 103 [2], .output 104 [10, 7, 10]]

/-- The SDK sees the answer of the first Claude, and not that of the second, which answers what was
replayed to itself. -/
theorem output_exact_iff_replayed :
    ∃ h, run sampleSetup ⟨["claude"], 5⟩ sampleReplay = some h ∧
      h.stdout = [0, 10, 2, 10, 7, 10] ∧ visible sampleSetup h.claudes = [0, 10, 2, 10, 7, 10] ∧
      h.shown = [[0], [2], [2], [7]] ∧ AnswersOwn sampleSetup h.claudes :=
  ⟨_, rfl, rfl, rfl, rfl, (output_exact_iff _ ⟨["claude"], 5⟩ sampleReplay _ rfl).mp ⟨rfl, rfl⟩⟩

/-- Lines of an SDK that sets the model, takes that back, and sets another; and their answers. -/
def sampleModels : Bytes → Option Message
  | [0] => some { type := .system, subtype := .init, sessionID := "s" }
  | [1, 10] => some { type := .controlRequest, requestID := "m", request := some .setModel }
  | [2] => some { type := .controlResponse, response := some "m" }
  | [3, 10] => some { type := .controlCancelRequest, requestID := "m" }
  | [4, 10] => some { type := .controlRequest, requestID := "n", request := some .setModel }
  | [5] => some { type := .controlResponse, response := some "n" }
  | _ => none

/-- The second Claude is replayed request `m`, which the SDK takes back before it is answered;
so the second Claude can be stopped, and the third is replayed `n` only.  A response of the
third Claude that names `m` is still kept from the SDK. -/
theorem response_kept_from_sdk :
    ∃ h, run sampleModels ⟨["claude"], 5⟩
        [.output 0 [0, 10], .line [1, 10], .next 1, .next 1, .output 2 [2, 10], .tick 100,
          .exit 101 { code := 0 }, .exited,
          .line [3, 10], .next 102, .next 102, .next 102,
          .line [4, 10], .next 103, .next 103, .output 104 [5, 10], .tick 200,
          .exit 201 { code := 0 }, .exited,
          .line [9, 10], .next 202, .next 202, .next 202, .output 203 [2, 10]] = some h ∧
      h.claudes.map Claude.setup = [[], [[1, 10]], [[4, 10]]] ∧
      h.claudes.map Claude.written = [[0, 10, 2, 10], [5, 10], [2, 10]] ∧
      h.stdout = [0, 10, 2, 10, 5, 10] ∧
      visible sampleModels h.claudes = [0, 10, 2, 10, 5, 10, 2, 10] :=
  ⟨_, rfl, rfl, rfl, rfl, rfl⟩

end Hibernator

end Fern
