/-
When the tracker takes Claude for idle.

`Tracks` says what each field of the tracker means in terms of the conversation.  It is kept
by a line either way and by a restart, so it holds after any conversation, and what `idle`
says can be read off it.  It is not quite what it is for: of Claude's own requests the tracker
hears only the answer, never that Claude took one back.
-/
import Fern.Hibernate.Conversation

namespace Fern

open Wire List

variable {json : Bytes → Option Message} {w : List Wire} {line : Bytes}

/-! ### What a message changes, field by field -/

namespace Stream

variable (s : Stream) (line : Bytes) (m : Message)

@[simp] theorem hear_session : (s.hear line m).session = s.session := by
  unfold hear
  cases m.type <;> cases m.response <;> rfl

@[simp] theorem hear_tasks : (s.hear line m).tasks = s.tasks := by
  unfold hear
  cases m.type <;> cases m.response <;> rfl

@[simp] theorem hear_running : (s.hear line m).running = s.running := by
  unfold hear
  cases m.type <;> cases m.response <;> rfl

@[simp] theorem hear_swallow : (s.hear line m).swallow = s.swallow := by
  unfold hear
  cases m.type <;> cases m.response <;> rfl

theorem hear_busy : (s.hear line m).busy = true ↔ m.type = .user ∨ s.busy = true := by
  unfold hear
  cases m.type <;> cases m.response <;> simp

theorem mem_hear_toClaude (r : String) :
    r ∈ (s.hear line m).toClaude ↔ (m.type = .controlRequest ∧ m.requestID = r) ∨
      (r ∈ s.toClaude ∧ ¬ (m.type = .controlCancelRequest ∧ m.requestID = r)) := by
  unfold hear
  cases m.type <;> cases m.response <;> simp [eq_comm, and_comm]

theorem mem_hear_toSDK (r : String) :
    r ∈ (s.hear line m).toSDK ↔
      r ∈ s.toSDK ∧ ¬ (m.type = .controlResponse ∧ m.response = some r) := by
  unfold hear
  cases m.type <;> cases m.response <;> simp [eq_comm, and_comm]

theorem hear_setup {sub : RequestSubtype} (hsub : sub ∈ replayed) :
    (s.hear line m).setup.get sub =
      if m.type = .controlRequest ∧ m.request = some sub then some line else s.setup.get sub := by
  have hnote : (s.noteSetup line m).get sub =
      if m.request = some sub then some line else s.setup.get sub := by
    unfold noteSetup
    cases hreq : m.request with
    | none => simp
    | some sub' =>
      by_cases heq : sub = sub'
      · simp [← heq, hsub]
      · by_cases hin : sub' ∈ replayed
        · simp [hin, heq, Ne.symm heq]
        · simp [hin, Ne.symm heq]
  unfold hear
  cases m.type <;> cases m.response <;> simp [hnote]

@[simp] theorem tell_setup : (s.tell m).setup = s.setup := by
  unfold tell
  cases m.type <;> cases m.response <;> cases m.subtype <;> rfl

theorem tell_session : (s.tell m).session =
    if m.type = .system ∧ m.subtype = .init then m.sessionID else s.session := by
  unfold tell
  cases m.type <;> cases m.response <;> cases m.subtype <;> rfl

theorem tell_tasks : (s.tell m).tasks =
    if m.type = .system ∧ m.subtype = .backgroundTasksChanged then m.tasks.length
    else s.tasks := by
  unfold tell
  cases m.type <;> cases m.response <;> cases m.subtype <;> rfl

theorem tell_busy : (s.tell m).busy = true ↔ s.busy = true ∧ m.type ≠ .result := by
  unfold tell
  cases m.type <;> cases m.response <;> cases m.subtype <;> simp

theorem mem_tell_running (t : String) :
    t ∈ (s.tell m).running ↔
      (m.type = .system ∧ m.subtype = .taskStarted ∧ m.taskID = t) ∨
      (t ∈ s.running ∧ ¬ (m.type = .system ∧ m.subtype = .taskNotification ∧ m.taskID = t)) := by
  unfold tell
  cases m.type <;> cases m.response <;> cases m.subtype <;> simp [eq_comm, and_comm]

theorem mem_tell_toClaude (r : String) :
    r ∈ (s.tell m).toClaude ↔
      r ∈ s.toClaude ∧ ¬ (m.type = .controlResponse ∧ m.response = some r) := by
  unfold tell
  cases m.type <;> cases m.response <;> cases m.subtype <;> simp [eq_comm, and_comm]

theorem mem_tell_toSDK (r : String) :
    r ∈ (s.tell m).toSDK ↔ (m.type = .controlRequest ∧ m.requestID = r) ∨ r ∈ s.toSDK := by
  unfold tell
  cases m.type <;> cases m.response <;> cases m.subtype <;> simp [eq_comm]

theorem mem_tell_swallow (r : String) :
    r ∈ (s.tell m).swallow ↔
      r ∈ s.swallow ∧ ¬ (m.type = .controlResponse ∧ m.response = some r) := by
  unfold tell
  cases m.type <;> cases m.response <;> cases m.subtype <;> simp [eq_comm, and_comm]

end Stream

/-! ### What a restarted Claude is told -/

theorem newest_concat (sub : RequestSubtype) (sent : List Bytes) (line : Bytes) :
    newest json sub (sent ++ [line]) =
      if isSetup json sub line then some line else newest json sub sent := by
  unfold newest
  rw [reverse_append, reverse_singleton, singleton_append, find?_cons]
  cases isSetup json sub line <;> rfl

theorem newest_concat_of_undecoded (hline : json line = none) (sub : RequestSubtype)
    (sent : List Bytes) :
    newest json sub (sent ++ [line]) = newest json sub sent := by
  simp [newest_concat, isSetup, hline]

theorem mem_replays {sent : List Bytes} (h : line ∈ replays json sent) :
    ∃ m, json line = some m ∧ m.type = .controlRequest := by
  obtain ⟨sub, -, hnewest⟩ := mem_filterMap.mp h
  have hsetup := find?_some hnewest
  unfold isSetup at hsetup
  cases hm : json line with
  | none => simp [hm] at hsetup
  | some m =>
    rw [hm] at hsetup
    simp only [Bool.and_eq_true, decide_eq_true_eq] at hsetup
    exact ⟨m, rfl, hsetup.1⟩

/-! ### What the fields mean -/

theorem openRequest_concat {side : Side} {r : String} {e : Wire} :
    OpenRequest side r (w ++ [e]) ↔ Asks side r e ∨
      (OpenRequest side r w ∧ ¬ (Answers side.other r e ∨ Cancels side r e ∨ e = .restart)) :=
  Since.concat

theorem unansweredRequest_concat {side : Side} {r : String} {e : Wire} :
    UnansweredRequest side r (w ++ [e]) ↔ Asks side r e ∨
      (UnansweredRequest side r w ∧ ¬ (Answers side.other r e ∨ e = .restart)) :=
  Since.concat

/-- What each field of the tracker says of the conversation. -/
structure Tracks (json : Bytes → Option Message) (s : Stream) (sent : List Bytes)
    (w : List Wire) : Prop where
  session : s.session ≠ "" ↔ Since NamesSession Inits w
  busy : s.busy = true ↔ Since User Result w
  toClaude : ∀ r, r ∈ s.toClaude ↔ OpenRequest .sdk r w
  -- A request Claude took back stays: only an answer removes it.
  toSDK : ∀ r, r ∈ s.toSDK ↔ UnansweredRequest .claude r w
  tasks : s.tasks ≠ 0 ↔ Since ListsSomeTask (fun e => ListsTasks e ∨ e = .restart) w
  running : ∀ t, t ∈ s.running ↔ Since (Starts t) (fun e => Ends t e ∨ e = .restart) w
  setup : ∀ sub ∈ replayed, s.setup.get sub = newest json sub sent

namespace Tracks

variable {s : Stream} {sent : List Bytes} {w : List Wire}

theorem start : Tracks json newStream [] [] := by
  constructor <;> simp [newStream, OpenRequest, UnansweredRequest, newest]

theorem undecoded (h : Tracks json s sent w) (side : Side) :
    Tracks json s sent (w ++ [.said side none]) where
  session := by
    rw [Since.concat, ← h.session]
    simp [NamesSession, Inits, Sends]
  busy := by
    rw [Since.concat, ← h.busy]
    simp [User, Result, Sends]
  toClaude r := by
    rw [openRequest_concat, ← h.toClaude]
    simp [Asks, Answers, Cancels, Sends]
  toSDK r := by
    rw [unansweredRequest_concat, ← h.toSDK]
    simp [Asks, Answers, Sends]
  tasks := by
    rw [Since.concat, ← h.tasks]
    simp [ListsSomeTask, ListsTasks, Sends]
  running t := by
    rw [Since.concat, ← h.running]
    simp [Starts, Ends, Sends]
  setup := h.setup

theorem hear (h : Tracks json s sent w) {m : Message} (hm : json line = some m) :
    Tracks json (s.hear line m) (sent ++ [line]) (w ++ [.said .sdk (some m)]) where
  session := by
    rw [Since.concat, ← h.session]
    simp [NamesSession, Inits, Sends]
  busy := by
    rw [Since.concat, ← h.busy, Stream.hear_busy]
    simp [User, Result, Sends]
  toClaude r := by
    rw [openRequest_concat, ← h.toClaude, Stream.mem_hear_toClaude]
    simp [Asks, Answers, Cancels, Sends, Side.other]
  toSDK r := by
    rw [unansweredRequest_concat, ← h.toSDK, Stream.mem_hear_toSDK]
    simp [Asks, Answers, Sends, Side.other]
  tasks := by
    rw [Since.concat, ← h.tasks]
    simp [ListsSomeTask, ListsTasks, Sends]
  running t := by
    rw [Since.concat, ← h.running]
    simp [Starts, Ends, Sends]
  setup sub hsub := by
    rw [Stream.hear_setup _ _ _ hsub, newest_concat, h.setup sub hsub]
    simp [isSetup, hm]

theorem tell (h : Tracks json s sent w) (m : Message) :
    Tracks json (s.tell m) sent (w ++ [.said .claude (some m)]) where
  session := by
    rw [Since.concat, ← h.session, Stream.tell_session]
    by_cases hinit : m.type = .system ∧ m.subtype = .init
    · simp [NamesSession, Inits, Sends, hinit]
    · simp only [NamesSession, Inits, Sends, hinit, if_false]
      tauto
  busy := by
    rw [Since.concat, ← h.busy, Stream.tell_busy]
    simp [User, Result, Sends]
  toClaude r := by
    rw [openRequest_concat, ← h.toClaude, Stream.mem_tell_toClaude]
    simp [Asks, Answers, Cancels, Sends, Side.other]
  toSDK r := by
    rw [unansweredRequest_concat, ← h.toSDK, Stream.mem_tell_toSDK]
    simp [Asks, Answers, Sends, Side.other]
  tasks := by
    rw [Since.concat, ← h.tasks, Stream.tell_tasks]
    by_cases hlist : m.type = .system ∧ m.subtype = .backgroundTasksChanged
    · simp [ListsSomeTask, ListsTasks, Sends, hlist]
    · simp only [ListsSomeTask, ListsTasks, Sends, hlist, if_false, reduceCtorEq, or_false]
      tauto
  running t := by
    rw [Since.concat, ← h.running, Stream.mem_tell_running]
    simp [Starts, Ends, Sends]
  setup := by
    rw [Stream.tell_setup]
    exact h.setup

theorem at_time (h : Tracks json s sent w) (now : Time) :
    Tracks json { s with lastLine := now } sent w :=
  ⟨h.session, h.busy, h.toClaude, h.toSDK, h.tasks, h.running, h.setup⟩

theorem In (h : Tracks json s sent w) (now : Time) (line : Bytes) :
    Tracks json (s.In json now line) (sent ++ [line]) (w ++ [.said .sdk (json line)]) := by
  unfold Stream.In
  cases hm : json line with
  | none =>
    have hquiet := (h.at_time now).undecoded .sdk
    exact ⟨hquiet.session, hquiet.busy, hquiet.toClaude, hquiet.toSDK, hquiet.tasks,
      hquiet.running, fun sub hsub => by
        rw [newest_concat_of_undecoded hm]
        exact hquiet.setup sub hsub⟩
  | some m => exact (h.at_time now).hear hm

theorem Out (h : Tracks json s sent w) (now : Time) (line : Bytes) :
    Tracks json (s.Out json now line).1 sent (w ++ [.said .claude (json line)]) := by
  unfold Stream.Out
  cases json line with
  | none => exact (h.at_time now).undecoded .claude
  | some m => exact (h.at_time now).tell m

theorem setupLines (h : Tracks json s sent w) : s.setupLines = replays json sent := by
  unfold Stream.setupLines replays
  exact filterMap_congr h.setup

/-- What passes at a restart. -/
private def restartWire (json : Bytes → Option Message) (sent : List Bytes) : List Wire :=
  (replays json sent).map fun line => .said .sdk (json line)

private theorem since_restart {p q : Wire → Prop} (hp : ¬ p .restart)
    (hq : ∀ m : Message, m.type = .controlRequest → ¬ q (.said .sdk (some m))) :
    Since p q (w ++ [.restart] ++ restartWire json sent) ↔
      (∃ line ∈ replays json sent, p (.said .sdk (json line))) ∨ (Since p q w ∧ ¬ q .restart) := by
  rw [Since.append_of_none, Since.concat]
  · simp [restartWire, hp]
  · intro e he
    obtain ⟨line, hline, rfl⟩ := mem_map.mp he
    obtain ⟨m, hm, htype⟩ := mem_replays hline
    rw [hm]
    exact hq m htype

/-- Nothing Claude says is among what a restart passes, and what it said before is over. -/
private theorem since_restart_claude {P : Message → Prop} {q : Wire → Prop} (hend : q .restart)
    (hq : ∀ m : Message, m.type = .controlRequest → ¬ q (.said .sdk (some m))) :
    ¬ Since (Sends .claude P) q (w ++ [.restart] ++ restartWire json sent) := by
  rw [since_restart (by simp [Sends]) hq]
  rintro (⟨line, -, h⟩ | ⟨-, h⟩)
  · cases hm : json line <;> simp [Sends, hm] at h
  · exact h hend

theorem restart (h : Tracks json s sent w) :
    Tracks json (s.restart json) sent (w ++ [.restart] ++ restartWire json sent) where
  session := by
    rw [since_restart (by simp [NamesSession, Sends]) (by simp [Inits, Sends]), ← h.session]
    have hnone : ¬ ∃ line ∈ replays json sent, NamesSession (.said .sdk (json line)) := by
      rintro ⟨line, -, hname⟩
      cases hm : json line <;> simp [NamesSession, Sends, hm] at hname
    simp [hnone, Inits, Sends, Stream.restart]
  busy := by
    rw [since_restart (by simp [User, Sends]) (by simp [Result, Sends]), ← h.busy]
    have hnone : ¬ ∃ line ∈ replays json sent, User (.said .sdk (json line)) := by
      rintro ⟨line, hline, huser⟩
      obtain ⟨m, hm, htype⟩ := mem_replays hline
      simp [User, Sends, hm, htype] at huser
    simp [hnone, Result, Sends, Stream.restart]
  toClaude r := by
    rw [OpenRequest, since_restart (by simp [Asks, Sends])
      (by intro m hm; simp [Answers, Cancels, Sends, Side.other, hm])]
    simp only [Stream.restart, Stream.requestIDs, h.setupLines, mem_toFinset,
      mem_filterMap, Option.map_eq_some_iff]
    constructor
    · rintro ⟨line, hline, m, hm, rfl⟩
      obtain ⟨m', hm', htype⟩ := mem_replays hline
      cases hm.symm.trans hm'
      exact .inl ⟨line, hline, by simp [Asks, Sends, hm, htype]⟩
    · rintro (⟨line, hline, hasks⟩ | ⟨-, hend⟩)
      · obtain ⟨m, hm, -⟩ := mem_replays hline
        rw [hm] at hasks
        exact ⟨line, hline, m, hm, hasks.2.2⟩
      · simp at hend
  toSDK r := by
    simp only [Stream.restart, Finset.notMem_empty, false_iff]
    exact since_restart_claude (.inr rfl) fun m hm => by simp [Answers, Sends, Side.other, hm]
  tasks := by
    simp only [Stream.restart, ne_eq, not_true, false_iff]
    exact since_restart_claude (.inr rfl) fun m _ => by simp [ListsTasks, Sends]
  running t := by
    simp only [Stream.restart, Finset.notMem_empty, false_iff]
    exact since_restart_claude (.inr rfl) fun m _ => by simp [Ends, Sends]
  setup := h.setup

end Tracks

/-! ### A whole conversation -/

theorem sentLines_concat (l : List Said) (e : Said) :
    sentLines (l ++ [e]) = sentLines l ++ sentLines [e] := by
  simp [sentLines]

theorem wire_concat (sent : List Bytes) (l : List Said) (e : Said) :
    wire json sent (l ++ [e]) = wire json sent l ++ wire json (sent ++ sentLines l) [e] := by
  induction l generalizing sent with
  | nil => simp [wire, sentLines]
  | cons d l ih => cases d <;> simp [wire, ih, sentLines]

/-- **The tracker's fields mean what they are for**, after any conversation. -/
theorem track_tracks (json : Bytes → Option Message) (l : List Said) :
    Tracks json (track json l) (sentLines l) (wire json [] l) := by
  induction l using List.reverseRecOn with
  | nil => exact Tracks.start
  | append_singleton l e ih =>
    rw [wire_concat, sentLines_concat, track, foldl_append]
    cases e with
    | sdk now line => exact ih.In now line
    | claude now line =>
      rw [show sentLines [Said.claude now line] = [] from rfl, append_nil]
      exact ih.Out now line
    | restart =>
      rw [show sentLines [Said.restart] = [] from rfl, append_nil]
      show Tracks json (Stream.restart json (track json l)) _ _
      simpa [wire, Tracks.restartWire] using ih.restart

theorem Stream.idle_eq_true (s : Stream) :
    s.idle = true ↔ s.session ≠ "" ∧ ¬ s.busy = true ∧ (∀ r, r ∉ s.toClaude) ∧
      (∀ r, r ∉ s.toSDK) ∧ ¬ s.tasks ≠ 0 ∧ ∀ t, t ∉ s.running := by
  simp only [Stream.idle, Bool.and_eq_true, bne_iff_ne, Bool.not_eq_true', decide_eq_true_eq,
    beq_iff_eq, Finset.eq_empty_iff_forall_notMem, Bool.not_eq_true, not_not, and_assoc]

theorem unanswered_of_open {r : String} (h : OpenRequest .claude r w) :
    UnansweredRequest .claude r w := by
  refine h.mono (fun e he => he) ?_
  rintro e (hanswer | hrestart)
  · exact .inl hanswer
  · exact .inr (.inr hrestart)

/-- What the tracker takes for idle: nothing occupies the Claude that runs, and every request
it made was answered. -/
theorem idle_iff (json : Bytes → Option Message) (l : List Said) :
    (track json l).idle = true ↔
      ¬ Occupied (wire json [] l) ∧ ¬ Unanswered (wire json [] l) := by
  have h := track_tracks json l
  rw [Stream.idle_eq_true, h.session, h.busy, h.tasks]
  simp only [h.toClaude, h.toSDK, h.running]
  constructor
  · rintro ⟨hsession, hbusy, hsdk, hclaude, htasks, hrunning⟩
    refine ⟨?_, fun ⟨r, hr⟩ => hclaude r hr⟩
    rintro (hno | huser | ⟨side, r, hopen⟩ | hlist | ⟨t, ht⟩)
    · exact hno hsession
    · exact hbusy huser
    · cases side with
      | sdk => exact hsdk r hopen
      | claude => exact hclaude r (unanswered_of_open hopen)
    · exact htasks hlist
    · exact hrunning t ht
  · rintro ⟨hfree, hanswered⟩
    unfold Occupied at hfree
    push Not at hfree
    obtain ⟨hsession, hbusy, hopen, htasks, hrunning⟩ := hfree
    exact ⟨hsession, hbusy, hopen .sdk, fun r hr => hanswered ⟨r, hr⟩, htasks, hrunning⟩

/-- What it is to have nothing to do: nothing occupies the Claude that runs, and no task is
left of it or of those before it. -/
theorem nothingToDo_iff (w : List Wire) : NothingToDo w ↔ ¬ Occupied w ∧ ¬ TaskLeft w := by
  constructor
  · intro h
    refine ⟨?_, ?_⟩
    · rintro (hno | huser | ⟨side, r, hopen⟩ | hlist | ⟨t, ht⟩)
      · exact hno h.session
      · exact h.turn huser
      · exact h.requests side r hopen
      · exact h.listed (hlist.mono (fun e he => he) fun e he => .inl he)
      · exact h.started t (ht.mono (fun e he => he) fun e he => .inl he)
    · rintro (hlist | ⟨t, ht⟩)
      · exact h.listed hlist
      · exact h.started t ht
  · rintro ⟨hfree, hleft⟩
    unfold Occupied at hfree
    push Not at hfree
    obtain ⟨hsession, hbusy, hopen, -, -⟩ := hfree
    exact ⟨hsession, hbusy, hopen, fun h => hleft (.inl h), fun t ht => hleft (.inr ⟨t, ht⟩)⟩

/-- **The tracker takes Claude for idle exactly when it has nothing to do**, in the
conversations where that Claude is occupied anyway, or where it has an unanswered request
exactly if a task is left.  The first without the second is a request that Claude took back:
it keeps the box awake until the SDK answers it.  The second without the first is a task of a
Claude that was stopped. -/
theorem idleSince_exact_iff (json : Bytes → Option Message) (l : List Said) :
    ((track json l).idleSince.isSome = true ↔ NothingToDo (wire json [] l)) ↔
      Occupied (wire json [] l) ∨ (Unanswered (wire json [] l) ↔ TaskLeft (wire json [] l)) := by
  have hsome : (track json l).idleSince.isSome = (track json l).idle := by
    unfold Stream.idleSince
    cases (track json l).idle <;> rfl
  rw [hsome, idle_iff, nothingToDo_iff]
  by_cases hocc : Occupied (wire json [] l)
  · simp [hocc]
  · simp only [hocc, not_false_iff, true_and, false_or]
    exact not_iff_not

/-- Three lines of Claude's: its session, a request, and the request taken back. -/
def sampleLines : Bytes → Option Message
  | [0] => some { type := .system, subtype := .init, sessionID := "s" }
  | [1] => some { type := .controlRequest, requestID := "r" }
  | [2] => some { type := .controlCancelRequest, requestID := "r" }
  | _ => none

/-- Claude asks the SDK for a permission and takes the question back: it has nothing to do,
and the tracker never says so. -/
theorem cancelled_request_keeps_awake :
    let l := [Said.claude 0 [0], .claude 1 [1], .claude 2 [2]]
    NothingToDo (wire sampleLines [] l) ∧ (track sampleLines l).idleSince = none := by
  refine ⟨⟨?_, ?_, ?_, ?_, ?_⟩, by decide⟩
  · simp [wire, Since.cons, NamesSession, Inits, Sends, sampleLines]
  · simp [wire, Since.cons, User, Sends, sampleLines]
  · intro side r
    simp [wire, OpenRequest, Since.cons, Asks, Answers, Cancels, Sends, sampleLines]
  · simp [wire, Since.cons, ListsSomeTask, Sends, sampleLines]
  · simp [wire, Since.cons, Starts, Sends, sampleLines]

end Fern
