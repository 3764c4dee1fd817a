/-
The port of the box that a preview's request goes to.

A port that the host names is checked against the port of fern-init, the box's own endpoints; the
port of a service in the environment's `services.yaml`, which its agent writes, only against the
range of ports.
-/
import Fern.Preview.Serve

namespace Fern

variable {port : Int}

namespace Preview

variable {s : Server} {hostport : List Char}

theorem portOf_bounds {label rest : List Char} (h : portOf label = .ok (port, rest))
    (hport : port ≠ 0) : 1 ≤ port ∧ port ≤ 65535 ∧ port ≠ execPort := by
  have hzero : ∀ {rest'}, (Except.ok (0, rest') : Except Unit _) = .ok (port, rest) → False := by
    intro rest' heq
    exact hport (Prod.mk.inj (Except.ok.inj heq)).1.symm
  unfold portOf at h
  split at h
  case h_2 => exact (hzero h).elim
  case h_1 =>
    split at h
    case isTrue => exact (hzero h).elim
    case isFalse =>
      split at h
      case h_2 => exact (hzero h).elim
      case h_1 n _ =>
        split at h
        case isTrue => exact (hzero h).elim
        case isFalse =>
          split at h
          case isTrue => cases h
          case isFalse hn =>
            obtain ⟨rfl, -⟩ := Prod.mk.inj (Except.ok.inj h)
            rw [not_or, not_or] at hn
            exact ⟨by omega, by omega, hn.2.2⟩

theorem route_bounds {id : EnvID} (h : route s hostport = some (id, port)) (hport : port ≠ 0) :
    1 ≤ port ∧ port ≤ 65535 ∧ port ≠ execPort := by
  unfold route at h
  dsimp only at h
  split at h
  case h_1 => cases h
  case h_2 =>
    split at h
    case isTrue => cases h
    case isFalse =>
      split at h
      case h_1 => cases h
      case h_2 hlabel =>
        split at h
        case isTrue =>
          obtain ⟨-, rfl⟩ := Prod.mk.inj (Option.some.inj h)
          exact portOf_bounds hlabel hport
        case isFalse => cases h

theorem previewPort_bounds {d : Setup.Decoders} {read : Setup.Text → Except Setup.ReadErr Bytes}
    (h : Setup.previewPort d read = .ok port) (hport : port ≠ 0) :
    1 ≤ port ∧ port ≤ 65535 := by
  unfold Setup.previewPort at h
  split at h
  case h_1 => cases h
  case h_2 => exact absurd (Except.ok.inj h).symm hport
  case h_3 =>
    split at h
    case h_1 => cases h
    case h_2 ports _ =>
      have hport' := Except.ok.inj h
      cases hfind : (Setup.sortTexts ports.keys).findSome? fun name =>
          (ports.get name).filter fun p => 0 < p && p ≤ 65535 with
      | none =>
        rw [hfind] at hport'
        exact absurd hport'.symm hport
      | some p =>
        rw [hfind] at hport'
        obtain rfl : p = port := hport'
        obtain ⟨name, -, hname⟩ := List.exists_of_findSome?_eq_some hfind
        have hp := (Option.filter_eq_some_iff.mp hname).2
        simp only [Bool.and_eq_true, decide_eq_true_eq] at hp
        omega

theorem defaultPort_bounds {id : EnvID} (h : defaultPort s id = some port) (hport : port ≠ 0) :
    1 ≤ port ∧ port ≤ 65535 := by
  obtain ⟨ws, -, h⟩ := Option.bind_eq_some_iff.mp h
  split at h
  case h_1 port' heq =>
    cases h
    exact previewPort_bounds heq hport
  case h_2 => cases h

/-- How a request comes to be forwarded: to the port its host names, or to the default
preview's. -/
theorem serveHTTP_eq_forwarded {boxHost : List Char} :
    serveHTTP s hostport = .forwarded boxHost port ↔
      port ≠ 0 ∧ ∃ id, (s.wake id).bind s.splitHost = some boxHost ∧
        (route s hostport = some (id, port) ∨
          route s hostport = some (id, 0) ∧ defaultPort s id = some port) := by
  have hforward : ∀ {id port'}, forward s id port' = .forwarded boxHost port ↔
      (s.wake id).bind s.splitHost = some boxHost ∧ port' = port := by
    intro id port'
    unfold forward
    split
    case h_1 boxHost' hwake => simp [hwake]
    case h_2 hwake => simp [hwake]
  unfold serveHTTP
  split
  case h_1 hroute => simp [hroute]
  case h_2 id port' hroute =>
    split
    case isTrue hzero =>
      subst hzero
      split
      case h_1 hnone =>
        simp only [reduceCtorEq, false_iff, not_and, not_exists]
        rintro hport id' - (h | ⟨h, hsome⟩)
        · rw [hroute] at h
          exact hport (Prod.mk.inj (Option.some.inj h)).2.symm
        · rw [hroute] at h
          obtain ⟨rfl, -⟩ := Prod.mk.inj (Option.some.inj h)
          rw [hnone] at hsome
          cases hsome
      case h_2 port' hsome =>
        split
        case isTrue hzero =>
          subst hzero
          simp only [reduceCtorEq, false_iff, not_and, not_exists]
          rintro hport id' - (h | ⟨h, hsome'⟩)
          · rw [hroute] at h
            exact hport (Prod.mk.inj (Option.some.inj h)).2.symm
          · rw [hroute] at h
            obtain ⟨rfl, -⟩ := Prod.mk.inj (Option.some.inj h)
            rw [hsome] at hsome'
            exact hport (Option.some.inj hsome').symm
        case isFalse hzero =>
          rw [hforward]
          constructor
          · rintro ⟨hwake, rfl⟩
            exact ⟨hzero, id, hwake, .inr ⟨hroute, hsome⟩⟩
          · rintro ⟨hport, id', hwake, h | ⟨h, hsome'⟩⟩
            · rw [hroute] at h
              exact absurd (Prod.mk.inj (Option.some.inj h)).2.symm hport
            · rw [hroute] at h
              obtain ⟨rfl, -⟩ := Prod.mk.inj (Option.some.inj h)
              exact ⟨hwake, Option.some.inj (hsome.symm.trans hsome')⟩
    case isFalse hzero =>
      rw [hforward]
      constructor
      · rintro ⟨hwake, rfl⟩
        exact ⟨hzero, id, hwake, .inl hroute⟩
      · rintro ⟨hport, id', hwake, h | ⟨h, -⟩⟩
        · rw [hroute] at h
          obtain ⟨rfl, rfl⟩ := Prod.mk.inj (Option.some.inj h)
          exact ⟨hwake, rfl⟩
        · rw [hroute] at h
          exact absurd (Prod.mk.inj (Option.some.inj h)).2 hzero

/-- **A preview goes to a port that isn't fern-init's, exactly if it doesn't go to a default preview
at that port.** -/
theorem preview_port_iff (s : Server) (hostport : List Char) :
    (∀ boxHost port, serveHTTP s hostport = .forwarded boxHost port →
      1 ≤ port ∧ port ≤ 65535 ∧ port ≠ execPort) ↔
    ∀ id, route s hostport = some (id, 0) → ((s.wake id).bind s.splitHost).isSome →
      defaultPort s id ≠ some execPort := by
  constructor
  · intro h id hroute hwake hdefault
    obtain ⟨boxHost, hwake⟩ := Option.isSome_iff_exists.mp hwake
    have hserved : serveHTTP s hostport = .forwarded boxHost execPort :=
      serveHTTP_eq_forwarded.mpr ⟨by decide, id, hwake, .inr ⟨hroute, hdefault⟩⟩
    exact (h boxHost execPort hserved).2.2 rfl
  · intro h boxHost port hserved
    obtain ⟨hport, id, hwake, hroute | ⟨hroute, hdefault⟩⟩ := serveHTTP_eq_forwarded.mp hserved
    · exact route_bounds hroute hport
    · obtain ⟨hlow, hhigh⟩ := defaultPort_bounds hdefault hport
      refine ⟨hlow, hhigh, ?_⟩
      rintro rfl
      exact h id hroute (by rw [hwake]; rfl) hdefault

/-- An environment whose `services.yaml` has a service at fern-init's port. -/
def servesExecPort : Server where
  host := "localhost".toList
  splitHost l := if ':' ∈ l then some (l.takeWhile (· ≠ ':')) else none
  lower := id
  decoders :=
    { package := fun _ => .error []
      compose := fun _ => .error []
      inputs := fun _ => .ok []
      ports := fun data =>
        if data = lit "services: {web: {port: 7070}}" then .ok (FinMap.empty.set (lit "web") 7070)
        else .error []
      clean := id
      isLocal := fun _ => true
      trimSpace := id
      quote := id
      quoted := id }
  workspace id :=
    if id = "demo" then
      some
        { openFile := fun p =>
            if 0 ∈ p then .error (.other (lit "invalid argument"))
            else if p = lit "services.yaml"
              then .ok (.regular (lit "services: {web: {port: 7070}}"))
            else .error .notExist
          lstat := fun p => p = lit "services.yaml"
          nul := fun p hp => by simp [hp] }
    else none
  wake _ := some "10.89.0.2:7070".toList

/-- Its default preview is fern-init itself. -/
theorem default_preview_reaches_init :
    serveHTTP servesExecPort "demo.localhost".toList =
      .forwarded "10.89.0.2".toList execPort := by
  decide

end Preview

end Fern
