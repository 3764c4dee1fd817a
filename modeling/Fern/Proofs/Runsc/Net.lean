/-
Two boxes' networks never share a /30.

A number is taken from the moment `net` is written, under the lock, until the file is removed with
the directory.  What has to be kept is that a network never outlives its file: `Fine` says what is
there of a box at each step of its operation, `Sees` what an allocation that reads the files knows
of the numbers the other boxes claim.
-/
import Fern.Runsc.Net

namespace Fern

variable {n : Nat}

namespace Runsc

/-! ### Addresses -/

theorem ip_value (x : UInt32) : (ip x).value = x.toNat := by
  have hx := x.toNat_lt
  simp only [ip, Addr.value, UInt32.toNat_toUInt8, UInt32.toNat_shiftRight,
    Nat.shiftRight_eq_div_pow]
  simp only [UInt32.reduceToNat, Nat.reduceMod, Nat.reducePow]
  omega

theorem addrs_value (hn : n < maxBoxes) :
    ∃ host guest, addrs n = .ok (host, guest) ∧ host.value = boxNet.value + 4 * n + 1 ∧
      guest.value = boxNet.value + 4 * n + 2 := by
  have hn' : n < 16384 := hn
  have hoff : (UInt32.ofNat n * 4).toNat = 4 * n := by
    have hofNat : (UInt32.ofNat n).toNat = n :=
      UInt32.toNat_ofNat_of_lt' (by simp only [UInt32.size]; omega)
    rw [UInt32.toNat_mul, hofNat]
    simp only [UInt32.reduceToNat]
    omega
  -- the number is in the lower 16 bits, the network in the upper
  have hbase : (boxNet.a.toUInt32 <<< 24 ||| boxNet.b.toUInt32 <<< 16).toNat = 2 ^ 16 * 2649 := by
    decide
  have hv : (boxNet.a.toUInt32 <<< 24 ||| boxNet.b.toUInt32 <<< 16 ||| UInt32.ofNat n * 4).toNat =
      boxNet.value + 4 * n := by
    rw [UInt32.toNat_or, hbase, hoff, ← Nat.two_pow_add_eq_or_of_lt (by omega)]
    rfl
  have hlt : boxNet.value + 4 * n + 2 < 2 ^ 32 := by
    have : boxNet.value = 173604864 := rfl
    omega
  have hrange : ¬ ((n : Int) < 0 ∨ (n : Int) ≥ maxBoxes) := by
    rintro (h | h)
    · omega
    · omega
  unfold addrs
  rw [if_neg hrange]
  refine ⟨_, _, rfl, ?_, ?_⟩
  · rw [ip_value, UInt32.toNat_add, Int.toNat_natCast, hv]
    exact Nat.mod_eq_of_lt (by simp only [UInt32.reduceToNat]; omega)
  · rw [ip_value, UInt32.toNat_add, Int.toNat_natCast, hv]
    exact Nat.mod_eq_of_lt (by simp only [UInt32.reduceToNat]; omega)

theorem not_mem_of_lowestFrom {taken : List Nat} {k m : Nat} (h : lowestFrom taken k n = some m) :
    m ∉ taken := by
  induction k generalizing n with
  | zero => cases h
  | succ k ih =>
    unfold lowestFrom at h
    split at h
    case isTrue => exact ih h
    case isFalse hfree =>
      cases h
      exact hfree

/-! ### Networks -/

variable {N : Network} {n : Nat}

/-- The addresses of the network are those of /30 number `n`. -/
def Network.Only (N : Network) (n : Nat) : Prop :=
  (∀ m, N.host = some m → m = n) ∧ ∀ m, N.guest = some m → m = n

/-- A command that adds addresses adds those of /30 number `n`. -/
def Up.Only (n : Nat) : Up → Prop
  | .addHost m _ | .addGuest m => m = n
  | _ => True

theorem netUp_only {kind : Kind} {cmds : List Up} (h : netUp kind n = .ok cmds) :
    ∀ c ∈ cmds, c.Only n := by
  unfold netUp at h
  split at h
  · cases h
  · cases h
    simp [Up.Only]

theorem Up.run_only {N' : Network} {c : Up} (h : c.run N = some N') (hN : N.Only n)
    (hc : c.Only n) : N'.Only n := by
  cases c with
  | addNetns | addLink | linkUp | guestUp | loUp | addRoute =>
    dsimp only [Up.run] at h
    split at h
    all_goals cases h
    all_goals exact hN
  | addHost m =>
    dsimp only [Up.run] at h
    split at h
    · cases h
      exact ⟨fun x hx => (Option.some.inj hx).symm.trans hc, hN.2⟩
    · cases h
  | addGuest m =>
    dsimp only [Up.run] at h
    split at h
    · cases h
      exact ⟨hN.1, fun x hx => (Option.some.inj hx).symm.trans hc⟩
    · cases h

theorem netDown_run (N : Network) : netDown.foldl Down.run N = {} := rfl

theorem Down.run_only {c : Down} (h : (c.run N).Exists) (hN : N.Only n) :
    N.Exists ∧ (c.run N).Only n := by
  cases c with
  | delLink kind =>
    dsimp only [Down.run] at h ⊢
    split at h
    case isTrue hveth =>
      refine ⟨fun hnone => ?_, ?_⟩
      · rw [hnone] at hveth
        cases hveth
      · rw [if_pos hveth]
        exact ⟨fun m hm => (by cases hm), fun m hm => (by cases hm)⟩
    case isFalse hveth =>
      rw [if_neg hveth]
      exact ⟨h, hN⟩
  | delNetns => exact absurd rfl h

/-! ### What is there of a box

A number is claimed by a network that is there or being made, and by the file as long as the network
may be; so whoever reads the files under the lock sees every claim. -/

variable {Id : Type}

/-- A network has its number in the file. -/
def Kept (N : Network) (f : Option (Option Nat)) : Prop :=
  N.Exists → ∃ n, f = some (some n) ∧ N.Only n

/-- What is there of a box, by where its operation is. -/
def Fine : Pc Id → Network → Option (Option Nat) → Prop
  | .idle, N, f | .stopping _, N, f => Kept N f
  | .unlinking _ cmds, N, f => Kept N f ∧ cmds.foldl Down.run N = {}
  | .raising n cmds, N, f => f = some (some n) ∧ N.Only n ∧ ∀ c ∈ cmds, c.Only n
  | .removing _, N, _ | .removed _, N, _ | .entering _, N, _ | .scanning .., N, _
  | .writing .., N, _ => N = {}

theorem Fine.kept {pc : Pc Id} {f : Option (Option Nat)} (h : Fine pc N f) : Kept N f := by
  cases pc with
  | idle | stopping => exact h
  | unlinking => exact h.1
  | raising n cmds => exact fun _ => ⟨n, h.1, h.2.1⟩
  | removing | removed | entering | scanning | writing => exact fun hN => absurd h hN

/-- A box claims a number: its network is there, or being made, with the number in its file. -/
def Claim (pc : Pc Id) (N : Network) (f : Option (Option Nat)) (n : Nat) : Prop :=
  (∃ cmds, pc = .raising n cmds) ∨ N.Exists ∧ f = some (some n)

/-- The operation is in `allocate`, under the lock. -/
def Pc.Locked : Pc Id → Prop
  | .scanning .. | .writing .. => True
  | _ => False

/-- What an allocation knows of the numbers that boxes claim. -/
def Sees (claims : Id → Nat → Prop) : Pc Id → Prop
  | .scanning _ files taken => ∀ c n, claims c n → c ∈ files ∨ n ∈ taken
  | .writing _ n => ∀ c, ¬ claims c n
  | _ => True

theorem Sees.mono {P Q : Id → Nat → Prop} {pc : Pc Id} (h : Sees Q pc)
    (hPQ : pc.Locked → ∀ c n, P c n → Q c n) : Sees P pc := by
  cases pc with
  | scanning kind files taken => exact fun c n hc => h c n (hPQ trivial c n hc)
  | writing kind n => exact fun c hc => h c (hPQ trivial c n hc)
  | idle | stopping | unlinking | removing | removed | entering | raising => trivial

end Runsc

open Runsc

namespace Boxes

variable {Id : Type} [DecidableEq Id] {s s' : Boxes Id} {b : Id}

def Claims (s : Boxes Id) (b : Id) (n : Nat) : Prop :=
  Claim (s.op b) (s.network b) (s.net.get b) n

/-- What holds of a node on which every `ip` of a stop ran to its end. -/
structure Inv (s : Boxes Id) : Prop where
  fine : ∀ b, Fine (s.op b) (s.network b) (s.net.get b)
  locks : ∀ b, (s.op b).Locked → s.lock = some b
  apart : ∀ b c n, s.Claims b n → s.Claims c n → b = c
  sees : ∀ b, Sees s.Claims (s.op b)

/-! ### One step changes one box -/

@[simp] theorem op_goto (pc : Pc Id) (c : Id) :
    (s.goto b pc).op c = if c = b then pc else s.op c := by
  simp [goto, Function.update_apply]

theorem op_goto_self (pc : Pc Id) : (s.goto b pc).op b = pc := by simp

/-- The rest of a node is as it was. -/
def Frame (b : Id) (s s' : Boxes Id) : Prop :=
  ∀ c, c ≠ b → s'.op c = s.op c ∧ s'.network c = s.network c ∧ s'.net.get c = s.net.get c

/-- A step keeps the invariant where its box is as it should be, and claims no number that another
claims. -/
theorem Inv.change (h : Inv s) (hframe : Frame b s s')
    (hfine : Fine (s'.op b) (s'.network b) (s'.net.get b))
    (hlocks : ∀ c, (s'.op c).Locked → s'.lock = some c)
    (hclaim : ∀ n, s'.Claims b n → s.Claims b n ∨ (s.op b).Locked ∧ ∀ c, ¬ s.Claims c n)
    (hsees : Sees s'.Claims (s'.op b)) : Inv s' := by
  have hother : ∀ {c n}, c ≠ b → s'.Claims c n → s.Claims c n := by
    intro c n hc hclaims
    obtain ⟨hop, hnetwork, hnet⟩ := hframe c hc
    unfold Claims at hclaims
    rwa [hop, hnetwork, hnet] at hclaims
  have hnew : ∀ {c n}, c ≠ b → s'.Claims b n → s'.Claims c n → False := by
    intro c n hc hb hclaims
    rcases hclaim n hb with hold | ⟨-, hnone⟩
    · exact hc (h.apart c b n (hother hc hclaims) hold)
    · exact hnone c (hother hc hclaims)
  refine ⟨fun c => ?_, hlocks, fun c d n hcn hdn => ?_, fun c => ?_⟩
  · by_cases hc : c = b
    · rw [hc]
      exact hfine
    · obtain ⟨hop, hnetwork, hnet⟩ := hframe c hc
      rw [hop, hnetwork, hnet]
      exact h.fine c
  · by_cases hc : c = b
    · by_cases hd : d = b
      · rw [hc, hd]
      · exact (hnew hd (hc ▸ hcn) hdn).elim
    · by_cases hd : d = b
      · exact (hnew hc (hd ▸ hdn) hcn).elim
      · exact h.apart c d n (hother hc hcn) (hother hd hdn)
  · by_cases hc : c = b
    · rw [hc]
      exact hsees
    · rw [(hframe c hc).1]
      refine (h.sees c).mono fun hlocked d n hdn => ?_
      by_cases hd : d = b
      · -- who has the lock is alone to claim another number
        rw [hd] at hdn ⊢
        rcases hclaim n hdn with hold | ⟨hb, -⟩
        · exact hold
        · exact absurd (Option.some.inj ((h.locks c hlocked).symm.trans (h.locks b hb))) hc
      · exact hother hd hdn

theorem Inv.locks_of_same (h : Inv s) (hframe : Frame b s s') (hlock : s'.lock = s.lock)
    (hb : (s'.op b).Locked → (s.op b).Locked) : ∀ c, (s'.op c).Locked → s'.lock = some c := by
  intro c hlocked
  rw [hlock]
  by_cases hc : c = b
  · rw [hc] at hlocked ⊢
    exact h.locks b (hb hlocked)
  · rw [(hframe c hc).1] at hlocked
    exact h.locks c hlocked

theorem Inv.locks_of_unlock (h : Inv s) (hframe : Frame b s s') (hlocked : (s.op b).Locked)
    (hb : ¬ (s'.op b).Locked) : ∀ c, (s'.op c).Locked → s'.lock = some c := by
  intro c hc
  by_cases hne : c = b
  · exact absurd (hne ▸ hc) hb
  · rw [(hframe c hne).1] at hc
    exact absurd (Option.some.inj ((h.locks c hc).symm.trans (h.locks b hlocked))) hne

/-! ### Every step keeps the invariant -/

/-- A step after which the operation isn't in `allocate`, and the box claims no more than before. -/
theorem Inv.ends (h : Inv s) (hframe : Frame b s s')
    (hlocks : ∀ c, (s'.op c).Locked → s'.lock = some c) {pc : Pc Id} (hop : s'.op b = pc)
    (hpc : ¬ pc.Locked) (hfine : Fine pc (s'.network b) (s'.net.get b))
    (hclaim : ∀ n, Claim pc (s'.network b) (s'.net.get b) n → s.Claims b n) : Inv s' := by
  subst hop
  refine h.change hframe hfine hlocks (fun n hn => .inl (hclaim n hn)) ?_
  cases hop : s'.op b with
  | scanning | writing => exact absurd (by rw [hop]; trivial) hpc
  | idle | stopping | unlinking | removing | removed | entering | raising => trivial

theorem Inv.goto (h : Inv s) (b : Id) (pc : Pc Id) (hpc : ¬ pc.Locked)
    (hfine : Fine pc (s.network b) (s.net.get b))
    (hraising : ∀ n cmds, pc = .raising n cmds → ∃ cmds, s.op b = .raising n cmds) :
    Inv (s.goto b pc) := by
  have hframe : Frame b s (s.goto b pc) := fun c hc => by simp [Boxes.goto, hc]
  refine h.ends hframe (h.locks_of_same hframe rfl ?_) (op_goto_self _) hpc hfine fun n hn => ?_
  · simp [hpc]
  · rcases hn with ⟨cmds, hn⟩ | hn
    · exact .inl (hraising n cmds hn)
    · exact .inr hn

theorem Inv.quit (h : Inv s) (b : Id) : Inv (s.quit b) :=
  h.goto b .idle (fun hlocked => hlocked) (h.fine b).kept (by simp)

theorem Inv.unlock (h : Inv s) (hlocked : (s.op b).Locked) (hframe : Frame b s s')
    (hop : s'.op b = .idle) (hnetwork : s'.network b = s.network b) : Inv s' := by
  have hnone : s'.network b = {} := by
    rw [hnetwork]
    have hfine := h.fine b
    cases hpc : s.op b with
    | scanning | writing => rwa [hpc] at hfine
    | idle | stopping | unlinking | removing | removed | entering | raising =>
      rw [hpc] at hlocked
      exact hlocked.elim
  refine h.ends hframe (h.locks_of_unlock hframe hlocked (by simp [hop, Pc.Locked])) hop
    (by simp [Pc.Locked]) (fun hN => absurd hnone hN) fun n hn => ?_
  rcases hn with ⟨cmds, hn⟩ | hn
  · cases hn
  · exact absurd hnone hn.1

theorem Inv.unlinks (h : Inv s) {wake : Option Kind} {c : Down} {cmds : List Down}
    (hpc : s.op b = .unlinking wake (c :: cmds)) :
    Inv ((s.setNetwork b (c.run (s.network b))).goto b (.unlinking wake cmds)) := by
  have hframe : Frame b s ((s.setNetwork b (c.run (s.network b))).goto b (.unlinking wake cmds)) :=
    fun c hc => by simp [Boxes.goto, setNetwork, hc]
  have hfine := h.fine b
  rw [hpc] at hfine
  have hkept : (c.run (s.network b)).Exists → (s.network b).Exists ∧
      ∃ n, s.net.get b = some (some n) ∧ (c.run (s.network b)).Only n := by
    intro hN
    have hb : (s.network b).Exists := by
      intro hnone
      rw [hnone] at hN
      cases c with
      | delLink kind => exact hN rfl
      | delNetns => exact hN rfl
    obtain ⟨n, hnet, honly⟩ := hfine.1 hb
    exact ⟨hb, n, hnet, (Down.run_only hN honly).2⟩
  refine h.ends hframe (h.locks_of_same hframe rfl ?_) (op_goto_self _) (fun hlocked => hlocked) ?_
    fun n hn => ?_
  · simp [Pc.Locked]
  · simp only [Boxes.goto, setNetwork, Function.update_self]
    exact ⟨fun hN => (hkept hN).2, hfine.2⟩
  · simp only [Boxes.goto, setNetwork, Function.update_self] at hn
    rcases hn with ⟨_, hn⟩ | ⟨hN, hn⟩
    · cases hn
    · exact .inr ⟨(hkept hN).1, hn⟩

theorem Inv.removes (h : Inv s) {wake : Option Kind} (hpc : s.op b = .removing wake) :
    Inv ({ s with net := s.net.erase b }.goto b (.removed wake)) := by
  have hframe : Frame b s ({ s with net := s.net.erase b }.goto b (.removed wake)) :=
    fun c hc => by simp [Boxes.goto, hc]
  have hfine : s.network b = {} := by simpa [hpc, Fine] using h.fine b
  refine h.ends hframe (h.locks_of_same hframe rfl ?_) (op_goto_self _)
    (fun hlocked => hlocked) hfine
    fun n hn => ?_
  · simp [Pc.Locked]
  · rcases hn with ⟨_, hn⟩ | ⟨hN, hn⟩
    · cases hn
    · exact absurd hfine hN

omit [DecidableEq Id] in
theorem not_claim {pc : Pc Id} {f : Option (Option Nat)} (hpc : pc.Locked) :
    ¬ Claim pc {} f n := by
  rintro (⟨cmds, rfl⟩ | ⟨hN, -⟩)
  · exact hpc
  · exact hN rfl

theorem Inv.allocates (h : Inv s) (hframe : Frame b s s') {pc : Pc Id} (hop : s'.op b = pc)
    (hpc : pc.Locked) (hnetwork : s'.network b = {}) (hlock : s'.lock = some b)
    (hfree : s.lock = none ∨ s.lock = some b) (hsees : Sees s.Claims pc) : Inv s' := by
  have hclaims : ∀ c n, s'.Claims c n → s.Claims c n := by
    intro c n hc
    by_cases hb : c = b
    · subst hb
      unfold Claims at hc
      rw [hop, hnetwork] at hc
      exact absurd hc (not_claim hpc)
    · obtain ⟨hop, hnetwork, hnet⟩ := hframe c hb
      unfold Claims at hc
      rwa [hop, hnetwork, hnet] at hc
  refine h.change hframe ?_ (fun c hc => ?_) (fun n hn => .inl (hclaims b n hn)) ?_
  · rw [hop, hnetwork]
    cases pc with
    | scanning | writing => rfl
    | idle | stopping | unlinking | removing | removed | entering | raising => exact hpc.elim
  · by_cases hb : c = b
    · rw [hlock, hb]
    · rw [(hframe c hb).1] at hc
      have hc := h.locks c hc
      rcases hfree with hnone | hself
      · rw [hnone] at hc
        cases hc
      · exact absurd (Option.some.inj (hc.symm.trans hself)) hb
  · rw [hop]
    exact hsees.mono fun _ => hclaims

theorem Inv.writes (h : Inv s) {kind : Kind} (hpc : s.op b = .writing kind n) {cmds : List Up}
    (hcmds : ∀ c ∈ cmds, c.Only n) :
    Inv ({ s with net := s.net.set b (some n) }.unlock.goto b (.raising n cmds)) := by
  have hframe : Frame b s ({ s with net := s.net.set b (some n) }.unlock.goto b
    (.raising n cmds)) :=
    fun c hc => by simp [Boxes.goto, Boxes.unlock, hc]
  have hlocked : (s.op b).Locked := by rw [hpc]; trivial
  have hfine : s.network b = {} := by simpa [hpc, Fine] using h.fine b
  have hsees : ∀ c, ¬ s.Claims c n := by simpa [hpc, Sees] using h.sees b
  refine h.change hframe ?_ (h.locks_of_unlock hframe hlocked ?_) (fun m hm => ?_) ?_
  · simp only [Boxes.goto, Boxes.unlock, Function.update_self, FinMap.get_set, if_true]
    exact ⟨rfl, by simp [hfine, Network.Only], hcmds⟩
  · simp [Pc.Locked]
  · -- it claims the number it has written, and no other
    have hmn : m = n := by
      rcases hm with ⟨cmds, hm⟩ | ⟨hN, -⟩
      · simp only [op_goto, if_true, Pc.raising.injEq] at hm
        exact hm.1.symm
      · exact absurd hfine hN
    rw [hmn]
    exact .inr ⟨hlocked, hsees⟩
  · simp [Sees]

theorem Inv.raises (h : Inv s) {c : Up} {cmds : List Up} {N : Network}
    (hpc : s.op b = .raising n (c :: cmds)) (hN : c.run (s.network b) = some N) :
    Inv ((s.setNetwork b N).goto b (.raising n cmds)) := by
  have hframe : Frame b s ((s.setNetwork b N).goto b (.raising n cmds)) :=
    fun c hc => by simp [Boxes.goto, setNetwork, hc]
  obtain ⟨hnet, honly, hcmds⟩ : s.net.get b = some (some n) ∧ (s.network b).Only n ∧
      ∀ d ∈ c :: cmds, d.Only n := by
    simpa [hpc, Fine] using h.fine b
  refine h.ends hframe (h.locks_of_same hframe rfl ?_) (op_goto_self _) (fun hlocked => hlocked) ?_
    fun m hm => ?_
  · simp [Pc.Locked]
  · simp only [Boxes.goto, setNetwork, Function.update_self]
    exact ⟨hnet, Up.run_only hN honly (hcmds c List.mem_cons_self),
      fun d hd => hcmds d (List.mem_cons_of_mem _ hd)⟩
  · have hmn : m = n := by
      rcases hm with ⟨cmds, hm⟩ | ⟨-, hm⟩
      · exact (Pc.raising.inj hm).1.symm
      · have hm : s.net.get b = some (some m) := hm
        rw [hnet] at hm
        exact (Option.some.inj (Option.some.inj hm)).symm
    rw [hmn]
    exact .inl ⟨_, hpc⟩

omit [DecidableEq Id] in
theorem Inv.file (h : Inv s) {c : Id} (hc : s.Claims c n) :
    s.net.get c = some (some n) := by
  rcases hc with ⟨cmds, hpc⟩ | ⟨-, hnet⟩
  · have hfine := h.fine c
    rw [hpc] at hfine
    exact hfine.1
  · exact hnet

theorem Inv.go (h : Inv s) (b : Id) : Inv (s.go b) := by
  have hfine := h.fine b
  have hsees := h.sees b
  unfold Boxes.go
  split
  case h_1 => exact h
  case h_2 wake hpc =>
    rw [hpc] at hfine
    exact h.goto b _ (fun hlocked => hlocked) ⟨hfine, netDown_run _⟩ (by simp)
  case h_3 wake c cmds hpc => exact h.unlinks hpc
  case h_4 wake hpc =>
    rw [hpc] at hfine
    exact h.goto b _ (fun hlocked => hlocked) hfine.2 (by simp)
  case h_5 wake hpc => exact h.removes hpc
  case h_6 => exact h.quit b
  case h_7 kind hpc =>
    rw [hpc] at hfine
    exact h.goto b _ (fun hlocked => hlocked) hfine (by simp)
  case h_8 kind hpc =>
    rw [hpc] at hfine
    split
    case h_1 => exact h
    case h_2 hlock =>
      refine h.allocates (fun c hc => by simp [Boxes.goto, hc]) (op_goto_self _) trivial hfine rfl
        (.inl hlock) fun c n hc => .inl ?_
      rw [FinMap.mem_keys, h.file hc]
      simp
  case h_9 kind f files taken hpc =>
    rw [hpc] at hfine hsees
    have hlock := h.locks b (by rw [hpc]; trivial)
    refine h.allocates (fun c hc => by simp [Boxes.goto, hc]) (op_goto_self _) trivial hfine hlock
      (.inr hlock) fun c n hc => ?_
    rcases hsees c n hc with hmem | hmem
    · rcases List.mem_cons.mp hmem with rfl | hmem
      · right
        simp [h.file hc]
      · exact .inl hmem
    · exact .inr (List.mem_append_right _ hmem)
  case h_10 kind taken hpc =>
    rw [hpc] at hfine hsees
    have hlocked : (s.op b).Locked := by rw [hpc]; trivial
    split
    case h_1 =>
      exact h.unlock hlocked (fun c hc => by simp [Boxes.goto, Boxes.quit, Boxes.unlock, hc])
        (op_goto_self _) rfl
    case h_2 n hlowest =>
      refine h.allocates (fun c hc => by simp [Boxes.goto, hc]) (op_goto_self _) trivial hfine
        (h.locks b hlocked) (.inr (h.locks b hlocked)) fun c hc => ?_
      rcases hsees c n hc with hmem | hmem
      · cases hmem
      · exact not_mem_of_lowestFrom hlowest hmem
  case h_11 kind n hpc =>
    dsimp only
    split
    case h_1 err hup =>
      exact h.unlock (by rw [hpc]; trivial)
        (fun c hc => by simp [Boxes.goto, Boxes.quit, Boxes.unlock, hc]) (op_goto_self _) rfl
    case h_2 cmds hup => exact h.writes hpc (netUp_only hup)
  case h_12 n c cmds hpc =>
    split
    case h_1 => exact h.quit b
    case h_2 N hN => exact h.raises hpc hN
  case h_13 => exact h.quit b

/-- A step that fails keeps the invariant as well, but for an `ip` that is stopped. -/
theorem Inv.fail (h : Inv s) (left : Option Nat) (hwhole : s.Whole (.fail b left)) :
    Inv (s.fail b left) := by
  have hfine := h.fine b
  unfold Boxes.fail
  split
  case h_1 wake cmds hpc =>
    rw [hpc] at hfine
    obtain rfl := hwhole wake cmds hpc
    exact h.goto b _ (fun hlocked => hlocked) hfine.2 (by simp)
  case h_2 hpc =>
    exact h.unlock (by rw [hpc]; trivial)
      (fun c hc => by simp [Boxes.goto, Boxes.quit, Boxes.unlock, hc]) (op_goto_self _) rfl
  case h_3 hpc =>
    exact h.unlock (by rw [hpc]; trivial)
      (fun c hc => by simp [Boxes.goto, Boxes.quit, Boxes.unlock, hc]) (op_goto_self _) rfl
  case h_4 => exact h.quit b

omit [DecidableEq Id] in
theorem inv_empty : Inv ({} : Boxes Id) where
  fine _ := fun hN => absurd rfl hN
  locks _ hlocked := hlocked.elim
  apart b c n hb _ := by
    rcases hb with ⟨cmds, hb⟩ | ⟨hN, -⟩
    · cases hb
    · exact absurd rfl hN
  sees _ := trivial

theorem Inv.act (h : Inv s) (a : Act Id) (hwhole : s.Whole a) : Inv (s.act a) := by
  cases a with
  | wake b kind =>
    dsimp only [Boxes.act]
    split
    case isTrue hpc => exact h.goto b _ (fun hlocked => hlocked) (h.fine b).kept (by simp)
    case isFalse => exact h
  | sleep b =>
    dsimp only [Boxes.act]
    split
    case isTrue hpc => exact h.goto b _ (fun hlocked => hlocked) (h.fine b).kept (by simp)
    case isFalse => exact h
  | go b => exact h.go b
  | fail b left => exact h.fail left hwhole
  | crash =>
    have hclaims : ∀ c n, (s.act .crash).Claims c n → s.Claims c n := by
      rintro c n (⟨cmds, hc⟩ | hc)
      · cases hc
      · exact .inr hc
    exact ⟨fun c => (h.fine c).kept, fun c hc => hc.elim,
      fun b c n hb hc => h.apart b c n (hclaims b n hb) (hclaims c n hc), fun c => trivial⟩
  | reboot => exact inv_empty

theorem Reach.inv (h : Reach Whole s) : Inv s := by
  induction h with
  | start => exact inv_empty
  | step a _ hwhole ih => exact ih.act a hwhole

omit [DecidableEq Id] in
theorem Inv.holds (h : Inv s) (hb : s.Holds b n) : s.Claims b n := by
  obtain ⟨hN, hn⟩ := hb
  obtain ⟨m, hnet, honly⟩ := (h.fine b).kept hN
  have hmn : n = m := by
    rcases hn with hn | hn | hn
    · rw [hnet] at hn
      exact (Option.some.inj (Option.some.inj hn)).symm
    · exact honly.1 n hn
    · exact honly.2 n hn
  rw [hmn]
  exact .inr ⟨hN, hnet⟩

/-- **On a node where no stop's `ip` is stopped before its end, two boxes whose networks exist never
hold the same /30.  For all numbers there are, the host's and the box's address are the second and
the third of the four of the number's /30, which lies in `boxNet` and is another for another
number.** -/
theorem networks_apart (s : Boxes Id) (h : Reach Whole s) :
    (∀ b c n, s.Holds b n → s.Holds c n → b = c) ∧
    (∀ n : Nat, n < maxBoxes → ∃ host guest, addrs n = .ok (host, guest) ∧
      host.value / 4 = guest.value / 4 ∧ host.value % 4 = 1 ∧ guest.value % 4 = 2 ∧
      (∀ x, x / 4 = host.value / 4 → x / 2 ^ 16 = boxNet.value / 2 ^ 16) ∧
      ∀ m : Nat, m < maxBoxes → m ≠ n → ∀ host' guest', addrs m = .ok (host', guest') →
        ∀ x, x / 4 = host.value / 4 → x / 4 ≠ host'.value / 4) := by
  refine ⟨fun b c n hb hc => h.inv.apart b c n (h.inv.holds hb) (h.inv.holds hc), fun n hn => ?_⟩
  obtain ⟨host, guest, haddrs, hhost, hguest⟩ := addrs_value hn
  have hbase : boxNet.value = 173604864 := rfl
  have hn' : n < 16384 := hn
  refine ⟨host, guest, haddrs, by omega, by omega, by omega, fun x hx => ?_, ?_⟩
  · rw [hbase]
    omega
  · intro m hm hne host' guest' haddrs' x hx
    obtain ⟨host₁, guest₁, haddrs₁, hhost₁, -⟩ := addrs_value hm
    rw [haddrs₁] at haddrs'
    obtain ⟨rfl, -⟩ := Prod.mk.inj (Except.ok.inj haddrs')
    omega

/-! ### Runs -/

theorem Reach.run {P : Boxes Id → Act Id → Prop} (h : Reach P s) {acts : List (Act Id)}
    (hacts : ∀ a ∈ acts, ∀ s, P s a) : Reach P (acts.foldl Boxes.act s) := by
  induction acts generalizing s with
  | nil => exact h
  | cons a acts ih =>
    exact ih (h.step a (hacts a List.mem_cons_self s)) fun a ha =>
      hacts a (List.mem_cons_of_mem _ ha)

/-- A wake of the box that finds `k` files. -/
def wakes (b : Id) (k : Nat) : List (Act Id) :=
  .wake b .services :: List.replicate (19 + k) (.go b)

/-- Two boxes wake one after the other, and have the first two numbers. -/
theorem networks_apart_wakes :
    let s : Boxes String := (wakes "a" 0 ++ wakes "b" 1).foldl act {}
    s.Holds "a" 0 ∧ s.Holds "b" 1 ∧ ¬ s.Holds "b" 0 := by
  intro s
  have hreach : Reach Whole s := Reach.start.run fun a ha s => by
    simp only [wakes, List.mem_append, List.mem_cons, List.mem_replicate] at ha
    rcases ha with (rfl | ⟨-, rfl⟩) | (rfl | ⟨-, rfl⟩)
    all_goals trivial
  have ha : s.Holds "a" 0 := ⟨by decide +kernel, .inl (by decide +kernel)⟩
  refine ⟨ha, ⟨by decide +kernel, .inl (by decide +kernel)⟩, fun hb => ?_⟩
  exact absurd ((networks_apart s hreach).1 "a" "b" 0 ha hb) (by decide)

/-- A stop's context is done before `ip` has run: the box's network stays, its number doesn't, and
the next box to wake has it as well. -/
theorem stopped_ip_shares_number :
    ∃ s : Boxes String, Reach (fun _ _ => True) s ∧ s.Holds "a" 0 ∧ s.Holds "b" 0 ∧
      (s.network "a").host = (s.network "b").host := by
  let stop : List (Act String) := [.sleep "a", .go "a", .fail "a" none, .go "a", .go "a"]
  exact ⟨(wakes "a" 0 ++ stop ++ wakes "b" 0).foldl act {}, Reach.start.run fun _ _ _ => trivial,
    ⟨by decide +kernel, .inr (.inl (by decide +kernel))⟩,
      ⟨by decide +kernel, .inl (by decide +kernel)⟩,
    by decide +kernel⟩

end Boxes

end Fern
